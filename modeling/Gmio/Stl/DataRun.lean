import Gmio.Stl.Data

/-!
# Runs of the triangle store

What the callbacks of `gmio_stl_data_mesh_creator` do over a read. While the capacity is
not reached, `add_triangle` stores in place; when `tri_id` reaches it, the capacity grows by
`cap >> 3`. From a capacity of at least `8` this always makes room, and a whole solid ends
with its triangles in the first slots. Below `8` the growth adds nothing, and the triangle
after the guessed ones is stored one past the block.
-/

namespace Gmio

section
variable {τ : Type}

/-- The array holds `done`, the triangles added since its `begin_solid`, in its first slots
and within its capacity, and counts them from `base`, the count it started with. -/
structure StlTriangleArray.Holds (data : StlTriangleArray τ) (base : Nat) (done : List τ) :
    Prop where
  fits : done.length ≤ data.capacity
  block : data.capacity ≤ data.ptr.length
  slots : data.ptr.take done.length = done.map some
  count : data.count = max base done.length

/-- When `tri_id` reaches the capacity, the block is reallocated to `cap + (cap >> 3)` slots
before the store. -/
theorem stlDataAddTriangle_of_eq {data : StlTriangleArray τ} {k : Nat} (t : τ)
    (hk : data.capacity = k) :
    stlDataAddTriangle data k t =
      (store (realloc data.ptr ((k + k / 8) % 2 ^ 32)) k (some t)).map fun ptr =>
        { ptr, count := max data.count ((k + 1) % 2 ^ 32), capacity := (k + k / 8) % 2 ^ 32 } := by
  subst hk
  exact stlDataAddTriangle_of_ge t le_rfl

theorem take_realloc (ptr : List (Option τ)) {k n : Nat} (hk : k ≤ n) (hp : k ≤ ptr.length) :
    (realloc ptr n).take k = ptr.take k := by
  rw [realloc, List.take_append_of_le_length (by simp; omega), List.take_take, Nat.min_eq_left hk]

/-- Storing in the slot right after `done` extends what the block holds by one triangle. -/
theorem take_set_succ {ptr : List (Option τ)} {done : List τ} (t : τ)
    (hk : done.length < ptr.length) (slots : ptr.take done.length = done.map some) :
    (ptr.set done.length (some t)).take (done ++ [t]).length = (done ++ [t]).map some := by
  rw [set_eq_copied _ hk, List.take_left' (by simp; omega), slots]
  simp

namespace StlTriangleArray.Holds

variable {data : StlTriangleArray τ} {base : Nat} {done : List τ}

theorem count_succ (holds : data.Holds base done) (small : done.length + 1 < 2 ^ 32) :
    max data.count ((done.length + 1) % 2 ^ 32) = max base (done ++ [t]).length := by
  rw [holds.count, Nat.mod_eq_of_lt small, List.length_append, List.length_singleton]
  omega

/-- `add_triangle` below the capacity stores in place. -/
theorem add_of_lt (holds : data.Holds base done) (t : τ) (hk : done.length < data.capacity)
    (small : done.length + 1 < 2 ^ 32) :
    ∃ data', stlDataAddTriangle data done.length t = some data' ∧
      data'.Holds base (done ++ [t]) ∧ data'.capacity = data.capacity ∧
      data'.ptr.length = data.ptr.length := by
  have inside : done.length < data.ptr.length := lt_of_lt_of_le hk holds.block
  rw [stlDataAddTriangle_of_lt t hk holds.block]
  refine ⟨_, rfl, ⟨by simp; omega, by simpa using holds.block,
    take_set_succ t inside holds.slots, holds.count_succ small⟩, rfl, List.length_set ..⟩

/-- `add_triangle` at the capacity grows it by an eighth, which makes room from `8` on. -/
theorem add_of_eq (holds : data.Holds base done) (t : τ) (hk : data.capacity = done.length)
    (big : 8 ≤ done.length) (small : done.length + done.length / 8 < 2 ^ 32) :
    ∃ data', stlDataAddTriangle data done.length t = some data' ∧
      data'.Holds base (done ++ [t]) ∧ data'.capacity = done.length + done.length / 8 := by
  have room : done.length < (realloc data.ptr (done.length + done.length / 8)).length := by
    rw [length_realloc]; omega
  have kept := take_realloc data.ptr (show done.length ≤ done.length + done.length / 8
    by omega) (hk ▸ holds.block)
  rw [stlDataAddTriangle_of_eq t hk, Nat.mod_eq_of_lt small, store_of_lt _ room]
  refine ⟨_, rfl, ⟨by simp; omega, by simp [length_realloc],
    take_set_succ t room (kept.trans holds.slots), holds.count_succ (by omega)⟩, rfl⟩

/-- A solid's triangles are all stored in place, or the capacity is at least `8` and the
growth never wraps around `2 ^ 32`: then every `add_triangle` stores inside the block, and
the array ends holding all of them. Without growth, capacity and block are kept. -/
theorem addTriangles (ts : List τ) :
    ∀ {data : StlTriangleArray τ} {done : List τ}, data.Holds base done →
      (done.length + ts.length ≤ data.capacity ∧ done.length + ts.length < 2 ^ 32) ∨
        (8 ≤ data.capacity ∧
          done.length + ts.length + (done.length + ts.length) / 8 ≤ 2 ^ 32) →
      ∃ data', stlDataAddTriangles data done.length ts = some data' ∧
        data'.Holds base (done ++ ts) ∧
        (done.length + ts.length ≤ data.capacity →
          data'.capacity = data.capacity ∧ data'.ptr.length = data.ptr.length) := by
  induction ts with
  | nil => intro data done holds _; exact ⟨data, rfl, by simpa using holds, fun _ => ⟨rfl, rfl⟩⟩
  | cons t ts ih =>
    intro data done holds room
    have hlen : (done ++ [t]).length = done.length + 1 := by simp
    simp only [List.length_cons] at room
    by_cases hk : done.length < data.capacity
    · obtain ⟨d1, h1, hold1, hcap1, hptr1⟩ := holds.add_of_lt t hk (by omega)
      obtain ⟨d', h', hold', keep⟩ := ih hold1 (by rw [hlen, hcap1]; omega)
      rw [hlen] at h'
      refine ⟨d', by simp [stlDataAddTriangles, h1, h'], by simpa using hold', fun hK => ?_⟩
      obtain ⟨hc, hp⟩ := keep (by rw [hlen, hcap1]; simp at hK; omega)
      exact ⟨hc.trans hcap1, hp.trans hptr1⟩
    · have hk' : data.capacity = done.length := by have := holds.fits; omega
      obtain ⟨d1, h1, hold1, hcap1⟩ := holds.add_of_eq t hk' (by omega) (by omega)
      obtain ⟨d', h', hold', -⟩ := ih hold1 (.inr ⟨by rw [hcap1]; omega, by rw [hlen]; omega⟩)
      rw [hlen] at h'
      refine ⟨d', by simp [stlDataAddTriangles, h1, h'], by simpa using hold', fun hK => ?_⟩
      simp at hK; omega

theorem getTriangle {i : Nat} (holds : data.Holds base done) (hi : i < done.length) :
    stlDataGetTriangle data i = some done[i]? := by
  rw [stlDataGetTriangle, ← List.getElem?_take_of_lt hi, holds.slots, List.getElem?_map,
    List.getElem?_eq_getElem hi]
  rfl

end StlTriangleArray.Holds

variable (τ) in
theorem holds_malloc (n : Nat) :
    (stlTriangleArrayMalloc n : StlTriangleArray τ).Holds (sizeToUint32 n) [] :=
  ⟨Nat.zero_le _, Nat.min_le_left _ _ |>.trans_eq (List.length_replicate _ _).symm, rfl,
    by simp⟩

theorem StlBeginSolid.call_eq_malloc (b : StlBeginSolid) :
    (b.call : StlTriangleArray τ) = stlTriangleArrayMalloc b.guess := by
  cases b <;> rfl

theorem stlDataAddTriangles_append (data : StlTriangleArray τ) (k : Nat) (xs ys : List τ) :
    stlDataAddTriangles data k (xs ++ ys) =
      (stlDataAddTriangles data k xs).bind fun data => stlDataAddTriangles data (k + xs.length) ys := by
  induction xs generalizing data k with
  | nil => rfl
  | cons x xs ih =>
    cases h : stlDataAddTriangle data k x with
    | none => simp [stlDataAddTriangles, h]
    | some d => simp [stlDataAddTriangles, h, ih, Nat.add_assoc, Nat.add_comm 1]

/-- The condition under which a solid of `count` triangles is stored inside the block: they
fit in the guessed slots, or the guess is at least `8` slots and the growth never wraps
around `2 ^ 32`. -/
def StlBeginSolid.Fits (b : StlBeginSolid) (count : Nat) : Prop :=
  count ≤ sizeToUint32 b.guess ∨ (8 ≤ sizeToUint32 b.guess ∧ count + count / 8 ≤ 2 ^ 32)

instance (b : StlBeginSolid) (count : Nat) : Decidable (b.Fits count) :=
  inferInstanceAs (Decidable (_ ∨ _))

theorem StlBeginSolid.addTriangles_call {b : StlBeginSolid} {ts : List τ}
    (fits : b.Fits ts.length) :
    ∃ data, stlDataAddTriangles (b.call : StlTriangleArray τ) 0 ts = some data ∧
      data.Holds (sizeToUint32 b.guess) ts := by
  have hsat : sizeToUint32 b.guess < 2 ^ 32 := by
    simp only [sizeToUint32]; omega
  have room := (holds_malloc τ b.guess).addTriangles ts (by
    simp only [stlTriangleArrayMalloc_capacity, List.length_nil, Nat.zero_add]
    rcases fits with h | h
    · exact .inl ⟨h, by omega⟩
    · exact .inr h)
  obtain ⟨data, h, holds, -⟩ := room
  exact ⟨data, by rw [call_eq_malloc]; exact h, holds⟩

/-- Growing a capacity below `8` adds nothing: the store at `tri_id = capacity` falls one
past the block. -/
theorem stlDataAddTriangle_stuck {data : StlTriangleArray τ} {k : Nat} (t : τ)
    (hk : data.capacity = k) (small : k < 8) : stlDataAddTriangle data k t = none := by
  rw [stlDataAddTriangle_of_eq t hk, show (k + k / 8) % 2 ^ 32 = k by omega,
    store_of_le _ (by rw [length_realloc])]
  rfl

/-- An ASCII solid with a hint below 1600 bytes and more facets than the guess: its triangles
up to the guess are stored in place, then `add_triangle` stores one past the block. -/
theorem stlData_ascii_small_guess_overflows (streamSize : Nat) (ts : List τ)
    (small : streamSize < 1600) (more : max 1 (streamSize / 200) < ts.length) :
    stlDataAddTriangles (stlDataAsciiBeginSolid streamSize) 0 ts = none := by
  have few : max 1 (streamSize / 200) < 8 := by omega
  show stlDataAddTriangles (stlTriangleArrayMalloc (max 1 (streamSize / 200))) 0 ts = none
  generalize max 1 (streamSize / 200) = g at few more ⊢
  have hsat : sizeToUint32 g = g := sizeToUint32_of_lt (by omega)
  have room : ([] : List τ).length + (ts.take g).length ≤
      (stlTriangleArrayMalloc g : StlTriangleArray τ).capacity := by
    simp only [List.length_nil, List.length_take, stlTriangleArrayMalloc_capacity, hsat,
      Nat.zero_add]
    exact Nat.min_le_left _ _
  obtain ⟨data, h, -, keep⟩ := (holds_malloc τ g).addTriangles (ts.take g)
    (.inl ⟨room, by simp; omega⟩)
  have hcap : data.capacity = g := by rw [(keep room).1]; simp [hsat]
  obtain ⟨t, rest, hdrop⟩ := List.exists_cons_of_ne_nil
    (show ts.drop g ≠ [] by simpa [List.drop_eq_nil_iff] using more)
  rw [List.length_nil] at h
  rw [← List.take_append_drop g ts, stlDataAddTriangles_append, h, hdrop,
    List.length_take_of_le more.le]
  simp [stlDataAddTriangles, stlDataAddTriangle_stuck t hcap few]

theorem stlData_ascii_small_guess_overflows_at_zero :
    0 < 1600 ∧ max 1 (0 / 200) < [(1 : Nat), 2].length ∧
      stlDataAddTriangles (stlDataAsciiBeginSolid 0) 0 [(1 : Nat), 2] = none :=
  ⟨by decide, by decide, stlData_ascii_small_guess_overflows 0 [1, 2] (by decide) (by decide)⟩

end

end Gmio

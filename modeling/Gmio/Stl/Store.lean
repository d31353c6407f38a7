import Gmio.Stl.DataRun

/-!
# The triangle store as a state machine

`Gmio.Stl.DataRun` follows a reader that adds the triangles of each solid in order. Here the
callbacks of `gmio_stl_data_mesh_creator` come in any order and with any `tri_id`, and the
store is a state machine over `begin_solid` and `add_triangle` events. What the store is for
is an abstract mesh, a map from ids to triangles with a count: `begin_solid` empties the map,
and `add_triangle` sets one id, the last call for an id winning. The block, its capacity and
its reallocations are invisible at that level.

Every run that writes inside the block keeps the store a refinement of the abstract run: the
counts agree, the count never passes the capacity, and `get_triangle` below the capacity reads
inside the block and finds the abstract triangle, or an unwritten slot where the abstract
mesh has none. Past the capacity the read is left unconstrained; past the block it is
undefined.
-/

namespace Gmio

section
variable {τ : Type}

/-- The calls a reader makes on the creator of `gmio_stl_data_mesh_creator`
(`func_end_solid` is left unset there). -/
inductive StlEvent (τ : Type)
  | beginSolid (b : StlBeginSolid)
  | addTriangle (triId : Nat) (triangle : τ)

/-- One callback on the store of `gmio_stl_data_t`. -/
def stlDataStep (data : StlTriangleArray τ) : StlEvent τ → Option (StlTriangleArray τ)
  | .beginSolid b => some b.call
  | .addTriangle triId triangle => stlDataAddTriangle data triId triangle

/-- A sequence of callbacks; `none` as soon as one of them writes outside the block. -/
def stlDataEvents (data : StlTriangleArray τ) :
    List (StlEvent τ) → Option (StlTriangleArray τ)
  | [] => some data
  | e :: es => do
    let data ← stlDataStep data e
    stlDataEvents data es

/-- What a writer should read back from the store: a count, and the triangle last added under
each id, `none` for an id with none. -/
structure AbstractMesh (τ : Type) where
  triangleCount : Nat
  getTriangle : Nat → Option τ

/-- The abstract mesh after one callback: `begin_solid` empties it and starts the count at the
allocation's, `add_triangle` sets one id and counts up to it. -/
def AbstractMesh.step (mesh : AbstractMesh τ) : StlEvent τ → AbstractMesh τ
  | .beginSolid b => ⟨sizeToUint32 b.guess, fun _ => none⟩
  | .addTriangle triId triangle =>
    ⟨max mesh.triangleCount ((triId + 1) % 2 ^ 32),
      Function.update mesh.getTriangle triId (some triangle)⟩

/-- The abstract mesh after a sequence of callbacks. -/
def AbstractMesh.run (mesh : AbstractMesh τ) (events : List (StlEvent τ)) : AbstractMesh τ :=
  events.foldl AbstractMesh.step mesh

/-- The block covers the capacity, and no slot at or past the capacity holds a triangle. -/
structure StlTriangleArray.WellFormed (data : StlTriangleArray τ) : Prop where
  block : data.capacity ≤ data.ptr.length
  none_past : ∀ j, data.capacity ≤ j → (stlDataGetTriangle data j).join = none

/-- The mesh `gmio_stl_data_mesh` hands a writer refines `mesh`: the counts agree and stay
within the capacity, a read below the capacity lies inside the block and finds the triangle
of `mesh`, or an unwritten slot where `mesh` has none, and `mesh` has no triangle at or past
the capacity. Reads at or past the capacity are not constrained. -/
structure StlTriangleArray.Refines (data : StlTriangleArray τ) (mesh : AbstractMesh τ) :
    Prop where
  count : (stlDataMesh data).triangleCount = mesh.triangleCount
  count_le : (stlDataMesh data).triangleCount ≤ data.capacity
  inside : ∀ j < data.capacity, (stlDataMesh data).getTriangle j = some (mesh.getTriangle j)
  outside : ∀ j, data.capacity ≤ j → mesh.getTriangle j = none

/-- `realloc` keeps the slots below the new size and adds empty ones. -/
theorem join_getElem?_realloc (ptr : List (Option τ)) (n j : Nat) :
    ((realloc ptr n)[j]?).join = if j < n then (ptr[j]?).join else none := by
  unfold realloc
  rw [List.getElem?_append, List.getElem?_take, List.getElem?_replicate, List.length_take]
  by_cases hj : j < n
  · by_cases hp : j < ptr.length
    · simp [hj, hp, Nat.lt_min.mpr ⟨hj, hp⟩]
    · simp only [hj, if_true, List.getElem?_eq_none (Nat.le_of_not_lt hp)]
      split_ifs <;> rfl
  · simp only [hj, if_false]
    split_ifs <;> rfl

/-- A read inside the block finds its slot. -/
theorem getTriangle_eq_some_join {data : StlTriangleArray τ} {j : Nat}
    (hj : j < data.ptr.length) :
    stlDataGetTriangle data j = some (stlDataGetTriangle data j).join := by
  simp [stlDataGetTriangle, List.getElem?_eq_getElem hj]

/-- A fresh array holds no triangle. -/
@[simp] theorem join_getTriangle_malloc (n j : Nat) :
    (stlDataGetTriangle (stlTriangleArrayMalloc n : StlTriangleArray τ) j).join = none := by
  simp [stlDataGetTriangle, List.getElem?_replicate]

/-- What a successful `add_triangle` leaves: the capacity never shrinks and covers `tri_id`,
the count goes up to `tri_id + 1`, and slot `tri_id` holds the triangle while every other
slot holds what it held, or nothing past the capacity. -/
theorem stlDataAddTriangle_eq_some {data d' : StlTriangleArray τ} {k : Nat} {t : τ}
    (wf : data.WellFormed) (h : stlDataAddTriangle data k t = some d') :
    k < d'.capacity ∧ data.capacity ≤ d'.capacity ∧
      (d'.capacity = data.capacity ∨ d'.capacity < 2 ^ 32) ∧ d'.capacity ≤ d'.ptr.length ∧
      d'.count = max data.count ((k + 1) % 2 ^ 32) ∧
      ∀ j, (stlDataGetTriangle d' j).join = if j = k then some t
        else if j < d'.capacity then (stlDataGetTriangle data j).join else none := by
  by_cases hk : k < data.capacity
  · rw [stlDataAddTriangle_of_lt t hk wf.block] at h
    cases h
    refine ⟨hk, le_rfl, .inl rfl, by simpa using wf.block, rfl, fun j => ?_⟩
    simp only [stlDataGetTriangle, List.getElem?_set]
    by_cases hj : j = k
    · subst hj; simp [show j < data.ptr.length from hk.trans_le wf.block]
    · simp only [Ne.symm hj, hj, if_false]
      split_ifs with hjc
      · rfl
      · exact wf.none_past j (Nat.le_of_not_lt hjc)
  · rw [stlDataAddTriangle_of_ge t (Nat.le_of_not_lt hk)] at h
    obtain ⟨ptr, hs, rfl⟩ := Option.map_eq_some'.mp h
    obtain ⟨hin, rfl⟩ := store_eq_some.mp hs
    rw [length_realloc] at hin
    refine ⟨hin, Nat.le_of_lt (Nat.lt_of_le_of_lt (Nat.le_of_not_lt hk) hin),
      .inr (Nat.mod_lt _ (Nat.two_pow_pos 32)), by simp [length_realloc], rfl, fun j => ?_⟩
    simp only [stlDataGetTriangle, List.getElem?_set, length_realloc]
    by_cases hj : j = k
    · subst hj; rw [if_pos rfl, if_pos hin, if_pos rfl]; rfl
    · simp only [Ne.symm hj, hj, if_false, join_getElem?_realloc]

namespace StlTriangleArray.WellFormed

variable {data d' : StlTriangleArray τ}

theorem call (b : StlBeginSolid) : (b.call : StlTriangleArray τ).WellFormed := by
  rw [StlBeginSolid.call_eq_malloc]
  refine ⟨?_, fun j _ => join_getTriangle_malloc _ j⟩
  simp only [stlTriangleArrayMalloc_capacity, stlTriangleArrayMalloc_ptr, List.length_replicate]
  exact Nat.min_le_left _ _

theorem step (wf : data.WellFormed) {e : StlEvent τ} (h : stlDataStep data e = some d') :
    d'.WellFormed := by
  cases e with
  | beginSolid b => cases h; exact call b
  | addTriangle k t =>
    obtain ⟨hk, -, -, block, -, slots⟩ := stlDataAddTriangle_eq_some wf h
    exact ⟨block, fun j hj => by rw [slots, if_neg (by omega), if_neg (by omega)]⟩

end StlTriangleArray.WellFormed

namespace StlTriangleArray.Refines

variable {data d' : StlTriangleArray τ} {mesh : AbstractMesh τ}

/-- `begin_solid` installs a fresh array, which refines the emptied mesh whatever came
before. -/
theorem call (b : StlBeginSolid) :
    (b.call : StlTriangleArray τ).Refines (mesh.step (.beginSolid b)) := by
  rw [StlBeginSolid.call_eq_malloc]
  refine ⟨rfl, le_rfl, fun j hj => ?_, fun _ _ => rfl⟩
  have hj : j < b.guess := hj.trans_le (Nat.min_le_left _ _)
  simp [stlDataGetTriangle, AbstractMesh.step, List.getElem?_replicate, hj]

/-- One `add_triangle` inside the block moves the store as the abstract mesh moves. -/
theorem addTriangle (hr : data.Refines mesh) (wf : data.WellFormed) {k : Nat} {t : τ}
    (h : stlDataAddTriangle data k t = some d') :
    d'.Refines (mesh.step (.addTriangle k t)) := by
  obtain ⟨hk, grows, -, block, count, slots⟩ := stlDataAddTriangle_eq_some wf h
  have count_le : data.count ≤ data.capacity := hr.count_le
  have wraps : (k + 1) % 2 ^ 32 ≤ k + 1 := Nat.mod_le _ _
  refine ⟨?_, ?_, fun j hj => ?_, fun j hj => ?_⟩
  · simp [count, AbstractMesh.step, ← hr.count]
  · simp only [stlDataMesh_triangleCount, count]
    omega
  · rw [stlDataMesh_getTriangle, getTriangle_eq_some_join (by omega), slots]
    simp only [AbstractMesh.step, Function.update_apply]
    split_ifs with hjk
    · rfl
    · by_cases hjc : j < data.capacity
      · rw [← stlDataMesh_getTriangle, hr.inside j hjc]; rfl
      · rw [wf.none_past j (by omega), hr.outside j (by omega)]
  · simp only [AbstractMesh.step, Function.update_apply, if_neg (show j ≠ k by omega)]
    exact hr.outside j (by omega)

theorem step (hr : data.Refines mesh) (wf : data.WellFormed) {e : StlEvent τ}
    (h : stlDataStep data e = some d') : d'.Refines (mesh.step e) := by
  cases e with
  | beginSolid b => cases h; exact call b
  | addTriangle k t => exact hr.addTriangle wf h

/-- The shared induction over a run of callbacks. -/
theorem run (hr : data.Refines mesh) (wf : data.WellFormed) (events : List (StlEvent τ))
    (h : stlDataEvents data events = some d') :
    d'.WellFormed ∧ d'.Refines (mesh.run events) := by
  induction events generalizing data mesh with
  | nil => cases h; exact ⟨wf, hr⟩
  | cons e es ih =>
    obtain ⟨d1, h1, hrest⟩ := Option.bind_eq_some.mp h
    exact ih (hr.step wf h1) (wf.step h1) hrest

end StlTriangleArray.Refines

/-- The zeroed `gmio_stl_data_t` a test starts from. -/
theorem wellFormed_zero : (⟨[], 0, 0⟩ : StlTriangleArray τ).WellFormed :=
  ⟨le_rfl, fun _ _ => rfl⟩

theorem refines_zero : (⟨[], 0, 0⟩ : StlTriangleArray τ).Refines ⟨0, fun _ => none⟩ :=
  ⟨rfl, le_rfl, fun _ hj => absurd hj (Nat.not_lt_zero _), fun _ _ => rfl⟩

/-- Every triangle the mesh answers for has an id below its count, and the capacity is a
`uint32_t`. -/
structure StlTriangleArray.Counted (data : StlTriangleArray τ) : Prop where
  capacity_lt : data.capacity < 2 ^ 32
  stored_lt : ∀ j t, stlDataGetTriangle data j = some (some t) → j < data.count

namespace StlTriangleArray.Counted

variable {data d' : StlTriangleArray τ}

theorem call (b : StlBeginSolid) : (b.call : StlTriangleArray τ).Counted := by
  rw [StlBeginSolid.call_eq_malloc]
  refine ⟨?_, fun j t hj => ?_⟩
  · simp only [stlTriangleArrayMalloc_capacity, sizeToUint32]
    omega
  · have := join_getTriangle_malloc (τ := τ) b.guess j
    rw [hj] at this
    cases this

/-- A stored `tri_id` is below a capacity that fits `uint32_t`, so `tri_id + 1` does not wrap
and the count covers it. -/
theorem addTriangle (counted : data.Counted) (wf : data.WellFormed) {k : Nat} {t : τ}
    (h : stlDataAddTriangle data k t = some d') : d'.Counted := by
  obtain ⟨hk, -, hcap, -, count, slots⟩ := stlDataAddTriangle_eq_some wf h
  have hcap' : d'.capacity < 2 ^ 32 := hcap.elim (· ▸ counted.capacity_lt) id
  have wraps : (k + 1) % 2 ^ 32 = k + 1 := Nat.mod_eq_of_lt (by omega)
  refine ⟨hcap', fun j t' hj => ?_⟩
  have stored : some t' = _ := (congrArg Option.join hj).symm.trans (slots j)
  rw [count, wraps]
  split_ifs at stored with hjk hjc
  · rw [hjk]; exact Nat.lt_of_lt_of_le (Nat.lt_succ_self k) (Nat.le_max_right _ _)
  · exact Nat.lt_of_lt_of_le (counted.stored_lt j t' (Option.join_eq_some.mp stored.symm))
      (Nat.le_max_left _ _)

theorem step (counted : data.Counted) (wf : data.WellFormed) {e : StlEvent τ}
    (h : stlDataStep data e = some d') : d'.Counted := by
  cases e with
  | beginSolid b => cases h; exact call b
  | addTriangle k t => exact counted.addTriangle wf h

end StlTriangleArray.Counted

theorem counted_zero : (⟨[], 0, 0⟩ : StlTriangleArray τ).Counted :=
  ⟨Nat.two_pow_pos 32, fun _ _ h => nomatch h⟩

/-- Over any run that writes inside the block, from a well-formed store, every id whose read
finds a triangle is below `triangle_count`: a writer that reads ids
`0 .. triangle_count - 1` sees every triangle the store holds. -/
theorem stlDataEvents_stored_below_count (events : List (StlEvent τ))
    {data d' : StlTriangleArray τ} (wf : data.WellFormed) (counted : data.Counted)
    (h : stlDataEvents data events = some d') :
    ∀ j t, (stlDataMesh d').getTriangle j = some (some t) →
      j < (stlDataMesh d').triangleCount := by
  induction events generalizing data with
  | nil => cases h; exact counted.stored_lt
  | cons e es ih =>
    obtain ⟨d1, h1, hrest⟩ := Option.bind_eq_some.mp h
    exact ih (wf.step h1) (counted.step wf h1) hrest

theorem stlDataEvents_stored_below_count_one :
    (⟨[], 0, 0⟩ : StlTriangleArray Nat).WellFormed ∧
      (⟨[], 0, 0⟩ : StlTriangleArray Nat).Counted ∧
      stlDataEvents ⟨[], 0, 0⟩ [.beginSolid (.binary 1), .addTriangle 0 5] =
        some ⟨[some 5], 1, 1⟩ ∧
      ∀ j t, (stlDataMesh (⟨[some 5], 1, 1⟩ : StlTriangleArray Nat)).getTriangle j =
          some (some t) →
        j < (stlDataMesh (⟨[some 5], 1, 1⟩ : StlTriangleArray Nat)).triangleCount :=
  ⟨wellFormed_zero, counted_zero, rfl,
    stlDataEvents_stored_below_count [.beginSolid (.binary 1), .addTriangle 0 5] wellFormed_zero
      counted_zero rfl⟩

/-- A reader's `add_triangle` calls with `tri_id = k, k + 1, …` are the events of its ids. -/
theorem stlDataEvents_adds (ts : List τ) :
    ∀ (data : StlTriangleArray τ) (k : Nat),
      stlDataEvents data ((ts.enumFrom k).map fun p => .addTriangle p.1 p.2) =
        stlDataAddTriangles data k ts := by
  induction ts with
  | nil => intro data k; rfl
  | cons t ts ih =>
    intro data k
    simp only [List.enumFrom_cons, List.map_cons, stlDataEvents, stlDataStep,
      stlDataAddTriangles, ih]

/-- Ids `k, k + 1, …` set in turn: the mesh answers the added triangle for those ids and what it
answered before for the others. -/
theorem AbstractMesh.run_adds_getTriangle (ts : List τ) :
    ∀ (mesh : AbstractMesh τ) (k j : Nat),
      (mesh.run ((ts.enumFrom k).map fun p => .addTriangle p.1 p.2)).getTriangle j =
        if k ≤ j ∧ j < k + ts.length then ts[j - k]? else mesh.getTriangle j := by
  induction ts with
  | nil =>
    intro mesh k j
    rw [if_neg (by simp only [List.length_nil, Nat.add_zero]; omega)]
    rfl
  | cons t ts ih =>
    intro mesh k j
    rw [List.enumFrom_cons, List.map_cons]
    show ((mesh.step (.addTriangle k t)).run _).getTriangle j = _
    rw [ih]
    simp only [AbstractMesh.step, Function.update_apply, List.length_cons]
    rcases Nat.lt_trichotomy j k with hj | rfl | hj
    · rw [if_neg (by omega), if_neg (by omega), if_neg (by omega)]
    · rw [if_neg (by omega), if_pos rfl, if_pos (by omega), Nat.sub_self,
        List.getElem?_cons_zero]
    · by_cases hin : j < k + 1 + ts.length
      · rw [if_pos ⟨hj, hin⟩, if_pos ⟨by omega, by omega⟩,
          show j - k = j - (k + 1) + 1 by omega, List.getElem?_cons_succ]
      · rw [if_neg (by omega), if_neg (by omega), if_neg (by omega)]

end

end Gmio

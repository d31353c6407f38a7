import Mathlib.Data.List.Basic

/-!
# Stores into a block of memory

A block is the list of its cells, and `store ptr i x` is the C assignment `ptr[i] = x`. A
store outside the block is undefined behaviour: the model returns `none` for it, so a run
that returns `some _` wrote nothing outside the blocks it was given. The lemmas describe a
block into which a run of cells `w` was copied from index `i`:
`ptr.take i ++ w ++ ptr.drop (i + w.length)`.
-/

namespace Gmio

variable {α : Type}

/-- `ptr[i] = x`; `none` when `i` is outside the block. -/
def store (ptr : List α) (i : Nat) (x : α) : Option (List α) :=
  if i < ptr.length then some (ptr.set i x) else none

theorem store_of_lt {ptr : List α} {i : Nat} (c : α) (h : i < ptr.length) :
    store ptr i c = some (ptr.set i c) := if_pos h

theorem store_of_le {ptr : List α} {i : Nat} (c : α) (h : ptr.length ≤ i) :
    store ptr i c = none := if_neg (Nat.not_lt.mpr h)

theorem store_eq_some {ptr p : List α} {i : Nat} {x : α} :
    store ptr i x = some p ↔ i < ptr.length ∧ ptr.set i x = p := by
  unfold store; split <;> simp [*]

/-- Storing `x` right after cells `w` copied at `i` copies one cell more. -/
theorem set_copied {ptr w : List α} {i : Nat} (x : α) (h : i + w.length < ptr.length) :
    (ptr.take i ++ w ++ ptr.drop (i + w.length)).set (i + w.length) x =
      ptr.take i ++ w ++ x :: ptr.drop (i + w.length + 1) := by
  have hi : (ptr.take i ++ w).length = i + w.length := by simp; omega
  rw [List.set_eq_take_append_cons_drop, if_pos (by simp; omega), ← hi, List.take_left,
    List.drop_append_eq_append_drop]
  simp [List.drop_drop, hi]

theorem length_copied {ptr w : List α} {i : Nat} (h : i + w.length ≤ ptr.length) :
    (ptr.take i ++ w ++ ptr.drop (i + w.length)).length = ptr.length := by
  simp; omega

theorem set_eq_copied {ptr : List α} {i : Nat} (c : α) (h : i < ptr.length) :
    ptr.set i c = ptr.take i ++ [c] ++ ptr.drop (i + 1) := by
  simp [List.set_eq_take_append_cons_drop, h]

/-- A cell copied at `i`, then cells `w` copied at `i + 1`, is `c :: w` copied at `i`. -/
theorem copied_set {ptr w : List α} {i : Nat} (c : α) (h : i < ptr.length) :
    (ptr.set i c).take (i + 1) ++ w ++ (ptr.set i c).drop (i + 1 + w.length) =
      ptr.take i ++ (c :: w) ++ ptr.drop (i + (c :: w).length) := by
  rw [set_eq_copied c h]
  have hi : (ptr.take i ++ [c]).length = i + 1 := by simp; omega
  rw [← hi, List.take_left, List.drop_append, List.drop_drop, hi, List.length_cons,
    show i + 1 + w.length = i + (w.length + 1) by omega]
  simp

end Gmio

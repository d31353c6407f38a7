import Mathlib.Data.List.Basic

/-!
# Words of a byte string

The specification side of the string parser. A word is a maximal run of bytes that are not
spaces: `word r` is the first word of `r`, after its leading spaces, `afterWord r` what
follows it (from its delimiting space on), and `words s` all the words of `s` in order,
defined by splitting `s` at its spaces, independently of any cursor or buffer.
-/

namespace Gmio

section
variable (isspace : UInt8 → Bool)

/-- The first maximal run of non-space bytes of `r`. -/
def word (r : List UInt8) : List UInt8 :=
  (r.dropWhile isspace).takeWhile (fun x => !isspace x)

/-- What follows the first word of `r`; the space that ends the word is not consumed. -/
def afterWord (r : List UInt8) : List UInt8 :=
  (r.dropWhile isspace).dropWhile (fun x => !isspace x)

/-- The maximal runs of non-space bytes of `s`, in order. -/
def words (s : List UInt8) : List (List UInt8) :=
  (s.splitOnP isspace).filter (fun w => !w.isEmpty)

variable {isspace}

theorem not_isspace_of_dropWhile_eq_cons {r t : List UInt8} {c : UInt8}
    (h : r.dropWhile isspace = c :: t) : isspace c = false := by
  have head := List.head?_dropWhile_not isspace r
  rw [h] at head
  simpa using head

theorem word_eq_nil_iff {r : List UInt8} : word isspace r = [] ↔ ∀ x ∈ r, isspace x := by
  rw [← List.dropWhile_eq_nil_iff, word]
  cases h : r.dropWhile isspace with
  | nil => simp
  | cons c t => simp [not_isspace_of_dropWhile_eq_cons h]

theorem word_append_afterWord (r : List UInt8) :
    word isspace r ++ afterWord isspace r = r.dropWhile isspace :=
  List.takeWhile_append_dropWhile _ _

theorem afterWord_eq_drop (r : List UInt8) :
    afterWord isspace r = (r.dropWhile isspace).drop (word isspace r).length := by
  have split := List.drop_left ((r.dropWhile isspace).takeWhile (fun x => !isspace x))
    ((r.dropWhile isspace).dropWhile (fun x => !isspace x))
  rw [List.takeWhile_append_dropWhile] at split
  exact split.symm

theorem splitOnP_append_of_word {u : List UInt8} (rest : List UInt8)
    (hu : ∀ x ∈ u, isspace x = false) :
    (u ++ rest).splitOnP isspace = (rest.splitOnP isspace).modifyHead (u ++ ·) := by
  induction u with
  | nil => simp only [List.nil_append]; cases rest.splitOnP isspace <;> rfl
  | cons x u ih =>
    have hx : isspace x = false := hu x (List.mem_cons_self _ _)
    simp [List.splitOnP_cons, hx, ih fun y hy => hu y (List.mem_cons_of_mem _ hy),
      Function.comp_def]

theorem words_cons_of_isspace {x : UInt8} (s : List UInt8) (hx : isspace x) :
    words isspace (x :: s) = words isspace s := by
  simp [words, List.splitOnP_cons, hx]

/-- A word followed by a space, or by nothing, is the first of the words. -/
theorem words_append_word {u rest : List UInt8} (hu : ∀ x ∈ u, isspace x = false) (hne : u ≠ [])
    (hrest : ∀ y ∈ rest.head?, isspace y) : words isspace (u ++ rest) = u :: words isspace rest := by
  cases rest with
  | nil =>
    rw [List.append_nil, words, List.splitOnP_eq_single isspace u (by simpa using hu)]
    simp [words, hne]
  | cons y ys =>
    have hy : isspace y := hrest y rfl
    rw [words_cons_of_isspace ys hy, words, splitOnP_append_of_word _ hu]
    simp [List.splitOnP_cons, hy, hne, words]

theorem words_dropWhile (r : List UInt8) : words isspace (r.dropWhile isspace) = words isspace r := by
  induction r with
  | nil => rfl
  | cons x r ih =>
    by_cases hx : isspace x
    · rw [List.dropWhile_cons_of_pos hx, ih, words_cons_of_isspace r hx]
    · rw [List.dropWhile_cons_of_neg hx]

theorem words_of_word_eq_nil {r : List UInt8} (h : word isspace r = []) : words isspace r = [] := by
  rw [← words_dropWhile, List.dropWhile_eq_nil_iff.mpr (word_eq_nil_iff.mp h)]
  rfl

/-- The words of `r` are its first word, then the words of what follows it. -/
theorem words_eq_cons {r : List UInt8} (h : word isspace r ≠ []) :
    words isspace r = word isspace r :: words isspace (afterWord isspace r) := by
  rw [← words_dropWhile,
    ← List.takeWhile_append_dropWhile (fun x => !isspace x) (r.dropWhile isspace)]
  refine words_append_word (fun x hx => by simpa using List.mem_takeWhile_imp hx) h ?_
  intro y hy
  have head := List.head?_dropWhile_not (fun x => !isspace x) (r.dropWhile isspace)
  rw [Option.mem_def.mp hy] at head
  simpa using head

/-- What is left of the first word after its first `k` bytes, then what follows the word: the
rest of the word, if any, is the first of the words. -/
theorem words_drop_word_append (r : List UInt8) (k : Nat) :
    words isspace ((word isspace r).drop k ++ afterWord isspace r) =
      (if (word isspace r).drop k = [] then [] else [(word isspace r).drop k]) ++
        words isspace (afterWord isspace r) := by
  by_cases hu : (word isspace r).drop k = []
  · rw [hu, if_pos rfl]; rfl
  · rw [if_neg hu, words_append_word (fun x hx => ?_) hu (fun y hy => ?_)]
    · rfl
    · simpa using List.mem_takeWhile_imp (List.mem_of_mem_drop hx)
    · have head := List.head?_dropWhile_not (fun x => !isspace x) (r.dropWhile isspace)
      unfold afterWord at hy
      rw [Option.mem_def.mp hy] at head
      simpa using head

end

end Gmio

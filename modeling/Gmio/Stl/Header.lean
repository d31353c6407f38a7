import Gmio.Memory

/-!
# The binary header as a printable string

`gmio_stlb_header_to_printable_string` (tests/stl_utils.c) copies the 80 bytes of a binary
STL header into a C string `str`, replacing each byte that `isprint` rejects by
`replacement`, then ends the string with a null byte. The header is opaque data: nothing
says its bytes are text or that one of them is null. `isprint` comes from `<ctype.h>` and
depends on the locale, so it is a parameter. `str` is the storage the caller hands in; a
store past its end makes the model return `none`.

The loop writes `str[0, 80)` and `str[80]` and nothing else, and the C string a caller then
reads is exactly 80 printable bytes, the header's printable bytes kept in place.
-/

namespace Gmio

/-- `GMIO_STLB_HEADER_SIZE`. -/
def stlbHeaderSize : Nat := 80

/-- `gmio_stlb_header_t`: exactly `GMIO_STLB_HEADER_SIZE` bytes. -/
structure StlbHeader where
  data : List UInt8
  size_eq : data.length = stlbHeaderSize

/-- The string a C reader sees in `s`: the bytes before the first null byte. -/
def cString (s : List UInt8) : List UInt8 := s.takeWhile (· != 0)

section
variable (isprint : UInt8 → Bool)

/-- `gmio_stlb_header_to_printable_string`: `str[i]` is `header->data[i]` when it is
printable and `replacement` otherwise, for each `i < GMIO_STLB_HEADER_SIZE`, then
`str[GMIO_STLB_HEADER_SIZE] = 0`. -/
def stlbHeaderToPrintableString (header : StlbHeader) (str : List UInt8) (replacement : UInt8) :
    Option (List UInt8) := do
  let str ← header.data.enum.foldlM
    (fun str ic => store str ic.1 (if isprint ic.2 then ic.2 else replacement)) str
  store str stlbHeaderSize 0

/-- The copy loop from index `k`: it fills `str[k, k + |l|)` with the images of `l` and keeps
the rest, or stores past the end of `str`. -/
theorem foldlM_store_enumFrom {g : UInt8 → UInt8} (l : List UInt8) :
    ∀ (k : Nat) (str : List UInt8), k ≤ str.length →
      (l.enumFrom k).foldlM (fun str ic => store str ic.1 (g ic.2)) str =
        if k + l.length ≤ str.length then
          some (str.take k ++ l.map g ++ str.drop (k + l.length))
        else none := by
  induction l with
  | nil =>
    intro k str hk
    simp only [List.enumFrom_nil, List.foldlM_nil, List.length_nil, Nat.add_zero, List.map_nil,
      List.append_nil, List.take_append_drop, if_pos hk]
    rfl
  | cons c l ih =>
    intro k str hk0
    rw [List.enumFrom_cons, List.foldlM_cons]
    by_cases hk : k < str.length
    · have copied := copied_set (g c) hk (w := l.map g)
      simp only [List.length_map, List.length_cons] at copied
      simp only [store_of_lt _ hk, Option.bind_eq_bind, Option.some_bind]
      rw [ih (k + 1) _ (by simpa using hk)]
      simp only [List.length_set, List.length_cons, List.map_cons]
      by_cases room : k + 1 + l.length ≤ str.length
      · rw [if_pos room, if_pos (by omega), copied]
      · rw [if_neg room, if_neg (by omega)]
    · simp only [store_of_le _ (Nat.le_of_not_lt hk), Option.bind_eq_bind, Option.none_bind,
        List.length_cons]
      rw [if_neg (by omega)]

/-- The whole call: `str` must have room for the 80 bytes and the null byte; then it holds the
header with its unprintable bytes replaced, a null byte, and its own bytes past index 80. -/
theorem stlbHeaderToPrintableString_eq (header : StlbHeader) (str : List UInt8)
    (replacement : UInt8) :
    stlbHeaderToPrintableString isprint header str replacement =
      if stlbHeaderSize < str.length then
        some (header.data.map (fun c => if isprint c then c else replacement) ++
          0 :: str.drop (stlbHeaderSize + 1))
      else none := by
  have loop := foldlM_store_enumFrom (g := fun c => if isprint c then c else replacement)
    header.data 0 str (Nat.zero_le _)
  simp only [Nat.zero_add, List.take_zero, List.nil_append, header.size_eq] at loop
  unfold stlbHeaderToPrintableString
  rw [List.enum, loop]
  by_cases hs : stlbHeaderSize < str.length
  · have hw : 0 + (header.data.map fun c => if isprint c then c else replacement).length <
        str.length := by simp [header.size_eq, hs]
    have copied := set_copied 0 hw
    simp only [List.take_zero, List.nil_append, Nat.zero_add, List.length_map,
      header.size_eq] at copied
    rw [if_pos hs.le, if_pos hs]
    simp only [Option.bind_eq_bind, Option.some_bind]
    rw [store_of_lt _ (by simp [header.size_eq]; omega), copied]
  · rw [if_neg hs]
    split_ifs with hle
    · simp only [Option.bind_eq_bind, Option.some_bind]
      rw [store_of_le _ (by simp [header.size_eq]; omega)]
    · rfl

/-- Given room for the 80 bytes and the null byte, the call writes the header, its
unprintable bytes replaced, into `str[0, 80)`, a null byte into `str[80]`, and nothing else.
With a printable `replacement`, in a locale where the null byte is not printable, the C
string it leaves is then exactly `GMIO_STLB_HEADER_SIZE` printable bytes: the header's
printable bytes in place, `replacement` for the others. -/
theorem stlbHeaderToPrintableString_printable (header : StlbHeader) {str : List UInt8}
    {replacement : UInt8} (room : stlbHeaderSize < str.length) :
    ∃ s, stlbHeaderToPrintableString isprint header str replacement = some s ∧
      s.take stlbHeaderSize = header.data.map (fun c => if isprint c then c else replacement) ∧
      s[stlbHeaderSize]? = some 0 ∧
      s.drop (stlbHeaderSize + 1) = str.drop (stlbHeaderSize + 1) ∧
      (isprint 0 = false → isprint replacement = true →
        cString s = header.data.map (fun c => if isprint c then c else replacement) ∧
        (cString s).length = stlbHeaderSize ∧ ∀ c ∈ cString s, isprint c = true) := by
  refine ⟨_, by rw [stlbHeaderToPrintableString_eq, if_pos room], ?_, ?_, ?_, fun nul hr => ?_⟩
  · simp [header.size_eq]
  · rw [List.getElem?_append_right (by simp [header.size_eq])]
    simp [header.size_eq]
  · simp [List.drop_append_eq_append_drop, header.size_eq]
  have printable : ∀ c ∈ header.data.map (fun c => if isprint c then c else replacement),
      isprint c = true := by
    simp only [List.mem_map]
    rintro _ ⟨c, -, rfl⟩
    split_ifs with hc
    · exact hc
    · exact hr
  have kept : cString (header.data.map (fun c => if isprint c then c else replacement) ++
      0 :: str.drop (stlbHeaderSize + 1)) =
      header.data.map (fun c => if isprint c then c else replacement) := by
    rw [cString, List.takeWhile_append_of_pos fun c hc => ?_]
    · simp
    · have := printable c hc
      simp only [bne_iff_ne, ne_eq]
      rintro rfl
      rw [nul] at this
      cases this
  exact ⟨kept, by simp [kept, header.size_eq], by rw [kept]; exact printable⟩

theorem stlbHeaderToPrintableString_printable_half :
    (fun c : UInt8 => 32 ≤ c && c ≤ 126) 0 = false ∧
    (fun c : UInt8 => 32 ≤ c && c ≤ 126) 46 = true ∧
    stlbHeaderSize < (List.replicate 81 (0 : UInt8)).length ∧
    ∃ s, stlbHeaderToPrintableString (fun c => 32 ≤ c && c ≤ 126)
        ⟨List.replicate 40 65 ++ List.replicate 40 7, by decide⟩ (List.replicate 81 0) 46 =
          some s ∧
      s.take stlbHeaderSize = (List.replicate 40 (65 : UInt8) ++ List.replicate 40 7).map
        (fun c => if (fun c : UInt8 => 32 ≤ c && c ≤ 126) c then c else 46) ∧
      s[stlbHeaderSize]? = some 0 ∧
      s.drop (stlbHeaderSize + 1) = (List.replicate 81 (0 : UInt8)).drop (stlbHeaderSize + 1) ∧
      ((fun c : UInt8 => 32 ≤ c && c ≤ 126) 0 = false →
        (fun c : UInt8 => 32 ≤ c && c ≤ 126) 46 = true →
        cString s = (List.replicate 40 (65 : UInt8) ++ List.replicate 40 7).map
          (fun c => if (fun c : UInt8 => 32 ≤ c && c ≤ 126) c then c else 46) ∧
        (cString s).length = stlbHeaderSize ∧
        ∀ c ∈ cString s, (fun c : UInt8 => 32 ≤ c && c ≤ 126) c = true) :=
  ⟨rfl, rfl, by decide, stlbHeaderToPrintableString_printable _ _ (by decide)⟩

end

end Gmio

import Gmio.Memory
import Gmio.StringParse.Iterator
import Gmio.StringParse.Words

/-!
# `gmio_eat_word`

`gmio_eat_word` skips the spaces under the cursor, then appends the bytes of the next word
to an output `gmio_string_buffer_t` and ends them with a null byte. The output buffer is the
storage `ptr` points to, `max_len` bytes, with the length `len` of the string it holds; a
write outside the storage is undefined behaviour, and makes the model return `none`. So a
result `some _` says in particular that no index at or past `max_len` was written.
-/

namespace Gmio

/-- `gmio_string_buffer_t` as an output: `ptr` is the storage of `max_len` bytes it points
to, `len` the length of the string it holds. -/
structure StringBuffer where
  ptr : List UInt8
  len : Nat
  deriving DecidableEq, Repr

/-- `buffer->max_len`, the size of the storage. -/
def StringBuffer.maxLen (b : StringBuffer) : Nat := b.ptr.length

/-- `gmio_eat_word_error_t`. -/
inductive EatWordError
  | ok
  | empty
  | capacityOverflow
  deriving DecidableEq, Repr

section
variable (isspace : UInt8 → Bool)

/-- The contract of `gmio_eat_word`, over `r`, the bytes left to the cursor, and `b`, the
output buffer, before the call, and `r'`, `b'`, `e` after it: the status is `EMPTY` exactly
when no word is left, and `OK` exactly when the word fits with its null byte; `OK` appends
the word and its null byte and leaves the cursor on the byte right after the word; `EMPTY`
writes one null byte at `len`; `CAPACITY_OVERFLOW` keeps `len` and `ptr[0, len)`. -/
structure EatWordContract (r : List UInt8) (b : StringBuffer) (r' : List UInt8)
    (b' : StringBuffer) (e : EatWordError) : Prop where
  storage : b'.maxLen = b.maxLen
  empty_iff : e = .empty ↔ ∀ x ∈ r, isspace x
  ok_iff : e = .ok ↔ word isspace r ≠ [] ∧ b.len + (word isspace r).length < b.maxLen
  on_empty : e = .empty → b' = ⟨b.ptr.set b.len 0, b.len⟩
  on_ok : e = .ok → b' = ⟨b.ptr.take b.len ++ word isspace r ++
      0 :: b.ptr.drop (b.len + (word isspace r).length + 1), b.len + (word isspace r).length⟩ ∧
    r' = afterWord isspace r
  on_overflow : e = .capacityOverflow → b'.len = b.len ∧ b'.ptr.take b.len = b.ptr.take b.len
  len_lt : e ≠ .capacityOverflow → b'.len < b'.maxLen

/-- The `do { … } while (…)` loop of `gmio_eat_word`: copy the byte under the cursor to
`ptr[i]`, advance, and go on while `i < buffer_capacity` and the new byte is neither NULL nor
a space. Returns the iterator, the storage and `i` after the loop. -/
def eatWordLoop (cap : Nat) (it : StringStreamFwdIterator) (ptr : List UInt8) (i : Nat)
    (c : UInt8) : Option (StringStreamFwdIterator × List UInt8 × Nat) := do
  let ptr ← store ptr i c
  match it.nextChar with
  | (it, some c) =>
    if h : i + 1 < cap ∧ !isspace c then eatWordLoop cap it ptr (i + 1) c
    else pure (it, ptr, i + 1)
  | (it, none) => pure (it, ptr, i + 1)
termination_by cap - i
decreasing_by all_goals omega

/-- `gmio_eat_word`. -/
def eatWord (it : StringStreamFwdIterator) (buffer : StringBuffer) :
    Option (StringStreamFwdIterator × StringBuffer × EatWordError) :=
  let i := buffer.len
  let cap := buffer.maxLen
  match StringStreamFwdIterator.skipSpaces isspace it with
  | (it, none) => do
    let ptr ← store buffer.ptr i 0
    pure (it, { buffer with ptr }, .empty)
  | (it, some c) => do
    let (it, ptr, i) ← eatWordLoop isspace cap it buffer.ptr i c
    if i < cap then
      let ptr ← store ptr i 0
      pure (it, { ptr, len := i }, .ok)
    else pure (it, { buffer with ptr }, .capacityOverflow)

variable {isspace}
open StringStreamFwdIterator

theorem eatWordLoop_of_next_none {cap i : Nat} {it : StringStreamFwdIterator} {ptr : List UInt8}
    {c : UInt8} (hpos : i < ptr.length) (hn : it.nextChar.1.currentChar = none) :
    eatWordLoop isspace cap it ptr i c = some (it.nextChar.1, ptr.set i c, i + 1) := by
  have pair : it.nextChar = (it.nextChar.1, none) := by rw [← hn, ← nextChar_snd]
  rw [eatWordLoop, store_of_lt c hpos, pair]
  rfl

theorem eatWordLoop_of_next_some {cap i : Nat} {it : StringStreamFwdIterator} {ptr : List UInt8}
    {c c' : UInt8} (hpos : i < ptr.length) (hn : it.nextChar.1.currentChar = some c') :
    eatWordLoop isspace cap it ptr i c =
      if i + 1 < cap ∧ !isspace c' then eatWordLoop isspace cap it.nextChar.1 (ptr.set i c) (i + 1) c'
      else some (it.nextChar.1, ptr.set i c, i + 1) := by
  have pair : it.nextChar = (it.nextChar.1, some c') := by rw [← hn, ← nextChar_snd]
  rw [eatWordLoop, store_of_lt c hpos, pair]
  simp only [Option.bind_eq_bind, Option.some_bind]
  split <;> rfl

/-- The loop copies the word under the cursor, cut at the capacity: with `w` the bytes it
copies, `ptr[i, i + |w|)` becomes `w` and nothing else is written, `i` moves to `i + |w|`,
and the cursor moves past `w`. -/
theorem eatWordLoop_spec {cap i : Nat} {it : StringStreamFwdIterator} {ptr t w : List UInt8}
    {c : UInt8} (h : it.AtRest) (hr : it.remaining = c :: t) (hi : i < cap)
    (hcap : ptr.length = cap) (hw : w = (c :: t.takeWhile (fun x => !isspace x)).take (cap - i)) :
    ∃ it', eatWordLoop isspace cap it ptr i c =
        some (it', ptr.take i ++ w ++ ptr.drop (i + w.length), i + w.length) ∧
      it'.AtRest ∧ it'.remaining = (c :: t).drop w.length := by
  have hpos : i < ptr.length := hcap ▸ hi
  induction t generalizing it ptr i c w with
  | nil =>
    obtain ⟨_, hnext, hrem⟩ := nextChar_of_remaining_cons h hr
    have hn : it.nextChar.1.currentChar = none := by rw [currentChar_eq_head hnext, hrem]; rfl
    have hw1 : w = [c] := by rw [hw]; exact List.take_of_length_le (by simp; omega)
    refine ⟨it.nextChar.1, ?_, hnext, by rw [hw1, hrem]; rfl⟩
    rw [eatWordLoop_of_next_none hpos hn, hw1, set_eq_copied c hpos]; rfl
  | cons c' t ih =>
    obtain ⟨_, hnext, hrem⟩ := nextChar_of_remaining_cons h hr
    have hn : it.nextChar.1.currentChar = some c' := by rw [currentChar_eq_head hnext, hrem]; rfl
    by_cases go : i + 1 < cap ∧ !isspace c'
    · have hcap' : (ptr.set i c).length = cap := by simpa using hcap
      obtain ⟨it', hloop, hat, hrem'⟩ := ih hnext hrem go.1 hcap' rfl (hcap' ▸ go.1)
      have hw1 : w = c :: (c' :: t.takeWhile (fun x => !isspace x)).take (cap - (i + 1)) := by
        rw [hw, List.takeWhile_cons_of_pos (p := fun x => !isspace x) go.2,
          show cap - i = cap - (i + 1) + 1 by omega, List.take_succ_cons]
      refine ⟨it', ?_, hat, by rw [hw1, hrem']; rfl⟩
      rw [eatWordLoop_of_next_some hpos hn, if_pos go, hloop, hw1, copied_set c hpos]
      simp only [List.length_cons]; congr 3; omega
    · have hw1 : w = [c] := by
        rw [hw]
        by_cases room : i + 1 < cap
        · have hsp : (!isspace c') = false := by simpa [room] using go
          rw [List.takeWhile_cons_of_neg (p := fun x => !isspace x) (by simpa using hsp)]
          exact List.take_of_length_le (by simp; omega)
        · rw [show cap - i = 1 by omega]; rfl
      refine ⟨it.nextChar.1, ?_, hnext, by rw [hw1, hrem]; rfl⟩
      rw [eatWordLoop_of_next_some hpos hn, if_neg go, hw1, set_eq_copied c hpos]; rfl

/-- After the leading spaces, the loop starts on the first byte of the word and copies the
word, cut at the room left in the buffer. -/
theorem eatWord_loop_facts {it : StringStreamFwdIterator} {b : StringBuffer} (h : it.AtRest)
    (hw : word isspace it.remaining ≠ []) (hlen : b.len < b.maxLen) :
    ∃ it1 c, skipSpaces isspace it = (it1, some c) ∧ ∃ it', it'.AtRest ∧
      it'.remaining = (it.remaining.dropWhile isspace).drop
        ((word isspace it.remaining).take (b.maxLen - b.len)).length ∧
      eatWordLoop isspace b.maxLen it1 b.ptr b.len c =
        some (it', b.ptr.take b.len ++ (word isspace it.remaining).take (b.maxLen - b.len) ++
          b.ptr.drop (b.len + ((word isspace it.remaining).take (b.maxLen - b.len)).length),
          b.len + ((word isspace it.remaining).take (b.maxLen - b.len)).length) := by
  obtain ⟨hat, hrem, hcur⟩ := skipSpaces_spec isspace h
  cases hd : it.remaining.dropWhile isspace with
  | nil => exact absurd (by simp [word, hd]) hw
  | cons c t =>
    have hword : word isspace it.remaining = c :: t.takeWhile (fun x => !isspace x) := by
      simp [word, hd, not_isspace_of_dropWhile_eq_cons hd]
    refine ⟨_, c, Prod.ext rfl (by rw [hcur, hd]; rfl), ?_⟩
    obtain ⟨it', hloop, hat', hrem'⟩ := eatWordLoop_spec hat (hrem.trans hd) hlen rfl rfl
    exact ⟨it', hat', by rw [hrem', hword], by rw [hloop, hword]⟩

theorem eatWord_of_blank {it : StringStreamFwdIterator} {b : StringBuffer} (h : it.AtRest)
    (hb : word isspace it.remaining = []) (hlen : b.len < b.maxLen) :
    ∃ it', eatWord isspace it b = some (it', ⟨b.ptr.set b.len 0, b.len⟩, .empty) ∧
      it'.AtRest ∧ it'.remaining = [] := by
  obtain ⟨hat, hrem, hcur⟩ := skipSpaces_spec isspace h
  have hd : it.remaining.dropWhile isspace = [] :=
    List.dropWhile_eq_nil_iff.mpr (word_eq_nil_iff.mp hb)
  obtain ⟨it1, hs⟩ : ∃ it1, skipSpaces isspace it = (it1, none) :=
    ⟨_, Prod.ext rfl (by rw [hcur, hd]; rfl)⟩
  rw [hs] at hat hrem
  refine ⟨it1, ?_, hat, hrem.trans hd⟩
  simp only [eatWord, hs, store_of_lt 0 hlen]
  rfl

theorem eatWord_of_fits {it : StringStreamFwdIterator} {b : StringBuffer} (h : it.AtRest)
    (hw : word isspace it.remaining ≠ [])
    (fits : b.len + (word isspace it.remaining).length < b.maxLen) :
    ∃ it', eatWord isspace it b =
        some (it', ⟨b.ptr.take b.len ++ word isspace it.remaining ++
          0 :: b.ptr.drop (b.len + (word isspace it.remaining).length + 1),
          b.len + (word isspace it.remaining).length⟩, .ok) ∧
      it'.AtRest ∧ it'.remaining = afterWord isspace it.remaining := by
  obtain ⟨it1, c, hs, it', hat, hrem, hloop⟩ :=
    eatWord_loop_facts h hw (show b.len < b.maxLen by omega)
  have whole : (word isspace it.remaining).take (b.maxLen - b.len) = word isspace it.remaining :=
    List.take_of_length_le (by omega)
  rw [whole] at hrem hloop
  refine ⟨it', ?_, hat, by rw [hrem, afterWord_eq_drop]⟩
  have room : b.len + (word isspace it.remaining).length < (b.ptr.take b.len ++
      word isspace it.remaining ++ b.ptr.drop (b.len + (word isspace it.remaining).length)).length := by
    rw [length_copied fits.le]; exact fits
  simp only [eatWord, hs, hloop, Option.bind_eq_bind, Option.some_bind, if_pos fits,
    store_of_lt 0 room, set_copied 0 fits]
  rfl

theorem eatWord_of_overflow {it : StringStreamFwdIterator} {b : StringBuffer} (h : it.AtRest)
    (hw : word isspace it.remaining ≠ []) (hlen : b.len < b.maxLen)
    (full : b.maxLen ≤ b.len + (word isspace it.remaining).length) :
    ∃ it', eatWord isspace it b =
        some (it', ⟨b.ptr.take b.len ++ (word isspace it.remaining).take (b.maxLen - b.len) ++
          b.ptr.drop b.maxLen, b.len⟩, .capacityOverflow) ∧ it'.AtRest ∧
      it'.remaining = (word isspace it.remaining).drop (b.maxLen - b.len) ++
        afterWord isspace it.remaining := by
  obtain ⟨it1, c, hs, it', hat, hrem, hloop⟩ := eatWord_loop_facts h hw hlen
  have hcut : ((word isspace it.remaining).take (b.maxLen - b.len)).length = b.maxLen - b.len := by
    simp; omega
  rw [hcut, show b.len + (b.maxLen - b.len) = b.maxLen by omega] at hloop
  rw [hcut, ← word_append_afterWord, List.drop_append_of_le_length (by omega)] at hrem
  refine ⟨it', ?_, hat, hrem⟩
  simp only [eatWord, hs, hloop, Option.bind_eq_bind, Option.some_bind, lt_irrefl, if_false]
  rfl

/-- `gmio_eat_word` meets its contract from every iterator at rest and every output buffer with
`len < max_len`: it writes no byte outside the buffer, and leaves the iterator at rest. -/
theorem eatWord_contract (it : StringStreamFwdIterator) (b : StringBuffer) (h : it.AtRest)
    (hlen : b.len < b.maxLen) :
    ∃ it' b' e, eatWord isspace it b = some (it', b', e) ∧ it'.AtRest ∧
      EatWordContract isspace it.remaining b it'.remaining b' e := by
  by_cases hb : word isspace it.remaining = []
  · obtain ⟨it', heq, hat, -⟩ := eatWord_of_blank h hb hlen
    refine ⟨it', _, _, heq, hat, ?_⟩
    exact { storage := List.length_set _ _ _
            empty_iff := iff_of_true rfl (word_eq_nil_iff.mp hb)
            ok_iff := iff_of_false nofun fun found => found.1 hb
            on_empty := fun _ => rfl
            on_ok := nofun
            on_overflow := nofun
            len_lt := fun _ => by simpa [StringBuffer.maxLen] using hlen }
  by_cases fits : b.len + (word isspace it.remaining).length < b.maxLen
  · obtain ⟨it', heq, hat, hrem⟩ := eatWord_of_fits h hb fits
    refine ⟨it', _, _, heq, hat, ?_⟩
    have same : b.len + (word isspace it.remaining).length < b.ptr.length := fits
    exact { storage := by simp [StringBuffer.maxLen]; omega
            empty_iff := iff_of_false nofun fun blank => hb (word_eq_nil_iff.mpr blank)
            ok_iff := iff_of_true rfl ⟨hb, fits⟩
            on_empty := nofun
            on_ok := fun _ => ⟨rfl, hrem⟩
            on_overflow := nofun
            len_lt := fun _ => by simp [StringBuffer.maxLen]; omega }
  · obtain ⟨it', heq, hat, -⟩ := eatWord_of_overflow h hb hlen (Nat.le_of_not_lt fits)
    refine ⟨it', _, _, heq, hat, ?_⟩
    have full : b.ptr.length ≤ b.len + (word isspace it.remaining).length := Nat.le_of_not_lt fits
    have hl : b.len < b.ptr.length := hlen
    exact { storage := by simp [StringBuffer.maxLen]; omega
            empty_iff := iff_of_false nofun fun blank => hb (word_eq_nil_iff.mpr blank)
            ok_iff := iff_of_false nofun fun found => fits found.2
            on_empty := nofun
            on_ok := nofun
            on_overflow := fun _ => ⟨rfl, by
              simp [List.take_append_eq_append_take, StringBuffer.maxLen, min_eq_left hl.le]⟩
            len_lt := fun h => absurd rfl h }

theorem eatWord_contract_sample :
    (⟨⟨[[32, 66]], by decide⟩, [65, 32], 2, 0⟩ : StringStreamFwdIterator).AtRest ∧
    (⟨[7, 7, 7], 1⟩ : StringBuffer).len < (⟨[7, 7, 7], 1⟩ : StringBuffer).maxLen ∧
    ∃ it' b' e, eatWord (· == 32) ⟨⟨[[32, 66]], by decide⟩, [65, 32], 2, 0⟩ ⟨[7, 7, 7], 1⟩ =
        some (it', b', e) ∧ it'.AtRest ∧
      EatWordContract (· == 32) [65, 32, 32, 66] ⟨[7, 7, 7], 1⟩ it'.remaining b' e :=
  ⟨⟨.inl (by decide), by decide⟩, by decide,
    eatWord_contract _ _ ⟨.inl (by decide), by decide⟩ (by decide)⟩

/-- A word that overflows the output buffer is cut: `ptr[len, max_len)` holds its first
`max_len - len` bytes, with no null byte, and the rest of the word, then what follows it, is
left to the next call. The iterator is left at rest, so the next call takes that rest, if any
is left, for a word of its own, followed by the words after it. -/
theorem eatWord_overflow_cuts_word (it : StringStreamFwdIterator) (b : StringBuffer)
    (h : it.AtRest) (hlen : b.len < b.maxLen)
    (full : b.maxLen ≤ b.len + (word isspace it.remaining).length) :
    ∃ it' b', eatWord isspace it b = some (it', b', .capacityOverflow) ∧
      b'.ptr.drop b.len = (word isspace it.remaining).take (b.maxLen - b.len) ∧
      it'.remaining = (word isspace it.remaining).drop (b.maxLen - b.len) ++
        afterWord isspace it.remaining ∧
      it'.AtRest ∧
      words isspace it'.remaining =
        (if (word isspace it.remaining).drop (b.maxLen - b.len) = [] then []
          else [(word isspace it.remaining).drop (b.maxLen - b.len)]) ++
          words isspace (afterWord isspace it.remaining) := by
  have hw : word isspace it.remaining ≠ [] := by
    intro hnil; rw [hnil] at full; simp at full; omega
  obtain ⟨it', heq, hat, hrem⟩ := eatWord_of_overflow h hw hlen full
  refine ⟨it', _, heq, ?_, hrem, hat, by rw [hrem, words_drop_word_append]⟩
  have hl : b.len < b.ptr.length := hlen
  simp [List.drop_append_eq_append_drop, StringBuffer.maxLen, min_eq_left hl.le]

theorem eatWord_overflow_cuts_word_sample :
    (⟨⟨[], by decide⟩, [65, 66, 67, 32], 1, 0⟩ : StringStreamFwdIterator).AtRest ∧
    (⟨[0, 0], 0⟩ : StringBuffer).len < (⟨[0, 0], 0⟩ : StringBuffer).maxLen ∧
    (⟨[0, 0], 0⟩ : StringBuffer).maxLen ≤
      (⟨[0, 0], 0⟩ : StringBuffer).len + (word (· == 32) [65, 66, 67, 32]).length ∧
    ∃ it' b', eatWord (· == 32) ⟨⟨[], by decide⟩, [65, 66, 67, 32], 1, 0⟩ ⟨[0, 0], 0⟩ =
        some (it', b', .capacityOverflow) ∧
      b'.ptr.drop 0 = (word (· == 32) [65, 66, 67, 32]).take (2 - 0) ∧
      it'.remaining = (word (· == 32) [65, 66, 67, 32]).drop (2 - 0) ++
        afterWord (· == 32) [65, 66, 67, 32] ∧
      it'.AtRest ∧
      words (· == 32) it'.remaining =
        (if (word (· == 32) [65, 66, 67, 32]).drop (2 - 0) = [] then []
          else [(word (· == 32) [65, 66, 67, 32]).drop (2 - 0)]) ++
          words (· == 32) (afterWord (· == 32) [65, 66, 67, 32]) :=
  ⟨⟨.inl (by decide), by decide⟩, by decide, by decide,
    eatWord_overflow_cuts_word _ _ ⟨.inl (by decide), by decide⟩ (by decide) (by decide)⟩

end

end Gmio

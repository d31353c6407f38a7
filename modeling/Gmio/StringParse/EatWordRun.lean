import Gmio.StringParse.EatWord

/-!
# A run of `gmio_eat_word` calls

The parser reads a stream word by word: after `gmio_string_stream_fwd_iterator_init`, it
calls `gmio_eat_word` again and again, each time into an output buffer reset to `len = 0`.
Such a run returns the words of the stream's data, in order, then `EMPTY`; the buffer
capacity of the iterator and the way the stream cuts its data into reads play no part.
-/

namespace Gmio

section
variable (isspace : UInt8 → Bool)

/-- One `gmio_eat_word` call per output buffer, in order; each call reports its status and
the string it leaves in its buffer, `ptr[0, len)`. -/
def eatWordRun (it : StringStreamFwdIterator) :
    List StringBuffer → Option (List (EatWordError × List UInt8))
  | [] => some []
  | b :: bs => do
    let (it, b, e) ← eatWord isspace it b
    let rest ← eatWordRun it bs
    pure ((e, b.ptr.take b.len) :: rest)

/-- The length of the longest word of `s`, `0` when it has none. -/
def longestWord (s : List UInt8) : Nat := ((words isspace s).map List.length).foldr max 0

variable {isspace}

theorem length_le_longestWord {s w : List UInt8} (hw : w ∈ words isspace s) :
    w.length ≤ longestWord isspace s := by
  unfold longestWord
  generalize words isspace s = ws at hw ⊢
  induction ws with
  | nil => cases hw
  | cons v vs ih =>
    rcases List.mem_cons.mp hw with rfl | hw
    · exact le_max_left _ _
    · exact (ih hw).trans (le_max_right _ _)

theorem take_append_replicate_succ {α : Type} (l : List α) (e : α) (k : Nat) :
    (l ++ List.replicate (k + 1) e).take k = (l ++ List.replicate k e).take k := by
  simp only [List.take_append_eq_append_take, List.take_replicate]
  congr 2; omega

open StringStreamFwdIterator

/-- From any iterator at rest, calls into fresh buffers that can hold every word left return
those words in order, then `EMPTY`. -/
theorem eatWordRun_atRest {n : Nat} (buffers : List StringBuffer) :
    ∀ it : StringStreamFwdIterator, it.AtRest →
      (∀ w ∈ words isspace it.remaining, w.length ≤ n) →
      (∀ b ∈ buffers, b.len = 0 ∧ n < b.maxLen) →
      eatWordRun isspace it buffers =
        some ((((words isspace it.remaining).map fun w => (EatWordError.ok, w)) ++
          List.replicate buffers.length (EatWordError.empty, [])).take buffers.length) := by
  induction buffers with
  | nil => intro it _ _ _; simp [eatWordRun]
  | cons b bs ih =>
    intro it h bound fresh
    obtain ⟨hzero, hroom⟩ := fresh b (List.mem_cons_self _ _)
    have rest := fun b' hb' => fresh b' (List.mem_cons_of_mem b hb')
    by_cases hb : word isspace it.remaining = []
    · obtain ⟨it', heq, hat, hrem⟩ := eatWord_of_blank h hb (show b.len < b.maxLen by omega)
      have none_left : words isspace it'.remaining = [] := by rw [hrem]; rfl
      have tail := ih it' hat (by simp [none_left]) rest
      rw [none_left] at tail
      simp [eatWordRun, heq, tail, hzero, words_of_word_eq_nil hb, take_append_replicate_succ,
        List.replicate_succ]
    · have first := words_eq_cons hb
      have fits : b.len + (word isspace it.remaining).length < b.maxLen := by
        have := bound _ (first ▸ List.mem_cons_self _ _); omega
      obtain ⟨it', heq, hat, hrem⟩ := eatWord_of_fits h hb fits
      have tail := ih it' hat
        (fun w hw => bound w (first ▸ List.mem_cons_of_mem _ (hrem ▸ hw))) rest
      rw [hrem] at tail
      simp [eatWordRun, heq, tail, hzero, first, take_append_replicate_succ]


/-- What calls into fresh buffers of `m` bytes report for one word `w`: `CAPACITY_OVERFLOW`,
with an empty string, for each full `m` bytes of it, then `OK` with its last bytes if any are
left. -/
def wordPieces (m : Nat) (w : List UInt8) : List (EatWordError × List UInt8) :=
  List.replicate (w.length / m) (EatWordError.capacityOverflow, []) ++
    if w.length % m = 0 then [] else [(EatWordError.ok, w.drop (w.length / m * m))]

theorem wordPieces_nil (m : Nat) : wordPieces m [] = [] := by simp [wordPieces]

theorem wordPieces_of_lt {m : Nat} {w : List UInt8} (hne : w ≠ []) (h : w.length < m) :
    wordPieces m w = [(EatWordError.ok, w)] := by
  simp [wordPieces, Nat.div_eq_of_lt h, Nat.mod_eq_of_lt h, hne]

theorem wordPieces_of_le {m : Nat} {w : List UInt8} (hm : 0 < m) (h : m ≤ w.length) :
    wordPieces m w = (EatWordError.capacityOverflow, []) :: wordPieces m (w.drop m) := by
  have hq := Nat.div_eq_sub_div hm h
  simp only [wordPieces, List.length_drop, hq, List.replicate_succ, List.cons_append,
    ← Nat.mod_eq_sub_mod h, List.drop_drop, Nat.succ_mul, Nat.add_comm _ m]

/-- Calls into fresh buffers of `m` bytes, whatever `m`: each word left comes as
`CAPACITY_OVERFLOW` for each full `m` bytes of it, with `ptr[0, len)` empty, then as `OK`
with its last bytes if `m` does not divide its length; then `EMPTY`. A word whose length is a
multiple of `m` gets no `OK`, and the next call goes on with the next word. -/
theorem eatWordRun_pieces {m : Nat} (hm : 0 < m) (buffers : List StringBuffer) :
    ∀ it : StringStreamFwdIterator, it.AtRest →
      (∀ b ∈ buffers, b.len = 0 ∧ b.maxLen = m) →
      eatWordRun isspace it buffers =
        some ((((words isspace it.remaining).flatMap (wordPieces m)) ++
          List.replicate buffers.length (EatWordError.empty, [])).take buffers.length) := by
  induction buffers with
  | nil => intro it _ _; simp [eatWordRun]
  | cons b bs ih =>
    intro it h fresh
    obtain ⟨hzero, hcap⟩ := fresh b (List.mem_cons_self _ _)
    have rest := fun b' hb' => fresh b' (List.mem_cons_of_mem b hb')
    have hlen : b.len < b.maxLen := by omega
    by_cases hb : word isspace it.remaining = []
    · obtain ⟨it', heq, hat, hrem⟩ := eatWord_of_blank h hb hlen
      have none_left : words isspace it'.remaining = [] := by rw [hrem]; rfl
      have tail := ih it' hat rest
      rw [none_left] at tail
      simp [eatWordRun, heq, tail, hzero, words_of_word_eq_nil hb, take_append_replicate_succ,
        List.replicate_succ]
    · have first := words_eq_cons hb
      by_cases fits : (word isspace it.remaining).length < m
      · obtain ⟨it', heq, hat, hrem⟩ :=
          eatWord_of_fits h hb (show b.len + (word isspace it.remaining).length < b.maxLen by omega)
        have tail := ih it' hat rest
        rw [hrem] at tail
        simp [eatWordRun, heq, tail, hzero, first, wordPieces_of_lt hb fits,
          take_append_replicate_succ]
      · obtain ⟨it', heq, hat, hrem⟩ := eatWord_of_overflow h hb hlen (by omega)
        have tail := ih it' hat rest
        rw [hrem, hcap, hzero, Nat.sub_zero, words_drop_word_append] at tail
        have cut : ((if (word isspace it.remaining).drop m = [] then []
              else [(word isspace it.remaining).drop m]) ++
            words isspace (afterWord isspace it.remaining)).flatMap (wordPieces m) =
            wordPieces m ((word isspace it.remaining).drop m) ++
              (words isspace (afterWord isspace it.remaining)).flatMap (wordPieces m) := by
          split_ifs with h0 <;> simp [h0, wordPieces_nil]
        rw [cut] at tail
        rw [first, List.flatMap_cons, wordPieces_of_le hm (by omega)]
        simp [eatWordRun, heq, tail, hzero, ← List.append_assoc, take_append_replicate_succ]

theorem eatWordRun_pieces_two_bytes :
    0 < 2 ∧
    (⟨⟨[], by decide⟩, [97, 98, 99, 32, 100, 101], 6, 0⟩ : StringStreamFwdIterator).AtRest ∧
    (∀ b ∈
        ([⟨[0, 0], 0⟩, ⟨[0, 0], 0⟩, ⟨[0, 0], 0⟩, ⟨[0, 0], 0⟩] : List StringBuffer),
      b.len = 0 ∧ b.maxLen = 2) ∧
    eatWordRun (· == 32) ⟨⟨[], by decide⟩, [97, 98, 99, 32, 100, 101], 6, 0⟩
        [⟨[0, 0], 0⟩, ⟨[0, 0], 0⟩, ⟨[0, 0], 0⟩, ⟨[0, 0], 0⟩] =
      some ((((words (· == 32) [97, 98, 99, 32, 100, 101]).flatMap (wordPieces 2)) ++
        List.replicate 4 (EatWordError.empty, [])).take 4) :=
  ⟨by decide, ⟨.inl (by decide), by decide⟩, by decide,
    eatWordRun_pieces (by decide) _ _ ⟨.inl (by decide), by decide⟩ (by decide)⟩

end

/-- From `gmio_string_stream_fwd_iterator_init`, calls of `gmio_eat_word` into buffers reset
to `len = 0`, each larger than the longest word, return `OK` with the words of the stream's
data in order, then `EMPTY`: whatever the iterator's buffer capacity and however the stream
cuts its data into reads, no word is lost, duplicated, split or merged. -/
theorem eatWordRun_init (isspace : UInt8 → Bool) (it : StringStreamFwdIterator)
    (hmax : 0 < it.bufferMaxLen) (buffers : List StringBuffer)
    (fresh : ∀ b ∈ buffers, b.len = 0 ∧ longestWord isspace it.stream.data < b.maxLen) :
    eatWordRun isspace it.init buffers =
      some ((((words isspace it.stream.data).map fun w => (EatWordError.ok, w)) ++
        List.replicate buffers.length (EatWordError.empty, [])).take buffers.length) := by
  have run := eatWordRun_atRest buffers it.init (StringStreamFwdIterator.atRest_init hmax)
    (by rw [StringStreamFwdIterator.remaining_init]; exact fun w => length_le_longestWord) fresh
  rwa [StringStreamFwdIterator.remaining_init] at run

theorem eatWordRun_init_sample :
    0 < (⟨⟨[[85, 110, 101], [32, 32, 99], [105]], by decide⟩, [], 3, 0⟩ :
      StringStreamFwdIterator).bufferMaxLen ∧
    (∀ b ∈ ([⟨[0, 0, 0, 0], 0⟩, ⟨[0, 0, 0, 0], 0⟩, ⟨[0, 0, 0, 0], 0⟩] : List StringBuffer),
      b.len = 0 ∧ longestWord (· == 32) [85, 110, 101, 32, 32, 99, 105] < b.maxLen) ∧
    eatWordRun (· == 32) (⟨⟨[[85, 110, 101], [32, 32, 99], [105]], by decide⟩, [], 3, 0⟩ :
        StringStreamFwdIterator).init
      [⟨[0, 0, 0, 0], 0⟩, ⟨[0, 0, 0, 0], 0⟩, ⟨[0, 0, 0, 0], 0⟩] =
      some ((((words (· == 32) [85, 110, 101, 32, 32, 99, 105]).map
        fun w => (EatWordError.ok, w)) ++ List.replicate 3 (EatWordError.empty, [])).take 3) :=
  ⟨by decide, by decide, eatWordRun_init _ _ (by decide) _ (by decide)⟩

section
variable (isspace : UInt8 → Bool)

/-- `n` calls of `gmio_eat_word` into one output buffer whose `len` is never reset; each call
reports its status. -/
def eatWordAppend (it : StringStreamFwdIterator) (b : StringBuffer) :
    Nat → Option (StringStreamFwdIterator × StringBuffer × List EatWordError)
  | 0 => some (it, b, [])
  | n + 1 => do
    let (it, b, e) ← eatWord isspace it b
    let (it, b, es) ← eatWordAppend it b n
    pure (it, b, e :: es)

variable {isspace}
open StringStreamFwdIterator

/-- When the next word fits, one call appends it to `ptr[0, len)`, ends the string with a null
byte, and moves the cursor past the word; with no word left it appends nothing and returns
`EMPTY`. -/
theorem eatWord_appends {it : StringStreamFwdIterator} {b : StringBuffer} (h : it.AtRest)
    (room : b.len + (word isspace it.remaining).length < b.maxLen) :
    ∃ it1 b1, eatWord isspace it b = some (it1, b1,
        if word isspace it.remaining = [] then EatWordError.empty else EatWordError.ok) ∧
      it1.AtRest ∧ words isspace it1.remaining = (words isspace it.remaining).tail ∧
      b1.maxLen = b.maxLen ∧ b1.len = b.len + (word isspace it.remaining).length ∧
      b1.ptr.take b1.len = b.ptr.take b.len ++ word isspace it.remaining ∧
      b1.ptr[b1.len]? = some 0 := by
  have hlen : b.len < b.ptr.length := Nat.lt_of_le_of_lt (Nat.le_add_right _ _) room
  by_cases hb : word isspace it.remaining = []
  · obtain ⟨it1, heq, hat, hrem⟩ := eatWord_of_blank h hb hlen
    refine ⟨it1, ⟨b.ptr.set b.len 0, b.len⟩, by rw [if_pos hb]; exact heq, hat, ?_,
      List.length_set _ _ _, by simp [hb], ?_, by simp [List.getElem?_set, hlen]⟩
    · rw [hrem, words_of_word_eq_nil hb]; rfl
    · rw [hb, List.append_nil, set_eq_copied 0 hlen, List.append_assoc,
        List.take_left' (by simp; omega)]
  · obtain ⟨it1, heq, hat, hrem⟩ := eatWord_of_fits h hb room
    have hw : (b.ptr.take b.len ++ word isspace it.remaining).length =
        b.len + (word isspace it.remaining).length := by simp; omega
    refine ⟨it1, _, by rw [if_neg hb]; exact heq, hat, by rw [hrem, words_eq_cons hb]; rfl,
      ?_, rfl, by rw [← hw, List.take_left], ?_⟩
    · simp only [StringBuffer.maxLen, List.length_append, List.length_take, List.length_cons,
        List.length_drop]
      simp only [StringBuffer.maxLen] at room
      omega
    · rw [← hw, List.getElem?_append_right le_rfl, Nat.sub_self]; simp

/-- Calls into one buffer that is never reset append the words one after another: while the
buffer can hold all the words left and a null byte, `n` calls return `OK` for each word left
and `EMPTY` after them, `ptr[0, len)` becomes the old string followed by the first `n` words,
ended by a null byte, and the cursor moves past those words. -/
theorem eatWordAppend_concat (n : Nat) {it : StringStreamFwdIterator} {b : StringBuffer}
    (h : it.AtRest) (room : b.len + (words isspace it.remaining).flatten.length < b.maxLen) :
    ∃ it' b', eatWordAppend isspace it b n = some (it', b',
        (((words isspace it.remaining).map fun _ => EatWordError.ok) ++
          List.replicate n EatWordError.empty).take n) ∧
      b'.maxLen = b.maxLen ∧
      b'.len = b.len + ((words isspace it.remaining).take n).flatten.length ∧
      b'.ptr.take b'.len = b.ptr.take b.len ++ ((words isspace it.remaining).take n).flatten ∧
      (0 < n → b'.ptr[b'.len]? = some 0) ∧
      it'.AtRest ∧ words isspace it'.remaining = (words isspace it.remaining).drop n := by
  induction n generalizing it b with
  | zero => exact ⟨it, b, rfl, rfl, by simp, by simp, nofun, h, rfl⟩
  | succ n ih =>
    -- the words left are the next word, if any, then the tail
    have split : ((words isspace it.remaining).take (n + 1)).flatten =
          word isspace it.remaining ++ ((words isspace it.remaining).tail.take n).flatten ∧
        (((words isspace it.remaining).map fun _ => EatWordError.ok) ++
            List.replicate (n + 1) EatWordError.empty).take (n + 1) =
          (if word isspace it.remaining = [] then EatWordError.empty else EatWordError.ok) ::
            (((words isspace it.remaining).tail.map fun _ => EatWordError.ok) ++
              List.replicate n EatWordError.empty).take n ∧
        (word isspace it.remaining).length + (words isspace it.remaining).tail.flatten.length =
          (words isspace it.remaining).flatten.length := by
      by_cases hb : word isspace it.remaining = []
      · simp [words_of_word_eq_nil hb, hb, List.replicate_succ]
      · rw [words_eq_cons hb]
        simp [hb, take_append_replicate_succ]
    obtain ⟨it1, b1, heq, hat, hwords, hmax, hlen, htake, hterm⟩ :=
      eatWord_appends h (show b.len + (word isspace it.remaining).length < b.maxLen by omega)
    obtain ⟨it', b', hrun, hmax', hlen', htake', hterm', hat', hwords'⟩ :=
      ih hat (by rw [hmax, hlen, hwords]; omega)
    rw [hwords] at hrun hlen' htake'
    refine ⟨it', b', ?_, hmax'.trans hmax, ?_, ?_, fun _ => ?_, hat', ?_⟩
    · simp only [eatWordAppend, heq, hrun, split.2, Option.bind_eq_bind, Option.some_bind]
      rfl
    · rw [hlen', hlen, split.1, List.length_append]; omega
    · rw [htake', htake, split.1, List.append_assoc]
    · rcases n with _ | n
      · simp only [eatWordAppend, Option.some.injEq, Prod.mk.injEq] at hrun
        obtain ⟨-, rfl, -⟩ := hrun
        exact hterm
      · exact hterm' n.succ_pos
    · rw [hwords', hwords, List.drop_tail]


theorem eatWordAppend_concat_two_words :
    (⟨⟨[], by decide⟩, [97, 32, 98], 3, 0⟩ : StringStreamFwdIterator).AtRest ∧
    (⟨[0, 0, 0, 0], 0⟩ : StringBuffer).len + (words (· == 32) [97, 32, 98]).flatten.length <
      (⟨[0, 0, 0, 0], 0⟩ : StringBuffer).maxLen ∧
    ∃ it' b',
      eatWordAppend (· == 32) ⟨⟨[], by decide⟩, [97, 32, 98], 3, 0⟩ ⟨[0, 0, 0, 0], 0⟩ 3 =
        some (it', b', (((words (· == 32) [97, 32, 98]).map fun _ => EatWordError.ok) ++
          List.replicate 3 EatWordError.empty).take 3) ∧
      b'.maxLen = 4 ∧ b'.len = 0 + ((words (· == 32) [97, 32, 98]).take 3).flatten.length ∧
      b'.ptr.take b'.len = [] ++ ((words (· == 32) [97, 32, 98]).take 3).flatten ∧
      (0 < 3 → b'.ptr[b'.len]? = some 0) ∧
      it'.AtRest ∧ words (· == 32) it'.remaining = (words (· == 32) [97, 32, 98]).drop 3 :=
  ⟨⟨.inl (by decide), by decide⟩, by decide,
    eatWordAppend_concat 3 ⟨.inl (by decide), by decide⟩ (by decide)⟩

end

end Gmio

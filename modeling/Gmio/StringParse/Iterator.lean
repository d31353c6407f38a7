import Gmio.Stream

/-!
# The forward iterator over a string stream

`gmio_string_stream_fwd_iterator_t` reads a stream through a buffer of `max_len` bytes.
`gmio_current_char`, `gmio_next_char` and `gmio_skip_spaces` live in `string_parse.h`,
which is not among the sources: they are modelled from the spec's refill discipline (when
the position reaches the buffer length, one stream read refills the buffer and the position
goes back to `0`; a read of no byte leaves the cursor at the end of the stream). The
whitespace test `gmio_clocale_isspace`, absent too, is a parameter `isspace`.

The iterator refines a cursor over the bytes it has still to go over, `remaining`: at rest,
its current byte is the head of `remaining`, and `gmio_next_char` drops that head, however
the stream cuts its data into reads.
-/

namespace Gmio

/-- `gmio_string_stream_fwd_iterator_t`. `buffer` holds the bytes of the last read,
`buffer.ptr[0, buffer.len)`: the bytes past `buffer.len` are never read, and are not kept. -/
structure StringStreamFwdIterator where
  stream : Stream
  buffer : List UInt8
  bufferMaxLen : Nat
  bufferPos : Nat

namespace StringStreamFwdIterator

/-- Modelled from the spec: `gmio_current_char`, the byte under the cursor, `none` (NULL)
once the position is past the buffer. -/
def currentChar (it : StringStreamFwdIterator) : Option UInt8 := it.buffer[it.bufferPos]?

/-- The refill of `gmio_next_char`: one read of `max_len` bytes into the buffer, and the
position back to `0`. -/
def refill (it : StringStreamFwdIterator) : StringStreamFwdIterator :=
  let r := it.stream.read it.bufferMaxLen
  { it with stream := r.2, buffer := r.1, bufferPos := 0 }

/-- Modelled from the spec: `gmio_next_char`. Advance; when the position reaches the buffer
length, refill the buffer and return its first byte, `none` if the read returned none. -/
def nextChar (it : StringStreamFwdIterator) : StringStreamFwdIterator × Option UInt8 :=
  if it.bufferPos + 1 < it.buffer.length then
    ({ it with bufferPos := it.bufferPos + 1 }, it.buffer[it.bufferPos + 1]?)
  else (it.refill, it.refill.buffer.head?)

/-- `gmio_string_stream_fwd_iterator_init`: declaring the buffer exhausted makes the call to
`gmio_next_char` perform the first read. -/
def init (it : StringStreamFwdIterator) : StringStreamFwdIterator :=
  ({ it with buffer := [], bufferPos := it.bufferMaxLen } : StringStreamFwdIterator).nextChar.1

/-- The bytes the cursor has still to go over: the rest of the buffer, then the stream. -/
def remaining (it : StringStreamFwdIterator) : List UInt8 :=
  it.buffer.drop it.bufferPos ++ it.stream.data

/-- The invariant at rest: the cursor is on a byte of the buffer or at the end of the
stream, and the buffer has room for a byte. -/
structure AtRest (it : StringStreamFwdIterator) : Prop where
  onByte : it.bufferPos < it.buffer.length ∨ it.stream.pending = []
  maxLen_pos : 0 < it.bufferMaxLen

variable {it : StringStreamFwdIterator}

@[simp] theorem refill_buffer (it : StringStreamFwdIterator) :
    it.refill.buffer = (it.stream.read it.bufferMaxLen).1 := rfl

@[simp] theorem refill_stream (it : StringStreamFwdIterator) :
    it.refill.stream = (it.stream.read it.bufferMaxLen).2 := rfl

@[simp] theorem refill_bufferPos (it : StringStreamFwdIterator) : it.refill.bufferPos = 0 := rfl

@[simp] theorem refill_bufferMaxLen (it : StringStreamFwdIterator) :
    it.refill.bufferMaxLen = it.bufferMaxLen := rfl

theorem nextChar_snd (it : StringStreamFwdIterator) :
    it.nextChar.2 = it.nextChar.1.currentChar := by
  unfold nextChar currentChar
  split <;> simp [List.head?_eq_getElem?]

theorem pos_lt_of_currentChar {c : UInt8} (h : it.currentChar = some c) :
    it.bufferPos < it.buffer.length :=
  (List.getElem?_eq_some_iff.mp h).1

/-- Refilling keeps the data: after the read, the buffer and the stream hold what the stream
held before. -/
theorem remaining_refill (it : StringStreamFwdIterator) :
    it.refill.remaining = it.stream.data := by
  simp [remaining, Stream.read_data]

theorem atRest_refill (h : 0 < it.bufferMaxLen) : it.refill.AtRest := by
  refine ⟨?_, h⟩
  by_cases hp : it.stream.pending = []
  · simp [Stream.read_of_pending_nil hp, hp]
  · exact .inl (List.length_pos.mpr (Stream.read_ne_nil h hp))

/-- `gmio_next_char` drops the byte under the cursor from what is left. -/
theorem remaining_nextChar (h : it.bufferPos < it.buffer.length) :
    it.nextChar.1.remaining = it.remaining.tail := by
  have hd : it.buffer.drop it.bufferPos ≠ [] := Stream.drop_ne_nil h
  unfold nextChar
  split
  · simp [remaining, List.tail_append_of_ne_nil hd, List.tail_drop]
  · have hlast : it.buffer.drop (it.bufferPos + 1) = [] := by
      simp only [List.drop_eq_nil_iff]; omega
    dsimp only
    rw [remaining_refill]
    simp [remaining, List.tail_append_of_ne_nil hd, List.tail_drop, hlast]

theorem atRest_nextChar (h : it.AtRest) : it.nextChar.1.AtRest := by
  unfold nextChar
  split
  · exact ⟨.inl ‹_›, h.maxLen_pos⟩
  · exact atRest_refill h.maxLen_pos

/-- At rest, the byte under the cursor is the first byte left. -/
theorem currentChar_eq_head (h : it.AtRest) : it.currentChar = it.remaining.head? := by
  by_cases hp : it.bufferPos < it.buffer.length
  · simp [currentChar, remaining, List.head?_append, hp]
  · have hs : it.stream.pending = [] := h.onByte.resolve_left hp
    have hd : it.buffer.drop it.bufferPos = [] := by simp only [List.drop_eq_nil_iff]; omega
    simp [currentChar, remaining, hd, Stream.data, hs,
      List.getElem?_eq_none (Nat.le_of_not_lt hp)]

theorem exists_remaining_eq_cons {c : UInt8} (h : it.AtRest) (hc : it.currentChar = some c) :
    ∃ t, it.remaining = c :: t := by
  simpa [currentChar_eq_head h, List.head?_eq_some_iff] using hc

theorem remaining_length_nextChar_lt {c : UInt8} (h : it.currentChar = some c) :
    it.nextChar.1.remaining.length < it.remaining.length := by
  have hp := pos_lt_of_currentChar h
  rw [remaining_nextChar hp, List.length_tail]
  have : 0 < it.remaining.length := by simp [remaining]; omega
  omega

/-- `gmio_string_stream_fwd_iterator_init` is the refill, whatever buffer it was given. -/
theorem init_eq_refill (it : StringStreamFwdIterator) : it.init = it.refill := by
  simp [init, nextChar, refill]

/-- At rest with `c :: t` left, the cursor is on `c`, and `gmio_next_char` leaves `t`, at
rest. -/
theorem nextChar_of_remaining_cons {c : UInt8} {t : List UInt8} (h : it.AtRest)
    (hr : it.remaining = c :: t) :
    it.currentChar = some c ∧ it.nextChar.1.AtRest ∧ it.nextChar.1.remaining = t := by
  have hc : it.currentChar = some c := by rw [currentChar_eq_head h, hr]; rfl
  refine ⟨hc, atRest_nextChar h, ?_⟩
  rw [remaining_nextChar (pos_lt_of_currentChar hc), hr]; rfl

theorem remaining_init (it : StringStreamFwdIterator) : it.init.remaining = it.stream.data := by
  rw [init_eq_refill, remaining_refill]

theorem atRest_init (h : 0 < it.bufferMaxLen) : it.init.AtRest := by
  rw [init_eq_refill]; exact atRest_refill h

section
variable (isspace : UInt8 → Bool)

/-- Modelled from the spec: `gmio_skip_spaces`, advance while the byte under the cursor is a
space; the byte it stops on is returned. -/
def skipSpaces (it : StringStreamFwdIterator) : StringStreamFwdIterator × Option UInt8 :=
  match h : it.currentChar with
  | none => (it, none)
  | some c =>
    if isspace c then
      have := remaining_length_nextChar_lt h
      skipSpaces it.nextChar.1
    else (it, some c)
termination_by it.remaining.length

theorem skipSpaces_of_none (hc : it.currentChar = none) : skipSpaces isspace it = (it, none) := by
  rw [skipSpaces]; split <;> simp_all

theorem skipSpaces_of_some {c : UInt8} (hc : it.currentChar = some c) :
    skipSpaces isspace it =
      if isspace c then skipSpaces isspace it.nextChar.1 else (it, some c) := by
  rw [skipSpaces]; split <;> simp_all

/-- `gmio_skip_spaces` drops the leading spaces of what is left and stops on the next byte. -/
theorem skipSpaces_spec (h : it.AtRest) :
    (skipSpaces isspace it).1.AtRest ∧
      (skipSpaces isspace it).1.remaining = it.remaining.dropWhile isspace ∧
      (skipSpaces isspace it).2 = (it.remaining.dropWhile isspace).head? := by
  induction it using skipSpaces.induct isspace with
  | case1 it hc =>
    have hr : it.remaining = [] := by
      simpa [currentChar_eq_head h, List.head?_eq_none_iff] using hc
    rw [skipSpaces_of_none isspace hc, hr]
    exact ⟨h, rfl, rfl⟩
  | case2 it c hc hsp _ ih =>
    obtain ⟨h1, h2, h3⟩ := ih (atRest_nextChar h)
    obtain ⟨t, hr⟩ := exists_remaining_eq_cons h hc
    rw [remaining_nextChar (pos_lt_of_currentChar hc), hr] at h2 h3
    rw [skipSpaces_of_some isspace hc, hr]
    simpa [hsp] using ⟨h1, h2, h3⟩
  | case3 it c hc hsp =>
    obtain ⟨t, hr⟩ := exists_remaining_eq_cons h hc
    rw [skipSpaces_of_some isspace hc, hr]
    simpa [hsp] using ⟨h, hr⟩

end

end StringStreamFwdIterator

end Gmio

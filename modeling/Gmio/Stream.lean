import Mathlib.Data.List.Basic

/-!
# Byte streams, as a reader sees them

`gmio_stream_read(stream, ptr, 1, n)` copies at most `n` bytes and returns how many it
copied; it returns `0` only once the stream is exhausted. A stream is modelled by the
pieces its reads will deliver, in order: a read of `n` bytes takes the first `n` bytes of
the next piece and leaves the rest of that piece for the following read. Error states and
the other callbacks of `gmio_stream` (`size`, `seek`, `tell`) are not modelled.
-/

namespace Gmio

/-- The data a stream has still to deliver, cut into the pieces its reads return. No piece
is empty: a read returns no byte only at the end of the stream. -/
structure Stream where
  pending : List (List UInt8)
  pending_ne : ∀ piece ∈ pending, piece ≠ []

namespace Stream

/-- The bytes the stream has still to deliver. -/
def data (s : Stream) : List UInt8 := s.pending.flatten

theorem pending_ne_of_cons {s : Stream} {piece : List UInt8} {rest : List (List UInt8)}
    (h : s.pending = piece :: rest) : ∀ p ∈ rest, p ≠ [] :=
  fun p hp => s.pending_ne p (h ▸ List.mem_cons_of_mem piece hp)

theorem drop_ne_nil {piece : List UInt8} {n : Nat} (hn : n < piece.length) :
    piece.drop n ≠ [] := by
  simpa [List.drop_eq_nil_iff] using hn

/-- `gmio_stream_read(stream, ptr, 1, n)`: the bytes read, and the stream after the read. -/
def read (s : Stream) (n : Nat) : List UInt8 × Stream :=
  match h : s.pending with
  | [] => ([], s)
  | piece :: rest =>
    if hn : n < piece.length then
      (piece.take n, ⟨piece.drop n :: rest, by
        simpa [drop_ne_nil hn] using pending_ne_of_cons h⟩)
    else (piece, ⟨rest, pending_ne_of_cons h⟩)

/-- A read moves bytes out of the stream: none is lost, duplicated or reordered. -/
theorem read_data (s : Stream) (n : Nat) : (s.read n).1 ++ (s.read n).2.data = s.data := by
  rcases s with ⟨_ | ⟨piece, rest⟩, hs⟩
  · rfl
  · by_cases hn : n < piece.length
    · simp [read, data, hn, ← List.append_assoc]
    · simp [read, data, hn]

theorem read_of_pending_nil {s : Stream} (h : s.pending = []) (n : Nat) :
    s.read n = ([], s) := by
  rcases s with ⟨_ | _, _⟩
  · rfl
  · cases h

/-- A read of at least one byte from a stream that is not exhausted returns a byte. -/
theorem read_ne_nil {s : Stream} {n : Nat} (hn : 0 < n) (h : s.pending ≠ []) :
    (s.read n).1 ≠ [] := by
  rcases s with ⟨_ | ⟨piece, rest⟩, hs⟩
  · exact absurd rfl h
  · have hp : piece ≠ [] := hs piece (List.mem_cons_self _ _)
    by_cases hlt : n < piece.length
    · simpa [read, hlt, List.take_eq_nil_iff] using And.intro hn.ne' hp
    · simpa [read, hlt] using hp

/-- A read never delivers more than it asked for. -/
theorem read_length_le (s : Stream) (n : Nat) : (s.read n).1.length ≤ n := by
  rcases s with ⟨_ | ⟨piece, rest⟩, hs⟩
  · simp [read]
  · by_cases hlt : n < piece.length
    · simp only [read, hlt, dite_true, List.length_take]
      exact Nat.min_le_left _ _
    · simp only [read, hlt, dite_false]
      omega

end Stream

end Gmio

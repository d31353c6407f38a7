import Mathlib.Algebra.Group.Nat.Basic
import Mathlib.Data.Fin.VecNotation

/-!
# Host endianness

`gmio_host_endianness` stores `0x01020408` in the `uint32_t` of a union and reads back the
first and the last of its four bytes. How the host lays a `uint32_t` out in memory is a
parameter `layout`: byte `j` of the union is byte `layout j` of the integer, counted from the
least significant one.
-/

namespace Gmio

/-- `gmio_endianness`. -/
inductive Endianness
  | unknown
  | little
  | big
  deriving DecidableEq, Repr

/-- Byte `k` of `x`, counted from the least significant one. -/
def byteAt (x k : Nat) : Nat := x / 256 ^ k % 256

/-- `conv.bytes` of `union gmio_int_bytes_32_convert` after `conv.integer = x`. -/
def intBytes32 (layout : Fin 4 → Fin 4) (x : Nat) (j : Fin 4) : Nat := byteAt x (layout j)

/-- `gmio_host_endianness`. -/
def hostEndianness (layout : Fin 4 → Fin 4) : Endianness :=
  let bytes := intBytes32 layout 0x01020408
  if bytes 0 = 0x08 ∧ bytes 3 = 0x01 then .little
  else if bytes 0 = 0x01 ∧ bytes 3 = 0x08 then .big
  else .unknown

/- The test only looks at where the least and the most significant bytes land: `LITTLE`
when the least significant byte comes first and the most significant last, `BIG` for the
converse, `UNKNOWN` for any other layout, such as a middle-endian one. -/
example : hostEndianness id = .little := by decide
example : hostEndianness Fin.rev = .big := by decide
example : hostEndianness ![1, 0, 3, 2] = .unknown := by decide

end Gmio

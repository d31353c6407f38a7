import Mathlib.Algebra.Group.Nat.Basic
import Gmio.Memory

/-!
# The triangle store of the test suite

`gmio_stl_data_t` (tests/stl_utils.c) collects the triangles a reader emits, through the
callbacks of `gmio_stl_data_mesh_creator`, in a growable array `gmio_stl_triangle_array_t`,
and hands them back through `gmio_stl_data_mesh`. Its block `ptr` is a list of slots,
`none` where nothing was stored yet. `uint32_t` arithmetic wraps modulo `2 ^ 32`; a store
outside the block makes the model return `none`, and so does a read past it. Triangles are copied, never inspected, so
their type is a parameter. The copies of the solid name and of the binary header, which no
other callback reads, are not modelled.
-/

namespace Gmio

/-- `gmio_stl_triangle_array_t`. -/
structure StlTriangleArray (τ : Type) where
  ptr : List (Option τ)
  count : Nat
  capacity : Nat
  deriving DecidableEq, Repr

/-- Modelled from the spec: `gmio_size_to_uint32` of `safe_cast.h`, absent from the
sources; it saturates at `0xFFFFFFFF`, as `test_internal__safe_cast` asserts. -/
def sizeToUint32 (n : Nat) : Nat := min n 0xFFFFFFFF

/-- `realloc(ptr, n * sizeof(gmio_stl_triangle_t))`: `n` slots that keep the old ones. -/
def realloc {τ : Type} (ptr : List (Option τ)) (n : Nat) : List (Option τ) :=
  ptr.take n ++ List.replicate (n - ptr.length) none

section
variable {τ : Type}

theorem length_realloc (ptr : List (Option τ)) (n : Nat) : (realloc ptr n).length = n := by
  simp [realloc]; omega

/-- `gmio_stl_triangle_array_malloc`. -/
def stlTriangleArrayMalloc (triCount : Nat) : StlTriangleArray τ :=
  { ptr := List.replicate triCount none
    count := sizeToUint32 triCount
    capacity := sizeToUint32 triCount }

theorem sizeToUint32_of_lt {n : Nat} (h : n < 2 ^ 32) : sizeToUint32 n = n :=
  Nat.min_eq_left (by omega)

@[simp] theorem stlTriangleArrayMalloc_ptr (n : Nat) :
    (stlTriangleArrayMalloc n : StlTriangleArray τ).ptr = List.replicate n none := rfl

@[simp] theorem stlTriangleArrayMalloc_count (n : Nat) :
    (stlTriangleArrayMalloc n : StlTriangleArray τ).count = sizeToUint32 n := rfl

@[simp] theorem stlTriangleArrayMalloc_capacity (n : Nat) :
    (stlTriangleArrayMalloc n : StlTriangleArray τ).capacity = sizeToUint32 n := rfl

/-- `gmio_stl_data__ascii_begin_solid`: guess one facet per 200 bytes of the stream. -/
def stlDataAsciiBeginSolid (streamSize : Nat) : StlTriangleArray τ :=
  let facetSize := 200
  let facetCount := max 1 (streamSize / facetSize)
  stlTriangleArrayMalloc facetCount

/-- `gmio_stl_data__binary_begin_solid`. -/
def stlDataBinaryBeginSolid (triCount : Nat) : StlTriangleArray τ :=
  stlTriangleArrayMalloc triCount

/-- `gmio_stl_data__add_triangle`: grow the capacity by an eighth when `tri_id` reaches it,
store the triangle in slot `tri_id`, and count up to `tri_id + 1`. -/
def stlDataAddTriangle (data : StlTriangleArray τ) (triId : Nat) (triangle : τ) :
    Option (StlTriangleArray τ) := do
  let data :=
    if triId ≥ data.capacity then
      let cap := (data.capacity + (data.capacity >>> 3)) % 2 ^ 32
      { data with ptr := realloc data.ptr cap, capacity := cap }
    else data
  let ptr ← store data.ptr triId (some triangle)
  pure { data with ptr, count := max data.count ((triId + 1) % 2 ^ 32) }

theorem stlDataAddTriangle_of_lt {data : StlTriangleArray τ} {k : Nat} (t : τ)
    (hk : k < data.capacity) (hblock : data.capacity ≤ data.ptr.length) :
    stlDataAddTriangle data k t =
      some { data with
        ptr := data.ptr.set k (some t), count := max data.count ((k + 1) % 2 ^ 32) } := by
  simp [stlDataAddTriangle, Nat.not_le.mpr hk, store_of_lt _ (show k < data.ptr.length by omega)]

/-- When `tri_id` is at or past the capacity, the block is reallocated to
`cap + (cap >> 3)` slots before the store. -/
theorem stlDataAddTriangle_of_ge {data : StlTriangleArray τ} {k : Nat} (t : τ)
    (hk : data.capacity ≤ k) :
    stlDataAddTriangle data k t =
      (store (realloc data.ptr ((data.capacity + data.capacity / 8) % 2 ^ 32)) k (some t)).map
        fun ptr =>
          { ptr, count := max data.count ((k + 1) % 2 ^ 32),
            capacity := (data.capacity + data.capacity / 8) % 2 ^ 32 } := by
  simp only [stlDataAddTriangle, ge_iff_le, hk, if_true, Nat.shiftRight_eq_div_pow]
  cases store (realloc data.ptr ((data.capacity + data.capacity / 2 ^ 3) % 2 ^ 32)) k
    (some t) <;> rfl

/-- `add_triangle` writes inside the block exactly when `tri_id` is below the capacity, or
below the capacity grown by an eighth (modulo `2 ^ 32`). -/
theorem stlDataAddTriangle_isSome_iff {data : StlTriangleArray τ} (k : Nat) (t : τ)
    (block : data.capacity ≤ data.ptr.length) :
    (stlDataAddTriangle data k t).isSome ↔
      k < data.capacity ∨ k < (data.capacity + data.capacity / 8) % 2 ^ 32 := by
  by_cases hk : k < data.capacity
  · simp [stlDataAddTriangle_of_lt t hk block, hk]
  · rw [stlDataAddTriangle_of_ge t (Nat.le_of_not_lt hk)]
    simp [store, length_realloc, hk]

/-- `gmio_stl_data__get_triangle`: `*triangle = ptr[tri_id]`, with no bounds check. `none` is
a read past the block, which is undefined; `some none` is a slot that no `add_triangle`
stored, whose bytes are indeterminate. -/
def stlDataGetTriangle (data : StlTriangleArray τ) (triId : Nat) : Option (Option τ) :=
  data.ptr[triId]?

/-- `gmio_stl_mesh_t`, as a writer reads it. -/
structure StlMesh (τ : Type) where
  triangleCount : Nat
  getTriangle : Nat → Option (Option τ)

/-- `gmio_stl_data_mesh`. -/
def stlDataMesh (data : StlTriangleArray τ) : StlMesh τ :=
  { triangleCount := data.count, getTriangle := stlDataGetTriangle data }

@[simp] theorem stlDataMesh_triangleCount (data : StlTriangleArray τ) :
    (stlDataMesh data).triangleCount = data.count := rfl

@[simp] theorem stlDataMesh_getTriangle (data : StlTriangleArray τ) (j : Nat) :
    (stlDataMesh data).getTriangle j = stlDataGetTriangle data j := rfl

/-- How the reader opens a solid: `func_ascii_begin_solid(cookie, stream_size, name)` or
`func_binary_begin_solid(cookie, tri_count, header)`. -/
inductive StlBeginSolid
  | ascii (streamSize : Nat)
  | binary (triCount : Nat)
  deriving DecidableEq, Repr

/-- The array a `begin_solid` callback installs, whatever was there before. -/
def StlBeginSolid.call : StlBeginSolid → StlTriangleArray τ
  | .ascii streamSize => stlDataAsciiBeginSolid streamSize
  | .binary triCount => stlDataBinaryBeginSolid triCount

/-- The number of slots the `begin_solid` callback asks `gmio_stl_triangle_array_malloc` for. -/
def StlBeginSolid.guess : StlBeginSolid → Nat
  | .ascii streamSize => max 1 (streamSize / 200)
  | .binary triCount => triCount

/-- `func_add_triangle` for `tri_id = k, k + 1, …`. -/
def stlDataAddTriangles (data : StlTriangleArray τ) (k : Nat) :
    List τ → Option (StlTriangleArray τ)
  | [] => some data
  | t :: ts => do
    let data ← stlDataAddTriangle data k t
    stlDataAddTriangles data (k + 1) ts

/-- The callbacks of a whole read: for each solid, its `begin_solid`, then its triangles
with `tri_id` from `0` (`func_end_solid` is not set by `gmio_stl_data_mesh_creator`). -/
def stlDataRun (data : StlTriangleArray τ) :
    List (StlBeginSolid × List τ) → Option (StlTriangleArray τ)
  | [] => some data
  | (begin, ts) :: solids => do
    let data ← stlDataAddTriangles begin.call 0 ts
    stlDataRun data solids

end

end Gmio

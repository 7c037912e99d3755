import Rearrange.Shape
import Rearrange.Element
import Rearrange.Text.Listing
/-!
# Dense arrays

A dense array is a shape and its values in row-major order, stored as doubles whatever the
element type; every value is kept rounded to what the element type holds
(`DType.normalize`). The block that stores the values may have room for more: the spare places
after the stored values hold zeros, and only copying a block of the storage (`Tensor.block`)
reaches them. Reading an element checks the stored values alone. Arrays are built from a flat list of host scalars of one element type,
or as the sequence 0, 1, 2, … of a shape; they are read one element at a time, as a typed flat
list, or as text.
-/
namespace Rearrange

/-- A dense array: its shape, its values in row-major order, and the number of spare places
after them in the storage block. -/
structure Tensor where
  shape : Shape
  flat : Array Float
  spare : Nat := 0
  deriving Repr, Inhabited

namespace Tensor

/-- The array of a shape holding the given host scalars, of the element type's array type. The
dimensions must be positive and their (wrapping) product the number of values. -/
def ofFlat (e : ElementType) (values : List HostValue) (dims : List Int) : Except Failure Tensor := do
  if dims.any (· ≤ 0) then
    throw (.plain ("FromFlat(): invalid dimensions " ++ Text.intsText dims))
  let size := Word.product dims
  if size ≠ values.length then
    throw (.plain ("FromFlat(): " ++ toString values.length ++ " values given for dimensions " ++
      Text.intsText dims ++ " (size " ++ toString size ++ ")"))
  pure { shape := ⟨e.dtype, dims⟩, flat := (values.map HostValue.toFloat).toArray }

/-- The most doubles one block of memory holds: a block has at most 2^48 bytes. -/
def blockLimit : Int := 35184372088832

/-- Reserves a block for `n` doubles, asked for by its length or, when `byLength` is false, by
its capacity alone; a negative or too large number aborts, naming what was asked for. -/
def reserve (n : Int) (byLength : Bool) : Except Failure Unit :=
  if n < 0 || n > blockLimit then
    .error (.fault ("runtime error: makeslice: " ++ (if byLength then "len" else "cap") ++
      " out of range"))
  else .ok ()

/-- The abort of appending to a block past `blockLimit` doubles: a block reserved with less room
than it is given grows, and it cannot grow past one block of memory. -/
def growFault : Failure := .fault "runtime error: growslice: len out of range"

/-- The array of a shape holding 0, 1, 2, … in row-major order, rounded to the element type. -/
def iota (dtype : DType) (dims : List Int) : Except Failure Tensor := do
  let shape ← Shape.make dtype dims
  reserve shape.size true
  pure { shape, flat := (Array.range shape.size.toNat).map fun i => dtype.normalize (Float.ofNat i) }

/-- The stored value at a storage position, or the fault of reading outside the storage. -/
def stored (t : Tensor) (i : Int) : Except Failure Float :=
  if i < 0 then .error (Failure.indexFault i t.flat.size)
  else match t.flat[i.toNat]? with
    | some v => .ok v
    | none => .error (Failure.indexFault i t.flat.size)

def room (t : Tensor) : Nat := t.flat.size + t.spare

/-- The places from `lo` up to `hi` of the storage block: stored values, then zeros. -/
def block (t : Tensor) (lo hi : Nat) : Array Float :=
  t.flat.extract lo hi ++ Array.replicate (hi - max lo t.flat.size) 0

/-- The value at a position, one index per axis. The indices are not checked against the
dimensions: only the row-major offset must fall within the values. -/
def get (t : Tensor) (indices : List Int) : Except Failure Float := do
  if indices.length ≠ t.shape.rank then
    throw (.panic ("Tensor.At(" ++ Text.intsText indices ++ ") for tensor of shape " ++ t.shape.text))
  t.stored ((indices.zip t.shape.dims).foldl (fun off (i, d) => Word.wrapInt64 (off * d + i)) 0)

/-- The number of positions of a shape: the product of its dimensions, none when one of them is
not positive. Unlike the number of elements it does not wrap around. -/
def positionCount (dims : List Int) : Nat :=
  if dims.all (0 < ·) then dims.foldl (fun n d => n * d.toNat) 1 else 0

/-- The values read position by position in row-major order, as `get` reads them. Position `k`
is storage position `k`, so the values are the first ones stored; a shape with more positions
than stored values (its dimensions multiply past 2^63 and the number of elements wraps around)
fails at the first position past the storage. -/
def values (t : Tensor) : Except Failure (Array Float) :=
  let n := positionCount t.shape.dims
  if n ≤ t.flat.size then .ok (t.flat.extract 0 n)
  else .error (Failure.indexFault t.flat.size t.flat.size)

/-- Two arrays are equal when their shapes are and their values are, one by one (NaN equals
nothing). -/
def equal (t u : Tensor) : Bool :=
  t.shape.same u.shape && t.flat.size == u.flat.size &&
    (t.flat.zip u.flat).all fun (a, b) => a == b

/-- The values as host scalars of an element type, which must be the array's. -/
def toHostList (t : Tensor) (e : ElementType) : Except Failure (List HostValue) :=
  if e.dtype ≠ t.shape.dtype then
    .error (.plain ("Flat[" ++ e.name ++ "]() called for tensor of dtype " ++ t.shape.dtype.name ++
      ", expected " ++ e.dtype.name))
  else .ok (t.flat.toList.map e.ofFloat)

/-- The shape followed by the values in brackets, each in its shortest general form. -/
def text (t : Tensor) : String :=
  t.shape.text ++ Text.bracketed (t.flat.toList.map Decimal.Layout.general.render)

end Tensor

end Rearrange

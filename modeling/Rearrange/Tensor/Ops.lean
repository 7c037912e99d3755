import Rearrange.Tensor.Basic
import Rearrange.Shape.Rules
/-!
# Operations on dense arrays

The primitive operations of a plan on dense arrays. Each checks its operands with the shape
rules first and fails as they do; then it computes the values in row-major order:

* `reshape` keeps the values and changes the dimensions;
* `transpose` reads output position `(i₀, …)` at input position `(…, iₐ at axis perm[a], …)`;
* `reduce` folds the values along one axis, starting from the operation's identity (+∞ for a
  minimum, -∞ for a maximum, 1 for a product, 0 otherwise); a mean divides the sum by the
  axis length, and every result is rounded to the element type;
* `repeat` inserts an axis along which the array is copied;
* `join` is the outer product, rounded to the element type after each multiplication.

The index arithmetic is that of 64-bit words, on the dimensions as they are. For an array whose
dimensions multiply past 2^63, so that its number of elements wraps around, the storage and the
dimensions disagree: an operation then reads, writes or copies outside the storage and faults
at the first such access, or reserves a block that is too large.
-/
namespace Rearrange

def isNegZero (x : Float) : Bool := x == 0 && x.toBits ≥ 0x8000000000000000

/-- The smaller of two doubles; NaN if either is, and negative zero below positive zero. -/
def minFloat (a b : Float) : Float :=
  if a.isNaN then a else if b.isNaN then b
  else if a < b then a else if b < a then b
  else if isNegZero a then a else b

/-- The larger of two doubles; NaN if either is, and positive zero above negative zero. -/
def maxFloat (a b : Float) : Float :=
  if a.isNaN then a else if b.isNaN then b
  else if a < b then b else if b < a then a
  else if isNegZero a then b else a

/-- Row-major strides: the product of the dimensions after each axis, as a wrapping 64-bit
word. -/
def strides (dims : List Int) : List Int :=
  (List.range dims.length).map fun a => Word.product (dims.drop (a + 1))

/-- Advances a position by one in row-major order, together with the storage offset it is read
at: the last axis below `axis` steps forward by its stride, and an axis that reaches its
dimension goes back to 0 (its offset is taken back) and carries to the axis before it. -/
def carry (dims moved : Array Int) : Nat → Array Int × Int → Array Int × Int
  | 0, st => st
  | a + 1, (idx, off) =>
    let i := idx.getD a 0 + 1
    let stride := moved.getD a 0
    let off := Word.wrapInt64 (off + stride)
    if i < dims.getD a 0 then (idx.set! a i, off)
    else carry dims moved a (idx.set! a 0, Word.wrapInt64 (off - Word.wrapInt64 (i * stride)))

namespace Tensor

/-- The same values under other dimensions of the same number of elements. -/
def reshape (x : Tensor) (dims : List Int) : Except Failure Tensor := do
  let shape ← Shape.reshape x.shape dims
  pure { x with shape }

/-- The array with its axes permuted: output axis `a` is input axis `perm[a]`. As many values
as are stored are produced, walking the output positions in row-major order and reading each
at the input offset kept in step with it. -/
def transpose (x : Tensor) (perm : List Int) : Except Failure Tensor := do
  let shape ← Shape.transpose x.shape perm
  let inStrides := strides x.shape.dims
  let moved := (perm.map fun p => inStrides.getD p.toNat 0).toArray
  let dims := shape.dims.toArray
  let mut st : Array Int × Int := (Array.replicate dims.size 0, 0)
  let mut out : Array Float := #[]
  for _ in [0:x.flat.size] do
    out := out.push (← x.stored st.2)
    st := carry dims moved dims.size st
  pure { shape, flat := out }

/-- The start of a reduction. -/
def reductionStart : Reduction → Float
  | .min => Rounding.infinity
  | .max => -Rounding.infinity
  | .prod => 1
  | _ => 0

/-- One step of a reduction. -/
def reductionStep (op : Reduction) (acc v : Float) : Float :=
  match op with
  | .min => minFloat acc v
  | .max => maxFloat acc v
  | .sum | .mean => acc + v
  | .prod => acc * v
  | _ => acc

/-- The array folded along one axis (negative axes count from the end).

The axis splits the dimensions into `outer × n × inner` (wrapping products). Result cell `c`,
with `c = o · inner + i`, folds the values stored at `(o · n + k) · inner + i` for `k < n`, in
64-bit arithmetic, and the result holds `outer · inner` cells. When the dimensions multiply past
2^63 these disagree with the storage, and the first read or write outside it faults. Reading
past the storage happens within one more read than there are stored values, and writing within
one more cell than there is room for, so the folds stop there. -/
def reduce (x : Tensor) (axis : Int) (op : Reduction) : Except Failure Tensor := do
  let shape ← Shape.reduce x.shape axis op
  let a ← Shape.adjustAxis axis x.shape.rank
  let dims := x.shape.dims
  let outer := Word.product (dims.take a)
  let n := dims.getD a 0
  let inner := Word.product (dims.drop (a + 1))
  let room := Word.wrapInt64 (outer * inner)
  reserve room true
  let cells := min (outer.toNat * inner.toNat) (room.toNat + 1)
  let mut out : Array Float := #[]
  for c in [0:cells] do
    let o : Int := c / inner.toNat
    let i : Int := c % inner.toNat
    let mut acc := reductionStart op
    for k in [0:min n.toNat (x.flat.size + 1)] do
      let pos := Word.wrapInt64 (Word.wrapInt64 (Word.wrapInt64 (o * n) + k) * inner + i)
      acc := reductionStep op acc (← x.stored pos)
    if room ≤ c then throw (Failure.indexFault c room.toNat)
    out := out.push (shape.dtype.normalize (if op = .mean then acc / Float.ofInt n else acc))
  pure { shape, flat := out ++ Array.replicate (room.toNat - out.size) 0 }

/-- The array copied `count` times along a new axis inserted at `axis`. With the dimensions
split at `axis` into `outer × inner` (wrapping products), block `o` is the storage from
`o · inner` to `(o + 1) · inner`, and each block is written `count` times into a new block with
room for the result's number of elements, a number that wraps around. A block must lie within
the room of the storage, not only its stored values: its spare places are copied as zeros. A
block outside the room faults; that happens within one more block than the room holds, so the
copying stops there. The copies of a block that would take the result past `blockLimit` values
abort instead. -/
def «repeat» (x : Tensor) (axis count : Int) : Except Failure Tensor := do
  let shape ← Shape.repeat x.shape axis count
  reserve shape.size false
  let dims := x.shape.dims
  let outer := Word.product (dims.take axis.toNat)
  let inner := Word.product (dims.drop axis.toNat)
  let mut out : Array Float := #[]
  if inner ≠ 0 then
    for o in [0:min outer.toNat (x.room + 1)] do
      let lo := Word.wrapInt64 (o * inner)
      let hi := Word.wrapInt64 ((o + 1) * inner)
      if let some f := Failure.sliceFault? lo hi x.room then throw f
      let piece := x.block lo.toNat hi.toNat
      if blockLimit < ((out.size + count.toNat * piece.size : Nat) : Int) then throw growFault
      for _ in [0:count.toNat] do
        out := out ++ piece
  pure { shape, flat := out, spare := shape.size.toNat - out.size }

/-- The outer product of the arrays, rounded to the element type after each multiplication. Each
product is written into a new block reserved with room for its number of values, a number that
wraps around; a product of more than `blockLimit` values aborts. -/
def join (xs : List Tensor) : Except Failure Tensor := do
  let shape ← Shape.join (xs.map (·.shape))
  let flat ← xs.foldlM (fun acc x => do
      reserve (Word.wrapInt64 (acc.size * x.flat.size)) false
      if blockLimit < ((acc.size * x.flat.size : Nat) : Int) then throw growFault
      pure (acc.flatMap fun l => x.flat.map fun r => shape.dtype.normalize (l * r))) #[1]
  if (flat.size : Int) ≠ shape.size then
    throw (.plain ("Join(): got " ++ toString flat.size ++ " values for shape " ++ shape.text))
  pure { shape, flat }

end Tensor

end Rearrange

import Rearrange.DType
import Rearrange.Error
import Rearrange.Text.Listing
import Rearrange.Word
/-!
# Shapes

A shape is an element type and a list of dimensions, one per axis; a scalar has none. Dimensions
are kept as given, zero and negative ones included: only `Shape.make` insists that they are
positive. The number of elements is the product of the dimensions as a signed 64-bit word, so it
wraps around for huge shapes.

A shape is written `(Float32)[2 3]`, or `(Float32)` for a scalar, and as the StableHLO tensor
type `tensor<2x3xf32>`.
-/
namespace Rearrange

/-- The abort of asking for the host type of an element type that has none. -/
def DType.noHostType (t : DType) : Failure :=
  .panic ("unknown dtype " ++ Text.quote t.name ++ " (" ++ toString t.code ++ ") in DType.GoType")

/-- The element type and dimensions of an array. -/
structure Shape where
  dtype : DType
  dims : List Int
  deriving DecidableEq, Repr, Inhabited

namespace Shape

/-- The shape of nothing: the invalid element type and no dimensions. -/
def invalid : Shape := ⟨.invalid, []⟩

def ok (s : Shape) : Bool := s.dtype != .invalid

def rank (s : Shape) : Nat := s.dims.length

/-- A valid shape without axes. -/
def isScalar (s : Shape) : Bool := s.ok && s.rank == 0

def size (s : Shape) : Int := Word.product s.dims

/-- The text of a shape: the element type in parentheses, then the dimensions. -/
def text (s : Shape) : String :=
  if s.dims.isEmpty then "(" ++ s.dtype.name ++ ")"
  else "(" ++ s.dtype.name ++ ")" ++ Text.intsText s.dims

instance : ToString Shape := ⟨text⟩

/-- The StableHLO tensor type of a shape. -/
def hloType (s : Shape) : String :=
  "tensor<" ++ String.join (s.dims.map fun d => toString d ++ "x") ++ s.dtype.hloName ++ ">"

def sameDims (s t : Shape) : Bool := s.dims == t.dims

def same (s t : Shape) : Bool := s.dtype == t.dtype && s.sameDims t

def withDims (s : Shape) (dims : List Int) : Shape := ⟨s.dtype, dims⟩

/-- The shape, or an abort when a dimension is not positive. -/
def make (dtype : DType) (dims : List Int) : Except Failure Shape :=
  let s : Shape := ⟨dtype, dims⟩
  if dims.all (0 < ·) then .ok s
  else .error (.panic ("shapes.Make(" ++ s.text ++
    "): cannot create a shape with an axis with dimension <= 0"))

/-- The dimension of an axis; a negative axis counts from the end. Out of range aborts. -/
def dim (s : Shape) (axis : Int) : Except Failure Int :=
  let adjusted := if axis < 0 then axis + s.rank else axis
  let outOfBounds : Failure := .panic ("Shape.Dim(" ++ toString axis ++
    ") out-of-bounds for rank " ++ toString s.rank ++ " (shape=" ++ s.text ++ ")")
  if adjusted < 0 then .error outOfBounds
  else match s.dims[adjusted.toNat]? with
    | some d => .ok d
    | none => .error outOfBounds

/-- Bytes taken by an array of the shape, as an unsigned 64-bit word; aborts for an element
type without a host type. -/
def memory (s : Shape) : Except Failure Nat :=
  match s.dtype.byteSize? with
  | some b => .ok (Word.wrapUInt64 (b * s.size))
  | none => .error s.dtype.noHostType

/-- Succeeds when the shape has the element type and dimensions asked for. -/
def check (s : Shape) (dtype : DType) (dims : List Int) : Except Failure Unit :=
  if s.dtype != dtype then
    .error (.plain ("shape " ++ s.text ++ " has dtype " ++ s.dtype.name ++ ", wanted " ++ dtype.name))
  else if s.dims != dims then
    .error (.plain ("shape " ++ s.text ++ " has dimensions " ++ Text.intsText s.dims ++
      ", wanted " ++ Text.intsText dims))
  else .ok ()

end Shape

end Rearrange

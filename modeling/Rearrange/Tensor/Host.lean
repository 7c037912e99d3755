import Rearrange.Tensor.Basic
import Rearrange.Text.Quoted
/-!
# Arrays from nested host values

A host value is a scalar of an element type, a slice of host values of one static type, or a
value of a type that holds no array data (a string, a map, a value of unknown type). An array
is read off a nested value by walking it depth first: every slice level is an axis, the first
slice met at a level fixes that axis's length and every later slice at that level must match
it, empty slices are refused (their inner lengths are unknown), and the scalars are the values
in row-major order.
-/
namespace Rearrange

/-- The static type of a host value. -/
inductive HostType where
  | element (e : ElementType)
  | slice (elem : HostType)
  | unsupported (name : String)
  deriving Repr, Inhabited

/-- The name of a host type, as host type names are written. -/
def HostType.name : HostType → String
  | .element e => e.name
  | .slice t => "[]" ++ t.name
  | .unsupported n => n

/-- A host value together with its static type. -/
inductive HostData where
  | scalar (e : ElementType) (v : HostValue)
  | slice (elem : HostType) (items : List HostData)
  | unsupported (typeName : String)
  deriving Repr, Inhabited

namespace HostData

/-- Dimensions and element type found so far by a walk. -/
structure Found where
  dims : List Int := []
  dtype : DType := .invalid

mutual

/-- The walk of one value at a depth. -/
def shapeWalk : HostData → Nat → Found → Except String Found
  | .scalar e _, level, f =>
    if level ≠ f.dims.length then
      .error ("irregular nesting of slices: found a " ++ e.name ++ " at depth " ++ toString level ++
        ", expected depth " ++ toString f.dims.length)
    else .ok { f with dtype := e.dtype }
  | .unsupported n, _, _ =>
    .error ("cannot convert type " ++ Text.quote n ++ " to a shape (maybe type not supported yet?)")
  | .slice t items, level, f =>
    if items.isEmpty then
      .error ("empty slice of type []" ++ t.name ++
        " not valid for shape conversion: inner dimensions cannot be inferred")
    else
      let irregular : Except String Found :=
        .error ("sub-slices have irregular shapes: length " ++ toString items.length ++ " at depth " ++
          toString level ++ ", expected " ++ Text.intsText f.dims)
      let checked : Except String Found :=
        if level = f.dims.length then .ok { f with dims := f.dims ++ [(items.length : Int)] }
        else match f.dims[level]? with
          | some d => if d = items.length then .ok f else irregular
          | none => irregular
      match checked with
      | .error m => .error m
      | .ok f => shapeWalkItems items (level + 1) f

/-- The walk of the items of a slice, in order. -/
def shapeWalkItems : List HostData → Nat → Found → Except String Found
  | [], _, f => .ok f
  | d :: ds, level, f =>
    match shapeWalk d level f with
    | .error m => .error m
    | .ok f => shapeWalkItems ds level f

end

mutual

/-- The type of the first scalar, depth first, of a type arrays do not take. -/
def foreignScalar? : HostData → Option ElementType
  | .scalar e _ => if e.isArrayElement then none else some e
  | .slice _ items => foreignScalarOfItems? items
  | .unsupported _ => none

/-- The type of the first scalar of the items of a slice of a type arrays do not take. -/
def foreignScalarOfItems? : List HostData → Option ElementType
  | [] => none
  | d :: ds =>
    match foreignScalar? d with
    | some e => some e
    | none => foreignScalarOfItems? ds

end

mutual

/-- The scalars of a value, depth first, widened to doubles. -/
def leaves : HostData → List Float
  | .scalar _ v => [v.toFloat]
  | .slice _ items => leavesOfItems items
  | .unsupported _ => []

/-- The scalars of the items of a slice, in order. -/
def leavesOfItems : List HostData → List Float
  | [] => []
  | d :: ds => leaves d ++ leavesOfItems ds

end

end HostData

/-- The shape of a host value, `none` being the absent value: one axis per slice level, and the
element type of its scalars. -/
def Shape.ofValue : Option HostData → Except String Shape
  | none => .error "cannot infer the shape of a nil value"
  | some d => (d.shapeWalk 0 {}).map fun f => ⟨f.dtype, f.dims⟩

/-- The array described by a host value; `none` is the absent value. A block is reserved with
room for the number of elements of the shape, and the scalars are appended to it one by one:
a scalar of a type arrays do not take is refused, and a block can neither be reserved nor grow
past `blockLimit` doubles. -/
def Tensor.ofValue (v : Option HostData) : Except Failure Tensor := do
  let shape ← (Shape.ofValue v).mapError fun m => .plain ("reference.FromValue(): " ++ m)
  reserve shape.size false
  if let some e := v.bind HostData.foreignScalar? then
    throw (.plain ("reference.FromValue(): unsupported value type " ++ e.name))
  let flat := (v.elim [] HostData.leaves).toArray
  if blockLimit < flat.size then throw growFault
  pure { shape, flat, spare := (shape.size - flat.size).toNat }

end Rearrange

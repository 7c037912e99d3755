import Rearrange.Pattern.Index
import Rearrange.Reduction
/-!
# Expressions

What a pattern says, once read: for each input, its axes in order and the dimensions they
come from (`Decomposition`); the reduced axes; the table of the axes that survive the
reductions (`NameTable`); the output slots, each one axis or a parenthesized group of axes
(`Slot`); the order in which the kept axes appear in the output (`permutation`); the new axes
of the output (`NewAxis`); and the sizes written on the output side for axes of the inputs.
-/
namespace Rearrange.Pattern

/-- The name under which the ellipsis is registered. -/
def ellipsisName : String := ".."

/-- Named axes, the one axis of a group whose size is derived from the others, and the
ellipsis. -/
inductive AxisKind where
  | named | derived | ellipsis
  deriving DecidableEq, Repr, Inhabited

/-- The name of an axis kind. -/
def AxisKind.name : AxisKind → String
  | named => "Named"
  | derived => "Derived"
  | ellipsis => "Ellipsis"

/-- One axis of an input. -/
structure Axis where
  kind : AxisKind := .named
  name : String := ""
  /-- Size declared in the pattern or the options, 0 if none. -/
  size : Int := 0
  /-- For a derived axis, the product of the sizes of the other members of its group. -/
  siblingsSize : Int := 0
  reduce : Reduction := .none
  /-- Position among the axes of all inputs, before reductions. -/
  index : Index := Index.zero
  /-- Byte offset in the pattern. -/
  pos : Nat := 0
  deriving Repr, Inhabited

def Axis.isReduced (a : Axis) : Bool := a.reduce != .none

/-- One dimension of an input: which of its axes come from it. -/
structure Dim where
  first : Nat
  count : Nat
  parenthesized : Bool := false
  ellipsis : Bool := false
  deriving DecidableEq, Repr, Inhabited

/-- The axes of one input, and the dimensions they come from, in order. -/
structure Decomposition where
  input : Nat
  axes : List Axis := []
  dims : List Dim := []
  deriving Repr, Inhabited

namespace Decomposition

def hasEllipsis (d : Decomposition) : Bool := d.dims.any (·.ellipsis)

/-- Whether a dimension is a parenthesized group, so that the input must be split. -/
def hasGroups (d : Decomposition) : Bool := d.dims.any (·.parenthesized)

/-- The axes of one dimension. -/
def dimAxes (d : Decomposition) (dim : Dim) : List Axis :=
  (d.axes.drop dim.first).take dim.count

end Decomposition

/-- One slot of the output: a single axis, or a parenthesized group of axes merged into one.
Each carries its byte offset in the pattern. -/
inductive Slot where
  | single (index : Index) (pos : Nat)
  | group (members : List Index) (pos : Nat)
  deriving Repr, Inhabited

namespace Slot

/-- The positions a slot covers before merging. -/
def indices : Slot → List Index
  | single i _ => [i]
  | group ms _ => ms

/-- The byte offset of a slot. -/
def pos : Slot → Nat
  | single _ p => p
  | group _ p => p

/-- The first member of a group, position zero for an empty one. -/
def groupFrom : Slot → Index
  | group (m :: _) _ => m
  | _ => Index.zero

/-- The last member of a group, position zero for an empty one. -/
def groupTo : Slot → Index
  | group ms _ => ms.getLast?.getD Index.zero
  | _ => Index.zero

end Slot

/-- A reduced axis: its position before any reduction, the operation and its name. -/
structure ReducedAxis where
  index : Index
  op : Reduction
  name : String
  deriving Repr, Inhabited

/-- A new axis of the output, filled by repeating the data; an integer in the pattern makes
one without a name. -/
structure NewAxis where
  index : Index
  size : Int
  name : String := ""
  deriving Repr, Inhabited

/-- The axes left after the reductions, by name, with their positions in order; and the names
of the reduced axes. -/
structure NameTable where
  entries : List (String × Index) := []
  reduced : List String := []
  deriving Repr, Inhabited

namespace NameTable

def lookup (t : NameTable) (name : String) : Option Index := t.entries.lookup name

def isReduced (t : NameTable) (name : String) : Bool := t.reduced.contains name

def names (t : NameTable) : List String := t.entries.map (·.1)

/-- The number of positions, the ellipsis counting as one. -/
def length (t : NameTable) : Nat := t.entries.length

def hasEllipsis (t : NameTable) : Bool := (t.lookup ellipsisName).isSome

end NameTable

/-- A pattern, read. -/
structure Expression where
  pattern : String
  inputs : List Decomposition
  reductions : List ReducedAxis
  names : NameTable
  output : List Slot
  /-- The positions in the name table of the axes taken from the inputs, in output order. -/
  permutation : List Index
  newAxes : List NewAxis
  /-- Sizes written on the output side for axes of the inputs. -/
  outputSizes : List (String × Int)
  deriving Repr, Inhabited

def Expression.hasEllipsis (e : Expression) : Bool := e.names.hasEllipsis

end Rearrange.Pattern

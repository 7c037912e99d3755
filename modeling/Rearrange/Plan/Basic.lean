import Rearrange.Shape
import Rearrange.Reduction
import Rearrange.Text.Identifier
/-!
# Plans

A plan is the compiled form of a pattern for given input shapes: the list of primitive array
operations (`Step`) that turns the inputs into the output. Before a join, or when there is a
single input, steps work on the inputs one by one; after it, on the single joined array.

The kinds of steps are: split an input's grouped dimensions into their axes, join all inputs
into one array (an outer product), reduce one axis, permute the axes, repeat the data along a
new axis, and merge runs of axes into single dimensions. A step of a hand-built plan may carry
any kind code, named or not.
-/
namespace Rearrange

/-- The kinds of plan steps, in their enumeration order from 0; `last` marks the end of the
enumeration, and a code outside it has no name. -/
inductive StepKind where
  | invalid | reshapeSplit | join | reduce | permute | «repeat» | reshapeMerge | last
  | unnamed (code : Int)
  deriving DecidableEq, Repr, Inhabited

namespace StepKind

/-- The named kinds in enumeration order. -/
def named : List StepKind :=
  [invalid, reshapeSplit, join, reduce, permute, «repeat», reshapeMerge, last]

/-- Their names. -/
def names : List String :=
  ["Invalid", "ReshapeSplit", "Join", "Reduce", "Permute", "Repeat", "ReshapeMerge", "Last"]

/-- The enumeration code. -/
def code : StepKind → Int
  | invalid => 0 | reshapeSplit => 1 | join => 2 | reduce => 3 | permute => 4
  | «repeat» => 5 | reshapeMerge => 6 | last => 7
  | unnamed n => n

/-- The kind with the given code. -/
def ofCode (n : Int) : StepKind :=
  if n < 0 then unnamed n else (named[n.toNat]?).getD (unnamed n)

/-- The name; a code without one is written `OpType(n)`. -/
def name : StepKind → String
  | unnamed n => "OpType(" ++ toString n ++ ")"
  | k => (names[k.code.toNat]?).getD ""

/-- The kind whose name matches, as written or in lower case. -/
def ofName? (s : String) : Option StepKind :=
  (Text.findName? names s).bind (named[·]?)

def isNamed (k : StepKind) : Bool := 0 ≤ k.code && k.code < 8

/-- The operation name of the kind in the text of a plan: `einops.` and the snake-case name. -/
def opName (k : StepKind) : String := "einops." ++ Text.snakeCase k.name

end StepKind

/-- One primitive operation of a plan. Each kind reads only its own fields. -/
structure Step where
  kind : StepKind
  /-- The input split by a `reshapeSplit`. -/
  input : Int := 0
  /-- Dimensions after a `reshapeSplit` or a `reshapeMerge`. -/
  dims : List Int := []
  /-- The axis reduced by `reduce`, or inserted by `repeat`. -/
  axis : Int := 0
  op : Reduction := .none
  /-- Output axis `i` is input axis `permutation[i]`. -/
  permutation : List Int := []
  /-- The size of the axis inserted by `repeat`. -/
  count : Int := 0
  /-- The runs of axes merged by `reshapeMerge`, as start and end (exclusive). -/
  groups : List (Int × Int) := []
  output : Shape := Shape.invalid
  deriving Repr, Inhabited

namespace Step

/-- Groups written as `[[0 2] [2 3]]`. -/
def groupsText (gs : List (Int × Int)) : String :=
  Text.bracketed (gs.map fun g => Text.intsText [g.1, g.2])

/-- The one-line description of a step. -/
def text (s : Step) : String :=
  match s.kind with
  | .reshapeSplit =>
    s.kind.name ++ "(input=" ++ toString s.input ++ ", dims=" ++ Text.intsText s.dims ++ ")"
  | .join => s.kind.name ++ "()"
  | .reduce =>
    s.kind.name ++ "(axis=" ++ toString s.axis ++ ", op=" ++ s.op.keyword ++ ")"
  | .permute => s.kind.name ++ "(" ++ Text.intsText s.permutation ++ ")"
  | .repeat =>
    s.kind.name ++ "(axis=" ++ toString s.axis ++ ", count=" ++ toString s.count ++ ")"
  | .reshapeMerge =>
    s.kind.name ++ "(groups=" ++ groupsText s.groups ++ ", dims=" ++ Text.intsText s.dims ++ ")"
  | _ => s.kind.name

/-- The attributes of a step in the text of a plan. -/
def attributes (s : Step) : String :=
  match s.kind with
  | .reshapeSplit => "\x7bdims = " ++ Text.intsText s.dims ++ "\x7d"
  | .reshapeMerge =>
    "\x7bgroups = " ++ groupsText s.groups ++ ", dims = " ++ Text.intsText s.dims ++ "\x7d"
  | .reduce => "\x7baxis = " ++ toString s.axis ++ ", op = " ++ Text.quote s.op.keyword ++ "\x7d"
  | .permute => "\x7bpermutation = " ++ Text.intsText s.permutation ++ "\x7d"
  | .repeat => "\x7baxis = " ++ toString s.axis ++ ", count = " ++ toString s.count ++ "\x7d"
  | _ => ""

end Step

/-- A compiled pattern. -/
structure Plan where
  name : String
  pattern : String
  inputs : List Shape
  output : Shape
  steps : List Step
  /-- The size of every named axis: kept, reduced, derived and new ones. -/
  axisSizes : List (String × Int)
  /-- The dimensions the ellipsis matched. -/
  ellipsisDims : List Int
  deriving Repr, Inhabited

namespace Plan

def stepsOf (p : Plan) (k : StepKind) : List Step := p.steps.filter (·.kind == k)

def kinds (p : Plan) : List StepKind := p.steps.map (·.kind)

/-- The element at a position of a list (an array between steps, a dimension), or the fault of
an index out of range. -/
def operandAt {α : Type} (values : List α) (i : Int) : Except Failure α :=
  if i < 0 then .error (Failure.indexFault i values.length)
  else match values[i.toNat]? with
    | some v => .ok v
    | none => .error (Failure.indexFault i values.length)

/-- The elements from `lo` up to `hi`, or the fault of a slice outside the list. -/
def sliceOf {α : Type} (xs : List α) (lo hi : Int) : Except Failure (List α) :=
  match Failure.sliceFault? lo hi xs.length with
  | some f => .error f
  | none => .ok ((xs.drop lo.toNat).take (hi.toNat - lo.toNat))

/-- The list without the element at `i`, or the fault of deleting outside it. -/
def deleteAt {α : Type} (xs : List α) (i : Int) : Except Failure (List α) :=
  match Failure.cutFault? i (i + 1) xs.length with
  | some f => .error f
  | none => .ok (xs.eraseIdx i.toNat)

/-- The list with `x` inserted before position `i`, or the fault of a position outside it. -/
def insertAt {α : Type} (xs : List α) (i : Int) (x : α) : Except Failure (List α) :=
  match Failure.sliceFault? i xs.length xs.length with
  | some f => .error f
  | none => .ok (xs.insertIdx i.toNat x)

end Plan

end Rearrange

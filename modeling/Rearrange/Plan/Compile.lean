import Rearrange.Plan.Basic
import Rearrange.Plan.Options
import Rearrange.Pattern.Parse
import Rearrange.Shape.Rules
/-!
# Compiling a pattern into a plan

`Plan.compile` reads the pattern for as many inputs as there are shapes, then fits it to the
shapes and lays out the steps:

* all inputs have one valid element type;
* each input's axes are matched to its dimensions: the ellipsis takes what the named axes leave,
  a group's dimension must be the product of its members' sizes, a derived member's size is the
  dimension divided by the product of the others; an input with groups is split;
* sizes written on the output side must agree with the inputs;
* several inputs are joined into one array, their axes one after the other;
* reductions run from the last axis to the first, so the positions of the others stay put;
* the kept axes are permuted into output order, unless they already are in it;
* new axes are inserted one at a time, each at its final position;
* output groups are merged.

Every step's output shape is then recomputed by the shape rules from the inputs, and the output's
rank and element count are checked against the pattern. An error found after reading the
pattern carries a note naming the pattern and the input shapes; a dimension that is not
positive makes a step's output shape abort.
-/
namespace Rearrange.Plan

open Pattern

/-- The state of the layout of a plan. -/
structure Assembly where
  pattern : String
  dtype : DType
  /-- The number of axes the ellipsis matches. -/
  width : Int := 0
  /-- The dimensions of the array being transformed. -/
  dims : List Int := []
  steps : List Step := []
  axisSizes : List (String × Int) := []
  ellipsisDims : List Int := []

namespace Assembly

/-- A classified error of the layout. -/
def fail (a : Assembly) (kind : ErrorKind) (pos : Int) (msg : String) : Failure :=
  .tagged { kind, pattern := a.pattern, pos, msg }

/-- The size recorded for an axis, 0 if none. -/
def sizeOf (a : Assembly) (name : String) : Int := (a.axisSizes.lookup name).getD 0

/-- Records the size of an axis, replacing an earlier one. -/
def setSize (a : Assembly) (name : String) (size : Int) : Assembly :=
  if a.axisSizes.any (·.1 == name) then
    { a with axisSizes := a.axisSizes.map fun p => if p.1 == name then (name, size) else p }
  else { a with axisSizes := a.axisSizes ++ [(name, size)] }

/-- Appends a step whose output has the current dimensions. -/
def emit (a : Assembly) (s : Step) : Except Failure Assembly := do
  let out ← Shape.make a.dtype a.dims
  pure { a with steps := a.steps ++ [{ s with output := out }] }

/-- The number of axes a position stands for: the ellipsis covers `width`. -/
def span (a : Assembly) (i : Index) : Int := if i.kind = .range then a.width else 1

/-- Matches one member of an input group to its size, and multiplies the group's size. -/
def groupMember (i : Nat) (inputDim : Int) (st : Assembly × Int × List Int)
    (axis : Axis) : Except Failure (Assembly × Int × List Int) := do
  let (a, groupSize, acc) := st
  let a ← if axis.kind = .derived then do
      if axis.siblingsSize ≤ 0 then
        throw (a.fail .invalidSize axis.pos ("can't derive size of axis " ++ Text.quote axis.name ++
          " from siblings of size " ++ toString axis.siblingsSize))
      if inputDim.tmod axis.siblingsSize ≠ 0 then
        throw (a.fail .shapeNotDivisible axis.pos ("can't derive size of axis " ++
          Text.quote axis.name ++ ": dimension " ++ toString inputDim ++ " of input #" ++ toString i ++
          " is not divisible by " ++ toString axis.siblingsSize))
      pure (a.setSize axis.name (inputDim.tdiv axis.siblingsSize))
    else pure (a.setSize axis.name axis.size)
  let size := a.sizeOf axis.name
  match Word.checkedMul groupSize size with
  | none => throw (a.fail .invalidSize axis.pos ("sizes of the group of axis " ++
      Text.quote axis.name ++ " overflow"))
  | some g => pure (a, g, acc ++ [size])

/-- Matches one dimension of input `i` to its axes; returns the split dimensions so far and the
next axis of the input. -/
def splitDim (i : Nat) (d : Decomposition) (shape : Shape) (st : Assembly × List Int × Nat)
    (dim : Dim) : Except Failure (Assembly × List Int × Nat) := do
  let (a, acc, inputAxis) := st
  if dim.ellipsis then
    let ed ← sliceOf shape.dims inputAxis (inputAxis + a.width)
    pure ({ a with ellipsisDims := ed }, acc ++ ed, inputAxis + a.width.toNat)
  else
    let inputDim ← operandAt shape.dims inputAxis
    let members := d.dimAxes dim
    if !dim.parenthesized then
      match members with
      | axis :: _ =>
        if axis.size > 0 && axis.size ≠ inputDim then
          throw (a.fail .sizeMismatch axis.pos ("axis " ++ Text.quote axis.name ++
            " declared with size " ++ toString axis.size ++ ", but input #" ++ toString i ++
            " has dimension " ++ toString inputDim))
        pure (a.setSize axis.name inputDim, acc ++ [inputDim], inputAxis + 1)
      | [] => throw (Failure.indexFault 0 0)
    else
      let (a, groupSize, acc) ← members.foldlM (groupMember i inputDim) (a, 1, acc)
      if groupSize ≠ inputDim then
        let pos : Int := (members.head?.map (·.pos : Axis → Int)).getD (-1)
        throw (a.fail .sizeMismatch pos ("group of axes with total size " ++ toString groupSize ++
          " doesn't match dimension " ++ toString inputDim ++ " of input #" ++ toString i))
      pure (a, acc, inputAxis + 1)

/-- Fits input `i` to its shape, splitting it if it has groups. -/
def split (a : Assembly) (i : Nat) (d : Decomposition) (shape : Shape) : Except Failure Assembly := do
  let nd : Int := d.dims.length
  let a ← if d.hasEllipsis then
      let w := (shape.rank : Int) - (nd - 1)
      if w < 0 then
        throw (a.fail .rankMismatch (-1) ("input #" ++ toString i ++ " has shape " ++ shape.text ++
          ", but the pattern needs at least " ++ toString (nd - 1) ++ " axes"))
      pure { a with width := w }
    else if (shape.rank : Int) ≠ nd then
      throw (a.fail .rankMismatch (-1) ("input #" ++ toString i ++ " has shape " ++ shape.text ++
        ", but the pattern describes " ++ toString nd ++ " axes"))
    else pure a
  let (a, splitDims, _) ← d.dims.foldlM (splitDim i d shape) (a, [], 0)
  let a := if d.hasGroups then
      { a with steps := a.steps ++ [{ kind := .reshapeSplit, input := i, dims := splitDims,
                                      output := shape.withDims splitDims }] }
    else a
  pure { a with dims := a.dims ++ splitDims }

/-- Sizes written on the output side must be the sizes found, checked in order of names. -/
def checkOutputSizes (a : Assembly) (sizes : List (String × Int)) : Except Failure Unit := do
  for (name, size) in sizes.mergeSort (fun x y => decide (x.1 ≤ y.1)) do
    if a.sizeOf name ≠ size then
      throw (a.fail .sizeMismatch (-1) ("axis " ++ Text.quote name ++ " declared with size " ++
        toString size ++ " on the right side, but it has size " ++ toString (a.sizeOf name)))

/-- Emits the reductions from the last axis to the first. -/
def reduceAll (a : Assembly) (rs : List ReducedAxis) : Except Failure Assembly :=
  (rs.mergeSort fun x y => decide (y.index.pos ≤ x.index.pos)).foldlM (fun a r => do
    if a.dtype = .bool && Shape.isNumberReduction r.op then
      throw (a.fail .dtypeMismatch (-1) (r.op.keyword ++ "(" ++ r.name ++
        ") is not defined for arrays of " ++ a.dtype.name))
    let axis := r.index.resolve a.width
    let dims ← deleteAt a.dims axis
    let a := { a with dims }
    a.emit { kind := .reduce, axis, op := r.op }) a

/-- Emits the permutation into output order, unless it is the identity. -/
def permute (a : Assembly) (order : List Index) : Except Failure Assembly := do
  let perm := order.flatMap fun idx =>
    let first := idx.resolve a.width
    (List.range (a.span idx).toNat).map fun (k : Nat) => first + (k : Int)
  if perm.length ≠ a.dims.length then
    throw (a.fail .planInconsistent (-1) ("output uses " ++ toString perm.length ++
      " axes of the inputs, but " ++ toString a.dims.length ++ " are left after reductions"))
  if Shape.isIdentityPermutation perm then pure a
  else
    let dims ← perm.mapM (operandAt a.dims)
    let a := { a with dims }
    a.emit { kind := .permute, permutation := perm }

/-- Emits the new axes one at a time, in output order. -/
def repeatAll (a : Assembly) (news : List NewAxis) : Except Failure Assembly :=
  news.foldlM (fun a b => do
    let axis : Int := b.index.resolve a.width
    if axis > (a.dims.length : Int) then
      throw (a.fail .planInconsistent (-1) ("new axis at position " ++ toString axis ++
        ", but the output has only " ++ toString a.dims.length ++ " axes so far"))
    let a := if b.name ≠ "" then a.setSize b.name b.size else a
    let dims ← insertAt a.dims axis b.size
    let a := { a with dims }
    if (Word.checkedProduct a.dims).isNone then
      throw (a.fail .invalidSize (-1) ("repeating " ++ toString b.size ++
        " times overflows the number of elements of the output"))
    a.emit { kind := .repeat, axis, count := b.size }) a

/-- The runs of axes merged into each output dimension: a group covers its members, a single
slot its one axis, or each axis of a bare ellipsis separately. -/
def mergeGroups (a : Assembly) (slots : List Slot) : List (Int × Int) × Int :=
  slots.foldl (fun (gs, start) slot =>
    match slot with
    | .single idx _ =>
      let n := a.span idx
      (gs ++ (List.range n.toNat).map (fun (k : Nat) => (start + (k : Int), start + (k : Int) + 1)),
        start + max n 0)
    | .group ms _ =>
      let len := (ms.map a.span).foldl (· + ·) (0 : Int)
      (gs ++ [(start, start + len)], start + len)) ([], (0 : Int))

/-- Emits the merge of output groups, if the output has any. -/
def merge (a : Assembly) (slots : List Slot) : Except Failure Assembly := do
  if !slots.any (fun s => match s with | .group _ _ => true | _ => false) then return a
  let (groups, stop) := a.mergeGroups slots
  if stop ≠ a.dims.length then
    throw (a.fail .planInconsistent (-1) ("output groups cover " ++ toString stop ++
      " axes, but there are " ++ toString a.dims.length))
  let dims ← groups.mapM fun g => Word.product <$> sliceOf a.dims g.1 g.2
  let a := { a with dims }
  a.emit { kind := .reshapeMerge, groups, dims }

end Assembly

/-- The shape a step computes from the current arrays, by the shape rules. -/
def inferStep (s : Step) (current : List Shape) : Except Failure Shape :=
  let first := current.headD Shape.invalid
  match s.kind with
  | .reshapeSplit => Shape.reshape (current.getD s.input.toNat Shape.invalid) s.dims
  | .join => Shape.join current
  | .reduce => Shape.reduce first s.axis s.op
  | .permute => Shape.transpose first s.permutation
  | .repeat => Shape.repeat first s.axis s.count
  | .reshapeMerge => Shape.merge first s.groups
  | _ => .error (.plain "")

namespace Assembly

/-- Refuses a step of a kind that no plan runs. -/
def checkKind (a : Assembly) (s : Step) (i : Nat) : Except Failure Unit :=
  match s.kind with
  | .reshapeSplit | .join | .reduce | .permute | .repeat | .reshapeMerge => pure ()
  | _ => throw (a.fail .planInconsistent (-1) ("step #" ++ toString i ++ " has invalid type " ++ s.kind.name))

end Assembly

/-- Recomputes the output of step `i` from the shapes before it and checks it against the one
the step records; gives the shapes after it. -/
def checkStep (e : Expression) (a : Assembly) (current : List Shape) (s : Step) (i : Nat) :
    Except Failure (List Shape) := do
  let stepName := "step #" ++ toString i ++ " " ++ s.text
  a.checkKind s i
  let out ← (inferStep s current).mapError fun f =>
    if f.isPanic then f
    else .tagged { kind := .planInconsistent, pattern := e.pattern, pos := -1, msg := stepName,
                   cause := some f.message }
  if !out.same s.output then
    throw (a.fail .planInconsistent (-1) (stepName ++ " outputs " ++ out.text ++
      ", but the plan expects " ++ s.output.text))
  pure (if s.kind = .reshapeSplit then current.set s.input.toNat out else [out])

/-- Recomputes each step's output from the inputs and checks it, then the output's rank and
number of elements against the pattern. -/
def verify (e : Expression) (a : Assembly) (inputs : List Shape) (output : Shape) :
    Except Failure Unit := do
  let mut current := inputs
  for (s, i) in a.steps.zipIdx do
    current ← checkStep e a current s i
  if current.length ≠ 1 || !(current.headD Shape.invalid).same output then
    throw (a.fail .planInconsistent (-1) ("steps produce " ++ Text.bracketed (current.map (·.text)) ++
      ", but the plan output is " ++ output.text))
  let rank := (e.output.map fun s => match s with
    | .single idx _ => a.span idx
    | .group _ _ => 1).foldl (· + ·) (0 : Int)
  if rank ≠ output.rank then
    throw (a.fail .planInconsistent (-1) ("output " ++ output.text ++ " should have rank " ++ toString rank))
  let dims := e.names.names.flatMap (fun n => if n = ellipsisName then a.ellipsisDims else [a.sizeOf n]) ++
    e.newAxes.map (·.size)
  match Word.checkedProduct dims with
  | none => throw (a.fail .planInconsistent (-1) ("number of elements of output " ++ output.text ++ " overflows"))
  | some size =>
    if size ≠ output.size then
      throw (a.fail .planInconsistent (-1) ("output " ++ output.text ++ " should have " ++
        toString size ++ " elements"))

/-- The element type shared by all inputs. -/
def checkDTypes (pattern : String) (inputs : List Shape) : Except Failure DType := do
  let fail := fun (msg : String) => Failure.tagged { kind := .dtypeMismatch, pattern, pos := -1, msg }
  let mut dtype := DType.invalid
  for (s, i) in inputs.zipIdx do
    if !s.ok then throw (fail ("input #" ++ toString i ++ " has an invalid shape"))
    if i = 0 then dtype := s.dtype
    else if s.dtype ≠ dtype then
      throw (fail ("all inputs must have the same dtype, input #0 is " ++ dtype.name ++
        " and input #" ++ toString i ++ " is " ++ s.dtype.name))
  pure dtype

/-- Lays out the plan of a read pattern for the input shapes. -/
def assemble (e : Expression) (inputs : List Shape) (opts : CompileOptions) : Except Failure Plan := do
  let dtype ← checkDTypes e.pattern inputs
  let mut a : Assembly := { pattern := e.pattern, dtype }
  for (d, i) in e.inputs.zipIdx do
    a ← a.split i d (inputs.getD i Shape.invalid)
  a.checkOutputSizes e.outputSizes
  if inputs.length > 1 then
    a ← a.emit { kind := .join }
  a ← a.reduceAll e.reductions
  a ← a.permute e.permutation
  a ← a.repeatAll e.newAxes
  a ← a.merge e.output
  let output ← Shape.make a.dtype a.dims
  verify e a inputs output
  pure { name := opts.planName, pattern := e.pattern, inputs, output, steps := a.steps,
         axisSizes := a.axisSizes, ellipsisDims := a.ellipsisDims }

/-- Compiles a pattern for the input shapes. Errors of the pattern itself come as they are;
later ones carry a note naming the pattern and the input shapes. -/
def compile (pattern : String) (inputs : List Shape) (opts : CompileOptions) : Except Failure Plan := do
  let e ← (Expression.parse pattern inputs.length opts.axisSizes).mapError Failure.tagged
  (assemble e inputs opts).mapError
    (·.withContext ("einops.Compile(" ++ Text.quote pattern ++ ", " ++
      Text.bracketed (inputs.map (·.text)) ++ ")"))

end Rearrange.Plan

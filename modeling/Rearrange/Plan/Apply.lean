import Rearrange.Plan.Compile
/-!
# Running a plan

A plan runs on any backend that provides the shape of its arrays and the five primitive
operations. The inputs must match the shapes the plan was compiled for (their number first,
then each shape: the element type, the rank, the dimensions). Each step then takes the arrays
it reads and leaves its result; a step that fails, or aborts, fails the run with the step named.
The run must end with one array of the plan's output shape.
-/
namespace Rearrange

/-- The operations a plan needs from an array library. -/
structure Backend (α : Type) where
  shape : α → Shape
  reshape : α → List Int → Except Failure α
  transpose : α → List Int → Except Failure α
  reduce : α → Int → Reduction → Except Failure α
  «repeat» : α → Int → Int → Except Failure α
  join : List α → Except Failure α

namespace Plan

/-- The arrays after one step. -/
def applyStep {α : Type} (b : Backend α) (step : Step) (values : List α) : Except Failure (List α) := do
  match step.kind with
  | .reshapeSplit =>
    let x ← b.reshape (← operandAt values step.input) step.dims
    pure (values.set step.input.toNat x)
  | .join => pure [← b.join values]
  | .reduce => pure [← b.reduce (← operandAt values 0) step.axis step.op]
  | .permute => pure [← b.transpose (← operandAt values 0) step.permutation]
  | .repeat => pure [← b.repeat (← operandAt values 0) step.axis step.count]
  | .reshapeMerge => pure [← b.reshape (← operandAt values 0) step.dims]
  | k => throw (.plain ("unknown step type " ++ k.name))

/-- The kind of mismatch between an input's shape and the shape compiled for. -/
def mismatchKind (given planned : Shape) : ErrorKind :=
  if given.dtype ≠ planned.dtype then .dtypeMismatch
  else if given.rank ≠ planned.rank then .rankMismatch
  else .sizeMismatch

/-- The first input whose shape differs from the one compiled for. -/
def checkInputs {α : Type} (b : Backend α) (p : Plan) (inputs : List α) : Except Failure Unit := do
  if inputs.length ≠ p.inputs.length then
    let msg := "plan was compiled for " ++ toString p.inputs.length ++ " input(s), but " ++
      toString inputs.length ++ " were given"
    throw (.tagged { kind := .arityMismatch, pattern := p.pattern, pos := -1, msg })
  for ((x, planned), i) in (inputs.zip p.inputs).zipIdx do
    let given := b.shape x
    if !given.same planned then
      let msg := "input #" ++ toString i ++ " has shape " ++ given.text ++
        ", but the plan was compiled for " ++ planned.text
      throw (.tagged { kind := mismatchKind given planned, pattern := p.pattern, pos := -1, msg })

/-- The steps in order from the given arrays; a failing step is named in the failure. -/
def runSteps {α : Type} (b : Backend α) (pattern : String) :
    Nat → List Step → List α → Except Failure (List α)
  | _, [], values => .ok values
  | i, step :: rest, values =>
    match applyStep b step values with
    | .ok values => runSteps b pattern (i + 1) rest values
    | .error f =>
      let msg := "step #" ++ toString i ++ " " ++ step.text ++ " failed"
      .error (.tagged { kind := .backendFailure, pattern, pos := -1, msg, cause := some f.recoveredText })

/-- The plan run on the inputs. -/
def apply {α : Type} (b : Backend α) (p : Plan) (inputs : List α) : Except Failure α := do
  checkInputs b p inputs
  let values ← runSteps b p.pattern 0 p.steps inputs
  let out ← match values with
    | [x] => pure x
    | _ =>
      let msg := "plan ended with " ++ toString values.length ++ " arrays"
      throw (.tagged { kind := .planInconsistent, pattern := p.pattern, pos := -1, msg })
  let shape := b.shape out
  if !shape.same p.output then
    let msg := "backend returned output with shape " ++ shape.text ++ ", but plan expects " ++
      p.output.text
    throw (.tagged { kind := .backendFailure, pattern := p.pattern, pos := -1, msg })
  pure out

end Plan

/-- Compiles the pattern for the shapes of the inputs, then runs it. -/
def execute {α : Type} (b : Backend α) (pattern : String) (inputs : List α) (opts : CompileOptions) :
    Except Failure α := do
  let p ← Plan.compile pattern (inputs.map b.shape) opts
  p.apply b inputs

end Rearrange

import Rearrange.Hlo.Program
import Rearrange.Plan.Basic
/-!
# Lowering a plan to StableHLO

A plan becomes a module named after it with one `main` function: one argument per plan input,
the operations of each step, and a return of the single array the plan ends with.

* `reshapeSplit` reshapes the input it names.
* `join` broadcasts every array to the joined shape, each onto the run of axes after the
  previous ones, and multiplies them: their outer product.
* `reduce` reduces with a closure combining two scalars; a mean divides the sum by the
  length of the reduced axis.
* `permute` is a transpose, `repeat` a broadcast with a new axis, `reshapeMerge` a reshape.
-/
namespace Rearrange.Hlo

/-- The starting value and the combining operation of a reduction over an element type. -/
def reduction (dtype : DType) (op : Reduction) : Except Failure (Scalar × Op) :=
  let isBool := dtype = .bool
  let numeric := fun (init : Scalar) (combine : Op) =>
    if isBool then
      Except.error (Failure.plain ("reduction " ++ Text.quote op.keyword ++ " not supported for dtype " ++
        dtype.name))
    else .ok (init, combine)
  match op with
  | .sum | .mean => numeric (.typed .int (.int 0)) .add
  | .prod => numeric (.typed .int (.int 1)) .multiply
  | .max => (lowestValue dtype).map fun init => (init, if isBool then .or else .maximum)
  | .min => (highestValue dtype).map fun init => (init, if isBool then .and else .minimum)
  | _ => .error (.plain ("invalid reduction " ++ op.name))

namespace Program

/-- One array of a join: broadcast onto the axes of the joined shape from `offset`, the ones
after the arrays before it, and multiplied into their product. -/
def joinOperand (target : Shape) (acc : Program × Option Nat × Int) (v : Nat) :
    Except Failure (Program × Option Nat × Int) := do
  let (p, product, offset) := acc
  let rank := (p.value v).shape.rank
  let mapping := (List.range rank).map fun (i : Nat) => offset + (i : Int)
  let (p, b) ← p.broadcastInDim v target mapping
  match product with
  | none => pure (p, some b, offset + mapping.length)
  | some prev =>
    let (p, m) ← p.binary .multiply prev b
    pure (p, some m, offset + mapping.length)

/-- The outer product of the arrays, each broadcast to the joined shape. -/
def lowerJoin (p : Program) (target : Shape) (values : List Nat) : Except Failure (Program × Nat) := do
  let (p, product, _) ← values.foldlM (joinOperand target) (p, none, 0)
  match product with
  | some m => pure (p, m)
  | none => throw (.plain "join of no values")

/-- A reduction of one axis of `x`, and the division of a mean. -/
def lowerReduce (p : Program) (fnId : Nat) (step : Step) (x : Nat) : Except Failure (Program × Nat) := do
  let xs := (p.value x).shape
  let (init, combine) ← reduction xs.dtype step.op
  let scalar : Shape := ⟨xs.dtype, []⟩
  let (p, initValue) ← p.splatConstant fnId scalar init
  let (p, reductionFn) := p.closure fnId
  let (p, lhs) := p.namedInput reductionFn "lhs" scalar
  let (p, rhs) := p.namedInput reductionFn "rhs" scalar
  let (p, combined) ← p.binary combine lhs rhs
  let p ← p.ret reductionFn [combined]
  let (p, reduced) ← p.reduce x initValue reductionFn step.axis
  if step.op ≠ .mean then return (p, reduced)
  let d ← xs.dim step.axis
  let (p, count) ← p.splatConstant fnId (p.value reduced).shape (.typed .int (.int d))
  p.binary .divide reduced count

/-- The operations of one step, and the arrays after it. -/
def lowerStep (p : Program) (fnId : Nat) (step : Step) (values : List Nat) :
    Except Failure (Program × List Nat) := do
  match step.kind with
  | .reshapeSplit =>
    let v ← Plan.operandAt values step.input
    let (p, x) ← p.reshape v step.dims
    pure (p, values.set step.input.toNat x)
  | .join =>
    let (p, x) ← p.lowerJoin step.output values
    pure (p, [x])
  | .reduce =>
    let v ← Plan.operandAt values 0
    let (p, x) ← p.lowerReduce fnId step v
    pure (p, [x])
  | .permute =>
    let v ← Plan.operandAt values 0
    let (p, x) ← p.transpose v step.permutation
    pure (p, [x])
  | .repeat =>
    let v ← Plan.operandAt values 0
    let rank := (p.value v).shape.rank
    let mapping := (List.range rank).map fun (i : Nat) =>
      if (i : Int) ≥ step.axis then (i : Int) + 1 else (i : Int)
    let (p, x) ← p.broadcastInDim v step.output mapping
    pure (p, [x])
  | .reshapeMerge =>
    let v ← Plan.operandAt values 0
    let (p, x) ← p.reshape v step.dims
    pure (p, [x])
  | k => throw (.plain ("unknown step type " ++ k.name))

/-- The steps in order, each failure marked with its step. -/
def lowerSteps (fnId : Nat) (pattern : String) :
    Nat → List Step → Program → List Nat → Except Failure (Program × List Nat)
  | _, [], p, values => .ok (p, values)
  | i, step :: rest, p, values =>
    match p.lowerStep fnId step values with
    | .error e => .error (e.withContext ("lowering step #" ++ toString i ++ " " ++ step.text ++ " of " ++
        Text.quote pattern ++ " to StableHLO"))
    | .ok (p, values) => lowerSteps fnId pattern (i + 1) rest p values

end Program

/-- The main function with one argument per input of the plan, and the arguments in order. -/
def lowerInputs (plan : Plan) : Program × List Nat :=
  let (p, main) := ({ name := plan.name } : Program).main
  plan.inputs.foldl (fun (acc : Program × List Nat) s =>
    let (p, v) := acc.1.input main s
    (p, acc.2 ++ [v])) (p, [])

/-- The program of a plan: its steps lowered into `main`, which returns the single array they end
with, of the plan's output shape. -/
def lowerProgram (plan : Plan) : Except Failure Program := do
  let main := (({ name := plan.name } : Program).main).2
  let (p, values) := lowerInputs plan
  let (p, values) ← Program.lowerSteps main plan.pattern 0 plan.steps p values
  let ended : Failure := .plain ("lowering " ++ Text.quote plan.pattern ++ " to StableHLO ended with " ++
    toString values.length ++ " values, expected one with shape " ++ plan.output.text)
  let result ← match values with
    | [v] => if (p.value v).shape.same plan.output then pure v else throw ended
    | _ => throw ended
  p.ret main [result]

/-- The StableHLO program text of a plan. -/
def lowerPlan (plan : Plan) : Except Failure String := do
  let p ← lowerProgram plan
  p.build

end Rearrange.Hlo

import Rearrange.Plan.Basic
/-!
# The text of a plan

A plan is written one step per line in the style of a StableHLO listing: a comment line with
the plan's name and quoted pattern, then `%i = "einops.<op>"(operands){attributes} : (operand
types) -> output type` for step `i`, and a `return` line when a single array is left. Inputs are
`%arg0`, `%arg1`, ...; a split replaces the input it splits, every other step consumes the
first array (a join, all of them) and leaves a single one.

A hand-built plan may name operands that do not exist; writing it then aborts, with the
message of an out-of-range slice `[i:i+1]`: the end bound (a wrapping 64-bit sum) is checked
against the capacity first, then the start against the end.
-/
namespace Rearrange.Plan

/-- The operands of a step among the current values: the split input, all of them for a join,
the first one otherwise. -/
def operandsOf {α : Type} (s : Step) (values : List α) : Except Failure (List α) :=
  let n := values.length
  match s.kind with
  | .reshapeSplit =>
    match Failure.sliceFault? s.input (Word.wrapInt64 (s.input + 1)) n with
    | some f => .error f
    | none => .ok ((values.drop s.input.toNat).take 1)
  | .join => .ok values
  | _ =>
    match Failure.sliceFault? 0 1 n with
    | some f => .error f
    | none => .ok (values.take 1)

/-- The current values after a step: a split replaces its input, any other step leaves its
output alone. -/
def afterStep {α : Type} (s : Step) (values : List α) (out : α) : List α :=
  match s.kind with
  | .reshapeSplit => values.set s.input.toNat out
  | _ => [out]

/-- Writes the steps from number `i` on, given the current value names and shapes. -/
def stepLines : Nat → List Step → List (String × Shape) → Except Failure (List String × List (String × Shape))
  | _, [], values => .ok ([], values)
  | i, s :: rest, values => do
    let ins ← operandsOf s values
    let out := "%" ++ toString i
    let line := out ++ " = " ++ Text.quote s.kind.opName ++ "(" ++ Text.commaSeparated (ins.map (·.1)) ++
      ")" ++ s.attributes ++ " : (" ++ Text.commaSeparated (ins.map (·.2.hloType)) ++ ") -> " ++
      s.output.hloType ++ "\n"
    let (lines, final) ← stepLines (i + 1) rest (afterStep s values (out, s.output))
    pure (line :: lines, final)

/-- The text of a plan. -/
def text (p : Plan) : Except Failure String := do
  let inputs := p.inputs.zipIdx.map fun (s, i) => ("%arg" ++ toString i, s)
  let (lines, final) ← stepLines 0 p.steps inputs
  let ret := match final with
    | [(v, s)] => "return " ++ v ++ " : " ++ s.hloType ++ "\n"
    | _ => ""
  pure ("// " ++ p.name ++ ": " ++ Text.quote p.pattern ++ "\n" ++ String.join lines ++ ret)

end Rearrange.Plan

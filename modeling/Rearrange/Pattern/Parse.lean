import Rearrange.Pattern.Inputs
import Rearrange.Pattern.Table
import Rearrange.Pattern.Output
/-!
# Reading a pattern

`Expression.parse` reads a whole pattern for a given number of input arrays: the tokens, the
input side, the reductions and the name table, then the output side. The first error found
is the answer; the number of inputs is checked once the input side is read.
-/
namespace Rearrange.Pattern

/-- Reads a pattern describing `numInputs` arrays, with the axis sizes given by the caller. -/
def Expression.parse (text : String) (numInputs : Int) (sizes : List (String × Int)) :
    Except Error Expression := do
  let toks ← Token.scanBody text
  let r : Reader := { pattern := text, endPos := text.utf8ByteSize, sizes }
  let (inputs, rest) ← r.inputs {} [] toks
  if (inputs.length : Int) ≠ numInputs then
    throw { kind := .arityMismatch, pattern := text, pos := -1,
            msg := "pattern describes " ++ toString inputs.length ++ " input(s), but " ++
              toString numInputs ++ " array(s) were given" }
  let names ← NameTable.build text inputs
  let out ← r.output names {} rest
  pure { pattern := text, inputs, reductions := reducedAxes inputs, names,
         output := out.slots, permutation := out.permutation, newAxes := out.newAxes,
         outputSizes := out.outputSizes }

end Rearrange.Pattern

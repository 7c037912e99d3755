import Rearrange.Text.Case
/-!
# Reductions

The operation that collapses an axis: none, min, max, sum, mean or prod, in this enumeration
order from 0. A pattern writes a reduction with its keyword, the lower-case name: `sum(b)`.
A code outside the list is kept, with no name of its own, so that a caller that passes one
gets it reported back.
-/
namespace Rearrange

/-- How an axis is collapsed, or `none` when it is kept. -/
inductive Reduction where
  | none | min | max | sum | mean | prod
  | unnamed (code : Int)
  deriving DecidableEq, Repr, Inhabited

namespace Reduction

def named : List Reduction := [none, min, max, sum, mean, prod]

def names : List String := ["None", "Min", "Max", "Sum", "Mean", "Prod"]

/-- The enumeration code. -/
def code : Reduction → Int
  | none => 0 | min => 1 | max => 2 | sum => 3 | mean => 4 | prod => 5
  | unnamed n => n

/-- The reduction with the given code. -/
def ofCode (n : Int) : Reduction :=
  if n < 0 then unnamed n else (named[n.toNat]?).getD (unnamed n)

/-- The name; a code without one is written `ReduceOp(n)`. -/
def name : Reduction → String
  | none => "None" | min => "Min" | max => "Max" | sum => "Sum" | mean => "Mean"
  | prod => "Prod"
  | unnamed n => "ReduceOp(" ++ toString n ++ ")"

/-- The keyword of a reduction in a pattern: its name in lower case. -/
def keyword (r : Reduction) : String := Text.lowerText r.name

/-- The reduction whose name matches, as written or in lower case. -/
def ofName? (s : String) : Option Reduction :=
  (Text.findName? names s).bind (named[·]?)

/-- The reduction a pattern keyword stands for; `none` has no keyword. -/
def ofKeyword? : String → Option Reduction
  | "min" => some min
  | "max" => some max
  | "sum" => some sum
  | "mean" => some mean
  | "prod" => some prod
  | _ => Option.none

def isNamed (r : Reduction) : Bool := 0 ≤ r.code && r.code < 6

end Reduction

end Rearrange

import Rearrange.Text.Quoted
/-!
# StableHLO operations

The operations a plan is lowered to, in their fixed enumeration order from 0, each with its
name in StableHLO text. The invalid operation and codes outside the list have no name and are
written `unknown_op<n>`.
-/
namespace Rearrange.Hlo

/-- StableHLO operations used by lowered plans. -/
inductive Op where
  | invalid | constant | reshape | transpose | broadcastInDim | reduce
  | add | multiply | divide | minimum | maximum | and | or
  | «return» | funcReturn
  | unnamed (code : Int)
  deriving DecidableEq, Repr, Inhabited

namespace Op

/-- The named operations in enumeration order. -/
def named : List Op :=
  [invalid, constant, reshape, transpose, broadcastInDim, reduce, add, multiply, divide,
   minimum, maximum, and, or, «return», funcReturn]

/-- The enumeration code. -/
def code (op : Op) : Int :=
  match op with
  | unnamed n => n
  | _ => named.idxOf op

/-- The operation with the given code. -/
def ofCode (n : Int) : Op :=
  if n < 0 then unnamed n else (named[n.toNat]?).getD (unnamed n)

/-- The name of the operation in StableHLO text. -/
def hloName (op : Op) : String :=
  match op with
  | constant => "stablehlo.constant"
  | reshape => "stablehlo.reshape"
  | transpose => "stablehlo.transpose"
  | broadcastInDim => "stablehlo.broadcast_in_dim"
  | reduce => "stablehlo.reduce"
  | add => "stablehlo.add"
  | multiply => "stablehlo.multiply"
  | divide => "stablehlo.divide"
  | minimum => "stablehlo.minimum"
  | maximum => "stablehlo.maximum"
  | and => "stablehlo.and"
  | or => "stablehlo.or"
  | «return» => "stablehlo.return"
  | funcReturn => "func.return"
  | _ => "unknown_op<" ++ toString op.code ++ ">"

/-- Whether the operation combines two operands element by element. -/
def isBinary : Op → Bool
  | add | multiply | divide | minimum | maximum | and | or => true
  | _ => false

end Op

end Rearrange.Hlo

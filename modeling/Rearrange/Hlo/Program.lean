import Rearrange.Hlo.Op
import Rearrange.Hlo.Literal
import Rearrange.Shape.Rules
import Rearrange.Text.Identifier
/-!
# StableHLO programs

A program under construction: a module name, its functions and its values, each referred to by
its position in creation order. A function is a `func.func` or a closure of another function
(the combining function of a reduce, written inline as a region). Values are the inputs of
functions and the outputs of statements; temporaries are numbered per root function, its
closures included, since closures are written inside it.

Each operation checks its operands (they must belong to the function, which must not have
returned yet) and computes its output shape by the shape rules; an operation that fails adds
nothing. `Program.write` writes whatever has been built; `Program.build` also requires every
function to have returned and a `main` function to exist.
-/
namespace Rearrange.Hlo

/-- A value of a program: the function it belongs to, its name and its shape. -/
structure Value where
  fn : Nat
  name : String
  shape : Shape
  deriving Repr, Inhabited

/-- One operation line: operands, attributes (written sorted by name), closures taken as
regions, and results (none for a return). -/
structure Statement where
  op : Op
  inputs : List Nat
  attributes : List (String × String) := []
  regions : List Nat := []
  outputs : List Nat := []
  deriving Repr, Inhabited

/-- A function or closure of a program. -/
structure Function where
  name : String
  inputs : List Nat := []
  outputs : List Shape := []
  statements : List Statement := []
  /-- The function that created a closure. -/
  parent : Option Nat := none
  nextArg : Nat := 0
  nextTmp : Nat := 0
  nextClosure : Nat := 0
  returned : Bool := false
  deriving Repr, Inhabited

/-- A program under construction. -/
structure Program where
  name : String
  functions : List Function := []
  values : List Value := []
  deriving Repr, Inhabited

/-- An integer list as an `array<i64: …>` attribute. -/
def intsLiteral (xs : List Int) : String :=
  if xs.isEmpty then "array<i64>" else "array<i64: " ++ Text.commaSeparated (xs.map toString) ++ ">"

namespace Program

def fn (p : Program) (i : Nat) : Function := p.functions.getD i default

def value (p : Program) (v : Nat) : Value := p.values.getD v default

/-- Replaces a function. -/
def setFn (p : Program) (i : Nat) (f : Function) : Program :=
  { p with functions := p.functions.set i f }

/-- Adds a function, or a closure of `parent`. -/
def addFunction (p : Program) (name : String) (parent : Option Nat) : Program × Nat :=
  ({ p with functions := p.functions ++ [{ name, parent }] }, p.functions.length)

def newFunction (p : Program) (name : String) : Program × Nat := p.addFunction name none

def main (p : Program) : Program × Nat := p.newFunction "main"

/-- The root function of a function: its parent's root, or itself. -/
def root (p : Program) (i : Nat) : Nat :=
  go (p.functions.length + 1) i
where
  go : Nat → Nat → Nat
    | 0, i => i
    | fuel + 1, i => match (p.fn i).parent with
      | some j => go fuel j
      | none => i

/-- Adds a temporary of function `fnId`, numbered by its root function. -/
def newValue (p : Program) (fnId : Nat) (shape : Shape) : Program × Nat :=
  let r := p.root fnId
  let rf := p.fn r
  let v : Value := { fn := fnId, name := toString rf.nextTmp, shape }
  ({ (p.setFn r { rf with nextTmp := rf.nextTmp + 1 }) with values := p.values ++ [v] },
   p.values.length)

/-- Adds an input of function `fnId` with the given name, made an identifier. -/
def namedInput (p : Program) (fnId : Nat) (name : String) (shape : Shape) : Program × Nat :=
  let id := p.values.length
  let f := p.fn fnId
  let v : Value := { fn := fnId, name := Text.normalizeIdentifier name, shape }
  ({ (p.setFn fnId { f with inputs := f.inputs ++ [id] }) with values := p.values ++ [v] }, id)

/-- Adds the next input of function `fnId`, named `arg0`, `arg1`, …. -/
def input (p : Program) (fnId : Nat) (shape : Shape) : Program × Nat :=
  let n := (p.fn fnId).nextArg
  let (p, v) := p.namedInput fnId ("arg" ++ toString n) shape
  (p.setFn fnId { p.fn fnId with nextArg := n + 1 }, v)

/-- Adds a closure of function `fnId`, named `closure0`, `closure1`, … per root function. -/
def closure (p : Program) (fnId : Nat) : Program × Nat :=
  let r := p.root fnId
  let rf := p.fn r
  let p := p.setFn r { rf with nextClosure := rf.nextClosure + 1 }
  p.addFunction ("closure" ++ toString rf.nextClosure) (some fnId)

/-- An operation can be added to a function that has not returned, on its own values. -/
def checkOpen (p : Program) (fnId : Nat) (op : Op) (operands : List Nat) : Except Failure Unit := do
  let f := p.fn fnId
  if f.returned then
    throw (.plain ("cannot add operation " ++ op.hloName ++ " after returning, in function " ++
      Text.quote f.name))
  for (v, i) in operands.zipIdx do
    if (p.value v).fn ≠ fnId then
      throw (.plain ("cannot add operation " ++ op.hloName ++ " to function " ++ Text.quote f.name ++
        ", because operand #" ++ toString i ++ " is not part of the function"))

/-- Adds a statement with one result. -/
def addOp (p : Program) (fnId : Nat) (op : Op) (shape : Shape) (inputs : List Nat)
    (attributes : List (String × String)) (regions : List Nat := []) : Program × Nat :=
  let (p, out) := p.newValue fnId shape
  let f := p.fn fnId
  (p.setFn fnId { f with statements := f.statements ++ [{ op, inputs, attributes, regions, outputs := [out] }] },
   out)

/-- A constant of the shape with every element the scalar. -/
def splatConstant (p : Program) (fnId : Nat) (shape : Shape) (x : Scalar) :
    Except Failure (Program × Nat) := do
  p.checkOpen fnId .constant []
  let elem ← (x.literal shape.dtype).mapError (·.withContext ("SplatConstant(" ++ shape.text ++ ")"))
  pure (p.addOp fnId .constant shape [] [("value", "dense<" ++ elem ++ "> : " ++ shape.hloType)])

/-- The operand with other dimensions and as many elements. -/
def reshape (p : Program) (x : Nat) (dims : List Int) : Except Failure (Program × Nat) := do
  let v := p.value x
  p.checkOpen v.fn .reshape [x]
  let out ← Shape.reshape v.shape dims
  pure (p.addOp v.fn .reshape out [x] [])

/-- The operand with its axes permuted: output axis `i` is operand axis `perm[i]`. -/
def transpose (p : Program) (x : Nat) (perm : List Int) : Except Failure (Program × Nat) := do
  let v := p.value x
  p.checkOpen v.fn .transpose [x]
  let out ← Shape.transpose v.shape perm
  pure (p.addOp v.fn .transpose out [x] [("permutation", intsLiteral perm)])

/-- The first fault of an axes mapping of a broadcast, operand axis by operand axis. -/
def mappingFault (operand target : Shape) (mapping : List Int) : Option String :=
  let rec go : Nat → Option Int → List Int → Option String
    | _, _, [] => none
    | i, prev, t :: rest =>
      if t < 0 || t ≥ target.rank || (match prev with | some q => t ≤ q | none => false) then
        some ("BroadcastInDim() invalid axes mapping " ++ Text.intsText mapping ++ " for target " ++ target.text)
      else
        let dim := operand.dims.getD i 0
        if dim ≠ 1 && dim ≠ target.dims.getD t.toNat 0 then
          some ("BroadcastInDim() operand axis " ++ toString i ++ " (dimension " ++ toString dim ++
            ") can't be broadcast to target axis " ++ toString t ++ " of " ++ target.text)
        else go (i + 1) (some t) rest
  go 0 none mapping

/-- The operand broadcast to the target shape: operand axis `i` becomes target axis
`mapping[i]`, and the data is repeated along the other target axes. -/
def broadcastInDim (p : Program) (x : Nat) (target : Shape) (mapping : List Int) :
    Except Failure (Program × Nat) := do
  let v := p.value x
  p.checkOpen v.fn .broadcastInDim [x]
  if mapping.length ≠ v.shape.rank then
    throw (.plain ("BroadcastInDim() requires one axis mapping per operand axis, got " ++
      Text.intsText mapping ++ " for operand " ++ v.shape.text))
  if v.shape.dtype ≠ target.dtype then
    throw (.plain ("BroadcastInDim() cannot change the dtype, got operand " ++ v.shape.text ++
      " and target " ++ target.text))
  if let some m := mappingFault v.shape target mapping then throw (.plain m)
  pure (p.addOp v.fn .broadcastInDim target [x] [("broadcast_dimensions", intsLiteral mapping)])

/-- An element-wise operation of two operands of one shape. -/
def binary (p : Program) (op : Op) (lhs rhs : Nat) : Except Failure (Program × Nat) := do
  if !op.isBinary then throw (.plain (op.hloName ++ " is not a binary operation"))
  let l := p.value lhs
  let r := p.value rhs
  p.checkOpen l.fn op [lhs, rhs]
  if !l.shape.same r.shape then
    throw (.plain (op.hloName ++ " requires operands of the same shape, got " ++ l.shape.text ++
      " and " ++ r.shape.text))
  pure (p.addOp l.fn op l.shape [lhs, rhs] [])

/-- Reduces one axis of `x`, starting from `init` and combining with the closure `fnR`, which
takes two scalars of the element type and returns one. -/
def reduce (p : Program) (x init fnR : Nat) (axis : Int) : Except Failure (Program × Nat) := do
  let v := p.value x
  let f := p.fn v.fn
  p.checkOpen v.fn .reduce [x, init]
  let closureFn := p.fn fnR
  if closureFn.parent ≠ some v.fn then
    throw (.plain ("cannot add operation stablehlo.reduce because reductionFn is not a closure of " ++
      Text.quote f.name))
  let scalar : Shape := ⟨v.shape.dtype, []⟩
  let initShape := (p.value init).shape
  if !initShape.same scalar then
    throw (.plain ("stablehlo.reduce initial value must be a " ++ v.shape.dtype.name ++
      " scalar, got " ++ initShape.text))
  let scalarArgs := closureFn.inputs.all fun a => (p.value a).shape.same scalar
  let scalarOut := match closureFn.outputs with
    | [o] => o.same scalar
    | _ => false
  if closureFn.inputs.length ≠ 2 || !scalarOut || !scalarArgs then
    throw (.plain ("stablehlo.reduce reductionFn must take two " ++ scalar.text ++
      " scalars and return one"))
  let a ← Shape.adjustAxis axis v.shape.rank
  pure (p.addOp v.fn .reduce (v.shape.withDims (v.shape.dims.eraseIdx a)) [x, init]
    [("dimensions", intsLiteral [a])] [fnR])

/-- Ends a function with its results; nothing can be added to it afterwards. -/
def ret (p : Program) (fnId : Nat) (results : List Nat) : Except Failure Program := do
  let f := p.fn fnId
  let op : Op := if f.parent.isSome then Op.«return» else .funcReturn
  if results.isEmpty then
    throw (.plain ("Function.Return requires at least one value, in function " ++ Text.quote f.name))
  p.checkOpen fnId op results
  let outputs := results.map fun v => (p.value v).shape
  let statements := f.statements ++ [{ op, inputs := results }]
  pure (p.setFn fnId { f with returned := true, outputs, statements })

def ref (p : Program) (v : Nat) : String := "%" ++ (p.value v).name

/-- Writes function `i` at an indentation; closures met in regions are written inside, with
`fuel` bounding the nesting. -/
def writeFunction (p : Program) : Nat → Nat → String → String
  | 0, _, _ => ""
  | fuel + 1, i, ind =>
    let f := p.fn i
    let next := ind ++ "  "
    let ins := Text.commaSeparated (f.inputs.map fun v => p.ref v ++ ": " ++ (p.value v).shape.hloType)
    let types := fun (ss : List Shape) => Text.commaSeparated (ss.map (·.hloType))
    let header :=
      if f.parent.isSome then ind ++ "^bb0(" ++ ins ++ "):\n"
      else
        let outs := if f.outputs.length > 1 then "(" ++ types f.outputs ++ ")" else types f.outputs
        ind ++ "func.func @" ++ Text.normalizeIdentifier f.name ++ "(" ++ ins ++ ") -> " ++ outs ++ " \x7b\n"
    let line := fun (s : Statement) =>
      let lhs := if s.outputs.isEmpty then "" else Text.commaSeparated (s.outputs.map p.ref) ++ " = "
      let call := Text.quote s.op.hloName ++ "(" ++ Text.commaSeparated (s.inputs.map p.ref) ++ ")"
      let regions := if s.regions.isEmpty then ""
        else " (" ++ Text.commaSeparated (s.regions.map fun r =>
          "\x7b\n" ++ p.writeFunction fuel r (next ++ "  ") ++ next ++ "\x7d") ++ ")"
      let sorted := s.attributes.mergeSort fun a b => decide (a.1 ≤ b.1)
      let attrs := if s.attributes.isEmpty then ""
        else (if s.regions.isEmpty then "" else " ") ++ "\x7b" ++
          Text.commaSeparated (sorted.map fun (k, v) => k ++ " = " ++ v) ++ "\x7d"
      let outShapes := s.outputs.map (fun v => (p.value v).shape)
      let result := match outShapes with
        | [] => "()"
        | [o] => o.hloType
        | os => "(" ++ types os ++ ")"
      next ++ lhs ++ call ++ regions ++ attrs ++ " : (" ++ types (s.inputs.map (fun v => (p.value v).shape)) ++
        ") -> " ++ result ++ "\n"
    header ++ String.join (f.statements.map line) ++ (if f.parent.isSome then "" else ind ++ "\x7d")

/-- The text of the program as built so far. -/
def write (p : Program) : String :=
  let roots := (List.range p.functions.length).filter fun i => (p.fn i).parent.isNone
  "module @" ++ Text.normalizeIdentifier p.name ++ " \x7b\n" ++
    "\n\n".intercalate (roots.map fun i => p.writeFunction (p.functions.length + 1) i "  ") ++ "\n\x7d\n"

/-- The text of a complete program: every function has returned and there is a main one. -/
def build (p : Program) : Except Failure String :=
  match p.functions.find? (!·.returned) with
  | some f => .error (.plain ("function " ++ Text.quote f.name ++ " has no return statement"))
  | none =>
    if p.functions.any (fun f => f.name == "main" && f.parent.isNone) then .ok p.write
    else .error (.plain "program must have a main function")

end Program

end Rearrange.Hlo

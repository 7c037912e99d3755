import Rearrange.Hlo.Program
/-!
# Sessions of the builder

A client builds a program by calling the builder's entry points one after another: creating a
function, a closure or an input, adding an operation, returning. `Call` lists these entry
points with their arguments, functions and values named by position as the builder numbers
them. `Program.call` makes one call; a call that fails leaves the program as it was, so a
session (`Program.session`) goes on from the same program.

A call can only name functions and values that exist (`Call.Valid`): a client holds them as
the objects the builder handed out.
-/
namespace Rearrange.Hlo

/-- One call of the builder's entry points. -/
inductive Call where
  | newFunction (name : String)
  | closure (fn : Nat)
  | input (fn : Nat) (shape : Shape)
  | namedInput (fn : Nat) (name : String) (shape : Shape)
  | splatConstant (fn : Nat) (shape : Shape) (x : Scalar)
  | reshape (x : Nat) (dims : List Int)
  | transpose (x : Nat) (perm : List Int)
  | broadcastInDim (x : Nat) (target : Shape) (mapping : List Int)
  | binary (op : Op) (lhs rhs : Nat)
  | reduce (x init fnR : Nat) (axis : Int)
  | ret (fn : Nat) (results : List Nat)
  deriving Repr, Inhabited

namespace Call

/-- The call names only functions and values of the program. -/
def Valid (p : Program) : Call → Prop
  | newFunction _ => True
  | closure f | input f _ | namedInput f _ _ | splatConstant f _ _ => f < p.functions.length
  | reshape x _ | transpose x _ | broadcastInDim x _ _ => x < p.values.length
  | binary _ l r => l < p.values.length ∧ r < p.values.length
  | reduce x init fnR _ =>
    x < p.values.length ∧ init < p.values.length ∧ fnR < p.functions.length
  | ret f results => f < p.functions.length ∧ ∀ v ∈ results, v < p.values.length

/-- Whether the call adds an input to function `i`. -/
def addsInputTo (i : Nat) : Call → Bool
  | input f _ | namedInput f _ _ => f == i
  | _ => false

/-- Whether the call adds an operation to a function. -/
def addsOperation : Call → Bool
  | splatConstant .. | reshape .. | transpose .. | broadcastInDim .. | binary .. | reduce .. => true
  | _ => false

end Call

namespace Program

/-- The program after one call, or why the call fails. -/
def call (p : Program) : Call → Except Failure Program
  | .newFunction name => .ok (p.newFunction name).1
  | .closure f => .ok (p.closure f).1
  | .input f shape => .ok (p.input f shape).1
  | .namedInput f name shape => .ok (p.namedInput f name shape).1
  | .splatConstant f shape x => Prod.fst <$> p.splatConstant f shape x
  | .reshape x dims => Prod.fst <$> p.reshape x dims
  | .transpose x perm => Prod.fst <$> p.transpose x perm
  | .broadcastInDim x target mapping => Prod.fst <$> p.broadcastInDim x target mapping
  | .binary op l r => Prod.fst <$> p.binary op l r
  | .reduce x init fnR axis => Prod.fst <$> p.reduce x init fnR axis
  | .ret f results => p.ret f results

/-- The program after a call, unchanged when the call fails. -/
def step (p : Program) (c : Call) : Program :=
  match p.call c with
  | .ok q => q
  | .error _ => p

/-- The program after a session of calls. -/
def session (p : Program) (cs : List Call) : Program := cs.foldl step p

/-- Every call of a session names only functions and values that exist when it is made. -/
def ValidSession : Program → List Call → Prop
  | _, [] => True
  | p, c :: cs => c.Valid p ∧ ValidSession (p.step c) cs

end Program

end Rearrange.Hlo

import Rearrange.Proofs.Builder
import Rearrange.Proofs.Replay
/-!
# Building in an open function

Lowering a plan adds operations to one root function, `main`, that has not returned, while every
other function the program holds has (`Program.OpenMain`). Each operation of the builder then
succeeds exactly as its shape rule says: given operands that are arrays of `main` and a shape rule
that accepts their shapes, it gives a new array of `main` with the shape the rule gives
(`Program.Carries`), and keeps the program as it was otherwise (`Program.Grows`): the values
before it keep their functions and shapes, and `main` keeps its inputs.
-/
namespace Rearrange.Hlo

namespace Program

/-- A program being built in function `main`: coherent, with `main` a root function named main
that has not returned, and every other function returned. -/
structure OpenMain (p : Program) (main : Nat) : Prop where
  coherent : p.Coherent
  lt : main < p.functions.length
  name : (p.fn main).name = "main"
  root : (p.fn main).parent = none
  isOpen : (p.fn main).returned = false
  others : ∀ i < p.functions.length, i ≠ main → (p.fn i).returned = true

/-- `q` holds the values of `p` as they were, and `main` keeps its inputs. -/
structure Grows (p q : Program) (main : Nat) : Prop where
  length : p.values.length ≤ q.values.length
  value : ∀ v < p.values.length, q.value v = p.value v
  inputs : (q.fn main).inputs = (p.fn main).inputs

/-- Value `v` of `p` is an array of function `main` with the given shape. -/
def Carries (p : Program) (main v : Nat) (shape : Shape) : Prop :=
  v < p.values.length ∧ (p.value v).fn = main ∧ (p.value v).shape = shape

section Frame

variable {p q r : Program} {main : Nat}

theorem Grows.refl (p : Program) (main : Nat) : Grows p p main := ⟨le_rfl, fun _ _ => rfl, rfl⟩

theorem Grows.trans (first : Grows p q main) (second : Grows q r main) : Grows p r main :=
  ⟨first.length.trans second.length,
    fun v lt => (second.value v (Nat.lt_of_lt_of_le lt first.length)).trans (first.value v lt),
    second.inputs.trans first.inputs⟩

theorem Grows.carries (g : Grows p q main) {v : Nat} {shape : Shape} (c : p.Carries main v shape) :
    q.Carries main v shape := by
  obtain ⟨lt, fn, sh⟩ := c
  exact ⟨Nat.lt_of_lt_of_le lt g.length, by rw [g.value v lt, fn], by rw [g.value v lt, sh]⟩

theorem checkOpen_eq_ok {fnId : Nat} (isOpen : (p.fn fnId).returned = false) {vs : List Nat}
    (owned : ∀ v ∈ vs, (p.value v).fn = fnId) (op : Op) : p.checkOpen fnId op vs = .ok () := by
  obtain ⟨u, ok⟩ := ((p.checkOpen_yields fnId op vs).ok_iff).2 ⟨isOpen, owned⟩
  rw [ok]

theorem OpenMain.checkOpen (o : p.OpenMain main) {vs : List Nat} (owned : ∀ v ∈ vs, (p.value v).fn = main)
    (op : Op) : p.checkOpen main op vs = .ok () :=
  checkOpen_eq_ok o.isOpen owned op

end Frame

section Operations

variable {p : Program} {main : Nat}

/-- An operation added to `main` on values of the program keeps it open, and its result is a new
array of `main` of the given shape. -/
theorem OpenMain.addOp (o : p.OpenMain main) (op : Op) {ins : List Nat}
    (owned : ∀ v ∈ ins, v < p.values.length ∧ (p.value v).fn = main) (shape : Shape)
    (attrs : List (String × String)) (regs : List Nat) :
    (p.addOp main op shape ins attrs regs).1.OpenMain main ∧ Grows p (p.addOp main op shape ins attrs regs).1 main ∧
      (p.addOp main op shape ins attrs regs).1.Carries main (p.addOp main op shape ins attrs regs).2 shape := by
  have checked := o.checkOpen (fun v mem => (owned v mem).2) op
  have fn := fn_addOp p o.lt (root_lt o.coherent.parents main o.lt) op shape ins attrs regs
  have value := value_of_values p (addOp_values p main op shape ins attrs regs)
  refine ⟨⟨o.coherent.addOp o.lt checked (fun v mem => (owned v mem).1) shape attrs regs, ?_, ?_, ?_, ?_,
    fun i lt other => ?_⟩, ⟨by simp, fun v lt => ?_, by simp [fn]⟩, by simp, ?_, ?_⟩
  · simpa using o.lt
  · simpa [fn] using o.name
  · simpa [fn] using o.root
  · simpa [fn] using o.isOpen
  · simpa [fn] using o.others i (by simpa using lt) other
  · rw [value, if_neg (Nat.ne_of_lt lt)]
  · simp [value]
  · simp [value]

theorem OpenMain.reshape (o : p.OpenMain main) {x : Nat} {s : Shape} (c : p.Carries main x s)
    {dims : List Int} {out : Shape} (shaped : Shape.reshape s dims = .ok out) :
    ∃ q v, p.reshape x dims = .ok (q, v) ∧ q.OpenMain main ∧ Grows p q main ∧ q.Carries main v out := by
  obtain ⟨lt, fn, rfl⟩ := c
  obtain ⟨opened, grows, carries⟩ :=
    o.addOp .reshape (show ∀ v ∈ [x], v < p.values.length ∧ (p.value v).fn = main by simp [lt, fn]) out [] []
  refine ⟨_, _, ?_, opened, grows, carries⟩
  simp only [Program.reshape, fn, o.checkOpen (show ∀ v ∈ [x], (p.value v).fn = main by simp [fn]), shaped]
  rfl

theorem OpenMain.transpose (o : p.OpenMain main) {x : Nat} {s : Shape} (c : p.Carries main x s)
    {perm : List Int} {out : Shape} (shaped : Shape.transpose s perm = .ok out) :
    ∃ q v, p.transpose x perm = .ok (q, v) ∧ q.OpenMain main ∧ Grows p q main ∧ q.Carries main v out := by
  obtain ⟨lt, fn, rfl⟩ := c
  obtain ⟨opened, grows, carries⟩ :=
    o.addOp .transpose (show ∀ v ∈ [x], v < p.values.length ∧ (p.value v).fn = main by simp [lt, fn]) out
      [("permutation", intsLiteral perm)] []
  refine ⟨_, _, ?_, opened, grows, carries⟩
  simp only [Program.transpose, fn, o.checkOpen (show ∀ v ∈ [x], (p.value v).fn = main by simp [fn]), shaped]
  rfl

/-- A broadcast whose mapping fits the operand and the target gives an array of the target shape. -/
theorem OpenMain.broadcastInDim (o : p.OpenMain main) {x : Nat} {s : Shape} (c : p.Carries main x s)
    {target : Shape} {mapping : List Int} (rank : mapping.length = s.rank) (dtype : s.dtype = target.dtype)
    (fits : mappingFault s target mapping = none) :
    ∃ q v, p.broadcastInDim x target mapping = .ok (q, v) ∧ q.OpenMain main ∧ Grows p q main ∧
      q.Carries main v target := by
  obtain ⟨lt, fn, rfl⟩ := c
  obtain ⟨opened, grows, carries⟩ :=
    o.addOp .broadcastInDim (show ∀ v ∈ [x], v < p.values.length ∧ (p.value v).fn = main by simp [lt, fn])
      target [("broadcast_dimensions", intsLiteral mapping)] []
  refine ⟨_, _, ?_, opened, grows, carries⟩
  simp only [Program.broadcastInDim, fn, o.checkOpen (show ∀ v ∈ [x], (p.value v).fn = main by simp [fn]),
    rank, dtype, fits, ne_eq, not_true_eq_false, if_false]
  rfl

/-- An element-wise operation on two arrays of one shape gives an array of that shape. -/
theorem OpenMain.binary (o : p.OpenMain main) {op : Op} (isBinary : op.isBinary = true) {lhs rhs : Nat}
    {s : Shape} (l : p.Carries main lhs s) (r : p.Carries main rhs s) :
    ∃ q v, p.binary op lhs rhs = .ok (q, v) ∧ q.OpenMain main ∧ Grows p q main ∧ q.Carries main v s := by
  obtain ⟨ltL, fnL, rfl⟩ := l
  obtain ⟨ltR, fnR, same⟩ := r
  obtain ⟨opened, grows, carries⟩ :=
    o.addOp op (show ∀ v ∈ [lhs, rhs], v < p.values.length ∧ (p.value v).fn = main by simp [ltL, fnL, ltR, fnR])
      (p.value lhs).shape [] []
  refine ⟨_, _, ?_, opened, grows, carries⟩
  simp only [Program.binary, isBinary, fnL,
    o.checkOpen (show ∀ v ∈ [lhs, rhs], (p.value v).fn = main by simp [fnL, fnR]), same, Plan.Shape.same_self,
    Bool.not_true, Bool.false_eq_true, if_false]
  rfl

theorem OpenMain.splatConstant (o : p.OpenMain main) {shape : Shape} {x : Scalar} {text : String}
    (literal : x.literal shape.dtype = .ok text) :
    ∃ q v, p.splatConstant main shape x = .ok (q, v) ∧ q.OpenMain main ∧ Grows p q main ∧
      q.Carries main v shape := by
  obtain ⟨opened, grows, carries⟩ :=
    o.addOp .constant (show ∀ v ∈ ([] : List Nat), v < p.values.length ∧ (p.value v).fn = main by simp) shape
      [("value", "dense<" ++ text ++ "> : " ++ shape.hloType)] []
  refine ⟨_, _, ?_, opened, grows, carries⟩
  simp only [Program.splatConstant, o.checkOpen (show ∀ v ∈ ([] : List Nat), (p.value v).fn = main by simp),
    literal]
  rfl

@[simp] theorem namedInput_result (fnId : Nat) (name : String) (shape : Shape) :
    (p.namedInput fnId name shape).2 = p.values.length := rfl

@[simp] theorem closure_result (fnId : Nat) : (p.closure fnId).2 = p.functions.length := by
  simp [closure, addFunction]

theorem ret_ok {fnId : Nat} {results : List Nat} (nonempty : results ≠ [])
    (checked : p.checkOpen fnId (if (p.fn fnId).parent.isSome then Op.«return» else .funcReturn) results = .ok ()) :
    p.ret fnId results = .ok (p.setFn fnId { p.fn fnId with
      returned := true,
      outputs := results.map fun v => (p.value v).shape,
      statements := (p.fn fnId).statements ++
        [{ op := if (p.fn fnId).parent.isSome then Op.«return» else .funcReturn, inputs := results }] }) := by
  simp only [ret, List.isEmpty_iff, nonempty, if_false, checked]
  rfl

/-- The closure of a reduction: two scalar inputs combined by `combine` and returned. Building it
keeps `main` open and leaves a returned closure of `main` that takes two scalars and returns one. -/
theorem OpenMain.reductionFn (o : p.OpenMain main) {combine : Op} (isBinary : combine.isBinary = true)
    (scalar : Shape) :
    ∃ q combined r, ((((p.closure main).1.namedInput (p.closure main).2 "lhs" scalar).1.namedInput
        (p.closure main).2 "rhs" scalar).1).binary combine ((p.closure main).1.namedInput (p.closure main).2 "lhs" scalar).2
        (((p.closure main).1.namedInput (p.closure main).2 "lhs" scalar).1.namedInput
          (p.closure main).2 "rhs" scalar).2 = .ok (q, combined) ∧
      q.ret (p.closure main).2 [combined] = .ok r ∧ r.OpenMain main ∧ Grows p r main ∧
      (p.closure main).2 < r.functions.length ∧ (r.fn (p.closure main).2).parent = some main ∧
      (r.fn (p.closure main).2).inputs.length = 2 ∧
      (∀ a ∈ (r.fn (p.closure main).2).inputs, (r.value a).shape = scalar) ∧
      (r.fn (p.closure main).2).outputs = [scalar] := by
  have rootMain : p.root main = main := root_of_none o.root
  simp only [namedInput_result, namedInput_values, closure_values, List.length_append, List.length_singleton]
  rw [closure_result]
  obtain ⟨q₁, h₁⟩ : ∃ q, q = (p.closure main).1 := ⟨_, rfl⟩
  rw [← h₁]
  have len₁ : q₁.functions.length = p.functions.length + 1 := h₁ ▸ closure_functions p main
  have vals₁ : q₁.values = p.values := h₁ ▸ closure_values p main
  have fn₁ : ∀ i, q₁.fn i = if i = p.functions.length then
      { name := "closure" ++ toString (p.fn main).nextClosure, parent := some main }
      else if i = main then { p.fn i with nextClosure := (p.fn i).nextClosure + 1 } else p.fn i := by
    intro i
    rw [h₁, fn_closure p (root_lt o.coherent.parents main o.lt), rootMain]
  have coh₁ : q₁.Coherent := h₁ ▸ o.coherent.closure o.lt
  set c := p.functions.length with hc
  set L := p.values.length with hL
  have mainLt : main < c := o.lt
  have own₁ : c < q₁.functions.length := by omega
  obtain ⟨q₃, h₃⟩ : ∃ q, q = ((q₁.namedInput c "lhs" scalar).1.namedInput c "rhs" scalar).1 := ⟨_, rfl⟩
  rw [← h₃]
  have len₃ : q₃.functions.length = c + 1 := by simp [h₃, len₁]
  have vals₃ : q₃.values = p.values ++
      [⟨c, Text.normalizeIdentifier "lhs", scalar⟩, ⟨c, Text.normalizeIdentifier "rhs", scalar⟩] := by
    simp [h₃, vals₁]
  have fn₃ : ∀ i, q₃.fn i =
      { q₁.fn i with inputs := if i = c then (q₁.fn i).inputs ++ [L, L + 1] else (q₁.fn i).inputs } := by
    intro i
    rw [h₃, fn_namedInput _ (by simpa using own₁), fn_namedInput _ own₁]
    by_cases here : i = c <;> simp [here, vals₁, hL]
  have coh₃ : q₃.Coherent := h₃ ▸ (coh₁.namedInput own₁ "lhs" scalar).namedInput (by simpa using own₁) "rhs" scalar
  have own₃ : c < q₃.functions.length := by omega
  have closure₃ : (q₃.fn c).parent = some main ∧ (q₃.fn c).returned = false ∧ (q₃.fn c).inputs = [L, L + 1] := by
    simp [fn₃, fn₁]
  have lhs₃ : q₃.value L = ⟨c, Text.normalizeIdentifier "lhs", scalar⟩ := by
    simp [value, vals₃, List.getD_eq_getElem?_getD, hL]
  have rhs₃ : q₃.value (L + 1) = ⟨c, Text.normalizeIdentifier "rhs", scalar⟩ := by
    simp [value, vals₃, List.getD_eq_getElem?_getD, hL]
  have checked₃ : q₃.checkOpen c combine [L, L + 1] = .ok () :=
    checkOpen_eq_ok closure₃.2.1 (by simp [lhs₃, rhs₃]) combine
  have rootC : q₃.root c = main := by
    rw [root_of_some coh₃.parents own₃ closure₃.1, root_of_none (by simpa [fn₃, fn₁, Nat.ne_of_lt mainLt] using o.root)]
  have combined : q₃.binary combine L (L + 1) = .ok (q₃.addOp c combine scalar [L, L + 1] [] []) := by
    simp only [Program.binary, isBinary, lhs₃, rhs₃, checked₃, Plan.Shape.same_self, Bool.not_true,
      Bool.false_eq_true, if_false]
    rfl
  obtain ⟨q₄, h₄⟩ : ∃ q, q = (q₃.addOp c combine scalar [L, L + 1] [] []).1 := ⟨_, rfl⟩
  have len₄ : q₄.functions.length = c + 1 := by simp [h₄, len₃]
  have fn₄ := fun i => h₄ ▸ fn_addOp q₃ own₃ (rootC ▸ (by omega)) combine scalar [L, L + 1] [] [] i
  have vals₄ : q₄.values = q₃.values ++ [⟨c, toString (q₃.fn main).nextTmp, scalar⟩] := by
    simp [h₄, rootC]
  have coh₄ : q₄.Coherent := h₄ ▸ coh₃.addOp own₃ checked₃ (by simp [vals₃, hL]) scalar [] []
  have result₄ : q₄.value (L + 2) = ⟨c, toString (q₃.fn main).nextTmp, scalar⟩ := by
    simp [value, vals₄, vals₃, List.getD_eq_getElem?_getD, hL]
  have closure₄ : (q₄.fn c).parent = some main ∧ (q₄.fn c).returned = false ∧ (q₄.fn c).inputs = [L, L + 1] := by
    simpa [fn₄] using closure₃
  have returned := ret_ok (p := q₄) (List.cons_ne_nil (L + 2) [])
    (checkOpen_eq_ok closure₄.2.1 (by simp [result₄]) _)
  obtain ⟨r, hr⟩ : ∃ r, r = q₄.setFn c { q₄.fn c with
      returned := true,
      outputs := [L + 2].map fun v => (q₄.value v).shape,
      statements := (q₄.fn c).statements ++
        [{ op := if (q₄.fn c).parent.isSome then Op.«return» else .funcReturn, inputs := [L + 2] }] } := ⟨_, rfl⟩
  rw [← hr] at returned
  have cohR : r.Coherent := coh₄.ret (by omega) returned (by simp [vals₄, vals₃, hL])
  have fnR := fun i => hr ▸ fn_setFn q₄ (show c < q₄.functions.length by omega) _ i
  have valsR : r.values = p.values ++ [⟨c, Text.normalizeIdentifier "lhs", scalar⟩,
      ⟨c, Text.normalizeIdentifier "rhs", scalar⟩, ⟨c, toString (q₃.fn main).nextTmp, scalar⟩] := by
    simp [hr, vals₄, vals₃]
  have old : ∀ v < L, r.value v = p.value v := fun v lt => by
    simp [value, valsR, List.getD_eq_getElem?_getD, List.getElem?_append_left lt]
  -- every function but the closure keeps what `OpenMain` and `Grows` read
  have heads : ∀ i, i ≠ c → (r.fn i).name = (p.fn i).name ∧ (r.fn i).parent = (p.fn i).parent ∧
      (r.fn i).returned = (p.fn i).returned ∧ (r.fn i).inputs = (p.fn i).inputs := by
    intro i ne
    simp only [fnR, fn₄, fn₃, fn₁, ne, if_false]
    split_ifs <;> simp
  have res : (q₃.addOp c combine scalar [L, L + 1] [] []).2 = L + 2 := by simp [vals₃, hL]
  refine ⟨q₄, L + 2, r, by rw [combined, h₄, ← res], returned,
    ⟨cohR, by simp [hr, len₄]; omega, ?_, ?_, ?_, fun i lt ne => ?_⟩,
    ⟨by simp [valsR], old, (heads main (Nat.ne_of_lt mainLt)).2.2.2⟩,
    by simp [hr, len₄], by simp [fnR, closure₄.1], by simp [fnR, closure₄.2.2], ?_, by simp [fnR, result₄]⟩
  · rw [(heads main (Nat.ne_of_lt mainLt)).1, o.name]
  · rw [(heads main (Nat.ne_of_lt mainLt)).2.1, o.root]
  · rw [(heads main (Nat.ne_of_lt mainLt)).2.2.1, o.isOpen]
  · by_cases here : i = c
    · simp [fnR, here]
    · rw [(heads i here).2.2.1]
      exact o.others i (by simp [hr, len₄] at lt; omega) ne
  · simp [fnR, closure₄.2.2, value, valsR, List.getD_eq_getElem?_getD, hL]

/-- A reduce of an array of `main`, from a scalar of its element type and with a closure of `main`
that takes two such scalars and returns one, drops the reduced axis. -/
theorem OpenMain.reduce (o : p.OpenMain main) {x init fnR : Nat} {s : Shape} (cx : p.Carries main x s)
    (ci : p.Carries main init ⟨s.dtype, []⟩) (parent : (p.fn fnR).parent = some main)
    (two : (p.fn fnR).inputs.length = 2) (args : ∀ a ∈ (p.fn fnR).inputs, (p.value a).shape = ⟨s.dtype, []⟩)
    (result : (p.fn fnR).outputs = [⟨s.dtype, []⟩]) {axis : Int} {a : Nat}
    (adjusted : Shape.adjustAxis axis s.rank = .ok a) :
    ∃ q v, p.reduce x init fnR axis = .ok (q, v) ∧ q.OpenMain main ∧ Grows p q main ∧
      q.Carries main v (s.withDims (s.dims.eraseIdx a)) := by
  obtain ⟨ltX, fnX, rfl⟩ := cx
  obtain ⟨ltI, fnI, shapeI⟩ := ci
  obtain ⟨opened, grows, carries⟩ :=
    o.addOp .reduce (show ∀ v ∈ [x, init], v < p.values.length ∧ (p.value v).fn = main by simp [ltX, fnX, ltI, fnI])
      ((p.value x).shape.withDims ((p.value x).shape.dims.eraseIdx a)) [("dimensions", intsLiteral [a])] [fnR]
  refine ⟨_, _, ?_, opened, grows, carries⟩
  have scalarArgs : ((p.fn fnR).inputs.all fun a => (p.value a).shape.same ⟨(p.value x).shape.dtype, []⟩) = true :=
    List.all_eq_true.2 fun a mem => by rw [args a mem, Plan.Shape.same_self]
  simp only [Program.reduce, fnX, o.checkOpen (show ∀ v ∈ [x, init], (p.value v).fn = main by simp [fnX, fnI]),
    parent, ne_eq, not_true_eq_false, if_false, shapeI, Plan.Shape.same_self, Bool.not_true, Bool.false_eq_true,
    two, result, scalarArgs, Bool.or_false, adjusted]
  rfl

theorem openMain_new (name : String) : (({ name } : Program).main).1.OpenMain 0 := by
  have c := (coherent_new name).addFunction "main" (fun j (none : (none : Option Nat) = some j) => by cases none)
  refine ⟨c, by simp [Program.main, newFunction, addFunction], rfl, rfl, rfl, fun i lt other => ?_⟩
  simp [Program.main, newFunction, addFunction] at lt
  omega

/-- An input of `main` keeps it open: the input is a new array of `main`, added last to its inputs. -/
theorem OpenMain.input (o : p.OpenMain main) (shape : Shape) :
    (p.input main shape).1.OpenMain main ∧ (p.input main shape).2 = p.values.length ∧
      (p.input main shape).1.Carries main p.values.length shape ∧
      (∀ v < p.values.length, (p.input main shape).1.value v = p.value v) ∧
      ((p.input main shape).1.fn main).inputs = (p.fn main).inputs ++ [p.values.length] := by
  have fn := fn_input p o.lt shape
  have value := value_of_values p (input_values p main shape)
  refine ⟨⟨o.coherent.input o.lt shape, by simpa using o.lt, by simp [fn, o.name], by simp [fn, o.root],
    by simp [fn, o.isOpen], fun i lt other => ?_⟩, rfl, ⟨by simp, by simp [value], by simp [value]⟩,
    fun v lt => by rw [value, if_neg (Nat.ne_of_lt lt)], by simp [fn]⟩
  rw [fn, if_neg other]
  exact o.others i (by simpa using lt) other

end Operations

end Program

end Rearrange.Hlo

import Rearrange.Hlo.Calls
import Rearrange.Proofs.Yields
/-!
# What a session of the builder keeps

The builder keeps its functions and values in tables that only grow. Calls that add an
operation or return check that the function is still open and that the operands are its own;
calls that add an input do not look at whether the function has returned.

Over every session of valid calls (`Program.ValidSession`) the program stays coherent
(`Program.Coherent`):

* a closure comes after the function that made it, so every function has a root function;
* every operand of a statement is an input of the same function or an output of an earlier
  statement of it;
* the temporaries of a root function and its closures are numbered `0`, `1`, … without
  repeats, and no input is named like a temporary, since an input's name never starts with a
  digit.

A function that has returned keeps its outputs and statements for the rest of the session, but
its inputs can still grow (`session_returned`, `input_after_return`).
-/
namespace Rearrange.Hlo

namespace Program

section Tables

variable (p : Program)

@[simp] theorem functions_setFn (i : Nat) (f : Function) :
    (p.setFn i f).functions.length = p.functions.length := by
  simp [setFn]

@[simp] theorem values_setFn (i : Nat) (f : Function) : (p.setFn i f).values = p.values := rfl

@[simp] theorem value_setFn (i v : Nat) (f : Function) : (p.setFn i f).value v = p.value v := rfl

theorem fn_setFn {i : Nat} (lt : i < p.functions.length) (f : Function) (j : Nat) :
    (p.setFn i f).fn j = if j = i then f else p.fn j := by
  simp only [fn, setFn, List.getD_eq_getElem?_getD, List.getElem?_set]
  by_cases same : j = i
  · simp [same, lt]
  · simp [same, Ne.symm same]

theorem fn_append (f : Function) (i : Nat) :
    ({ p with functions := p.functions ++ [f] } : Program).fn i =
      if i = p.functions.length then f else p.fn i := by
  simp only [fn, List.getD_eq_getElem?_getD, List.getElem?_append]
  by_cases here : i = p.functions.length
  · simp [here]
  · by_cases before : i < p.functions.length
    · simp [here, before]
    · simp [here, before, List.getElem?_eq_none (show [f].length ≤ i - p.functions.length by simp; omega)]

theorem value_append (x : Value) (v : Nat) :
    ({ p with values := p.values ++ [x] } : Program).value v =
      if v = p.values.length then x else p.value v := by
  simp only [value, List.getD_eq_getElem?_getD, List.getElem?_append]
  by_cases here : v = p.values.length
  · simp [here]
  · by_cases before : v < p.values.length
    · simp [here, before]
    · simp [here, before, List.getElem?_eq_none (show [x].length ≤ v - p.values.length by simp; omega)]

theorem value_of_values {q : Program} {x : Value} (h : q.values = p.values ++ [x]) (v : Nat) :
    q.value v = if v = p.values.length then x else p.value v := by
  rw [show q.value v = ({ p with values := p.values ++ [x] } : Program).value v by simp [value, h]]
  exact value_append p x v

end Tables

end Program

section Names

theorem isDigit_of_mem_toString {k : Nat} {c : Char} (mem : c ∈ (toString k).toList) : c.isDigit := by
  rw [Nat.toString_eq_ofList_toDigits, String.toList_ofList] at mem
  exact Nat.isDigit_of_mem_toDigits (by decide) (by decide) mem

theorem toString_injective {k m : Nat} (same : toString k = toString m) : k = m := by
  have digits : Nat.toDigits 10 k = Nat.toDigits 10 m := by
    simpa [Nat.toString_eq_ofList_toDigits] using congrArg String.toList same
  rw [← Nat.ofDigitChars_ten_toDigits (n := k), digits, Nat.ofDigitChars_ten_toDigits]

theorem identifierByte_not_digit (b : UInt8) (notDigit : Text.isDigitByte b = false) :
    (if Text.isIdentifierByte b then Char.ofNat b.toNat else '_').isDigit = false := by
  -- the bytes are few enough to check one by one
  have table : ∀ n < 256, Text.isDigitByte (UInt8.ofNat n) = false →
      (if Text.isIdentifierByte (UInt8.ofNat n) then Char.ofNat (UInt8.ofNat n).toNat else '_').isDigit =
        false := by
    set_option maxRecDepth 8000 in decide
  simpa using table b.toNat b.toNat_lt (by simpa using notDigit)

/-- A normalized identifier never starts with a digit. -/
theorem normalizeIdentifier_head {s : String} {c : Char} {rest : List Char}
    (h : (Text.normalizeIdentifier s).toList = c :: rest) : c.isDigit = false := by
  unfold Text.normalizeIdentifier at h
  dsimp only at h
  split at h
  · rename_i b bs bytes
    split at h
    · simp only [String.toList_ofList, List.cons.injEq] at h
      rw [← h.1]
      decide
    · rename_i notDigit
      simp only [String.toList_ofList, bytes, List.map_cons, List.cons.injEq] at h
      rw [← h.1]
      exact identifierByte_not_digit b (by simpa using notDigit)
  · simp at h

theorem toString_ne_normalizeIdentifier (k : Nat) (s : String) :
    toString k ≠ Text.normalizeIdentifier s := by
  intro same
  cases digits : (toString k).toList with
  | nil =>
    rw [Nat.toString_eq_ofList_toDigits, String.toList_ofList] at digits
    exact Nat.toDigits_ne_nil digits
  | cons c rest =>
    have first : c.isDigit := isDigit_of_mem_toString (k := k) (by rw [digits]; exact List.mem_cons_self)
    rw [normalizeIdentifier_head (same ▸ digits)] at first
    cases first

end Names

namespace Program

section Roots

variable (p : Program)

/-- Every closure comes after the function that made it. -/
def ParentsEarlier : Prop := ∀ i < p.functions.length, ∀ j, (p.fn i).parent = some j → j < i

variable {p}

/-- Following parents from a function reaches the same root with any fuel beyond its position. -/
theorem root_go_fuel (earlier : p.ParentsEarlier) :
    ∀ i, i < p.functions.length → ∀ n m, i < n → i < m → root.go p n i = root.go p m i := by
  intro i
  induction i using Nat.strongRecOn with
  | _ i ih =>
    intro lt n m hn hm
    obtain ⟨n, rfl⟩ : ∃ k, n = k + 1 := ⟨n - 1, by omega⟩
    obtain ⟨m, rfl⟩ : ∃ k, m = k + 1 := ⟨m - 1, by omega⟩
    simp only [root.go]
    cases parent : (p.fn i).parent with
    | none => rfl
    | some j =>
      have before : j < i := earlier i lt j parent
      exact ih j before (by omega) n m (by omega) (by omega)

theorem root_of_none {i : Nat} (none : (p.fn i).parent = none) : p.root i = i := by
  simp [root, root.go, none]

theorem root_of_some (earlier : p.ParentsEarlier) {i j : Nat} (lt : i < p.functions.length)
    (parent : (p.fn i).parent = some j) : p.root i = p.root j := by
  have before : j < i := earlier i lt j parent
  unfold root
  rw [root.go.eq_2, parent]
  exact root_go_fuel earlier j (by omega) _ _ (by omega) (by omega)

theorem root_lt (earlier : p.ParentsEarlier) : ∀ i, i < p.functions.length → p.root i < p.functions.length := by
  intro i
  induction i using Nat.strongRecOn with
  | _ i ih =>
    intro lt
    cases parent : (p.fn i).parent with
    | none => rwa [root_of_none parent]
    | some j =>
      have before : j < i := earlier i lt j parent
      rw [root_of_some earlier lt parent]
      exact ih j before (by omega)

/-- Roots depend only on parents: a program that keeps the parents of the functions of another,
and may add functions after them, gives them the same roots. -/
theorem root_congr {q : Program} (earlier : p.ParentsEarlier) (earlier' : q.ParentsEarlier)
    (grows : p.functions.length ≤ q.functions.length)
    (parents : ∀ i < p.functions.length, (q.fn i).parent = (p.fn i).parent) :
    ∀ i, i < p.functions.length → q.root i = p.root i := by
  intro i
  induction i using Nat.strongRecOn with
  | _ i ih =>
    intro lt
    cases parent : (p.fn i).parent with
    | none => rw [root_of_none parent, root_of_none ((parents i lt).trans parent)]
    | some j =>
      have before : j < i := earlier i lt j parent
      rw [root_of_some earlier lt parent, root_of_some earlier' (by omega) ((parents i lt).trans parent)]
      exact ih j before (by omega)

end Roots

end Program

namespace Program

section Primitives

variable (p : Program)

@[simp] theorem fn_withValues (vs : List Value) (i : Nat) :
    ({ p with values := vs } : Program).fn i = p.fn i := rfl

@[simp] theorem functions_withValues (vs : List Value) :
    ({ p with values := vs } : Program).functions = p.functions := rfl

theorem fn_newValue {fnId : Nat} (root : p.root fnId < p.functions.length) (shape : Shape) (i : Nat) :
    (p.newValue fnId shape).1.fn i =
      { p.fn i with nextTmp := if i = p.root fnId then (p.fn i).nextTmp + 1 else (p.fn i).nextTmp } := by
  simp only [newValue, fn_withValues, fn_setFn _ root]
  by_cases at_root : i = p.root fnId <;> simp [at_root]

@[simp] theorem newValue_values (fnId : Nat) (shape : Shape) :
    (p.newValue fnId shape).1.values =
      p.values ++ [{ fn := fnId, name := toString (p.fn (p.root fnId)).nextTmp, shape }] := rfl

@[simp] theorem newValue_result (fnId : Nat) (shape : Shape) :
    (p.newValue fnId shape).2 = p.values.length := rfl

@[simp] theorem newValue_functions (fnId : Nat) (shape : Shape) :
    (p.newValue fnId shape).1.functions.length = p.functions.length := by
  simp [newValue]

/-- An operation appends a statement to its function, whose result is a new temporary. -/
theorem fn_addOp {fnId : Nat} (own : fnId < p.functions.length) (root : p.root fnId < p.functions.length)
    (op : Op) (shape : Shape) (ins : List Nat) (attrs : List (String × String)) (regs : List Nat) (i : Nat) :
    (p.addOp fnId op shape ins attrs regs).1.fn i =
      { p.fn i with
        statements := (if i = fnId then (p.fn i).statements ++
          [{ op, inputs := ins, attributes := attrs, regions := regs, outputs := [p.values.length] }]
          else (p.fn i).statements),
        nextTmp := if i = p.root fnId then (p.fn i).nextTmp + 1 else (p.fn i).nextTmp } := by
  simp only [addOp]
  rw [fn_setFn _ (by simpa using own), fn_newValue _ root, fn_newValue _ root]
  by_cases here : i = fnId
  · subst here
    simp
  · simp [here]

@[simp] theorem addOp_values (fnId : Nat) (op : Op) (shape : Shape) (ins : List Nat)
    (attrs : List (String × String)) (regs : List Nat) :
    (p.addOp fnId op shape ins attrs regs).1.values =
      p.values ++ [{ fn := fnId, name := toString (p.fn (p.root fnId)).nextTmp, shape }] := rfl

@[simp] theorem addOp_functions (fnId : Nat) (op : Op) (shape : Shape) (ins : List Nat)
    (attrs : List (String × String)) (regs : List Nat) :
    (p.addOp fnId op shape ins attrs regs).1.functions.length = p.functions.length := by
  simp [addOp]

@[simp] theorem addOp_result (fnId : Nat) (op : Op) (shape : Shape) (ins : List Nat)
    (attrs : List (String × String)) (regs : List Nat) :
    (p.addOp fnId op shape ins attrs regs).2 = p.values.length := rfl

theorem fn_namedInput {fnId : Nat} (own : fnId < p.functions.length) (name : String) (shape : Shape)
    (i : Nat) :
    (p.namedInput fnId name shape).1.fn i =
      { p.fn i with
        inputs := if i = fnId then (p.fn i).inputs ++ [p.values.length] else (p.fn i).inputs } := by
  simp only [namedInput, fn_withValues, fn_setFn _ own]
  by_cases here : i = fnId
  · subst here
    simp
  · simp [here]

@[simp] theorem namedInput_values (fnId : Nat) (name : String) (shape : Shape) :
    (p.namedInput fnId name shape).1.values =
      p.values ++ [{ fn := fnId, name := Text.normalizeIdentifier name, shape }] := rfl

@[simp] theorem namedInput_functions (fnId : Nat) (name : String) (shape : Shape) :
    (p.namedInput fnId name shape).1.functions.length = p.functions.length := by
  simp [namedInput]

/-- A return ends its function with a return statement and records the results' shapes. -/
theorem ret_eq {fnId : Nat} {results : List Nat} {q : Program} (done : p.ret fnId results = .ok q) :
    p.checkOpen fnId (if (p.fn fnId).parent.isSome then Op.«return» else .funcReturn) results = .ok () ∧
      q = p.setFn fnId { p.fn fnId with
        returned := true,
        outputs := results.map fun v => (p.value v).shape,
        statements := (p.fn fnId).statements ++
          [{ op := if (p.fn fnId).parent.isSome then Op.«return» else .funcReturn, inputs := results }] } := by
  simp only [ret] at done
  split at done
  · cases done
  · cases checked : p.checkOpen fnId (if (p.fn fnId).parent.isSome then Op.«return» else .funcReturn) results with
    | error f =>
      rw [checked] at done
      cases done
    | ok u =>
      rw [checked] at done
      cases done
      exact ⟨rfl, rfl⟩

theorem fn_closure {fnId : Nat} (root : p.root fnId < p.functions.length) (i : Nat) :
    (p.closure fnId).1.fn i =
      if i = p.functions.length then
        { name := "closure" ++ toString (p.fn (p.root fnId)).nextClosure, parent := some fnId }
      else if i = p.root fnId then { p.fn i with nextClosure := (p.fn i).nextClosure + 1 } else p.fn i := by
  simp only [closure, addFunction]
  rw [fn_append, functions_setFn, fn_setFn _ root]
  by_cases here : i = p.root fnId
  · subst here
    simp
  · simp [here]

@[simp] theorem closure_values (fnId : Nat) : (p.closure fnId).1.values = p.values := rfl

@[simp] theorem closure_functions (fnId : Nat) :
    (p.closure fnId).1.functions.length = p.functions.length + 1 := by
  simp [closure, addFunction]

theorem input_eq (fnId : Nat) (shape : Shape) :
    (p.input fnId shape).1 =
      let q := (p.namedInput fnId ("arg" ++ toString (p.fn fnId).nextArg) shape).1
      q.setFn fnId { q.fn fnId with nextArg := (p.fn fnId).nextArg + 1 } := rfl

theorem fn_input {fnId : Nat} (own : fnId < p.functions.length) (shape : Shape) (i : Nat) :
    (p.input fnId shape).1.fn i =
      if i = fnId then
        { p.fn i with inputs := (p.fn i).inputs ++ [p.values.length], nextArg := (p.fn i).nextArg + 1 }
      else p.fn i := by
  rw [input_eq]
  dsimp only
  rw [fn_setFn _ (by simpa using own)]
  simp only [fn_namedInput _ own]
  by_cases here : i = fnId
  · subst here
    simp
  · simp [here]

@[simp] theorem input_values (fnId : Nat) (shape : Shape) :
    (p.input fnId shape).1.values =
      p.values ++
        [{ fn := fnId, name := Text.normalizeIdentifier ("arg" ++ toString (p.fn fnId).nextArg), shape }] :=
  rfl

@[simp] theorem input_functions (fnId : Nat) (shape : Shape) :
    (p.input fnId shape).1.functions.length = p.functions.length := by
  simp [input_eq]

@[simp] theorem session_nil : p.session [] = p := rfl

@[simp] theorem session_cons (call : Call) (cs : List Call) : p.session (call :: cs) = (p.step call).session cs :=
  rfl

end Primitives

end Program

namespace Program

section Operations

variable {p q : Program} {v : Nat}

theorem plain_ordinary (m : String) : (Failure.plain m).Ordinary := ⟨rfl, by simp [Failure.kind?]⟩

/-- An operation can be added exactly when the function has not returned and owns every
operand; otherwise the refusal is an ordinary error. -/
theorem checkOpen_yields (p : Program) (fnId : Nat) (op : Op) (vs : List Nat) :
    Yields ((p.fn fnId).returned = false ∧ ∀ v ∈ vs, (p.value v).fn = fnId) (fun _ => True)
      (p.checkOpen fnId op vs) := by
  unfold checkOpen
  by_cases returned : (p.fn fnId).returned = true
  · simp only [returned, if_true]
    exact Yields.of_not (by simp) ⟨_, rfl, plain_ordinary _⟩
  · simp only [returned, Bool.false_eq_true, if_false]
    have loop := Yields.forIn (fun (g : Nat × Nat) => (p.value g.1).fn = fnId) (fun _ _ => True)
      (fun g (_ : PUnit) => if (p.value g.1).fn ≠ fnId then do
          throw (Failure.plain ("cannot add operation " ++ op.hloName ++ " to function " ++
            Text.quote (p.fn fnId).name ++ ", because operand #" ++ toString g.2 ++
            " is not part of the function"))
          pure (ForInStep.yield PUnit.unit)
        else pure (ForInStep.yield PUnit.unit))
      (fun pre g b _ => by
        by_cases own : (p.value g.1).fn = fnId
        · simp only [own, ne_eq, not_true_eq_false, if_false]
          exact Yields.of_holds trivial ⟨_, rfl, _, rfl, trivial⟩
        · simp only [own, ne_eq, not_false_eq_true, if_true]
          exact Yields.of_not not_false ⟨_, rfl, plain_ordinary _⟩)
      vs.zipIdx [] PUnit.unit trivial
    refine (Yields.bind loop fun _ _ _ => Yields.pure trivial).congr ?_
    constructor
    · rintro ⟨all, -⟩
      refine ⟨by simp, fun v mem => ?_⟩
      obtain ⟨g, inZip, rfl⟩ := List.mem_map.1 ((List.zipIdx_map_fst 0 vs).symm ▸ mem)
      exact all g inZip
    · rintro ⟨-, all⟩
      exact ⟨fun g mem => all g.1 ((List.zipIdx_map_fst 0 vs) ▸ List.mem_map_of_mem mem), trivial⟩

theorem checkOpen_ok {fnId : Nat} {op : Op} {vs : List Nat} {u : Unit} (ok : p.checkOpen fnId op vs = .ok u) :
    (p.fn fnId).returned = false ∧ ∀ v ∈ vs, (p.value v).fn = fnId :=
  ((p.checkOpen_yields fnId op vs).ok_iff).1 ⟨u, ok⟩

theorem splatConstant_ok {fnId : Nat} {shape : Shape} {x : Scalar}
    (done : p.splatConstant fnId shape x = .ok (q, v)) :
    (∃ u, p.checkOpen fnId .constant [] = .ok u) ∧ ∃ attrs, (q, v) = p.addOp fnId .constant shape [] attrs := by
  obtain ⟨u, checked, rest⟩ := Except.bind_eq_ok.1 done
  obtain ⟨elem, -, rest⟩ := Except.bind_eq_ok.1 rest
  exact ⟨⟨u, checked⟩, _, (Except.ok.inj rest).symm⟩

theorem reshape_ok {x : Nat} {dims : List Int} (done : p.reshape x dims = .ok (q, v)) :
    (∃ u, p.checkOpen (p.value x).fn .reshape [x] = .ok u) ∧ ∃ out,
      Shape.reshape (p.value x).shape dims = .ok out ∧ (q, v) = p.addOp (p.value x).fn .reshape out [x] [] := by
  obtain ⟨u, checked, rest⟩ := Except.bind_eq_ok.1 done
  obtain ⟨out, shaped, rest⟩ := Except.bind_eq_ok.1 rest
  exact ⟨⟨u, checked⟩, out, shaped, (Except.ok.inj rest).symm⟩

theorem transpose_ok {x : Nat} {perm : List Int} (done : p.transpose x perm = .ok (q, v)) :
    (∃ u, p.checkOpen (p.value x).fn .transpose [x] = .ok u) ∧ ∃ out,
      Shape.transpose (p.value x).shape perm = .ok out ∧
      (q, v) = p.addOp (p.value x).fn .transpose out [x] [("permutation", intsLiteral perm)] := by
  obtain ⟨u, checked, rest⟩ := Except.bind_eq_ok.1 done
  obtain ⟨out, shaped, rest⟩ := Except.bind_eq_ok.1 rest
  exact ⟨⟨u, checked⟩, out, shaped, (Except.ok.inj rest).symm⟩

/-- A broadcast succeeds when its mapping has one target axis per operand axis, keeps the element
type and passes the mapping's checks; its result has the target shape. -/
theorem broadcastInDim_ok {x : Nat} {target : Shape} {mapping : List Int}
    (done : p.broadcastInDim x target mapping = .ok (q, v)) :
    (∃ u, p.checkOpen (p.value x).fn .broadcastInDim [x] = .ok u) ∧
      mapping.length = (p.value x).shape.rank ∧ (p.value x).shape.dtype = target.dtype ∧
      mappingFault (p.value x).shape target mapping = none ∧
      (q, v) = p.addOp (p.value x).fn .broadcastInDim target [x]
        [("broadcast_dimensions", intsLiteral mapping)] := by
  obtain ⟨u, checked, rest⟩ := Except.bind_eq_ok.1 done
  dsimp only at rest
  obtain ⟨ranks, rest⟩ := Except.ite_throw_ok rest
  obtain ⟨dtypes, rest⟩ := Except.ite_throw_ok rest
  refine ⟨⟨u, checked⟩, by simpa using ranks, by simpa using dtypes, ?_⟩
  cases found : mappingFault (p.value x).shape target mapping with
  | none =>
    simp only [found] at rest
    exact ⟨rfl, (Except.ok.inj rest).symm⟩
  | some m =>
    simp only [found] at rest
    cases rest

theorem binary_ok {op : Op} {lhs rhs : Nat} (done : p.binary op lhs rhs = .ok (q, v)) :
    op.isBinary = true ∧ (∃ u, p.checkOpen (p.value lhs).fn op [lhs, rhs] = .ok u) ∧
      (p.value lhs).shape.same (p.value rhs).shape = true ∧
      (q, v) = p.addOp (p.value lhs).fn op (p.value lhs).shape [lhs, rhs] [] := by
  simp only [binary] at done
  split at done
  · cases done
  rename_i isBinary
  obtain ⟨u, checked, rest⟩ := Except.bind_eq_ok.1 done
  split at rest
  · cases rest
  rename_i same
  exact ⟨by simpa using isBinary, ⟨u, checked⟩, by simpa using same, (Except.ok.inj rest).symm⟩

/-- A reduce succeeds when its closure combines two scalars of the element type and the axis is
in range; its result drops that axis. -/
theorem reduce_ok {x init fnR : Nat} {axis : Int} (done : p.reduce x init fnR axis = .ok (q, v)) :
    (∃ u, p.checkOpen (p.value x).fn .reduce [x, init] = .ok u) ∧ (p.fn fnR).parent = some (p.value x).fn ∧
      ∃ a, Shape.adjustAxis axis (p.value x).shape.rank = .ok a ∧
        (q, v) = p.addOp (p.value x).fn .reduce
          ((p.value x).shape.withDims ((p.value x).shape.dims.eraseIdx a)) [x, init]
          [("dimensions", intsLiteral [a])] [fnR] := by
  obtain ⟨u, checked, rest⟩ := Except.bind_eq_ok.1 done
  dsimp only at rest
  obtain ⟨closureOf, rest⟩ := Except.ite_throw_ok rest
  obtain ⟨-, rest⟩ := Except.ite_throw_ok rest
  obtain ⟨-, rest⟩ := Except.ite_throw_ok rest
  obtain ⟨a, adjusted, rest⟩ := Except.bind_eq_ok.1 rest
  exact ⟨⟨u, checked⟩, by simpa using closureOf, a, adjusted, (Except.ok.inj rest).symm⟩

end Operations

end Program

namespace Program

section Coherence

variable (p : Program)

/-- Value `v` is a temporary: the result of a statement of its function. -/
def Temp (v : Nat) : Prop := ∃ st ∈ (p.fn (p.value v).fn).statements, v ∈ st.outputs

/-- What a program built by valid calls satisfies: closures come after their parents, inputs and
results belong to their functions, each value is an input or a temporary of its function, the
operands of a statement come before it, and temporaries are numbered without repeats per root
function while inputs carry normalized names. -/
structure Coherent : Prop where
  parents : p.ParentsEarlier
  valueFn : ∀ v < p.values.length, (p.value v).fn < p.functions.length
  inputsOwn : ∀ i, ∀ v ∈ (p.fn i).inputs, v < p.values.length ∧ (p.value v).fn = i
  outputsOwn : ∀ i, ∀ st ∈ (p.fn i).statements, ∀ v ∈ st.outputs, v < p.values.length ∧ (p.value v).fn = i
  owned : ∀ v < p.values.length, v ∈ (p.fn (p.value v).fn).inputs ∨ p.Temp v
  operands : ∀ i pre st post, (p.fn i).statements = pre ++ st :: post →
    ∀ v ∈ st.inputs, v ∈ (p.fn i).inputs ∨ ∃ st' ∈ pre, v ∈ st'.outputs
  inputNames : ∀ i, ∀ v ∈ (p.fn i).inputs, ∃ s, (p.value v).name = Text.normalizeIdentifier s
  tempNames : ∀ v, p.Temp v → ∃ k < (p.fn (p.root (p.value v).fn)).nextTmp, (p.value v).name = toString k
  tempsDistinct : ∀ v w, p.Temp v → p.Temp w → p.root (p.value v).fn = p.root (p.value w).fn →
    (p.value v).name = (p.value w).name → v = w

variable {p}

theorem Coherent.temp_lt (c : p.Coherent) {v : Nat} (t : p.Temp v) : v < p.values.length := by
  obtain ⟨st, mem, out⟩ := t
  exact (c.outputsOwn _ st mem v out).1

@[simp] theorem default_inputs : (default : Function).inputs = [] := rfl

@[simp] theorem default_statements : (default : Function).statements = [] := rfl

theorem coherent_new (name : String) : ({ name } : Program).Coherent := by
  have empty : ∀ i, ({ name } : Program).fn i = default := fun i => by simp [fn]
  refine ⟨fun i lt => by simp at lt, fun v lt => by simp at lt, ?_, ?_, fun v lt => by simp at lt, ?_, ?_,
    ?_, ?_⟩ <;> simp [empty, Temp]

/-- Counters other than the temporaries' do not matter. -/
theorem Coherent.congr {q : Program} (c : p.Coherent) (values : q.values = p.values)
    (length : q.functions.length = p.functions.length)
    (same : ∀ i, (q.fn i).parent = (p.fn i).parent ∧ (q.fn i).inputs = (p.fn i).inputs ∧
      (q.fn i).statements = (p.fn i).statements ∧ (q.fn i).nextTmp = (p.fn i).nextTmp) :
    q.Coherent := by
  have value : ∀ v, q.value v = p.value v := fun v => by simp [value, values]
  have earlier : q.ParentsEarlier := fun i lt j parent =>
    c.parents i (length ▸ lt) j ((same i).1 ▸ parent)
  have roots : ∀ i, i < p.functions.length → q.root i = p.root i :=
    root_congr c.parents earlier (by omega) fun i _ => (same i).1
  have temp : ∀ v, q.Temp v ↔ p.Temp v := fun v => by simp [Temp, value, (same _).2.2.1]
  refine ⟨earlier, fun v lt => ?_, fun i => ?_, fun i => ?_, fun v lt => ?_, fun i => ?_, fun i => ?_,
    fun v t => ?_, fun v w tv tw => ?_⟩
  · rw [value, length]
    exact c.valueFn v (values ▸ lt)
  · simpa [(same i).2.1, value, values] using c.inputsOwn i
  · simpa [(same i).2.2.1, value, values] using c.outputsOwn i
  · rw [temp, value, (same _).2.1]
    exact c.owned v (values ▸ lt)
  · simpa [(same i).2.2.1, (same i).2.1] using c.operands i
  · simpa [(same i).2.1, value] using c.inputNames i
  · have t' := (temp v).1 t
    have lt := c.valueFn v (c.temp_lt t')
    rw [value, roots _ lt, (same _).2.2.2]
    exact c.tempNames v t'
  · have tv' := (temp v).1 tv
    have tw' := (temp w).1 tw
    rw [value, value, roots _ (c.valueFn v (c.temp_lt tv')), roots _ (c.valueFn w (c.temp_lt tw'))]
    exact c.tempsDistinct v w tv' tw'

end Coherence

end Program

namespace Program

section Preservation

variable {p : Program}

theorem split_snoc {α : Type} {old pre post : List α} {x y : α} (h : pre ++ y :: post = old ++ [x]) :
    (pre = old ∧ y = x) ∨ ∃ post', old = pre ++ y :: post' := by
  rcases List.eq_nil_or_concat post with rfl | ⟨post', z, rfl⟩
  · have := List.append_inj' h rfl
    exact .inl ⟨this.1, by simpa using this.2⟩
  · have := List.append_inj' (show (pre ++ y :: post') ++ [z] = old ++ [x] by simpa using h) rfl
    exact .inr ⟨post', this.1.symm⟩

/-- A new function or closure keeps the program coherent, its parent being an earlier function. -/
theorem Coherent.addFunction (c : p.Coherent) (name : String) {parent : Option Nat}
    (before : ∀ j, parent = some j → j < p.functions.length) : (p.addFunction name parent).1.Coherent := by
  have fn : ∀ i, (p.addFunction name parent).1.fn i =
      if i = p.functions.length then { name, parent } else p.fn i := fn_append p _
  have length : (p.addFunction name parent).1.functions.length = p.functions.length + 1 := by
    simp [Program.addFunction]
  have value : ∀ v, (p.addFunction name parent).1.value v = p.value v := fun _ => rfl
  have values : (p.addFunction name parent).1.values = p.values := rfl
  have earlier : (p.addFunction name parent).1.ParentsEarlier := by
    intro i lt j par
    rw [fn] at par
    split at par
    · rename_i here
      exact here ▸ before j par
    · exact c.parents i (by omega) j par
  have old : ∀ i, i < p.functions.length → (p.addFunction name parent).1.fn i = p.fn i := fun i lt => by
    rw [fn, if_neg (by omega)]
  have roots : ∀ i, i < p.functions.length → (p.addFunction name parent).1.root i = p.root i :=
    root_congr c.parents earlier (by omega) fun i lt => by rw [old i lt]
  have temp : ∀ v, (p.addFunction name parent).1.Temp v ↔ p.Temp v := fun v => by
    by_cases small : v < p.values.length
    · unfold Temp
      rw [value, old _ (c.valueFn v small)]
    · constructor
      · rintro ⟨st, mem, out⟩
        rw [value, fn] at mem
        split at mem
        · simp at mem
        · exact absurd (c.outputsOwn _ st mem v out).1 small
      · exact fun t => absurd (c.temp_lt t) small
  refine ⟨earlier, fun v lt => ?_, fun i => ?_, fun i => ?_, fun v lt => ?_, fun i => ?_, fun i => ?_,
    fun v t => ?_, fun v w tv tw => ?_⟩
  · have := c.valueFn v lt
    rw [value, length]
    omega
  · rw [fn]
    split
    · simp
    · simpa [value, values] using c.inputsOwn i
  · rw [fn]
    split
    · simp
    · simpa [value, values] using c.outputsOwn i
  · rw [temp, value, old _ (c.valueFn v lt)]
    exact c.owned v lt
  · rw [fn]
    split
    · simp
    · exact c.operands i
  · rw [fn]
    split
    · simp
    · simpa [value] using c.inputNames i
  · have t' := (temp v).1 t
    have lt := c.valueFn v (c.temp_lt t')
    rw [value, roots _ lt, old _ (root_lt c.parents _ lt)]
    exact c.tempNames v t'
  · have tv' := (temp v).1 tv
    have tw' := (temp w).1 tw
    rw [value, value, roots _ (c.valueFn v (c.temp_lt tv')), roots _ (c.valueFn w (c.temp_lt tw'))]
    exact c.tempsDistinct v w tv' tw'

/-- An input keeps the program coherent. -/
theorem Coherent.namedInput (c : p.Coherent) {fnId : Nat} (own : fnId < p.functions.length) (name : String)
    (shape : Shape) : (p.namedInput fnId name shape).1.Coherent := by
  set q := (p.namedInput fnId name shape).1 with hq
  have fn : ∀ i, q.fn i = { p.fn i with
      inputs := if i = fnId then (p.fn i).inputs ++ [p.values.length] else (p.fn i).inputs } :=
    fn_namedInput p own name shape
  have length : q.functions.length = p.functions.length := namedInput_functions p fnId name shape
  have value : ∀ v, q.value v = if v = p.values.length then
      { fn := fnId, name := Text.normalizeIdentifier name, shape } else p.value v :=
    value_of_values p (namedInput_values p fnId name shape)
  have values : q.values.length = p.values.length + 1 := by simp [hq]
  have earlier : q.ParentsEarlier := fun i lt j par => c.parents i (length ▸ lt) j (by simpa [fn] using par)
  have roots : ∀ i, i < p.functions.length → q.root i = p.root i :=
    root_congr c.parents earlier (by omega) fun i lt => by simp [fn]
  have old : ∀ v, v < p.values.length → q.value v = p.value v := fun v lt => by
    rw [value, if_neg (by omega)]
  have temp : ∀ v, q.Temp v ↔ p.Temp v := fun v => by
    by_cases small : v < p.values.length
    · simp [Temp, old v small, fn]
    · constructor
      · rintro ⟨st, mem, out⟩
        simp only [fn] at mem
        exact absurd (c.outputsOwn _ st mem v out).1 small
      · exact fun t => absurd (c.temp_lt t) small
  refine ⟨earlier, fun v lt => ?_, fun i => ?_, fun i => ?_, fun v lt => ?_, fun i => ?_, fun i => ?_,
    fun v t => ?_, fun v w tv tw => ?_⟩
  · rw [value, length]
    split
    · exact own
    · exact c.valueFn v (by omega)
  · intro v mem
    simp only [fn] at mem
    split at mem
    · rename_i here
      rcases List.mem_append.1 mem with before | new
      · obtain ⟨lt, owner⟩ := c.inputsOwn i v before
        exact ⟨by omega, by rw [old v lt]; exact owner⟩
      · rw [List.mem_singleton] at new
        subst new
        exact ⟨by omega, by simp [value, here]⟩
    · obtain ⟨lt, owner⟩ := c.inputsOwn i v mem
      exact ⟨by omega, by rw [old v lt]; exact owner⟩
  · intro st mem v out
    simp only [fn] at mem
    obtain ⟨lt, owner⟩ := c.outputsOwn i st mem v out
    exact ⟨by omega, by rw [old v lt]; exact owner⟩
  · rw [temp]
    by_cases new : v = p.values.length
    · left
      subst new
      simp [value, fn]
    · have small : v < p.values.length := by omega
      rw [old v small]
      rcases c.owned v small with input | t
      · left
        simp only [fn]
        split <;> simp [input]
      · exact .inr t
  · intro pre st post eq v mem
    simp only [fn] at eq ⊢
    rcases c.operands i pre st post eq v mem with input | before
    · left
      split <;> simp [input]
    · exact .inr before
  · intro v mem
    simp only [fn] at mem
    split at mem
    · rcases List.mem_append.1 mem with before | new
      · rw [old v (c.inputsOwn i v before).1]
        exact c.inputNames i v before
      · rw [List.mem_singleton] at new
        subst new
        exact ⟨name, by simp [value]⟩
    · rw [old v (c.inputsOwn i v mem).1]
      exact c.inputNames i v mem
  · have t' := (temp v).1 t
    have lt := c.temp_lt t'
    rw [old v lt, roots _ (c.valueFn v lt)]
    simpa [fn] using c.tempNames v t'
  · have tv' := (temp v).1 tv
    have tw' := (temp w).1 tw
    rw [old v (c.temp_lt tv'), old w (c.temp_lt tw'), roots _ (c.valueFn v (c.temp_lt tv')),
      roots _ (c.valueFn w (c.temp_lt tw'))]
    exact c.tempsDistinct v w tv' tw'

/-- An operation that passed its checks keeps the program coherent: its operands belong to the
function and exist, and its result is the next temporary of the function's root. -/
theorem Coherent.addOp (c : p.Coherent) {fnId : Nat} (own : fnId < p.functions.length) {op : Op}
    {ins : List Nat} {u : Unit} (checked : p.checkOpen fnId op ins = .ok u)
    (valid : ∀ v ∈ ins, v < p.values.length) (shape : Shape) (attrs : List (String × String))
    (regs : List Nat) : (p.addOp fnId op shape ins attrs regs).1.Coherent := by
  set q := (p.addOp fnId op shape ins attrs regs).1 with hq
  set r := p.root fnId with hr
  have rootLt : r < p.functions.length := root_lt c.parents fnId own
  set st : Statement :=
    { op := op, inputs := ins, attributes := attrs, regions := regs, outputs := [p.values.length] } with hst
  have fn : ∀ i, q.fn i = { p.fn i with
      statements := if i = fnId then (p.fn i).statements ++ [st] else (p.fn i).statements,
      nextTmp := if i = r then (p.fn i).nextTmp + 1 else (p.fn i).nextTmp } :=
    fn_addOp p own rootLt op shape ins attrs regs
  have length : q.functions.length = p.functions.length := addOp_functions p fnId op shape ins attrs regs
  have value : ∀ v, q.value v = if v = p.values.length then
      { fn := fnId, name := toString (p.fn r).nextTmp, shape } else p.value v :=
    value_of_values p (addOp_values p fnId op shape ins attrs regs)
  have values : q.values.length = p.values.length + 1 := by simp [hq]
  have old : ∀ v, v < p.values.length → q.value v = p.value v := fun v lt => by
    rw [value, if_neg (by omega)]
  have earlier : q.ParentsEarlier := fun i lt j par => c.parents i (length ▸ lt) j (by simpa [fn] using par)
  have roots : ∀ i, i < p.functions.length → q.root i = p.root i :=
    root_congr c.parents earlier (by omega) fun i lt => by simp [fn]
  have open' := checkOpen_ok checked
  have temp : ∀ v, q.Temp v ↔ p.Temp v ∨ v = p.values.length := fun v => by
    by_cases small : v < p.values.length
    · have notNew : v ≠ p.values.length := by omega
      simp only [Temp, old v small, fn, notNew, or_false]
      constructor
      · rintro ⟨st', mem, out⟩
        split at mem
        · rcases List.mem_append.1 mem with before | new
          · exact ⟨st', before, out⟩
          · rw [List.mem_singleton] at new
            subst new
            simp [hst, notNew] at out
        · exact ⟨st', mem, out⟩
      · rintro ⟨st', mem, out⟩
        exact ⟨st', by split <;> simp [mem], out⟩
    · by_cases new : v = p.values.length
      · subst new
        simp only [Temp, value, if_true, fn, or_true, iff_true]
        exact ⟨st, by simp, by simp [hst]⟩
      · simp only [new, or_false]
        constructor
        · rintro ⟨st', mem, out⟩
          rw [value, if_neg new] at mem
          simp only [fn] at mem
          split at mem
          · rcases List.mem_append.1 mem with before | added
            · exact absurd (c.outputsOwn _ st' before v out).1 small
            · rw [List.mem_singleton] at added
              subst added
              simp [hst, new] at out
          · exact absurd (c.outputsOwn _ st' mem v out).1 small
        · exact fun t => absurd (c.temp_lt t) small
  -- the new temporary is named by the counter of the root before it advances
  have newName : (q.value p.values.length).name = toString (p.fn r).nextTmp := by simp [value]
  have newRoot : q.root (q.value p.values.length).fn = r := by simp [value, roots fnId own, hr]
  have counter : ∀ j, (p.fn j).nextTmp ≤ (q.fn j).nextTmp := fun j => by
    simp only [fn]
    split <;> omega
  refine ⟨earlier, fun v lt => ?_, fun i => ?_, fun i => ?_, fun v lt => ?_, fun i => ?_, fun i => ?_,
    fun v t => ?_, fun v w tv tw => ?_⟩
  · rw [value, length]
    split
    · exact own
    · exact c.valueFn v (by omega)
  · intro v mem
    simp only [fn] at mem
    obtain ⟨lt, owner⟩ := c.inputsOwn i v mem
    exact ⟨by omega, by rw [old v lt]; exact owner⟩
  · intro st' mem v out
    simp only [fn] at mem
    split at mem
    · rename_i here
      rcases List.mem_append.1 mem with before | added
      · obtain ⟨lt, owner⟩ := c.outputsOwn i st' before v out
        exact ⟨by omega, by rw [old v lt]; exact owner⟩
      · rw [List.mem_singleton] at added
        subst added
        simp only [hst, List.mem_singleton] at out
        subst out
        exact ⟨by omega, by simp [value, here]⟩
    · obtain ⟨lt, owner⟩ := c.outputsOwn i st' mem v out
      exact ⟨by omega, by rw [old v lt]; exact owner⟩
  · rw [temp]
    by_cases new : v = p.values.length
    · exact .inr (.inr new)
    · have small : v < p.values.length := by omega
      rw [old v small]
      rcases c.owned v small with input | t
      · left
        simpa [fn] using input
      · exact .inr (.inl t)
  · intro pre st' post eq v mem
    simp only [fn] at eq ⊢
    split at eq
    · rename_i here
      subst here
      rcases split_snoc eq.symm with ⟨rfl, rfl⟩ | ⟨post', before⟩
      · have lt := valid v mem
        have owner := open'.2 v mem
        rcases c.owned v lt with input | ⟨st'', inFn, out⟩
        · exact .inl (owner ▸ input)
        · exact .inr ⟨st'', owner ▸ inFn, out⟩
      · exact c.operands i pre st' post' before v mem
    · exact c.operands i pre st' post eq v mem
  · intro v mem
    simp only [fn] at mem
    rw [old v (c.inputsOwn i v mem).1]
    exact c.inputNames i v mem
  · rcases (temp v).1 t with t' | rfl
    · have lt := c.temp_lt t'
      obtain ⟨k, below, named⟩ := c.tempNames v t'
      rw [old v lt, roots _ (c.valueFn v lt)]
      exact ⟨k, Nat.lt_of_lt_of_le below (counter _), named⟩
    · refine ⟨(p.fn r).nextTmp, ?_, newName⟩
      rw [newRoot]
      simp [fn]
  · rcases (temp v).1 tv with tv' | rfl <;> rcases (temp w).1 tw with tw' | rfl
    · rw [old v (c.temp_lt tv'), old w (c.temp_lt tw'), roots _ (c.valueFn v (c.temp_lt tv')),
        roots _ (c.valueFn w (c.temp_lt tw'))]
      exact c.tempsDistinct v w tv' tw'
    · intro sameRoot sameName
      obtain ⟨k, below, named⟩ := c.tempNames v tv'
      rw [old v (c.temp_lt tv'), roots _ (c.valueFn v (c.temp_lt tv')), newRoot] at sameRoot
      rw [old v (c.temp_lt tv'), newName, named] at sameName
      rw [sameRoot] at below
      exact absurd (toString_injective sameName) (by omega)
    · intro sameRoot sameName
      obtain ⟨k, below, named⟩ := c.tempNames w tw'
      rw [old w (c.temp_lt tw'), roots _ (c.valueFn w (c.temp_lt tw')), newRoot] at sameRoot
      rw [old w (c.temp_lt tw'), newName, named] at sameName
      rw [← sameRoot] at below
      exact absurd (toString_injective sameName) (by omega)
    · exact fun _ _ => rfl

/-- A return keeps the program coherent: its results belong to the function. -/
theorem Coherent.ret (c : p.Coherent) {fnId : Nat} (own : fnId < p.functions.length) {results : List Nat}
    {q : Program} (done : p.ret fnId results = .ok q) (valid : ∀ v ∈ results, v < p.values.length) :
    q.Coherent := by
  obtain ⟨checked, rfl⟩ := ret_eq p done
  set op : Op := if (p.fn fnId).parent.isSome then Op.«return» else .funcReturn
  set st : Statement := { op := op, inputs := results }
  set q := p.setFn fnId { p.fn fnId with
    returned := true, outputs := results.map fun v => (p.value v).shape,
    statements := (p.fn fnId).statements ++ [st] } with hq
  have fn : ∀ i, q.fn i = if i = fnId then { p.fn fnId with
      returned := true, outputs := results.map fun v => (p.value v).shape,
      statements := (p.fn fnId).statements ++ [st] } else p.fn i := fn_setFn p own _
  have parents : ∀ i, (q.fn i).parent = (p.fn i).parent := fun i => by
    rw [fn]
    split
    · rename_i here
      rw [here]
    · rfl
  have earlier : q.ParentsEarlier := fun i lt j par => c.parents i (by simpa [hq] using lt) j (parents i ▸ par)
  have roots : ∀ i, i < p.functions.length → q.root i = p.root i :=
    root_congr c.parents earlier (by simp [hq]) fun i _ => parents i
  have statements : ∀ i, (q.fn i).statements =
      if i = fnId then (p.fn i).statements ++ [st] else (p.fn i).statements := fun i => by
    rw [fn]
    split
    · rename_i here
      rw [here]
    · rfl
  have inputs : ∀ i, (q.fn i).inputs = (p.fn i).inputs := fun i => by
    rw [fn]
    split
    · rename_i here
      rw [here]
    · rfl
  have counters : ∀ i, (q.fn i).nextTmp = (p.fn i).nextTmp := fun i => by
    rw [fn]
    split
    · rename_i here
      rw [here]
    · rfl
  have values : q.values = p.values := values_setFn p fnId _
  have vals : ∀ v, q.value v = p.value v := fun v => value_setFn p fnId v _
  have temp : ∀ v, q.Temp v ↔ p.Temp v := fun v => by
    simp only [Temp, vals, statements]
    constructor
    · rintro ⟨st', mem, out⟩
      split at mem
      · rcases List.mem_append.1 mem with before | added
        · exact ⟨st', before, out⟩
        · rw [List.mem_singleton] at added
          subst added
          simp [st] at out
      · exact ⟨st', mem, out⟩
    · rintro ⟨st', mem, out⟩
      exact ⟨st', by split <;> simp [mem], out⟩
  have open' := checkOpen_ok checked
  refine ⟨earlier, fun v lt => ?_, fun i => ?_, fun i => ?_, fun v lt => ?_, fun i => ?_, fun i => ?_,
    fun v t => ?_, fun v w tv tw => ?_⟩
  · simpa [hq] using c.valueFn v (by simpa [hq] using lt)
  · simpa [inputs, values, vals] using c.inputsOwn i
  · intro st' mem v out
    rw [statements] at mem
    split at mem
    · rcases List.mem_append.1 mem with before | added
      · simpa [values, vals] using c.outputsOwn i st' before v out
      · rw [List.mem_singleton] at added
        subst added
        simp [st] at out
    · simpa [values, vals] using c.outputsOwn i st' mem v out
  · rw [temp, value_setFn, inputs]
    exact c.owned v (by simpa [hq] using lt)
  · intro pre st' post eq v mem
    rw [statements] at eq
    rw [inputs]
    split at eq
    · rename_i here
      subst here
      rcases split_snoc eq.symm with ⟨rfl, rfl⟩ | ⟨post', before⟩
      · have owner := open'.2 v mem
        rcases c.owned v (valid v mem) with input | ⟨st'', inFn, out⟩
        · exact .inl (owner ▸ input)
        · exact .inr ⟨st'', owner ▸ inFn, out⟩
      · exact c.operands i pre st' post' before v mem
    · exact c.operands i pre st' post eq v mem
  · simpa [inputs, vals] using c.inputNames i
  · have t' := (temp v).1 t
    rw [value_setFn, roots _ (c.valueFn v (c.temp_lt t')), counters]
    exact c.tempNames v t'
  · have tv' := (temp v).1 tv
    have tw' := (temp w).1 tw
    rw [value_setFn, value_setFn, roots _ (c.valueFn v (c.temp_lt tv')), roots _ (c.valueFn w (c.temp_lt tw'))]
    exact c.tempsDistinct v w tv' tw'

theorem Coherent.setFn (c : p.Coherent) {i : Nat} (lt : i < p.functions.length) {f : Function}
    (same : f.parent = (p.fn i).parent ∧ f.inputs = (p.fn i).inputs ∧ f.statements = (p.fn i).statements ∧
      f.nextTmp = (p.fn i).nextTmp) : (p.setFn i f).Coherent :=
  c.congr (values_setFn p i f) (functions_setFn p i f) fun j => by
    rw [fn_setFn p lt]
    split
    · rename_i here
      exact here ▸ same
    · exact ⟨rfl, rfl, rfl, rfl⟩

theorem Coherent.closure (c : p.Coherent) {fnId : Nat} (own : fnId < p.functions.length) :
    (p.closure fnId).1.Coherent := by
  have counted := c.setFn (root_lt c.parents fnId own)
    (f := { p.fn (p.root fnId) with nextClosure := (p.fn (p.root fnId)).nextClosure + 1 }) ⟨rfl, rfl, rfl, rfl⟩
  exact counted.addFunction _ fun j parent => by
    cases parent
    simpa using own

theorem Coherent.input (c : p.Coherent) {fnId : Nat} (own : fnId < p.functions.length) (shape : Shape) :
    (p.input fnId shape).1.Coherent := by
  rw [input_eq]
  exact (c.namedInput own _ shape).setFn (by simpa using own) ⟨rfl, rfl, rfl, rfl⟩

/-- A call that adds an operation and succeeds has passed the checks of the function it adds to,
which exists, on operands that exist, and adds the operation's statement. -/
theorem Coherent.call_operation (c : p.Coherent) {call : Call} (valid : call.Valid p)
    (adds : call.addsOperation = true) {q : Program} (done : p.call call = .ok q) :
    ∃ fnId op shape ins attrs regs, fnId < p.functions.length ∧ (∀ v ∈ ins, v < p.values.length) ∧
      p.checkOpen fnId op ins = .ok () ∧ q = (p.addOp fnId op shape ins attrs regs).1 := by
  cases call with
  | splatConstant f shape x =>
    obtain ⟨⟨q, v⟩, made, rfl⟩ := Except.map_eq_ok.1 done
    obtain ⟨⟨u, checked⟩, attrs, made⟩ := splatConstant_ok made
    exact ⟨_, _, _, _, _, _, valid, by simp, checked, congrArg Prod.fst made⟩
  | reshape x dims =>
    obtain ⟨⟨q, v⟩, made, rfl⟩ := Except.map_eq_ok.1 done
    obtain ⟨⟨u, checked⟩, out, -, made⟩ := reshape_ok made
    exact ⟨_, _, _, _, _, _, c.valueFn x valid, by simpa [Call.Valid] using valid, checked,
      congrArg Prod.fst made⟩
  | transpose x perm =>
    obtain ⟨⟨q, v⟩, made, rfl⟩ := Except.map_eq_ok.1 done
    obtain ⟨⟨u, checked⟩, out, -, made⟩ := transpose_ok made
    exact ⟨_, _, _, _, _, _, c.valueFn x valid, by simpa [Call.Valid] using valid, checked,
      congrArg Prod.fst made⟩
  | broadcastInDim x target mapping =>
    obtain ⟨⟨q, v⟩, made, rfl⟩ := Except.map_eq_ok.1 done
    obtain ⟨⟨u, checked⟩, -, -, -, made⟩ := broadcastInDim_ok made
    exact ⟨_, _, _, _, _, _, c.valueFn x valid, by simpa [Call.Valid] using valid, checked,
      congrArg Prod.fst made⟩
  | binary op lhs rhs =>
    obtain ⟨⟨q, v⟩, made, rfl⟩ := Except.map_eq_ok.1 done
    obtain ⟨-, ⟨u, checked⟩, -, made⟩ := binary_ok made
    exact ⟨_, _, _, _, _, _, c.valueFn lhs valid.1, by simpa [Call.Valid] using valid, checked,
      congrArg Prod.fst made⟩
  | reduce x init fnR axis =>
    obtain ⟨⟨q, v⟩, made, rfl⟩ := Except.map_eq_ok.1 done
    obtain ⟨⟨u, checked⟩, -, a, -, made⟩ := reduce_ok made
    exact ⟨_, _, _, _, _, _, c.valueFn x valid.1, by simp [valid.1, valid.2.1], checked,
      congrArg Prod.fst made⟩
  | _ => cases adds

/-- Every call that succeeds keeps the program coherent. -/
theorem Coherent.call (c : p.Coherent) {call : Call} (valid : call.Valid p) {q : Program}
    (done : p.call call = .ok q) : q.Coherent := by
  cases call with
  | newFunction name =>
    cases done
    exact c.addFunction name (by simp)
  | closure f =>
    cases done
    exact c.closure valid
  | input f shape =>
    cases done
    exact c.input valid shape
  | namedInput f name shape =>
    cases done
    exact c.namedInput valid name shape
  | ret f results => exact c.ret valid.1 done valid.2
  | _ =>
    obtain ⟨fnId, op, shape, ins, attrs, regs, own, exist, checked, rfl⟩ := c.call_operation valid rfl done
    exact c.addOp own checked exist shape attrs regs

theorem Coherent.step (c : p.Coherent) {call : Call} (valid : call.Valid p) : (p.step call).Coherent := by
  unfold Program.step
  split
  · rename_i q done
    exact c.call valid done
  · exact c

theorem Coherent.session : ∀ {p : Program} {cs : List Call}, p.Coherent → p.ValidSession cs →
    (p.session cs).Coherent
  | _, [], c, _ => c
  | _, _ :: _, c, ⟨valid, rest⟩ => by
    rw [session_cons]
    exact Coherent.session (c.step valid) rest

end Preservation

section Returned

/-- Program `q` holds function `i` of `p` as it was, with `added` after its inputs; counters
apart. -/
def Keeps (p q : Program) (i : Nat) (added : List Nat) : Prop :=
  (q.fn i).returned = (p.fn i).returned ∧ (q.fn i).outputs = (p.fn i).outputs ∧
    (q.fn i).statements = (p.fn i).statements ∧ (q.fn i).inputs = (p.fn i).inputs ++ added

theorem Keeps.refl (p : Program) (i : Nat) : Keeps p p i [] := by simp [Keeps]

theorem Keeps.trans {p q r : Program} {i : Nat} {a b : List Nat} (first : Keeps p q i a)
    (second : Keeps q r i b) : Keeps p r i (a ++ b) := by
  obtain ⟨r₁, o₁, s₁, in₁⟩ := first
  obtain ⟨r₂, o₂, s₂, in₂⟩ := second
  exact ⟨r₂.trans r₁, o₂.trans o₁, s₂.trans s₁, by rw [in₂, in₁, List.append_assoc]⟩

variable {p : Program}

theorem keeps_of_checkOpen {fnId : Nat} (c : p.Coherent) (own : fnId < p.functions.length) {op : Op}
    {ins : List Nat} (checked : p.checkOpen fnId op ins = .ok ()) (shape : Shape) (attrs : List (String × String))
    (regs : List Nat) {i : Nat} (returned : (p.fn i).returned = true) :
    Keeps p (p.addOp fnId op shape ins attrs regs).1 i [] := by
  have other : i ≠ fnId := by
    rintro rfl
    rw [(checkOpen_ok checked).1] at returned
    cases returned
  simp [Keeps, fn_addOp p own (root_lt c.parents fnId own), other]

/-- A call leaves a function that has returned as it was, except that an input call on it adds
the new value to its inputs: an input does not check whether its function has returned. -/
theorem Coherent.call_keeps (c : p.Coherent) {call : Call} (valid : call.Valid p) {q : Program}
    (done : p.call call = .ok q) {i : Nat} (lt : i < p.functions.length) (returned : (p.fn i).returned = true) :
    Keeps p q i (if call.addsInputTo i then [p.values.length] else []) := by
  cases call with
  | newFunction name =>
    cases done
    simp [Keeps, newFunction, Program.addFunction, fn_append, Nat.ne_of_lt lt, Call.addsInputTo]
  | closure f =>
    cases done
    simp only [Keeps, fn_closure p (root_lt c.parents f valid), if_neg (Nat.ne_of_lt lt), Call.addsInputTo]
    split <;> simp
  | input f shape =>
    cases done
    simp only [Keeps, fn_input p valid, Call.addsInputTo]
    by_cases here : i = f
    · subst here
      simp
    · simp [here, Ne.symm here]
  | namedInput f name shape =>
    cases done
    simp only [Keeps, fn_namedInput _ valid, Call.addsInputTo]
    by_cases here : i = f
    · subst here
      simp
    · simp [here, Ne.symm here]
  | ret f results =>
    obtain ⟨checked, rfl⟩ := ret_eq p done
    have other : i ≠ f := by
      rintro rfl
      rw [(checkOpen_ok checked).1] at returned
      cases returned
    simp [Keeps, fn_setFn p valid.1, other, Call.addsInputTo]
  | _ =>
    obtain ⟨fnId, op, shape, ins, attrs, regs, own, -, checked, rfl⟩ := c.call_operation valid rfl done
    simpa [Call.addsInputTo] using keeps_of_checkOpen c own checked shape attrs regs returned

theorem call_of_addsInputTo {call : Call} {i : Nat} (adds : call.addsInputTo i = true) :
    ∃ q, p.call call = .ok q := by
  cases call <;> simp_all [Call.addsInputTo, Program.call]

/-- Calls only add functions. -/
theorem Coherent.call_functions (c : p.Coherent) {call : Call} (valid : call.Valid p) {q : Program}
    (done : p.call call = .ok q) : p.functions.length ≤ q.functions.length := by
  cases call with
  | newFunction | closure | input | namedInput =>
    cases done
    simp [newFunction, Program.addFunction]
  | ret f results =>
    obtain ⟨-, rfl⟩ := ret_eq p done
    simp
  | _ =>
    obtain ⟨fnId, op, shape, ins, attrs, regs, -, -, -, rfl⟩ := c.call_operation valid rfl done
    simp

theorem Coherent.step_functions (c : p.Coherent) {call : Call} (valid : call.Valid p) :
    p.functions.length ≤ (p.step call).functions.length := by
  unfold Program.step
  split
  · rename_i q done
    exact c.call_functions valid done
  · exact le_rfl

theorem Coherent.step_keeps (c : p.Coherent) {call : Call} (valid : call.Valid p) {i : Nat}
    (lt : i < p.functions.length) (returned : (p.fn i).returned = true) :
    Keeps p (p.step call) i (if call.addsInputTo i then [p.values.length] else []) := by
  unfold Program.step
  split
  · rename_i q done
    exact c.call_keeps valid done lt returned
  · rename_i f failed
    -- only calls that cannot fail add inputs
    have quiet : call.addsInputTo i = false := by
      by_contra adds
      obtain ⟨q, done⟩ := call_of_addsInputTo (p := p) (Bool.of_not_eq_false adds)
      rw [done] at failed
      cases failed
    simpa [quiet] using Keeps.refl p i

/-- Over a session of valid calls, a function that has returned keeps its outputs and statements and
stays returned, and its inputs only grow, by input calls on it. -/
theorem Coherent.session_keeps : ∀ {p : Program} {cs : List Call}, p.Coherent → p.ValidSession cs →
    ∀ {i : Nat}, i < p.functions.length → (p.fn i).returned = true →
    ∃ added, Keeps p (p.session cs) i added ∧ ((∀ call ∈ cs, call.addsInputTo i = false) → added = [])
  | p, [], _, _, i, _, _ => ⟨[], Keeps.refl p i, fun _ => rfl⟩
  | p, call :: cs, c, ⟨valid, rest⟩, i, lt, returned => by
    have first := c.step_keeps valid lt returned
    obtain ⟨added, later, quiet⟩ := Coherent.session_keeps (c.step valid) rest
      (Nat.lt_of_lt_of_le lt (c.step_functions valid)) (first.1.trans returned)
    rw [session_cons]
    refine ⟨_, first.trans later, fun none => ?_⟩
    rw [none call List.mem_cons_self, quiet fun call' mem => none call' (List.mem_cons_of_mem _ mem)]
    rfl

end Returned

section Build

/-- Building succeeds exactly when every function, closures included, has returned and a root
function is named main. -/
theorem build_ok_iff (p : Program) :
    (∃ text, p.build = .ok text) ↔
      (∀ f ∈ p.functions, f.returned = true) ∧ ∃ f ∈ p.functions, f.name = "main" ∧ f.parent = none := by
  unfold build
  split
  · rename_i f found
    have unreturned : f.returned = false := by simpa using List.find?_some found
    have mem := List.mem_of_find?_eq_some found
    simp only [reduceCtorEq, exists_false, false_iff, not_and]
    intro all
    rw [all f mem] at unreturned
    cases unreturned
  · rename_i found
    have all : ∀ f ∈ p.functions, f.returned = true := by simpa using List.find?_eq_none.1 found
    have main : (p.functions.any fun f => f.name == "main" && f.parent.isNone) = true ↔
        ∃ f ∈ p.functions, f.name = "main" ∧ f.parent = none := by
      simp [List.any_eq_true, Option.isNone_iff_eq_none]
    split
    · rename_i named
      exact ⟨fun _ => ⟨all, main.1 named⟩, fun _ => ⟨_, rfl⟩⟩
    · rename_i unnamed
      exact ⟨fun ⟨_, failed⟩ => (nomatch failed), fun ⟨_, found⟩ => absurd (main.2 found) unnamed⟩

end Build

section Sessions

/-- The builder over sessions of valid calls from a new program, the first ending in `p` and the
second going on from it to `q`: a function that has returned in `p` stays returned in `q` with
the same outputs and statements, and its inputs only grow, by input calls on it; every operand of
a statement is an input of its function or an output of an earlier statement of it; the
temporaries are named by numerals, distinct within a root function and its closures and from
every input's name; and building `q` succeeds exactly when every function has returned and a
root function is named main. -/
theorem session_invariants (name : String) (pre post : List Call)
    (validPre : ({ name } : Program).ValidSession pre)
    (validPost : (({ name } : Program).session pre).ValidSession post) :
    let p := ({ name } : Program).session pre
    let q := p.session post
    (∀ i < p.functions.length, (p.fn i).returned = true →
      (q.fn i).returned = true ∧ (q.fn i).outputs = (p.fn i).outputs ∧
      (q.fn i).statements = (p.fn i).statements ∧ (p.fn i).inputs <+: (q.fn i).inputs ∧
      ((∀ call ∈ post, call.addsInputTo i = false) → (q.fn i).inputs = (p.fn i).inputs)) ∧
    (∀ i pre' st post', (q.fn i).statements = pre' ++ st :: post' →
      ∀ v ∈ st.inputs, v ∈ (q.fn i).inputs ∨ ∃ st' ∈ pre', v ∈ st'.outputs) ∧
    (∀ v, q.Temp v → ∃ k : Nat, (q.value v).name = toString k) ∧
    (∀ v w, q.Temp v → q.Temp w → q.root (q.value v).fn = q.root (q.value w).fn →
      (q.value v).name = (q.value w).name → v = w) ∧
    (∀ v, q.Temp v → ∀ i, ∀ w ∈ (q.fn i).inputs, (q.value v).name ≠ (q.value w).name) ∧
    ((∃ text, q.build = .ok text) ↔
      (∀ f ∈ q.functions, f.returned = true) ∧ ∃ f ∈ q.functions, f.name = "main" ∧ f.parent = none) := by
  intro p q
  have cp : p.Coherent := (coherent_new name).session validPre
  have cq : q.Coherent := cp.session validPost
  refine ⟨fun i lt returned => ?_, cq.operands, fun v t => ?_, cq.tempsDistinct, fun v t i w input => ?_,
    build_ok_iff q⟩
  · obtain ⟨added, ⟨r, o, st, ins⟩, quiet⟩ := cp.session_keeps validPost lt returned
    refine ⟨r.trans returned, o, st, ⟨added, ins.symm⟩, fun none => ?_⟩
    rw [ins, quiet none, List.append_nil]
  · obtain ⟨k, -, named⟩ := cq.tempNames v t
    exact ⟨k, named⟩
  · obtain ⟨k, -, named⟩ := cq.tempNames v t
    obtain ⟨s, normalized⟩ := cq.inputNames i w input
    rw [named, normalized]
    exact toString_ne_normalizeIdentifier k s

/-- A session that returns from main, then adds an input to it: both sessions are valid, main keeps
its statements, and the program builds. -/
theorem session_invariants_after_return :
    ({ name := "m" } : Program).ValidSession [.newFunction "main", .input 0 ⟨.float32, [2]⟩, .ret 0 [0]] ∧
    (({ name := "m" } : Program).session [.newFunction "main", .input 0 ⟨.float32, [2]⟩, .ret 0 [0]]).ValidSession
      [.input 0 ⟨.float32, [3]⟩] ∧
    (((({ name := "m" } : Program).session [.newFunction "main", .input 0 ⟨.float32, [2]⟩, .ret 0 [0]]).session
      [.input 0 ⟨.float32, [3]⟩]).fn 0).statements =
      ((({ name := "m" } : Program).session [.newFunction "main", .input 0 ⟨.float32, [2]⟩, .ret 0 [0]]).fn 0).statements ∧
    ∃ text, ((({ name := "m" } : Program).session [.newFunction "main", .input 0 ⟨.float32, [2]⟩, .ret 0 [0]]).session
      [.input 0 ⟨.float32, [3]⟩]).build = .ok text := by
  have valid : ({ name := "m" } : Program).ValidSession [.newFunction "main", .input 0 ⟨.float32, [2]⟩, .ret 0 [0]] ∧
      (({ name := "m" } : Program).session [.newFunction "main", .input 0 ⟨.float32, [2]⟩, .ret 0 [0]]).ValidSession
        [.input 0 ⟨.float32, [3]⟩] := by
    simp only [ValidSession, Call.Valid, and_true]
    decide
  have facts := session_invariants "m" _ _ valid.1 valid.2
  exact ⟨valid.1, valid.2, (facts.1 0 (by decide) (by decide)).2.2.1, facts.2.2.2.2.2.2 (by decide)⟩

end Sessions

/-- An input call on main after it has returned succeeds: main, returned with one input, ends up
with two. -/
theorem input_after_return :
    ((({ name := "m" } : Program).session
      [.newFunction "main", .input 0 ⟨.float32, [2]⟩, .ret 0 [0]]).fn 0).returned = true ∧
    ((({ name := "m" } : Program).session
      [.newFunction "main", .input 0 ⟨.float32, [2]⟩, .ret 0 [0]]).fn 0).inputs = [0] ∧
    ((({ name := "m" } : Program).session
      [.newFunction "main", .input 0 ⟨.float32, [2]⟩, .ret 0 [0], .input 0 ⟨.float32, [3]⟩]).fn 0).inputs = [0, 1] := by
  decide

end Program

end Rearrange.Hlo

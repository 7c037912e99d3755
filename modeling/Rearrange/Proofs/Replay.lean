import Rearrange.Proofs.OutputLayout
/-!
# What a compiled plan records

A plan records the shape after each of its steps. Before the join the arrays are the inputs: a
split replaces the input it names, and every other step leaves its one output
(`Step.recorded`). A plan replays (`Plan.Replays`) when each step computes, by the shape rules,
the output it records from the shapes recorded before it.

Compiling checks exactly this before it returns a plan, so a compiled plan replays from its
inputs and ends with its output (`Plan.compile_replays`). Its steps are also well formed in two
ways that the shape rules do not look at (`Step.Compiled`): a split names its input by a position
from 0, and a merge records the dimensions of its output, all positive. A pattern describes at
least one input, so a compiled plan has one, of a valid element type.
-/
namespace Rearrange

theorem Shape.same_iff {s t : Shape} : s.same t = true ↔ s = t := by
  cases s
  cases t
  simp [Shape.same, Shape.sameDims]

/-- The shapes after a step, as the plan records them: a split replaces the array it names, any
other step leaves its one output. -/
def Step.recorded (s : Step) (current : List Shape) : List Shape :=
  if s.kind = .reshapeSplit then current.set s.input.toNat s.output else [s.output]

/-- What the compiler's steps satisfy beyond their shape rules: a split names its input by a
position from 0, and a merge records the dimensions of its output, all positive. -/
structure Step.Compiled (s : Step) : Prop where
  input_nonneg : s.kind = .reshapeSplit → 0 ≤ s.input
  merge_dims : s.kind = .reshapeMerge → s.dims = s.output.dims ∧ ∀ d ∈ s.dims, 0 < d

theorem Step.recorded_ne_nil (s : Step) {current : List Shape} (nonempty : current ≠ []) :
    s.recorded current ≠ [] := by
  unfold Step.recorded
  split
  · simpa [← List.length_pos_iff] using List.length_pos_iff.2 nonempty
  · simp

namespace Pattern

/-- The inputs read up to the arrow are never none: each comma is followed by one more. -/
theorem Reader.inputs_ne_nil (r : Reader) : ∀ (n : Nat) (toks : List Token), toks.length = n →
    ∀ pos done ins rest, r.inputs pos done toks = .ok (ins, rest) → ins ≠ [] := by
  intro n
  induction n using Nat.strong_induction_on with
  | _ n ih =>
    intro toks len pos done ins rest h
    rw [Reader.inputs] at h
    obtain ⟨⟨pos', d, u⟩, -, h⟩ := Except.bind_eq_ok.1 h
    dsimp only at h
    split at h
    · cases h
    · rename_i t after eq
      split at h
      · have shorter : after.length < n := by
          have := u.2
          rw [eq, List.length_cons] at this
          omega
        exact ih _ shorter after rfl _ _ _ _ h
      · split at h
        · cases h
          simp
        · cases h

theorem parse_inputs {text : String} {n : Int} {sizes : List (String × Int)} {e : Expression}
    (ok : Expression.parse text n sizes = .ok e) : e.inputs ≠ [] ∧ (e.inputs.length : Int) = n := by
  unfold Expression.parse at ok
  obtain ⟨toks, -, ok⟩ := Except.bind_eq_ok.1 ok
  obtain ⟨⟨ds, rest⟩, read, ok⟩ := Except.bind_eq_ok.1 ok
  dsimp only at ok
  obtain ⟨arity, ok⟩ := Except.ite_throw_ok ok
  obtain ⟨names, -, ok⟩ := Except.bind_eq_ok.1 ok
  obtain ⟨out, -, ok⟩ := Except.bind_eq_ok.1 ok
  cases ok
  exact ⟨Reader.inputs_ne_nil _ _ toks rfl _ _ _ _ read, not_not.1 arity⟩

end Pattern

namespace Plan

open Pattern

/-- The shapes after the steps, as the plan records them. -/
def recordedAfter (current : List Shape) (steps : List Step) : List Shape :=
  steps.foldl (fun shapes s => s.recorded shapes) current

@[simp] theorem recordedAfter_nil (current : List Shape) : recordedAfter current [] = current := rfl

@[simp] theorem recordedAfter_cons (current : List Shape) (s : Step) (rest : List Step) :
    recordedAfter current (s :: rest) = recordedAfter (s.recorded current) rest := rfl

theorem recordedAfter_append (current : List Shape) (first second : List Step) :
    recordedAfter current (first ++ second) = recordedAfter (recordedAfter current first) second := by
  simp [recordedAfter, List.foldl_append]

/-- Every step computes, by the shape rules, the output it records from the shapes recorded before
it. -/
def Replays : List Shape → List Step → Prop
  | _, [] => True
  | current, s :: rest => inferStep s current = .ok s.output ∧ Replays (s.recorded current) rest

theorem replays_append : ∀ (current : List Shape) (first second : List Step),
    Replays current (first ++ second) ↔ Replays current first ∧ Replays (recordedAfter current first) second
  | current, [], second => by simp [Replays]
  | current, s :: rest, second => by
    simp only [List.cons_append, Replays, recordedAfter_cons, replays_append _ rest second, and_assoc]

section Verify

variable {e : Expression} {a : Assembly}

theorem checkStep_ok {current : List Shape} {s : Step} {i : Nat} {after : List Shape}
    (ok : checkStep e a current s i = .ok after) :
    inferStep s current = .ok s.output ∧ after = s.recorded current := by
  unfold checkStep at ok
  obtain ⟨-, -, ok⟩ := Except.bind_eq_ok.1 ok
  obtain ⟨out, inferred, ok⟩ := Except.bind_eq_ok.1 ok
  obtain ⟨same, ok⟩ := Except.ite_throw_ok ok
  have recorded : out = s.output := Shape.same_iff.1 (by simpa using same)
  subst recorded
  exact ⟨Except.mapError_eq_ok.1 inferred, (Except.ok.inj ok).symm⟩

/-- The loop of the check replays the steps, from the position `n` on. -/
theorem forIn_checkStep : ∀ (steps : List Step) (n : Nat) (current final : List Shape),
    forIn (steps.zipIdx n) current (fun (x : Step × Nat) (shapes : List Shape) => do
      let shapes ← checkStep e a shapes x.1 x.2
      pure (ForInStep.yield shapes)) = .ok final →
    Replays current steps ∧ final = recordedAfter current steps
  | [], n, current, final, done => by
    simp only [List.zipIdx_nil, List.forIn_nil] at done
    cases done
    exact ⟨trivial, rfl⟩
  | s :: rest, n, current, final, done => by
    rw [List.zipIdx_cons, List.forIn_cons] at done
    obtain ⟨r, first, done⟩ := Except.bind_eq_ok.1 done
    obtain ⟨after, checked, first⟩ := Except.bind_eq_ok.1 first
    cases first
    obtain ⟨inferred, rfl⟩ := checkStep_ok checked
    obtain ⟨replays, recorded⟩ := forIn_checkStep rest (n + 1) _ final done
    exact ⟨⟨inferred, replays⟩, recorded⟩

/-- A plan that passes the check replays from its inputs and ends with its output. -/
theorem verify_replays {inputs : List Shape} {output : Shape} {u : Unit}
    (ok : verify e a inputs output = .ok u) :
    Replays inputs a.steps ∧ recordedAfter inputs a.steps = [output] := by
  unfold verify at ok
  dsimp only at ok
  obtain ⟨final, loop, ok⟩ := Except.bind_eq_ok.1 ok
  obtain ⟨replays, rfl⟩ := forIn_checkStep a.steps 0 inputs final loop
  obtain ⟨single, -⟩ := Except.ite_throw_ok ok
  simp only [Bool.or_eq_true, decide_eq_true_eq, Bool.not_eq_true', not_or, Bool.not_eq_false] at single
  obtain ⟨one, same⟩ := single
  obtain ⟨last, hlast⟩ := List.length_eq_one_iff.1 (not_not.1 one)
  rw [hlast, List.headD_cons, Shape.same_iff] at same
  exact ⟨replays, by rw [hlast, same]⟩

end Verify

section Steps

theorem foldlM_rel {σ α : Type} {f : σ → α → Except Failure σ} {R : σ → σ → Prop}
    (refl : ∀ s, R s s) (trans : ∀ {s t u}, R s t → R t u → R s u)
    (step : ∀ s x s', f s x = .ok s' → R s s') :
    ∀ (xs : List α) (s s' : σ), xs.foldlM f s = .ok s' → R s s'
  | [], s, s', done => by
    cases done
    exact refl s
  | x :: xs, s, s', done => by
    rw [List.foldlM_cons] at done
    obtain ⟨t, first, rest⟩ := Except.bind_eq_ok.1 done
    exact trans (step s x t first) (foldlM_rel refl trans step xs t s' rest)

/-- A loop whose every round relates the state to the next relates the first to the last. -/
theorem forIn_rel {σ α : Type} {f : α → σ → Except Failure σ} {R : σ → σ → Prop}
    (refl : ∀ s, R s s) (trans : ∀ {s t u}, R s t → R t u → R s u)
    (step : ∀ x s s', f x s = .ok s' → R s s') :
    ∀ (xs : List α) (s s' : σ), forIn xs s (fun x s => do
      let s ← f x s
      pure (ForInStep.yield s)) = .ok s' → R s s'
  | [], s, s', done => by
    cases done
    exact refl s
  | x :: xs, s, s', done => by
    rw [List.forIn_cons] at done
    obtain ⟨r, first, rest⟩ := Except.bind_eq_ok.1 done
    obtain ⟨t, stepped, first⟩ := Except.bind_eq_ok.1 first
    cases first
    exact trans (step x s t stepped) (forIn_rel refl trans step xs t s' rest)

namespace Assembly

/-- `a'` holds the steps of `a`, and after them only well-formed ones. -/
def Extends (a a' : Assembly) : Prop :=
  ∃ extra, a'.steps = a.steps ++ extra ∧ ∀ s ∈ extra, s.Compiled

theorem Extends.refl (a : Assembly) : a.Extends a := ⟨[], by simp, by simp⟩

theorem Extends.trans {a b c : Assembly} (first : a.Extends b) (second : b.Extends c) : a.Extends c := by
  obtain ⟨x, hx, cx⟩ := first
  obtain ⟨y, hy, cy⟩ := second
  refine ⟨x ++ y, by rw [hy, hx, List.append_assoc], fun s mem => ?_⟩
  rcases List.mem_append.1 mem with inX | inY
  · exact cx s inX
  · exact cy s inY

theorem Extends.of_steps {a a' : Assembly} (same : a'.steps = a.steps) : a.Extends a' :=
  ⟨[], by simp [same], by simp⟩

/-- Matching a member of a group records its size and adds no step. -/
theorem groupMember_steps {i : Nat} {x : Int} {st st' : Assembly × Int × List Int} {m : Axis}
    (h : groupMember i x st m = .ok st') : st'.1.steps = st.1.steps := by
  obtain ⟨a, g, acc⟩ := st
  unfold groupMember at h
  dsimp only at h
  -- a derived member is checked first; either way the size is recorded and the product taken
  split at h
  · split at h
    · cases h
    · split at h
      · cases h
      · simp only [pure_bind] at h
        split at h
        · cases h
        · cases h
          simp
  · simp only [pure_bind] at h
    split at h
    · cases h
    · cases h
      simp

/-- Matching a dimension of an input to its axes adds no step. -/
theorem splitDim_steps {i : Nat} {d : Decomposition} {shape : Shape} {st st' : Assembly × List Int × Nat}
    {dim : Dim} (h : splitDim i d shape st dim = .ok st') : st'.1.steps = st.1.steps := by
  obtain ⟨a, acc, n⟩ := st
  unfold splitDim at h
  dsimp only at h
  split at h
  · obtain ⟨ed, -, h⟩ := Except.bind_eq_ok.1 h
    cases h
    rfl
  · obtain ⟨inputDim, -, h⟩ := Except.bind_eq_ok.1 h
    split at h
    · split at h
      · split at h
        · cases h
        · cases h
          simp
      · cases h
    · obtain ⟨⟨a', g, acc'⟩, folded, h⟩ := Except.bind_eq_ok.1 h
      have same : a'.steps = a.steps :=
        foldlM_rel (R := fun s s' : Assembly × Int × List Int => s'.1.steps = s.1.steps) (fun _ => rfl)
          (fun first second => second.trans first) (fun _ _ _ h => groupMember_steps h) _ _ _ folded
      obtain ⟨-, h⟩ := Except.ite_throw_ok h
      cases h
      exact same

/-- Fitting an input to its shape adds at most a split of that input. -/
theorem split_extends {a a' : Assembly} {i : Nat} {d : Decomposition} {shape : Shape}
    (h : a.split i d shape = .ok a') : a.Extends a' := by
  have tail : ∀ (a₁ : Assembly) (x : Assembly × List Int × Nat),
      d.dims.foldlM (splitDim i d shape) (a₁, [], 0) = .ok x → a₁.steps = a.steps →
      a.Extends { (if d.hasGroups = true then { x.1 with steps := x.1.steps ++
        [{ kind := StepKind.reshapeSplit, input := i, dims := x.2.1, output := shape.withDims x.2.1 }] }
        else x.1) with dims := x.1.dims ++ x.2.1 } := by
    intro a₁ x folded same
    have kept : x.1.steps = a.steps :=
      (foldlM_rel (R := fun s s' : Assembly × List Int × Nat => s'.1.steps = s.1.steps) (fun _ => rfl)
        (fun first second => second.trans first) (fun _ _ _ h => splitDim_steps h) _ _ _ folded).trans same
    split
    · refine ⟨[{ kind := .reshapeSplit, input := i, dims := x.2.1, output := shape.withDims x.2.1 }],
        by simp [kept], ?_⟩
      simp only [List.mem_singleton, forall_eq]
      exact ⟨fun _ => Int.natCast_nonneg i, fun merge => by cases merge⟩
    · exact Extends.of_steps kept
  unfold split at h
  dsimp only at h
  split at h
  · split at h
    · cases h
    · simp only [pure_bind] at h
      obtain ⟨x, folded, h⟩ := Except.bind_eq_ok.1 h
      cases h
      exact tail _ x folded rfl
  · split at h
    · cases h
    · simp only [pure_bind] at h
      obtain ⟨x, folded, h⟩ := Except.bind_eq_ok.1 h
      cases h
      exact tail _ x folded rfl

theorem emit_extends {a a₀ a' : Assembly} {s : Step} (h : a₀.emit s = .ok a') (same : a₀.steps = a.steps)
    (notSplit : s.kind ≠ .reshapeSplit) (merged : s.kind = .reshapeMerge → s.dims = a₀.dims) :
    a.Extends a' := by
  unfold emit at h
  obtain ⟨out, made, h⟩ := Except.bind_eq_ok.1 h
  obtain ⟨rfl, pos⟩ := Shape.make_ok made
  cases h
  refine ⟨_, by rw [same], ?_⟩
  simp only [List.mem_singleton, forall_eq]
  exact ⟨fun split => absurd split notSplit, fun merge => ⟨merged merge, merged merge ▸ pos⟩⟩

theorem reduceAll_extends {a a' : Assembly} {rs : List ReducedAxis} (h : a.reduceAll rs = .ok a') :
    a.Extends a' := by
  unfold reduceAll at h
  refine foldlM_rel Extends.refl Extends.trans (fun b r b' step => ?_) _ _ _ h
  obtain ⟨-, step⟩ := Except.ite_throw_ok step
  dsimp only at step
  obtain ⟨dims, -, step⟩ := Except.bind_eq_ok.1 step
  exact emit_extends step rfl (by simp) (by simp)

theorem permute_extends {a a' : Assembly} {order : List Index} (h : a.permute order = .ok a') :
    a.Extends a' := by
  unfold permute at h
  dsimp only at h
  obtain ⟨-, h⟩ := Except.ite_throw_ok h
  split at h
  · cases h
    exact Extends.refl a
  · obtain ⟨dims, -, h⟩ := Except.bind_eq_ok.1 h
    exact emit_extends h rfl (by simp) (by simp)

theorem repeatAll_extends {a a' : Assembly} {news : List NewAxis} (h : a.repeatAll news = .ok a') :
    a.Extends a' := by
  unfold repeatAll at h
  refine foldlM_rel Extends.refl Extends.trans (fun b n b' step => ?_) _ _ _ h
  dsimp only at step
  obtain ⟨-, step⟩ := Except.ite_throw_ok step
  obtain ⟨dims, -, step⟩ := Except.bind_eq_ok.1 step
  obtain ⟨-, step⟩ := Except.ite_throw_ok step
  exact emit_extends step (by split <;> simp) (by simp) (by simp)

theorem merge_extends {a a' : Assembly} {slots : List Slot} (h : a.merge slots = .ok a') :
    a.Extends a' := by
  unfold merge at h
  dsimp only at h
  split at h
  · cases h
    exact Extends.refl a
  · obtain ⟨-, h⟩ := Except.ite_throw_ok h
    obtain ⟨dims, -, h⟩ := Except.bind_eq_ok.1 h
    exact emit_extends h rfl (by simp) (fun _ => rfl)

/-- The stages after the join: reductions, permutation, new axes and merge, then the check. -/
theorem stages_extends {e : Expression} {inputs : List Shape} {opts : CompileOptions} {a₁ : Assembly}
    {plan : Plan}
    (h : (do
      let a ← a₁.reduceAll e.reductions
      let a ← a.permute e.permutation
      let a ← a.repeatAll e.newAxes
      let a ← a.merge e.output
      let output ← Shape.make a.dtype a.dims
      verify e a inputs output
      pure { name := opts.planName, pattern := e.pattern, inputs, output, steps := a.steps,
             axisSizes := a.axisSizes, ellipsisDims := a.ellipsisDims } : Except Failure Plan) = .ok plan) :
    ∃ a, a₁.Extends a ∧ verify e a inputs plan.output = .ok () ∧ plan.inputs = inputs ∧ plan.steps = a.steps := by
  obtain ⟨a₂, reduced, h⟩ := Except.bind_eq_ok.1 h
  obtain ⟨a₃, permuted, h⟩ := Except.bind_eq_ok.1 h
  obtain ⟨a₄, repeated, h⟩ := Except.bind_eq_ok.1 h
  obtain ⟨a₅, merged, h⟩ := Except.bind_eq_ok.1 h
  obtain ⟨output, -, h⟩ := Except.bind_eq_ok.1 h
  obtain ⟨u, verified, h⟩ := Except.bind_eq_ok.1 h
  cases h
  exact ⟨a₅, ((reduceAll_extends reduced).trans (permute_extends permuted)).trans
    ((repeatAll_extends repeated).trans (merge_extends merged)), verified, rfl, rfl⟩

end Assembly

end Steps

section Compile

theorem forIn_checks {σ α : Type} {body : α → σ → Except Failure (ForInStep σ)} {P : α → Prop}
    (round : ∀ x s r, body x s = .ok r → P x ∧ ∃ s', r = .yield s') :
    ∀ (xs : List α) (s s' : σ), forIn xs s body = .ok s' → ∀ x ∈ xs, P x
  | [], _, _, _ => by simp
  | x :: xs, s, s', done => by
    rw [List.forIn_cons] at done
    obtain ⟨r, first, rest⟩ := Except.bind_eq_ok.1 done
    obtain ⟨checked, t, rfl⟩ := round x s r first
    exact List.forall_mem_cons.2 ⟨checked, forIn_checks round xs t s' rest⟩

/-- Every input of a plan that is laid out has a valid element type. -/
theorem checkDTypes_ok {pattern : String} {inputs : List Shape} {dtype : DType}
    (ok : checkDTypes pattern inputs = .ok dtype) : ∀ s ∈ inputs, s.ok := by
  unfold checkDTypes at ok
  dsimp only at ok
  obtain ⟨final, loop, -⟩ := Except.bind_eq_ok.1 ok
  have all := forIn_checks (P := fun x : Shape × Nat => x.1.ok = true) (fun x d r h => by
    obtain ⟨valid, h⟩ := Except.ite_throw_ok h
    refine ⟨by simpa using valid, ?_⟩
    split at h
    · cases h
      exact ⟨_, rfl⟩
    · obtain ⟨-, h⟩ := Except.ite_throw_ok h
      cases h
      exact ⟨_, rfl⟩) _ _ _ loop
  intro s mem
  obtain ⟨x, inZip, rfl⟩ := List.mem_map.1 ((List.zipIdx_map_fst 0 inputs).symm ▸ mem)
  exact all x inZip

/-- What compiling checks of a plan: it has inputs, of valid element types; its steps replay from
them and end with its output; and they are well formed. -/
structure Checked (plan : Plan) : Prop where
  inputs_ne_nil : plan.inputs ≠ []
  inputs_ok : ∀ s ∈ plan.inputs, s.ok
  replays : Replays plan.inputs plan.steps
  ends : recordedAfter plan.inputs plan.steps = [plan.output]
  compiled : ∀ s ∈ plan.steps, s.Compiled

/-- A plan that is laid out for some inputs is checked. -/
theorem assemble_checked {e : Expression} {inputs : List Shape} {opts : CompileOptions} {plan : Plan}
    (nonempty : inputs ≠ []) (ok : assemble e inputs opts = .ok plan) : plan.Checked := by
  unfold assemble at ok
  obtain ⟨dtype, typed, ok⟩ := Except.bind_eq_ok.1 ok
  obtain ⟨a₀, loop, ok⟩ := Except.bind_eq_ok.1 ok
  obtain ⟨-, -, ok⟩ := Except.bind_eq_ok.1 ok
  have split : Assembly.Extends { pattern := e.pattern, dtype } a₀ :=
    forIn_rel Assembly.Extends.refl Assembly.Extends.trans (fun _ _ _ h => Assembly.split_extends h) _ _ _ loop
  obtain ⟨a, staged, verified, same, steps⟩ : ∃ a, Assembly.Extends { pattern := e.pattern, dtype } a ∧
      verify e a inputs plan.output = .ok () ∧ plan.inputs = inputs ∧ plan.steps = a.steps := by
    split at ok
    · obtain ⟨a₁, joined, ok⟩ := Except.bind_eq_ok.1 ok
      obtain ⟨a, staged, rest⟩ := Assembly.stages_extends ok
      exact ⟨a, split.trans ((Assembly.emit_extends joined rfl (by simp) (by simp)).trans staged), rest⟩
    · obtain ⟨a, staged, rest⟩ := Assembly.stages_extends ok
      exact ⟨a, split.trans staged, rest⟩
  obtain ⟨replays, ends⟩ := verify_replays verified
  obtain ⟨extra, initial, compiled⟩ := staged
  -- laying out starts with no steps, so every step is one added on the way
  have all : a.steps = extra := by simpa using initial
  refine ⟨same ▸ nonempty, same ▸ checkDTypes_ok typed, ?_, ?_, ?_⟩
  · rw [same, steps]
    exact replays
  · rw [same, steps]
    exact ends
  · rw [steps, all]
    exact compiled

theorem compile_checked {pattern : String} {inputs : List Shape} {opts : CompileOptions} {plan : Plan}
    (ok : compile pattern inputs opts = .ok plan) : plan.Checked := by
  unfold compile at ok
  obtain ⟨e, parsed, ok⟩ := Except.bind_eq_ok.1 ok
  obtain ⟨described, arity⟩ := Pattern.parse_inputs (Except.mapError_eq_ok.1 parsed)
  have nonempty : inputs ≠ [] := by
    intro none
    rw [none, List.length_nil, Nat.cast_zero, Nat.cast_eq_zero, List.length_eq_zero_iff] at arity
    exact described arity
  exact assemble_checked nonempty (Except.mapError_eq_ok.1 ok)

end Compile

end Plan

end Rearrange

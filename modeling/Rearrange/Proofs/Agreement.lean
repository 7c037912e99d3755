import Rearrange.Proofs.Lowering
/-!
# The two executors of a plan

A plan runs on an array library (`Plan.apply`) and lowers to a StableHLO program (`Hlo.lowerPlan`).
The two read different fields of a step. The library runs each step's own fields through its
shape rules and compares only the final shape with the plan's output; the lowering broadcasts a
repeat or a join to the output the step records, and never reads the repeat's count.

On a plan whose steps replay their recorded shapes (`Plan.Checked`) the two agree. The reference
backend runs it on sound arrays of its input shapes, each step leaving sound arrays of the recorded
shapes, as long as the array each step makes fits one block of the backend (`apply_checked`); and
the lowering succeeds but for a min or max reduction without a starting literal
(`executors_accept_checked`). On a hand-built plan whose repeat count disagrees with the output
it records they part: the lowering builds a program, and the library fails
(`repeat_count_unread`).
-/
namespace Rearrange

open Word

namespace Tensor

theorem blockLimit_le_max : blockLimit ≤ maxInt64 := by decide

/-- A fold whose every step reserves room for the product of the counts so far and the next
array's, and multiplies them, succeeds when the product of all fits a block. -/
theorem foldlM_product_ok {ε : Type} (f : Array Float → Tensor → Except ε (Array Float))
    (step : ∀ acc x, ((acc.size * x.flat.size : Nat) : Int) ≤ blockLimit →
      ∃ b, f acc x = .ok b ∧ b.size = acc.size * x.flat.size) :
    ∀ (xs : List Tensor) (acc : Array Float), (∀ x ∈ xs, 0 < x.flat.size) →
      ((acc.size * (xs.map (·.flat.size)).prod : Nat) : Int) ≤ blockLimit → ∃ flat, xs.foldlM f acc = .ok flat
  | [], acc, _, _ => ⟨acc, rfl⟩
  | x :: xs, acc, pos, small => by
    have later : 0 < (xs.map (·.flat.size)).prod :=
      List.prod_pos fun n mem => by
        obtain ⟨y, mem', rfl⟩ := List.mem_map.1 mem
        exact pos y (by simp [mem'])
    -- the product so far is at most the product of all
    have first : ((acc.size * x.flat.size : Nat) : Int) ≤ blockLimit := by
      refine le_trans (Int.ofNat_le.2 ?_) small
      simpa [Nat.mul_assoc] using Nat.le_mul_of_pos_right (acc.size * x.flat.size) later
    obtain ⟨b, stepped, size⟩ := step acc x first
    obtain ⟨flat, rest⟩ := foldlM_product_ok f step xs b (fun y mem => pos y (by simp [mem]))
      (by simpa [size, Nat.mul_assoc] using small)
    exact ⟨flat, by rw [List.foldlM_cons, stepped]; exact rest⟩

/-- A join of sound arrays whose joined shape the rule accepts and fits a block succeeds. -/
theorem join_succeeds {xs : List Tensor} (sound : ∀ x ∈ xs, x.Sound) {r : Shape}
    (h : Shape.join (xs.map (·.shape)) = .ok r) (small : (positionCount r.dims : Int) ≤ blockLimit) :
    ∃ t, Tensor.join xs = .ok t := by
  obtain ⟨dims, pos⟩ := join_shape_ok h
  have counts : (xs.map fun x => (x.shape.dims.map Int.toNat).prod) = xs.map (·.flat.size) :=
    List.map_congr_left fun x mem => (sound x mem).prod
  have joined : positionCount r.dims = (xs.map (·.flat.size)).prod := by
    rw [positionCount_eq_prod pos, dims]
    simp [List.flatMap, List.prod_flatten, Function.comp_def, counts]
  have nonempty : ∀ x ∈ xs, 0 < x.flat.size := fun x mem => by
    rw [← (sound x mem).prod]
    exact List.prod_pos (sound x mem).natDims_pos
  obtain ⟨flat, folded⟩ := foldlM_product_ok (fun acc x => do
      reserve (wrapInt64 (acc.size * x.flat.size)) false
      if blockLimit < ((acc.size * x.flat.size : Nat) : Int) then throw growFault
      pure (acc.flatMap fun l => x.flat.map fun v => r.dtype.normalize (l * v)))
    (fun acc x fits => by
      have exact : wrapInt64 ((acc.size * x.flat.size : Nat) : Int) = ((acc.size * x.flat.size : Nat) : Int) :=
        wrapInt64_of_le (Int.natCast_nonneg _) (le_trans fits blockLimit_le_max)
      refine ⟨acc.flatMap fun l => x.flat.map fun v => r.dtype.normalize (l * v), ?_, ?_⟩
      · rw [← Nat.cast_mul, exact, reserve_eq_ok (Int.natCast_nonneg _) fits]
        simp only [bind, Except.bind, if_neg (not_lt.2 fits)]
        rfl
      · rcases acc with ⟨l⟩
        simp [List.map_const', List.sum_replicate])
    xs #[1] nonempty (by simpa [← joined] using small)
  have size := foldlM_size _ (fun acc x b step => by
    obtain ⟨u, -, done⟩ := Except.bind_eq_ok.1 step
    obtain ⟨-, done⟩ := Except.ite_throw_ok done
    cases done
    rcases acc with ⟨l⟩
    simp [List.map_const', List.sum_replicate]) xs #[1] flat folded
  have count : r.size = positionCount r.dims :=
    product_of_count pos (le_trans small blockLimit_le_max)
  refine ⟨⟨r, flat, 0⟩, ?_⟩
  have same : (flat.size : Int) = r.size := by
    rw [size, count, joined, Array.size_singleton, Nat.one_mul]
  unfold Tensor.join
  rw [h, show (Except.ok r : Except Failure Shape) = pure r from rfl, pure_bind, folded,
    show (Except.ok flat : Except Failure (Array Float)) = pure flat from rfl, pure_bind]
  simp only [ne_eq, same, not_true_eq_false, if_false]
  rfl

/-- An array holds a shape: it is sound and has that shape. -/
structure Holds (x : Tensor) (s : Shape) : Prop where
  sound : x.Sound
  shape : x.shape = s

section Holds

variable {x : Tensor} {t r : Shape}

theorem blockLimit_fits {dims : List Int} (small : (positionCount dims : Int) ≤ blockLimit) :
    (positionCount dims : Int) ≤ maxInt64 :=
  le_trans small blockLimit_le_max

theorem Holds.reshape (held : x.Holds t) {dims : List Int} (h : t.reshape dims = .ok r)
    (small : (positionCount r.dims : Int) ≤ blockLimit) : ∃ y, x.reshape dims = .ok y ∧ y.Holds r := by
  obtain ⟨-, rfl⟩ := Hlo.reshape_shape_ok h
  have done : x.reshape dims = .ok { x with shape := t.withDims dims } := by
    simp [Tensor.reshape, held.shape, h, bind, Except.bind, pure, Except.pure]
  refine ⟨_, done, (reshape_sound_iff held.sound done).2 (blockLimit_fits small), rfl⟩

theorem Holds.reduce (held : x.Holds t) {axis : Int} {op : Reduction} (h : t.reduce axis op = .ok r)
    (small : (positionCount r.dims : Int) ≤ blockLimit) : ∃ y, x.reduce axis op = .ok y ∧ y.Holds r := by
  rw [← held.shape] at h
  obtain ⟨y, done⟩ := reduce_succeeds held.sound h small
  obtain ⟨sound, rule⟩ := reduce_sound held.sound done
  exact ⟨y, done, sound, Except.ok.inj (rule.symm.trans h)⟩

theorem Holds.transpose (held : x.Holds t) {perm : List Int} (h : t.transpose perm = .ok r) :
    ∃ y, x.transpose perm = .ok y ∧ y.Holds r := by
  rw [← held.shape] at h
  have done := transpose_eq held.sound h
  exact ⟨_, done, transpose_sound held.sound done, rfl⟩

theorem Holds.repeat (held : x.Holds t) {axis count : Int} (h : t.repeat axis count = .ok r)
    (small : (positionCount r.dims : Int) ≤ blockLimit) :
    ∃ y, x.repeat axis count = .ok y ∧ y.Holds r := by
  rw [← held.shape] at h
  obtain ⟨y, done⟩ := repeat_succeeds held.sound h small
  obtain ⟨rule, -, -⟩ := repeat_ok held.sound done
  have shape : y.shape = r := Except.ok.inj (rule.symm.trans h)
  exact ⟨y, done, (repeat_sound_iff held.sound done).2 (shape ▸ blockLimit_fits small), shape⟩

theorem shapes_of_held {ys : List Tensor} {ss : List Shape} (held : List.Forall₂ Holds ys ss) :
    ys.map (·.shape) = ss := by
  induction held with
  | nil => rfl
  | cons h _ ih => simp [h.shape, ih]

theorem sound_of_held {ys : List Tensor} {ss : List Shape} (held : List.Forall₂ Holds ys ss) :
    ∀ y ∈ ys, y.Sound := by
  induction held with
  | nil => simp
  | cons h _ ih => exact List.forall_mem_cons.2 ⟨h.sound, ih⟩

theorem join_holds {ys : List Tensor} {ss : List Shape} (held : List.Forall₂ Holds ys ss)
    (h : Shape.join ss = .ok r) (small : (positionCount r.dims : Int) ≤ blockLimit) :
    ∃ y, Tensor.join ys = .ok y ∧ y.Holds r := by
  rw [← shapes_of_held held] at h
  obtain ⟨y, done⟩ := join_succeeds (sound_of_held held) h small
  obtain ⟨sound', rule⟩ := join_sound (sound_of_held held) done
  exact ⟨y, done, sound', Except.ok.inj (rule.symm.trans h)⟩

end Holds

end Tensor

namespace Plan

open Tensor

section Run

/-- One step of a plan that replays takes arrays holding the shapes recorded before it to arrays
holding the shapes recorded after it, when the array it makes fits a block. -/
theorem applyStep_recorded {ys : List Tensor} {current : List Shape}
    (held : List.Forall₂ Holds ys current) (nonempty : current ≠ [])
    (valid : ∀ t ∈ current, t.ok = true) {s : Step} (replays : inferStep s current = .ok s.output)
    (compiled : s.Compiled) (small : (positionCount s.output.dims : Int) ≤ blockLimit) :
    ∃ zs, applyStep Tensor.backend s ys = .ok zs ∧ List.Forall₂ Holds zs (s.recorded current) := by
  obtain ⟨first, rest, rfl⟩ := List.exists_cons_of_ne_nil nonempty
  obtain ⟨y, ys, hFirst, rfl⟩ : ∃ y ys', y.Holds first ∧ ys = y :: ys' := by
    cases held with
    | cons h _ => exact ⟨_, _, h, rfl⟩
  have head : operandAt (y :: ys) 0 = .ok y := rfl
  have single : ∀ {z : Tensor}, z.Holds s.output → s.kind ≠ .reshapeSplit →
      List.Forall₂ Holds [z] (s.recorded (first :: rest)) := fun h notSplit => by
    simp only [Step.recorded, notSplit, if_false]
    exact .cons h .nil
  unfold inferStep at replays
  dsimp only at replays
  cases kind : s.kind with
  | reshapeSplit =>
    simp only [kind] at replays
    have nonneg := compiled.input_nonneg kind
    obtain ⟨operandOk, -⟩ := Hlo.reshape_shape_ok replays
    have lt : s.input.toNat < (first :: rest).length := by
      by_contra outside
      rw [List.getD_eq_default _ _ (by omega)] at operandOk
      cases operandOk
    have ltY : s.input.toNat < (y :: ys).length := by rw [held.length_eq]; exact lt
    rw [List.getD_eq_getElem _ _ lt] at replays
    have h : (y :: ys)[s.input.toNat].Holds (first :: rest)[s.input.toNat] := by
      simpa only [List.get_eq_getElem] using held.get ltY lt
    obtain ⟨z, done, hz⟩ := h.reshape replays small
    refine ⟨(y :: ys).set s.input.toNat z, ?_, ?_⟩
    · simp only [applyStep, kind, Plan.operandAt_get nonneg ltY, Tensor.backend, bind, Except.bind, done]
      rfl
    · simp only [Step.recorded, kind, if_true]
      exact Hlo.Program.forall₂_set held _ hz
  | join =>
    simp only [kind] at replays
    obtain ⟨z, done, hz⟩ := join_holds held replays small
    refine ⟨[z], ?_, single hz (by simp [kind])⟩
    simp only [applyStep, kind, Tensor.backend, bind, Except.bind, done]
    rfl
  | reduce =>
    simp only [kind, List.headD_cons] at replays
    obtain ⟨z, done, hz⟩ := hFirst.reduce replays small
    refine ⟨[z], ?_, single hz (by simp [kind])⟩
    simp only [applyStep, kind, head, Tensor.backend, bind, Except.bind, done]
    rfl
  | permute =>
    simp only [kind, List.headD_cons] at replays
    obtain ⟨z, done, hz⟩ := hFirst.transpose replays
    refine ⟨[z], ?_, single hz (by simp [kind])⟩
    simp only [applyStep, kind, head, Tensor.backend, bind, Except.bind, done]
    rfl
  | «repeat» =>
    simp only [kind, List.headD_cons] at replays
    obtain ⟨z, done, hz⟩ := hFirst.repeat replays small
    refine ⟨[z], ?_, single hz (by simp [kind])⟩
    simp only [applyStep, kind, head, Tensor.backend, bind, Except.bind, done]
    rfl
  | reshapeMerge =>
    simp only [kind, List.headD_cons] at replays
    obtain ⟨dims, pos⟩ := compiled.merge_dims kind
    have reshaped := Hlo.reshape_of_merge (valid first (by simp)) replays (dims ▸ pos)
    rw [← dims] at reshaped
    obtain ⟨z, done, hz⟩ := hFirst.reshape reshaped small
    refine ⟨[z], ?_, single hz (by simp [kind])⟩
    simp only [applyStep, kind, head, Tensor.backend, bind, Except.bind, done]
    rfl
  | invalid | last | unnamed _ =>
    simp only [kind] at replays
    cases replays

/-- The steps of a plan that replays take arrays holding the shapes recorded before them to arrays
holding the shapes recorded after them all, when the array each step makes fits a block. -/
theorem runSteps_recorded (pattern : String) : ∀ (steps : List Step) (i : Nat) (ys : List Tensor)
    (current : List Shape), List.Forall₂ Holds ys current → current ≠ [] → (∀ t ∈ current, t.ok = true) →
    Replays current steps → (∀ s ∈ steps, s.Compiled) →
    (∀ s ∈ steps, (positionCount s.output.dims : Int) ≤ blockLimit) →
    ∃ zs, runSteps Tensor.backend pattern i steps ys = .ok zs ∧
      List.Forall₂ Holds zs (recordedAfter current steps)
  | [], i, ys, current, held, _, _, _, _, _ => ⟨ys, rfl, held⟩
  | s :: rest, i, ys, current, held, nonempty, valid, replays, compiled, small => by
    obtain ⟨first, later⟩ := replays
    obtain ⟨zs₁, stepped, held₁⟩ :=
      applyStep_recorded held nonempty valid first (compiled s (by simp)) (small s (by simp))
    obtain ⟨zs, ran, held'⟩ :=
      runSteps_recorded pattern rest (i + 1) zs₁ (s.recorded current) held₁ (s.recorded_ne_nil nonempty)
        (Hlo.Program.recorded_valid nonempty valid first) later (fun t mem => compiled t (by simp [mem]))
        (fun t mem => small t (by simp [mem]))
    refine ⟨zs, ?_, held'⟩
    simp only [runSteps, stepped]
    exact ran

theorem forIn_passes {σ α : Type} {body : α → σ → Except Failure (ForInStep σ)} {s : σ} :
    ∀ xs : List α, (∀ x ∈ xs, body x s = .ok (.yield s)) → forIn xs s body = .ok s
  | [], _ => rfl
  | x :: xs, pass => by
    rw [List.forIn_cons, pass x (by simp)]
    exact forIn_passes xs fun y mem => pass y (by simp [mem])

/-- Inputs with the shapes a plan was compiled for pass its input check. -/
theorem checkInputs_ok {α : Type} (b : Backend α) (p : Plan) {inputs : List α}
    (shapes : inputs.map b.shape = p.inputs) : checkInputs b p inputs = .ok () := by
  have len : inputs.length = p.inputs.length := by rw [← shapes, List.length_map]
  have rel : List.Forall₂ (fun x t => b.shape x = t) inputs p.inputs := by
    rw [← shapes]
    exact List.forall₂_map_right_iff.2 (List.forall₂_same.2 fun _ _ => rfl)
  simp only [checkInputs, len, ne_eq, not_true_eq_false, if_false]
  rw [forIn_passes]
  · rfl
  · intro e mem
    have same : b.shape e.1.1 = e.1.2 := List.forall₂_zip rel (List.fst_mem_of_mem_zipIdx mem)
    simp [same, Shape.same_self, pure, Except.pure]

theorem apply_of_runSteps {plan : Plan} {xs : List Tensor} {y : Tensor} (shapes : xs.map (·.shape) = plan.inputs)
    (ran : runSteps Tensor.backend plan.pattern 0 plan.steps xs = .ok [y]) (output : y.shape = plan.output) :
    plan.apply Tensor.backend xs = .ok y := by
  have passed := checkInputs_ok Tensor.backend plan shapes
  simp only [apply, passed, ran]
  simp [Tensor.backend, output, Shape.same_self, bind, Except.bind, pure, Except.pure]

/-- A checked plan runs on sound arrays of its input shapes, when the array each step makes fits a
block, and returns a sound array of its output shape. -/
theorem apply_checked {plan : Plan} (checked : plan.Checked) {xs : List Tensor}
    (held : List.Forall₂ Holds xs plan.inputs)
    (small : ∀ s ∈ plan.steps, (positionCount s.output.dims : Int) ≤ blockLimit) :
    ∃ y, plan.apply Tensor.backend xs = .ok y ∧ y.Holds plan.output := by
  obtain ⟨zs, ran, heldZ⟩ := runSteps_recorded plan.pattern plan.steps 0 xs plan.inputs held
    checked.inputs_ne_nil checked.inputs_ok checked.replays checked.compiled small
  rw [checked.ends] at heldZ
  obtain ⟨z, hz, rfl⟩ : ∃ z, z.Holds plan.output ∧ zs = [z] := by
    cases heldZ with
    | cons h rest =>
      cases rest
      exact ⟨_, h, rfl⟩
  exact ⟨z, apply_of_runSteps (shapes_of_held held) ran hz.shape, hz⟩

end Run

section Executors

/-- A checked plan lowers as it records, unless a min or max reduction of it is over an element
type outside the host's. -/
theorem lowers_or_unwritable {plan : Plan} (checked : plan.Checked) :
    (∃ s ∈ plan.steps, s.kind = .reduce ∧ (s.op = .min ∨ s.op = .max) ∧ s.output.dtype ∉ Hlo.hostTypes) ∨
      ∃ p, Hlo.LowersAsRecorded plan p := by
  by_cases unwritable : ∃ s ∈ plan.steps, s.kind = .reduce ∧ (s.op = .min ∨ s.op = .max) ∧
      s.output.dtype ∉ Hlo.hostTypes
  · exact .inl unwritable
  · refine .inr (Hlo.lowers_of_checked checked fun s mem kind order => ?_)
    have host : s.output.dtype ∈ Hlo.hostTypes := by
      by_contra outside
      exact unwritable ⟨s, mem, kind, order, outside⟩
    have isOrder : Shape.isOrderReduction s.op = true := by
      rcases order with order | order <;> simp [order, Shape.isOrderReduction]
    exact (Hlo.initWritable_order_iff isOrder _).2 host

/-- The two executors accept every checked plan. The library runs it on sound arrays of its input
shapes, when the array each step makes fits a block, and returns a sound array of its output shape;
the lowering builds its program as recorded, unless a min or max reduction of it is over an element
type whose lowest or highest value has no literal. -/
theorem executors_accept_checked {plan : Plan} (checked : plan.Checked) {xs : List Tensor}
    (held : List.Forall₂ Holds xs plan.inputs)
    (small : ∀ s ∈ plan.steps, (positionCount s.output.dims : Int) ≤ blockLimit) :
    (∃ y, plan.apply Tensor.backend xs = .ok y ∧ y.Holds plan.output) ∧
      ((∃ s ∈ plan.steps, s.kind = .reduce ∧ (s.op = .min ∨ s.op = .max) ∧ s.output.dtype ∉ Hlo.hostTypes) ∨
        ∃ p, Hlo.LowersAsRecorded plan p) :=
  ⟨apply_checked checked held small, lowers_or_unwritable checked⟩

theorem executors_accept_repeat :
    let plan : Plan := ⟨"p", "a -> a", [⟨.float32, [2]⟩], ⟨.float32, [3, 2]⟩,
      [{ kind := .repeat, axis := 0, count := 3, output := ⟨.float32, [3, 2]⟩ }], [], []⟩
    let xs : List Tensor := [⟨⟨.float32, [2]⟩, #[1, 2], 0⟩]
    plan.Checked ∧ List.Forall₂ Holds xs plan.inputs ∧
      (∀ s ∈ plan.steps, (positionCount s.output.dims : Int) ≤ blockLimit) ∧
      (∃ y, plan.apply Tensor.backend xs = .ok y ∧ y.Holds plan.output) ∧
      ((∃ s ∈ plan.steps, s.kind = .reduce ∧ (s.op = .min ∨ s.op = .max) ∧ s.output.dtype ∉ Hlo.hostTypes) ∨
        ∃ p, Hlo.LowersAsRecorded plan p) := by
  intro plan xs
  have checked : plan.Checked :=
    ⟨List.cons_ne_nil _ _, by decide, ⟨rfl, trivial⟩, rfl, fun s mem => by
      rw [List.mem_singleton] at mem
      subst mem
      exact ⟨nofun, nofun⟩⟩
  have held : List.Forall₂ Holds xs plan.inputs := .cons ⟨⟨by decide, rfl, by decide⟩, rfl⟩ .nil
  have small : ∀ s ∈ plan.steps, (positionCount s.output.dims : Int) ≤ blockLimit := by decide
  exact ⟨checked, held, small, executors_accept_checked checked held small⟩

theorem lowerStep_count_unread {p : Hlo.Program} {fnId : Nat} {s : Step} (kind : s.kind = .repeat) (count : Int)
    (values : List Nat) : p.lowerStep fnId { s with count } values = p.lowerStep fnId s values := by
  simp only [Hlo.Program.lowerStep, kind]

/-- A hand-built plan whose repeat records an output of three rows but counts five: the lowering
builds a program, broadcasting to the three rows, and the library fails, having made five. -/
theorem repeat_count_unread :
    let plan : Plan := ⟨"p", "a -> a", [⟨.float32, [2]⟩], ⟨.float32, [3, 2]⟩,
      [{ kind := .repeat, axis := 0, count := 5, output := ⟨.float32, [3, 2]⟩ }], [], []⟩
    (Hlo.lowerPlan plan).toBool = true ∧
      (plan.apply Tensor.backend [⟨⟨.float32, [2]⟩, #[1, 2], 0⟩]).toBool = false := by
  decide +kernel

end Executors

end Plan

end Rearrange

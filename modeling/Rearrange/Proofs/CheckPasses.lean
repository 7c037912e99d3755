import Rearrange.Proofs.StageYields
/-!
# When the check of a plan passes

Before a plan is returned, each of its steps is replayed by the shape rules, and the output's
rank and element count are checked against the pattern (`verify`). The check passes whenever
the steps replay from the inputs to the output and the rank and count are the pattern's
(`verify_ok`): a step that replays is of a kind the check knows (`checkKind_of_inferStep`).

The split steps replay once each input with groups has positive split dimensions that multiply
to its own (`splitSteps_replay`). The join then puts the split inputs side by side
(`join_shape_eq`). Together they lead from the inputs to one array of the joined dimensions
(`join_yields`).
-/
namespace Rearrange.Plan

open Pattern

section Check

variable {e : Expression} {a : Assembly}

theorem checkKind_of_inferStep {s : Step} {current : List Shape} {out : Shape}
    (inferred : inferStep s current = .ok out) (i : Nat) : a.checkKind s i = .ok () := by
  cases kind : s.kind with
  | reshapeSplit | join | reduce | permute | «repeat» | reshapeMerge =>
    simp only [Assembly.checkKind, kind]
    rfl
  | invalid | last | unnamed c => simp [inferStep, kind] at inferred

theorem checkStep_of_replays {current : List Shape} {s : Step} (inferred : inferStep s current = .ok s.output)
    (i : Nat) : checkStep e a current s i = .ok (s.recorded current) := by
  have same : s.output.same s.output = true := Shape.same_iff.2 rfl
  unfold checkStep
  simp [checkKind_of_inferStep inferred i, inferred, Except.mapError, bind, Except.bind, same, Step.recorded]
  rfl

theorem forIn_checkStep_ok : ∀ (steps : List Step) (n : Nat) (current : List Shape), Replays current steps →
    forIn (steps.zipIdx n) current (fun (x : Step × Nat) (shapes : List Shape) => do
      let shapes ← checkStep e a shapes x.1 x.2
      pure (ForInStep.yield shapes)) = .ok (recordedAfter current steps)
  | [], n, current, _ => rfl
  | s :: rest, n, current, ⟨inferred, replays⟩ => by
    rw [List.zipIdx_cons, List.forIn_cons, checkStep_of_replays inferred n]
    exact forIn_checkStep_ok rest (n + 1) _ replays

/-- The rank a slot of the output gives the output, as the check counts it: a single slot its
axes, the ellipsis's `width` of them, and a group one. -/
def Assembly.slotRank (a : Assembly) : Slot → Int
  | .single idx _ => a.span idx
  | .group _ _ => 1

/-- The check of a plan passes when its steps replay from the inputs and end with the output, the
output has the rank its slots give and as many elements as its kept and new axes. -/
theorem verify_ok {inputs : List Shape} {output : Shape} (replays : Replays inputs a.steps)
    (ends : recordedAfter inputs a.steps = [output])
    (rank : (e.output.map a.slotRank).foldl (· + ·) (0 : Int) = output.rank)
    (count : Word.checkedProduct (e.names.names.flatMap (fun n => if n = ellipsisName then a.ellipsisDims else [a.sizeOf n]) ++
      e.newAxes.map (·.size)) = some output.size) :
    verify e a inputs output = .ok () := by
  unfold verify
  refine Except.bind_eq_ok.2 ⟨_, forIn_checkStep_ok a.steps 0 inputs replays, ?_⟩
  have one : ¬(([output].length ≠ 1 || !([output].headD Shape.invalid).same output) = true) := by
    simp [Shape.same_iff]
  simp only [ends]
  rw [if_neg one]
  split
  · next wrong => exact absurd rank wrong
  · rw [count]
    simp only [ne_eq, not_true_eq_false, if_false]
    rfl
end Check

section Inputs

theorem reshape_of_pos {s : Shape} {dims : List Int} (valid : s.ok = true) (pos : ∀ d ∈ dims, 0 < d)
    (same : Word.product dims = s.size) : s.reshape dims = .ok (s.withDims dims) := by
  unfold Shape.reshape
  simp only [valid, Bool.not_true, Bool.false_eq_true, if_false]
  split
  · next d axis found =>
    have flagged : d ≤ 0 := by simpa using List.find?_some found
    have positive := pos d (List.fst_mem_of_mem_zipIdx (List.mem_of_find?_eq_some found))
    omega
  · simp [same]

variable (shape : Nat → Shape) (lay : Decomposition × Nat → List Int)

/-- The split steps of the inputs `ds`, numbered after the arrays `P` before them, replay from
those arrays followed by the inputs when each input with groups reshapes into its split
dimensions, and they leave each such input split. -/
theorem splitSteps_replay : ∀ (ds : List Decomposition) (P : List Shape),
    (∀ q ∈ ds.zipIdx P.length, q.1.hasGroups = true →
      (shape q.2).reshape (lay q) = .ok ((shape q.2).withDims (lay q))) →
    Replays (P ++ (ds.zipIdx P.length).map fun q => shape q.2)
        ((ds.zipIdx P.length).flatMap fun q =>
          if q.1.hasGroups then [Assembly.splitStep q.2 (shape q.2) (lay q)] else []) ∧
      recordedAfter (P ++ (ds.zipIdx P.length).map fun q => shape q.2)
        ((ds.zipIdx P.length).flatMap fun q =>
          if q.1.hasGroups then [Assembly.splitStep q.2 (shape q.2) (lay q)] else []) =
        P ++ (ds.zipIdx P.length).map fun q => if q.1.hasGroups then (shape q.2).withDims (lay q) else shape q.2
  | [], P, _ => by simp [Replays]
  | d :: ds, P, reshapes => by
    rw [List.zipIdx_cons]
    by_cases groups : d.hasGroups
    · -- the step splits input `P.length`, the first one not split yet
      have reshaped := reshapes (d, P.length) (by simp) groups
      have rest := splitSteps_replay ds (P ++ [(shape P.length).withDims (lay (d, P.length))])
        (fun q mem => reshapes q (List.mem_cons_of_mem _ (by simpa using mem)))
      simp only [List.length_append, List.length_singleton, List.append_assoc, List.singleton_append] at rest
      have set : (P ++ shape P.length :: (ds.zipIdx (P.length + 1)).map fun q => shape q.2).set P.length
          ((shape P.length).withDims (lay (d, P.length))) =
          P ++ (shape P.length).withDims (lay (d, P.length)) :: (ds.zipIdx (P.length + 1)).map fun q => shape q.2 := by
        simp [List.set_append_right]
      simp only [List.flatMap_cons, List.map_cons, groups, if_true, List.singleton_append, Replays,
        recordedAfter_cons, Step.recorded, Assembly.splitStep, inferStep, Int.toNat_natCast, if_true, set]
      refine ⟨⟨by simpa using reshaped, rest.1⟩, rest.2⟩
    · have rest := splitSteps_replay ds (P ++ [shape P.length])
        (fun q mem => reshapes q (List.mem_cons_of_mem _ (by simpa using mem)))
      simp only [List.length_append, List.length_singleton, List.append_assoc, List.singleton_append] at rest
      simp only [List.flatMap_cons, List.map_cons, groups, Bool.false_eq_true, if_false, List.nil_append]
      exact rest

/-- Valid operands of one element type join into one shape of all their dimensions, once these
are positive. -/
theorem join_shape_eq {ss : List Shape} {dtype : DType} (nonempty : ss ≠ [])
    (typed : ∀ s ∈ ss, s.ok ∧ s.dtype = dtype) (pos : ∀ y ∈ ss.flatMap (·.dims), 0 < y) :
    Shape.join ss = .ok ⟨dtype, ss.flatMap (·.dims)⟩ := by
  cases ss with
  | nil => exact absurd rfl nonempty
  | cons first rest =>
    have firstType := (typed first List.mem_cons_self).2
    unfold Shape.join
    dsimp only
    split
    · next m found =>
      obtain ⟨⟨s, i⟩, mem, flagged⟩ := List.exists_of_findSome?_eq_some found
      obtain ⟨valid, same⟩ := typed s (List.fst_mem_of_mem_zipIdx mem)
      simp [valid, same, firstType] at flagged
    · rw [make_of_pos pos, firstType]

end Inputs

section Join

variable {e : Expression} (hold : e.InputsHold) {inputs : List Shape} {dtype : DType}

include hold in
/-- Inputs of one valid element type, with positive dimensions whose product within each input
fits a signed word, and each fitting its shape, once split one after the other and joined if
there are several, lead by replaying from the inputs to one array of the joined dimensions. -/
theorem join_yields {a₁ : Assembly} (count : inputs.length = e.inputs.length) (nonempty : inputs ≠ [])
    (typed : ∀ s ∈ inputs, s.ok ∧ s.dtype = dtype) (pos : ∀ s ∈ inputs, ∀ y ∈ s.dims, 0 < y)
    (small : ∀ s ∈ inputs, s.dims.prod ≤ Word.maxInt64)
    (fits : ∀ q ∈ e.inputs.zipIdx, q.1.Fits (inputs.getD q.2 Shape.invalid))
    (splits : Assembly.SplitsAll { pattern := e.pattern, dtype } a₁ e.inputs.zipIdx fun i => inputs.getD i Shape.invalid) :
    Yields True (fun a₂ => a₂ = { a₁ with steps := a₂.steps } ∧ (∀ y ∈ a₂.dims, 0 < y) ∧
        a₂.dims.prod = (inputs.flatMap (·.dims)).prod ∧ Replays inputs a₂.steps ∧
        recordedAfter inputs a₂.steps = [⟨a₂.dtype, a₂.dims⟩])
      (if inputs.length > 1 then a₁.emit { kind := .join } else pure a₁) := by
  set shape := fun i => inputs.getD i Shape.invalid
  set lay := fun q : Decomposition × Nat => (q.1.layout (shape q.2)).map Prod.snd
  have inputAt : ∀ q ∈ e.inputs.zipIdx, shape q.2 ∈ inputs := fun q mem => by
    have lt : q.2 < inputs.length := by
      have := (List.mem_zipIdx mem).2.1
      omega
    simp only [shape, List.getD_eq_getElem?_getD, List.getElem?_eq_getElem lt, Option.getD_some]
    exact List.getElem_mem lt
  have smallAt : ∀ q ∈ e.inputs.zipIdx, ∀ y ∈ (shape q.2).dims, y ≤ Word.maxInt64 := fun q mem y yMem =>
    calc y = [y].prod := (List.prod_singleton).symm
      _ ≤ (shape q.2).dims.prod := prod_le_of_sublist (List.singleton_sublist.2 yMem) (pos _ (inputAt q mem))
      _ ≤ Word.maxInt64 := small _ (inputAt q mem)
  have splitShape : ∀ q ∈ e.inputs.zipIdx,
      (if q.1.hasGroups then (shape q.2).withDims (lay q) else shape q.2) = ⟨dtype, lay q⟩ := by
    intro q mem
    obtain ⟨holds, -, -, one⟩ := hold.input (List.fst_mem_of_mem_zipIdx mem)
    have sType : (shape q.2).dtype = dtype := (typed _ (inputAt q mem)).2
    split
    · simp [Shape.withDims, sType]
    · next none =>
      have same : lay q = (shape q.2).dims :=
        layout_noGroups holds (fits q mem) one (fun _ => rfl) (smallAt q mem) (by simpa using none)
      rw [same, ← sType]
  have reshapes : ∀ q ∈ e.inputs.zipIdx, q.1.hasGroups = true →
      (shape q.2).reshape (lay q) = .ok ((shape q.2).withDims (lay q)) := by
    intro q mem _
    obtain ⟨holds, -, -, one⟩ := hold.input (List.fst_mem_of_mem_zipIdx mem)
    refine reshape_of_pos (typed _ (inputAt q mem)).1 (layout_pos holds (fits q mem) one (pos _ (inputAt q mem))) ?_
    unfold Shape.size Word.product
    rw [← List.prod_eq_foldl, ← List.prod_eq_foldl, prod_layout holds (fits q mem) one (fun _ => rfl) (smallAt q mem)]
  obtain ⟨replays, recorded⟩ := splitSteps_replay shape lay e.inputs [] (by simpa using reshapes)
  have start : (e.inputs.zipIdx.map fun q => shape q.2) = inputs := by
    refine List.ext_getElem (by simp [count]) fun k h₁ h₂ => ?_
    simp [shape, List.getD_eq_getElem?_getD, h₂]
  simp only [List.length_nil, List.nil_append, start, List.map_congr_left splitShape] at replays recorded
  have steps₁ : a₁.steps = e.inputs.zipIdx.flatMap fun q =>
      if q.1.hasGroups then [Assembly.splitStep q.2 (shape q.2) (lay q)] else [] := by
    simpa using splits.steps
  rw [← steps₁] at replays recorded
  have dims₁ : a₁.dims = (e.inputs.zipIdx.map fun q => (⟨dtype, lay q⟩ : Shape)).flatMap (·.dims) := by
    rw [splits.dims, List.flatMap_map]
    simp [lay, shape]
  have dtype₁ : a₁.dtype = dtype := splits.dtype
  have pos₁ : ∀ y ∈ a₁.dims, 0 < y := by
    rw [dims₁, List.flatMap_map]
    simp only [List.mem_flatMap]
    rintro y ⟨q, mem, inLay⟩
    obtain ⟨holds, -, -, one⟩ := hold.input (List.fst_mem_of_mem_zipIdx mem)
    exact layout_pos holds (fits q mem) one (pos _ (inputAt q mem)) y inLay
  have prod₁ : a₁.dims.prod = (inputs.flatMap (·.dims)).prod := by
    rw [dims₁, List.flatMap_map, List.flatMap_def, List.prod_flatten, List.flatMap_def, List.prod_flatten]
    conv_rhs => rw [← start]
    simp only [List.map_map]
    refine congrArg List.prod (List.map_congr_left fun q mem => ?_)
    obtain ⟨holds, -, -, one⟩ := hold.input (List.fst_mem_of_mem_zipIdx mem)
    exact prod_layout holds (fits q mem) one (fun _ => rfl) (smallAt q mem)
  split
  · have emitted := Assembly.emit_of_pos a₁ { kind := .join } pos₁
    refine Yields.of_ok emitted ⟨rfl, pos₁, prod₁, ?_, ?_⟩
    · have joined : Shape.join (e.inputs.zipIdx.map fun q => (⟨dtype, lay q⟩ : Shape)) = .ok ⟨a₁.dtype, a₁.dims⟩ := by
        rw [dtype₁, dims₁]
        have described : e.inputs ≠ [] := fun none => nonempty (List.length_eq_zero_iff.1 (by rw [count, none]; rfl))
        refine join_shape_eq (by simpa using described) (fun s mem => ?_) (dims₁ ▸ pos₁)
        obtain ⟨q, qMem, rfl⟩ := List.mem_map.1 mem
        obtain ⟨valid, same⟩ := typed _ (inputAt q qMem)
        exact ⟨by simpa [Shape.ok, same] using valid, rfl⟩
      rw [replays_append, recorded]
      exact ⟨replays, joined, trivial⟩
    · rw [recordedAfter_append, recorded]
      simp [Step.recorded]
  · next single =>
    have one : e.inputs.length = 1 := by
      have := List.length_pos_iff.2 nonempty
      omega
    obtain ⟨d, only⟩ := List.length_eq_one_iff.1 one
    refine Yields.pure ⟨rfl, pos₁, prod₁, replays, ?_⟩
    rw [recorded, dtype₁, dims₁, only]
    simp

end Join


section Output

variable {w : Nat}

theorem length_mergeRuns : ∀ (gs : List (Bool × List Bool)) (D : List Int), runsLength w gs ≤ D.length →
    (mergeRuns w gs D).length = (gs.map fun g => if g.1 then 1 else (g.2.map (spanOf w)).sum).sum
  | [], _, _ => rfl
  | (group, members) :: gs, D, within => by
    have length : runsLength w ((group, members) :: gs) = (members.map (spanOf w)).sum + runsLength w gs := by
      simp [runsLength]
    rw [length] at within
    have rest := length_mergeRuns gs (D.drop (members.map (spanOf w)).sum) (by rw [List.length_drop]; omega)
    cases group <;> simp [mergeRuns, rest] <;> omega

theorem foldl_slotRank (a : Assembly) (width : a.width = w) (ss : List Slot) :
    (ss.map a.slotRank).foldl (· + ·) 0 =
      (((ss.map Slot.shape).map fun g => if g.1 then 1 else (g.2.map (spanOf w)).sum).sum : Int) := by
  rw [← List.sum_eq_foldl, List.map_map]
  refine congrArg List.sum (List.map_congr_left fun s _ => ?_)
  cases s with
  | single idx q => simp [Assembly.slotRank, span_eq a width, Slot.shape]
  | group ms q => simp [Assembly.slotRank, Slot.shape]

/-- The output's labels are the labels of its kept members, in output order, and the fresh labels
of its new axes. -/
theorem outputLabels_perm {items : List OutputItem} (distinct : (items.filterMap OutputItem.kept?).Nodup) :
    (outputLabels w items 0).Perm ((items.filterMap OutputItem.kept?).flatMap (Label.ofName w) ++
      (List.range (items.countP (·.kept?.isNone))).map Label.fresh) := by
  set fresh := (List.range (items.countP (·.kept?.isNone))).map Label.fresh
  have parts := List.filter_append_perm (fun l => decide (l ∉ fresh)) (outputLabels w items 0)
  rw [filter_outputLabels w items 0 (by simp)] at parts
  refine parts.symm.trans (List.Perm.append_left _ ?_)
  have nodupFresh : fresh.Nodup := List.nodup_range.map fun _ _ same => Label.fresh.inj same
  refine (List.perm_ext_iff_of_nodup ((outputLabels_nodup w distinct).filter _) nodupFresh).2 fun l => ?_
  simp only [List.mem_filter, decide_not, Bool.not_not, decide_eq_true_eq]
  refine ⟨fun both => both.2, fun isFresh => ⟨?_, isFresh⟩⟩
  obtain ⟨j, inRange, rfl⟩ := List.mem_map.1 isFresh
  exact (fresh_mem_outputLabels w items 0).2 ⟨Nat.zero_le _, by simpa using inRange⟩

end Output

end Rearrange.Plan

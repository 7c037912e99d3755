import Rearrange.Proofs.InputLabels
import Rearrange.Proofs.OutputLabels
/-!
# A plan replayed on labels

Label each input's axes by the names of its decomposition: a group's members one label each, the
ellipsis one label per axis it matches, each label with the size the plan records for it
(`labelSize`). Then replay the plan's steps on labels (`Trace.run`). The split steps are emitted
exactly for the inputs with groups. Replaying all the steps leaves one array, the output's labels
grouped by the output's slots. On the way the reductions delete exactly the reduced axes, each
once, the last written first, each with its own operation, and the repeats insert one axis for
each number and each sized new name of the output, in order, with that size (`compile_replays`).

The stages' lemmas do the work: `inputs_trace` for the split and the join, `reduceAll_trace`,
`permute_trace`, `repeatAll_trace` and `merge_trace` for the rest. This module supplies their
hypotheses from the pattern as read. The reductions, sorted, are the reverse of their written
order (`InputsHold.mergeSort_reductions`). The new axes are named apart from the inputs' axes
(`PatternSyntax.newAxis_name`), and their sizes are the output's (`OutputHolds.map_size_newAxes`).
A stage changes no size the plan records for an axis of the inputs (`reduceAll_keeps`,
`permute_keeps`, `repeatAll_keeps`).
-/
namespace Rearrange.Plan

open Pattern

/-- The size a plan gives a label: the size it records for a name, the dimension the ellipsis
matched for an axis of the ellipsis, and for fresh label `k` the size of new axis `k`. -/
def labelSize (plan : Plan) (news : List NewAxis) : Label → Int
  | .axis x => (plan.axisSizes.lookup x).getD 0
  | .ellipsis k => plan.ellipsisDims.getD k 0
  | .fresh k => (news.getD k default).size

section Keeps

namespace Assembly

theorem reduceAll_keeps {a a' : Assembly} {rs : List ReducedAxis} (h : a.reduceAll rs = .ok a') :
    a' = { a with dims := a'.dims, steps := a'.steps } := by
  unfold reduceAll at h
  refine foldlM_prefix (P := fun _ b => b = { a with dims := b.dims, steps := b.steps }) _
    (fun done x rest b b' _ same step => ?_) a a' rfl h
  obtain ⟨-, step⟩ := Except.ite_throw_ok step
  obtain ⟨dims, -, step⟩ := Except.bind_eq_ok.1 step
  rw [emit_ok _ step, same]

theorem permute_keeps {a a' : Assembly} {order : List Index} (h : a.permute order = .ok a') :
    a' = { a with dims := a'.dims, steps := a'.steps } := by
  obtain ⟨-, -, -, rfl⟩ := permute_ok a rfl h
  rfl

/-- A stage of new axes that succeeds keeps the ellipsis and the sizes of the names it does not
give to a new axis. -/
theorem repeatAll_keeps {a a' : Assembly} {news : List NewAxis} (h : a.repeatAll news = .ok a') :
    a'.width = a.width ∧ a'.ellipsisDims = a.ellipsisDims ∧
      ∀ x, (∀ b ∈ news, b.name ≠ "" → b.name ≠ x) → a'.sizeOf x = a.sizeOf x := by
  unfold repeatAll at h
  refine foldlM_prefix (P := fun done b => b.width = a.width ∧ b.ellipsisDims = a.ellipsisDims ∧
      ∀ x, (∀ n ∈ done, n.name ≠ "" → n.name ≠ x) → b.sizeOf x = a.sizeOf x) news
    (fun done n rest b b' _ holds step => ?_) a a' ⟨rfl, rfl, fun _ _ => rfl⟩ h
  obtain ⟨width, dims, sizes⟩ := holds
  obtain ⟨-, step⟩ := Except.ite_throw_ok step
  obtain ⟨shape, kept⟩ := nameNew_keeps b n
  dsimp only at step
  generalize (if n.name ≠ "" then b.setSize n.name n.size else b) = a₁ at shape kept step
  obtain ⟨inserted, -, step⟩ := Except.bind_eq_ok.1 step
  obtain ⟨-, step⟩ := Except.ite_throw_ok step
  rw [emit_ok _ step]
  refine ⟨by rw [shape]; exact width, by rw [shape]; exact dims, fun x others => ?_⟩
  have ne : n.name ≠ "" → x ≠ n.name := fun nonempty same => others n (by simp) nonempty same.symm
  have earlier : ∀ m ∈ done, m.name ≠ "" → m.name ≠ x := fun m mem => others m (by simp [mem])
  simp only [sizeOf] at kept sizes ⊢
  rw [kept x ne, sizes x earlier]

end Assembly

end Keeps

end Rearrange.Plan

namespace Rearrange.Pattern

open Plan

section Reductions

variable {e : Expression} (hold : e.InputsHold)

include hold

/-- Sorted from the last position to the first, the reductions are in reverse written order. -/
theorem Expression.InputsHold.mergeSort_reductions :
    e.reductions.mergeSort (fun x y => decide (y.index.pos ≤ x.index.pos)) = e.reductions.reverse := by
  have sorted := @List.pairwise_mergeSort _ (fun x y : ReducedAxis => decide (y.index.pos ≤ x.index.pos))
    (fun a b c ab bc => by simp only [decide_eq_true_eq] at ab bc ⊢; omega)
    (fun a b => by simp only [Bool.or_eq_true, decide_eq_true_eq]; omega) e.reductions
  have perm := List.mergeSort_perm e.reductions fun x y => decide (y.index.pos ≤ x.index.pos)
  -- positions are distinct, so sorting puts them strictly from the last to the first
  have distinct : (e.reductions.mergeSort fun x y => decide (y.index.pos ≤ x.index.pos)).Pairwise
      fun r r' => r.index.pos ≠ r'.index.pos :=
    List.pairwise_map.1 ((perm.map _).nodup_iff.2 hold.reductions_pos_nodup)
  refine @List.Perm.eq_of_pairwise _ (fun r r' : ReducedAxis => r'.index.pos < r.index.pos) _ _
    (fun a b _ _ ab ba => absurd (ab.trans ba) (lt_irrefl _)) ?_ ?_ (perm.trans (List.reverse_perm _).symm)
  · exact (sorted.and distinct).imp fun both => lt_of_le_of_ne (by simpa using both.1) (Ne.symm both.2)
  · exact List.pairwise_reverse.2 hold.reductions_ascending

/-- Once the ellipsis matches `w` axes, with the joined labels as many as a signed word counts,
the reduced axes, from the last written to the first, sit among the joined labels where their
positions resolve, each before the ones erased earlier. -/
theorem Expression.InputsHold.reductions_placed {w : Nat}
    (fits : ((e.joinedLabels w).length : Int) ≤ Word.maxInt64) :
    (∀ r ∈ e.reductions.reverse, Label.axis r.name ∈ e.joinedLabels w ∧
      r.index.resolve w = (e.joinedLabels w).idxOf (.axis r.name)) ∧
    (e.reductions.reverse.map fun r => Label.axis r.name).Pairwise
      fun l l' => (e.joinedLabels w).idxOf l' < (e.joinedLabels w).idxOf l := by
  have within : ∀ r ∈ e.reductions, Label.axis r.name ∈ e.joinedLabels w := fun r mem => by
    obtain ⟨m, hm, red, -, named⟩ := hold.mem_reductions mem
    have notName := hold.name_ne_ellipsis (List.getElem_mem hm)
      (hold.reduced_not_ellipsis (List.getElem_mem hm) red)
    rw [named]
    exact List.mem_flatMap.2 ⟨_, List.mem_map_of_mem (List.getElem_mem hm), Label.mem_ofName.2 (.inr ⟨notName, rfl⟩)⟩
  refine ⟨fun r mem => ⟨within r (List.mem_reverse.1 mem),
    (hold.idxOf_reduction fits (List.mem_reverse.1 mem)).symm⟩, ?_⟩
  rw [List.pairwise_map, List.pairwise_reverse]
  refine hold.reductions_ascending.imp_of_mem fun rMem r'Mem lt => ?_
  have order := hold.resolve_reduction_lt fits rMem r'Mem lt
  have at_r := hold.idxOf_reduction fits rMem
  have at_r' := hold.idxOf_reduction fits r'Mem
  omega

/-- With the inputs' axes, the new axes and the ellipsis's `w` axes as many as a signed word
counts, so are the joined labels, the output's labels, and the names with the ellipsis's axes. -/
theorem Expression.InputsHold.labels_fit {items : List OutputItem} (out : e.OutputHolds items)
    (once : (items.map OutputItem.isEllipsis).count true ≤ 1) {w : Nat}
    (wide : ((allAxes e.inputs).length + e.newAxes.length + w : Int) ≤ Word.maxInt64) :
    ((e.joinedLabels w).length : Int) ≤ Word.maxInt64 ∧
      ((outputLabels w items 0).length : Int) ≤ Word.maxInt64 ∧ (e.names.length + w : Int) ≤ Word.maxInt64 := by
  have names : e.names.names.length ≤ (allAxes e.inputs).length := by
    rw [hold.names_eq, List.length_map]
    exact List.length_filter_le _ _
  have joined : (e.joinedLabels w).length ≤ (allAxes e.inputs).length + w := by
    have bound := sum_spanOf_le w _ (Label.count_ellipsis_le_one hold.names)
    rw [← Label.length_flatMap_ofName] at bound
    simp only [List.length_map] at bound
    exact bound
  have output := out.length_outputLabels_le w once
  have length : e.names.length = e.names.names.length := by simp [NameTable.names, NameTable.length]
  omega

end Reductions

section Reading

variable {p : PatternSyntax} {text : String} {n : Int} {sizes : List (String × Int)} {e : Expression}

/-- The new axes of a read pattern are unnamed, or named apart from every axis of the inputs:
reading refuses a reduced name on the output side, and a kept one is no new axis. -/
theorem PatternSyntax.newAxis_name (read : p.read text n sizes = some e) (hold : e.InputsHold)
    (out : e.OutputHolds (p.outputMembers.map (OutputMember.item sizes e.names))) :
    ∀ b ∈ e.newAxes, b.name ≠ "" → b.name ∉ (allAxes e.inputs).map (·.name) := by
  intro b mem named inInputs
  rw [out.newAxes] at mem
  obtain ⟨⟨i, idx⟩, inZip, made⟩ := List.mem_filterMap.1 mem
  obtain ⟨m, mMem, rfl⟩ := List.mem_map.1 (List.of_mem_zip inZip).1
  obtain ⟨ds, t, o, -, -, -, outOk, shape⟩ := p.read_eq_some read
  have table : e.names = t := by rw [shape]
  rw [← table] at outOk
  have isSome : (readOutput sizes e.names {} p.output).isSome := by simp [outOk]
  have fitsAll := ((readOutput_isSome sizes e.names p.output (by simp)).1 isSome).1.1
  cases m with
  | axis x s q =>
    obtain ⟨k, -, notReduced, -⟩ := fitsAll _ mMem
    simp only [OutputMember.item] at made
    split at made
    · simp [OutputItem.newAxis?] at made
    · next notKept =>
      simp only [OutputItem.newAxis?, Option.some.injEq] at made
      subst made
      obtain ⟨a, aMem, aName⟩ := List.mem_map.1 inInputs
      by_cases red : a.isReduced
      · have reduced : e.names.isReduced x = true := by
          simp only [NameTable.isReduced, hold.reduced, List.contains_iff_mem, List.mem_map, List.mem_filter]
          exact ⟨a, ⟨aMem, red⟩, aName⟩
        rw [reduced] at notReduced
        cases notReduced
      · have kept : x ∈ e.names.names := by
          rw [hold.names_eq]
          exact List.mem_map.2 ⟨a, List.mem_filter.2 ⟨aMem, by simpa using red⟩, aName⟩
        exact notKept (lookup_isSome_iff_mem.2 kept)
  | int v q =>
    simp only [OutputMember.item, OutputItem.newAxis?, Option.some.injEq] at made
    subst made
    exact named rfl
  | ellipsis q => simp [OutputMember.item, OutputItem.newAxis?] at made

end Reading

end Rearrange.Pattern

namespace Rearrange.Plan

open Pattern

section Replay

variable {e : Expression}

/-- From the joined labels on, the stages replayed on labels: the reductions delete the reduced
axes from the last written to the first, the permutation puts the kept labels in output order,
the new axes are inserted in order where they belong, and the merge cuts the output's labels
into the runs of its slots. -/
theorem afterJoin_trace (hold : e.InputsHold) {items : List OutputItem} (out : e.OutputHolds items)
    (once : (items.map OutputItem.isEllipsis).count true ≤ 1) {w : Nat}
    (wide : ((allAxes e.inputs).length + e.newAxes.length + w : Int) ≤ Word.maxInt64) (σ : Label → Int)
    (freshSized : ∀ k (hk : k < e.newAxes.length), e.newAxes[k].size = σ (.fresh k))
    {a₂ a₃ a₄ a₅ a₆ : Assembly} (width : a₂.width = w) (dims : a₂.dims = (e.joinedLabels w).map σ)
    (reduced : a₂.reduceAll e.reductions = .ok a₃) (permuted : a₃.permute e.permutation = .ok a₄)
    (repeated : a₄.repeatAll e.newAxes = .ok a₅) (merged : a₅.merge e.output = .ok a₆) :
    ∃ steps, a₆.steps = a₂.steps ++ steps ∧ (∀ s ∈ steps, s.OnOneArray) ∧
      ∀ split (t : Trace), t.arrays = [cells σ (e.joinedLabels w)] → t.inserted = [] →
      Trace.run split steps t =
        { t with arrays := [cutRuns w (e.output.map Slot.shape) ((outputLabels w items 0).map fun l => (l, σ l))]
                 reduced := t.reduced ++ e.reductions.reverse.map fun r => ([(.axis r.name, σ (.axis r.name))], r.op)
                 inserted := ((List.range e.newAxes.length).map Label.fresh).map fun l => (l, σ l) } := by
  obtain ⟨joinedFits, outputFits, small⟩ := hold.labels_fit out once wide
  obtain ⟨placed, desc⟩ := hold.reductions_placed joinedFits
  obtain ⟨shape₃, steps₃, appended₃, kinds₃, trace₃⟩ := Assembly.reduceAll_trace σ (L := e.joinedLabels w)
    (Label.flatMap_ofName_nodup w hold.names) dims hold.mergeSort_reductions
    (fun r mem => by rw [width]; exact placed r mem) desc reduced
  rw [hold.joined_filter_reduced (List.reverse_perm _)] at shape₃ trace₃
  have width₃ : a₃.width = w := by rw [shape₃, width]
  obtain ⟨-, shape₄, steps₄, appended₄, kinds₄, trace₄⟩ := Assembly.permute_trace σ
    (K := e.names.names.flatMap (Label.ofName w)) (by rw [shape₃]; rfl)
    (fun l mem => (out.kept.flatMap_right (Label.ofName w)).subset mem)
    (permutation_labels hold out width₃ small) permuted
  have width₄ : a₄.width = w := by rw [shape₄, width₃]
  have filtered := filter_outputLabels w items 0 (n := e.newAxes.length) (by rw [out.length_newAxes]; omega)
  obtain ⟨shape₅, -, steps₅, appended₅, kinds₅, trace₅⟩ := Assembly.repeatAll_trace σ
    (outputLabels_nodup w (out.kept.nodup_iff.2 hold.names_nodup)) (by rw [shape₄, filtered])
    (fun k hk => by
      obtain ⟨mem, resolved, -⟩ := out.newAxes_placed w once outputFits hk
      exact ⟨mem, by rw [width₄]; exact resolved, freshSized k hk⟩)
    (fun j k lt hk => (out.newAxes_placed w once outputFits hk).2.2 j lt) repeated
  have width₅ : a₅.width = w := by rw [shape₅, width₄]
  obtain ⟨-, -, steps₆, appended₆, kinds₆, trace₆⟩ := Assembly.merge_trace σ width₅
    (out.runsLength_output w) merged
  refine ⟨steps₃ ++ steps₄ ++ steps₅ ++ steps₆, by rw [appended₆, appended₅, appended₄, appended₃]; simp,
    fun s mem => ?_, fun split t start none => ?_⟩
  · simp only [List.mem_append] at mem
    rcases mem with ((mem | mem) | mem) | mem
    · simp [Step.OnOneArray, (kinds₃ s mem).1, (kinds₃ s mem).2]
    · simp [Step.OnOneArray, kinds₄ s mem]
    · simp [Step.OnOneArray, kinds₅ s mem]
    · simp [Step.OnOneArray, kinds₆ s mem]
  · rw [Trace.run_append, Trace.run_append, Trace.run_append, trace₃ split t start,
      trace₄ split _ rfl, trace₅ split _ (by rw [filtered]) (by exact none), trace₆ split _ rfl]

theorem fresh_sizes (news : List NewAxis) (σ : Label → Int)
    (sized : ∀ k (hk : k < news.length), σ (.fresh k) = news[k].size) :
    ((List.range news.length).map Label.fresh).map (fun l => (l, σ l)) =
      (news.map (·.size)).zipIdx.map fun q => (Label.fresh q.2, q.1) := by
  refine List.ext_getElem (by simp) fun k h₁ _ => ?_
  have hk : k < news.length := by simpa using h₁
  simp [sized k hk]

/-- A compiled plan goes through its stages: the inputs split, then joined if there are several,
then the steps on the one array left. Those steps, replayed on labels from the joined labels with
the sizes the plan records, leave the output's labels grouped by the output's slots; on the way
they delete the reduced axes, from the last written to the first, and insert one axis for each
number and each sized new name of the output. -/
theorem compile_traced {text : String} {inputs : List Shape} {opts : CompileOptions} {plan : Plan}
    {e : Expression} (parsed : Expression.parse text inputs.length opts.axisSizes = .ok e)
    (compiled : compile text inputs opts = .ok plan)
    (wide : ((allAxes e.inputs).length + e.newAxes.length + plan.ellipsisDims.length : Int) ≤ Word.maxInt64) :
    ∃ dtype a₁ a₂ steps,
      forIn e.inputs.zipIdx ({ pattern := e.pattern, dtype } : Assembly) (fun (p : Decomposition × Nat) a => do
        let a ← a.split p.2 p.1 (inputs.getD p.2 Shape.invalid)
        pure (ForInStep.yield a)) = .ok a₁ ∧
      (if inputs.length > 1 then a₁.emit { kind := .join } else .ok a₁) = .ok a₂ ∧
      plan.steps = a₂.steps ++ steps ∧ plan.inputs = inputs ∧ plan.ellipsisDims = a₁.ellipsisDims ∧
      (∀ x ∈ (allAxes e.inputs).map (·.name), labelSize plan e.newAxes (.axis x) = a₁.sizeOf x) ∧
      (∀ j, labelSize plan e.newAxes (.ellipsis j) = a₁.ellipsisDims.getD j 0) ∧
      (∀ s ∈ steps, s.OnOneArray) ∧
      ∃ toks, Token.scanBody text = .ok toks ∧ (∃ p : PatternSyntax, List.Forall₂ Token.Fits toks p.marks) ∧
        ∀ p : PatternSyntax, List.Forall₂ Token.Fits toks p.marks → ∀ split (t : Trace),
          t.arrays = [cells (labelSize plan e.newAxes) (e.joinedLabels plan.ellipsisDims.length)] → t.inserted = [] →
          Trace.run split steps t =
            { t with arrays := [cutRuns plan.ellipsisDims.length (p.output.map OutputTerm.shape)
                       ((outputLabels plan.ellipsisDims.length
                         (p.outputMembers.map (OutputMember.item opts.axisSizes e.names)) 0).map
                         fun l => (l, labelSize plan e.newAxes l))]
                     reduced := t.reduced ++ e.reductions.reverse.map fun r =>
                       ([(.axis r.name, labelSize plan e.newAxes (.axis r.name))], r.op)
                     inserted := ((p.outputMembers.map (OutputMember.item opts.axisSizes e.names)).filterMap
                       OutputItem.newSize?).zipIdx.map fun q => (.fresh q.2, q.1) } := by
  unfold compile at compiled
  obtain ⟨e', parsed', compiled⟩ := Except.bind_eq_ok.1 compiled
  rw [parsed] at parsed'
  cases parsed'
  obtain ⟨dtype, a₁, a₂, a₃, a₄, a₅, a₆, -, loop, joined, reduced, permuted, repeated, merged, hplan⟩ :=
    assemble_stages (Except.mapError_eq_ok.1 compiled)
  have hold := Expression.inputsHold_of_parse parsed
  obtain ⟨count, nonempty⟩ := Expression.inputs_of_parse parsed
  have splits := splitsAll_of_loop hold loop
  set w := a₁.ellipsisDims.length with hw
  -- the stages after the split keep the ellipsis and the sizes of the inputs' names
  obtain ⟨joinKeep, -, -⟩ := inputs_trace hold splits (by omega) nonempty joined
  have keep₃ := Assembly.reduceAll_keeps reduced
  have keep₄ := Assembly.permute_keeps permuted
  obtain ⟨width₅, ellipsis₅, sizes₅⟩ := Assembly.repeatAll_keeps repeated
  have width₂ : a₂.width = w := by rw [joinKeep, width_eq_length hold splits]
  have width₄ : a₄.width = w := by rw [keep₄, keep₃, width₂]
  obtain ⟨toks, scan, someTree⟩ := fits_of_parse parsed
  have outputOf : ∀ p : PatternSyntax, List.Forall₂ Token.Fits toks p.marks →
      p.read text inputs.length opts.axisSizes = some e ∧
      e.OutputHolds (p.outputMembers.map (OutputMember.item opts.axisSizes e.names)) ∧
      ((p.outputMembers.map (OutputMember.item opts.axisSizes e.names)).map OutputItem.isEllipsis).count true ≤ 1 := by
    intro p fits
    have read : p.read text inputs.length opts.axisSizes = some e := by
      rw [← parse_toOption_of_fits scan fits, parsed]
      rfl
    have written := scanFrom_wellWritten _ _ _ _ scan
    have outNames := outputAxes_wellWritten written fits
    refine ⟨read, p.outputHolds read outNames hold.names_nodup, ?_⟩
    rw [p.items_isEllipsis outNames]
    exact (p.wellFormed_of_read written fits read).one_output_ellipsis
  obtain ⟨p₀, fits₀⟩ := someTree
  obtain ⟨read₀, out₀, once₀⟩ := outputOf p₀ fits₀
  obtain ⟨sizes₆, ellipsis₆, -⟩ := Assembly.merge_trace (fun _ => 0) (by rw [width₅, width₄])
    (out₀.runsLength_output w) merged
  have planEll : plan.ellipsisDims = a₁.ellipsisDims := by
    rw [hplan]
    simp only
    rw [ellipsis₆, ellipsis₅, keep₄, keep₃, joinKeep]
  set σ := labelSize plan e.newAxes
  have named : ∀ x ∈ (allAxes e.inputs).map (·.name), σ (.axis x) = a₁.sizeOf x := by
    intro x mem
    have others : ∀ b ∈ e.newAxes, b.name ≠ "" → b.name ≠ x := fun b bMem nonempty same =>
      p₀.newAxis_name read₀ hold out₀ b bMem nonempty (same ▸ mem)
    have axes₄ : a₄.axisSizes = a₁.axisSizes := by rw [keep₄, keep₃, joinKeep]
    show labelSize plan e.newAxes (.axis x) = a₁.sizeOf x
    rw [hplan]
    show (a₆.axisSizes.lookup x).getD 0 = a₁.sizeOf x
    rw [sizes₆]
    show a₅.sizeOf x = a₁.sizeOf x
    rw [sizes₅ x others]
    show (a₄.axisSizes.lookup x).getD 0 = (a₁.axisSizes.lookup x).getD 0
    rw [axes₄]
  have ellipsis : ∀ j, σ (.ellipsis j) = a₁.ellipsisDims.getD j 0 := fun j => by
    simp only [σ, labelSize, planEll]
  have freshSized : ∀ k (hk : k < e.newAxes.length), e.newAxes[k].size = σ (.fresh k) := fun k hk => by
    simp [σ, labelSize, List.getD_eq_getElem?_getD, hk]
  have dims₂ : a₂.dims = (e.joinedLabels w).map σ := by
    rw [joinKeep]
    exact dims_of_split hold splits σ named ellipsis
  have wideW : ((allAxes e.inputs).length + e.newAxes.length + w : Int) ≤ Word.maxInt64 := by
    rw [planEll] at wide
    exact wide
  obtain ⟨steps, appended, kinds, -⟩ := afterJoin_trace hold out₀ once₀ wideW σ freshSized width₂ dims₂
    reduced permuted repeated merged
  have planSteps : plan.steps = a₂.steps ++ steps := by rw [hplan, ← appended]
  refine ⟨dtype, a₁, a₂, steps, loop, joined, planSteps, by rw [hplan], planEll, named, ellipsis, kinds, toks, scan,
    ⟨p₀, fits₀⟩, fun p fits split t start none => ?_⟩
  obtain ⟨read, out, once⟩ := outputOf p fits
  have slots : e.output.map Slot.shape = p.output.map OutputTerm.shape := by
    obtain ⟨ds, t, o, -, -, -, outOk, shape⟩ := p.read_eq_some read
    obtain ⟨new, slotsEq, shapes⟩ := readOutput_slots opts.axisSizes t p.output {} o outOk
    rw [shape]
    simp [slotsEq, shapes]
  obtain ⟨steps', appended', -, after⟩ := afterJoin_trace hold out once wideW σ freshSized width₂ dims₂
    reduced permuted repeated merged
  have same : steps' = steps := List.append_cancel_left (appended'.symm.trans appended)
  rw [← same, after split t (by rw [start, planEll]) none, planEll, ← slots,
    fresh_sizes e.newAxes σ fun k hk => (freshSized k hk).symm, out.map_size_newAxes]

/-- A compiled plan replayed on labels. Label each input's axes by the names of its
decomposition (a group's members one label each, the ellipsis one label per axis it matches), each
label with the size the plan records for it. The plan splits exactly the inputs with groups, in
order. Its steps leave one array: the output's labels, grouped by the output's slots. On the way
they delete the reduced axes, each once, from the last written to the first, each with its own
operation, and they insert one axis for each number and each sized new name of the output, in
order, each with its size. The names, the new axes
and the axes of the ellipsis must be fewer than a signed word counts. -/
theorem compile_replays {text : String} {inputs : List Shape} {opts : CompileOptions} {plan : Plan}
    {e : Expression} (parsed : Expression.parse text inputs.length opts.axisSizes = .ok e)
    (compiled : compile text inputs opts = .ok plan)
    (wide : ((allAxes e.inputs).length + e.newAxes.length + plan.ellipsisDims.length : Int) ≤ Word.maxInt64) :
    (plan.stepsOf .reshapeSplit).map (·.input) =
        (e.inputs.zipIdx.filter (·.1.hasGroups)).map (fun q => (q.2 : Int)) ∧
      ∃ toks, Token.scanBody text = .ok toks ∧ (∃ p : PatternSyntax, List.Forall₂ Token.Fits toks p.marks) ∧
        ∀ p : PatternSyntax, List.Forall₂ Token.Fits toks p.marks →
          Trace.run (fun i => (e.inputs.getD i default).labels plan.ellipsisDims.length) plan.steps
            { arrays := e.inputs.map fun d => cutRuns plan.ellipsisDims.length (d.dims.map d.dimShape)
                ((d.labels plan.ellipsisDims.length).map fun l => (l, labelSize plan e.newAxes l)) } =
          { arrays := [cutRuns plan.ellipsisDims.length (p.output.map OutputTerm.shape)
                ((outputLabels plan.ellipsisDims.length
                  (p.outputMembers.map (OutputMember.item opts.axisSizes e.names)) 0).map
                  fun l => (l, labelSize plan e.newAxes l))]
            reduced := e.reductions.reverse.map fun r =>
              ([(.axis r.name, labelSize plan e.newAxes (.axis r.name))], r.op)
            inserted := ((p.outputMembers.map (OutputMember.item opts.axisSizes e.names)).filterMap
              OutputItem.newSize?).zipIdx.map fun q => (.fresh q.2, q.1) } := by
  obtain ⟨dtype, a₁, a₂, steps, loop, joined, planSteps, -, planEll, named, ellipsis, oneArray, toks, scan, someTree,
    traced⟩ := compile_traced parsed compiled wide
  have hold := Expression.inputsHold_of_parse parsed
  obtain ⟨count, nonempty⟩ := Expression.inputs_of_parse parsed
  have splits := splitsAll_of_loop hold loop
  obtain ⟨-, splitInputs, inputTrace⟩ := inputs_trace hold splits (by omega) nonempty joined
  have noSplits : steps.filter (·.kind == .reshapeSplit) = [] :=
    List.filter_eq_nil_iff.2 fun s mem split => by
      simpa [Step.OnOneArray, eq_of_beq split] using oneArray s mem
  refine ⟨?_, toks, scan, someTree, fun p fits => ?_⟩
  · rw [Plan.stepsOf, planSteps, List.filter_append, noSplits, List.append_nil, splitInputs]
  · rw [planEll] at traced ⊢
    rw [planSteps, Trace.run_append, inputTrace _ named ellipsis _ rfl]
    exact traced p fits _ _ rfl rfl

end Replay

end Rearrange.Plan

namespace Rearrange.Plan

open Pattern

/-- Splitting the rows of a `6 × 4` array as `2 × 3`, summing its columns and repeating the first
axis twice into a group, replayed on labels. -/
theorem compile_replays_rows :
    ∃ e plan, Expression.parse "(h w) sum(c) -> (h 2) w" 1 [("h", 2)] = .ok e ∧
      compile "(h w) sum(c) -> (h 2) w" [⟨.float32, [6, 4]⟩] { axisSizes := [("h", 2)] } = .ok plan ∧
      ((allAxes e.inputs).length + e.newAxes.length + plan.ellipsisDims.length : Int) ≤ Word.maxInt64 ∧
      (plan.stepsOf .reshapeSplit).map (·.input) =
          (e.inputs.zipIdx.filter (·.1.hasGroups)).map (fun q => (q.2 : Int)) ∧
        ∃ toks, Token.scanBody "(h w) sum(c) -> (h 2) w" = .ok toks ∧
          (∃ p : PatternSyntax, List.Forall₂ Token.Fits toks p.marks) ∧
          ∀ p : PatternSyntax, List.Forall₂ Token.Fits toks p.marks →
            Trace.run (fun i => (e.inputs.getD i default).labels plan.ellipsisDims.length) plan.steps
              { arrays := e.inputs.map fun d => cutRuns plan.ellipsisDims.length (d.dims.map d.dimShape)
                  ((d.labels plan.ellipsisDims.length).map fun l => (l, labelSize plan e.newAxes l)) } =
            { arrays := [cutRuns plan.ellipsisDims.length (p.output.map OutputTerm.shape)
                  ((outputLabels plan.ellipsisDims.length
                    (p.outputMembers.map (OutputMember.item [("h", 2)] e.names)) 0).map
                    fun l => (l, labelSize plan e.newAxes l))]
              reduced := e.reductions.reverse.map fun r =>
                ([(.axis r.name, labelSize plan e.newAxes (.axis r.name))], r.op)
              inserted := ((p.outputMembers.map (OutputMember.item [("h", 2)] e.names)).filterMap
                OutputItem.newSize?).zipIdx.map fun q => (.fresh q.2, q.1) } := by
  have counts : ((Expression.parse "(h w) sum(c) -> (h 2) w" 1 [("h", 2)]).toOption.map fun e =>
      (allAxes e.inputs).length + e.newAxes.length) = some 4 := by
    decide +kernel
  have compiles : ((compile "(h w) sum(c) -> (h 2) w" [⟨.float32, [6, 4]⟩] { axisSizes := [("h", 2)] }).toOption.map
      fun plan => plan.ellipsisDims.length) = some 0 := by
    decide +kernel
  cases parsed : Expression.parse "(h w) sum(c) -> (h 2) w" 1 [("h", 2)] with
  | error f =>
    rw [parsed] at counts
    cases counts
  | ok e =>
  cases compiled : compile "(h w) sum(c) -> (h 2) w" [⟨.float32, [6, 4]⟩] { axisSizes := [("h", 2)] } with
  | error f =>
    rw [compiled] at compiles
    cases compiles
  | ok plan =>
  rw [parsed] at counts
  rw [compiled] at compiles
  simp only [Except.toOption, Option.map_some, Option.some.injEq] at counts compiles
  have wide : ((allAxes e.inputs).length + e.newAxes.length + plan.ellipsisDims.length : Int) ≤ Word.maxInt64 := by
    unfold Word.maxInt64
    omega
  have replayed := compile_replays parsed compiled wide
  exact ⟨e, plan, rfl, rfl, wide, replayed⟩

end Rearrange.Plan

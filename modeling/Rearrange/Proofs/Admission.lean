import Rearrange.Proofs.CheckPasses
import Rearrange.Proofs.PatternErrors
/-!
# Which inputs a pattern admits

A read pattern is laid out on its inputs' shapes: each input's axes take their sizes from the
dimensions they cover (`Decomposition.layout`), a name the size of the axis it names
(`Expression.axisSize`), the ellipsis the dimensions it covers (`Expression.ellipsisDims`). The
output then has as many elements as the product of the sizes of the kept axes and of the new axes
(`Expression.outputDims`).

A pattern admits the inputs (`Expression.Admits`) when all inputs are valid and of one element
type, each fits its shape (`Decomposition.Fits`: its rank, the size of each bare axis, the
product of each group), every size written on the output side is the size of its axis, no sum,
mean or product reduces booleans, and the output's element count fits a signed word.

The main statement is `compile_ok_iff_admits`: on inputs with positive dimensions whose joined
element count fits a signed word, compiling never aborts and never reports an inconsistent plan,
and it gives a plan exactly when the pattern reads and admits the inputs. The stages' lemmas
(`StageYields`, `CheckPasses`) say when each stage goes on; this module supplies their hypotheses
from the pattern as read and the inputs as split.
-/
namespace Rearrange.Pattern

open Plan

namespace Expression

variable (e : Expression) (inputs : List Shape)

/-- The inputs laid out on their shapes, one after the other. -/
def layouts : List (Label × Int) :=
  e.inputs.zipIdx.flatMap fun q => q.1.layout (inputs.getD q.2 Shape.invalid)

/-- The size a name of the inputs takes from their shapes, 0 for a name they do not lay out. -/
def axisSize (x : String) : Int := ((Assembly.namedSizes (e.layouts inputs)).lookup x).getD 0

/-- The input dimensions the ellipsis covers, none if the inputs have no ellipsis. -/
def ellipsisDims : List Int :=
  (e.inputs.zipIdx.filter (·.1.hasEllipsis)).flatMap fun q =>
    ((q.1.cover (inputs.getD q.2 Shape.invalid)).filter (·.1.ellipsis)).flatMap (·.2)

/-- The dimensions whose product is the output's element count: the size of each kept name in
table order, the dimensions the ellipsis covers in its place, then the size of each new axis. -/
def outputDims : List Int :=
  e.names.names.flatMap (fun x => if x = ellipsisName then e.ellipsisDims inputs else [e.axisSize inputs x]) ++
    e.newAxes.map (·.size)

/-- The size of each label of a pattern laid out on its inputs' shapes: a name's from the shapes,
an axis of the ellipsis the dimension it covers, and new axis `k` its own. -/
def labelSize : Label → Int
  | .axis x => e.axisSize inputs x
  | .ellipsis j => (e.ellipsisDims inputs).getD j 0
  | .fresh k => (e.newAxes.getD k default).size

/-- The inputs a read pattern admits: all valid and of the first input's element type, each
fitting its shape, every size written on the output side the size of its axis, no sum, mean or
product of booleans, and an output whose element count fits a signed word. -/
structure Admits : Prop where
  dtypes : ∀ s ∈ inputs, s.ok ∧ s.dtype = (inputs.headD Shape.invalid).dtype
  fits : ∀ q ∈ e.inputs.zipIdx, q.1.Fits (inputs.getD q.2 Shape.invalid)
  outputSizes : ∀ p ∈ e.outputSizes, e.axisSize inputs p.1 = p.2
  reductions : ¬((inputs.headD Shape.invalid).dtype = .bool ∧
    ∃ r ∈ e.reductions, Shape.isNumberReduction r.op = true)
  count : (e.outputDims inputs).prod ≤ Word.maxInt64

end Expression

section Reading

variable {text : String} {n : Int} {sizes : List (String × Int)} {e : Expression}

theorem InputTerm.length_signature_le (t : InputTerm) : t.signature.length ≤ t.marks.length := by
  cases t with
  | axis a => simp [InputTerm.signature, InputTerm.marks, InputAxis.marks]; split <;> simp
  | ellipsis q => simp [InputTerm.signature, InputTerm.marks]
  | group ms =>
    have each : (ms.map fun _ => 1).sum ≤ (ms.map fun a => a.marks.length).sum :=
      List.sum_le_sum fun a _ => by unfold InputAxis.marks; split <;> simp
    simp [InputTerm.signature, InputTerm.marks, List.length_flatMap] at each ⊢
    omega

theorem length_signatures_le_terms (ts : List InputTerm) :
    (ts.flatMap InputTerm.signature).length ≤ (ts.flatMap InputTerm.marks).length := by
  have each : (ts.map fun t => t.signature.length).sum ≤ (ts.map fun t => t.marks.length).sum :=
    List.sum_le_sum fun t _ => t.length_signature_le
  simpa [List.length_flatMap] using each

/-- The signatures of the inputs' items are no more than the tokens of the input side. -/
theorem length_signatures_le : ∀ tss : List (List InputTerm),
    (tss.flatten.flatMap InputTerm.signature).length ≤ (inputsMarks tss).length
  | [] => by simp
  | [ts] => by
    have here := length_signatures_le_terms ts
    simp only [List.flatten_cons, List.flatten_nil, List.append_nil, inputsMarks, List.length_append]
    omega
  | ts :: us :: more => by
    have here := length_signatures_le_terms ts
    have rest := length_signatures_le (us :: more)
    rw [List.flatten_cons, List.flatMap_append, List.length_append, inputsMarks, List.length_append,
      List.length_cons]
    omega

/-- The members of the output side are no more than its tokens. -/
theorem PatternSyntax.length_outputMembers_le (p : PatternSyntax) :
    p.outputMembers.length ≤ (p.output.flatMap OutputTerm.marks).length := by
  have member : ∀ m : OutputMember, 1 ≤ m.marks.length := fun m => by
    cases m <;> simp [OutputMember.marks]
  have term : ∀ t : OutputTerm, t.members.length ≤ t.marks.length := fun t => by
    cases t with
    | single m => simpa [OutputTerm.members, OutputTerm.marks] using member m
    | group ms q =>
      have each : (ms.map fun _ => 1).sum ≤ (ms.map fun m => m.marks.length).sum :=
        List.sum_le_sum fun m _ => member m
      simp [OutputTerm.members, OutputTerm.marks, List.length_flatMap] at each ⊢
      omega
  have all : (p.output.map fun t => t.members.length).sum ≤ (p.output.map fun t => t.marks.length).sum :=
    List.sum_le_sum fun t _ => term t
  simpa [PatternSyntax.outputMembers, List.length_flatMap] using all

/-- A read pattern is what a tree of the grammar reads as, a tree with no more tokens than the
pattern has bytes; the tree's output members stand for items for which the output side holds,
the ellipsis among them at most once. -/
theorem Expression.exists_syntax_of_parse (parsed : Expression.parse text n sizes = .ok e) :
    ∃ p : PatternSyntax, p.read text n sizes = some e ∧ p.marks.length ≤ text.utf8ByteSize ∧
      e.OutputHolds (p.outputMembers.map (OutputMember.item sizes e.names)) ∧
      ((p.outputMembers.map (OutputMember.item sizes e.names)).map OutputItem.isEllipsis).count true ≤ 1 := by
  obtain ⟨toks, scan, p, fits⟩ := fits_of_parse parsed
  have read : p.read text n sizes = some e := by
    rw [← parse_toOption_of_fits scan fits, parsed]
    rfl
  have written := scanFrom_wellWritten _ _ _ _ scan
  have outNames := outputAxes_wellWritten written fits
  have once : ((p.outputMembers.map (OutputMember.item sizes e.names)).map OutputItem.isEllipsis).count true ≤ 1 := by
    rw [p.items_isEllipsis outNames]
    exact (p.wellFormed_of_read written fits read).one_output_ellipsis
  refine ⟨p, read, ?_, p.outputHolds read outNames (Expression.inputsHold_of_parse parsed).names_nodup, once⟩
  rw [← fits.length_eq]
  exact scanBody_length scan

/-- A read pattern has no more axes on the input side and new axes on the output side together
than it has bytes: each stands for a token of its own. -/
theorem Expression.axes_le_bytes (parsed : Expression.parse text n sizes = .ok e) :
    (allAxes e.inputs).length + e.newAxes.length ≤ text.utf8ByteSize := by
  obtain ⟨p, read, bytes, out, -⟩ := Expression.exists_syntax_of_parse parsed
  obtain ⟨ds, t, o, inputsOk, -, -, -, shape⟩ := p.read_eq_some read
  obtain ⟨-, axes, whole, signature, -⟩ := readInputs_holds sizes p.inputs {} [] ds inputsOk (by simp)
  have inputSide : (allAxes e.inputs).length ≤ (inputsMarks p.inputs).length := by
    calc (allAxes e.inputs).length = axes.length := by rw [shape, whole]; simp [allAxes]
      _ = (p.inputs.flatten.flatMap InputTerm.signature).length := by rw [← signature, List.length_map]
      _ ≤ (inputsMarks p.inputs).length := length_signatures_le p.inputs
  have outputSide : e.newAxes.length ≤ (p.output.flatMap OutputTerm.marks).length := by
    rw [out.length_newAxes]
    exact (List.countP_le_length.trans (by simp)).trans p.length_outputMembers_le
  have total : p.marks.length = (inputsMarks p.inputs).length + (p.output.flatMap OutputTerm.marks).length := by
    simp [PatternSyntax.marks]
  omega

theorem Expression.InputsHold.reductions_known (hold : e.InputsHold) :
    ∀ r ∈ e.reductions, (Shape.isNumberReduction r.op || Shape.isOrderReduction r.op) = true := by
  intro r mem
  rw [hold.reductions, reducedAxes, List.mem_filterMap] at mem
  obtain ⟨a, aMem, made⟩ := mem
  by_cases red : a.isReduced
  · simp only [red, if_true, Option.some.injEq] at made
    rw [← made]
    exact hold.ops a aMem red
  · simp [red] at made

/-- Each new axis of an output side that holds has a positive size. -/
theorem Expression.OutputHolds.newAxes_pos {items : List OutputItem} (out : e.OutputHolds items) :
    ∀ b ∈ e.newAxes, 0 < b.size := by
  intro b mem
  have sized : b.size ∈ items.filterMap OutputItem.newSize? := by
    rw [← out.map_size_newAxes]
    exact List.mem_map_of_mem mem
  obtain ⟨i, iMem, made⟩ := List.mem_filterMap.1 sized
  have valid := out.valid i iMem
  cases i with
  | kept x k => simp [OutputItem.newSize?] at made
  | int k =>
    simp only [OutputItem.newSize?, Option.some.injEq] at made
    rw [← made]
    exact valid
  | named k x =>
    simp only [OutputItem.newSize?, Option.some.injEq] at made
    rw [← made]
    exact valid.1

end Reading

end Rearrange.Pattern

namespace Rearrange.Plan

open Pattern

/-- The layout of a plan as the chain of its stages: the element type, the split of each input,
the sizes written on the output side, the join, the reductions, the permutation, the new axes,
the merge, the output's shape and the final check. -/
theorem assemble_eq (e : Expression) (inputs : List Shape) (opts : CompileOptions) :
    assemble e inputs opts = checkDTypes e.pattern inputs >>= fun dtype =>
      forIn e.inputs.zipIdx ({ pattern := e.pattern, dtype } : Assembly) (fun (p : Decomposition × Nat) a => do
          let a ← a.split p.2 p.1 (inputs.getD p.2 Shape.invalid)
          pure (ForInStep.yield a)) >>= fun a₁ =>
      a₁.checkOutputSizes e.outputSizes >>= fun _ =>
      (if inputs.length > 1 then a₁.emit { kind := .join } else pure a₁) >>= fun a₂ =>
      a₂.reduceAll e.reductions >>= fun a₃ => a₃.permute e.permutation >>= fun a₄ =>
      a₄.repeatAll e.newAxes >>= fun a₅ => a₅.merge e.output >>= fun a₆ =>
      Shape.make a₆.dtype a₆.dims >>= fun output => verify e a₆ inputs output >>= fun _ =>
      pure { name := opts.planName, pattern := e.pattern, inputs, output, steps := a₆.steps,
             axisSizes := a₆.axisSizes, ellipsisDims := a₆.ellipsisDims } := by
  unfold assemble
  dsimp only
  congr 1
  funext dtype
  congr 1
  funext a₁
  congr 1
  funext u
  split <;> rfl

section Sizes

variable {e : Expression} (σ : Label → Int) {w : Nat}

theorem flatMap_nameSizes (names : List String) :
    names.flatMap (fun x => if x = ellipsisName then (List.range w).map (fun j => σ (.ellipsis j)) else [σ (.axis x)]) =
      (names.flatMap (Label.ofName w)).map σ := by
  rw [List.map_flatMap]
  refine List.flatMap_congr fun x _ => ?_
  unfold Label.ofName
  split <;> simp

theorem outputLabels_sizes_perm (hold : e.InputsHold) {items : List OutputItem} (out : e.OutputHolds items)
    (freshSized : ∀ k (hk : k < e.newAxes.length), e.newAxes[k].size = σ (.fresh k)) :
    ((outputLabels w items 0).map σ).Perm ((e.keptLabels w).map σ ++ e.newAxes.map (·.size)) := by
  have labels := (outputLabels_perm (w := w) (out.kept.nodup_iff.2 hold.names_nodup)).map σ
  rw [List.map_append] at labels
  refine labels.trans (List.Perm.append ((out.kept.flatMap_right (Label.ofName w)).map σ) (List.Perm.of_eq ?_))
  rw [← out.length_newAxes]
  refine List.ext_getElem (by simp) fun k h₁ _ => ?_
  have hk : k < e.newAxes.length := by simpa using h₁
  simp [freshSized k hk]

theorem map_getD_range {α : Type} (E : List α) (d : α) : (List.range E.length).map (fun j => E.getD j d) = E :=
  List.ext_getElem (by simp) fun j h₁ h₂ => by simp [List.getD_eq_getElem?_getD, h₂]

theorem outputDims_eq (e : Expression) (inputs : List Shape) :
    e.outputDims inputs = (e.keptLabels (e.ellipsisDims inputs).length).map (e.labelSize inputs) ++
      e.newAxes.map (·.size) := by
  have ellipsis : (List.range (e.ellipsisDims inputs).length).map (fun j => e.labelSize inputs (.ellipsis j)) =
      e.ellipsisDims inputs := map_getD_range _ 0
  rw [Expression.keptLabels, ← flatMap_nameSizes, ellipsis]
  rfl

end Sizes

section AfterJoin

variable {e : Expression} (hold : e.InputsHold) {items : List OutputItem} (out : e.OutputHolds items)
  (once : (items.map OutputItem.isEllipsis).count true ≤ 1)
  (apart : ∀ b ∈ e.newAxes, b.name ≠ "" → b.name ∉ (allAxes e.inputs).map (·.name))

include hold out once apart in
/-- From the joined inputs on, once the ellipsis matches `w` axes and the joined array is the
joined labels with positive sizes and a product that fits a signed word, the stages go on exactly
unless booleans need arithmetic reductions or the output's element count, the product of the
kept labels' and the new axes' sizes, overflows; the output's shape and the final check then
always pass. -/
theorem afterJoin_yields {w : Nat} (wide : ((allAxes e.inputs).length + e.newAxes.length + w : Int) ≤ Word.maxInt64)
    (σ : Label → Int) (freshSized : ∀ k (hk : k < e.newAxes.length), e.newAxes[k].size = σ (.fresh k))
    {inputs : List Shape} {a₂ : Assembly} (width : a₂.width = w) (dims : a₂.dims = (e.joinedLabels w).map σ)
    (pos : ∀ l ∈ e.joinedLabels w, 0 < σ l) (small : a₂.dims.prod ≤ Word.maxInt64)
    (named : ∀ x ∈ (allAxes e.inputs).map (·.name), a₂.sizeOf x = σ (.axis x))
    (ellipsis : a₂.ellipsisDims = (List.range w).map fun j => σ (.ellipsis j))
    (replays : Replays inputs a₂.steps) (recorded : recordedAfter inputs a₂.steps = [⟨a₂.dtype, a₂.dims⟩])
    (finish : Assembly → Shape → Plan) :
    Yields (¬(a₂.dtype = .bool ∧ ∃ r ∈ e.reductions, Shape.isNumberReduction r.op = true) ∧
        ((e.keptLabels w).map σ ++ e.newAxes.map (·.size)).prod ≤ Word.maxInt64) (fun _ => True)
      (a₂.reduceAll e.reductions >>= fun a₃ => a₃.permute e.permutation >>= fun a₄ =>
        a₄.repeatAll e.newAxes >>= fun a₅ => a₅.merge e.output >>= fun a₆ =>
        Shape.make a₆.dtype a₆.dims >>= fun output => verify e a₆ inputs output >>= fun _ =>
        pure (finish a₆ output)) := by
  obtain ⟨joinedFits, outputFits, namesFit⟩ := hold.labels_fit out once wide
  obtain ⟨placed, desc⟩ := hold.reductions_placed joinedFits
  have keptSub : (e.keptLabels w).Sublist (e.joinedLabels w) := by
    rw [← hold.joined_filter_reduced (List.reverse_perm _)]
    exact List.filter_sublist
  have nodupK : (e.keptLabels w).Nodup := Label.flatMap_ofName_nodup w hold.names_nodup
  have posK : ∀ l ∈ e.keptLabels w, 0 < σ l := fun l mem => pos l (keptSub.subset mem)
  have sizesPerm := outputLabels_sizes_perm σ hold out freshSized (w := w)
  have posF : ∀ y ∈ (outputLabels w items 0).map σ, 0 < y := by
    intro y mem
    rcases List.mem_append.1 (sizesPerm.subset mem) with kept | new
    · obtain ⟨l, lMem, rfl⟩ := List.mem_map.1 kept
      exact posK l lMem
    · obtain ⟨b, bMem, rfl⟩ := List.mem_map.1 new
      exact out.newAxes_pos b bMem
  have keptSmall : ((e.keptLabels w).map σ).prod ≤ Word.maxInt64 := by
    refine (prod_le_of_sublist (keptSub.map σ) fun y mem => ?_).trans (dims ▸ small)
    obtain ⟨l, lMem, rfl⟩ := List.mem_map.1 mem
    exact pos l lMem
  -- the stages in order: only the reductions and the new axes can fail
  refine Yields.congr (c := ¬(a₂.dtype = .bool ∧ ∃ r ∈ e.reductions, Shape.isNumberReduction r.op = true) ∧
    True ∧ ((outputLabels w items 0).map σ).prod ≤ Word.maxInt64 ∧ True ∧ True ∧ True ∧ True) ?_ ?_
  · rw [sizesPerm.prod_eq]
    simp only [true_and, and_true]
  refine (reduceAll_yields σ (L := e.joinedLabels w) (Label.flatMap_ofName_nodup w hold.names) dims pos hold.mergeSort_reductions
      (fun r mem => by rw [width]; exact placed r mem) desc hold.reductions_known).withOk.bind
    fun _ a₃ h₃ => ?_
  obtain ⟨reduced, replays₃⟩ := h₃
  obtain ⟨shape₃, -⟩ := Assembly.reduceAll_trace σ (L := e.joinedLabels w) (Label.flatMap_ofName_nodup w hold.names) dims
    hold.mergeSort_reductions (fun r mem => by rw [width]; exact placed r mem) desc reduced
  rw [hold.joined_filter_reduced (List.reverse_perm _)] at shape₃
  have width₃ : a₃.width = w := by rw [shape₃, width]
  have dims₃ : a₃.dims = (e.keptLabels w).map σ := by rw [shape₃]
  have listed := permutation_labels hold out width₃ namesFit
  refine (permute_yields σ dims₃ posK nodupK (out.kept.flatMap_right (Label.ofName w)) listed).withOk.bind
    fun _ a₄ h₄ => ?_
  obtain ⟨permuted, replays₄⟩ := h₄
  obtain ⟨-, shape₄, -⟩ := Assembly.permute_trace σ dims₃
    (fun l mem => (out.kept.flatMap_right (Label.ofName w)).subset mem) listed permuted
  have width₄ : a₄.width = w := by rw [shape₄, width₃]
  have filtered := filter_outputLabels w items 0 (n := e.newAxes.length) (by rw [out.length_newAxes]; omega)
  have dims₄ : a₄.dims = ((outputLabels w items 0).filter (· ∉ (List.range e.newAxes.length).map Label.fresh)).map σ := by
    rw [shape₄, filtered]
  have small₄ : a₄.dims.prod ≤ Word.maxInt64 := by
    rw [shape₄]
    exact (((out.kept.flatMap_right (Label.ofName w)).map σ).prod_eq).trans_le keptSmall
  have placedNew : ∀ k (hk : k < e.newAxes.length), Label.fresh k ∈ outputLabels w items 0 ∧
      e.newAxes[k].index.resolve a₄.width = (outputLabels w items 0).idxOf (.fresh k) ∧ e.newAxes[k].size = σ (.fresh k) := by
    intro k hk
    obtain ⟨mem, resolved, -⟩ := out.newAxes_placed w once outputFits hk
    exact ⟨mem, by rw [width₄]; exact resolved, freshSized k hk⟩
  have inc : ∀ j k, j < k → k < e.newAxes.length → (outputLabels w items 0).idxOf (.fresh j) < (outputLabels w items 0).idxOf (.fresh k) :=
    fun j k lt hk => (out.newAxes_placed w once outputFits hk).2.2 j lt
  have nodupF : (outputLabels w items 0).Nodup := outputLabels_nodup w (out.kept.nodup_iff.2 hold.names_nodup)
  have posLabels : ∀ l ∈ outputLabels w items 0, 0 < σ l := fun l mem => posF _ (List.mem_map_of_mem mem)
  refine (repeatAll_yields σ nodupF dims₄ posLabels placedNew inc small₄).withOk.bind fun fitsF a₅ h₅ => ?_
  obtain ⟨repeated, replays₅⟩ := h₅
  obtain ⟨shape₅, sizes₅, -⟩ := Assembly.repeatAll_trace σ nodupF dims₄ placedNew inc repeated
  have width₅ : a₅.width = w := by rw [shape₅, width₄]
  have dims₅ : a₅.dims = (outputLabels w items 0).map σ := by rw [shape₅]
  have cover : runsLength w (e.output.map Slot.shape) = a₅.dims.length := by
    rw [out.runsLength_output w, dims₅, List.length_map]
  refine (merge_yields a₅ width₅ cover (dims₅ ▸ posF) (dims₅ ▸ fitsF)).withOk.bind fun _ a₆ h₆ => ?_
  obtain ⟨merged, replays₆⟩ := h₆
  obtain ⟨merging, -, shape₆⟩ := merge_ok a₅ width₅ cover (dims₅ ▸ posF) (dims₅ ▸ fitsF) merged
  have width₆ : a₆.width = w := by rw [shape₆, width₅]
  have dims₆ : a₆.dims = mergeRuns w (e.output.map Slot.shape) a₅.dims := by rw [shape₆]
  have pos₆ : ∀ y ∈ a₆.dims, 0 < y := by
    rw [dims₆]
    exact mergeRuns_pos _ _ (dims₅ ▸ posF)
  refine (Yields.of_ok (make_of_pos pos₆) rfl).bind fun _ output isOutput => ?_
  subst isOutput
  have replayed := (((replays₃.trans replays₄).trans replays₅).trans replays₆).replays replays recorded
  have rank : (e.output.map a₆.slotRank).foldl (· + ·) 0 = ((⟨a₆.dtype, a₆.dims⟩ : Shape).rank : Int) := by
    rw [foldl_slotRank a₆ width₆ e.output, Shape.rank, dims₆, length_mergeRuns _ _ cover.le]
    rw [Nat.cast_list_sum]
    simp only [List.map_map]
    refine congrArg List.sum (List.map_congr_left fun slot _ => ?_)
    by_cases grouped : slot.shape.1 <;> simp [grouped]
  have sizes₆ : ∀ x ∈ e.names.names, a₆.sizeOf x = σ (.axis x) := by
    intro x mem
    have input : x ∈ (allAxes e.inputs).map (·.name) := by
      rw [hold.names_eq] at mem
      exact (List.filter_sublist.map _).subset mem
    have others : ∀ b ∈ e.newAxes, b.name ≠ "" → b.name ≠ x := fun b bMem named same =>
      apart b bMem named (same ▸ input)
    calc a₆.sizeOf x = a₅.sizeOf x := by rw [shape₆]; rfl
      _ = a₄.sizeOf x := sizes₅ x others
      _ = a₂.sizeOf x := by rw [shape₄, shape₃]; rfl
      _ = σ (.axis x) := named x input
  have ellipsis₆ : a₆.ellipsisDims = (List.range w).map fun j => σ (.ellipsis j) := by
    rw [shape₆, shape₅, shape₄, shape₃]
    exact ellipsis
  have counted : (e.names.names.flatMap fun n => if n = ellipsisName then a₆.ellipsisDims else [a₆.sizeOf n]) ++
      e.newAxes.map (·.size) = (e.keptLabels w).map σ ++ e.newAxes.map (·.size) := by
    rw [Expression.keptLabels, ← flatMap_nameSizes σ, ellipsis₆]
    congr 1
    exact List.flatMap_congr fun x mem => by rw [sizes₆ x mem]
  have posCounted : ∀ y ∈ (e.keptLabels w).map σ ++ e.newAxes.map (·.size), 0 < y :=
    fun y mem => posF y (sizesPerm.symm.subset mem)
  have bounded : ((e.keptLabels w).map σ ++ e.newAxes.map (·.size)).prod ≤ Word.maxInt64 := by
    rwa [← sizesPerm.prod_eq]
  -- merging keeps the element count, which fits a signed word
  have size : (⟨a₆.dtype, a₆.dims⟩ : Shape).size = ((e.keptLabels w).map σ ++ e.newAxes.map (·.size)).prod := by
    have merged : a₆.dims.prod = ((outputLabels w items 0).map σ).prod := by
      rw [dims₆, prod_mergeRuns, cover, List.take_length, dims₅]
    unfold Shape.size Word.product
    rw [← List.prod_eq_foldl, merged, sizesPerm.prod_eq,
      Word.wrapInt64_of_le (Word.prod_pos_of_pos _ posCounted).le bounded]
  have count : Word.checkedProduct ((e.names.names.flatMap fun n =>
      if n = ellipsisName then a₆.ellipsisDims else [a₆.sizeOf n]) ++ e.newAxes.map (·.size)) =
      some (⟨a₆.dtype, a₆.dims⟩ : Shape).size := by
    rw [counted, checkedProduct_of_pos posCounted, if_pos bounded, size]
  have checked : Yields True (fun _ : Unit => True) (verify e a₆ inputs ⟨a₆.dtype, a₆.dims⟩) :=
    Yields.of_ok (verify_ok replayed.1 replayed.2 rank count) trivial
  exact checked.bind fun _ _ _ => Yields.pure trivial

end AfterJoin

section Split

variable {e : Expression} {inputs : List Shape} {dtype : DType} {a₁ : Assembly}
  (splits : Assembly.SplitsAll { pattern := e.pattern, dtype } a₁ e.inputs.zipIdx fun i => inputs.getD i Shape.invalid)

include splits

theorem sizeOf_of_split (x : String) : a₁.sizeOf x = e.axisSize inputs x := by
  rw [splits.sizes x]
  rfl

/-- After the split the ellipsis has the dimensions it covers in the inputs' shapes. -/
theorem ellipsisDims_of_split (hold : e.InputsHold) : a₁.ellipsisDims = e.ellipsisDims inputs := by
  by_cases some : ∃ q ∈ e.inputs.zipIdx, q.1.hasEllipsis = true
  · obtain ⟨q, mem, ell⟩ := some
    have inFilter : q ∈ e.inputs.zipIdx.filter (·.1.hasEllipsis) := List.mem_filter.2 ⟨mem, ell⟩
    obtain ⟨r, only⟩ := List.length_eq_one_iff.1
      (le_antisymm (filter_hasEllipsis_le hold) (List.length_pos_of_mem inFilter))
    rw [only, List.mem_singleton] at inFilter
    rw [(splits.ellipsis q mem ell).2, Expression.ellipsisDims, only, inFilter, List.flatMap_singleton]
  · have none : ∀ q ∈ e.inputs.zipIdx, q.1.hasEllipsis = false := fun q mem => by
      simpa using fun ell => some ⟨q, mem, ell⟩
    rw [(splits.plain none).2, Expression.ellipsisDims, List.filter_eq_nil_iff.2 fun q mem => by simp [none q mem]]
    rfl

/-- The ellipsis matches no more axes than the inputs have. -/
theorem length_ellipsisDims_le (hold : e.InputsHold) (count : inputs.length = e.inputs.length) :
    (e.ellipsisDims inputs).length ≤ (inputs.map (·.rank)).sum := by
  rw [← ellipsisDims_of_split splits hold]
  by_cases some : ∃ q ∈ e.inputs.zipIdx, q.1.hasEllipsis = true
  · obtain ⟨q, mem, ell⟩ := some
    rw [length_ellipsisDims_of_mem hold splits mem ell, Decomposition.width]
    have lt : q.2 < inputs.length := by
      have := (List.mem_zipIdx mem).2.1
      omega
    have inInputs : inputs.getD q.2 Shape.invalid ∈ inputs := by
      rw [List.getD_eq_getElem?_getD, List.getElem?_eq_getElem lt, Option.getD_some]
      exact List.getElem_mem lt
    -- an input with the ellipsis has at least one dimension, and its rank counts in the sum
    obtain ⟨dim, dimMem, -⟩ := List.any_eq_true.1 ell
    have hasDim : 0 < q.1.dims.length := List.length_pos_of_mem dimMem
    have le := List.le_sum_of_mem (List.mem_map_of_mem (f := (·.rank)) inInputs)
    omega
  · have none : ∀ q ∈ e.inputs.zipIdx, q.1.hasEllipsis = false := fun q mem => by
      simpa using fun ell => some ⟨q, mem, ell⟩
    rw [(splits.plain none).2]
    simp

end Split

section Assemble

variable {e : Expression} (hold : e.InputsHold) {items : List OutputItem} (out : e.OutputHolds items)
  (once : (items.map OutputItem.isEllipsis).count true ≤ 1)
  (apart : ∀ b ∈ e.newAxes, b.name ≠ "" → b.name ∉ (allAxes e.inputs).map (·.name))

include hold out once apart in
/-- Laying out a read pattern on inputs with positive dimensions, whose joined element count fits a
signed word, gives a plan exactly when the pattern admits the inputs, and otherwise fails with an
ordinary error. The inputs' axes and the output's new axes together with the axes of the inputs
must be fewer than a signed word counts. -/
theorem assemble_yields {inputs : List Shape} (count : inputs.length = e.inputs.length) (nonempty : e.inputs ≠ [])
    (pos : ∀ s ∈ inputs, ∀ y ∈ s.dims, 0 < y) (small : (inputs.flatMap (·.dims)).prod ≤ Word.maxInt64)
    (wide : ((allAxes e.inputs).length + e.newAxes.length + (inputs.map (·.rank)).sum : Int) ≤ Word.maxInt64)
    (opts : CompileOptions) :
    Yields (e.Admits inputs) (fun _ => True) (assemble e inputs opts) := by
  set first := inputs.headD Shape.invalid
  have given : inputs ≠ [] := fun none => nonempty (List.length_eq_zero_iff.1 (by rw [← count, none]; rfl))
  have eachSmall : ∀ s ∈ inputs, s.dims.prod ≤ Word.maxInt64 := by
    intro s mem
    have sub : s.dims.Sublist (inputs.flatMap (·.dims)) := by
      rw [List.flatMap_def]
      exact List.sublist_flatten_of_mem (List.mem_map_of_mem mem)
    refine (prod_le_of_sublist sub fun y yMem => ?_).trans small
    obtain ⟨t, tMem, yIn⟩ := List.mem_flatMap.1 yMem
    exact pos t tMem y yIn
  have dimSmall : ∀ s ∈ inputs, ∀ y ∈ s.dims, y ≤ Word.maxInt64 := fun s mem y yMem =>
    calc y = [y].prod := List.prod_singleton.symm
      _ ≤ s.dims.prod := prod_le_of_sublist (List.singleton_sublist.2 yMem) (pos s mem)
      _ ≤ Word.maxInt64 := eachSmall s mem
  rw [assemble_eq]
  refine Yields.congr (c := (∀ s ∈ inputs, s.ok ∧ s.dtype = first.dtype) ∧
    (∀ q ∈ e.inputs.zipIdx, q.1.Fits (inputs.getD q.2 Shape.invalid)) ∧
    (∀ p ∈ e.outputSizes, e.axisSize inputs p.1 = p.2) ∧ True ∧
    ¬(first.dtype = .bool ∧ ∃ r ∈ e.reductions, Shape.isNumberReduction r.op = true) ∧
    (e.outputDims inputs).prod ≤ Word.maxInt64) ?_ ?_
  · exact ⟨fun h => ⟨h.1, h.2.1, h.2.2.1, h.2.2.2.2.1, h.2.2.2.2.2⟩,
      fun admits => ⟨admits.dtypes, admits.fits, admits.outputSizes, trivial, admits.reductions, admits.count⟩⟩
  refine (checkDTypes_yields e.pattern inputs).bind fun typed dtype isFirst => ?_
  refine (splitAll_yields hold pos dimSmall { pattern := e.pattern, dtype }).withOk.bind fun fits a₁ h₁ => ?_
  have splits := splitsAll_of_loop hold h₁.1
  refine ((checkOutputSizes_yields a₁ e.outputSizes).congr (by simp only [sizeOf_of_split splits])).bind
    fun _ _ _ => ?_
  refine (join_yields hold count given (fun s mem => ⟨(typed s mem).1, (typed s mem).2.trans isFirst.symm⟩) pos
    eachSmall fits splits).bind fun _ a₂ h₂ => ?_
  obtain ⟨joined, pos₂, prod₂, replays, recorded⟩ := h₂
  set w := (e.ellipsisDims inputs).length
  set σ := e.labelSize inputs
  have ellipsis₁ := ellipsisDims_of_split splits hold
  have width₂ : a₂.width = w := by
    rw [joined]
    show a₁.width = _
    rw [width_eq_length hold splits, ellipsis₁]
  have dims₂ : a₂.dims = (e.joinedLabels w).map σ := by
    rw [joined]
    show a₁.dims = _
    rw [dims_of_split hold splits σ (fun x _ => (sizeOf_of_split splits x).symm)
      (fun j => by rw [ellipsis₁]; rfl), ellipsis₁]
  have named₂ : ∀ x ∈ (allAxes e.inputs).map (·.name), a₂.sizeOf x = σ (.axis x) := fun x _ => by
    rw [joined]
    exact sizeOf_of_split splits x
  have ellipsis₂ : a₂.ellipsisDims = (List.range w).map fun j => σ (.ellipsis j) := by
    rw [joined]
    exact ellipsis₁.trans (map_getD_range _ 0).symm
  have wideW : ((allAxes e.inputs).length + e.newAxes.length + w : Int) ≤ Word.maxInt64 := by
    have := length_ellipsisDims_le splits hold count
    omega
  have dtype₂ : a₂.dtype = first.dtype := by
    rw [joined]
    exact splits.dtype.trans isFirst
  refine (afterJoin_yields hold out once apart wideW σ (fun k hk => by simp [σ, Expression.labelSize, hk])
    width₂ dims₂ (fun l mem => pos₂ _ (by rw [dims₂]; exact List.mem_map_of_mem mem)) (by rw [prod₂]; exact small)
    named₂ ellipsis₂ replays recorded _).congr ?_
  rw [dtype₂, outputDims_eq]

end Assemble

/-- Compiling a pattern for inputs with positive dimensions, whose joined element count fits a
signed word, never aborts and never reports an inconsistent plan, and it gives a plan exactly
when the pattern reads for as many inputs and admits them. The pattern's bytes and the inputs'
axes must be fewer than a signed word counts. -/
theorem compile_ok_iff_admits {text : String} {inputs : List Shape} {opts : CompileOptions}
    (pos : ∀ s ∈ inputs, ∀ y ∈ s.dims, 0 < y) (count : (inputs.flatMap (·.dims)).prod ≤ Word.maxInt64)
    (wide : (text.utf8ByteSize + (inputs.map (·.rank)).sum : Int) ≤ Word.maxInt64) :
    (∀ f, compile text inputs opts = .error f → f.Ordinary) ∧
      ((∃ plan, compile text inputs opts = .ok plan) ↔
        ∃ e, Expression.parse text inputs.length opts.axisSizes = .ok e ∧ e.Admits inputs) := by
  cases parsed : Expression.parse text inputs.length opts.axisSizes with
  | error err =>
    have failed : compile text inputs opts = .error (.tagged err) := by
      unfold compile
      rw [parsed]
      rfl
    have ofPattern := Expression.parse_error_ofPattern parsed
    refine ⟨fun f h => ?_, by simp [failed]⟩
    rw [failed] at h
    cases h
    exact ⟨rfl, fun same => ofPattern (Option.some.inj same)⟩
  | ok e =>
    have hold := Expression.inputsHold_of_parse parsed
    obtain ⟨arity, nonempty⟩ := Expression.inputs_of_parse parsed
    obtain ⟨p, read, -, out, once⟩ := Expression.exists_syntax_of_parse parsed
    have bytes := Expression.axes_le_bytes parsed
    have laid := (assemble_yields hold out once (p.newAxis_name read hold out) (by omega) nonempty pos count
      (by omega) opts).mapError ("einops.Compile(" ++ Text.quote text ++ ", " ++
        Text.bracketed (inputs.map (·.text)) ++ ")")
    have compiled : compile text inputs opts = (assemble e inputs opts).mapError
        (·.withContext ("einops.Compile(" ++ Text.quote text ++ ", " ++ Text.bracketed (inputs.map (·.text)) ++ ")")) := by
      unfold compile
      rw [parsed]
      rfl
    rw [compiled, laid.ok_iff]
    refine ⟨fun f h => laid.ordinary h, fun admits => ⟨e, rfl, admits⟩, fun found => ?_⟩
    obtain ⟨e', same, admits⟩ := found
    cases same
    exact admits


/-- Splitting the rows of a `6 × 4` array into `2 × 3` and merging the last two axes: the
dimensions are positive, the array small, and the pattern short. -/
theorem compile_ok_iff_admits_rows :
    (∀ s ∈ [(⟨.float32, [6, 4]⟩ : Shape)], ∀ y ∈ s.dims, 0 < y) ∧
      ([(⟨.float32, [6, 4]⟩ : Shape)].flatMap (·.dims)).prod ≤ Word.maxInt64 ∧
      ("(h w) c -> h (w c)".utf8ByteSize + ([(⟨.float32, [6, 4]⟩ : Shape)].map (·.rank)).sum : Int) ≤ Word.maxInt64 ∧
      (∀ f, compile "(h w) c -> h (w c)" [⟨.float32, [6, 4]⟩] { axisSizes := [("h", 2)] } = .error f → f.Ordinary) ∧
      ((∃ plan, compile "(h w) c -> h (w c)" [⟨.float32, [6, 4]⟩] { axisSizes := [("h", 2)] } = .ok plan) ↔
        ∃ e, Expression.parse "(h w) c -> h (w c)" 1 [("h", 2)] = .ok e ∧ e.Admits [⟨.float32, [6, 4]⟩]) :=
  have pos : ∀ s ∈ [(⟨.float32, [6, 4]⟩ : Shape)], ∀ y ∈ s.dims, 0 < y := by decide
  have small : ([(⟨.float32, [6, 4]⟩ : Shape)].flatMap (·.dims)).prod ≤ Word.maxInt64 := by decide
  have short : ("(h w) c -> h (w c)".utf8ByteSize + ([(⟨.float32, [6, 4]⟩ : Shape)].map (·.rank)).sum : Int) ≤
      Word.maxInt64 := by decide
  ⟨pos, small, short, compile_ok_iff_admits pos small short⟩

end Rearrange.Plan

import Rearrange.Proofs.OutputAccepted
/-!
# A tree is read exactly when it is accepted

`PatternSyntax.read_isSome_iff`: reading a tree succeeds exactly when the tree satisfies
`PatternSyntax.Accepted`. The reading is taken apart into its stages (`read_isSome_iff_parts`):
the inputs, their number, the name table and the output side, each already characterized. What
is left is to say the stages' conditions in the words of the tree.

The name table holds the labels of the input side: `keptLabels` are the names the output must
use, the kept axes with the ellipsis under `..`, and the others are the reduced names. Since the
names of the input side are distinct, a name is kept or reduced, never both
(`not_reduced_of_kept`). The sizes are checked at each written name, on either side
(`sizeOccurrences`), and `readSizes_iff` turns the checks into the three conditions of
`Accepted` on sizes.
-/
namespace Rearrange.Pattern

theorem InputTerm.reduced_labels (t : InputTerm) :
    t.labels.filter (·.2 ≠ .none) = (t.axes.filter (·.reduce ≠ .none)).map InputAxis.label := by
  cases t with
  | axis a => by_cases kept : a.reduce = .none <;> simp [InputTerm.labels, InputTerm.axes, InputAxis.label, kept]
  | ellipsis q => simp [InputTerm.labels, InputTerm.axes]
  | group ms =>
    simp only [InputTerm.labels, InputTerm.axes, List.filter_map]
    rfl

theorem InputTerm.mem_kept_labels {t : InputTerm} {x : String} :
    x ∈ (t.labels.filter (·.2 = .none)).map Prod.fst ↔
      x ∈ (t.axes.filter (·.reduce = .none)).map (·.name) ∨ (x = ellipsisName ∧ ∃ q, t = .ellipsis q) := by
  cases t with
  | axis a => by_cases kept : a.reduce = .none <;> simp [InputTerm.labels, InputTerm.axes, InputAxis.label, kept]
  | ellipsis q => simp [InputTerm.labels, InputTerm.axes]
  | group ms =>
    have noEllipsis : ¬ ∃ q, InputTerm.group ms = .ellipsis q := by simp
    simp only [InputTerm.labels, InputTerm.axes, List.filter_map, List.map_map, noEllipsis,
      and_false, or_false]
    rfl

namespace PatternSyntax

variable (p : PatternSyntax)

/-- The names and reductions of the input side, in order; the ellipsis is `..` and kept. -/
def labels : List (String × Reduction) := p.inputTerms.flatMap InputTerm.labels

/-- The names the output side must use: the kept axes of the inputs and the ellipsis, in order. -/
def keptLabels : List String := (p.labels.filter (·.2 = .none)).map Prod.fst

theorem labels_map_fst : p.labels.map Prod.fst = p.leftNames := by
  unfold labels leftNames
  rw [List.map_flatMap]
  congr 1
  funext t
  cases t <;> simp [InputTerm.labels, InputTerm.names, InputAxis.label]

theorem reduced_labels : (p.labels.filter (·.2 ≠ .none)).map Prod.fst = p.reducedNames := by
  unfold labels reducedNames inputAxes
  rw [List.filter_flatMap, List.filter_flatMap, List.map_flatMap, List.map_flatMap]
  congr 1
  funext t
  rw [InputTerm.reduced_labels, List.map_map]
  rfl

theorem mem_keptLabels {x : String} :
    x ∈ p.keptLabels ↔ x ∈ p.keptNames ∨ (x = ellipsisName ∧ ∃ q, InputTerm.ellipsis q ∈ p.inputTerms) := by
  unfold keptLabels keptNames labels inputAxes
  rw [List.filter_flatMap, List.filter_flatMap, List.map_flatMap, List.map_flatMap, List.mem_flatMap,
    List.mem_flatMap]
  simp only [InputTerm.mem_kept_labels]
  constructor
  · rintro ⟨t, mem, kept | ⟨rfl, q, rfl⟩⟩
    · exact .inl ⟨t, mem, kept⟩
    · exact .inr ⟨rfl, q, mem⟩
  · rintro (⟨t, mem, kept⟩ | ⟨rfl, q, mem⟩)
    · exact ⟨t, mem, .inl kept⟩
    · exact ⟨_, mem, .inr ⟨rfl, q, rfl⟩⟩

theorem mem_leftNames {x : String} : x ∈ p.leftNames ↔ x ∈ p.keptLabels ∨ x ∈ p.reducedNames := by
  rw [← labels_map_fst, keptLabels, ← reduced_labels]
  simp only [List.mem_map, List.mem_filter]
  constructor
  · rintro ⟨l, mem, rfl⟩
    by_cases kept : l.2 = .none
    · exact .inl ⟨l, ⟨mem, by simpa using kept⟩, rfl⟩
    · exact .inr ⟨l, ⟨mem, by simpa using kept⟩, rfl⟩
  · rintro (⟨l, ⟨mem, -⟩, rfl⟩ | ⟨l, ⟨mem, -⟩, rfl⟩) <;> exact ⟨l, mem, rfl⟩

theorem not_reduced_of_kept (distinct : p.leftNames.Nodup) {x : String} (kept : x ∈ p.keptLabels) :
    x ∉ p.reducedNames := by
  rw [← labels_map_fst] at distinct
  rw [← reduced_labels]
  intro reduced
  obtain ⟨l, keptMem, rfl⟩ := List.mem_map.1 kept
  obtain ⟨l', reducedMem, same⟩ := List.mem_map.1 reduced
  rw [List.mem_filter] at keptMem reducedMem
  have equal := List.inj_on_of_nodup_map distinct reducedMem.1 keptMem.1 same
  subst equal
  simp_all

/-- Every name written in the pattern with the size written after it, if any: the axes of the
inputs, then the named members of the output. -/
def sizeOccurrences : List (String × Option Int) :=
  p.inputAxes.map (fun a => (a.name, a.size)) ++ p.outputAxes

theorem writtenSizes_eq : p.writtenSizes = p.sizeOccurrences.filterMap fun o => o.2.map (o.1, ·) := by
  unfold writtenSizes sizeOccurrences
  rw [List.filterMap_append, List.filterMap_map]
  rfl

theorem axisNames_eq : p.axisNames = p.sizeOccurrences.map Prod.fst := by
  unfold axisNames sizeOccurrences
  rw [List.map_append, List.map_map]
  rfl

/-- The tree reads when its inputs read, there are `n` of them, the table is built, and the
output reads against it. -/
theorem read_isSome_iff_parts (text : String) (n : Int) (sizes : List (String × Int)) :
    (p.read text n sizes).isSome ↔
      ∃ ds, readInputs sizes {} [] p.inputs = some ds ∧ (ds.length : Int) = n ∧
        ∃ t, NameTable.build text ds = .ok t ∧ (readOutput sizes t {} p.output).isSome := by
  unfold PatternSyntax.read
  cases inputsOk : readInputs sizes {} [] p.inputs with
  | none => simp
  | some ds =>
    by_cases arity : (ds.length : Int) = n
    · cases built : NameTable.build text ds with
      | error e => simp [arity, built]
      | ok t => cases out : readOutput sizes t {} p.output <;> simp [arity, built, out]
    · simp [arity]

theorem mem_outputAxes {x : String} {s : Option Int} :
    (x, s) ∈ p.outputAxes ↔ ∃ q, OutputMember.axis x s q ∈ p.outputMembers := by
  unfold outputAxes
  rw [List.mem_filterMap]
  constructor
  · rintro ⟨m, mem, named⟩
    cases m <;> simp only [OutputMember.named?, Option.some.injEq, Prod.mk.injEq, reduceCtorEq] at named
    obtain ⟨rfl, rfl⟩ := named
    exact ⟨_, mem⟩
  · rintro ⟨q, mem⟩
    exact ⟨_, mem, rfl⟩

theorem mem_outputInts {k : Int} : k ∈ p.outputInts ↔ ∃ q, OutputMember.int k q ∈ p.outputMembers := by
  unfold outputInts
  rw [List.mem_filterMap]
  constructor
  · rintro ⟨m, mem, isInt⟩
    cases m <;> simp only [OutputMember.int?, Option.some.injEq, reduceCtorEq] at isInt
    subst isInt
    exact ⟨_, mem⟩
  · rintro ⟨q, mem⟩
    exact ⟨_, mem, rfl⟩

theorem mem_outputUsed {x : String} :
    x ∈ p.outputUsed ↔ (∃ s q, OutputMember.axis x s q ∈ p.outputMembers) ∨
      (x = ellipsisName ∧ ∃ q, OutputMember.ellipsis q ∈ p.outputMembers) := by
  unfold outputUsed
  rw [List.mem_flatMap]
  constructor
  · rintro ⟨m, mem, used⟩
    cases m <;> simp only [OutputMember.used, List.mem_singleton, List.not_mem_nil] at used
    · subst used
      exact .inl ⟨_, _, mem⟩
    · subst used
      exact .inr ⟨rfl, _, mem⟩
  · rintro (⟨s, q, mem⟩ | ⟨rfl, q, mem⟩)
    · exact ⟨_, mem, by simp [OutputMember.used]⟩
    · exact ⟨_, mem, by simp [OutputMember.used]⟩

end PatternSyntax

section Sizes

variable (sizes : List (String × Int))

/-- The sizes of some written names all read exactly when every written size is positive, every
size given for one of the names is positive, and a written size agrees with the given one. -/
theorem readSizes_iff (occ : List (String × Option Int)) :
    (∀ o ∈ occ, (readSize sizes o.1 o.2).isSome) ↔
      (∀ x k, (x, k) ∈ occ.filterMap (fun o => o.2.map (o.1, ·)) → 0 < k) ∧
      (∀ x ∈ occ.map Prod.fst, ∀ g, sizes.lookup x = some g → 0 < g) ∧
      (∀ x k, (x, k) ∈ occ.filterMap (fun o => o.2.map (o.1, ·)) →
        ∀ g, sizes.lookup x = some g → k = g) := by
  have written : ∀ {x k}, (x, k) ∈ occ.filterMap (fun o => o.2.map (o.1, ·)) ↔
      ∃ o ∈ occ, o.1 = x ∧ o.2 = some k := by
    intro x k
    rw [List.mem_filterMap]
    constructor
    · rintro ⟨o, mem, sized⟩
      obtain ⟨w, hw, same⟩ := Option.map_eq_some_iff.1 sized
      simp only [Prod.mk.injEq] at same
      exact ⟨o, mem, same.1, same.2 ▸ hw⟩
    · rintro ⟨o, mem, rfl, sized⟩
      exact ⟨o, mem, by simp [sized]⟩
  simp only [readSize_isSome, written]
  constructor
  · intro all
    refine ⟨?_, ?_, ?_⟩
    · rintro x k ⟨o, mem, -, sized⟩
      exact (all o mem).1 k sized
    · intro x mem g given
      obtain ⟨o, memo, rfl⟩ := List.mem_map.1 mem
      exact ((all o memo).2 g given).1
    · rintro x k ⟨o, mem, rfl, sized⟩ g given
      exact ((all o mem).2 g given).2 k sized
  · rintro ⟨positive, givenPos, agrees⟩ o mem
    refine ⟨fun w hw => positive o.1 w ⟨o, mem, rfl, hw⟩, fun g given => ⟨?_, ?_⟩⟩
    · exact givenPos o.1 (List.mem_map_of_mem mem) g given
    · exact fun w hw => agrees o.1 w ⟨o, mem, rfl, hw⟩ g given

end Sizes

namespace PatternSyntax

variable (p : PatternSyntax) {sizes : List (String × Int)}

theorem labels_of_read {ds : List Decomposition} (inputsOk : readInputs sizes {} [] p.inputs = some ds) :
    (allAxes ds).map Axis.label = p.labels := by
  rw [(readInputs_result sizes p.inputs inputsOk).2]
  rfl

/-- The table of inputs that are read is built exactly when the names of the input side are
distinct. -/
theorem build_ok_iff (text : String) {ds : List Decomposition}
    (inputsOk : readInputs sizes {} [] p.inputs = some ds) :
    (∃ t, NameTable.build text ds = .ok t) ↔ p.leftNames.Nodup := by
  have built := build_toOption text (p.labels_of_read inputsOk)
  rw [labels_map_fst] at built
  constructor
  · rintro ⟨t, ok⟩
    rw [ok] at built
    by_contra repeated
    simp [repeated] at built
  · intro distinct
    cases ok : NameTable.build text ds with
    | ok t => exact ⟨t, rfl⟩
    | error e =>
      rw [ok] at built
      simp [distinct] at built

/-- The table holds the kept names with the ellipsis, and the reduced names. -/
theorem table_of_build (text : String) {ds : List Decomposition} {t : NameTable}
    (inputsOk : readInputs sizes {} [] p.inputs = some ds) (ok : NameTable.build text ds = .ok t) :
    (∀ x, (t.lookup x).isSome ↔ x ∈ p.keptLabels) ∧ (∀ x, t.isReduced x = true ↔ x ∈ p.reducedNames) := by
  have built := build_toOption text (p.labels_of_read inputsOk)
  rw [ok, labels_map_fst, reduced_labels] at built
  have distinct := (p.build_ok_iff text inputsOk).1 ⟨t, ok⟩
  simp only [distinct, if_true, Except.toOption_ok_eq, Option.map_some, Option.some.injEq,
    Prod.mk.injEq] at built
  refine ⟨fun x => ?_, fun x => ?_⟩
  · rw [NameTable.lookup, lookup_isSome_iff_mem, keptLabels, ← built.1]
    rfl
  · rw [NameTable.isReduced, built.2, List.contains_iff_mem]

/-- What the reader accepts of a tree is accepted. -/
theorem accepted_of_read {text : String} {n : Int} (h : (p.read text n sizes).isSome) :
    p.Accepted n sizes := by
  obtain ⟨ds, inputsOk, arity, t, built, outputOk⟩ := (p.read_isSome_iff_parts text n sizes).1 h
  have inputsIff : (readInputs sizes {} [] p.inputs).isSome ↔ _ := readInputs_isSome sizes p.inputs
  obtain ⟨inputsRead, groupsFit⟩ := inputsIff.1 (by simp [inputsOk])
  have length := (readInputs_result sizes p.inputs inputsOk).1
  have distinct := (p.build_ok_iff text inputsOk).1 ⟨t, built⟩
  obtain ⟨kept, reduced⟩ := p.table_of_build text inputsOk built
  obtain ⟨⟨fits, covers⟩, nodup⟩ :=
    (readOutput_isSome sizes t p.output (show ({} : OutputBuild).used.Nodup from List.nodup_nil)).1
      outputOk
  simp only [List.nil_append] at covers nodup
  have covered : ∀ x ∈ p.keptLabels, x ∈ p.outputUsed := fun x mem =>
    covers x (lookup_isSome_iff_mem.1 ((kept x).2 mem))
  have occRead : ∀ o ∈ p.sizeOccurrences, (readSize sizes o.1 o.2).isSome := by
    intro o mem
    rcases List.mem_append.1 mem with inputMem | outputMem
    · obtain ⟨a, axisMem, rfl⟩ := List.mem_map.1 inputMem
      exact inputsRead a axisMem
    · obtain ⟨q, memberMem⟩ := p.mem_outputAxes.1 outputMem
      obtain ⟨k, sized, -, -⟩ := fits _ memberMem
      simp [sized]
  obtain ⟨written, given, agrees⟩ := (readSizes_iff sizes _).1 occRead
  exact {
    arity := by simpa [length] using arity
    written_pos := by rw [writtenSizes_eq]; exact written
    ints_pos := fun k mem => by
      obtain ⟨q, mem⟩ := p.mem_outputInts.1 mem
      exact fits _ mem
    given_pos := by rw [axisNames_eq]; exact given
    given_agrees := by rw [writtenSizes_eq]; exact agrees
    one_unsized := fun ms mem => (groupsFit ms mem).1
    group_fits := fun ms mem => (groupsFit ms mem).2
    left_distinct := distinct
    output_distinct := nodup
    not_reduced := fun x used => by
      rcases p.mem_outputUsed.1 used with ⟨s, q, mem⟩ | ⟨rfl, q, mem⟩
      · obtain ⟨k, -, notReduced, -⟩ := fits _ mem
        rw [← reduced x, notReduced]
        decide
      · exact p.not_reduced_of_kept distinct ((kept _).1 (fits _ mem))
    ellipsis_output := fun ⟨q, mem⟩ => p.mem_leftNames.2 (.inl ((kept _).1 (fits _ mem)))
    ellipsis_input := fun present => covered _ (p.mem_keptLabels.2 (.inr ⟨rfl, present⟩))
    kept_used := fun x mem => covered x (p.mem_keptLabels.2 (.inl mem))
    new_sized := fun x s mem notLeft => by
      obtain ⟨q, mem⟩ := p.mem_outputAxes.1 mem
      obtain ⟨k, sized, -, needsSize⟩ := fits _ mem
      have unkept : t.lookup x = none := by
        cases found : t.lookup x with
        | none => rfl
        | some i => exact absurd (p.mem_leftNames.2 (.inl ((kept x).1 (by simp [found])))) notLeft
      obtain ⟨getD, -⟩ := readSize_eq sized
      intro noSize
      rw [noSize] at getD
      exact needsSize unkept getD.symm }

/-- A member of an accepted tree fits the table of its inputs. -/
theorem memberFits_of_accepted {n : Int} (acc : p.Accepted n sizes) {t : NameTable}
    (kept : ∀ x, (t.lookup x).isSome ↔ x ∈ p.keptLabels)
    (reduced : ∀ x, t.isReduced x = true ↔ x ∈ p.reducedNames)
    (occRead : ∀ o ∈ p.sizeOccurrences, (readSize sizes o.1 o.2).isSome)
    {m : OutputMember} (mem : m ∈ p.outputMembers) : MemberFits sizes t m := by
  cases m with
  | axis x s q =>
    have axisMem : (x, s) ∈ p.outputAxes := p.mem_outputAxes.2 ⟨q, mem⟩
    have notReduced := acc.not_reduced x (p.mem_outputUsed.2 (.inl ⟨s, q, mem⟩))
    obtain ⟨k, sized⟩ := Option.isSome_iff_exists.1 (occRead (x, s) (List.mem_append_right _ axisMem))
    refine ⟨k, sized, ?_, fun unkept => ?_⟩
    · cases isRed : t.isReduced x with
      | false => rfl
      | true => exact absurd ((reduced x).1 isRed) notReduced
    · -- a name the inputs do not have is a new axis, which needs a size
      have notKept : x ∉ p.keptLabels := fun keptMem => by simpa [unkept] using (kept x).2 keptMem
      have notLeft : x ∉ p.leftNames := fun left => (p.mem_leftNames.1 left).elim notKept notReduced
      have given := acc.new_sized x s axisMem notLeft
      obtain ⟨getD, givenPos⟩ := readSize_eq sized
      intro zero
      cases hg : givenSize sizes x s with
      | none => exact given hg
      | some g =>
        rw [hg] at getD
        have := givenPos g hg
        simp at getD
        omega
  | int v q => exact acc.ints_pos v (p.mem_outputInts.2 ⟨q, mem⟩)
  | ellipsis q =>
    have left := acc.ellipsis_output ⟨q, mem⟩
    have notReduced := acc.not_reduced _ (p.mem_outputUsed.2 (.inr ⟨rfl, q, mem⟩))
    exact (kept _).2 ((p.mem_leftNames.1 left).resolve_right notReduced)

/-- An accepted tree is read. -/
theorem read_of_accepted {text : String} {n : Int} (acc : p.Accepted n sizes) :
    (p.read text n sizes).isSome := by
  have occRead := (readSizes_iff sizes p.sizeOccurrences).2
    ⟨p.writtenSizes_eq ▸ acc.written_pos, p.axisNames_eq ▸ acc.given_pos,
      p.writtenSizes_eq ▸ acc.given_agrees⟩
  have inputsRead : ∀ a ∈ p.inputAxes, (readSize sizes a.name a.size).isSome := fun a mem =>
    occRead _ (List.mem_append_left _ (List.mem_map_of_mem mem))
  have inputsIff : (readInputs sizes {} [] p.inputs).isSome ↔ _ := readInputs_isSome sizes p.inputs
  obtain ⟨ds, inputsOk⟩ := Option.isSome_iff_exists.1
    (inputsIff.2 ⟨inputsRead, fun ms mem => ⟨acc.one_unsized ms mem, acc.group_fits ms mem⟩⟩)
  have length := (readInputs_result sizes p.inputs inputsOk).1
  obtain ⟨t, built⟩ := (p.build_ok_iff text inputsOk).2 acc.left_distinct
  obtain ⟨kept, reduced⟩ := p.table_of_build text inputsOk built
  refine (p.read_isSome_iff_parts text n sizes).2
    ⟨ds, inputsOk, by simpa [length] using acc.arity, t, built, ?_⟩
  rw [readOutput_isSome sizes t p.output (show ({} : OutputBuild).used.Nodup from List.nodup_nil)]
  refine ⟨⟨fun m mem => p.memberFits_of_accepted acc kept reduced occRead mem, fun x mem => ?_⟩,
    acc.output_distinct⟩
  have keptMem := (kept x).1 (lookup_isSome_iff_mem.2 mem)
  rcases p.mem_keptLabels.1 keptMem with keptAxis | ⟨rfl, present⟩
  · exact acc.kept_used x keptAxis
  · exact acc.ellipsis_input present

theorem read_isSome_iff (text : String) (n : Int) (sizes : List (String × Int)) :
    (p.read text n sizes).isSome ↔ p.Accepted n sizes :=
  ⟨p.accepted_of_read, p.read_of_accepted⟩

end PatternSyntax

end Rearrange.Pattern

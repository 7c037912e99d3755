import Rearrange.Proofs.OutputItems
import Rearrange.Proofs.Language
/-!
# What a read pattern holds

The planner takes a read pattern for granted in many ways (`Expression.WellFormed`):

* the axes of all inputs are numbered `0, 1, 2, …`, known before the one ellipsis, the range at
  it and unknown after it (`runIndex`), and each input's dimensions take its axes in consecutive
  runs (`Decomposition.Consecutive`), one axis for a bare axis or the ellipsis and the members
  for a group;
* the reductions are the reduced axes, in order;
* the name table lists the kept axes in order, each numbered as if the reduced axes were gone;
* the permutation gives, for each name of the inputs that the output uses, its table position,
  and these positions are all of the table's;
* the output members are numbered like the axes of the inputs, around the output's ellipsis.

`parse_wellFormed` states it of every pattern the parser reads, against any tree of the grammar
that its tokens are the marks of. The proof reads the pattern through its tree
(`parse_toOption_of_fits`) and puts together what reading each side holds
(`Expression.InputsHold`, `Expression.OutputHolds`).
-/
namespace Rearrange.Pattern

/-- The position of item `k` of a run whose ellipsis items are marked `true`: its number is `k`;
it is the range at an ellipsis, unknown past one and known before any. -/
def runIndex (bs : List Bool) (k : Nat) : Index :=
  ⟨k, if bs.getD k false then .range else if (bs.take k).any id then .unknown else .known⟩

namespace Positions

theorem step_fst (p : Positions) (b : Bool) :
    (p.step b).1 = ⟨p.next, if b then .range else if p.pastEllipsis then .unknown else .known⟩ := by
  cases b <;> simp [step, take, takeRange]

/-- A counter numbers a run from its next number on; past an ellipsis, or past the one it has
already taken, its positions are unknown. -/
theorem indices_eq_map_range : ∀ (n : Nat) (past : Bool) (bs : List Bool),
    indices ⟨n, past⟩ bs = (List.range bs.length).map fun k =>
      ⟨(n + k : Nat), if bs.getD k false then .range
        else if past || (bs.take k).any id then .unknown else .known⟩
  | n, past, [] => rfl
  | n, past, b :: bs => by
    rw [indices_cons, step_fst, step_snd, indices_eq_map_range (n + 1) (past || b) bs,
      List.length_cons, List.range_succ_eq_map]
    simp only [List.map_cons, List.map_map, Function.comp_def, List.getD_cons_zero,
      List.take_zero, List.any_nil, Bool.or_false, List.getD_cons_succ, List.take_succ_cons,
      List.any_cons, id, Bool.or_assoc, Nat.add_zero, List.cons.injEq, true_and]
    refine List.map_congr_left fun k _ => ?_
    congr 2
    omega

theorem indices_eq_runIndex (bs : List Bool) :
    Positions.indices {} bs = (List.range bs.length).map (runIndex bs) := by
  have fresh := indices_eq_map_range 0 false bs
  simp only [Nat.zero_add, Bool.false_or] at fresh
  exact fresh

theorem indices_append_singleton (bs : List Bool) (b : Bool) :
    Positions.indices {} (bs ++ [b]) = Positions.indices {} bs ++ [(step ⟨bs.length, bs.any id⟩ b).1] := by
  rw [indices_append, indices_cons]
  simp [indices]

end Positions

/-- The dimensions of an input take its axes in consecutive runs: each starts where the ones
before it end, and together they take all the axes. -/
structure Decomposition.Consecutive (d : Decomposition) : Prop where
  first : ∀ k (hk : k < d.dims.length), d.dims[k].first = ((d.dims.take k).map (·.count)).sum
  total : (d.dims.map (·.count)).sum = d.axes.length

namespace Decomposition

theorem consecutive_empty (i : Nat) : ({ input := i } : Decomposition).Consecutive :=
  ⟨fun k hk => by simp at hk, rfl⟩

theorem Consecutive.append {d : Decomposition} (hd : d.Consecutive) (new : List Axis) (dim : Dim)
    (first : dim.first = d.axes.length) (count : dim.count = new.length) :
    ({ d with axes := d.axes ++ new, dims := d.dims ++ [dim] } : Decomposition).Consecutive := by
  refine ⟨fun k hk => ?_, by simp [hd.total, count]⟩
  simp only [List.length_append, List.length_singleton] at hk
  by_cases old : k < d.dims.length
  · simp only [List.getElem_append_left old, List.take_append_of_le_length (Nat.le_of_lt old)]
    exact hd.first k old
  · obtain rfl : k = d.dims.length := by omega
    simp [first, hd.total]

/-- An ellipsis among the axes of a read decomposition is never reduced: it stands alone in its
dimension, which keeps it. -/
theorem Holds.kept_of_ellipsis {d : Decomposition} (hd : d.Holds) {a : Axis} (mem : a ∈ d.axes)
    (ell : a.isEllipsis = true) : a.isReduced = false := by
  rw [← hd.cover] at mem
  obtain ⟨dim, dimMem, inDim⟩ := List.mem_flatMap.1 mem
  have kind : a.kind = .ellipsis := by simpa [Axis.isEllipsis] using ell
  have holds := hd.dims dim dimMem
  generalize d.dimAxes dim = members at holds inDim
  cases holds with
  | ellipsis _ _ _ none =>
    obtain rfl := List.mem_singleton.1 inDim
    simp [Axis.isReduced, none]
  | bare _ _ named _ =>
    obtain rfl := List.mem_singleton.1 inDim
    rw [named] at kind
    cases kind
  | group _ _ group =>
    rcases group.member a inDim with ⟨named, _⟩ | ⟨derived, _⟩
    · rw [named] at kind
      cases kind
    · rw [derived] at kind
      cases kind

end Decomposition

section Reading

variable (sizes : List (String × Int))

/-- Reading the items of an input appends dimensions that take the new axes in consecutive
runs. -/
theorem readTerms_consecutive : ∀ (ts : List InputTerm) (pos : Positions) (d : Decomposition)
    (res : Positions × Decomposition), readTerms sizes pos d ts = some res → d.Consecutive →
    res.2.Consecutive
  | [], pos, d, res, ok, hd => by
    cases ok
    exact hd
  | .axis a :: ts, pos, d, res, ok, hd => by
    rw [readTerms_axis] at ok
    obtain ⟨axis, -, ok⟩ := Option.bind_eq_some_iff.1 ok
    exact readTerms_consecutive ts _ _ res ok (hd.append _ _ rfl rfl)
  | .ellipsis q :: ts, pos, d, res, ok, hd => by
    rw [readTerms_ellipsis] at ok
    exact readTerms_consecutive ts _ _ res ok (hd.append _ _ rfl rfl)
  | .group ms :: ts, pos, d, res, ok, hd => by
    rw [readTerms_group] at ok
    obtain ⟨mid, grouped, ok⟩ := Option.bind_eq_some_iff.1 ok
    have grouped' : readGroup sizes d.axes.length pos { d with axes := d.axes ++ [] } none 1 false ms =
        some mid := by
      rw [List.append_nil]
      exact grouped
    obtain ⟨rest, c, -, decomposition, -⟩ :=
      readGroup_holds sizes d ms pos [] none 1 mid grouped' (preGroup_empty _)
    simp only [List.nil_append, List.length_nil, Nat.zero_add] at decomposition
    have next := hd.append (setSiblings c rest)
      { first := d.axes.length, count := rest.length, parenthesized := true } rfl (by simp)
    rw [← decomposition] at next
    exact readTerms_consecutive ts _ _ res ok next

/-- Every decomposition the inputs are read into takes its axes in consecutive runs. -/
theorem readInputs_consecutive : ∀ (tss : List (List InputTerm)) (pos : Positions)
    (done ds : List Decomposition), readInputs sizes pos done tss = some ds →
    (∀ d ∈ done, d.Consecutive) → ∀ d ∈ ds, d.Consecutive
  | [], pos, done, ds, ok, hdone => by
    cases ok
    exact hdone
  | ts :: more, pos, done, ds, ok, hdone => by
    rw [readInputs_cons] at ok
    obtain ⟨mid, terms, ok⟩ := Option.bind_eq_some_iff.1 ok
    have first := readTerms_consecutive sizes ts pos _ mid terms (Decomposition.consecutive_empty _)
    refine readInputs_consecutive more mid.1 (done ++ [mid.2]) ds ok fun d mem => ?_
    rcases List.mem_append.1 mem with mem | mem
    · exact hdone d mem
    · rw [List.mem_singleton.1 mem]
      exact first

end Reading

section Table

/-- The kept axes of a run of axes with their table positions: each its own position less the
number of reduced axes before it, in the same regime. -/
def tableEntries (axes : List Axis) : List (String × Index) :=
  (axes.zipIdx.filter fun q => !q.1.isReduced).map fun q =>
    (q.1.name, ⟨q.1.index.pos - ((axes.take q.2).countP (·.isReduced) : Nat), q.1.index.kind⟩)

theorem tableEntries_append_singleton (axes : List Axis) (a : Axis) :
    tableEntries (axes ++ [a]) = tableEntries axes ++
      if a.isReduced then []
      else [(a.name, ⟨a.index.pos - (axes.countP (·.isReduced) : Nat), a.index.kind⟩)] := by
  unfold tableEntries
  rw [List.zipIdx_append, List.filter_append, List.map_append]
  congr 1
  · refine List.map_congr_left fun q mem => ?_
    have lt : q.2 < axes.length := by
      have := (List.mem_zipIdx (List.mem_filter.1 mem).1)
      omega
    rw [List.take_append_of_le_length (Nat.le_of_lt lt)]
  · by_cases red : a.isReduced <;> simp [red]

/-- Numbering the kept axes with a fresh counter gives each its table position. The reduced
axes are never the ellipsis, so the two counters pass it at the same axis. -/
theorem zip_indices_kept (axes : List Axis)
    (indices : axes.map (·.index) = Positions.indices {} (axes.map Axis.isEllipsis))
    (notEllipsis : ∀ a ∈ axes, a.isReduced = true → a.isEllipsis = false) :
    ((axes.filter (!·.isReduced)).map (·.name)).zip
      (Positions.indices {} ((axes.filter (!·.isReduced)).map Axis.isEllipsis)) = tableEntries axes := by
  induction axes using List.reverseRecOn with
  | nil => rfl
  | append_singleton axes a ih =>
    rw [List.map_append, List.map_append, List.map_singleton, List.map_singleton,
      Positions.indices_append_singleton] at indices
    obtain ⟨before, last⟩ := List.append_inj indices (by simp)
    have own : a.index = (Positions.step ⟨axes.length, (axes.map Axis.isEllipsis).any id⟩
        a.isEllipsis).1 := by
      simpa using last
    rw [tableEntries_append_singleton,
      ← ih before fun b mem => notEllipsis b (List.mem_append_left _ mem)]
    by_cases red : a.isReduced
    · simp [red]
    · have keptAny : ((axes.filter (!·.isReduced)).map Axis.isEllipsis).any id =
          (axes.map Axis.isEllipsis).any id := by
        apply Bool.eq_iff_iff.2
        simp only [List.any_map, List.any_eq_true, List.mem_filter, Function.comp_apply, id]
        constructor
        · rintro ⟨b, ⟨mem, -⟩, ell⟩
          exact ⟨b, mem, ell⟩
        · rintro ⟨b, mem, ell⟩
          refine ⟨b, ⟨mem, ?_⟩, ell⟩
          cases hb : b.isReduced
          · rfl
          · rw [notEllipsis b (List.mem_append_left _ mem) hb] at ell
            cases ell
      have keptLength :
          (axes.filter (!·.isReduced)).length = axes.length - axes.countP (·.isReduced) := by
        have split : axes.length = _ := List.length_eq_countP_add_countP (fun b : Axis => b.isReduced)
        rw [← List.countP_eq_length_filter]
        simp only [Bool.not_eq_true, Bool.decide_eq_false] at split
        omega
      simp only [List.filter_append, List.filter_cons, List.filter_nil, red, Bool.not_false,
        if_true, Bool.false_eq_true, if_false, List.map_append, List.map_singleton]
      rw [Positions.indices_append_singleton, List.zip_append (by simp)]
      have fewer : axes.countP (·.isReduced) ≤ axes.length := List.countP_le_length
      simp [keptAny, Positions.step_fst, own, keptLength, Nat.cast_sub fewer]

end Table

theorem count_isEllipsis_le_one {axes : List Axis} (distinct : (axes.map (·.name)).Nodup)
    (ellipsis : ∀ a ∈ axes, a.isEllipsis = true ↔ a.name = ellipsisName) :
    (axes.map Axis.isEllipsis).count true ≤ 1 := by
  have same : (axes.map Axis.isEllipsis).count true = (axes.map (·.name)).count ellipsisName := by
    simp only [List.count, List.countP_map]
    refine List.countP_congr fun a mem => ?_
    simpa using ellipsis a mem
  rw [same]
  exact List.nodup_iff_count_le_one.1 distinct ellipsisName

theorem map_reducedAxes (ds : List Decomposition) :
    (reducedAxes ds).map (fun r => (r.index, r.op, r.name)) =
      ((allAxes ds).filter (·.isReduced)).map fun a => (a.index, a.reduce, a.name) := by
  unfold reducedAxes
  induction allAxes ds with
  | nil => rfl
  | cons a axes ih =>
    by_cases red : a.isReduced <;> simp [red, ih]

section Output

variable (sizes : List (String × Int)) (names : NameTable)

/-- The kept items of the output members are the names they use that the table knows, in
order: the ellipsis among them, since reading found it in the table. -/
theorem filterMap_kept_items : ∀ ms : List OutputMember,
    (∀ m ∈ ms, (m.item sizes names).Valid names) →
    (ms.map (OutputMember.item sizes names)).filterMap OutputItem.kept? =
      (ms.flatMap OutputMember.used).filter fun x => (names.lookup x).isSome
  | [], _ => rfl
  | m :: ms, valid => by
    rw [List.map_cons, filterMap_cons_toList, List.flatMap_cons, List.filter_append,
      filterMap_kept_items ms fun m' mem => valid m' (List.mem_cons_of_mem _ mem)]
    congr 1
    have own := valid m List.mem_cons_self
    cases m with
    | axis x s q =>
      simp only [OutputMember.item, OutputMember.used]
      by_cases found : (names.lookup x).isSome <;> simp [found, OutputItem.kept?]
    | int v q => simp [OutputMember.item, OutputMember.used, OutputItem.kept?]
    | ellipsis q =>
      simp only [OutputMember.item, OutputItem.Valid] at own
      simp [OutputMember.item, OutputMember.used, OutputItem.kept?, own]

/-- Each ellipsis member of the output uses the name `..`. -/
theorem countP_isEllipsis_le : ∀ ms : List OutputMember,
    ms.countP OutputMember.isEllipsis ≤ (ms.flatMap OutputMember.used).count ellipsisName
  | [] => by simp
  | m :: ms => by
    have rest := countP_isEllipsis_le ms
    cases m with
    | axis x s q =>
      simp only [OutputMember.isEllipsis, OutputMember.used, List.flatMap_cons, List.countP_cons,
        List.count_append]
      simp only [Bool.false_eq_true, if_false, Nat.add_zero]
      omega
    | int v q => simpa [OutputMember.isEllipsis, OutputMember.used] using rest
    | ellipsis q =>
      simp [OutputMember.isEllipsis, OutputMember.used, List.countP_cons]
      omega

end Output

theorem forall₂_filterMap {α β : Type} (f : α → Option β) : ∀ xs : List α,
    (∀ x ∈ xs, (f x).isSome) → List.Forall₂ (fun b x => f x = some b) (xs.filterMap f) xs
  | [], _ => .nil
  | x :: xs, all => by
    obtain ⟨b, hb⟩ := Option.isSome_iff_exists.1 (all x List.mem_cons_self)
    rw [List.filterMap_cons_some hb]
    exact .cons hb (forall₂_filterMap f xs fun y mem => all y (List.mem_cons_of_mem _ mem))

/-- Looking up each key of a list without repeated keys gives the values in order. -/
theorem filterMap_lookup_keys {β : Type} : ∀ l : List (String × β), (l.map Prod.fst).Nodup →
    (l.map Prod.fst).filterMap (fun y => List.lookup y l) = l.map Prod.snd
  | [], _ => rfl
  | (x, b) :: l, distinct => by
    rw [List.map_cons, List.nodup_cons] at distinct
    have rest : (l.map Prod.fst).filterMap (fun y => List.lookup y ((x, b) :: l)) =
        (l.map Prod.fst).filterMap (fun y => List.lookup y l) :=
      List.filterMap_congr fun y mem => by
        have other : (y == x) = false := by simpa using fun h : y = x => distinct.1 (h ▸ mem)
        simp [List.lookup, other]
    have head : List.lookup x ((x, b) :: l) = some b := by simp [List.lookup]
    show List.filterMap _ (x :: l.map Prod.fst) = b :: l.map Prod.snd
    rw [List.filterMap_cons, head, rest, filterMap_lookup_keys l distinct.2]

/-- The table numbers its kept axes `0, 1, 2, …`. -/
theorem Expression.InputsHold.table_positions {e : Expression} (h : e.InputsHold) :
    e.names.entries.map (·.2.pos) = (List.range e.names.length).map fun k : Nat => (k : Int) := by
  have second : e.names.entries.map Prod.snd =
      Positions.indices {} (((allAxes e.inputs).filter (!·.isReduced)).map Axis.isEllipsis) := by
    rw [h.entries, List.map_snd_zip (by simp)]
  have length : e.names.length =
      (((allAxes e.inputs).filter (!·.isReduced)).map Axis.isEllipsis).length := by
    rw [NameTable.length, ← List.length_map (f := Prod.snd), second, Positions.length_indices]
  have positions : e.names.entries.map (·.2.pos) = (e.names.entries.map Prod.snd).map (·.pos) := by
    simp
  rw [positions, second, Positions.indices_eq_runIndex, length, List.map_map]
  rfl

/-- The representation invariant of a read pattern, against a tree of the grammar whose marks
its tokens are.

On the input side: the axes of all inputs are numbered `0, 1, 2, …`, known before the one
ellipsis, the range at it and unknown after it; each input's dimensions hold its axes in
consecutive runs; the reductions are the reduced axes in order; the name table lists the kept
axes in order, each with its position among the kept ones.

On the output side: the permutation gives, for each name of the inputs that the output uses, its
table position, and these are all the table's positions; the output members are numbered in the
regime of the input side, around the output's one ellipsis. -/
structure Expression.WellFormed (e : Expression) (p : PatternSyntax) : Prop where
  positions : (allAxes e.inputs).map (·.index) =
    (List.range (allAxes e.inputs).length).map (runIndex ((allAxes e.inputs).map Axis.isEllipsis))
  one_ellipsis : ((allAxes e.inputs).map Axis.isEllipsis).count true ≤ 1
  dims : ∀ d ∈ e.inputs, d.Holds ∧ d.Consecutive
  reductions : e.reductions.map (fun r => (r.index, r.op, r.name)) =
    ((allAxes e.inputs).filter (·.isReduced)).map fun a => (a.index, a.reduce, a.name)
  table : e.names.entries = tableEntries (allAxes e.inputs)
  permutation : List.Forall₂ (fun i x => e.names.lookup x = some i) e.permutation
    (p.outputUsed.filter fun x => (e.names.lookup x).isSome)
  permutation_perm :
    (e.permutation.map (·.pos)).Perm ((List.range e.names.length).map fun k : Nat => (k : Int))
  output : e.output.flatMap Slot.indices =
    (List.range p.outputMembers.length).map (runIndex (p.outputMembers.map OutputMember.isEllipsis))
  one_output_ellipsis : (p.outputMembers.map OutputMember.isEllipsis).count true ≤ 1

namespace PatternSyntax

variable (p : PatternSyntax) {sizes : List (String × Int)}

/-- A tree read with well written words gives a well formed expression. -/
theorem wellFormed_of_read {toks : List Token} {text : String} {n : Int} {e : Expression}
    (written : ∀ t ∈ toks, t.WellWritten) (fits : List.Forall₂ Token.Fits toks p.marks)
    (read : p.read text n sizes = some e) : e.WellFormed p := by
  have isRead : (p.read text n sizes).isSome := by simp [read]
  have accepted : p.Accepted n sizes := p.accepted_of_read isRead
  have inputs : e.InputsHold :=
    p.inputsHold read accepted.left_distinct (inputAxes_wellWritten written fits)
  have outputs := p.outputHolds read (outputAxes_wellWritten written fits) inputs.names_nodup
  obtain ⟨ds, t, out, inputsOk, -, -, -, shape⟩ := p.read_eq_some read
  have consecutive : ∀ d ∈ e.inputs, d.Consecutive := by
    rw [shape]
    exact readInputs_consecutive sizes p.inputs {} [] ds inputsOk (by simp)
  -- an axis of the inputs is the ellipsis only if it is kept
  have notEllipsis : ∀ a ∈ allAxes e.inputs, a.isReduced = true → a.isEllipsis = false := by
    intro a mem red
    obtain ⟨d, dMem, aMem⟩ := List.mem_flatMap.1 mem
    cases ell : a.isEllipsis
    · rfl
    · rw [(inputs.inputs d dMem).kept_of_ellipsis aMem ell] at red
      cases red
  have keptNames : (p.outputMembers.map (OutputMember.item sizes e.names)).filterMap OutputItem.kept? =
      p.outputUsed.filter fun x => (e.names.lookup x).isSome :=
    filterMap_kept_items sizes e.names p.outputMembers fun m mem => outputs.valid _ (List.mem_map_of_mem mem)
  have permutation : e.permutation =
      (p.outputUsed.filter fun x => (e.names.lookup x).isSome).filterMap e.names.lookup := by
    rw [outputs.permutation, ← keptNames, List.filterMap_filterMap]
  refine ⟨?_, count_isEllipsis_le_one inputs.names inputs.ellipsis,
    fun d mem => ⟨inputs.inputs d mem, consecutive d mem⟩, ?_, ?_, ?_, ?_, ?_, ?_⟩
  · rw [inputs.indices, Positions.indices_eq_runIndex, List.length_map]
  · rw [inputs.reductions]
    exact map_reducedAxes e.inputs
  · rw [inputs.entries]
    exact zip_indices_kept _ inputs.indices notEllipsis
  · rw [permutation]
    exact forall₂_filterMap _ _ fun x mem => (List.mem_filter.1 mem).2
  · have names : e.names.names.filterMap e.names.lookup = e.names.entries.map Prod.snd :=
      filterMap_lookup_keys e.names.entries inputs.names_nodup
    have kept : (p.outputUsed.filter fun x => (e.names.lookup x).isSome).Perm e.names.names :=
      keptNames ▸ outputs.kept
    have rearranged := (kept.filterMap e.names.lookup).map Index.pos
    rw [← permutation, names, List.map_map] at rearranged
    rw [← inputs.table_positions]
    exact rearranged
  · rw [outputs.indices, p.items_isEllipsis (outputAxes_wellWritten written fits),
      Positions.indices_eq_runIndex, List.length_map]
  · have ellipses : (p.outputMembers.map OutputMember.isEllipsis).count true =
        p.outputMembers.countP OutputMember.isEllipsis := by
      simp [List.count, List.countP_map, Function.comp_def]
    rw [ellipses]
    exact (countP_isEllipsis_le p.outputMembers).trans
      (List.nodup_iff_count_le_one.1 accepted.output_distinct ellipsisName)

end PatternSyntax

/-- Every pattern the parser reads is well formed: its tokens are the marks of a tree of the
grammar, and against every such tree the read expression satisfies the representation
invariant the planner relies on. -/
theorem parse_wellFormed {text : String} {n : Int} {sizes : List (String × Int)} {e : Expression}
    (ok : Expression.parse text n sizes = .ok e) :
    ∃ toks, Token.scanBody text = .ok toks ∧
      (∃ p : PatternSyntax, List.Forall₂ Token.Fits toks p.marks) ∧
      ∀ p : PatternSyntax, List.Forall₂ Token.Fits toks p.marks → e.WellFormed p := by
  obtain ⟨toks, scan, someTree⟩ := fits_of_parse ok
  refine ⟨toks, scan, someTree, fun p fits => ?_⟩
  have read : (Expression.parse text n sizes).toOption = p.read text n sizes :=
    parse_toOption_of_fits scan fits
  rw [ok] at read
  exact p.wellFormed_of_read (scanFrom_wellWritten text _ 0 toks scan) fits read.symm

/-- A pattern with an ellipsis, a group, a reduction and an output group is read, and well
formed. -/
theorem parse_wellFormed_sample :
    ∃ e, Expression.parse "b .. (h w:2) sum(c) -> (w b) .. h" 1 [] = .ok e ∧
      ∃ toks, Token.scanBody "b .. (h w:2) sum(c) -> (w b) .. h" = .ok toks ∧
        (∃ p : PatternSyntax, List.Forall₂ Token.Fits toks p.marks) ∧
        ∀ p : PatternSyntax, List.Forall₂ Token.Fits toks p.marks → e.WellFormed p := by
  have reads : (Expression.parse "b .. (h w:2) sum(c) -> (w b) .. h" 1 []).toBool = true := by
    decide +kernel
  cases parsed : Expression.parse "b .. (h w:2) sum(c) -> (w b) .. h" 1 [] with
  | error err =>
    rw [parsed] at reads
    cases reads
  | ok e => exact ⟨e, rfl, parse_wellFormed parsed⟩

end Rearrange.Pattern

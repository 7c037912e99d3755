import Rearrange.Proofs.LabelTrace
/-!
# Where the reductions erase

The axes of all inputs are numbered with the ellipsis as one slot, and the name table numbers the
kept axes again as if the reduced ones were gone. Once the ellipsis is known to match `w` axes, the
axes of the inputs joined are a list of labels (`Expression.joinedLabels`), and a position
resolves to an offset in it.

Erasing from the joined axes, one reduction at a time from the last position to the first, the
axis each reduction's position resolves to (`eraseAtEach`) never falls outside the list: it erases
exactly the reduced axes, in that order, and leaves the labels of the kept axes
(`Expression.keptLabels`), each at the position its table entry resolves to
(`reductions_erase_in_place`). Taking the last first is what makes this work: resolved positions
grow with the numbering past every axis but the ellipsis (`Expression.InputsHold.resolve_lt`), so
an erasure never moves the axes still to be erased.

All of this needs the positions of the joined list to be signed words. Past the ellipsis a
position resolves by adding the width in a word, and with a width of `2^63 - 1` the reduced axis
of `a .. sum(b) -> a ..` resolves to a negative position (`reduction_resolve_wraps`).
-/
namespace Rearrange.Plan

open Pattern

/-- Erases the entries at the given positions one after the other, giving the entries erased, in
order, and what is left; `none` as soon as a position falls outside the list as it stands then. -/
def eraseAtEach {α : Type} : List Int → List α → Option (List α × List α)
  | [], L => some ([], L)
  | i :: is, L =>
    if 0 ≤ i then
      L[i.toNat]?.bind fun x => (eraseAtEach is (L.eraseIdx i.toNat)).map fun r => (x :: r.1, r.2)
    else none

section Lists

variable {α : Type} [DecidableEq α]

/-- Erasing labels of a list without repeats at their positions in it, from the last to the
first, out of what the labels `D` erased before them leave, erases them in turn. -/
theorem eraseAtEach_idxOf {L : List α} (nodup : L.Nodup) : ∀ (D T : List α), (∀ x ∈ T, x ∈ L) →
    (D ++ T).Pairwise (fun x y => L.idxOf y < L.idxOf x) →
    eraseAtEach (T.map fun x => (L.idxOf x : Int)) (L.filter (· ∉ D)) =
      some (T, L.filter (· ∉ D ++ T))
  | D, [], _, _ => by simp [eraseAtEach]
  | D, x :: T, sub, desc => by
    have mem : x ∈ L := sub x List.mem_cons_self
    -- the labels erased before all come after `x`, so `x` and every label before it are left
    have later : ∀ d ∈ D, L.idxOf x < L.idxOf d := fun d dMem =>
      (List.pairwise_append.1 desc).2.2 d dMem x List.mem_cons_self
    have fresh : decide (x ∉ D) = true := by simpa using fun xD => lt_irrefl _ (later x xD)
    have before : ∀ y ∈ L, L.idxOf y < L.idxOf x → decide (y ∉ D) = true := fun y _ lt => by
      simpa using fun yD => lt_asymm lt (later y yD)
    have found := getElem?_filter_idxOf nodup mem fresh before
    obtain ⟨-, erased⟩ := eraseIdx_filter nodup mem fresh before
    have remaining : (L.filter fun y => decide (y ∉ D) && y != x) = L.filter (· ∉ D ++ [x]) :=
      List.filter_congr fun y _ => by by_cases e : y = x <;> simp [e]
    have rest := eraseAtEach_idxOf nodup (D ++ [x]) T (fun y yT => sub y (List.mem_cons_of_mem x yT))
      (by simpa using desc)
    simp only [List.map_cons, eraseAtEach, Int.natCast_nonneg, if_true, Int.toNat_natCast, found,
      Option.bind_some, erased, remaining, rest, Option.map_some]
    simp

omit [DecidableEq α] in
theorem filter_flatMap_of_whole {β : Type} (p : β → Bool) (q : α → Bool) (f : β → List α) :
    ∀ l : List β, (∀ a ∈ l, (f a).filter q = if p a then f a else []) →
      (l.flatMap f).filter q = (l.filter p).flatMap f
  | [], _ => rfl
  | a :: l, whole => by
    rw [List.flatMap_cons, List.filter_append, whole a List.mem_cons_self,
      filter_flatMap_of_whole p q f l fun b mem => whole b (List.mem_cons_of_mem a mem)]
    by_cases pa : p a <;> simp [pa]

end Lists

end Rearrange.Plan

namespace Rearrange.Pattern

open Plan

/-- The labels of the axes of all inputs joined, in order, the ellipsis expanded to `w` axes. -/
def Expression.joinedLabels (e : Expression) (w : Nat) : List Label :=
  ((allAxes e.inputs).map (·.name)).flatMap (Label.ofName w)

/-- The labels of the axes the name table keeps, in order, the ellipsis expanded to `w` axes. -/
def Expression.keptLabels (e : Expression) (w : Nat) : List Label :=
  e.names.names.flatMap (Label.ofName w)

theorem Expression.inputsHold_of_parse {text : String} {n : Int} {sizes : List (String × Int)}
    {e : Expression} (ok : Expression.parse text n sizes = .ok e) : e.InputsHold := by
  obtain ⟨toks, scan, p, fits⟩ := fits_of_parse ok
  have read : p.read text n sizes = some e := by
    rw [← parse_toOption_of_fits scan fits, ok]
    rfl
  have isRead : (p.read text n sizes).isSome := by simp [read]
  exact p.inputsHold read (p.accepted_of_read isRead).left_distinct
    (inputAxes_wellWritten (scanFrom_wellWritten _ _ _ _ scan) fits)

namespace Expression.InputsHold

variable {e : Expression} (hold : e.InputsHold) {w : Nat}

include hold

theorem isEllipsis_eq :
    (allAxes e.inputs).map Axis.isEllipsis =
      ((allAxes e.inputs).map (·.name)).map fun x => decide (x = ellipsisName) := by
  rw [List.map_map]
  refine List.map_congr_left fun a mem => ?_
  have iff := hold.ellipsis a mem
  by_cases ell : a.isEllipsis = true
  · simp [ell, iff.1 ell]
  · have notName : a.name ≠ ellipsisName := fun h => ell (iff.2 h)
    simp [notName, Bool.eq_false_iff.2 ell]

theorem pos_axis {m : Nat} (hm : m < (allAxes e.inputs).length) : (allAxes e.inputs)[m].index.pos = m := by
  have at_m := congrArg (fun l => l[m]?.map Index.pos) hold.indices
  rw [Positions.indices_eq_runIndex] at at_m
  simpa [hm, runIndex] using at_m

theorem reduced_not_ellipsis {a : Axis} (mem : a ∈ allAxes e.inputs) (red : a.isReduced = true) :
    a.kind ≠ .ellipsis := fun ell => by
  obtain ⟨d, dMem, aMem⟩ := List.mem_flatMap.1 mem
  have kept := (hold.inputs d dMem).kept_of_ellipsis aMem (by simp [Axis.isEllipsis, ell])
  rw [red] at kept
  cases kept

theorem mem_reductions {r : ReducedAxis} (mem : r ∈ e.reductions) :
    ∃ m, ∃ hm : m < (allAxes e.inputs).length, (allAxes e.inputs)[m].isReduced = true ∧
      r.index = (allAxes e.inputs)[m].index ∧ r.name = (allAxes e.inputs)[m].name := by
  rw [hold.reductions, reducedAxes, List.mem_filterMap] at mem
  obtain ⟨a, aMem, made⟩ := mem
  obtain ⟨m, hm, rfl⟩ := List.getElem_of_mem aMem
  by_cases red : (allAxes e.inputs)[m].isReduced
  · simp only [red, if_true, Option.some.injEq] at made
    exact ⟨m, hm, red, by rw [← made], by rw [← made]⟩
  · simp [red] at made

theorem mem_reducedLabels {S : List ReducedAxis} (perm : S.Perm e.reductions) {l : Label} :
    l ∈ S.map (fun r => Label.axis r.name) ↔ ∃ a ∈ allAxes e.inputs, a.isReduced = true ∧ l = .axis a.name := by
  rw [List.mem_map]
  constructor
  · rintro ⟨r, rMem, rfl⟩
    obtain ⟨m, hm, red, -, named⟩ := hold.mem_reductions (perm.subset rMem)
    exact ⟨_, List.getElem_mem hm, red, by rw [named]⟩
  · rintro ⟨a, aMem, red, rfl⟩
    refine ⟨{ index := a.index, op := a.reduce, name := a.name }, perm.symm.subset ?_, rfl⟩
    rw [hold.reductions, reducedAxes, List.mem_filterMap]
    exact ⟨a, aMem, by simp [red]⟩

/-- The reductions come in the order of their positions, those of their axes. -/
theorem reductions_ascending : e.reductions.Pairwise fun r r' => r.index.pos < r'.index.pos := by
  have positions : (allAxes e.inputs).map (·.index.pos) =
      (List.range (allAxes e.inputs).length).map fun k : Nat => (k : Int) := by
    refine List.ext_getElem (by simp) fun m h₁ _ => ?_
    simp only [List.getElem_map, List.getElem_range]
    exact hold.pos_axis (by simpa using h₁)
  have ascending : ((allAxes e.inputs).map (·.index.pos)).Pairwise (· < ·) := by
    rw [positions, List.pairwise_map]
    exact List.pairwise_lt_range.imp fun lt => by exact_mod_cast lt
  have same : e.reductions.map (·.index.pos) =
      ((allAxes e.inputs).filter (·.isReduced)).map (·.index.pos) := by
    have := congrArg (List.map fun q : Index × Reduction × String => q.1.pos) (map_reducedAxes e.inputs)
    simpa [List.map_map, Function.comp_def, hold.reductions] using this
  rw [← List.pairwise_map (f := fun r : ReducedAxis => r.index.pos), same]
  exact ascending.sublist (List.filter_sublist.map _)

theorem reductions_pos_nodup : (e.reductions.map (·.index.pos)).Nodup :=
  List.pairwise_map.2 (hold.reductions_ascending.imp ne_of_lt)

theorem name_ne_ellipsis {a : Axis} (mem : a ∈ allAxes e.inputs) (notEll : a.kind ≠ .ellipsis) :
    a.name ≠ ellipsisName := fun named =>
  notEll (by simpa [Axis.isEllipsis] using (hold.ellipsis a mem).2 named)

variable (fits : ((e.joinedLabels w).length : Int) ≤ Word.maxInt64)

include fits

/-- Once the ellipsis matches `w` axes, the position of axis `m` of the inputs resolves to the
offset of its first label among the joined labels. -/
theorem resolve_axis {m : Nat} (hm : m < (allAxes e.inputs).length) :
    (allAxes e.inputs)[m].index.resolve w =
      ((((allAxes e.inputs).map (·.name)).take m).flatMap (Label.ofName w)).length := by
  have at_m : (Positions.indices {} ((allAxes e.inputs).map Axis.isEllipsis))[m]? =
      some (allAxes e.inputs)[m].index := by
    rw [← hold.indices]
    simp [hm]
  rw [hold.isEllipsis_eq] at at_m
  have expanded : 0 + ((((allAxes e.inputs).map (·.name)).map fun x => decide (x = ellipsisName)).map
      (spanOf w)).sum ≤ Word.maxInt64 := by
    rw [← Label.length_flatMap_ofName]
    simpa [Expression.joinedLabels] using fits
  rw [Label.length_flatMap_take,
    resolve_indices w _ 0 (Label.count_ellipsis_le_one hold.names) expanded m _ at_m]
  simp

/-- Past an axis other than the ellipsis, resolved positions grow: the axes after it resolve
beyond its one label. -/
theorem resolve_lt {m m' : Nat} (hm' : m' < (allAxes e.inputs).length) (lt : m < m')
    (notEll : (allAxes e.inputs)[m].kind ≠ .ellipsis) :
    (allAxes e.inputs)[m].index.resolve w < (allAxes e.inputs)[m'].index.resolve w := by
  have hm : m < (allAxes e.inputs).length := lt.trans hm'
  rw [hold.resolve_axis fits hm, hold.resolve_axis fits hm']
  have notName := hold.name_ne_ellipsis (List.getElem_mem hm) notEll
  set names := (allAxes e.inputs).map (·.name)
  have grown : ((names.take (m + 1)).flatMap (Label.ofName w)).length =
      ((names.take m).flatMap (Label.ofName w)).length + 1 := by
    simp [names, List.take_add_one, hm, Label.length_ofName, notName, spanOf]
  have le := ((List.take_prefix_take_left (l := names) (show m + 1 ≤ m' from lt)).sublist.flatMap
    (Label.ofName w)).length_le
  omega

theorem resolve_strictMono {a b : Axis} (aMem : a ∈ allAxes e.inputs) (bMem : b ∈ allAxes e.inputs)
    (notEll : a.kind ≠ .ellipsis) (lt : a.index.pos < b.index.pos) :
    a.index.resolve w < b.index.resolve w := by
  obtain ⟨m, hm, rfl⟩ := List.getElem_of_mem aMem
  obtain ⟨m', hm', rfl⟩ := List.getElem_of_mem bMem
  rw [hold.pos_axis hm, hold.pos_axis hm'] at lt
  exact hold.resolve_lt fits hm' (by exact_mod_cast lt) notEll

/-- Among the joined labels, an axis other than the ellipsis sits where its position resolves. -/
theorem idxOf_axis {m : Nat} (hm : m < (allAxes e.inputs).length)
    (notEll : (allAxes e.inputs)[m].kind ≠ .ellipsis) :
    (((e.joinedLabels w).idxOf (.axis (allAxes e.inputs)[m].name) : Nat) : Int) =
      (allAxes e.inputs)[m].index.resolve w := by
  have notName := hold.name_ne_ellipsis (List.getElem_mem hm) notEll
  have hn : m < ((allAxes e.inputs).map (·.name)).length := by simpa using hm
  have own := idxOf_flatMap (Label.ofName w) (Label.flatMap_ofName_nodup w hold.names) hn
  have single : Label.ofName w ((allAxes e.inputs).map (·.name))[m] = [.axis (allAxes e.inputs)[m].name] := by
    simp [Label.ofName, notName]
  rw [single] at own
  simp only [List.map_cons, List.map_nil, List.length_singleton, List.range_one, List.cons.injEq,
    and_true, Nat.add_zero] at own
  rw [hold.resolve_axis fits hm, Expression.joinedLabels, own]

theorem idxOf_reduction {r : ReducedAxis} (mem : r ∈ e.reductions) :
    (((e.joinedLabels w).idxOf (.axis r.name) : Nat) : Int) = r.index.resolve w := by
  obtain ⟨m, hm, red, index, name⟩ := hold.mem_reductions mem
  rw [index, name]
  exact hold.idxOf_axis fits hm (hold.reduced_not_ellipsis (List.getElem_mem hm) red)

theorem resolve_reduction_lt {r r' : ReducedAxis} (mem : r ∈ e.reductions) (mem' : r' ∈ e.reductions)
    (lt : r.index.pos < r'.index.pos) : r.index.resolve w < r'.index.resolve w := by
  obtain ⟨m, hm, red, index, -⟩ := hold.mem_reductions mem
  obtain ⟨m', hm', -, index', -⟩ := hold.mem_reductions mem'
  rw [index, index'] at lt ⊢
  exact hold.resolve_strictMono fits (List.getElem_mem hm) (List.getElem_mem hm')
    (hold.reduced_not_ellipsis (List.getElem_mem hm) red) lt

/-- Once the ellipsis matches `w` axes, the position the table gives a kept name resolves to where
the name's labels start among the kept labels. -/
theorem kept_at {x : String} {idx : Index} (found : e.names.lookup x = some idx) :
    ∃ p : Nat, idx.resolve w = p ∧
      ∀ k < (Label.ofName w x).length, (e.keptLabels w)[p + k]? = (Label.ofName w x)[k]? := by
  have sub : e.names.names.Sublist ((allAxes e.inputs).map (·.name)) := by
    rw [hold.names_eq]
    exact List.filter_sublist.map _
  have keptFits : ((e.names.names.flatMap (Label.ofName w)).length : Int) ≤ Word.maxInt64 :=
    le_trans (by exact_mod_cast (sub.flatMap (Label.ofName w)).length_le) fits
  have mem : x ∈ e.names.names := lookup_isSome_iff_mem.1 (show (e.names.lookup x).isSome by rw [found]; rfl)
  obtain ⟨m, hm, rfl⟩ := List.getElem_of_mem mem
  obtain ⟨idx', found', -, resolved⟩ := lookup_resolve hold keptFits hm
  obtain rfl : idx' = idx := Option.some.inj (found'.symm.trans found)
  refine ⟨_, resolved, fun k hk => ?_⟩
  have split : e.keptLabels w = (e.names.names.take m).flatMap (Label.ofName w) ++
      (Label.ofName w e.names.names[m] ++ (e.names.names.drop (m + 1)).flatMap (Label.ofName w)) := by
    rw [← List.flatMap_cons, List.getElem_cons_drop, ← List.flatMap_append, List.take_append_drop]
    rfl
  rw [split, List.getElem?_append_right (by omega), Nat.add_sub_cancel_left,
    List.getElem?_append_left hk]

omit fits in
/-- Taking the reduced axes' labels out of the joined labels leaves the kept labels. -/
theorem joined_filter_reduced {S : List ReducedAxis} (perm : S.Perm e.reductions) :
    (e.joinedLabels w).filter (· ∉ S.map fun r => Label.axis r.name) = e.keptLabels w := by
  rw [Expression.joinedLabels, List.flatMap_map, filter_flatMap_of_whole (fun a => !a.isReduced),
    Expression.keptLabels, hold.names_eq, List.flatMap_map]
  intro a aMem
  by_cases red : a.isReduced
  · have notName := hold.name_ne_ellipsis aMem (hold.reduced_not_ellipsis aMem red)
    have taken : Label.axis a.name ∈ S.map fun r => Label.axis r.name :=
      (hold.mem_reducedLabels perm).2 ⟨a, aMem, red, rfl⟩
    simp only [List.mem_map, Label.axis.injEq] at taken
    simp [red, Label.ofName, notName, taken]
  · -- no label of a kept axis is taken out: the names of the inputs are distinct
    have stays : ∀ l ∈ Label.ofName w a.name, l ∉ S.map fun r => Label.axis r.name := by
      intro l lMem taken
      obtain ⟨b, bMem, bRed, rfl⟩ := (hold.mem_reducedLabels perm).1 taken
      rcases Label.mem_ofName.1 lMem with ⟨-, k, -, never⟩ | ⟨-, same⟩
      · cases never
      · obtain rfl : b = a := List.inj_on_of_nodup_map hold.names bMem aMem (Label.axis.inj same)
        exact red bRed
    simp only [red, Bool.not_false, if_true]
    exact List.filter_eq_self.2 fun l lMem => by simpa using stays l lMem

end Expression.InputsHold

open Expression.InputsHold in
/-- Once the ellipsis of a read pattern matches `w` axes, with the positions of the joined axes
signed words, erasing from the joined axes, one reduction at a time from the last position to the
first, the axis each reduction's position resolves to stays within the list and erases exactly
the reduced axes, in that order; what is left is the kept axes, each at the position its table
entry resolves to (the ellipsis's `w` axes from there on). Resolved positions grow with the
numbering over the axes other than the ellipsis. -/
theorem reductions_erase_in_place {text : String} {n : Int} {sizes : List (String × Int)}
    {e : Expression} (ok : Expression.parse text n sizes = .ok e) (w : Nat)
    (fits : ((e.joinedLabels w).length : Int) ≤ Word.maxInt64) {S : List ReducedAxis}
    (perm : S.Perm e.reductions) (desc : S.Pairwise fun r r' => r'.index.pos ≤ r.index.pos) :
    eraseAtEach (S.map fun r => r.index.resolve w) (e.joinedLabels w) =
        some (S.map fun r => Label.axis r.name, e.keptLabels w) ∧
      (∀ x idx, e.names.lookup x = some idx → ∃ p : Nat, idx.resolve w = p ∧
        ∀ k < (Label.ofName w x).length, (e.keptLabels w)[p + k]? = (Label.ofName w x)[k]?) ∧
      ∀ a ∈ allAxes e.inputs, ∀ b ∈ allAxes e.inputs, a.kind ≠ .ellipsis → b.kind ≠ .ellipsis →
        a.index.pos < b.index.pos → a.index.resolve w < b.index.resolve w := by
  have hold := Expression.inputsHold_of_parse ok
  refine ⟨?_, fun x idx found => hold.kept_at fits found,
    fun a aMem b bMem notEll _ lt => hold.resolve_strictMono fits aMem bMem notEll lt⟩
  have placed : S.map (fun r => r.index.resolve w) =
      (S.map fun r => Label.axis r.name).map fun l => ((e.joinedLabels w).idxOf l : Int) := by
    rw [List.map_map]
    exact List.map_congr_left fun r rMem => (hold.idxOf_reduction fits (perm.subset rMem)).symm
  have within : ∀ l ∈ S.map (fun r => Label.axis r.name), l ∈ e.joinedLabels w := by
    intro l taken
    obtain ⟨a, aMem, red, rfl⟩ := (hold.mem_reducedLabels perm).1 taken
    have notName := hold.name_ne_ellipsis aMem (hold.reduced_not_ellipsis aMem red)
    exact List.mem_flatMap.2 ⟨a.name, List.mem_map_of_mem aMem, Label.mem_ofName.2 (.inr ⟨notName, rfl⟩)⟩
  -- positions are distinct, so the reductions come strictly from the last to the first
  have distinct : S.Pairwise fun r r' => r.index.pos ≠ r'.index.pos :=
    List.pairwise_map.1 ((perm.map _).nodup_iff.2 hold.reductions_pos_nodup)
  have strict : S.Pairwise fun r r' => r'.index.pos < r.index.pos :=
    (desc.and distinct).imp fun both => lt_of_le_of_ne both.1 (Ne.symm both.2)
  have labelsDesc : (S.map fun r => Label.axis r.name).Pairwise
      fun l l' => (e.joinedLabels w).idxOf l' < (e.joinedLabels w).idxOf l := by
    refine List.pairwise_map.2 (strict.imp_of_mem fun rMem r'Mem lt => ?_)
    have at_r := hold.idxOf_reduction fits (perm.subset rMem)
    have at_r' := hold.idxOf_reduction fits (perm.subset r'Mem)
    have order := hold.resolve_reduction_lt fits (perm.subset r'Mem) (perm.subset rMem) lt
    omega
  have nodup : (e.joinedLabels w).Nodup := Label.flatMap_ofName_nodup w hold.names
  have erased := eraseAtEach_idxOf nodup [] _ within (by rwa [List.nil_append])
  have whole : (e.joinedLabels w).filter (· ∉ ([] : List Label)) = e.joinedLabels w :=
    List.filter_eq_self.2 fun l _ => by simp
  rw [List.nil_append, hold.joined_filter_reduced perm, whole] at erased
  rw [placed]
  exact erased


/-- In `a sum(b) .. max(c) -> a ..`, with the ellipsis matching two axes, the reductions taken from
the last erase `c` at position 4 and then `b` at position 1, and leave `a` and the ellipsis's two
axes. -/
theorem reductions_erase_in_place_sample :
    ∃ e, Expression.parse "a sum(b) .. max(c) -> a .." 1 [] = .ok e ∧
      ((e.joinedLabels 2).length : Int) ≤ Word.maxInt64 ∧ e.reductions.reverse.Perm e.reductions ∧
      e.reductions.reverse.Pairwise (fun r r' => r'.index.pos ≤ r.index.pos) ∧
      eraseAtEach (e.reductions.reverse.map fun r => r.index.resolve 2) (e.joinedLabels 2) =
        some (e.reductions.reverse.map fun r => Label.axis r.name, e.keptLabels 2) ∧
      (∀ x idx, e.names.lookup x = some idx → ∃ p : Nat, idx.resolve 2 = p ∧
        ∀ k < (Label.ofName 2 x).length, (e.keptLabels 2)[p + k]? = (Label.ofName 2 x)[k]?) ∧
      ∀ a ∈ allAxes e.inputs, ∀ b ∈ allAxes e.inputs, a.kind ≠ .ellipsis → b.kind ≠ .ellipsis →
        a.index.pos < b.index.pos → a.index.resolve 2 < b.index.resolve 2 := by
  have facts : (Expression.parse "a sum(b) .. max(c) -> a .." 1 []).toOption.map
      (fun e => ((e.joinedLabels 2).length, e.reductions.map (·.index.pos))) = some (5, [1, 3]) := by
    decide +kernel
  cases parsed : Expression.parse "a sum(b) .. max(c) -> a .." 1 [] with
  | error err =>
    rw [parsed] at facts
    cases facts
  | ok e =>
    rw [parsed] at facts
    simp only [Except.toOption, Option.map_some, Option.some.injEq, Prod.mk.injEq] at facts
    obtain ⟨length, positions⟩ := facts
    have fits : ((e.joinedLabels 2).length : Int) ≤ Word.maxInt64 := by
      rw [length]
      decide
    have desc : e.reductions.reverse.Pairwise (fun r r' => r'.index.pos ≤ r.index.pos) := by
      have onPositions : (e.reductions.map (·.index.pos)).reverse.Pairwise (fun p p' => p' ≤ p) := by
        rw [positions]
        decide
      rwa [← List.map_reverse, List.pairwise_map] at onPositions
    exact ⟨e, rfl, fits, List.reverse_perm _, desc,
      reductions_erase_in_place parsed 2 fits (List.reverse_perm _) desc⟩

/-- With the ellipsis of `a .. sum(b) -> a ..` matching `2^63 - 1` axes, the reduced axis `b` is
the joined axis at position `2^63`, but its position resolves, in a signed word, to `-2^63`, so
erasing it falls outside the joined axes. -/
theorem reduction_resolve_wraps :
    ∃ e, Expression.parse "a .. sum(b) -> a .." 1 [] = .ok e ∧
      (e.joinedLabels 9223372036854775807).idxOf (.axis "b") = 9223372036854775808 ∧
      e.reductions.map (fun r => r.index.resolve 9223372036854775807) = [-9223372036854775808] ∧
      eraseAtEach (e.reductions.map fun r => r.index.resolve 9223372036854775807)
        (e.joinedLabels 9223372036854775807) = none := by
  have facts : (Expression.parse "a .. sum(b) -> a .." 1 []).toOption.map
      (fun e => ((allAxes e.inputs).map (·.name), e.reductions.map (·.index))) =
        some (["a", "..", "b"], [⟨2, .unknown⟩]) := by
    decide +kernel
  cases parsed : Expression.parse "a .. sum(b) -> a .." 1 [] with
  | error err =>
    rw [parsed] at facts
    cases facts
  | ok e =>
    rw [parsed] at facts
    simp only [Except.toOption, Option.map_some, Option.some.injEq, Prod.mk.injEq] at facts
    obtain ⟨names, indices⟩ := facts
    have resolved : e.reductions.map (fun r => r.index.resolve 9223372036854775807) =
        [-9223372036854775808] := by
      have onIndices := congrArg (List.map fun i : Index => i.resolve 9223372036854775807) indices
      rw [List.map_map] at onIndices
      rw [show (fun r : ReducedAxis => r.index.resolve 9223372036854775807) =
        (fun i : Index => i.resolve 9223372036854775807) ∘ (·.index) from rfl, onIndices]
      decide
    have joined : e.joinedLabels 9223372036854775807 =
        Label.axis "a" :: ((List.range 9223372036854775807).map Label.ellipsis ++ [Label.axis "b"]) := by
      rw [Expression.joinedLabels, names]
      simp [Label.ofName, ellipsisName]
    refine ⟨e, rfl, ?_, resolved, by rw [resolved]; simp [eraseAtEach]⟩
    rw [joined, List.idxOf_cons_ne _ (by simp), List.idxOf_append_of_notMem (by simp)]
    simp

end Rearrange.Pattern

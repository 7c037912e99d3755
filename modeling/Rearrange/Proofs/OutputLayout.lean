import Rearrange.Proofs.InputDims
import Rearrange.Proofs.Split
import Rearrange.Proofs.Storage
import Rearrange.Proofs.Rearranging
/-!
# Laying out the output: the permutation and the merge

After the inputs are split, the planner puts the kept axes in output order with one permutation,
reading each output member's position off the name table, and merges the axes of each output
group into one dimension.

Once the ellipsis matches `w` axes, the permutation lists, for each label of the output's axes in
order, its position among the labels of the kept axes (`permutation_labels`): the table gives a
kept name its position among the kept names, and resolving that position with the width gives the
offset of the name's first label.

A merge sees of each output slot only whether it is a group and which of its members is the
ellipsis (`Slot.shape`), as read from the tree (`readOutput_slots`): a member alone keeps its axes
and a group multiplies its members' axes into one (`mergeRuns`, `mergeGroups_runs`).
-/
namespace Rearrange.Pattern

variable {e : Expression}

theorem Expression.InputsHold.names_eq (hold : e.InputsHold) :
    e.names.names = ((allAxes e.inputs).filter (!·.isReduced)).map (·.name) := by
  rw [NameTable.names, hold.entries, List.map_fst_zip]
  simp

/-- The table gives each kept name the position a counter hands out to it among the kept names,
the ellipsis taking a range. -/
theorem Expression.InputsHold.entries_eq (hold : e.InputsHold) :
    e.names.entries = e.names.names.zip
      (Positions.indices {} (e.names.names.map fun x => decide (x = ellipsisName))) := by
  have flags : ((allAxes e.inputs).filter (!·.isReduced)).map Axis.isEllipsis =
      (((allAxes e.inputs).filter (!·.isReduced)).map (·.name)).map fun x => decide (x = ellipsisName) := by
    rw [List.map_map]
    refine List.map_congr_left fun a mem => ?_
    have iff := hold.ellipsis a (List.mem_filter.1 mem).1
    by_cases ell : a.isEllipsis = true
    · simp [ell, iff.1 ell]
    · have notName : a.name ≠ ellipsisName := fun h => ell (iff.2 h)
      simp [notName, Bool.eq_false_iff.2 ell]
  rw [hold.entries, hold.names_eq, flags]

/-- What a merge sees of an output slot: whether it is a group, and which of its members stand
for the ellipsis (a range of positions). -/
def Slot.shape : Slot → Bool × List Bool
  | .single idx _ => (false, [decide (idx.kind = .range)])
  | .group ms _ => (true, ms.map fun idx => decide (idx.kind = .range))

/-- What a merge sees of an output term: whether it is a group, and which of its members are the
ellipsis. -/
def OutputTerm.shape : OutputTerm → Bool × List Bool
  | .single m => (false, [m.isEllipsis])
  | .group ms _ => (true, ms.map OutputMember.isEllipsis)

/-- The dimensions a merge makes of `D`, slot by slot, once the ellipsis matches `w` axes: a member
alone keeps its axes, a group multiplies its members' axes into one. -/
def mergeRuns (w : Nat) : List (Bool × List Bool) → List Int → List Int
  | [], _ => []
  | (group, members) :: rest, D =>
    let n := (members.map (spanOf w)).sum
    (if group then [(D.take n).prod] else D.take n) ++ mergeRuns w rest (D.drop n)

/-- The number of axes the slots of the given shapes cover. -/
def runsLength (w : Nat) (shapes : List (Bool × List Bool)) : Nat :=
  (shapes.map fun g => (g.2.map (spanOf w)).sum).sum

theorem Positions.step_isRange (p : Positions) (b : Bool) : decide ((p.step b).1.kind = .range) = b := by
  cases b
  · simp only [Positions.step, Positions.take, Bool.false_eq_true, if_false]
    split <;> simp
  · simp [Positions.step, Positions.takeRange]

section Slots

variable (sizes : List (String × Int)) (names : NameTable)

/-- Reading the output side adds one slot per term of the tree, of the term's shape. -/
theorem readOutput_slots : ∀ (ts : List OutputTerm) (st out : OutputBuild),
    readOutput sizes names st ts = some out →
    ∃ new, out.slots = st.slots ++ new ∧ new.map Slot.shape = ts.map OutputTerm.shape
  | [], st, out, ok => by
    simp only [readOutput] at ok
    split at ok
    · cases ok
      exact ⟨[], by simp, rfl⟩
    · cases ok
  | .single m :: ts, st, out, ok => by
    rw [readOutput_single] at ok
    obtain ⟨mid, member, ok⟩ := Option.bind_eq_some_iff.1 ok
    obtain ⟨index, -, slots, -⟩ := readMember_step sizes names member
    obtain ⟨new, rest, shapes⟩ := readOutput_slots ts _ out ok
    refine ⟨.single mid.1 m.pos :: new, by rw [rest, slots]; simp, ?_⟩
    simp [shapes, Slot.shape, OutputTerm.shape, index, Positions.step_isRange]
  | .group ms q :: ts, st, out, ok => by
    rw [readOutput_group] at ok
    obtain ⟨mid, grouped, ok⟩ := Option.bind_eq_some_iff.1 ok
    obtain ⟨slot, -, slots, -⟩ := readGroupMembers_items sizes names q ms [] st mid grouped
    obtain ⟨new, rest, shapes⟩ := readOutput_slots ts _ out ok
    refine ⟨mid.1 :: new, by rw [rest, slots]; simp, ?_⟩
    have ranges := Positions.map_isRange_indices st.positions (ms.map OutputMember.isEllipsis)
    simp [shapes, Slot.shape, OutputTerm.shape, slot, ranges]

end Slots

end Rearrange.Pattern

namespace Rearrange.Plan

open Pattern

section Lists

/-- The labels one element of a list contributes to a list of labels without repeats sit right
after those of the elements before it. -/
theorem idxOf_flatMap {α β : Type} [DecidableEq β] (f : α → List β) {xs : List α}
    (nodup : (xs.flatMap f).Nodup) {m : Nat} (hm : m < xs.length) :
    (f xs[m]).map (xs.flatMap f).idxOf =
      (List.range (f xs[m]).length).map fun k => ((xs.take m).flatMap f).length + k := by
  have split : xs.flatMap f = (xs.take m).flatMap f ++ (f xs[m] ++ (xs.drop (m + 1)).flatMap f) := by
    calc xs.flatMap f = (xs.take m ++ xs.drop m).flatMap f := by rw [List.take_append_drop]
      _ = _ := by rw [← List.getElem_cons_drop hm, List.flatMap_append, List.flatMap_cons]
  refine List.ext_getElem (by simp) fun j h₁ _ => ?_
  have hj : j < (f xs[m]).length := by simpa using h₁
  have lt : ((xs.take m).flatMap f).length + j < (xs.flatMap f).length := by
    rw [split]
    simp only [List.length_append]
    omega
  have at_j : (xs.flatMap f)[((xs.take m).flatMap f).length + j] = (f xs[m])[j] := by
    simp only [split]
    rw [List.getElem_append_right (by omega)]
    simp only [Nat.add_sub_cancel_left]
    rw [List.getElem_append_left hj]
  simp only [List.getElem_map, List.getElem_range]
  rw [← at_j, nodup.idxOf_getElem]

/-- Looking a key up in a list of keys without repeats paired with values gives the value at the
key's position. -/
theorem lookup_zip_getElem {β : Type} : ∀ {ks : List String} {vs : List β}, ks.Nodup →
    ks.length = vs.length → ∀ {m : Nat} (hm : m < ks.length) (hv : m < vs.length),
    (ks.zip vs).lookup ks[m] = some vs[m]
  | [], _, _, _, _, hm, _ => absurd hm (Nat.not_lt_zero _)
  | _ :: _, [], _, len, _, _, _ => by simp at len
  | k :: ks, v :: vs, nodup, len, m, hm, hv => by
    cases m with
    | zero => simp
    | succ m =>
      have hk : m < ks.length := by simpa using hm
      have fresh : (ks[m] == k) = false :=
        beq_eq_false_iff_ne.2 fun same => (List.nodup_cons.1 nodup).1 (same ▸ List.getElem_mem hk)
      have rest := lookup_zip_getElem (List.nodup_cons.1 nodup).2 (by simpa using len) hk
        (by simpa using hv)
      simp only [List.zip_cons_cons, List.getElem_cons_succ, List.lookup, fresh]
      exact rest

end Lists

section Permutation

variable {e : Expression}

/-- The table gives the kept name at index `m` a position that is a range exactly for the
ellipsis and that resolves, once the ellipsis matches `w` axes, to the offset of the name's first
label among the labels of all kept names, as long as these labels are a signed word of them. -/
theorem lookup_resolve (hold : e.InputsHold) {w : Nat}
    (fits : ((e.names.names.flatMap (Label.ofName w)).length : Int) ≤ Word.maxInt64)
    {m : Nat} (hm : m < e.names.names.length) :
    ∃ idx, e.names.lookup e.names.names[m] = some idx ∧
      decide (idx.kind = .range) = decide (e.names.names[m] = ellipsisName) ∧
      idx.resolve w = ((e.names.names.take m).flatMap (Label.ofName w)).length := by
  set names := e.names.names
  set bs := names.map fun x => decide (x = ellipsisName)
  have distinct : names.Nodup := hold.names_nodup
  have hb : m < (Positions.indices {} bs).length := by simpa [bs] using hm
  set idx := (Positions.indices {} bs)[m]
  refine ⟨idx, ?_, ?_, ?_⟩
  · rw [NameTable.lookup, hold.entries_eq]
    exact lookup_zip_getElem distinct (by simp [bs]) hm hb
  · have at_m := congrArg (·[m]?) (Positions.map_isRange_indices {} bs)
    simpa [List.getElem?_eq_getElem hb, bs, List.getElem?_eq_getElem hm] using at_m
  · have expanded : 0 + (bs.map (spanOf w)).sum ≤ Word.maxInt64 := by
      rw [← Label.length_flatMap_ofName]
      simpa using fits
    rw [Label.length_flatMap_take]
    simpa using resolve_indices w bs 0 (Label.count_ellipsis_le_one distinct) expanded m idx
      (List.getElem?_eq_getElem hb)

/-- The position the table gives a kept name resolves, once the ellipsis matches `w` axes, to the
positions of the name's labels among the labels of all kept names. -/
theorem resolve_labels (hold : e.InputsHold) {a : Assembly} {w : Nat} (width : a.width = w)
    (small : (e.names.length + w : Int) ≤ Word.maxInt64) {x : String} (kept : x ∈ e.names.names) :
    ∃ idx, e.names.lookup x = some idx ∧
      (List.range (a.span idx).toNat).map (fun (k : Nat) => idx.resolve a.width + (k : Int)) =
        ((Label.ofName w x).map (e.names.names.flatMap (Label.ofName w)).idxOf).map Int.ofNat := by
  set names := e.names.names
  have distinct : names.Nodup := hold.names_nodup
  obtain ⟨m, hm, rfl⟩ := List.getElem_of_mem kept
  have fits : ((names.flatMap (Label.ofName w)).length : Int) ≤ Word.maxInt64 := by
    have bound := sum_spanOf_le w _ (Label.count_ellipsis_le_one distinct)
    have length : names.length = e.names.length := by simp [names, NameTable.names, NameTable.length]
    rw [← Label.length_flatMap_ofName, List.length_map] at bound
    omega
  obtain ⟨idx, found, isRange, resolved⟩ := lookup_resolve hold fits hm
  change decide (idx.kind = .range) = decide (names[m] = ellipsisName) at isRange
  refine ⟨idx, found, ?_⟩
  have span : (a.span idx).toNat = (Label.ofName w names[m]).length := by
    rw [Label.length_ofName, Assembly.span, width]
    by_cases ell : names[m] = ellipsisName
    · have : idx.kind = .range := by simpa [ell] using isRange
      simp [this, ell, spanOf]
    · have : idx.kind ≠ .range := by simpa [ell] using isRange
      simp [this, ell, spanOf]
  rw [span, idxOf_flatMap _ (Label.flatMap_ofName_nodup w distinct) hm, width, resolved]
  simp [names]

/-- Once the ellipsis matches `w` axes, the permutation lists the positions of the labels of the
output's kept members, in order, among the labels of all kept names. -/
theorem permutation_labels (hold : e.InputsHold) {items : List OutputItem} (out : e.OutputHolds items)
    {a : Assembly} {w : Nat} (width : a.width = w) (small : (e.names.length + w : Int) ≤ Word.maxInt64) :
    (e.permutation.flatMap fun idx =>
        (List.range (a.span idx).toNat).map fun (k : Nat) => idx.resolve a.width + (k : Int)) =
      (((items.filterMap OutputItem.kept?).flatMap (Label.ofName w)).map
        (e.names.names.flatMap (Label.ofName w)).idxOf).map Int.ofNat := by
  have used : ∀ x ∈ items.filterMap OutputItem.kept?, x ∈ e.names.names := fun x mem => out.kept.subset mem
  rw [out.permutation, ← List.filterMap_filterMap]
  generalize items.filterMap OutputItem.kept? = xs at used ⊢
  induction xs with
  | nil => rfl
  | cons x xs ih =>
    obtain ⟨idx, found, labels⟩ := resolve_labels hold width small (used x List.mem_cons_self)
    have rest := ih fun y mem => used y (List.mem_cons_of_mem x mem)
    simp only [List.filterMap_cons, found, List.flatMap_cons, List.map_append, rest, labels]

end Permutation

section Merge

/-- Over positive numbers, a sublist multiplies to at most the whole list. -/
theorem prod_le_of_sublist {l₁ l₂ : List Int} (sub : l₁.Sublist l₂) (pos : ∀ d ∈ l₂, 0 < d) :
    l₁.prod ≤ l₂.prod := by
  induction sub with
  | slnil => exact le_refl _
  | @cons l₁ l₂ a _ ih =>
    have rest := ih fun d mem => pos d (List.mem_cons_of_mem a mem)
    have positive : 0 < a := pos a List.mem_cons_self
    have whole : 0 < l₂.prod := List.prod_pos fun d mem => pos d (List.mem_cons_of_mem a mem)
    calc l₁.prod ≤ l₂.prod := rest
      _ = 1 * l₂.prod := (Int.one_mul _).symm
      _ ≤ a * l₂.prod := Int.mul_le_mul_of_nonneg_right positive whole.le
      _ = (a :: l₂).prod := List.prod_cons.symm
  | cons_cons a _ ih =>
    have rest := ih fun d mem => pos d (List.mem_cons_of_mem a mem)
    have positive : 0 < a := pos a List.mem_cons_self
    simp only [List.prod_cons]
    exact Int.mul_le_mul_of_nonneg_left rest positive.le

variable (a : Assembly)

theorem mergeGroups_snoc_single (ss : List Slot) (idx : Index) (q : Nat) :
    a.mergeGroups (ss ++ [.single idx q]) =
      ((a.mergeGroups ss).1 ++ (List.range (a.span idx).toNat).map fun (k : Nat) =>
          ((a.mergeGroups ss).2 + (k : Int), (a.mergeGroups ss).2 + (k : Int) + 1),
        (a.mergeGroups ss).2 + max (a.span idx) 0) := by
  simp only [Assembly.mergeGroups, List.foldl_append, List.foldl_cons, List.foldl_nil]

theorem mergeGroups_snoc_group (ss : List Slot) (ms : List Index) (q : Nat) :
    a.mergeGroups (ss ++ [.group ms q]) =
      ((a.mergeGroups ss).1 ++
          [((a.mergeGroups ss).2, (a.mergeGroups ss).2 + (ms.map a.span).foldl (· + ·) 0)],
        (a.mergeGroups ss).2 + (ms.map a.span).foldl (· + ·) 0) := by
  simp only [Assembly.mergeGroups, List.foldl_append, List.foldl_cons, List.foldl_nil]

theorem runDim_eq_prod {D : List Int} (pos : ∀ d ∈ D, 0 < d) (fits : D.prod ≤ Word.maxInt64) (s e : Nat) :
    Shape.runDim D s e = ((D.drop s).take (e - s)).prod := by
  have sub : ((D.drop s).take (e - s)).Sublist D := (List.take_sublist _ _).trans (List.drop_sublist _ _)
  exact product_eq_prod (fun d mem => pos d (sub.subset mem)) ((prod_le_of_sublist sub pos).trans fits)

theorem runsLength_append (w : Nat) (gs : List (Bool × List Bool)) (g : Bool × List Bool) :
    runsLength w (gs ++ [g]) = runsLength w gs + (g.2.map (spanOf w)).sum := by
  simp [runsLength]

theorem mergeRuns_append (w : Nat) : ∀ (gs : List (Bool × List Bool)) (g : Bool × List Bool) (D : List Int),
    mergeRuns w (gs ++ [g]) D = mergeRuns w gs D ++ mergeRuns w [g] (D.drop (runsLength w gs))
  | [], g, D => by simp [mergeRuns, runsLength]
  | (group, members) :: gs, g, D => by
    simp only [List.cons_append, mergeRuns, mergeRuns_append w gs g, List.drop_drop, List.append_assoc]
    simp [runsLength]

theorem span_eq {w : Nat} (width : a.width = w) (idx : Index) :
    a.span idx = (spanOf w (decide (idx.kind = .range)) : Int) := by
  by_cases r : idx.kind = .range <;> simp [Assembly.span, r, width, spanOf]

theorem map_range_take_one {D : List Int} {L n : Nat} (within : L + n ≤ D.length) :
    (List.range n).map (fun k => ((D.drop (L + k)).take 1).prod) = (D.drop L).take n := by
  refine List.ext_getElem (by simp; omega) fun k h₁ _ => ?_
  have lt : L + k < D.length := by simp at h₁; omega
  simp only [List.getElem_map, List.getElem_range, List.getElem_take, List.getElem_drop]
  rw [List.drop_eq_getElem_cons lt, List.take_succ_cons, List.take_zero, List.prod_singleton]

/-- Once the ellipsis matches `w` axes, the merge groups of the slots cover the axes their shapes
cover, and over positive dimensions whose product fits a word they merge as `mergeRuns` says. -/
theorem mergeGroups_runs {w : Nat} (width : a.width = w) (ss : List Slot) :
    (a.mergeGroups ss).2 = runsLength w (ss.map Slot.shape) ∧
      ∀ D : List Int, (∀ d ∈ D, 0 < d) → D.prod ≤ Word.maxInt64 →
        runsLength w (ss.map Slot.shape) ≤ D.length →
        (a.mergeGroups ss).1.map (fun g => Shape.runDim D g.1.toNat g.2.toNat) =
          mergeRuns w (ss.map Slot.shape) D := by
  induction ss using List.reverseRecOn with
  | nil => exact ⟨rfl, fun D _ _ _ => rfl⟩
  | append_singleton ss s ih =>
    obtain ⟨stop, runs⟩ := ih
    cases s with
    | single idx q =>
      rw [mergeGroups_snoc_single, span_eq a width, stop]
      refine ⟨by simp [runsLength_append, Slot.shape], fun D pos fits within => ?_⟩
      have before : runsLength w (ss.map Slot.shape) + spanOf w (decide (idx.kind = .range)) ≤ D.length := by
        simpa [runsLength_append, Slot.shape] using within
      rw [List.map_append, runs D pos fits (by omega), List.map_map, List.map_append, List.map_singleton,
        mergeRuns_append]
      congr 1
      have alone : mergeRuns w [Slot.shape (.single idx q)] (D.drop (runsLength w (ss.map Slot.shape))) =
          (D.drop (runsLength w (ss.map Slot.shape))).take (spanOf w (decide (idx.kind = .range))) := by
        simp [mergeRuns, Slot.shape]
      rw [alone, ← map_range_take_one before, Int.toNat_natCast]
      refine List.map_congr_left fun k _ => ?_
      have start : ((runsLength w (ss.map Slot.shape) : Int) + k).toNat = runsLength w (ss.map Slot.shape) + k := by
        omega
      have next : ((runsLength w (ss.map Slot.shape) : Int) + k + 1).toNat - (runsLength w (ss.map Slot.shape) + k) = 1 := by
        omega
      simp only [Function.comp_apply, runDim_eq_prod pos fits, start, next]
    | group ms q =>
      have total : (ms.map a.span).foldl (· + ·) 0 =
          (((ms.map fun idx => decide (idx.kind = .range)).map (spanOf w)).sum : Int) := by
        rw [← List.sum_eq_foldl, Nat.cast_list_sum, List.map_map, List.map_map]
        exact congrArg List.sum (List.map_congr_left fun idx _ => span_eq a width idx)
      set n := ((ms.map fun idx => decide (idx.kind = .range)).map (spanOf w)).sum
      rw [mergeGroups_snoc_group, stop, total]
      refine ⟨by simp [runsLength_append, Slot.shape, n], fun D pos fits within => ?_⟩
      have before : runsLength w (ss.map Slot.shape) + n ≤ D.length := by
        simpa [runsLength_append, Slot.shape, n] using within
      rw [List.map_append, runs D pos fits (by omega), List.map_singleton, List.map_append, List.map_singleton,
        mergeRuns_append]
      have start : ((runsLength w (ss.map Slot.shape) : Int)).toNat = runsLength w (ss.map Slot.shape) := by
        omega
      have count : ((runsLength w (ss.map Slot.shape) : Int) + n).toNat - runsLength w (ss.map Slot.shape) = n := by
        omega
      simp only [runDim_eq_prod pos fits, start, count]
      simp [mergeRuns, Slot.shape, n]

theorem mergeRuns_of_singles (w : Nat) : ∀ (gs : List (Bool × List Bool)), (∀ g ∈ gs, g.1 = false) →
    ∀ D : List Int, mergeRuns w gs D = D.take (runsLength w gs)
  | [], _, D => by simp [mergeRuns, runsLength]
  | (group, members) :: gs, singles, D => by
    obtain rfl : group = false := singles _ List.mem_cons_self
    have rest := mergeRuns_of_singles w gs (fun g mem => singles g (List.mem_cons_of_mem _ mem))
    have length : runsLength w ((false, members) :: gs) = (members.map (spanOf w)).sum + runsLength w gs := by
      simp [runsLength]
    simp only [mergeRuns, Bool.false_eq_true, if_false, rest]
    rw [length, List.take_add]

end Merge

section Stages

variable (a : Assembly)

theorem emit_ok {st : Step} {a' : Assembly} (h : a.emit st = .ok a') :
    a' = { a with steps := a.steps ++ [{ st with output := ⟨a.dtype, a.dims⟩ }] } := by
  unfold Assembly.emit at h
  obtain ⟨out, made, done⟩ := Except.bind_eq_ok.1 h
  rw [(Shape.make_ok made).1] at done
  exact (Except.ok.inj done).symm

/-- A permutation stage that succeeds puts the dimensions in the order it computes, with one
permutation step unless that order keeps every axis in place. -/
theorem permute_ok {order : List Index} {perm : List Int}
    (listed : (order.flatMap fun idx =>
      (List.range (a.span idx).toNat).map fun (k : Nat) => idx.resolve a.width + (k : Int)) = perm)
    {a' : Assembly} (h : a.permute order = .ok a') :
    perm.length = a.dims.length ∧ ∃ permuting, PermutesBy permuting perm ∧
      a' = { a with dims := perm.map fun p => a.dims.getD p.toNat 0, steps := a.steps ++ permuting } := by
  unfold Assembly.permute at h
  simp only [listed] at h
  by_cases len : perm.length = a.dims.length
  · simp only [len, ne_eq, not_true_eq_false, if_false] at h
    refine ⟨len, ?_⟩
    split at h
    · next identity =>
      cases h
      have inOrder := Shape.isIdentityPermutation_eq identity
      refine ⟨[], .inl ⟨rfl, inOrder⟩, ?_⟩
      have keep : (perm.map fun p => a.dims.getD p.toNat 0) = a.dims := by
        rw [inOrder]
        refine List.ext_getElem (by simp [len]) fun j h₁ h₂ => ?_
        simp [List.getElem?_eq_getElem h₂]
      rw [keep, List.append_nil]
    · next moved =>
      obtain ⟨dims, read, h⟩ := Except.bind_eq_ok.1 h
      obtain ⟨-, rfl⟩ := (mapM_operandAt_eq_ok 0).1 read
      rw [emit_ok _ h]
      exact ⟨_, .inr ⟨_, rfl, rfl, rfl⟩, rfl⟩
  · simp [len] at h
    cases h

/-- A merge stage that succeeds, once the ellipsis matches `w` axes and the slots cover the
dimensions, positive with a product that fits a word, merges them as `mergeRuns` says, with one
merge step if the output has a group. -/
theorem merge_ok {w : Nat} (width : a.width = w) {ss : List Slot}
    (cover : runsLength w (ss.map Slot.shape) = a.dims.length) (pos : ∀ d ∈ a.dims, 0 < d)
    (fits : a.dims.prod ≤ Word.maxInt64) {a' : Assembly} (h : a.merge ss = .ok a') :
    ∃ merging, MergesInto merging a.dims (mergeRuns w (ss.map Slot.shape) a.dims) ∧
      a' = { a with dims := mergeRuns w (ss.map Slot.shape) a.dims, steps := a.steps ++ merging } := by
  obtain ⟨stop, runs⟩ := mergeGroups_runs a width ss
  unfold Assembly.merge at h
  split at h
  · next singles =>
    cases h
    have none : ∀ g ∈ ss.map Slot.shape, g.1 = false := by
      intro g mem
      obtain ⟨slot, inSs, rfl⟩ := List.mem_map.1 mem
      have notGroup := List.any_eq_false.1 (by simpa using singles) slot inSs
      cases slot <;> simp_all [Slot.shape]
    have same : mergeRuns w (ss.map Slot.shape) a.dims = a.dims := by
      rw [mergeRuns_of_singles w _ none, cover, List.take_length]
    refine ⟨[], .inl ⟨rfl, same⟩, ?_⟩
    rw [same, List.append_nil]
  · rcases groups : a.mergeGroups ss with ⟨gs, stop'⟩
    rw [groups] at h stop runs
    have covered : stop' = a.dims.length := by simpa [cover] using stop
    simp only [covered, ne_eq, not_true_eq_false, if_false] at h
    have merged : (gs.map fun g => Shape.runDim a.dims g.1.toNat g.2.toNat) =
        mergeRuns w (ss.map Slot.shape) a.dims := runs a.dims pos fits cover.le
    obtain ⟨dims, products, h⟩ := Except.bind_eq_ok.1 h
    obtain ⟨-, rfl⟩ := mapM_runs_eq_ok.1 products
    rw [emit_ok _ h]
    exact ⟨_, .inr ⟨_, rfl, rfl, merged⟩, by rw [← merged]⟩

end Stages

end Rearrange.Plan

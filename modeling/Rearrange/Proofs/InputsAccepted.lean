import Rearrange.Proofs.ReadInputs
import Rearrange.Word.Checked
/-!
# When the input side of a tree is read

`readInputs` succeeds exactly when every axis of the inputs has a size that can be read
(`readSize_isSome`: written sizes and sizes given by the caller are positive and agree) and every
parenthesized group fits (`GroupFits`: at most one member without a size, the others multiplying
to a signed 64-bit word). Its result has one decomposition per input, and the axes of all inputs
carry, in order, the names and reductions written in the tree (`readInputs_result`).

The group lemma follows `readGroup` member by member: the first member without a size becomes
the derived one, a second one spoils the group, and the product of the sizes overflows exactly
when the product of all of them leaves the word, since every size is positive.

`NameTable.build` then fails exactly when a name repeats on the input side (`build_toOption`);
its kept names and its reduced names are those of the labels, in order.
-/
namespace Rearrange.Pattern

section Sizes

variable {sizes : List (String × Int)} {x : String} {s : Option Int}

theorem readSize_isSome :
    (readSize sizes x s).isSome ↔
      (∀ w ∈ s, 0 < w) ∧ ∀ g, sizes.lookup x = some g → 0 < g ∧ ∀ w ∈ s, w = g := by
  unfold readSize
  cases s with
  | none =>
    cases sizes.lookup x with
    | none => simp
    | some g =>
      by_cases pos : g ≤ 0
      · simp [pos]
      · simp [pos]; omega
  | some w =>
    by_cases nonpos : w ≤ 0
    · simp [nonpos]
    · cases sizes.lookup x with
      | none => simp
      | some g =>
        by_cases pos : g ≤ 0
        · simp [pos]
        · by_cases same : w = g
          · simp [pos, same]
            omega
          · simp [pos, same]

theorem readSize_eq {k : Int} (h : readSize sizes x s = some k) :
    (givenSize sizes x s).getD 0 = k ∧ ∀ g, givenSize sizes x s = some g → 0 < g := by
  unfold readSize at h
  unfold givenSize
  by_cases nonpos : s.any (· ≤ 0)
  · simp [nonpos] at h
  · rw [if_neg nonpos] at h
    have positive : ∀ w ∈ s, 0 < w := by
      intro w hw
      simp only [Option.mem_def] at hw
      subst hw
      simp at nonpos
      omega
    cases hl : sizes.lookup x with
    | some g =>
      rw [hl] at h
      by_cases bad : g ≤ 0 ∨ (s.isSome ∧ s ≠ some g)
      · simp [bad] at h
      · simp only [bad, if_false, Option.some.injEq] at h
        subst h
        have positiveGiven : 0 < g := by
          by_contra nonpos
          exact bad (.inl (by omega))
        refine ⟨rfl, fun g' hg => ?_⟩
        simp only [Option.some_or, Option.some.injEq] at hg
        exact hg ▸ positiveGiven
    | none =>
      rw [hl] at h
      cases h
      cases s with
      | none => simp
      | some w => exact ⟨rfl, fun g hg => by simp at hg; exact hg ▸ positive w rfl⟩

end Sizes

def Axis.label (a : Axis) : String × Reduction := (a.name, a.reduce)

def InputAxis.label (a : InputAxis) : String × Reduction := (a.name, a.reduce)

/-- The labels of an item's axes; the ellipsis is kept, under the name `..`. -/
def InputTerm.labels : InputTerm → List (String × Reduction)
  | axis a => [a.label]
  | ellipsis _ => [(ellipsisName, .none)]
  | group ms => ms.map InputAxis.label

theorem List.map_modify_of_eq {α β : Type} (g : α → β) (f : α → α) (hf : ∀ a, g (f a) = g a)
    (l : List α) (i : Nat) : (l.modify i f).map g = l.map g := by
  apply List.ext_getElem (by simp)
  intro j _ _
  simp only [List.getElem_map, List.getElem_modify]
  split <;> simp [hf]

theorem groupStep_label (axes : List Axis) (derived : Option Nat) (siblings : Int) (spoilt : Bool)
    (axis : Axis) : (groupStep axes derived siblings spoilt axis).1.label = axis.label := by
  unfold groupStep
  split
  · split <;> rfl
  · split <;> rfl

theorem closeGroup_labels (first : Nat) (d : Decomposition) (derived : Option Nat) (siblings : Int) :
    (closeGroup first d derived siblings).axes.map Axis.label = d.axes.map Axis.label := by
  unfold closeGroup
  cases derived with
  | none => rfl
  | some i =>
    exact List.map_modify_of_eq Axis.label (fun a => { a with siblingsSize := siblings })
      (fun _ => rfl) d.axes i

section Groups

variable (sizes : List (String × Int)) (first : Nat)

theorem readGroup_cons (pos : Positions) (d : Decomposition) (derived : Option Nat) (siblings : Int)
    (spoilt : Bool) (a : InputAxis) (ms : List InputAxis) :
    readGroup sizes first pos d derived siblings spoilt (a :: ms) =
      (a.read sizes).bind fun axis =>
        let g := groupStep d.axes derived siblings spoilt { axis with index := pos.take.1 }
        readGroup sizes first pos.take.2 { d with axes := d.axes ++ [g.1] } g.2.1 g.2.2.1 g.2.2.2 ms :=
  rfl

theorem groupStep_spoilt (axes : List Axis) (derived : Option Nat) (siblings : Int) (axis : Axis) :
    (groupStep axes derived siblings true axis).2.2.2 = true := by
  unfold groupStep
  split
  · split <;> rfl
  · split <;> rfl

theorem readGroup_spoilt : ∀ (ms : List InputAxis) (pos : Positions) (d : Decomposition)
    (derived : Option Nat) (siblings : Int), readGroup sizes first pos d derived siblings true ms = none
  | [], _, _, _, _ => rfl
  | a :: ms, pos, d, derived, siblings => by
    rw [readGroup_cons]
    cases a.read sizes with
    | none => rfl
    | some axis =>
      simp only [Option.bind_some, groupStep_spoilt]
      exact readGroup_spoilt ms _ _ _ _

theorem InputAxis.readSize_of_read {a : InputAxis} {axis : Axis} (h : a.read sizes = some axis) :
    readSize sizes a.name a.size = some axis.size ∧ axis.name = a.name ∧ axis.reduce = a.reduce := by
  unfold InputAxis.read at h
  obtain ⟨k, sized, rfl⟩ := Option.map_eq_some_iff.1 h
  exact ⟨sized, rfl, rfl⟩

theorem InputAxis.read_eq_none {a : InputAxis} :
    a.read sizes = none ↔ readSize sizes a.name a.size = none := by
  simp [InputAxis.read]

theorem givenProduct_pos (ms : List InputAxis) (read : ∀ a ∈ ms, (readSize sizes a.name a.size).isSome) :
    0 < (ms.filterMap fun a => givenSize sizes a.name a.size).prod := by
  apply Word.prod_pos_of_pos
  intro g mem
  obtain ⟨a, member, given⟩ := List.mem_filterMap.1 mem
  obtain ⟨k, sized⟩ := Option.isSome_iff_exists.1 (read a member)
  exact (readSize_eq sized).2 g given

/-- A group is read when all its members are, at most one of them (counting a derived member
already found) has no size, and the product of the sizes, times those before, fits a word. -/
theorem readGroup_isSome : ∀ (ms : List InputAxis) {pos : Positions} {d : Decomposition}
    {derived : Option Nat} {siblings : Int}, 0 < siblings → siblings ≤ Word.maxInt64 →
    ((readGroup sizes first pos d derived siblings false ms).isSome ↔
      (∀ a ∈ ms, (readSize sizes a.name a.size).isSome) ∧
      derived.isSome.toNat + (ms.filter fun a => givenSize sizes a.name a.size = none).length ≤ 1 ∧
      siblings * (ms.filterMap fun a => givenSize sizes a.name a.size).prod ≤ Word.maxInt64)
  | [], pos, d, derived, siblings, _, fits => by
    cases derived <;> simp [readGroup, fits]
  | a :: ms, pos, d, derived, siblings, positive, fits => by
    rw [readGroup_cons]
    cases hread : a.read sizes with
    | none =>
      have unread := (InputAxis.read_eq_none sizes).1 hread
      simp [unread]
    | some axis =>
      obtain ⟨sized, -, -⟩ := InputAxis.readSize_of_read sizes hread
      obtain ⟨given, givenPos⟩ := readSize_eq sized
      simp only [Option.bind_some, groupStep]
      by_cases unsized : axis.size = 0
      · have noSize : givenSize sizes a.name a.size = none := by
          cases h : givenSize sizes a.name a.size with
          | none => rfl
          | some g =>
            rw [h] at given givenPos
            have := givenPos g rfl
            simp at given
            omega
        cases derived with
        | none =>
          simp only [unsized, if_true]
          rw [readGroup_isSome ms positive fits]
          simp [noSize, sized]
        | some i =>
          simp only [unsized, if_true, readGroup_spoilt, Option.isSome_none, Bool.false_eq_true,
            false_iff]
          simp [noSize]
      · have hasSize : givenSize sizes a.name a.size = some axis.size := by
          cases h : givenSize sizes a.name a.size with
          | none => rw [h] at given; simp at given; omega
          | some g => rw [h] at given; simp at given; rw [given]
        have sizePos : 0 < axis.size := givenPos _ hasSize
        simp only [unsized, if_false]
        rw [Word.checkedMul_of_nonneg siblings axis.size (by omega) (by omega)]
        by_cases within : siblings * axis.size ≤ Word.maxInt64
        · simp only [within, if_true]
          rw [readGroup_isSome ms (Int.mul_pos positive sizePos) within]
          simp [hasSize, sized, Int.mul_assoc]
        · simp only [within, if_false, readGroup_spoilt, Option.isSome_none, Bool.false_eq_true,
            false_iff]
          rintro ⟨read, -, product⟩
          have restPos := givenProduct_pos sizes ms (fun b mem => read b (by simp [mem]))
          simp only [hasSize, List.filterMap_cons, List.prod_cons] at product
          have grows : siblings * axis.size ≤
              siblings * (axis.size * (ms.filterMap fun a => givenSize sizes a.name a.size).prod) := by
            rw [← Int.mul_assoc]
            exact le_mul_of_one_le_right (Int.le_of_lt (Int.mul_pos positive sizePos)) (by omega)
          omega

/-- A group that is read adds the labels of its members to the axes. -/
theorem readGroup_labels : ∀ (ms : List InputAxis) {pos : Positions} {d : Decomposition}
    {derived : Option Nat} {siblings : Int} {spoilt : Bool} {res : Positions × Decomposition},
    readGroup sizes first pos d derived siblings spoilt ms = some res →
    res.2.axes.map Axis.label = d.axes.map Axis.label ++ ms.map InputAxis.label
  | [], pos, d, derived, siblings, spoilt, res, ok => by
    unfold readGroup at ok
    split at ok
    · cases ok
    · cases ok
      simp [closeGroup_labels]
  | a :: ms, pos, d, derived, siblings, spoilt, res, ok => by
    rw [readGroup_cons] at ok
    obtain ⟨axis, hread, ok⟩ := Option.bind_eq_some_iff.1 ok
    obtain ⟨-, named, reduced⟩ := InputAxis.readSize_of_read sizes hread
    rw [readGroup_labels ms ok, List.map_append, List.map_singleton, groupStep_label]
    simp [Axis.label, InputAxis.label, named, reduced]

end Groups

/-- A group of the input side that can be read: at most one member has no size, and the sizes
of the others multiply to a signed 64-bit word. -/
def GroupFits (sizes : List (String × Int)) (ms : List InputAxis) : Prop :=
  (ms.filter fun a => givenSize sizes a.name a.size = none).length ≤ 1 ∧
    (ms.filterMap fun a => givenSize sizes a.name a.size).prod ≤ Word.maxInt64

section Terms

variable (sizes : List (String × Int))

theorem readGroup_isSome_iff (ms : List InputAxis) (pos : Positions) (d : Decomposition) :
    (readGroup sizes d.axes.length pos d none 1 false ms).isSome ↔
      (∀ a ∈ ms, (readSize sizes a.name a.size).isSome) ∧ GroupFits sizes ms := by
  rw [readGroup_isSome sizes _ ms (by decide) (by unfold Word.maxInt64; decide)]
  simp [GroupFits]

theorem readTerms_axis (pos : Positions) (d : Decomposition) (a : InputAxis) (ts : List InputTerm) :
    readTerms sizes pos d (.axis a :: ts) =
      (a.read sizes).bind fun axis =>
        readTerms sizes pos.take.2 { d with axes := d.axes ++ [{ axis with index := pos.take.1 }],
                                            dims := d.dims ++ [{ first := d.axes.length, count := 1 }] } ts :=
  rfl

theorem readTerms_group (pos : Positions) (d : Decomposition) (ms : List InputAxis)
    (ts : List InputTerm) :
    readTerms sizes pos d (.group ms :: ts) =
      (readGroup sizes d.axes.length pos d none 1 false ms).bind fun res =>
        readTerms sizes res.1 res.2 ts :=
  rfl

/-- The items of an input are read when all their axes are and every group fits. -/
theorem readTerms_isSome : ∀ (ts : List InputTerm) {pos : Positions} {d : Decomposition},
    (readTerms sizes pos d ts).isSome ↔
      (∀ a ∈ ts.flatMap InputTerm.axes, (readSize sizes a.name a.size).isSome) ∧
      ∀ ms ∈ ts.filterMap InputTerm.group?, GroupFits sizes ms
  | [], pos, d => by simp [readTerms]
  | .axis a :: ts, pos, d => by
    rw [readTerms_axis]
    cases hread : a.read sizes with
    | none =>
      have unread := (InputAxis.read_eq_none sizes).1 hread
      simp [InputTerm.axes, unread]
    | some axis =>
      obtain ⟨sized, -, -⟩ := InputAxis.readSize_of_read sizes hread
      simp only [Option.bind_some]
      rw [readTerms_isSome ts]
      simp [InputTerm.axes, InputTerm.group?, sized]
  | .ellipsis p :: ts, pos, d => by
    rw [readTerms]
    rw [readTerms_isSome ts]
    simp [InputTerm.axes, InputTerm.group?]
  | .group ms :: ts, pos, d => by
    rw [readTerms_group]
    have group := readGroup_isSome_iff sizes ms pos d
    cases hg : readGroup sizes d.axes.length pos d none 1 false ms with
    | none =>
      rw [hg] at group
      simp only [Option.isSome_none, Bool.false_eq_true, false_iff] at group
      simp only [Option.bind_none, Option.isSome_none, Bool.false_eq_true, false_iff]
      rintro ⟨read, fits⟩
      apply group
      refine ⟨fun a mem => read a (by simp [InputTerm.axes, mem]), fits ms (by simp [InputTerm.group?])⟩
    | some res =>
      rw [hg] at group
      simp only [Option.isSome_some, true_iff] at group
      simp only [Option.bind_some]
      rw [readTerms_isSome ts]
      simp only [List.flatMap_cons, InputTerm.axes, List.mem_append, List.filterMap_cons,
        InputTerm.group?, List.mem_cons]
      constructor
      · rintro ⟨read, fits⟩
        refine ⟨fun a mem => ?_, fun ms' mem => ?_⟩
        · rcases mem with mem | mem
          · exact group.1 a mem
          · exact read a mem
        · rcases mem with rfl | mem
          · exact group.2
          · exact fits ms' mem
      · rintro ⟨read, fits⟩
        exact ⟨fun a mem => read a (.inr mem), fun ms' mem => fits ms' (.inr mem)⟩

/-- The items of an input that are read add their labels to the axes. -/
theorem readTerms_labels : ∀ (ts : List InputTerm) {pos : Positions} {d : Decomposition}
    {res : Positions × Decomposition}, readTerms sizes pos d ts = some res →
    res.2.axes.map Axis.label = d.axes.map Axis.label ++ ts.flatMap InputTerm.labels
  | [], pos, d, res, ok => by
    cases ok
    simp
  | .axis a :: ts, pos, d, res, ok => by
    rw [readTerms_axis] at ok
    obtain ⟨axis, hread, ok⟩ := Option.bind_eq_some_iff.1 ok
    obtain ⟨-, named, reduced⟩ := InputAxis.readSize_of_read sizes hread
    rw [readTerms_labels ts ok]
    simp [Axis.label, InputTerm.labels, InputAxis.label, named, reduced]
  | .ellipsis p :: ts, pos, d, res, ok => by
    rw [readTerms_labels ts ok]
    simp [Axis.label, InputTerm.labels]
  | .group ms :: ts, pos, d, res, ok => by
    rw [readTerms_group] at ok
    obtain ⟨mid, grouped, ok⟩ := Option.bind_eq_some_iff.1 ok
    rw [readTerms_labels ts ok, readGroup_labels sizes _ ms grouped]
    simp [InputTerm.labels]

theorem readInputs_cons (pos : Positions) (done : List Decomposition) (ts : List InputTerm)
    (more : List (List InputTerm)) :
    readInputs sizes pos done (ts :: more) =
      (readTerms sizes pos { input := done.length } ts).bind fun res =>
        readInputs sizes res.1 (done ++ [res.2]) more :=
  rfl

/-- The inputs are read when all their axes are and every group fits. -/
theorem readInputs_isSome : ∀ (tss : List (List InputTerm)) {pos : Positions}
    {done : List Decomposition},
    (readInputs sizes pos done tss).isSome ↔
      (∀ a ∈ tss.flatten.flatMap InputTerm.axes, (readSize sizes a.name a.size).isSome) ∧
      ∀ ms ∈ tss.flatten.filterMap InputTerm.group?, GroupFits sizes ms
  | [], pos, done => by simp [readInputs]
  | ts :: more, pos, done => by
    rw [readInputs_cons]
    have terms : (readTerms sizes pos { input := done.length } ts).isSome ↔ _ :=
      readTerms_isSome sizes ts
    cases ht : readTerms sizes pos { input := done.length } ts with
    | none =>
      rw [ht] at terms
      simp only [Option.isSome_none, Bool.false_eq_true, false_iff] at terms
      simp only [Option.bind_none, Option.isSome_none, Bool.false_eq_true, false_iff]
      rintro ⟨read, fits⟩
      exact terms ⟨fun a mem => read a (by simp_all), fun ms mem => fits ms (by simp_all)⟩
    | some res =>
      rw [ht] at terms
      simp only [Option.isSome_some, true_iff] at terms
      simp only [Option.bind_some]
      rw [readInputs_isSome more]
      simp only [List.flatten_cons, List.flatMap_append, List.filterMap_append, List.mem_append]
      constructor
      · rintro ⟨read, fits⟩
        exact ⟨fun a mem => mem.elim (terms.1 a) (read a), fun ms mem => mem.elim (terms.2 ms) (fits ms)⟩
      · rintro ⟨read, fits⟩
        exact ⟨fun a mem => read a (.inr mem), fun ms mem => fits ms (.inr mem)⟩

/-- The inputs that are read are one decomposition per input, whose axes carry the labels of
the items in order. -/
theorem readInputs_result : ∀ (tss : List (List InputTerm)) {pos : Positions}
    {done ds : List Decomposition}, readInputs sizes pos done tss = some ds →
    ds.length = done.length + tss.length ∧
      (allAxes ds).map Axis.label = (allAxes done).map Axis.label ++ tss.flatten.flatMap InputTerm.labels
  | [], pos, done, ds, ok => by
    cases ok
    simp
  | ts :: more, pos, done, ds, ok => by
    rw [readInputs_cons] at ok
    obtain ⟨res, terms, ok⟩ := Option.bind_eq_some_iff.1 ok
    obtain ⟨length, labels⟩ := readInputs_result more ok
    have termLabels := readTerms_labels sizes ts terms
    refine ⟨by simp [length]; omega, ?_⟩
    rw [labels]
    simp [allAxes, termLabels]

end Terms

theorem lookup_isSome_iff_mem {β : Type} {l : List (String × β)} {k : String} :
    (l.lookup k).isSome ↔ k ∈ l.map Prod.fst := by
  simp only [List.lookup_isSome_iff, beq_iff_eq, List.mem_map]
  constructor
  · rintro ⟨p, mem, rfl⟩
    exact ⟨p, mem, rfl⟩
  · rintro ⟨p, mem, rfl⟩
    exact ⟨p, mem, rfl⟩

section Table

variable (pattern : String)

/-- Adding an axis fails exactly on a name seen before; otherwise the name is seen, and it is
added to the reduced names or to the kept ones. -/
theorem TableBuild.add_eq (b : TableBuild) (a : Axis) :
    (b.add pattern a).toOption.map (fun b' => (b'.seen.map Prod.fst, b'.table.names, b'.table.reduced)) =
      if a.name ∈ b.seen.map Prod.fst then none
      else if a.isReduced then some (a.name :: b.seen.map Prod.fst, b.table.names, b.table.reduced ++ [a.name])
      else some (a.name :: b.seen.map Prod.fst, b.table.names ++ [a.name], b.table.reduced) := by
  unfold TableBuild.add
  cases hl : b.seen.lookup a.name with
  | some firstPos =>
    have seen : a.name ∈ b.seen.map Prod.fst := lookup_isSome_iff_mem.1 (by simp [hl])
    simp [seen]
  | none =>
    have unseen : a.name ∉ b.seen.map Prod.fst := by
      intro mem
      have := lookup_isSome_iff_mem.2 mem
      simp [hl] at this
    by_cases reduced : a.isReduced
    · simp [unseen, reduced, NameTable.names]
    · simp [unseen, reduced, NameTable.names]

theorem fresh_cons_iff {a : Axis} {axes : List Axis} {seen : List String} (unseen : a.name ∉ seen) :
    ((∀ b ∈ axes, b.name ∉ a.name :: seen) ∧ (axes.map (·.name)).Nodup) ↔
      ((∀ b ∈ a :: axes, b.name ∉ seen) ∧ ((a :: axes).map (·.name)).Nodup) := by
  rw [List.map_cons, List.nodup_cons]
  constructor
  · rintro ⟨fresh, nodup⟩
    refine ⟨fun b mem => ?_, fun mem => ?_, nodup⟩
    · rcases List.mem_cons.1 mem with rfl | mem
      · exact unseen
      · exact fun h => fresh b mem (List.mem_cons_of_mem _ h)
    · obtain ⟨b, mem', same⟩ := List.mem_map.1 mem
      exact fresh b mem' (same ▸ List.mem_cons_self)
  · rintro ⟨fresh, notLater, nodup⟩
    refine ⟨fun b mem h => ?_, nodup⟩
    rcases List.mem_cons.1 h with same | seen'
    · exact notLater (List.mem_map.2 ⟨b, mem, same⟩)
    · exact fresh b (List.mem_cons_of_mem _ mem) seen'

/-- Building the table from some axes fails exactly when a name repeats, among them or with one
seen before; the kept names and the reduced ones are added in order. -/
theorem foldlM_add : ∀ (axes : List Axis) (b : TableBuild),
    ((axes.foldlM (TableBuild.add pattern) b).toOption.map
        fun b' => (b'.table.names, b'.table.reduced)) =
      if (∀ a ∈ axes, a.name ∉ b.seen.map Prod.fst) ∧ (axes.map (·.name)).Nodup then
        some (b.table.names ++ ((axes.filter (!·.isReduced)).map (·.name)),
          b.table.reduced ++ ((axes.filter (·.isReduced)).map (·.name)))
      else none
  | [], b => by simp
  | a :: axes, b => by
    have step := TableBuild.add_eq pattern b a
    rw [List.foldlM_cons, Except.toOption_bind]
    cases h : b.add pattern a with
    | error e =>
      rw [h] at step
      have seen : a.name ∈ b.seen.map Prod.fst := by
        by_contra unseen
        rw [if_neg unseen] at step
        split at step <;> cases step
      simp only [Except.toOption_error_eq, Option.bind_none, Option.map_none]
      rw [if_neg (fun cond => cond.1 a List.mem_cons_self seen)]
    | ok b' =>
      rw [h] at step
      have unseen : a.name ∉ b.seen.map Prod.fst := by
        intro seen
        rw [if_pos seen] at step
        cases step
      simp only [Except.toOption_ok_eq, Option.bind_some]
      rw [foldlM_add axes b']
      rw [if_neg unseen] at step
      by_cases reduced : a.isReduced
      · simp only [reduced, if_true, Except.toOption_ok_eq, Option.map_some, Option.some.injEq,
          Prod.mk.injEq] at step
        obtain ⟨seenIs, namesIs, reducedIs⟩ := step
        simp only [seenIs, namesIs, reducedIs, fresh_cons_iff unseen]
        simp [reduced]
      · simp only [reduced, Bool.false_eq_true, if_false, Except.toOption_ok_eq, Option.map_some,
          Option.some.injEq, Prod.mk.injEq] at step
        obtain ⟨seenIs, namesIs, reducedIs⟩ := step
        simp only [seenIs, namesIs, reducedIs, fresh_cons_iff unseen]
        simp [reduced]

theorem Axis.isReduced_eq (a : Axis) : a.isReduced = decide (a.reduce ≠ .none) := by
  unfold Axis.isReduced
  cases a.reduce <;> rfl

theorem build_toOption (text : String) {ds : List Decomposition} {labels : List (String × Reduction)}
    (labelled : (allAxes ds).map Axis.label = labels) :
    (NameTable.build text ds).toOption.map (fun t => (t.names, t.reduced)) =
      if (labels.map Prod.fst).Nodup then
        some ((labels.filter (·.2 = .none)).map Prod.fst, (labels.filter (·.2 ≠ .none)).map Prod.fst)
      else none := by
  have names : (allAxes ds).map (·.name) = labels.map Prod.fst := by
    rw [← labelled, List.map_map]
    rfl
  have kept : ((allAxes ds).filter (!·.isReduced)).map (·.name) =
      (labels.filter (·.2 = .none)).map Prod.fst := by
    rw [← labelled, List.filter_map, List.map_map]
    congr 1
    apply List.filter_congr
    intro a _
    simp only [Axis.isReduced_eq, Axis.label, Function.comp_apply, decide_not, Bool.not_not]
    exact decide_eq_decide.2 Iff.rfl
  have reduced : ((allAxes ds).filter (·.isReduced)).map (·.name) =
      (labels.filter (·.2 ≠ .none)).map Prod.fst := by
    rw [← labelled, List.filter_map, List.map_map]
    congr 1
    apply List.filter_congr
    intro a _
    simp only [Axis.isReduced_eq, Axis.label, Function.comp_apply, decide_not]
    exact congrArg (!·) (decide_eq_decide.2 Iff.rfl)
  unfold NameTable.build
  rw [Except.toOption_map, Option.map_map]
  have fold := foldlM_add text (allAxes ds) {}
  simp only [Function.comp_def]
  rw [fold, names, kept, reduced]
  simp [NameTable.names]

end Table

end Rearrange.Pattern

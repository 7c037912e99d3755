import Rearrange.Proofs.OutputLayout
/-!
# The steps of a plan on labels

A plan's steps move axes around without looking at them. Following each axis by a label with its
size (`Trace`), a step does to the labels what its kind says: a split gives an input the labels
of its axes, a join puts the inputs' axes side by side, a reduction deletes one, a permutation
reorders them, a repeat inserts a fresh one and a merge concatenates runs of them.

For each stage of the layout after the split this module says which steps a stage that succeeds
emits and what they do to the labels of the array it starts from: the reductions delete their
axes from the last to the first (`reduceAll_trace`), the permutation puts the kept labels in
output order (`permute_trace`), the new axes are inserted one at a time at their final positions
(`repeatAll_trace`), and the merge cuts the labels into the runs of the output's slots
(`merge_trace`).
-/
namespace Rearrange

/-- A step on the one array left after the join: a reduction at an axis counted from 0, a
permutation, a repeat or a merge. -/
def Step.OnOneArray (s : Step) : Prop :=
  match s.kind with
  | .reduce => 0 ≤ s.axis
  | .permute | .repeat | .reshapeMerge => True
  | _ => False

end Rearrange

namespace Rearrange.Plan

open Pattern

/-- An array whose axes are the labels `L`, one label each, with sizes `σ`. -/
def cells (σ : Label → Int) (L : List Label) : List (List (Label × Int)) := L.map fun l => [(l, σ l)]

/-- What a plan's steps do to the axes of the arrays they work on, each axis a list of labels
with sizes; with the axes the steps reduce, with their operations, and the axes they insert, in
order. -/
structure Trace where
  arrays : List (List (List (Label × Int)))
  reduced : List (List (Label × Int) × Reduction) := []
  inserted : List (Label × Int) := []
  deriving DecidableEq, Repr

namespace Trace

/-- One step on labels: a split gives input `i` the labels `split i` with the step's dimensions
as sizes, a join concatenates the arrays' axes, a reduction deletes an axis, a permutation reads
the axes in its order, a repeat inserts a fresh label numbered by the inserts so far, and a merge
concatenates each run of axes. -/
def step (split : Nat → List Label) (t : Trace) (s : Step) : Trace :=
  match s.kind with
  | .reshapeSplit =>
    { t with arrays := t.arrays.set s.input.toNat ((split s.input.toNat).zipWith (fun l k => [(l, k)]) s.dims) }
  | .join => { t with arrays := [t.arrays.flatten] }
  | .reduce =>
    { t with arrays := [(t.arrays.headD []).eraseIdx s.axis.toNat],
             reduced := t.reduced ++ [((t.arrays.headD []).getD s.axis.toNat [], s.op)] }
  | .permute => { t with arrays := [s.permutation.map fun q => (t.arrays.headD []).getD q.toNat []] }
  | .repeat =>
    { t with arrays := [(t.arrays.headD []).insertIdx s.axis.toNat [(.fresh t.inserted.length, s.count)]],
             inserted := t.inserted ++ [(.fresh t.inserted.length, s.count)] }
  | .reshapeMerge =>
    { t with arrays := [s.groups.map fun g => (((t.arrays.headD []).drop g.1.toNat).take (g.2.toNat - g.1.toNat)).flatten] }
  | _ => t

def run (split : Nat → List Label) (steps : List Step) (t : Trace) : Trace := steps.foldl (step split) t

theorem run_append (split : Nat → List Label) (first second : List Step) (t : Trace) :
    run split (first ++ second) t = run split second (run split first t) := List.foldl_append

end Trace

/-- A loop over `xs` keeps `P` of the elements done so far and the state, when each round keeps it. -/
theorem foldlM_prefix {σ α : Type} {f : σ → α → Except Failure σ} {P : List α → σ → Prop} (xs : List α)
    (round : ∀ done x rest b b', xs = done ++ x :: rest → P done b → f b x = .ok b' → P (done ++ [x]) b') :
    ∀ b b', P [] b → xs.foldlM f b = .ok b' → P xs b' := by
  suffices loop : ∀ rest done b b', xs = done ++ rest → P done b → rest.foldlM f b = .ok b' → P xs b' from
    fun b b' start done => loop xs [] b b' rfl start done
  intro rest
  induction rest with
  | nil =>
    intro done b b' whole holds finished
    cases finished
    simpa [whole] using holds
  | cons x rest ih =>
    intro done b b' whole holds finished
    rw [List.foldlM_cons] at finished
    obtain ⟨mid, first, finished⟩ := Except.bind_eq_ok.1 finished
    exact ih (done ++ [x]) mid b' (by simp [whole]) (round done x rest b mid whole holds first) finished

section Lists

variable {α : Type} [DecidableEq α]

theorem getElem?_filter_idxOf {L : List α} {p : α → Bool} {x : α} (nodup : L.Nodup) (mem : x ∈ L)
    (px : p x = true) (before : ∀ y ∈ L, L.idxOf y < L.idxOf x → p y = true) :
    (L.filter p)[L.idxOf x]? = some x := by
  obtain ⟨A, B, rfl, len, notA, -⟩ := split_at_idxOf nodup mem
  have keptA : A.filter p = A :=
    List.filter_eq_self.2 fun y yA => before y (by simp [yA]) (idxOf_lt_of_mem_front notA yA)
  rw [← len, List.filter_append, keptA, List.filter_cons, if_pos px]
  simp

theorem eq_of_map_idxOf_range {K O : List α} (sub : ∀ x ∈ O, x ∈ K) (len : O.length = K.length)
    (inOrder : O.map K.idxOf = List.range O.length) : O = K := by
  refine List.ext_getElem len fun j h₁ h₂ => ?_
  have at_j : K.idxOf O[j] = j := by
    have := congrArg (·[j]?) inOrder
    simpa [h₁] using this
  have lt : K.idxOf O[j] < K.length := List.idxOf_lt_length_iff.2 (sub _ (List.getElem_mem h₁))
  calc O[j] = K[K.idxOf O[j]] := (List.getElem_idxOf lt).symm
    _ = K[j] := by simp only [at_j]

end Lists

/-- The runs of `L` slot by slot, once the ellipsis matches `w` axes: a group's members' axes make
one run, a member alone makes one run of each of its axes. -/
def cutRuns {α : Type} (w : Nat) : List (Bool × List Bool) → List α → List (List α)
  | [], _ => []
  | (group, members) :: rest, L =>
    let n := (members.map (spanOf w)).sum
    (if group then [L.take n] else (L.take n).map ([·])) ++ cutRuns w rest (L.drop n)

theorem cutRuns_append {α : Type} (w : Nat) : ∀ (gs : List (Bool × List Bool)) (g : Bool × List Bool) (L : List α),
    cutRuns w (gs ++ [g]) L = cutRuns w gs L ++ cutRuns w [g] (L.drop (runsLength w gs))
  | [], g, L => by simp [cutRuns, runsLength]
  | (group, members) :: gs, g, L => by
    simp only [List.cons_append, cutRuns, cutRuns_append w gs g, List.drop_drop, List.append_assoc]
    simp [runsLength]

theorem cutRuns_singletons {α : Type} (w : Nat) : ∀ (gs : List (Bool × List Bool)) (L : List α),
    (cutRuns w gs (L.map ([·]))).map List.flatten = cutRuns w gs L
  | [], L => rfl
  | (group, members) :: gs, L => by
    have rest := cutRuns_singletons w gs (L.drop (members.map (spanOf w)).sum)
    cases group <;> simp [cutRuns, ← List.map_take, ← List.map_drop, rest, Function.comp_def, ← List.flatMap_def]

theorem cutRuns_of_singles {α : Type} (w : Nat) : ∀ (gs : List (Bool × List Bool)), (∀ g ∈ gs, g.1 = false) →
    ∀ L : List α, cutRuns w gs L = (L.take (runsLength w gs)).map ([·])
  | [], _, L => by simp [cutRuns, runsLength]
  | (group, members) :: gs, singles, L => by
    obtain rfl : group = false := singles _ List.mem_cons_self
    have rest := cutRuns_of_singles w gs (fun g mem => singles g (List.mem_cons_of_mem _ mem))
      (L.drop (members.map (spanOf w)).sum)
    have length : runsLength w ((false, members) :: gs) = (members.map (spanOf w)).sum + runsLength w gs := by
      simp [runsLength]
    simp only [cutRuns, Bool.false_eq_true, if_false, rest]
    rw [length, List.take_add, List.map_append]

namespace Assembly

variable (σ : Label → Int)

/-- A reduction stage that succeeds, on an array of labels `L` whose reduced axes, in the order the
stage sorts them, sit at the positions their indices resolve to, from the last to the first,
erases them: the dimensions lose them, and the steps it emits delete them from the labels and
record them with their operations. -/
theorem reduceAll_trace {a a' : Assembly} {rs S : List ReducedAxis} {L : List Label}
    (nodup : L.Nodup) (dims : a.dims = L.map σ)
    (sorted : rs.mergeSort (fun x y => decide (y.index.pos ≤ x.index.pos)) = S)
    (placed : ∀ r ∈ S, Label.axis r.name ∈ L ∧ r.index.resolve a.width = L.idxOf (.axis r.name))
    (desc : (S.map fun r => Label.axis r.name).Pairwise fun x y => L.idxOf y < L.idxOf x)
    (h : a.reduceAll rs = .ok a') :
    a' = { a with dims := (L.filter (· ∉ S.map fun r => Label.axis r.name)).map σ, steps := a'.steps } ∧
    ∃ steps, a'.steps = a.steps ++ steps ∧ (∀ s ∈ steps, s.kind = .reduce ∧ 0 ≤ s.axis) ∧
      ∀ split t, t.arrays = [cells σ L] →
      Trace.run split steps t =
        { t with arrays := [cells σ (L.filter (· ∉ S.map fun r => Label.axis r.name))]
                 reduced := t.reduced ++ S.map fun r => ([(.axis r.name, σ (.axis r.name))], r.op) } := by
  unfold reduceAll at h
  rw [sorted] at h
  refine foldlM_prefix (P := fun done b =>
      b = { a with dims := (L.filter (· ∉ done.map fun r => Label.axis r.name)).map σ, steps := b.steps } ∧
      ∃ steps, b.steps = a.steps ++ steps ∧ (∀ s ∈ steps, s.kind = .reduce ∧ 0 ≤ s.axis) ∧
        ∀ split t, t.arrays = [cells σ L] →
        Trace.run split steps t =
          { t with arrays := [cells σ (L.filter (· ∉ done.map fun r => Label.axis r.name))]
                   reduced := t.reduced ++ done.map fun r => ([(.axis r.name, σ (.axis r.name))], r.op) })
    S (fun done x rest b b' whole holds step => ?_) a a' ⟨?_, [], by simp, by simp, fun split t start => ?_⟩ h
  rotate_left
  · simp only [List.map_nil, List.not_mem_nil, not_false_eq_true, decide_true, List.filter_true]
    rw [← dims]
  · simp only [Trace.run, List.foldl_nil, List.map_nil, List.not_mem_nil, not_false_eq_true, decide_true,
      List.filter_true, List.append_nil]
    rw [← start]
  obtain ⟨same, steps, hsteps, kinds, trace⟩ := holds
  obtain ⟨-, step⟩ := Except.ite_throw_ok step
  dsimp only at step
  obtain ⟨erased, cut, step⟩ := Except.bind_eq_ok.1 step
  obtain ⟨-, rfl⟩ := deleteAt_eq_ok.1 cut
  rw [emit_ok _ step]
  -- the axis reduced now comes before every axis reduced so far
  obtain ⟨xMem, resolved⟩ := placed x (by simp [whole])
  have width : b.width = a.width := by rw [same]
  have later : ∀ t ∈ done.map fun r => Label.axis r.name, L.idxOf (.axis x.name) < L.idxOf t := by
    rw [whole, List.map_append, List.pairwise_append] at desc
    exact fun t mem => desc.2.2 t mem _ (by simp)
  have fresh : decide (Label.axis x.name ∉ done.map fun r => Label.axis r.name) = true := by
    simpa using fun mem => lt_irrefl _ (later _ mem)
  have before : ∀ y ∈ L, L.idxOf y < L.idxOf (.axis x.name) →
      decide (y ∉ done.map fun r => Label.axis r.name) = true := fun y _ lt => by
    simpa using fun mem => lt_asymm lt (later y mem)
  obtain ⟨-, erased⟩ := eraseIdx_filter nodup xMem fresh before
  have at_x := getElem?_filter_idxOf nodup xMem fresh before
  have remaining : (L.filter fun y => decide (y ∉ done.map fun r => Label.axis r.name) && y != .axis x.name) =
      L.filter (· ∉ (done ++ [x]).map fun r => Label.axis r.name) :=
    List.filter_congr fun y _ => by by_cases e : y = .axis x.name <;> simp [e]
  rw [width, resolved, Int.toNat_natCast]
  refine ⟨?_, steps ++ [_], by rw [hsteps, List.append_assoc], ?_, fun split t start => ?_⟩
  · rw [same]
    simp only [List.eraseIdx_map, erased, remaining]
  · exact fun s mem => (List.mem_append.1 mem).elim (kinds s) fun new => by
      rw [List.mem_singleton.1 new]
      exact ⟨rfl, Int.natCast_nonneg _⟩
  · rw [Trace.run_append, trace split t start]
    simp only [Trace.run, List.foldl_cons, List.foldl_nil, Trace.step, List.headD_cons, cells,
      List.eraseIdx_map, erased, remaining, Int.toNat_natCast, List.getD_eq_getElem?_getD, List.getElem?_map, at_x]
    simp

/-- A permutation stage that succeeds, on an array of labels `K` whose order lists the positions in
`K` of the labels `O`, puts the labels in the order of `O`: the dimensions follow, and the step
it emits, if any, reads the labels in that order. -/
theorem permute_trace {a a' : Assembly} {order : List Index} {K O : List Label} (dims : a.dims = K.map σ)
    (sub : ∀ x ∈ O, x ∈ K)
    (listed : (order.flatMap fun idx =>
      (List.range (a.span idx).toNat).map fun (k : Nat) => idx.resolve a.width + (k : Int)) =
        (O.map K.idxOf).map Int.ofNat)
    (h : a.permute order = .ok a') :
    O.length = K.length ∧ a' = { a with dims := O.map σ, steps := a'.steps } ∧
    ∃ steps, a'.steps = a.steps ++ steps ∧ (∀ s ∈ steps, s.kind = .permute) ∧
      ∀ split t, t.arrays = [cells σ K] →
      Trace.run split steps t = { t with arrays := [cells σ O] } := by
  obtain ⟨len, permuting, permutes, rfl⟩ := permute_ok a listed h
  have back : ∀ {β : Type} (f : Label → β) (d : β),
      ((O.map K.idxOf).map Int.ofNat).map (fun p => (K.map f).getD p.toNat d) = O.map f := fun f d => by
    rw [← map_getD_idxOf sub f d, List.map_map]
    exact List.map_congr_left fun i _ => by simp
  have lenO : O.length = K.length := by simpa [dims] using len
  refine ⟨lenO, by rw [dims, back], permuting, rfl, ?_, fun split t start => ?_⟩
  · rcases permutes with ⟨rfl, -⟩ | ⟨st, rfl, kind, -⟩ <;> simp [*]
  rcases permutes with ⟨rfl, identity⟩ | ⟨st, rfl, kind, perm⟩
  · have inOrder : O.map K.idxOf = List.range O.length := by
      have := congrArg (List.map Int.toNat) identity
      simpa [List.map_map, Function.comp_def] using this
    rw [eq_of_map_idxOf_range sub lenO inOrder, ← start]
    rfl
  · simp only [Trace.run, List.foldl_cons, List.foldl_nil, Trace.step, kind, perm, start, List.headD_cons,
      cells, back]

/-- Naming a new axis records its size, and changes no other size and nothing else. -/
theorem nameNew_keeps (a : Assembly) (b : NewAxis) :
    (if b.name ≠ "" then a.setSize b.name b.size else a) =
        { a with axisSizes := (if b.name ≠ "" then a.setSize b.name b.size else a).axisSizes } ∧
      ∀ y, (b.name ≠ "" → y ≠ b.name) → (if b.name ≠ "" then a.setSize b.name b.size else a).sizeOf y = a.sizeOf y := by
  constructor
  · split
    · unfold setSize
      split <;> rfl
    · rfl
  · intro y ne
    split
    · next nonempty => rw [sizeOf_setSize, if_neg (ne nonempty)]
    · rfl

/-- A stage of new axes that succeeds, on an array of the labels `F` but the fresh ones, inserts
fresh label `k` for new axis `k`, at the position its index resolves to, with its size: the
dimensions are those of `F`, only the names of the new axes change size, and the steps it emits
insert the fresh labels in order. -/
theorem repeatAll_trace {a a' : Assembly} {news : List NewAxis} {F : List Label} (nodup : F.Nodup)
    (dims : a.dims = (F.filter (· ∉ (List.range news.length).map Label.fresh)).map σ)
    (placed : ∀ k (hk : k < news.length), Label.fresh k ∈ F ∧
      news[k].index.resolve a.width = F.idxOf (.fresh k) ∧ news[k].size = σ (.fresh k))
    (inc : ∀ j k, j < k → k < news.length → F.idxOf (.fresh j) < F.idxOf (.fresh k))
    (h : a.repeatAll news = .ok a') :
    a' = { a with dims := F.map σ, steps := a'.steps, axisSizes := a'.axisSizes } ∧
    (∀ x, (∀ b ∈ news, b.name ≠ "" → b.name ≠ x) → a'.sizeOf x = a.sizeOf x) ∧
    ∃ steps, a'.steps = a.steps ++ steps ∧ (∀ s ∈ steps, s.kind = .repeat) ∧
      ∀ split t, t.arrays = [cells σ (F.filter (· ∉ (List.range news.length).map Label.fresh))] →
      t.inserted = [] →
      Trace.run split steps t =
        { t with arrays := [cells σ F]
                 inserted := ((List.range news.length).map Label.fresh).map fun l => (l, σ l) } := by
  let pending (j : Nat) : List Label := (List.range' j (news.length - j)).map Label.fresh
  have pending_zero : pending 0 = (List.range news.length).map Label.fresh := by simp [pending, List.range_eq_range']
  have pending_length : pending news.length = [] := by simp [pending]
  unfold repeatAll at h
  have run := foldlM_prefix (P := fun done b =>
      b = { a with dims := (F.filter (· ∉ pending done.length)).map σ, steps := b.steps, axisSizes := b.axisSizes } ∧
      (∀ x, (∀ n ∈ done, n.name ≠ "" → n.name ≠ x) → b.sizeOf x = a.sizeOf x) ∧
      ∃ steps, b.steps = a.steps ++ steps ∧ (∀ s ∈ steps, s.kind = .repeat) ∧
        ∀ split t, t.arrays = [cells σ (F.filter (· ∉ pending 0))] →
        t.inserted = [] →
        Trace.run split steps t =
          { t with arrays := [cells σ (F.filter (· ∉ pending done.length))]
                   inserted := ((List.range done.length).map Label.fresh).map fun l => (l, σ l) })
    news ?round a a' ⟨by rw [List.length_nil, pending_zero, ← dims], fun _ _ => rfl, [], by simp, by simp,
      fun split t start none => by
        simp only [Trace.run, List.foldl_nil, List.length_nil, List.range_zero, List.map_nil]
        rw [← start, ← none]⟩ h
  · obtain ⟨same, sizes, steps, appended, kinds, trace⟩ := run
    refine ⟨by simpa [pending_length] using same, sizes, steps, appended, kinds, fun split t start none => ?_⟩
    rw [trace split t (by rwa [pending_zero]) none, pending_length]
    simp
  case round =>
  intro done x rest b b' whole holds step
  obtain ⟨same, sizes, steps, appended, kinds, trace⟩ := holds
  have hj : done.length < news.length := by simp [whole]
  obtain ⟨mem, resolved, sized⟩ := placed done.length hj
  have xAt : news[done.length] = x := by simp [whole]
  rw [xAt] at resolved sized
  have width : b.width = a.width := by rw [same]
  obtain ⟨-, step⟩ := Except.ite_throw_ok step
  obtain ⟨inserted, put, step⟩ := Except.bind_eq_ok.1 step
  obtain ⟨-, rfl⟩ := insertAt_eq_ok.1 put
  obtain ⟨-, step⟩ := Except.ite_throw_ok step
  rw [emit_ok _ step]
  -- the label inserted now is the first one pending, and every label before it is in place
  have grown : (done ++ [x]).length = done.length + 1 := by simp
  have next : pending done.length = .fresh done.length :: pending (done.length + 1) := by
    simp only [pending]
    rw [show news.length - done.length = (news.length - (done.length + 1)) + 1 by omega, List.range'_succ]
    rfl
  have notNext : Label.fresh done.length ∉ pending (done.length + 1) := by simp [pending]
  have absent : decide (Label.fresh done.length ∉ pending done.length) = false := by simp [next]
  have before : ∀ y ∈ F, F.idxOf y < F.idxOf (.fresh done.length) → decide (y ∉ pending done.length) = true := by
    intro y _ lt
    simp only [pending, List.mem_map, List.mem_range', decide_eq_true_eq, not_exists, not_and]
    intro k ⟨_, _, _⟩ same
    subst same
    rcases Nat.lt_or_ge done.length k with less | atMost
    · exact lt_asymm lt (inc _ _ less (by omega))
    · rw [show k = done.length by omega] at lt
      exact lt_irrefl _ lt
  obtain ⟨-, inserted⟩ := insertIdx_filter nodup mem absent before
  have remaining : (F.filter fun y => decide (y ∉ pending done.length) || y == .fresh done.length) =
      F.filter (· ∉ pending (done.length + 1)) :=
    List.filter_congr fun y _ => by
      by_cases e : y = .fresh done.length
      · simp [e, notNext]
      · simp [e, next]
  obtain ⟨shape, kept⟩ := nameNew_keeps b x
  generalize (if x.name ≠ "" then b.setSize x.name x.size else b) = a₁ at shape kept
  have grownDims : (b.dims.insertIdx (x.index.resolve b.width).toNat x.size) =
      (F.filter (· ∉ pending (done.length + 1))).map σ := by
    rw [same, resolved, Int.toNat_natCast, sized]
    dsimp only
    rw [← List.map_insertIdx, inserted, remaining]
  rw [shape]
  dsimp only
  refine ⟨?_, fun y others => ?_, steps ++ [_], by rw [appended, List.append_assoc],
    fun s mem => (List.mem_append.1 mem).elim (kinds s) fun new => by rw [List.mem_singleton.1 new],
    fun split t start none => ?_⟩
  · rw [grown, grownDims, same]
  · have ne : x.name ≠ "" → y ≠ x.name := fun nonempty e => others x (by simp) nonempty e.symm
    have earlier : ∀ n ∈ done, n.name ≠ "" → n.name ≠ y := fun n mem => others n (by simp [mem])
    simp only [sizeOf] at kept sizes ⊢
    rw [kept y ne, sizes y earlier]
  · rw [Trace.run_append, trace split t start none, grown]
    simp only [Trace.run, List.foldl_cons, List.foldl_nil, Trace.step, List.headD_cons, cells]
    simp only [List.length_map, List.length_range, sized, width, resolved, Int.toNat_natCast]
    rw [← List.map_insertIdx (fun l => [(l, σ l)]), inserted, remaining, List.range_succ]
    simp

theorem map_range_take_one_drop {β : Type} {L : List β} {R n : Nat} (within : R + n ≤ L.length) :
    (List.range n).map (fun k => (L.drop (R + k)).take 1) = ((L.drop R).take n).map ([·]) := by
  refine List.ext_getElem (by simp; omega) fun k h₁ _ => ?_
  have lt : R + k < L.length := by simp at h₁; omega
  simp only [List.getElem_map, List.getElem_range, List.getElem_take, List.getElem_drop]
  rw [List.drop_eq_getElem_cons lt, List.take_succ_cons, List.take_zero]

/-- Once the ellipsis matches `w` axes, the merge groups of the slots cut any list as long as the
axes they cover into the runs `cutRuns` says. -/
theorem mergeGroups_cuts (a : Assembly) {w : Nat} (width : a.width = w) (ss : List Slot) {β : Type} (L : List β)
    (within : runsLength w (ss.map Slot.shape) ≤ L.length) :
    (a.mergeGroups ss).1.map (fun g => (L.drop g.1.toNat).take (g.2.toNat - g.1.toNat)) =
      cutRuns w (ss.map Slot.shape) L := by
  induction ss using List.reverseRecOn with
  | nil => rfl
  | append_singleton ss s ih =>
    have stop := (mergeGroups_runs a width ss).1
    cases s with
    | single idx q =>
      rw [mergeGroups_snoc_single, span_eq a width, stop]
      have before : runsLength w (ss.map Slot.shape) + spanOf w (decide (idx.kind = .range)) ≤ L.length := by
        simpa [runsLength_append, Slot.shape] using within
      rw [List.map_append, ih (by omega), List.map_map, List.map_append, List.map_singleton, cutRuns_append]
      congr 1
      have alone : cutRuns w [Slot.shape (.single idx q)] (L.drop (runsLength w (ss.map Slot.shape))) =
          ((L.drop (runsLength w (ss.map Slot.shape))).take (spanOf w (decide (idx.kind = .range)))).map ([·]) := by
        simp [cutRuns, Slot.shape]
      rw [alone, ← map_range_take_one_drop before, Int.toNat_natCast]
      refine List.map_congr_left fun k _ => ?_
      have start : ((runsLength w (ss.map Slot.shape) : Int) + k).toNat = runsLength w (ss.map Slot.shape) + k := by
        omega
      have next : ((runsLength w (ss.map Slot.shape) : Int) + k + 1).toNat - (runsLength w (ss.map Slot.shape) + k) = 1 := by
        omega
      simp only [Function.comp_apply, start, next]
    | group ms q =>
      have total : (ms.map a.span).foldl (· + ·) 0 =
          (((ms.map fun idx => decide (idx.kind = .range)).map (spanOf w)).sum : Int) := by
        rw [← List.sum_eq_foldl, Nat.cast_list_sum, List.map_map, List.map_map]
        exact congrArg List.sum (List.map_congr_left fun idx _ => span_eq a width idx)
      set n := ((ms.map fun idx => decide (idx.kind = .range)).map (spanOf w)).sum
      rw [mergeGroups_snoc_group, stop, total]
      have before : runsLength w (ss.map Slot.shape) + n ≤ L.length := by
        simpa [runsLength_append, Slot.shape, n] using within
      rw [List.map_append, ih (by omega), List.map_singleton, List.map_append, List.map_singleton, cutRuns_append]
      have start : ((runsLength w (ss.map Slot.shape) : Int)).toNat = runsLength w (ss.map Slot.shape) := by
        omega
      have count : ((runsLength w (ss.map Slot.shape) : Int) + n).toNat - runsLength w (ss.map Slot.shape) = n := by
        omega
      simp only [start, count]
      simp [cutRuns, Slot.shape, n]

/-- A merge stage that succeeds, once the ellipsis matches `w` axes and the slots cover the labels
`F`, keeps the sizes, and the step it emits, if any, cuts the labels into the runs of the
slots. -/
theorem merge_trace {a a' : Assembly} {w : Nat} (width : a.width = w) {ss : List Slot} {F : List Label}
    (cover : runsLength w (ss.map Slot.shape) = F.length) (h : a.merge ss = .ok a') :
    a'.axisSizes = a.axisSizes ∧ a'.ellipsisDims = a.ellipsisDims ∧
    ∃ steps, a'.steps = a.steps ++ steps ∧ (∀ s ∈ steps, s.kind = .reshapeMerge) ∧
      ∀ split t, t.arrays = [cells σ F] →
      Trace.run split steps t = { t with arrays := [cutRuns w (ss.map Slot.shape) (F.map fun l => (l, σ l))] } := by
  have singletons : cells σ F = (F.map fun l => (l, σ l)).map ([·]) := by simp [cells]
  unfold Assembly.merge at h
  split at h
  · next singles =>
    cases h
    have none : ∀ g ∈ ss.map Slot.shape, g.1 = false := by
      intro g mem
      obtain ⟨slot, inSs, rfl⟩ := List.mem_map.1 mem
      have notGroup := List.any_eq_false.1 (by simpa using singles) slot inSs
      cases slot <;> simp_all [Slot.shape]
    refine ⟨rfl, rfl, [], by simp, by simp, fun split t start => ?_⟩
    rw [cutRuns_of_singles w _ none, cover, ← List.length_map (fun l => (l, σ l)), List.take_length,
      ← singletons, ← start]
    rfl
  · rcases groups : a.mergeGroups ss with ⟨gs, stop⟩
    have cuts := mergeGroups_cuts a width ss (cells σ F) (by simp [cells, cover])
    rw [groups] at h cuts
    obtain ⟨-, h⟩ := Except.ite_throw_ok h
    obtain ⟨dims, -, h⟩ := Except.bind_eq_ok.1 h
    rw [emit_ok _ h]
    refine ⟨rfl, rfl, _, rfl, by simp, fun split t start => ?_⟩
    simp only [Trace.run, List.foldl_cons, List.foldl_nil, Trace.step, start, List.headD_cons]
    have flat : (gs.map fun g => (((cells σ F).drop g.1.toNat).take (g.2.toNat - g.1.toNat)).flatten) =
        (cutRuns w (ss.map Slot.shape) (cells σ F)).map List.flatten := by
      rw [← cuts, List.map_map]
      rfl
    rw [flat, singletons, cutRuns_singletons]

end Assembly

end Rearrange.Plan

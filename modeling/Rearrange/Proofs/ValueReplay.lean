import Rearrange.Proofs.LabelledValues
/-!
# A plan's steps followed on values

Before the join, each input with groups is split: an array whose axes are runs of the input's
labels becomes one with one label per axis, denoting the same function (`runSteps_splits`).

After the join a plan works on one array. Follow it by the trace of its steps on labels (`Trace`):
the array denotes the joined function reduced along the runs the trace records as reduced, with
the trace's labels as its axes, all distinct (`Follows`). One step keeps this (`Follows.step`).
A reduction at an axis counted from 0 deletes the axis's run and reduces the function along it
(`Denotes.reduce`). A permutation and a repeat move the runs as the trace does and keep the
function. A merge regroups the runs, which its groups cover in order (`flatten_slices`). So a run
of such steps keeps it too (`runSteps_follows`).
-/
namespace Rearrange

namespace Plan

open Pattern

/-- What a step on one array does to it: the operation of its kind, with the step's fields. -/
theorem applyStep_oneArray {s : Step} {x z : Tensor} (oneArray : s.OnOneArray)
    (done : applyStep Tensor.backend s [x] = .ok [z]) :
    (s.kind = .reduce ∧ x.reduce s.axis s.op = .ok z) ∨ (s.kind = .permute ∧ x.transpose s.permutation = .ok z) ∨
      (s.kind = .repeat ∧ x.repeat s.axis s.count = .ok z) ∨ (s.kind = .reshapeMerge ∧ x.reshape s.dims = .ok z) := by
  cases kind : s.kind <;> simp only [Step.OnOneArray, kind] at oneArray <;> simp only [applyStep, kind] at done
  case reduce =>
    refine .inl ⟨rfl, ?_⟩
    cases h : x.reduce s.axis s.op with
    | error f => simp [h, operandAt, Tensor.backend, bind, Except.bind] at done
    | ok r =>
      simp [h, operandAt, Tensor.backend, bind, Except.bind, pure, Except.pure] at done
      rw [done]
  case permute =>
    refine .inr (.inl ⟨rfl, ?_⟩)
    cases h : x.transpose s.permutation with
    | error f => simp [h, operandAt, Tensor.backend, bind, Except.bind] at done
    | ok r =>
      simp [h, operandAt, Tensor.backend, bind, Except.bind, pure, Except.pure] at done
      rw [done]
  case «repeat» =>
    refine .inr (.inr (.inl ⟨rfl, ?_⟩))
    cases h : x.repeat s.axis s.count with
    | error f => simp [h, operandAt, Tensor.backend, bind, Except.bind] at done
    | ok r =>
      simp [h, operandAt, Tensor.backend, bind, Except.bind, pure, Except.pure] at done
      rw [done]
  case reshapeMerge =>
    refine .inr (.inr (.inr ⟨rfl, ?_⟩))
    cases h : x.reshape s.dims with
    | error f => simp [h, operandAt, Tensor.backend, bind, Except.bind] at done
    | ok r =>
      simp [h, operandAt, Tensor.backend, bind, Except.bind, pure, Except.pure] at done
      rw [done]

/-- Groups covering the axes from `start` in order cut them into slices that, one after the
other, are those axes. -/
theorem flatten_slices {α : Type} (L : List α) : ∀ (gs : List (Int × Int)) (start : Int), 0 ≤ start →
    Shape.CoversFrom L.length start gs →
    (gs.map fun g => (L.drop g.1.toNat).take (g.2.toNat - g.1.toNat)).flatten = L.drop start.toNat
  | [], start, _, covers => by
    simp only [Shape.CoversFrom] at covers
    simp [covers]
  | (a, b) :: rest, start, nonneg, covers => by
    obtain ⟨rfl, ordered, within, covers⟩ := covers
    have split : L.drop a.toNat = (L.drop a.toNat).take (b.toNat - a.toNat) ++ L.drop b.toNat := by
      have later : L.drop b.toNat = (L.drop a.toNat).drop (b.toNat - a.toNat) := by
        rw [List.drop_drop]
        congr 1
        omega
      rw [later, List.take_append_drop]
    rw [List.map_cons, List.flatten_cons, flatten_slices L rest b (by omega) covers, ← split]

/-- The reductions a trace records, applied to `M` in order, each along its run with its
operation. -/
def reduceLog (dt : DType) (log : List (List (Label × Int) × Reduction)) (M : (Label → Nat) → Float) :
    (Label → Nat) → Float :=
  log.foldl (fun M r => reduceOver dt r.1 r.2 M) M

/-- After the join, the array a plan's steps have made follows their trace on labels: it denotes
the joined function `M` reduced along the runs the trace records as reduced, with the trace's
labels as its axes. Its labels are distinct, each fresh one was inserted before, and its element
type is `dt`. -/
structure Follows (dt : DType) (M : (Label → Nat) → Float) (x : Tensor) (t : Trace) : Prop where
  denotes : Denotes x (t.arrays.headD []) (reduceLog dt t.reduced M)
  nodup : ((t.arrays.headD []).flatten.map Prod.fst).Nodup
  fresh : ∀ k, Label.fresh k ∈ (t.arrays.headD []).flatten.map Prod.fst → k < t.inserted.length
  typed : x.shape.dtype = dt

section Follow

variable {dt : DType} {M : (Label → Nat) → Float} {x z : Tensor} {t : Trace}

theorem labels_of_perm {A B : List (List (Label × Int))} (perm : List.Perm B.flatten A.flatten)
    (nodup : (A.flatten.map Prod.fst).Nodup) (fresh : ∀ k, Label.fresh k ∈ A.flatten.map Prod.fst → k < t.inserted.length) :
    (B.flatten.map Prod.fst).Nodup ∧ ∀ k, Label.fresh k ∈ B.flatten.map Prod.fst → k < t.inserted.length :=
  ⟨(perm.map Prod.fst).nodup_iff.2 nodup, fun k mem => fresh k ((perm.map Prod.fst).subset mem)⟩

/-- Inserting a run of one new label keeps the labels distinct, and adds only that label. -/
theorem labels_of_insertIdx {A : List (List (Label × Int))} {q : Label × Int} (i : Nat)
    (new : q.1 ∉ A.flatten.map Prod.fst) (nodup : (A.flatten.map Prod.fst).Nodup) :
    ((A.insertIdx i [q]).flatten.map Prod.fst).Nodup ∧
      ∀ m ∈ (A.insertIdx i [q]).flatten.map Prod.fst, m = q.1 ∨ m ∈ A.flatten.map Prod.fst := by
  refine ⟨?_, fun m mem => ?_⟩
  · by_cases inside : i ≤ A.length
    · have moved := ((List.perm_insertIdx [q] A inside).flatten).map Prod.fst
      refine moved.nodup_iff.2 ?_
      rw [List.flatten_cons, List.singleton_append, List.map_cons, List.nodup_cons]
      exact ⟨new, nodup⟩
    · rw [List.insertIdx_of_length_lt (by omega)]
      exact nodup
  · obtain ⟨r, rMem, rfl⟩ := List.mem_map.1 mem
    obtain ⟨run, runMem, inRun⟩ := List.mem_flatten.1 rMem
    rcases List.eq_or_mem_of_mem_insertIdx runMem with rfl | old
    · exact .inl (by rw [List.mem_singleton.1 inRun])
    · exact .inr (List.mem_map_of_mem (List.mem_flatten.2 ⟨run, old, inRun⟩))

/-- A reduction at an axis counted from 0 keeps the array following the trace: the axis's run is
deleted and recorded as reduced. -/
theorem Follows.reduce (follows : Follows dt M x t) {s : Step} (kind : s.kind = .reduce) (nonneg : 0 ≤ s.axis)
    (done : x.reduce s.axis s.op = .ok z) (split : Nat → List Label) : Follows dt M z (Trace.step split t s) := by
  have atAxis : x.reduce (s.axis.toNat : Int) s.op = .ok z := by rwa [Int.toNat_of_nonneg nonneg]
  obtain ⟨_, -, shape, -⟩ := reduce_get follows.denotes.sound done
  have den := follows.denotes.reduce follows.nodup atAxis
  rw [follows.typed] at den
  have kept : List.Sublist (((t.arrays.headD []).eraseIdx s.axis.toNat).flatten.map Prod.fst)
      ((t.arrays.headD []).flatten.map Prod.fst) :=
    ((List.eraseIdx_sublist _ _).flatten).map Prod.fst
  have traced : Trace.step split t s = { t with arrays := [(t.arrays.headD []).eraseIdx s.axis.toNat],
                                                reduced := t.reduced ++ [((t.arrays.headD []).getD s.axis.toNat [], s.op)] } := by
    unfold Trace.step
    rw [kind]
  rw [traced]
  refine ⟨?_, kept.nodup follows.nodup, fun k mem => follows.fresh k (kept.subset mem), by rw [shape, follows.typed]⟩
  simpa only [reduceLog, List.foldl_append, List.foldl_cons, List.foldl_nil, List.headD_cons] using den

/-- A permutation keeps the array following the trace: the runs are read in its order. -/
theorem Follows.transpose (follows : Follows dt M x t) {s : Step} (kind : s.kind = .permute)
    (done : x.transpose s.permutation = .ok z) (split : Nat → List Label) : Follows dt M z (Trace.step split t s) := by
  obtain ⟨shape, -⟩ := transpose_get follows.denotes.sound done
  have rank : x.shape.rank = (t.arrays.headD []).length := by
    rw [Shape.rank, follows.denotes.dims, List.length_map]
  obtain ⟨nodup, fresh⟩ := labels_of_perm (perm_of_transpose done rank []).flatten follows.nodup follows.fresh
  have traced : Trace.step split t s =
      { t with arrays := [s.permutation.map fun a => (t.arrays.headD []).getD a.toNat []] } := by
    unfold Trace.step
    rw [kind]
  rw [traced]
  exact ⟨follows.denotes.transpose done, nodup, fresh, by rw [shape, follows.typed]⟩

/-- A repeat keeps the array following the trace: a fresh label, numbered by the inserts so far,
is inserted as a run of its own. -/
theorem Follows.repeat (follows : Follows dt M x t) {s : Step} (kind : s.kind = .repeat)
    (done : x.repeat s.axis s.count = .ok z) (zSound : z.Sound) (split : Nat → List Label) :
    Follows dt M z (Trace.step split t s) := by
  obtain ⟨shape, -⟩ := repeat_get follows.denotes.sound done zSound
  obtain ⟨A, hA⟩ : ∃ A, t.arrays.headD [] = A := ⟨_, rfl⟩
  -- the new label is none of the old ones, so the labels stay distinct
  have newLabel : Label.fresh t.inserted.length ∉ A.flatten.map Prod.fst :=
    fun mem => lt_irrefl _ (follows.fresh _ (hA ▸ mem))
  obtain ⟨nodup, labels⟩ := labels_of_insertIdx (q := (.fresh t.inserted.length, s.count)) s.axis.toNat newLabel
    (hA ▸ follows.nodup)
  have traced : Trace.step split t s =
      { t with arrays := [A.insertIdx s.axis.toNat [(.fresh t.inserted.length, s.count)]],
               inserted := t.inserted ++ [(.fresh t.inserted.length, s.count)] } := by
    unfold Trace.step
    rw [kind, hA]
  rw [traced]
  refine ⟨hA ▸ follows.denotes.repeat done zSound _, nodup, fun k mem => ?_,
    by rw [shape, Shape.withDims, follows.typed]⟩
  rw [List.length_append, List.length_singleton]
  rcases labels _ mem with same | old
  · rw [Label.fresh.inj same]
    omega
  · have := follows.fresh k (hA ▸ old)
    omega

/-- A merge whose groups cover the axes in order, into the dimensions its shape rule gives, keeps
the array following the trace: each group's runs become one. -/
theorem Follows.merge (follows : Follows dt M x t) {s : Step} (kind : s.kind = .reshapeMerge)
    {r : Shape} (merged : Shape.merge x.shape s.groups = .ok r) (dims : s.dims = r.dims)
    (done : x.reshape s.dims = .ok z) (zSound : z.Sound) (split : Nat → List Label) :
    Follows dt M z (Trace.step split t s) := by
  obtain ⟨A, hA⟩ : ∃ A, t.arrays.headD [] = A := ⟨_, rfl⟩
  have den : Denotes x A (reduceLog dt t.reduced M) := hA ▸ follows.denotes
  obtain ⟨rfl, -, -⟩ := Tensor.reshape_ok done
  have covers : Shape.CoversFrom A.length 0 s.groups := by
    have rank : x.shape.rank = A.length := by rw [Shape.rank, den.dims, List.length_map]
    exact rank ▸ (Shape.merge_ok_iff x.shape s.groups).1 ⟨r, merged⟩
  have same : (s.groups.map fun g => ((A.drop g.1.toNat).take (g.2.toNat - g.1.toNat)).flatten).flatten = A.flatten := by
    have slices := flatten_slices A s.groups 0 le_rfl covers
    rw [Int.toNat_zero, List.drop_zero] at slices
    have regroup : (s.groups.map fun g => ((A.drop g.1.toNat).take (g.2.toNat - g.1.toNat)).flatten) =
        (s.groups.map fun g => (A.drop g.1.toNat).take (g.2.toNat - g.1.toNat)).map List.flatten := by
      rw [List.map_map]
      rfl
    rw [regroup, ← List.flatten_flatten, slices]
  have fits : x.shape.dims.prod ≤ Word.maxInt64 := by
    rw [← positionCount_of_pos den.sound.pos, den.sound.count]
    exact den.sound.fits
  obtain ⟨-, counts, -, -⟩ := Shape.merge_counts den.sound.pos fits merged
  have zDims : s.dims = (s.groups.map fun g => ((A.drop g.1.toNat).take (g.2.toNat - g.1.toNat)).flatten).map runSize := by
    rw [dims, counts, List.map_map]
    refine List.map_congr_left fun g _ => ?_
    simp only [Function.comp_apply, Shape.slice, den.dims, ← List.map_drop, ← List.map_take, runSize_flatten]
  have traced : Trace.step split t s =
      { t with arrays := [s.groups.map fun g => ((A.drop g.1.toNat).take (g.2.toNat - g.1.toNat)).flatten] } := by
    unfold Trace.step
    rw [kind, hA]
  rw [traced]
  obtain ⟨nodup, fresh⟩ := labels_of_perm (List.Perm.of_eq same) (hA ▸ follows.nodup) (hA ▸ follows.fresh)
  exact ⟨den.reshape zSound rfl zDims same, nodup, fresh, follows.typed⟩

/-- One step on the one array keeps it following the trace, when the step replays from the
array's shape and the array it makes is sound. -/
theorem Follows.step (follows : Follows dt M x t) {s : Step} (oneArray : s.OnOneArray) {current : Shape}
    (held : x.Holds current) (replays : inferStep s [current] = .ok s.output) (compiled : s.Compiled)
    (done : applyStep Tensor.backend s [x] = .ok [z]) (zSound : z.Sound) (split : Nat → List Label) :
    Follows dt M z (Trace.step split t s) := by
  rcases applyStep_oneArray oneArray done with ⟨kind, reduced⟩ | ⟨kind, permuted⟩ | ⟨kind, repeated⟩ | ⟨kind, merged⟩
  · have nonneg : 0 ≤ s.axis := by simpa [Step.OnOneArray, kind] using oneArray
    exact follows.reduce kind nonneg reduced split
  · exact follows.transpose kind permuted split
  · exact follows.repeat kind repeated zSound split
  · simp only [inferStep, kind, List.headD_cons] at replays
    rw [← held.shape] at replays
    exact follows.merge kind replays (compiled.merge_dims kind).1 merged zSound split

end Follow

theorem recordedAfter_valid : ∀ (steps : List Step) (current : List Shape), current ≠ [] →
    (∀ t ∈ current, t.ok = true) → Replays current steps → ∀ t ∈ recordedAfter current steps, t.ok = true
  | [], _, _, valid, _ => valid
  | s :: rest, current, nonempty, valid, ⟨first, later⟩ =>
    recordedAfter_valid rest (s.recorded current) (s.recorded_ne_nil nonempty)
      (Hlo.Program.recorded_valid nonempty valid first) later

/-- Steps on the one array, each replaying from the shape before it and making an array that fits
a block, run from an array holding the first shape and following a trace, and leave one array of
the last shape recorded, following the trace of all the steps. -/
theorem runSteps_follows {dt : DType} {M : (Label → Nat) → Float} (split : Nat → List Label) (pattern : String) :
    ∀ (steps : List Step) (i : Nat) (x : Tensor) (current : Shape) (t : Trace),
    (∀ s ∈ steps, s.OnOneArray ∧ s.Compiled ∧ (Tensor.positionCount s.output.dims : Int) ≤ Tensor.blockLimit) →
    Replays [current] steps → current.ok = true → x.Holds current → Follows dt M x t →
    ∃ y, runSteps Tensor.backend pattern i steps [x] = .ok [y] ∧ recordedAfter [current] steps = [y.shape] ∧
      Follows dt M y (Trace.run split steps t)
  | [], i, x, current, t, _, _, _, held, follows => ⟨x, rfl, by rw [recordedAfter_nil, held.shape], follows⟩
  | s :: rest, i, x, current, t, each, ⟨replays, later⟩, valid, held, follows => by
    obtain ⟨oneArray, compiled, small⟩ := each s List.mem_cons_self
    have notSplit : s.kind ≠ .reshapeSplit := fun kind => by simp [Step.OnOneArray, kind] at oneArray
    have recorded : s.recorded [current] = [s.output] := by simp [Step.recorded, notSplit]
    obtain ⟨zs, stepped, heldZ⟩ := applyStep_recorded (.cons held .nil) (by simp)
      (by simpa using valid) replays compiled small
    rw [recorded] at heldZ
    obtain ⟨z, zHeld, rfl⟩ : ∃ z, z.Holds s.output ∧ zs = [z] := by
      cases heldZ with
      | cons h rest =>
        cases rest
        exact ⟨_, h, rfl⟩
    have outputValid : s.output.ok = true := by
      simpa [recorded] using Hlo.Program.recorded_valid (by simp) (by simpa using valid) replays
    obtain ⟨y, ran, shapes, followsY⟩ := runSteps_follows split pattern rest (i + 1) z s.output
      (Trace.step split t s) (fun s' mem => each s' (List.mem_cons_of_mem _ mem)) (recorded ▸ later)
      outputValid zHeld (follows.step oneArray held replays compiled stepped zHeld.sound split)
    refine ⟨y, ?_, by rw [recordedAfter_cons, recorded, shapes], followsY⟩
    simp only [runSteps, stepped]
    exact ran

section Splits

variable (shape : Nat → Shape) (lay : Decomposition × Nat → List (Label × Int))
  (before : Decomposition × Nat → List (List (Label × Int))) (meaning : Decomposition × Nat → (Label → Nat) → Float)

/-- The split steps of the inputs `ds`, numbered after the arrays `P` before them, run from
those arrays followed by arrays denoting the inputs' functions over runs of their labels. Each
input with groups is reshaped into one axis per label; one without groups has one already. The
arrays after `P` then denote the same functions, one label per axis. -/
theorem runSteps_splits (pattern : String) : ∀ (ds : List Decomposition) (i : Nat) (P xs : List Tensor),
    (∀ q ∈ ds.zipIdx P.length, (before q).flatten = lay q) →
    (∀ q ∈ ds.zipIdx P.length, q.1.hasGroups = false → before q = (lay q).map ([·])) →
    List.Forall₂ (fun x q => Denotes x (before q) (meaning q)) xs (ds.zipIdx P.length) →
    (∀ x ∈ xs, x.shape.ok = true) →
    ∃ zs, runSteps Tensor.backend pattern i ((ds.zipIdx P.length).flatMap fun q =>
        if q.1.hasGroups then [Assembly.splitStep q.2 (shape q.2) ((lay q).map Prod.snd)] else []) (P ++ xs) =
        .ok (P ++ zs) ∧
      List.Forall₂ (fun z q => Denotes z ((lay q).map ([·])) (meaning q)) zs (ds.zipIdx P.length)
  | [], i, P, xs, _, _, den, _ => by
    cases den
    exact ⟨[], rfl, .nil⟩
  | d :: ds, i, P, xs, same, single, den, valid => by
    rw [List.zipIdx_cons] at den same single ⊢
    obtain ⟨x, xs, rfl⟩ : ∃ x xs', xs = x :: xs' := by
      cases den with
      | cons _ _ => exact ⟨_, _, rfl⟩
    obtain ⟨head, rest⟩ := List.forall₂_cons.1 den
    have restValid : ∀ x' ∈ xs, x'.shape.ok = true := fun x' mem => valid x' (List.mem_cons_of_mem _ mem)
    have restSame : ∀ q ∈ ds.zipIdx (P ++ [x]).length, (before q).flatten = lay q := fun q mem =>
      same q (List.mem_cons_of_mem _ (by simpa using mem))
    have restSingle : ∀ q ∈ ds.zipIdx (P ++ [x]).length, q.1.hasGroups = false → before q = (lay q).map ([·]) :=
      fun q mem => single q (List.mem_cons_of_mem _ (by simpa using mem))
    rw [List.flatMap_cons, runSteps_append]
    by_cases groups : d.hasGroups
    · have cells : ((lay (d, P.length)).map ([·])).flatten = (before (d, P.length)).flatten := by
        rw [same _ List.mem_cons_self, ← List.flatMap_def, List.flatMap_singleton']
      obtain ⟨z, reshaped, denZ⟩ := head.reshape_ok (valid x List.mem_cons_self) cells
      have dims : ((lay (d, P.length)).map ([·])).map runSize = (lay (d, P.length)).map Prod.snd := by
        simp [List.map_map, Function.comp_def]
      rw [dims] at reshaped
      obtain ⟨zs, ran, denZs⟩ := runSteps_splits pattern ds (i + 1) (P ++ [z]) xs
        (by simpa using restSame) (by simpa using restSingle) (by simpa using rest) restValid
      refine ⟨z :: zs, ?_, .cons denZ (by simpa using denZs)⟩
      have stepped : applyStep Tensor.backend (Assembly.splitStep P.length (shape P.length)
          ((lay (d, P.length)).map Prod.snd)) (P ++ x :: xs) = .ok (P ++ z :: xs) := by
        have at_P : operandAt (P ++ x :: xs) (P.length : Int) = .ok x := by
          simp [operandAt]
        simp [applyStep, Assembly.splitStep, at_P, Tensor.backend, reshaped, bind, Except.bind, pure, Except.pure,
          List.set_append_right]
      simp only [groups, if_true, runSteps, stepped, Except.bind]
      simpa using ran
    · have denX : Denotes x ((lay (d, P.length)).map ([·])) (meaning (d, P.length)) := by
        rw [← single _ List.mem_cons_self (by simpa using groups)]
        exact head
      obtain ⟨zs, ran, denZs⟩ := runSteps_splits pattern ds i (P ++ [x]) xs restSame restSingle
        (by simpa using rest) restValid
      refine ⟨x :: zs, ?_, .cons denX (by simpa using denZs)⟩
      simp only [groups, Bool.false_eq_true, if_false, runSteps, Except.bind, List.length_nil, Nat.add_zero]
      simpa using ran

end Splits

end Plan

end Rearrange

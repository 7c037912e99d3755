import Rearrange.Proofs.LabelReplay
import Rearrange.Proofs.Replay
import Rearrange.Proofs.Counts
/-!
# When each stage of the layout succeeds

A plan is laid out in stages (`Plan.assemble`), and each stage either goes on or fails with an
ordinary error: a classified error of the inputs, never an abort and never the report of an
inconsistent plan. This module says exactly when each one goes on (`Yields`):

* the element types, when all inputs are valid and of the first input's type (`checkDTypes_yields`);
* the split of the inputs, when each fits its shape (`splitAll_yields`);
* the sizes written on the output side, when they are the sizes found (`checkOutputSizes_yields`);
* the reductions, unless the inputs are booleans and one of them needs arithmetic
  (`reduceAll_yields`);
* the new axes, when the output they make has at most as many positions as a signed word counts
  (`repeatAll_yields`).

The join, the permutation and the merge always go on once the dimensions are positive, the
permutation lists every axis and the merge's groups cover them.

The loops are walked with the place of each round in the list (`Yields.forIn_rounds`,
`Yields.foldlM_rounds`): a round may rely on what it knows of the rounds before it.
-/
namespace Rearrange

namespace Yields

variable {β γ : Type}

/-- A loop over `xs` whose round at each place of `xs` yields under the condition of its
element, keeping an invariant of the elements done: the loop needs the condition of every
element. -/
theorem forIn_rounds (xs : List γ) (cond : γ → Prop) (inv : List γ → β → Prop)
    (body : γ → β → Except Failure (ForInStep β))
    (round : ∀ pre g rest b, xs = pre ++ g :: rest → inv pre b →
      Yields (cond g) (fun r => ∃ b', r = .yield b' ∧ inv (pre ++ [g]) b') (body g b))
    (b : β) (start : inv [] b) : Yields (∀ g ∈ xs, cond g) (inv xs) (ForIn.forIn xs b body) := by
  suffices loop : ∀ rest done b, xs = done ++ rest → inv done b →
      Yields (∀ g ∈ rest, cond g) (inv xs) (ForIn.forIn rest b body) from loop xs [] b rfl start
  intro rest
  induction rest with
  | nil =>
    intro done b whole hb
    rw [List.forIn_nil]
    exact (Yields.pure (by simpa [whole] using hb)).congr (by simp)
  | cons g rest ih =>
    intro done b whole hb
    rw [List.forIn_cons]
    have next : ∀ r : ForInStep β, (∃ b', r = .yield b' ∧ inv (done ++ [g]) b') →
        Yields (∀ g ∈ rest, cond g) (inv xs)
          (match r with
            | .done b => Pure.pure b
            | .yield b => ForIn.forIn rest b body) := by
      rintro r ⟨b', rfl, hb'⟩
      exact ih (done ++ [g]) b' (by simp [whole]) hb'
    exact (Yields.bind (round done g rest b whole hb) fun _ => next).congr (by simp)

/-- A fold over `xs` whose round at each place of `xs` yields under a condition on the elements
before it and its own, keeping an invariant of the elements done: the fold needs the condition
of every round. -/
theorem foldlM_rounds (xs : List γ) (cond : List γ → γ → Prop) (inv : List γ → β → Prop)
    (f : β → γ → Except Failure β)
    (round : ∀ pre g rest b, xs = pre ++ g :: rest → inv pre b → Yields (cond pre g) (inv (pre ++ [g])) (f b g))
    (b : β) (start : inv [] b) :
    Yields (∀ pre g rest, xs = pre ++ g :: rest → cond pre g) (inv xs) (xs.foldlM f b) := by
  suffices loop : ∀ rest done b, xs = done ++ rest → inv done b →
      Yields (∀ pre g r, rest = pre ++ g :: r → cond (done ++ pre) g) (inv xs) (rest.foldlM f b) from
    (loop xs [] b rfl start).congr (by simp)
  intro rest
  induction rest with
  | nil =>
    intro done b whole hb
    rw [List.foldlM_nil]
    exact (Yields.pure (by simpa [whole] using hb)).congr (by simp)
  | cons g rest ih =>
    intro done b whole hb
    rw [List.foldlM_cons]
    refine (Yields.bind (round done g rest b whole hb) fun _ b' hb' =>
      ih (done ++ [g]) b' (by simp [whole]) hb').congr ⟨?_, ?_⟩
    · rintro ⟨first, later⟩ pre g' r split
      rcases pre with _ | ⟨p, pre⟩
      · obtain ⟨rfl, -⟩ := List.cons.inj split
        simpa using first
      · rw [List.cons_append] at split
        obtain ⟨rfl, tail⟩ := List.cons.inj split
        simpa using later pre g' r tail
    · intro all
      exact ⟨by simpa using all [] g rest rfl,
        fun pre g' r split => by simpa using all (g :: pre) g' r (by rw [split]; rfl)⟩

theorem withOk {α : Type} {c : Prop} {post : α → Prop} {x : Except Failure α} (h : Yields c post x) :
    Yields c (fun r => x = .ok r ∧ post r) x :=
  ⟨fun hc => (h.ok hc).imp fun _ ⟨eq, hr⟩ => ⟨eq, eq, hr⟩, h.fail⟩

end Yields

namespace Plan

open Pattern

theorem zipIdx_split {α : Type} {xs : List α} {pre rest : List (α × Nat)} {g : α × Nat}
    (whole : xs.zipIdx = pre ++ g :: rest) : ∃ k, ∃ h : k < xs.length, pre.length = k ∧ g = (xs[k], k) := by
  have at_g : xs.zipIdx[pre.length]? = some g := by rw [whole]; simp
  rw [List.getElem?_zipIdx] at at_g
  obtain ⟨x, at_x, rfl⟩ := Option.map_eq_some_iff.1 at_g
  obtain ⟨h, rfl⟩ := List.getElem?_eq_some_iff.1 at_x
  exact ⟨pre.length, h, rfl, by simp⟩

/-- Checking the element types goes on exactly when every input is valid and of the first
input's type, which it returns. -/
theorem checkDTypes_yields (pattern : String) (inputs : List Shape) :
    Yields (∀ s ∈ inputs, s.ok ∧ s.dtype = (inputs.headD Shape.invalid).dtype)
      (· = (inputs.headD Shape.invalid).dtype) (checkDTypes pattern inputs) := by
  set first := inputs.headD Shape.invalid
  have ordinary : ∀ msg, (Failure.tagged { kind := .dtypeMismatch, pattern, pos := -1, msg }).Ordinary :=
    fun msg => ⟨rfl, by simp [Failure.kind?]⟩
  unfold checkDTypes
  dsimp only
  refine ((Yields.forIn_rounds inputs.zipIdx (fun g => g.1.ok ∧ g.1.dtype = first.dtype)
      (fun pre d => d = if pre = [] then .invalid else first.dtype) _ (fun pre g rest d whole before => ?_)
      DType.invalid (by simp)).bind fun _ d done => Yields.pure ?_).congr ?_
  · obtain ⟨k, lt, len, rfl⟩ := zipIdx_split whole
    rcases pre with _ | ⟨p, pre⟩
    · obtain rfl : k = 0 := len.symm
      have isFirst : inputs[0] = first := by
        cases inputs with
        | nil => simp at lt
        | cons s rest => rfl
      by_cases valid : inputs[0].ok
      · exact Yields.of_holds ⟨valid, by rw [isFirst]⟩
          ⟨.yield inputs[0].dtype, by simp [valid]; rfl, _, rfl, by simp [isFirst]⟩
      · exact Yields.of_not (fun h => valid h.1) ⟨_, by simp [valid]; rfl, ordinary _⟩
    · have d_first : d = first.dtype := by simpa using before
      have nonzero : k ≠ 0 := by simp [← len]
      by_cases valid : inputs[k].ok
      · by_cases same : inputs[k].dtype = first.dtype
        · exact Yields.of_holds ⟨valid, same⟩
            ⟨.yield d, by simp [valid, nonzero, same, d_first]; rfl, _, rfl, by simpa using d_first⟩
        · exact Yields.of_not (fun h => same h.2) ⟨_, by simp [valid, nonzero, same, d_first]; rfl, ordinary _⟩
      · exact Yields.of_not (fun h => valid h.1) ⟨_, by simp [valid]; rfl, ordinary _⟩
  · cases inputs with
    | nil => simpa [first, Shape.invalid] using done
    | cons s rest => simpa using done
  · conv_rhs => rw [← List.zipIdx_map_fst 0 inputs]
    rw [and_true, List.forall_mem_map]

theorem dims_getD {inputs : List Shape} {P : Int → Prop} (all : ∀ s ∈ inputs, ∀ y ∈ s.dims, P y) (i : Nat) :
    ∀ y ∈ (inputs.getD i Shape.invalid).dims, P y := by
  rw [List.getD_eq_getElem?_getD]
  cases at_i : inputs[i]? with
  | none => simp [Shape.invalid]
  | some s => exact all s (List.mem_of_getElem? at_i)

theorem splitAll_yields {e : Expression} (hold : e.InputsHold) {inputs : List Shape}
    (pos : ∀ s ∈ inputs, ∀ y ∈ s.dims, 0 < y) (small : ∀ s ∈ inputs, ∀ y ∈ s.dims, y ≤ Word.maxInt64)
    (a : Assembly) :
    Yields (∀ q ∈ e.inputs.zipIdx, q.1.Fits (inputs.getD q.2 Shape.invalid)) (fun _ => True)
      (forIn e.inputs.zipIdx a (fun (p : Decomposition × Nat) a => do
        let a ← a.split p.2 p.1 (inputs.getD p.2 Shape.invalid)
        pure (ForInStep.yield a))) := by
  refine Yields.forIn_rounds e.inputs.zipIdx _ (fun _ _ => True) _ (fun pre q rest b whole _ => ?_) a trivial
  obtain ⟨holds, distinct, -, one⟩ := hold.input (List.fst_mem_of_mem_zipIdx (by simp [whole] : q ∈ e.inputs.zipIdx))
  exact ((Assembly.split_yields b q.2 q.1 _ holds one distinct (dims_getD pos q.2) (dims_getD small q.2)).bind
    fun _ r _ => Yields.pure ⟨r, rfl, trivial⟩).congr (iff_of_eq (and_true _))

theorem checkOutputSizes_yields (a : Assembly) (sizes : List (String × Int)) :
    Yields (∀ p ∈ sizes, a.sizeOf p.1 = p.2) (fun _ => True) (a.checkOutputSizes sizes) := by
  unfold Assembly.checkOutputSizes
  refine ((Yields.forIn (fun p : String × Int => a.sizeOf p.1 = p.2) (fun _ _ => True) _
      (fun pre p u _ => ?_) _ [] PUnit.unit trivial).bind fun _ _ _ => Yields.pure trivial).congr ?_
  · by_cases same : a.sizeOf p.1 = p.2
    · exact Yields.of_holds same ⟨.yield PUnit.unit, by simp [same]; rfl, _, rfl, trivial⟩
    · exact Yields.of_not same ⟨_, by simp [same]; rfl, Assembly.fail_ordinary a (by decide) _ _⟩
  · simp [List.mem_mergeSort]

theorem make_of_pos {dtype : DType} {dims : List Int} (pos : ∀ y ∈ dims, 0 < y) :
    Shape.make dtype dims = .ok ⟨dtype, dims⟩ := by
  unfold Shape.make
  rw [if_pos (List.all_eq_true.2 fun y mem => decide_eq_true (pos y mem))]

namespace Assembly

theorem emit_of_pos (a : Assembly) (st : Step) (pos : ∀ y ∈ a.dims, 0 < y) :
    a.emit st = .ok { a with steps := a.steps ++ [{ st with output := ⟨a.dtype, a.dims⟩ }] } := by
  unfold emit
  rw [make_of_pos pos]
  rfl

/-- The steps `a'` adds to those of `a` replay, by the shape rules, from one array of `a`'s
dimensions to one of `a'`'s. -/
def ReplaysFrom (a a' : Assembly) : Prop :=
  ∃ steps, a'.steps = a.steps ++ steps ∧ Replays [⟨a.dtype, a.dims⟩] steps ∧
    recordedAfter [⟨a.dtype, a.dims⟩] steps = [⟨a'.dtype, a'.dims⟩]

theorem ReplaysFrom.refl (a : Assembly) : a.ReplaysFrom a := ⟨[], by simp, trivial, rfl⟩

theorem ReplaysFrom.trans {a b c : Assembly} (first : a.ReplaysFrom b) (second : b.ReplaysFrom c) :
    a.ReplaysFrom c := by
  obtain ⟨s₁, steps₁, replays₁, recorded₁⟩ := first
  obtain ⟨s₂, steps₂, replays₂, recorded₂⟩ := second
  refine ⟨s₁ ++ s₂, by rw [steps₂, steps₁, List.append_assoc], ?_, ?_⟩
  · rw [replays_append, recorded₁]
    exact ⟨replays₁, replays₂⟩
  · rw [recordedAfter_append, recorded₁, recorded₂]

theorem ReplaysFrom.step {a b c : Assembly} (before : a.ReplaysFrom b) {st : Step}
    (steps : c.steps = b.steps ++ [st]) (notSplit : st.kind ≠ .reshapeSplit)
    (output : st.output = ⟨c.dtype, c.dims⟩) (inferred : inferStep st [⟨b.dtype, b.dims⟩] = .ok st.output) :
    a.ReplaysFrom c :=
  before.trans ⟨[st], steps, ⟨inferred, trivial⟩, by simp [Step.recorded, notSplit, output]⟩

theorem ReplaysFrom.replays {a a' : Assembly} {inputs : List Shape} (more : a.ReplaysFrom a')
    (replays : Replays inputs a.steps) (recorded : recordedAfter inputs a.steps = [⟨a.dtype, a.dims⟩]) :
    Replays inputs a'.steps ∧ recordedAfter inputs a'.steps = [⟨a'.dtype, a'.dims⟩] := by
  obtain ⟨steps, extended, later, ends⟩ := more
  rw [extended, replays_append, recordedAfter_append, recorded]
  exact ⟨⟨replays, later⟩, ends⟩

theorem ReplaysFrom.of_eq {a b c : Assembly} (before : a.ReplaysFrom b) (dtype : c.dtype = b.dtype)
    (dims : c.dims = b.dims) (steps : c.steps = b.steps) : a.ReplaysFrom c := by
  obtain ⟨s, hs, replays, recorded⟩ := before
  exact ⟨s, by rw [steps, hs], replays, by rw [recorded, dtype, dims]⟩

end Assembly

section Rules

variable {dtype : DType} {dims : List Int}

/-- The reduction of an axis within the rank, by an operation the type allows. -/
theorem reduce_shape_eq {k : Nat} {op : Reduction}
    (known : (Shape.isNumberReduction op || Shape.isOrderReduction op) = true)
    (allowed : ¬(dtype = .bool ∧ Shape.isNumberReduction op = true)) (lt : k < dims.length) :
    Shape.reduce ⟨dtype, dims⟩ k op = .ok ⟨dtype, dims.eraseIdx k⟩ := by
  have adjusted : Shape.adjustAxis k dims.length = .ok k := by
    unfold Shape.adjustAxis
    rw [if_neg (by simp; omega), if_neg (by omega)]
    rfl
  unfold Shape.reduce
  have reduction : ¬((!Shape.isNumberReduction op && !Shape.isOrderReduction op) = true) := by
    revert known
    cases Shape.isNumberReduction op <;> cases Shape.isOrderReduction op <;> simp
  rw [if_neg reduction, if_neg (by simpa using allowed)]
  simp [Shape.rank, adjusted, Shape.withDims]

theorem repeat_shape_eq {k : Nat} {count : Int} (le : k ≤ dims.length) (pos : 0 < count) :
    Shape.repeat ⟨dtype, dims⟩ k count = .ok ⟨dtype, dims.insertIdx k count⟩ := by
  unfold Shape.repeat
  simp [Shape.rank, Shape.withDims, le, show ¬count ≤ 0 by omega]

end Rules

section Reductions

variable {L : List Label} (σ : Label → Int)

/-- The labels left before reduction `x`, the ones reduced earlier taken out: `x` stands at its
position among all labels, and erasing it there takes it out too. -/
theorem reduction_round {S done rest : List ReducedAxis} {x : ReducedAxis} (nodup : L.Nodup)
    (whole : S = done ++ x :: rest) (mem : Label.axis x.name ∈ L)
    (desc : (S.map fun r => Label.axis r.name).Pairwise fun l l' => L.idxOf l' < L.idxOf l) :
    L.idxOf (.axis x.name) < (L.filter (· ∉ done.map fun r => Label.axis r.name)).length ∧
      (L.filter (· ∉ done.map fun r => Label.axis r.name)).eraseIdx (L.idxOf (.axis x.name)) =
        L.filter (· ∉ (done ++ [x]).map fun r => Label.axis r.name) ∧
      (L.filter (· ∉ done.map fun r => Label.axis r.name))[L.idxOf (.axis x.name)]? = some (.axis x.name) := by
  -- the axis reduced now comes before every axis reduced so far
  have later : ∀ t ∈ done.map fun r => Label.axis r.name, L.idxOf (.axis x.name) < L.idxOf t := by
    rw [whole, List.map_append, List.pairwise_append] at desc
    exact fun t inDone => desc.2.2 t inDone _ (by simp)
  have fresh : decide (Label.axis x.name ∉ done.map fun r => Label.axis r.name) = true := by
    simpa using fun inDone => lt_irrefl _ (later _ inDone)
  have before : ∀ y ∈ L, L.idxOf y < L.idxOf (.axis x.name) →
      decide (y ∉ done.map fun r => Label.axis r.name) = true := fun y _ lt => by
    simpa using fun inDone => lt_asymm lt (later y inDone)
  obtain ⟨lt, erased⟩ := eraseIdx_filter nodup mem fresh before
  have remaining : (L.filter fun y => decide (y ∉ done.map fun r => Label.axis r.name) && y != .axis x.name) =
      L.filter (· ∉ (done ++ [x]).map fun r => Label.axis r.name) :=
    List.filter_congr fun y _ => by by_cases e : y = .axis x.name <;> simp [e]
  exact ⟨lt, erased.trans remaining, getElem?_filter_idxOf nodup mem fresh before⟩

/-- The reductions, on an array of labels `L` whose reduced axes, in the order the stage sorts them,
sit at the positions their indices resolve to, from the last to the first, go on exactly unless
the inputs are booleans and one of them needs arithmetic; each step they emit replays. -/
theorem reduceAll_yields {a : Assembly} {rs S : List ReducedAxis} (nodup : L.Nodup) (dims : a.dims = L.map σ)
    (pos : ∀ l ∈ L, 0 < σ l) (sorted : rs.mergeSort (fun x y => decide (y.index.pos ≤ x.index.pos)) = S)
    (placed : ∀ r ∈ S, Label.axis r.name ∈ L ∧ r.index.resolve a.width = L.idxOf (.axis r.name))
    (desc : (S.map fun r => Label.axis r.name).Pairwise fun l l' => L.idxOf l' < L.idxOf l)
    (known : ∀ r ∈ rs, (Shape.isNumberReduction r.op || Shape.isOrderReduction r.op) = true) :
    Yields (¬(a.dtype = .bool ∧ ∃ r ∈ rs, Shape.isNumberReduction r.op = true)) (a.ReplaysFrom ·)
      (a.reduceAll rs) := by
  have inS : ∀ r ∈ S, r ∈ rs := fun r mem => List.mem_mergeSort.1 (sorted ▸ mem)
  unfold Assembly.reduceAll
  rw [sorted]
  refine (Yields.foldlM_rounds S (fun _ r => ¬(a.dtype = .bool ∧ Shape.isNumberReduction r.op = true))
      (fun (done : List ReducedAxis) (b : Assembly) => b.dtype = a.dtype ∧ b.width = a.width ∧
        b.dims = (L.filter (· ∉ done.map fun r => Label.axis r.name)).map σ ∧ a.ReplaysFrom b)
      _ (fun done x rest b whole held => ?_) a
      ⟨rfl, rfl, by simp [← dims], Assembly.ReplaysFrom.refl a⟩).mono (fun _ held => held.2.2.2) |>.congr ?_
  · obtain ⟨dtype, width, bDims, replays⟩ := held
    obtain ⟨mem, resolved⟩ := placed x (by simp [whole])
    obtain ⟨lt, erased, -⟩ := reduction_round nodup whole mem desc
    by_cases bad : a.dtype = .bool ∧ Shape.isNumberReduction x.op = true
    · exact Yields.of_not (· bad) ⟨_, (if_pos (by simpa [dtype] using bad)).trans rfl,
        Assembly.fail_ordinary b (by decide : ErrorKind.dtypeMismatch ≠ .planInconsistent) _ _⟩
    · have erasedDims : b.dims.eraseIdx (x.index.resolve b.width).toNat =
          (L.filter (· ∉ (done ++ [x]).map fun r => Label.axis r.name)).map σ := by
        rw [bDims, width, resolved, Int.toNat_natCast, List.eraseIdx_map, erased]
      have kept : ∀ y ∈ b.dims.eraseIdx (x.index.resolve b.width).toNat, 0 < y := by
        rw [erasedDims]
        simp only [List.mem_map, List.mem_filter]
        rintro y ⟨l, ⟨inL, -⟩, rfl⟩
        exact pos l inL
      have cut : deleteAt b.dims (x.index.resolve b.width) = .ok (b.dims.eraseIdx (x.index.resolve b.width).toNat) := by
        refine deleteAt_eq_ok.2 ⟨⟨?_, ?_⟩, rfl⟩
        · rw [width, resolved]
          exact Int.natCast_nonneg _
        · rw [width, resolved, bDims, List.length_map]
          exact_mod_cast lt
      have emitted := Assembly.emit_of_pos { b with dims := b.dims.eraseIdx (x.index.resolve b.width).toNat }
        { kind := .reduce, axis := x.index.resolve b.width, op := x.op } kept
      refine Yields.of_holds bad ⟨_, (if_neg (by simpa [dtype] using bad)).trans (Except.bind_of_ok cut emitted),
        dtype, width, erasedDims, ?_⟩
      refine replays.step rfl (by simp) rfl ?_
      simp only [inferStep, List.headD_cons]
      rw [width, resolved, Int.toNat_natCast] at kept ⊢
      exact reduce_shape_eq (known x (inS x (by simp [whole]))) (by simpa [dtype] using bad)
        (by rw [bDims, List.length_map]; exact lt)
  · constructor
    · rintro all ⟨isBool, r, mem, number⟩
      obtain ⟨pre, rest, split⟩ := List.mem_iff_append.1 (sorted ▸ List.mem_mergeSort.2 mem)
      exact all pre r rest split ⟨isBool, number⟩
    · rintro none pre r rest split ⟨isBool, number⟩
      exact none ⟨isBool, r, inS r (by simp [split]), number⟩

end Reductions

section Permutation

variable {K O : List Label} (σ : Label → Int)

/-- The permutation, on an array of labels `K` whose order lists the positions in `K` of a
rearrangement `O` of them, always goes on, and the step it emits, if any, replays. -/
theorem permute_yields {a : Assembly} {order : List Index} (dims : a.dims = K.map σ) (pos : ∀ l ∈ K, 0 < σ l)
    (nodup : K.Nodup) (perm : O.Perm K)
    (listed : (order.flatMap fun idx =>
      (List.range (a.span idx).toNat).map fun (k : Nat) => idx.resolve a.width + (k : Int)) =
        (O.map K.idxOf).map Int.ofNat) :
    Yields True (a.ReplaysFrom ·) (a.permute order) := by
  have sub : ∀ x ∈ O, x ∈ K := fun x mem => perm.subset mem
  have len : ((O.map K.idxOf).map Int.ofNat).length = a.dims.length := by simp [dims, perm.length_eq]
  have moved : ((O.map K.idxOf).map Int.ofNat).map (fun p => a.dims.getD p.toNat 0) = O.map σ := by
    rw [dims, ← map_getD_idxOf sub σ 0, List.map_map]
    exact List.map_congr_left fun i _ => by simp
  have movedPos : ∀ y ∈ O.map σ, 0 < y := by
    simp only [List.mem_map]
    rintro y ⟨l, inO, rfl⟩
    exact pos l (sub l inO)
  unfold Assembly.permute
  simp only [listed, len, ne_eq, not_true_eq_false, if_false]
  split
  · exact Yields.pure (Assembly.ReplaysFrom.refl a)
  · have inRange : ∀ p ∈ (O.map K.idxOf).map Int.ofNat, 0 ≤ p ∧ p < a.dims.length := by
      simp only [List.map_map, List.mem_map, Function.comp_apply, Int.ofNat_eq_natCast]
      rintro p ⟨x, inO, rfl⟩
      have lt := List.idxOf_lt_length_of_mem (sub x inO)
      rw [dims, List.length_map]
      omega
    have read := (mapM_operandAt_eq_ok 0).2 ⟨inRange, rfl⟩
    rw [moved] at read
    have emitted := Assembly.emit_of_pos { a with dims := O.map σ }
      { kind := .permute, permutation := (O.map K.idxOf).map Int.ofNat } movedPos
    refine Yields.of_ok (Except.bind_of_ok read emitted) ((Assembly.ReplaysFrom.refl a).step rfl (by simp) rfl ?_)
    have isPerm : IsPerm (((O.map K.idxOf).map Int.ofNat).map Int.toNat) := by
      rw [map_ofNat_toNat, IsPerm, List.length_map, perm.length_eq]
      exact map_idxOf_perm_range nodup perm
    simp only [inferStep, List.headD_cons]
    rw [transpose_shape_eq_ok (s := ⟨a.dtype, a.dims⟩) (by simp) isPerm len, moved]

end Permutation

theorem checkedProduct_of_pos {dims : List Int} (pos : ∀ d ∈ dims, 0 < d) :
    Word.checkedProduct dims = if dims.prod ≤ Word.maxInt64 then some dims.prod else none := by
  have start := Word.foldlM_checkedMul dims pos 1 (by decide) (by unfold Word.maxInt64; decide)
  rw [Int.one_mul] at start
  exact start

/-- The fresh labels of the new axes from `j` up to `n`: those not inserted yet once `j` are. -/
def freshFrom (j n : Nat) : List Label := (List.range' j (n - j)).map Label.fresh

section Fresh

variable {j n : Nat}

theorem freshFrom_zero : freshFrom 0 n = (List.range n).map Label.fresh := by
  simp [freshFrom, List.range_eq_range']

@[simp] theorem freshFrom_self : freshFrom n n = [] := by simp [freshFrom]

theorem mem_freshFrom {l : Label} : l ∈ freshFrom j n ↔ ∃ k, j ≤ k ∧ k < n ∧ l = .fresh k := by
  simp only [freshFrom, List.mem_map, List.mem_range'_1]
  constructor
  · rintro ⟨k, ⟨jk, kn⟩, rfl⟩
    exact ⟨k, jk, by omega, rfl⟩
  · rintro ⟨k, jk, kn, rfl⟩
    exact ⟨k, ⟨jk, by omega⟩, rfl⟩

theorem freshFrom_succ (lt : j < n) : freshFrom j n = .fresh j :: freshFrom (j + 1) n := by
  simp only [freshFrom]
  rw [show n - j = (n - (j + 1)) + 1 by omega, List.range'_succ]
  rfl

/-- The labels present before new axis `j` is inserted, the fresh ones from `j` on left out:
fresh label `j` goes at its position among them, at most after the last, and inserting it there
leaves out only the fresh labels after it. -/
theorem insertion_round {F : List Label} (nodup : F.Nodup) (lt : j < n) (mem : Label.fresh j ∈ F)
    (inc : ∀ i k, i < k → k < n → F.idxOf (.fresh i) < F.idxOf (.fresh k)) :
    F.idxOf (.fresh j) ≤ (F.filter (· ∉ freshFrom j n)).length ∧
      (F.filter (· ∉ freshFrom j n)).insertIdx (F.idxOf (.fresh j)) (.fresh j) =
        F.filter (· ∉ freshFrom (j + 1) n) := by
  have next := freshFrom_succ lt
  have absent : decide (Label.fresh j ∉ freshFrom j n) = false := by simp [next]
  -- the labels before fresh label `j` are in place: no fresh label after `j` comes before it
  have before : ∀ y ∈ F, F.idxOf y < F.idxOf (.fresh j) → decide (y ∉ freshFrom j n) = true := by
    intro y _ earlier
    simp only [decide_eq_true_eq, mem_freshFrom, not_exists, not_and]
    rintro k jk kn rfl
    rcases Nat.lt_or_ge j k with later | same
    · exact lt_asymm earlier (inc _ _ later kn)
    · obtain rfl : k = j := by omega
      exact lt_irrefl _ earlier
  obtain ⟨le, inserted⟩ := insertIdx_filter nodup mem absent before
  refine ⟨le, inserted.trans (List.filter_congr fun y _ => ?_)⟩
  by_cases e : y = .fresh j
  · have notNext : Label.fresh j ∉ freshFrom (j + 1) n := by simp [mem_freshFrom]
    simp [e, notNext]
  · simp [e, next]

end Fresh

section NewAxes

variable {F : List Label} (σ : Label → Int)

/-- The new axes, on an array of the labels `F` but the fresh ones, each inserted at the position
its index resolves to with its size, go on exactly when the output they make, the array of all of
`F`, has at most as many elements as a signed word counts; each step they emit replays. -/
theorem repeatAll_yields {a : Assembly} {news : List NewAxis} (nodup : F.Nodup)
    (dims : a.dims = (F.filter (· ∉ (List.range news.length).map Label.fresh)).map σ)
    (pos : ∀ l ∈ F, 0 < σ l)
    (placed : ∀ k (hk : k < news.length), Label.fresh k ∈ F ∧
      news[k].index.resolve a.width = F.idxOf (.fresh k) ∧ news[k].size = σ (.fresh k))
    (inc : ∀ j k, j < k → k < news.length → F.idxOf (.fresh j) < F.idxOf (.fresh k))
    (start : a.dims.prod ≤ Word.maxInt64) :
    Yields ((F.map σ).prod ≤ Word.maxInt64) (a.ReplaysFrom ·) (a.repeatAll news) := by
  have sizedPos : ∀ G : List Label, G.Sublist F → ∀ y ∈ G.map σ, 0 < y := by
    intro G sub y mem
    obtain ⟨l, inG, rfl⟩ := List.mem_map.1 mem
    exact pos l (sub.subset inG)
  unfold Assembly.repeatAll
  -- each round checks the element count once its axis is in: that of the labels up to it
  refine (Yields.foldlM_rounds news
      (fun pre _ => ((F.filter (· ∉ freshFrom (pre.length + 1) news.length)).map σ).prod ≤ Word.maxInt64)
      (fun (done : List NewAxis) (b : Assembly) => b.dtype = a.dtype ∧ b.width = a.width ∧
        b.dims = (F.filter (· ∉ freshFrom done.length news.length)).map σ ∧ a.ReplaysFrom b)
      _ (fun done x rest b whole held => ?_) a
      ⟨rfl, rfl, by rw [dims, List.length_nil, freshFrom_zero], Assembly.ReplaysFrom.refl a⟩).mono
      (fun _ held => held.2.2.2) |>.congr ?_
  · obtain ⟨dtype, width, bDims, replays⟩ := held
    have lt : done.length < news.length := by simp [whole]
    have xAt : news[done.length] = x := by simp [whole]
    obtain ⟨mem, resolved, sized⟩ := placed done.length lt
    rw [xAt] at resolved sized
    obtain ⟨le, inserted⟩ := insertion_round nodup lt mem inc
    have within : ¬(x.index.resolve b.width > (b.dims.length : Int)) := by
      rw [width, resolved, bDims, List.length_map]
      omega
    set named := if x.name ≠ "" then b.setSize x.name x.size else b
    have keep : named = { b with axisSizes := named.axisSizes } := (Assembly.nameNew_keeps b x).1
    have namedDims : named.dims = b.dims := by rw [keep]
    have namedSteps : named.steps = b.steps := by rw [keep]
    have grown : named.dims.insertIdx (x.index.resolve b.width).toNat x.size =
        (F.filter (· ∉ freshFrom (done.length + 1) news.length)).map σ := by
      rw [namedDims, bDims, width, resolved, Int.toNat_natCast, sized, ← List.map_insertIdx, inserted]
    have put : insertAt named.dims (x.index.resolve b.width) x.size =
        .ok (named.dims.insertIdx (x.index.resolve b.width).toNat x.size) := by
      refine insertAt_eq_ok.2 ⟨⟨?_, by rw [namedDims]; omega⟩, rfl⟩
      rw [width, resolved]
      exact Int.natCast_nonneg _
    have grownPos := sizedPos (F.filter (· ∉ freshFrom (done.length + 1) news.length)) List.filter_sublist
    rw [← grown] at grownPos
    by_cases bounded : ((F.filter (· ∉ freshFrom (done.length + 1) news.length)).map σ).prod ≤ Word.maxInt64
    · have fits : ¬((Word.checkedProduct (named.dims.insertIdx (x.index.resolve b.width).toNat x.size)).isNone = true) := by
        rw [checkedProduct_of_pos grownPos, grown, if_pos bounded]
        simp
      have emitted := Assembly.emit_of_pos { named with dims := named.dims.insertIdx (x.index.resolve b.width).toNat x.size }
        { kind := .repeat, axis := x.index.resolve b.width, count := x.size } grownPos
      refine Yields.of_holds bounded ⟨_, (if_neg within).trans (Except.bind_of_ok put ((if_neg fits).trans emitted)),
        ?_, ?_, by simpa using grown, ?_⟩
      · rw [keep]
        exact dtype
      · rw [keep]
        exact width
      · refine replays.step (congrArg (· ++ [_]) namedSteps) (by simp) rfl ?_
        simp only [inferStep, List.headD_cons]
        have insertion : named.dims.insertIdx (x.index.resolve b.width).toNat x.size =
            b.dims.insertIdx (F.idxOf (.fresh done.length)) x.size := by
          rw [namedDims, width, resolved, Int.toNat_natCast]
        rw [insertion, width, resolved, keep]
        exact repeat_shape_eq (by rw [bDims, List.length_map]; exact le) (sized ▸ pos _ mem)
    · have overflows : (Word.checkedProduct (named.dims.insertIdx (x.index.resolve b.width).toNat x.size)).isNone = true := by
        rw [checkedProduct_of_pos grownPos, grown, if_neg bounded]
        rfl
      exact Yields.of_not bounded ⟨_, (if_neg within).trans (Except.bind_of_ok put ((if_pos overflows).trans rfl)),
        Assembly.fail_ordinary _ (by decide : ErrorKind.invalidSize ≠ .planInconsistent) _ _⟩
  · constructor
    · intro all
      rcases List.eq_nil_or_concat news with none | ⟨pre, last, rfl⟩
      · subst none
        simpa [dims] using start
      · simpa using all pre last [] List.concat_eq_append
    · intro small pre g rest _
      exact (prod_le_of_sublist (List.filter_sublist.map σ) (sizedPos F (List.Sublist.refl F))).trans small

end NewAxes

section Merge

theorem coversFrom_append {m r : Nat} (le : m ≤ r) {hs : List (Int × Int)} (second : Shape.CoversFrom r m hs) :
    ∀ {s : Int} {gs : List (Int × Int)}, Shape.CoversFrom m s gs → Shape.CoversFrom r s (gs ++ hs)
  | s, [], first => by
    simp only [Shape.CoversFrom] at first
    rw [first]
    exact second
  | s, (b, c) :: rest, first => by
    obtain ⟨start, ordered, within, later⟩ := first
    exact ⟨start, ordered, by omega, coversFrom_append le second later⟩

theorem coversFrom_units (start : Nat) : ∀ n : Nat,
    Shape.CoversFrom (start + n) start ((List.range n).map fun (k : Nat) => ((start : Int) + k, (start : Int) + k + 1))
  | 0 => by simp [Shape.CoversFrom]
  | n + 1 => by
    rw [List.range_succ, List.map_append, List.map_singleton]
    refine coversFrom_append (by omega) ?_ (coversFrom_units start n)
    simp only [Shape.CoversFrom]
    omega

variable (a : Assembly) {w : Nat} (width : a.width = w)

include width in
theorem groupSpan_eq (ms : List Index) :
    (ms.map a.span).foldl (· + ·) 0 = (((ms.map fun idx => decide (idx.kind = .range)).map (spanOf w)).sum : Int) := by
  rw [← List.sum_eq_foldl, Nat.cast_list_sum, List.map_map, List.map_map]
  exact congrArg List.sum (List.map_congr_left fun idx _ => span_eq a width idx)

include width in
/-- The merge groups of the output's slots cover, in order, the axes the slots cover. -/
theorem mergeGroups_covers (ss : List Slot) :
    Shape.CoversFrom (runsLength w (ss.map Slot.shape)) 0 (a.mergeGroups ss).1 := by
  induction ss using List.reverseRecOn with
  | nil => simp [Shape.CoversFrom, Assembly.mergeGroups, runsLength]
  | append_singleton ss s ih =>
    have stop := (mergeGroups_runs a width ss).1
    rw [List.map_append, List.map_singleton, runsLength_append]
    cases s with
    | single idx q =>
      rw [mergeGroups_snoc_single, span_eq a width, stop, Int.toNat_natCast]
      exact coversFrom_append (by simp) (coversFrom_units _ _) ih
    | group ms q =>
      rw [mergeGroups_snoc_group, stop, groupSpan_eq a width]
      refine coversFrom_append (by simp) ?_ ih
      simp only [Shape.CoversFrom, Slot.shape, Nat.cast_add, le_refl, true_and, and_true]
      omega

include width in
/-- The merge, once the ellipsis matches `w` axes and the output's slots cover the positive
dimensions, with a product that fits a signed word, always goes on, and the step it emits, if any,
replays. -/
theorem merge_yields {ss : List Slot} (cover : runsLength w (ss.map Slot.shape) = a.dims.length)
    (pos : ∀ d ∈ a.dims, 0 < d) (fits : a.dims.prod ≤ Word.maxInt64) :
    Yields True (a.ReplaysFrom ·) (a.merge ss) := by
  have stop := (mergeGroups_runs a width ss).1
  have covers := mergeGroups_covers a width ss
  unfold Assembly.merge
  split
  · exact Yields.pure (Assembly.ReplaysFrom.refl a)
  · rcases groups : a.mergeGroups ss with ⟨gs, stop'⟩
    rw [groups] at stop covers
    have covered : stop' = a.dims.length := by simpa [cover] using stop
    simp only [covered, ne_eq, not_true_eq_false, if_false]
    have merged : Shape.merge ⟨a.dtype, a.dims⟩ gs =
        .ok ⟨a.dtype, gs.map fun g => Shape.runDim a.dims g.1.toNat g.2.toNat⟩ := by
      rw [Shape.merge, Shape.merge_go_ok _ gs gs 0 0 [] (by show Shape.CoversFrom a.dims.length 0 gs; rw [← cover]; exact covers)]
      simp [Shape.withDims]
    obtain ⟨-, -, mergedPos, -⟩ := Shape.merge_counts pos fits merged
    have products : (gs.mapM fun g => Word.product <$> sliceOf a.dims g.1 g.2) =
        .ok (gs.map fun g => Shape.runDim a.dims g.1.toNat g.2.toNat) := by
      refine mapM_runs_eq_ok.2 ⟨Shape.CoversFrom.within le_rfl ?_, rfl⟩
      rw [← cover]
      exact covers
    have emitted := Assembly.emit_of_pos { a with dims := gs.map fun g => Shape.runDim a.dims g.1.toNat g.2.toNat }
      { kind := .reshapeMerge, groups := gs, dims := gs.map fun g => Shape.runDim a.dims g.1.toNat g.2.toNat } mergedPos
    exact Yields.of_ok (Except.bind_of_ok products emitted) ((Assembly.ReplaysFrom.refl a).step rfl (by simp) rfl merged)

end Merge

end Plan

end Rearrange

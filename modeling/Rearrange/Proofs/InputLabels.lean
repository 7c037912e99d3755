import Rearrange.Proofs.ReducedPositions
import Rearrange.Proofs.InputsSplit
import Rearrange.Proofs.Regrouping
import Rearrange.Proofs.RoundTrip
/-!
# The inputs of a plan on labels

A plan is laid out in stages (`assemble_stages`): the inputs are split one after the other, then
joined when there are several, then come the reductions, the permutation, the new axes and the
merge.

On labels, an input's axes before the split are the runs its dimensions cut of its labels: a
group is one axis holding all its members' labels, a bare axis one axis of one label, and the
ellipsis one axis per label it matches. The split steps give each input with groups one axis per
label (`run_splitSteps`, `foldl_set_zipIdx`); an input without groups has one already
(`cutRuns_layout_noGroups`). The join then puts the inputs' axes side by side.
-/
namespace Rearrange.Pattern

/-- The labels of an input's axes once split, the ellipsis matching `w` axes. -/
def Decomposition.labels (d : Decomposition) (w : Nat) : List Plan.Label :=
  (d.axes.map (·.name)).flatMap (Plan.Label.ofName w)

theorem Expression.joinedLabels_eq (e : Expression) (w : Nat) :
    e.joinedLabels w = e.inputs.flatMap (·.labels w) := by
  rw [Expression.joinedLabels, allAxes, List.map_flatMap, List.flatMap_assoc]
  rfl

/-- A read pattern has one decomposition for each input, and at least one input. -/
theorem Expression.inputs_of_parse {text : String} {n : Int} {sizes : List (String × Int)}
    {e : Expression} (ok : Expression.parse text n sizes = .ok e) :
    (e.inputs.length : Int) = n ∧ e.inputs ≠ [] := by
  obtain ⟨toks, scan, p, fits⟩ := fits_of_parse ok
  have read : p.read text n sizes = some e := by
    rw [← parse_toOption_of_fits scan fits, ok]
    rfl
  have isRead : (p.read text n sizes).isSome := by simp [read]
  have arity := (p.accepted_of_read isRead).arity
  obtain ⟨ds, -, -, -, length, -, -, rfl⟩ := p.read_eq_some read
  refine ⟨length, fun empty => ?_⟩
  have noInputs : ds = [] := empty
  have count : (p.inputs.length : Int) = 0 := by
    rw [arity, ← length, noInputs]
    rfl
  exact p.inputs_ne (List.length_eq_zero_iff.1 (by exact_mod_cast count))

/-- Each input of a pattern whose inputs hold is a decomposition that holds, with distinct names,
the axis called `..` as its ellipsis, and the ellipsis at most once. -/
theorem Expression.InputsHold.input {e : Expression} (hold : e.InputsHold) {d : Decomposition}
    (mem : d ∈ e.inputs) :
    d.Holds ∧ (d.axes.map (·.name)).Nodup ∧ (∀ a ∈ d.axes, a.isEllipsis = true ↔ a.name = ellipsisName) ∧
      d.dims.countP (·.ellipsis) ≤ 1 := by
  have within : ∀ a ∈ d.axes, a ∈ allAxes e.inputs := fun a aMem => List.mem_flatMap.2 ⟨d, mem, aMem⟩
  have sub : (d.axes.map (·.name)).Sublist ((allAxes e.inputs).map (·.name)) := by
    rw [allAxes, List.flatMap_def, List.map_flatten]
    exact List.sublist_flatten_of_mem (List.mem_map.2 ⟨d.axes, List.mem_map_of_mem mem, rfl⟩)
  have holds := hold.inputs d mem
  have distinct := sub.nodup hold.names
  have named : ∀ a ∈ d.axes, a.isEllipsis = true ↔ a.name = ellipsisName := fun a aMem =>
    hold.ellipsis a (within a aMem)
  exact ⟨holds, distinct, named, holds.countP_ellipsis_le distinct named⟩

section Ellipsis

variable {d : Decomposition} {s : Shape} (one : d.dims.countP (·.ellipsis) ≤ 1)

include one in
/-- An input with an ellipsis covers input dimensions with exactly one ellipsis dimension. -/
theorem ellipsis_cover (ell : d.hasEllipsis = true) :
    ∃ p ∈ d.cover s, p.1.ellipsis = true ∧ (d.cover s).filter (·.1.ellipsis) = [p] := by
  have count : ((d.cover s).filter (·.1.ellipsis)).length = 1 := by
    have same : (d.cover s).countP (·.1.ellipsis) = d.dims.countP (·.ellipsis) := by
      rw [← Plan.Assembly.map_fst_cover d s, List.countP_map]
      rfl
    rw [← List.countP_eq_length_filter, same]
    exact le_antisymm one (Decomposition.hasEllipsis_iff_countP.1 ell)
  obtain ⟨p, only⟩ := List.length_eq_one_iff.1 count
  have mem : p ∈ (d.cover s).filter (·.1.ellipsis) := by simp [only]
  obtain ⟨inCover, isEll⟩ := List.mem_filter.1 mem
  exact ⟨p, inCover, by simpa using isEll, only⟩

include one in
theorem length_ellipsisDims (rank : if d.hasEllipsis then d.dims.length ≤ s.rank + 1 else s.rank = d.dims.length)
    (ell : d.hasEllipsis = true) :
    (((d.cover s).filter (·.1.ellipsis)).flatMap (·.2)).length = d.width s.rank := by
  obtain ⟨p, inCover, isEll, only⟩ := ellipsis_cover one ell
  have len := length_of_mem_cutDims _ d.dims s.dims (d.covered_of_rank rank one).le p inCover
  rw [only, List.flatMap_singleton, len, isEll]
  rfl

include one in
/-- A label of the ellipsis in an input's layout carries the input dimension the ellipsis covers
at its place. -/
theorem getElem?_ellipsisDims {j : Nat} {k : Int} (mem : (Plan.Label.ellipsis j, k) ∈ d.layout s) :
    d.hasEllipsis = true ∧ (((d.cover s).filter (·.1.ellipsis)).flatMap (·.2))[j]? = some k := by
  rw [Decomposition.layout, List.mem_flatMap] at mem
  obtain ⟨p, inCover, inDim⟩ := mem
  have dimMem : p.1 ∈ d.dims := Plan.Assembly.map_fst_cover d s ▸ List.mem_map_of_mem inCover
  cases isEll : p.1.ellipsis with
  | false => simp [Decomposition.dimLayout, isEll] at inDim
  | true =>
    have ell : d.hasEllipsis = true := List.any_eq_true.2 ⟨p.1, dimMem, isEll⟩
    obtain ⟨p', -, -, only⟩ := ellipsis_cover (s := s) one ell
    have same : p' = p := by
      have : p ∈ (d.cover s).filter (·.1.ellipsis) := List.mem_filter.2 ⟨inCover, by simpa using isEll⟩
      rw [only, List.mem_singleton] at this
      exact this.symm
    simp only [Decomposition.dimLayout, isEll, if_true, List.mem_map, Prod.mk.injEq,
      Plan.Label.ellipsis.injEq] at inDim
    obtain ⟨q, inZip, rfl, rfl⟩ := inDim
    rw [only, same, List.flatMap_singleton]
    exact ⟨ell, List.mk_mem_zipIdx_iff_getElem?.1 inZip⟩

end Ellipsis

end Rearrange.Pattern

namespace Rearrange.Plan

open Pattern

theorem ite_bind_eq_ok {ε α β : Type} {c : Prop} [Decidable c] {x : Except ε α} {a : α} {f : α → Except ε β}
    {b : β} (h : (if c then x >>= f else f a) = .ok b) :
    ∃ a', (if c then x else .ok a) = .ok a' ∧ f a' = .ok b := by
  split at h
  · obtain ⟨a', first, rest⟩ := Except.bind_eq_ok.1 h
    exact ⟨a', by simp [*], rest⟩
  · exact ⟨a, by simp [*], h⟩

/-- A plan that is laid out went through every stage: the inputs split one after the other, the
inputs joined if there are several, then the reductions, the permutation, the new axes and the
merge; the plan records the last stage's steps, sizes and ellipsis dimensions. -/
theorem assemble_stages {e : Expression} {inputs : List Shape} {opts : CompileOptions} {plan : Plan}
    (ok : assemble e inputs opts = .ok plan) :
    ∃ dtype a₁ a₂ a₃ a₄ a₅ a₆, checkDTypes e.pattern inputs = .ok dtype ∧
      forIn e.inputs.zipIdx ({ pattern := e.pattern, dtype } : Assembly) (fun (p : Decomposition × Nat) a => do
        let a ← a.split p.2 p.1 (inputs.getD p.2 Shape.invalid)
        pure (ForInStep.yield a)) = .ok a₁ ∧
      (if inputs.length > 1 then a₁.emit { kind := .join } else .ok a₁) = .ok a₂ ∧
      a₂.reduceAll e.reductions = .ok a₃ ∧ a₃.permute e.permutation = .ok a₄ ∧
      a₄.repeatAll e.newAxes = .ok a₅ ∧ a₅.merge e.output = .ok a₆ ∧
      plan = { name := opts.planName, pattern := e.pattern, inputs, output := ⟨a₆.dtype, a₆.dims⟩,
               steps := a₆.steps, axisSizes := a₆.axisSizes, ellipsisDims := a₆.ellipsisDims } := by
  unfold assemble at ok
  obtain ⟨dtype, typed, ok⟩ := Except.bind_eq_ok.1 ok
  obtain ⟨a₁, loop, ok⟩ := Except.bind_eq_ok.1 ok
  dsimp only at ok
  obtain ⟨-, -, ok⟩ := Except.bind_eq_ok.1 ok
  obtain ⟨a₂, joined, ok⟩ := ite_bind_eq_ok ok
  obtain ⟨a₃, reduced, ok⟩ := Except.bind_eq_ok.1 ok
  obtain ⟨a₄, permuted, ok⟩ := Except.bind_eq_ok.1 ok
  obtain ⟨a₅, repeated, ok⟩ := Except.bind_eq_ok.1 ok
  obtain ⟨a₆, merged, ok⟩ := Except.bind_eq_ok.1 ok
  obtain ⟨output, made, ok⟩ := Except.bind_eq_ok.1 ok
  obtain ⟨-, -, ok⟩ := Except.bind_eq_ok.1 ok
  cases ok
  rw [(Shape.make_ok made).1]
  exact ⟨dtype, a₁, a₂, a₃, a₄, a₅, a₆, typed, loop, joined, reduced, permuted, repeated, merged, rfl⟩

/-- The split steps of the inputs, replayed on labels: each input with groups has its axes set to
one axis per label of its layout. -/
theorem run_splitSteps (split : Nat → List Label) (shape : Nat → Shape)
    (lay : Decomposition × Nat → List (Label × Int)) :
    ∀ (xs : List (Decomposition × Nat)), (∀ q ∈ xs, split q.2 = (lay q).map Prod.fst) → ∀ (t : Trace),
    Trace.run split (xs.flatMap fun q =>
        if q.1.hasGroups then [Assembly.splitStep q.2 (shape q.2) ((lay q).map Prod.snd)] else []) t =
      { t with
        arrays := xs.foldl (fun A q => if q.1.hasGroups then A.set q.2 ((lay q).map ([·])) else A) t.arrays }
  | [], _, t => rfl
  | q :: xs, labelled, t => by
    rw [List.flatMap_cons, Trace.run_append, List.foldl_cons]
    have rest := run_splitSteps split shape lay xs fun q' mem => labelled q' (List.mem_cons_of_mem _ mem)
    by_cases groups : q.1.hasGroups
    · have set : Trace.run split [Assembly.splitStep q.2 (shape q.2) ((lay q).map Prod.snd)] t =
          { t with arrays := t.arrays.set q.2 ((lay q).map ([·])) } := by
        have zipped : (split q.2).zipWith (fun l k => [(l, k)]) ((lay q).map Prod.snd) = (lay q).map ([·]) := by
          rw [labelled q List.mem_cons_self, List.zipWith_map]
          simp
        simp [Trace.run, Trace.step, Assembly.splitStep, zipped]
      simp only [groups, if_true]
      rw [set, rest]
    · simp only [groups, Bool.false_eq_true, if_false]
      rw [show Trace.run split [] t = t from rfl, rest]

/-- Setting, in order, every place of a list whose element passes a test, once the other places
hold their final values already, gives the list of final values. -/
theorem foldl_set_zipIdx {β γ : Type} (c : β → Bool) (f g : β × Nat → γ) :
    ∀ (xs : List β) (P : List γ), (∀ q ∈ xs.zipIdx P.length, c q.1 = false → g q = f q) →
      (xs.zipIdx P.length).foldl (fun A q => if c q.1 then A.set q.2 (f q) else A)
          (P ++ (xs.zipIdx P.length).map g) =
        P ++ (xs.zipIdx P.length).map f
  | [], P, _ => by simp
  | x :: xs, P, same => by
    -- the place of `x` gets its final value; the places before it keep theirs
    have now : (if c x then (P ++ g (x, P.length) :: (xs.zipIdx (P.length + 1)).map g).set P.length
          (f (x, P.length)) else P ++ g (x, P.length) :: (xs.zipIdx (P.length + 1)).map g) =
        (P ++ [f (x, P.length)]) ++ (xs.zipIdx (P ++ [f (x, P.length)]).length).map g := by
      by_cases passes : c x
      · simp [passes, List.set_append_right]
      · rw [same (x, P.length) (by simp) (by simpa using passes)]
        simp [passes]
    have rest := foldl_set_zipIdx c f g xs (P ++ [f (x, P.length)]) fun q mem => same q (by
      rw [List.zipIdx_cons]
      exact List.mem_cons_of_mem _ (by simpa using mem))
    simp only [List.length_append, List.length_singleton] at now rest
    rw [List.zipIdx_cons, List.foldl_cons, List.map_cons, now, rest]
    simp

theorem lookup_of_mem {β : Type} : ∀ {l : List (String × β)} {x : String} {v : β}, (l.map Prod.fst).Nodup →
    (x, v) ∈ l → l.lookup x = some v
  | [], _, _, _, mem => by simp at mem
  | (y, u) :: l, x, v, distinct, mem => by
    rw [List.map_cons, List.nodup_cons] at distinct
    rcases List.mem_cons.1 mem with same | later
    · cases same
      simp [List.lookup]
    · have ne : (x == y) = false := beq_false_of_ne fun h => distinct.1 (List.mem_map.2 ⟨(x, v), later, h⟩)
      simp [List.lookup, ne, lookup_of_mem distinct.2 later]

/-- Among lists of names, those that hold a name are at most as many as its occurrences. -/
theorem length_filter_le_count {β : Type} (f : β → List String) (x : String) (c : β → Bool) :
    ∀ bs : List β, (∀ b ∈ bs, c b = true → x ∈ f b) → (bs.filter c).length ≤ (bs.flatMap f).count x
  | [], _ => by simp
  | b :: bs, has => by
    have rest := length_filter_le_count f x c bs fun b' mem => has b' (List.mem_cons_of_mem b mem)
    rw [List.flatMap_cons, List.count_append]
    by_cases hb : c b
    · rw [List.filter_cons_of_pos hb, List.length_cons]
      have := List.count_pos_iff.2 (has b List.mem_cons_self hb)
      omega
    · rw [List.filter_cons_of_neg hb]
      omega

theorem eq_map_of_sizes {σ : Label → Int} {lay : List (Label × Int)} (sized : ∀ p ∈ lay, σ p.1 = p.2) :
    lay = (lay.map Prod.fst).map fun l => (l, σ l) := by
  rw [List.map_map]
  conv => lhs; rw [← List.map_id lay]
  exact List.map_congr_left fun p mem => by rw [Function.comp_apply, sized p mem]; rfl

section Unsplit

variable {d : Decomposition} {s : Shape} {w : Nat} (holds : d.Holds) (one : d.dims.countP (·.ellipsis) ≤ 1)
  (width : d.hasEllipsis = true → w = d.width s.rank)
  (rank : if d.hasEllipsis then d.dims.length ≤ s.rank + 1 else s.rank = d.dims.length)

include holds one width rank in
/-- Without groups, the runs of an input's dimensions cut its layout into its axes one by one. -/
theorem cutRuns_layout_noGroups (none : d.hasGroups = false) :
    cutRuns w (d.dims.map d.dimShape) (d.layout s) = (d.layout s).map ([·]) := by
  have singles : ∀ g ∈ d.dims.map d.dimShape, g.1 = false := by
    intro g mem
    obtain ⟨dim, dimMem, rfl⟩ := List.mem_map.1 mem
    simpa [Decomposition.dimShape] using List.any_eq_false.1 none dim dimMem
  have length : runsLength w (d.dims.map d.dimShape) = (d.layout s).length := by
    have labels := congrArg List.length (layout_labels_of_rank holds one width rank)
    rw [List.length_map, List.length_flatMap] at labels
    rw [labels, runsLength, List.map_map]
    exact congrArg List.sum (List.map_congr_left fun dim mem => dimShape_spans d (holds.dims dim mem))
  rw [cutRuns_of_singles w _ singles, length, List.take_length]

end Unsplit

theorem flatMap_ite_singleton {β γ : Type} (c : β → Bool) (f : β → γ) :
    ∀ xs : List β, (xs.flatMap fun x => if c x then [f x] else []) = (xs.filter c).map f
  | [] => rfl
  | x :: xs => by
    rw [List.flatMap_cons, flatMap_ite_singleton c f xs, List.filter_cons]
    cases c x <;> rfl

theorem map_eq_map_zipIdx {β γ : Type} (xs : List β) (G : β → γ) :
    xs.map G = xs.zipIdx.map fun q => G q.1 := by
  conv => lhs; rw [← List.zipIdx_map_fst 0 xs]
  rw [List.map_map]
  rfl

section Inputs

variable {e : Expression} (hold : e.InputsHold)

include hold

omit hold in
theorem flatMap_zipIdx_names :
    (e.inputs.zipIdx.flatMap fun q => q.1.axes.map (·.name)) = (allAxes e.inputs).map (·.name) := by
  rw [allAxes, List.map_flatMap]
  conv => rhs; rw [← List.zipIdx_map_fst 0 e.inputs]
  rw [List.flatMap_map]

theorem filter_hasEllipsis_le : (e.inputs.zipIdx.filter (·.1.hasEllipsis)).length ≤ 1 := by
  have has : ∀ q ∈ e.inputs.zipIdx, q.1.hasEllipsis = true → ellipsisName ∈ q.1.axes.map (·.name) :=
    fun q mem ell => by
      obtain ⟨holds, -, named, -⟩ := hold.input (List.fst_mem_of_mem_zipIdx mem)
      exact (holds.hasEllipsis_iff named).1 ell
  have le := length_filter_le_count (fun q : Decomposition × Nat => q.1.axes.map (·.name)) ellipsisName
    (·.1.hasEllipsis) e.inputs.zipIdx has
  rw [flatMap_zipIdx_names] at le
  exact le.trans (List.nodup_iff_count_le_one.1 hold.names ellipsisName)

theorem namedSizes_joined_nodup (shape : Nat → Shape) :
    ((Assembly.namedSizes (e.inputs.zipIdx.flatMap fun q => q.1.layout (shape q.2))).map Prod.fst).Nodup := by
  rw [Assembly.namedSizes_flatMap, List.map_flatMap]
  refine ((List.Sublist.flatMap_right _ fun q mem => ?_).nodup (by rw [flatMap_zipIdx_names]; exact hold.names))
  exact Assembly.namedSizes_sublist _ (hold.input (List.fst_mem_of_mem_zipIdx mem)).1

theorem splitsAll_of_loop {inputs : List Shape} {dtype : DType} {a₁ : Assembly}
    (loop : forIn e.inputs.zipIdx ({ pattern := e.pattern, dtype } : Assembly) (fun (p : Decomposition × Nat) a => do
        let a ← a.split p.2 p.1 (inputs.getD p.2 Shape.invalid)
        pure (ForInStep.yield a)) = .ok a₁) :
    Assembly.SplitsAll { pattern := e.pattern, dtype } a₁ e.inputs.zipIdx fun i => inputs.getD i Shape.invalid :=
  Assembly.splitAll_ok (f := fun p a => a.split p.2 p.1 (inputs.getD p.2 Shape.invalid))
    (fun i => inputs.getD i Shape.invalid) (fun _ _ _ => rfl) e.inputs.zipIdx _ a₁
    (fun q mem => by
      obtain ⟨holds, -, -, one⟩ := hold.input (List.fst_mem_of_mem_zipIdx mem)
      exact ⟨holds, one⟩)
    (by rw [flatMap_zipIdx_names]; exact hold.names) (filter_hasEllipsis_le hold) loop

variable {inputs : List Shape} {dtype : DType} {a₁ : Assembly}
  (splits : Assembly.SplitsAll { pattern := e.pattern, dtype } a₁ e.inputs.zipIdx fun i => inputs.getD i Shape.invalid)

include splits

theorem width_eq_length : a₁.width = a₁.ellipsisDims.length := by
  by_cases some : ∃ q ∈ e.inputs.zipIdx, q.1.hasEllipsis = true
  · obtain ⟨q, mem, ell⟩ := some
    obtain ⟨-, -, -, one⟩ := hold.input (List.fst_mem_of_mem_zipIdx mem)
    obtain ⟨width, dims⟩ := splits.ellipsis q mem ell
    rw [width, dims, length_ellipsisDims one (splits.ranks q mem) ell]
  · obtain ⟨width, dims⟩ := splits.plain fun q mem => by simpa using fun ell => some ⟨q, mem, ell⟩
    rw [width, dims]
    rfl

theorem length_ellipsisDims_of_mem {q : Decomposition × Nat} (mem : q ∈ e.inputs.zipIdx)
    (ell : q.1.hasEllipsis = true) :
    a₁.ellipsisDims.length = q.1.width (inputs.getD q.2 Shape.invalid).rank := by
  have width := (splits.ellipsis q mem ell).1
  rw [width_eq_length hold splits] at width
  exact_mod_cast width

theorem layout_labels_of_split {q : Decomposition × Nat} (mem : q ∈ e.inputs.zipIdx) :
    (q.1.layout (inputs.getD q.2 Shape.invalid)).map Prod.fst = q.1.labels a₁.ellipsisDims.length := by
  obtain ⟨holds, -, named, one⟩ := hold.input (List.fst_mem_of_mem_zipIdx mem)
  exact layout_labels_names_of_rank holds one (length_ellipsisDims_of_mem hold splits mem)
    (splits.ranks q mem) named

/-- Split, the inputs' layouts give each label the size `σ` gives it, once `σ` gives each name of
the inputs its recorded size and each axis of the ellipsis the dimension it covers. -/
theorem layout_sized (σ : Label → Int)
    (named : ∀ x ∈ (allAxes e.inputs).map (·.name), σ (.axis x) = a₁.sizeOf x)
    (ellipsis : ∀ j, σ (.ellipsis j) = a₁.ellipsisDims.getD j 0) {q : Decomposition × Nat}
    (mem : q ∈ e.inputs.zipIdx) :
    q.1.layout (inputs.getD q.2 Shape.invalid) = (q.1.labels a₁.ellipsisDims.length).map fun l => (l, σ l) := by
  rw [← layout_labels_of_split hold splits mem]
  refine eq_map_of_sizes fun p pMem => ?_
  obtain ⟨l, k⟩ := p
  have labelled : l ∈ q.1.labels a₁.ellipsisDims.length := by
    rw [← layout_labels_of_split hold splits mem]
    exact List.mem_map_of_mem (f := Prod.fst) pMem
  obtain ⟨x, xMem, lMem⟩ := List.mem_flatMap.1 labelled
  cases l with
  | axis y =>
    -- the inputs' names are distinct, so the joined layout gives `y` the size of its own entry
    obtain ⟨-, same⟩ := (Label.mem_ofName.1 lMem).resolve_left fun ⟨_, _, _, never⟩ => by cases never
    have hx : y = x := Label.axis.inj same
    subst hx
    have inAll : y ∈ (allAxes e.inputs).map (·.name) := by
      obtain ⟨a, aMem, rfl⟩ := List.mem_map.1 xMem
      exact List.mem_map_of_mem (List.mem_flatMap.2 ⟨q.1, List.fst_mem_of_mem_zipIdx mem, aMem⟩)
    set J := e.inputs.zipIdx.flatMap fun q => q.1.layout (inputs.getD q.2 Shape.invalid)
    have inJ : (Label.axis y, k) ∈ J := List.mem_flatMap.2 ⟨q, mem, pMem⟩
    have inSizes : (y, k) ∈ Assembly.namedSizes J := by
      unfold Assembly.namedSizes
      exact List.mem_filterMap.2 ⟨_, inJ, rfl⟩
    have found : (Assembly.namedSizes J).lookup y = some k :=
      lookup_of_mem (namedSizes_joined_nodup hold fun i => inputs.getD i Shape.invalid) inSizes
    rw [named y inAll, splits.sizes y, found]
    rfl
  | ellipsis j =>
    obtain ⟨-, -, -, one⟩ := hold.input (List.fst_mem_of_mem_zipIdx mem)
    obtain ⟨ell, at_j⟩ := getElem?_ellipsisDims one pMem
    rw [ellipsis j, (splits.ellipsis q mem ell).2, List.getD_eq_getElem?_getD, at_j]
    rfl
  | fresh j =>
    rcases Label.mem_ofName.1 lMem with ⟨-, i, -, never⟩ | ⟨-, never⟩ <;> cases never

/-- Split, the inputs' axes are the joined labels with their sizes. -/
theorem dims_of_split (σ : Label → Int)
    (named : ∀ x ∈ (allAxes e.inputs).map (·.name), σ (.axis x) = a₁.sizeOf x)
    (ellipsis : ∀ j, σ (.ellipsis j) = a₁.ellipsisDims.getD j 0) :
    a₁.dims = (e.joinedLabels a₁.ellipsisDims.length).map σ := by
  rw [splits.dims, Expression.joinedLabels_eq, List.map_flatMap]
  dsimp only
  rw [List.nil_append]
  conv => rhs; rw [← List.zipIdx_map_fst 0 e.inputs]
  rw [List.flatMap_map]
  refine List.flatMap_congr fun q mem => ?_
  rw [layout_sized hold splits σ named ellipsis mem, List.map_map]
  rfl

omit hold in
theorem splitInputs_of_split : (a₁.steps.filter (·.kind == .reshapeSplit)).map (·.input) =
    (e.inputs.zipIdx.filter (·.1.hasGroups)).map fun q => (q.2 : Int) := by
  rw [splits.steps]
  dsimp only
  rw [List.nil_append, flatMap_ite_singleton, List.filter_eq_self.2 (fun st mem => ?_), List.map_map]
  · rfl
  · obtain ⟨q, -, rfl⟩ := List.mem_map.1 mem
    rfl

/-- Replayed on labels, the split steps leave each input one axis per label, with its size. -/
theorem run_split (σ : Label → Int)
    (named : ∀ x ∈ (allAxes e.inputs).map (·.name), σ (.axis x) = a₁.sizeOf x)
    (ellipsis : ∀ j, σ (.ellipsis j) = a₁.ellipsisDims.getD j 0) (t : Trace)
    (start : t.arrays = e.inputs.map fun d => cutRuns a₁.ellipsisDims.length (d.dims.map d.dimShape)
      ((d.labels a₁.ellipsisDims.length).map fun l => (l, σ l))) :
    Trace.run (fun i => (e.inputs.getD i default).labels a₁.ellipsisDims.length) a₁.steps t =
      { t with arrays := e.inputs.map fun d => cells σ (d.labels a₁.ellipsisDims.length) } := by
  set w := a₁.ellipsisDims.length
  have labelled : ∀ q ∈ e.inputs.zipIdx, (e.inputs.getD q.2 default).labels w =
      (q.1.layout (inputs.getD q.2 Shape.invalid)).map Prod.fst := fun q mem => by
    rw [layout_labels_of_split hold splits mem, List.getD_eq_getElem?_getD, List.mem_zipIdx_iff_getElem?.1 mem]
    rfl
  have final := foldl_set_zipIdx (fun d : Decomposition => d.hasGroups)
    (fun q => (q.1.layout (inputs.getD q.2 Shape.invalid)).map ([·]))
    (fun q => cutRuns w (q.1.dims.map q.1.dimShape) ((q.1.labels w).map fun l => (l, σ l))) e.inputs []
    (fun q mem none => by
      obtain ⟨holds, -, -, one⟩ := hold.input (List.fst_mem_of_mem_zipIdx mem)
      rw [← layout_sized hold splits σ named ellipsis mem]
      exact cutRuns_layout_noGroups holds one (length_ellipsisDims_of_mem hold splits mem) (splits.ranks q mem) none)
  rw [List.length_nil, List.nil_append, List.nil_append] at final
  have arrays : (e.inputs.zipIdx.map fun q => (q.1.layout (inputs.getD q.2 Shape.invalid)).map ([·])) =
      e.inputs.map fun d => cells σ (d.labels w) := by
    rw [map_eq_map_zipIdx e.inputs fun d => cells σ (d.labels w)]
    refine List.map_congr_left fun q mem => ?_
    rw [layout_sized hold splits σ named ellipsis mem, cells, List.map_map]
    rfl
  have steps := splits.steps
  dsimp only at steps
  rw [steps, List.nil_append, run_splitSteps _ (fun i => inputs.getD i Shape.invalid)
    (fun q => q.1.layout (inputs.getD q.2 Shape.invalid)) _ labelled t, start,
    map_eq_map_zipIdx e.inputs fun d => cutRuns w (d.dims.map d.dimShape) ((d.labels w).map fun l => (l, σ l)),
    final, arrays]

/-- Split and joined, the inputs replayed on labels are one array of the joined labels, one axis
per label with its size. The join changes only the steps, and the split steps are for the inputs
with groups, in order. -/
theorem inputs_trace (count : inputs.length = e.inputs.length) (nonempty : e.inputs ≠ []) {a₂ : Assembly}
    (joined : (if inputs.length > 1 then a₁.emit { kind := .join } else .ok a₁) = .ok a₂) :
    a₂ = { a₁ with steps := a₂.steps } ∧
    (a₂.steps.filter (·.kind == .reshapeSplit)).map (·.input) =
      (e.inputs.zipIdx.filter (·.1.hasGroups)).map (fun q => (q.2 : Int)) ∧
    ∀ σ : Label → Int, (∀ x ∈ (allAxes e.inputs).map (·.name), σ (.axis x) = a₁.sizeOf x) →
      (∀ j, σ (.ellipsis j) = a₁.ellipsisDims.getD j 0) →
      ∀ t : Trace, t.arrays = (e.inputs.map fun d => cutRuns a₁.ellipsisDims.length (d.dims.map d.dimShape)
        ((d.labels a₁.ellipsisDims.length).map fun l => (l, σ l))) →
      Trace.run (fun i => (e.inputs.getD i default).labels a₁.ellipsisDims.length) a₂.steps t =
        { t with arrays := [cells σ (e.joinedLabels a₁.ellipsisDims.length)] } := by
  split at joined
  · obtain rfl := emit_ok a₁ joined
    refine ⟨rfl, ?_, fun σ named ellipsis t start => ?_⟩
    · rw [List.filter_append, List.map_append, splitInputs_of_split splits]
      simp
    · rw [Trace.run_append, run_split hold splits σ named ellipsis t start]
      simp [Trace.run, Trace.step, Expression.joinedLabels_eq, cells, List.flatMap_def, Function.comp_def]
  · cases joined
    have one : e.inputs.length = 1 := by
      have := List.length_pos_iff.2 nonempty
      omega
    obtain ⟨d, single⟩ := List.length_eq_one_iff.1 one
    refine ⟨rfl, splitInputs_of_split splits, fun σ named ellipsis t start => ?_⟩
    rw [run_split hold splits σ named ellipsis t start, Expression.joinedLabels_eq, single]
    simp

end Inputs

end Rearrange.Plan

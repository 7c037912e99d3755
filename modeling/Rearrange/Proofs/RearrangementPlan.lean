import Rearrange.Proofs.Regrouping
/-!
# The plan of a rearrangement

A pattern with one input, no reduction and no new axis rearranges its input: the plan splits it
into the axes of the input side, permutes them into the order of the output side and merges the
groups of the output side. `Rearranges plan s lay out merged` says this of a plan for an input of
shape `s`: the split axes are labelled and sized by `lay`, put in the order of the labels `out`,
and merged into the dimensions `merged`.

Such a plan runs on a sound array of shape `s` (`Rearranges.apply`): it returns the array's values
moved as the labels are, under the merged dimensions. A plan that splits the result back into the
labels of `out` and puts them in the order of `lay` undoes it (`Rearranges.undo`): the two
permutations of the values are inverse to each other.
-/
namespace Rearrange.Pattern

open Plan

section Rearranging

variable {e : Expression} {p : PatternSyntax} {sizes : List (String × Int)}

theorem Expression.InputsHold.names_of_noReductions (hold : e.InputsHold) (none : e.reductions = []) :
    e.names.names = (allAxes e.inputs).map (·.name) := by
  rw [hold.reductions, reducedAxes, List.filterMap_eq_nil_iff] at none
  have kept : ∀ a ∈ allAxes e.inputs, (!a.isReduced) = true := by
    intro a mem
    have notReduced := none a mem
    cases reduced : a.isReduced
    · rfl
    · simp [reduced] at notReduced
  rw [hold.names_eq, List.filter_eq_self.2 kept]

/-- Without new axes every member of the output side stands for a kept axis. -/
theorem Expression.OutputHolds.kept_of_noNewAxes {items : List OutputItem} (out : e.OutputHolds items)
    (none : e.newAxes = []) : ∀ i ∈ items, ∃ x k, i = .kept x k := by
  intro i mem
  have zipped : i ∈ (items.zip (Positions.indices {} (items.map OutputItem.isEllipsis))).map Prod.fst := by
    rw [List.map_fst_zip (by simp)]
    exact mem
  obtain ⟨q, inZip, rfl⟩ := List.mem_map.1 zipped
  rw [out.newAxes] at none
  have noAxis := List.filterMap_eq_nil_iff.1 none q inZip
  cases item : q.1 with
  | kept x k => exact ⟨x, k, rfl⟩
  | int k => simp [item, OutputItem.newAxis?] at noAxis
  | named k x => simp [item, OutputItem.newAxis?] at noAxis

variable (out : e.OutputHolds (p.outputMembers.map (OutputMember.item sizes e.names))) (none : e.newAxes = [])
include out none

/-- Without new axes the output side keeps exactly the names it uses, in its own order. -/
theorem PatternSyntax.kept_eq_outputUsed :
    (p.outputMembers.map (OutputMember.item sizes e.names)).filterMap OutputItem.kept? = p.outputUsed := by
  rw [filterMap_kept_items sizes e.names p.outputMembers fun m mem => out.valid _ (List.mem_map_of_mem mem)]
  refine List.filter_eq_self.2 fun x used => ?_
  obtain ⟨m, mem, inUsed⟩ := List.mem_flatMap.1 used
  obtain ⟨y, k, isKept⟩ := out.kept_of_noNewAxes none _ (List.mem_map_of_mem mem)
  have valid := out.valid _ (List.mem_map_of_mem mem)
  cases m with
  | axis x' s q =>
    simp only [OutputMember.used, List.mem_singleton] at inUsed
    subst inUsed
    by_cases found : (e.names.lookup x).isSome
    · exact found
    · simp [OutputMember.item, found] at isKept
  | int v q => simp [OutputMember.item] at isKept
  | ellipsis q =>
    simp only [OutputMember.used, List.mem_singleton] at inUsed
    subst inUsed
    simpa [OutputMember.item, OutputItem.Valid] using valid

theorem PatternSyntax.no_int_members : ∀ v q, OutputMember.int v q ∉ p.outputMembers := by
  intro v q mem
  obtain ⟨y, k, isKept⟩ := out.kept_of_noNewAxes none _ (List.mem_map_of_mem mem)
  simp [OutputMember.item] at isKept

end Rearranging

/-- The slots of the output side cover as many axes as the labels of the names it uses, when it
has no integer members and no named member called `..`. -/
theorem PatternSyntax.runsLength_output {p : PatternSyntax} (w : Nat)
    (noInts : ∀ v q, OutputMember.int v q ∉ p.outputMembers)
    (written : ∀ x s q, OutputMember.axis x s q ∈ p.outputMembers → x ≠ ellipsisName) :
    runsLength w (p.output.map OutputTerm.shape) = (p.outputUsed.flatMap (Label.ofName w)).length := by
  have member : ∀ m ∈ p.outputMembers,
      (m.used.flatMap (Label.ofName w)).length = spanOf w m.isEllipsis := by
    intro m mem
    cases m with
    | axis x s q => simp [OutputMember.used, OutputMember.isEllipsis, spanOf, Label.ofName, written x s q mem]
    | int v q => exact absurd mem (noInts v q)
    | ellipsis q => simp [OutputMember.used, OutputMember.isEllipsis, spanOf, Label.ofName]
  have term : ∀ t : OutputTerm,
      (t.shape.2.map (spanOf w)).sum = (t.members.map fun m => spanOf w m.isEllipsis).sum := by
    intro t
    cases t <;> simp [OutputTerm.shape, OutputTerm.members, Function.comp_def]
  have terms : ∀ ts : List OutputTerm, ((ts.map OutputTerm.shape).map fun g => (g.2.map (spanOf w)).sum).sum =
      ((ts.flatMap OutputTerm.members).map fun m => spanOf w m.isEllipsis).sum := by
    intro ts
    induction ts with
    | nil => rfl
    | cons t ts ih =>
      simp only [List.map_cons, List.sum_cons, List.flatMap_cons, List.map_append, List.sum_append, ih, term]
  rw [runsLength, terms, PatternSyntax.outputUsed, List.flatMap_assoc, List.length_flatMap,
    List.map_congr_left member]
  rfl


/-- An input whose axes have distinct names, the ellipsis called `..`, has the ellipsis at most
once. -/
theorem Decomposition.Holds.countP_ellipsis_le {d : Decomposition} (holds : d.Holds)
    (distinct : (d.axes.map (·.name)).Nodup)
    (named : ∀ a ∈ d.axes, a.isEllipsis = true ↔ a.name = ellipsisName) :
    d.dims.countP (·.ellipsis) ≤ 1 := by
  have le : ∀ ds : List Dim, (∀ dim ∈ ds, dim ∈ d.dims) →
      ds.countP (·.ellipsis) ≤ (ds.flatMap d.dimAxes).countP (·.isEllipsis) := by
    intro ds
    induction ds with
    | nil => simp
    | cons dim ds ih =>
      intro within
      rw [List.countP_cons, List.flatMap_cons, List.countP_append]
      have rest := ih fun x hx => within x (List.mem_cons_of_mem _ hx)
      have here : (if dim.ellipsis = true then 1 else 0) ≤ (d.dimAxes dim).countP (·.isEllipsis) := by
        have dimHolds := holds.dims dim (within dim List.mem_cons_self)
        generalize d.dimAxes dim = ms at dimHolds
        cases dimHolds with
        | @ellipsis a ell paren kind => simp [Axis.isEllipsis, kind, ell]
        | bare ell => simp [ell]
        | group ell => simp [ell]
      omega
  calc d.dims.countP (·.ellipsis) ≤ d.axes.countP (·.isEllipsis) := by
        simpa [holds.cover] using le d.dims fun _ h => h
    _ = (d.axes.map Axis.isEllipsis).count true := by simp [List.count, List.countP_map, Function.comp_def]
    _ ≤ 1 := count_isEllipsis_le_one distinct named

/-- A pattern read against a tree of its tokens: the tree reads as the pattern, and the pattern's
input and output sides hold. -/
theorem PatternSyntax.holds_of_parse {p : PatternSyntax} {text : String} {sizes : List (String × Int)}
    {e : Expression} {toks : List Token} (parsed : Expression.parse text 1 sizes = .ok e)
    (scan : Token.scanBody text = .ok toks) (fits : List.Forall₂ Token.Fits toks p.marks) :
    p.read text 1 sizes = some e ∧ e.InputsHold ∧
      e.OutputHolds (p.outputMembers.map (OutputMember.item sizes e.names)) ∧
      ∀ x s q, OutputMember.axis x s q ∈ p.outputMembers → x ≠ ellipsisName := by
  have read : p.read text 1 sizes = some e := by
    rw [← parse_toOption_of_fits scan fits, parsed]
    rfl
  have written := scanFrom_wellWritten _ _ _ _ scan
  have isRead : (p.read text 1 sizes).isSome := by simp [read]
  have inputs : e.InputsHold :=
    p.inputsHold read (p.accepted_of_read isRead).left_distinct (inputAxes_wellWritten written fits)
  exact ⟨read, inputs, p.outputHolds read (outputAxes_wellWritten written fits) inputs.names_nodup,
    outputAxes_wellWritten written fits⟩

/-- A pattern read from `text`, against the tree `p` of its tokens, into `e`, with the one input `d`
and neither reductions nor new axes: it only rearranges its input. -/
structure Rearrangement (p : PatternSyntax) (text : String) (sizes : List (String × Int)) (e : Expression)
    (d : Decomposition) : Prop where
  parsed : Expression.parse text 1 sizes = .ok e
  read : p.read text 1 sizes = some e
  single : e.inputs = [d]
  inputs : e.InputsHold
  outputs : e.OutputHolds (p.outputMembers.map (OutputMember.item sizes e.names))
  written : ∀ x s q, OutputMember.axis x s q ∈ p.outputMembers → x ≠ ellipsisName
  noReductions : e.reductions = []
  noNewAxes : e.newAxes = []

namespace Rearrangement

variable {p : PatternSyntax} {text : String} {sizes : List (String × Int)} {e : Expression} {d : Decomposition}

theorem of_parse {toks : List Token} (parsed : Expression.parse text 1 sizes = .ok e)
    (scan : Token.scanBody text = .ok toks) (fits : List.Forall₂ Token.Fits toks p.marks)
    (noReductions : e.reductions = []) (noNewAxes : e.newAxes = []) :
    ∃ d, Rearrangement p text sizes e d := by
  obtain ⟨read, inputs, outputs, written⟩ := p.holds_of_parse parsed scan fits
  obtain ⟨d, single⟩ : ∃ d, e.inputs = [d] := by
    obtain ⟨ds, t, o, -, arity, -, -, shape⟩ := p.read_eq_some read
    rw [shape]
    exact List.length_eq_one_iff.1 (by exact_mod_cast arity)
  exact ⟨d, parsed, read, single, inputs, outputs, written, noReductions, noNewAxes⟩

theorem axes (r : Rearrangement p text sizes e d) : allAxes e.inputs = d.axes := by
  simp [r.single, allAxes]

theorem holds (r : Rearrangement p text sizes e d) : d.Holds := r.inputs.inputs d (by simp [r.single])

theorem distinct (r : Rearrangement p text sizes e d) : (d.axes.map (·.name)).Nodup :=
  r.axes ▸ r.inputs.names

theorem named (r : Rearrangement p text sizes e d) :
    ∀ a ∈ d.axes, a.isEllipsis = true ↔ a.name = ellipsisName :=
  fun a mem => r.inputs.ellipsis a (r.axes ▸ mem)

theorem one (r : Rearrangement p text sizes e d) : d.dims.countP (·.ellipsis) ≤ 1 :=
  r.holds.countP_ellipsis_le r.distinct r.named

theorem names (r : Rearrangement p text sizes e d) : e.names.names = d.axes.map (·.name) := by
  rw [r.inputs.names_of_noReductions r.noReductions, r.axes]

theorem kept (r : Rearrangement p text sizes e d) :
    (p.outputMembers.map (OutputMember.item sizes e.names)).filterMap OutputItem.kept? = p.outputUsed :=
  p.kept_eq_outputUsed r.outputs r.noNewAxes

theorem noInts (r : Rearrangement p text sizes e d) : ∀ v q, OutputMember.int v q ∉ p.outputMembers :=
  p.no_int_members r.outputs r.noNewAxes

end Rearrangement

end Rearrange.Pattern

namespace Rearrange.Plan

open Pattern

/-- The size a layout gives a label, 0 for a label it does not hold. -/
def sizeIn (lay : List (Label × Int)) (l : Label) : Int := (lay.lookup l).getD 0

section Sizes

/-- Reading a layout without repeated labels at its own labels gives its sizes. -/
theorem map_sizeIn : ∀ {lay : List (Label × Int)}, (lay.map Prod.fst).Nodup →
    (lay.map Prod.fst).map (sizeIn lay) = lay.map Prod.snd
  | [], _ => rfl
  | (l, k) :: lay, distinct => by
    rw [List.map_cons, List.nodup_cons] at distinct
    have rest := map_sizeIn distinct.2
    -- the labels after the first are not the first, so the first entry does not hide them
    have later : (lay.map Prod.fst).map (sizeIn ((l, k) :: lay)) = (lay.map Prod.fst).map (sizeIn lay) :=
      List.map_congr_left fun l' mem => by
        have ne : (l' == l) = false := beq_false_of_ne fun h => distinct.1 (h ▸ mem)
        simp [sizeIn, List.lookup, ne]
    simp [later, rest, sizeIn, List.lookup]

theorem sizeIn_pos : ∀ {lay : List (Label × Int)} {l : Label}, l ∈ lay.map Prod.fst →
    (∀ k ∈ lay.map Prod.snd, 0 < k) → 0 < sizeIn lay l
  | [], _, mem, _ => by simp at mem
  | (l', k) :: lay, l, mem, pos => by
    by_cases same : l = l'
    · subst same
      simpa [sizeIn, List.lookup] using pos k (by simp)
    · have ne : (l == l') = false := beq_false_of_ne same
      have rest : 0 < sizeIn lay l := sizeIn_pos (by simpa [same] using mem) fun k' hk => pos k' (by simp [hk])
      simpa [sizeIn, List.lookup, ne] using rest

theorem getD_sizes_idxOf {lay : List (Label × Int)} {out : List Label} (distinct : (lay.map Prod.fst).Nodup)
    (sub : ∀ l ∈ out, l ∈ lay.map Prod.fst) :
    ((out.map (lay.map Prod.fst).idxOf).map Int.ofNat).map (fun a => (lay.map Prod.snd).getD a.toNat 0) =
      out.map (sizeIn lay) := by
  rw [List.map_map, ← map_sizeIn distinct]
  simpa [Function.comp_def] using map_getD_idxOf sub (sizeIn lay) 0

variable {α : Type} [DecidableEq α]

/-- Positions under a map that is injective on a list are the positions in the list. -/
theorem idxOf_map_of_injOn {β : Type} [DecidableEq β] {f : α → β} {a : α} :
    ∀ {l : List α}, (∀ x ∈ a :: l, ∀ y ∈ a :: l, f x = f y → x = y) → (l.map f).idxOf (f a) = l.idxOf a
  | [], _ => rfl
  | b :: l, inj => by
    have rest := idxOf_map_of_injOn (l := l) fun x hx y hy same =>
      inj x (List.mem_cons.2 ((List.mem_cons.1 hx).imp id (List.mem_cons_of_mem b)))
        y (List.mem_cons.2 ((List.mem_cons.1 hy).imp id (List.mem_cons_of_mem b))) same
    by_cases here : b = a
    · subst here
      simp
    · have apart : f b ≠ f a := fun same => here (inj b (by simp) a (by simp) same)
      rw [List.map_cons, List.idxOf_cons_ne _ apart, List.idxOf_cons_ne _ here, rest]

/-- The positions of a rearrangement `P` of a list `K` without repeats are undone by the positions
of `K` in `P`. -/
theorem inversePerm_map_idxOf {K P : List α} (nodup : K.Nodup) (perm : P.Perm K) :
    inversePerm (P.map K.idxOf) = K.map P.idxOf := by
  have len : (P.map K.idxOf).length = K.length := by simp [perm.length_eq]
  refine List.ext_getElem (by simp [len]) fun i h₁ h₂ => ?_
  have lt : i < K.length := by simpa using h₂
  have own : K.idxOf K[i] = i := nodup.idxOf_getElem i lt
  have inj : ∀ x ∈ K[i] :: P, ∀ y ∈ K[i] :: P, K.idxOf x = K.idxOf y → x = y := by
    intro x hx y hy same
    have inK : ∀ z ∈ K[i] :: P, z ∈ K := fun z hz => by
      rcases List.mem_cons.1 hz with rfl | hz
      · exact List.getElem_mem lt
      · exact perm.subset hz
    exact (List.idxOf_inj (inK x hx)).1 same
  have moved := idxOf_map_of_injOn inj
  rw [own] at moved
  simpa only [inversePerm, List.getElem_map, List.getElem_range, len] using moved

end Sizes

/-- A plan that rearranges an input of shape `s`: it splits the input into the sizes of the
labelled axes `lay`, puts the labels in the order `out` and merges them into `merged`; the labels
are distinct, the sizes positive, and no step changes the number of positions. -/
structure Rearranges (plan : Plan) (s : Shape) (lay : List (Label × Int)) (out : List Label)
    (merged : List Int) : Prop where
  inputs : plan.inputs = [s]
  output : plan.output = ⟨s.dtype, merged⟩
  steps : ∃ splitting permuting merging, plan.steps = splitting ++ permuting ++ merging ∧
    SplitsInto splitting s (lay.map Prod.snd) ∧
    PermutesBy permuting ((out.map (lay.map Prod.fst).idxOf).map Int.ofNat) ∧
    MergesInto merging (out.map (sizeIn lay)) merged
  distinct : (lay.map Prod.fst).Nodup
  perm : out.Perm (lay.map Prod.fst)
  pos : ∀ k ∈ lay.map Prod.snd, 0 < k
  count : Tensor.positionCount (lay.map Prod.snd) = Tensor.positionCount s.dims
  merged_pos : ∀ d ∈ merged, 0 < d
  merged_count : Tensor.positionCount merged = Tensor.positionCount (lay.map Prod.snd)

namespace Rearranges

variable {plan : Plan} {x : Tensor} {lay : List (Label × Int)} {out : List Label} {merged : List Int}

theorem isPerm (r : Rearranges plan x.shape lay out merged) :
    IsPerm (out.map (lay.map Prod.fst).idxOf) := by
  have len : (out.map (lay.map Prod.fst).idxOf).length = (lay.map Prod.fst).length := by
    simp [r.perm.length_eq]
  rw [IsPerm, len]
  exact map_idxOf_perm_range r.distinct r.perm

/-- A rearranging plan runs on a sound array of its input shape and returns a sound array of the
merged dimensions, holding the values moved as the labels are. -/
theorem apply (r : Rearranges plan x.shape lay out merged) (sound : x.Sound) (valid : x.shape.ok = true) :
    ∃ y, plan.apply Tensor.backend [x] = .ok y ∧ y.Sound ∧ y.shape = ⟨x.shape.dtype, merged⟩ ∧
      y.flat = permuteValues ((lay.map Prod.snd).map Int.toNat) (out.map (lay.map Prod.fst).idxOf) x.flat := by
  obtain ⟨splitting, permuting, merging, steps, split, permute, merge⟩ := r.steps
  have toNat : ((out.map (lay.map Prod.fst).idxOf).map Int.ofNat).map Int.toNat =
      out.map (lay.map Prod.fst).idxOf := by
    simp [Function.comp_def]
  have len : ((out.map (lay.map Prod.fst).idxOf).map Int.ofNat).length = (lay.map Prod.snd).length := by
    simp [r.perm.length_eq]
  have reads := getD_sizes_idxOf r.distinct fun l mem => r.perm.subset mem
  obtain ⟨y, runs, shape, flat⟩ := runs_rearranging sound valid split r.pos r.count permute
    (by simp) (by rw [toNat]; exact r.isPerm) len (by rw [reads]; exact merge) r.merged_pos r.merged_count
  rw [toNat] at flat
  have size : y.flat.size = x.flat.size := by rw [flat, size_permuteValues]
  refine ⟨y, apply_of_runs r.inputs (steps ▸ runs) (shape.trans r.output.symm), ⟨?_, ?_, ?_⟩, shape, flat⟩
  · rw [shape]
    exact r.merged_pos
  · rw [shape, size, ← sound.count]
    exact r.merged_count.trans r.count
  · rw [size]
    exact sound.fits

/-- A rearranging plan followed by one that splits its result back into the labels of `out`, with
the sizes they had, and puts them in the order of `lay`, returns the array it started from. -/
theorem undo {plan' : Plan} (there : Rearranges plan x.shape lay out merged)
    (back : Rearranges plan' ⟨x.shape.dtype, merged⟩ (out.map fun l => (l, sizeIn lay l))
      (lay.map Prod.fst) x.shape.dims)
    (sound : x.Sound) (valid : x.shape.ok = true) :
    ∃ y z, plan.apply Tensor.backend [x] = .ok y ∧ plan'.apply Tensor.backend [y] = .ok z ∧
      z.shape = x.shape ∧ z.flat = x.flat := by
  obtain ⟨y, ran, soundY, shapeY, flatY⟩ := there.apply sound valid
  rw [← shapeY] at back
  obtain ⟨z, ran', -, shapeZ, flatZ⟩ := back.apply soundY (by simpa [shapeY, Shape.ok] using valid)
  refine ⟨y, z, ran, ran', by rw [shapeZ, shapeY], ?_⟩
  -- the second plan splits into the permuted sizes and permutes by the inverse permutation
  have labels : (out.map fun l => (l, sizeIn lay l)).map Prod.fst = out := by simp [Function.comp_def]
  have sizes : ((out.map fun l => (l, sizeIn lay l)).map Prod.snd).map Int.toNat =
      reorder (out.map (lay.map Prod.fst).idxOf) ((lay.map Prod.snd).map Int.toNat) := by
    rw [reorder, ← map_sizeIn there.distinct, List.map_map]
    simpa [Function.comp_def] using
      (map_getD_idxOf (fun l mem => there.perm.subset mem) (fun l => (sizeIn lay l).toNat) 0).symm
  rw [flatZ, labels, sizes, ← inversePerm_map_idxOf there.distinct there.perm, flatY]
  refine permuteValues_inverse there.isPerm (by simp [there.perm.length_eq]) ?_ ?_
  · intro d mem
    obtain ⟨k, kMem, rfl⟩ := List.mem_map.1 mem
    have := there.pos k kMem
    omega
  · rw [← sound.prod, ← positionCount_eq_prod sound.pos, ← there.count,
      positionCount_eq_prod there.pos]
end Rearranges

section Compiling

theorem checkDTypes_single {pattern : String} {s : Shape} {dtype : DType}
    (ok : checkDTypes pattern [s] = .ok dtype) : s.ok = true ∧ dtype = s.dtype := by
  unfold checkDTypes at ok
  simp only [List.zipIdx_cons, List.zipIdx_nil, List.forIn_cons, List.forIn_nil] at ok
  by_cases valid : s.ok = true
  · simp only [valid, Bool.not_true, Bool.false_eq_true, if_false] at ok
    simp at ok
    cases ok
    exact ⟨valid, rfl⟩
  · simp [valid] at ok
    cases ok

/-- Laying out a plan for one input, with nothing to reduce or insert, splits the input, permutes
and merges. -/
theorem assemble_one {e : Expression} {d : Decomposition} {s : Shape} {opts : CompileOptions} {plan : Plan}
    (single : e.inputs = [d]) (noReductions : e.reductions = []) (noNewAxes : e.newAxes = [])
    (ok : assemble e [s] opts = .ok plan) :
    ∃ dtype a₁ a₂ a₃, checkDTypes e.pattern [s] = .ok dtype ∧
      ({ pattern := e.pattern, dtype } : Assembly).split 0 d s = .ok a₁ ∧
      a₁.permute e.permutation = .ok a₂ ∧ a₂.merge e.output = .ok a₃ ∧
      plan = { name := opts.planName, pattern := e.pattern, inputs := [s], output := ⟨a₃.dtype, a₃.dims⟩,
               steps := a₃.steps, axisSizes := a₃.axisSizes, ellipsisDims := a₃.ellipsisDims } := by
  unfold assemble at ok
  obtain ⟨dtype, typed, ok⟩ := Except.bind_eq_ok.1 ok
  obtain ⟨a₁, loop, ok⟩ := Except.bind_eq_ok.1 ok
  rw [single] at loop
  simp only [List.zipIdx_cons, List.zipIdx_nil, List.forIn_cons, List.forIn_nil] at loop
  obtain ⟨x, splitting, done⟩ := Except.bind_eq_ok.1 loop
  obtain ⟨a₁', split, yielded⟩ := Except.bind_eq_ok.1 splitting
  cases yielded
  cases done
  simp only [List.getD_cons_zero] at split
  dsimp only at ok
  obtain ⟨u, -, ok⟩ := Except.bind_eq_ok.1 ok
  simp only [List.length_singleton, gt_iff_lt, Nat.lt_irrefl, if_false, noReductions, noNewAxes] at ok
  obtain ⟨a₂, reduced, ok⟩ := Except.bind_eq_ok.1 ok
  obtain ⟨a₃, permuted, ok⟩ := Except.bind_eq_ok.1 ok
  obtain ⟨a₄, repeated, ok⟩ := Except.bind_eq_ok.1 ok
  obtain ⟨a₅, merged, ok⟩ := Except.bind_eq_ok.1 ok
  obtain ⟨output, made, ok⟩ := Except.bind_eq_ok.1 ok
  obtain ⟨-, -, ok⟩ := Except.bind_eq_ok.1 ok
  cases ok
  -- with nothing to reduce or insert, those stages leave the assembly as it is
  have none : a₂ = a₁ := by simpa [Assembly.reduceAll, pure, Except.pure] using reduced.symm
  have noRepeat : a₄ = a₃ := by simpa [Assembly.repeatAll, pure, Except.pure] using repeated.symm
  subst none noRepeat
  rw [(Shape.make_ok made).1]
  exact ⟨dtype, a₂, a₄, a₅, typed, split, permuted, merged, rfl⟩

/-- A pattern that only rearranges its one input compiles, for an input of positive dimensions
whose number of positions fits a word, into a plan that rearranges it: split into the layout of
its decomposition, put in the order of the output side's names and merged by its slots. The plan
records the sizes of the layout's names. -/
theorem compile_rearranges {text : String} {s : Shape} {opts : CompileOptions} {plan : Plan}
    {e : Expression} {p : PatternSyntax} {d : Decomposition} (r : Rearrangement p text opts.axisSizes e d)
    (compiled : compile text [s] opts = .ok plan) (pos : ∀ y ∈ s.dims, 0 < y)
    (small : s.dims.prod ≤ Word.maxInt64) (wide : (e.names.length + d.ellipsisWidth s.rank : Int) ≤ Word.maxInt64) :
    d.Fits s ∧
      Rearranges plan s (d.layout s) (p.outputUsed.flatMap (Label.ofName (d.ellipsisWidth s.rank)))
        (mergeRuns (d.ellipsisWidth s.rank) (p.output.map OutputTerm.shape)
          ((p.outputUsed.flatMap (Label.ofName (d.ellipsisWidth s.rank))).map (sizeIn (d.layout s)))) ∧
      ∀ x, (plan.axisSizes.lookup x).getD 0 = ((Assembly.namedSizes (d.layout s)).lookup x).getD 0 := by
  unfold compile at compiled
  obtain ⟨e', parsed', compiled⟩ := Except.bind_eq_ok.1 compiled
  rw [List.length_singleton, Nat.cast_one, r.parsed] at parsed'
  cases parsed'
  obtain ⟨dtype, a₁, a₂, a₃, typed, split, permuted, merged, rfl⟩ :=
    assemble_one r.single r.noReductions r.noNewAxes (Except.mapError_eq_ok.1 compiled)
  obtain ⟨valid, rfl⟩ := checkDTypes_single typed
  have each : ∀ y ∈ s.dims, y ≤ Word.maxInt64 := fun y mem =>
    (show y ≤ s.dims.prod by simpa using prod_le_of_sublist (List.singleton_sublist.2 mem) pos).trans small
  have yields := Assembly.split_yields { pattern := e.pattern, dtype := s.dtype } 0 d s r.holds r.one r.distinct
    pos each
  have fitsShape : d.Fits s := yields.ok_iff.1 ⟨a₁, split⟩
  have splits := yields.post_of_ok split
  set w := d.ellipsisWidth s.rank with hw
  have width : a₁.width = w := by
    rw [splits.width, hw, Decomposition.ellipsisWidth]
    split <;> rfl
  have widthEll : d.hasEllipsis = true → w = d.width s.rank := fun ell => by
    simp [hw, Decomposition.ellipsisWidth, ell]
  set lay := d.layout s
  have labels : lay.map Prod.fst = (d.axes.map (·.name)).flatMap (Label.ofName w) :=
    layout_labels_names r.holds fitsShape r.one widthEll r.named
  set out := p.outputUsed.flatMap (Label.ofName w) with hout
  have perm : out.Perm (lay.map Prod.fst) := by
    rw [hout, labels, ← r.names, ← r.kept]
    exact r.outputs.kept.flatMap_right _
  have layDistinct : (lay.map Prod.fst).Nodup := by
    rw [labels]
    exact Label.flatMap_ofName_nodup w r.distinct
  have layPos := layout_pos r.holds fitsShape r.one pos
  have listed := permutation_labels r.inputs r.outputs width wide
  rw [r.kept, r.names, ← labels] at listed
  obtain ⟨len, permuting, permutes, rfl⟩ := permute_ok a₁ listed permuted
  have dims₁ : a₁.dims = lay.map Prod.snd := by
    rw [splits.dims]
    rfl
  have reads : ((out.map (lay.map Prod.fst).idxOf).map Int.ofNat).map (fun q => a₁.dims.getD q.toNat 0) =
      out.map (sizeIn lay) := by
    rw [dims₁]
    exact getD_sizes_idxOf layDistinct fun l mem => perm.subset mem
  rw [reads] at merged
  have slots : e.output.map Slot.shape = p.output.map OutputTerm.shape := by
    obtain ⟨ds, t, o, -, -, -, outOk, shape⟩ := p.read_eq_some r.read
    obtain ⟨new, slotsEq, shapes⟩ := readOutput_slots opts.axisSizes t p.output {} o outOk
    rw [shape]
    simp [slotsEq, shapes]
  have sizesPos : ∀ k ∈ out.map (sizeIn lay), 0 < k := by
    intro k mem
    obtain ⟨l, lMem, rfl⟩ := List.mem_map.1 mem
    exact sizeIn_pos (perm.subset lMem) layPos
  have sizesProd : (out.map (sizeIn lay)).prod = (lay.map Prod.snd).prod := by
    rw [(perm.map (sizeIn lay)).prod_eq, map_sizeIn layDistinct]
  have layProd : (lay.map Prod.snd).prod = s.dims.prod := prod_layout r.holds fitsShape r.one widthEll each
  have cover : runsLength w (e.output.map Slot.shape) = (out.map (sizeIn lay)).length := by
    rw [slots, List.length_map, p.runsLength_output w r.noInts r.written]
  obtain ⟨merging, merges, rfl⟩ := merge_ok { a₁ with dims := out.map (sizeIn lay), steps := a₁.steps ++ permuting }
    width cover sizesPos (by rw [sizesProd, layProd]; exact small) merged
  rw [slots] at merges
  refine ⟨fitsShape, ⟨rfl, ?_, ⟨if d.hasGroups then [Assembly.splitStep 0 s (lay.map Prod.snd)] else [],
    permuting, merging, ?_, ?_, permutes, merges⟩, layDistinct, perm, layPos, ?_, ?_, ?_⟩, fun x => ?_⟩
  · simp only [splits.dtype, slots]
  · simp [splits.steps]
    rfl
  · cases groups : d.hasGroups
    · exact .inl ⟨rfl, layout_noGroups r.holds fitsShape r.one widthEll each groups⟩
    · exact .inr ⟨_, rfl, rfl, by simp [Assembly.splitStep], rfl⟩
  · have counted : (Tensor.positionCount (lay.map Prod.snd) : Int) = Tensor.positionCount s.dims := by
      rw [positionCount_of_pos layPos, positionCount_of_pos pos, layProd]
    exact_mod_cast counted
  · exact mergeRuns_pos _ _ sizesPos
  · have counted : (Tensor.positionCount (mergeRuns w (p.output.map OutputTerm.shape) (out.map (sizeIn lay))) : Int) =
        Tensor.positionCount (lay.map Prod.snd) := by
      rw [positionCount_of_pos (mergeRuns_pos _ _ sizesPos), positionCount_of_pos layPos, prod_mergeRuns,
        ← slots, cover, List.take_length, sizesProd]
    exact_mod_cast counted
  · exact splits.sizes x

end Compiling

end Rearrange.Plan

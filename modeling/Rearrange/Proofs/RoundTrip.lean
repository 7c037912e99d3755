import Rearrange.Proofs.RearrangementPlan
import Rearrange.Proofs.ReversedPattern

/-!
# Reversing a pattern undoes it

A pattern `L -> R` that only rearranges its one input compiles into a plan that splits the input
into the labels of `L`, puts them in the order `R` uses and merges them by the groups of `R`
(`compile_rearranges`). The reversed pattern `R -> L` has the mirrored tree
(`PatternSyntax.mirrors_of_reversed`): read for the first plan's output, with the sizes that plan
records, its decomposition is the output side of `L -> R` and its output side is the first
decomposition. So it splits the merged groups back into the same labels and sizes
(`layout_mergeRuns`) and puts them in the order of the first layout, which
`Rearranges.undo` turns into the identity on the values.
-/
namespace Rearrange.Pattern
open Plan

section Merged

variable {d : Decomposition} {w : Nat} {dim : Dim}

theorem cutDims_flatMap (W : Nat) (g : Dim → List Int) : ∀ ds : List Dim,
    (∀ dim ∈ ds, (g dim).length = spanOf W dim.ellipsis) → cutDims W ds (ds.flatMap g) = ds.map g
  | [], _ => rfl
  | dim :: ds, len => by
    have here := len dim List.mem_cons_self
    rw [List.flatMap_cons, cutDims, ← here, List.take_left, List.drop_left,
      cutDims_flatMap W g ds fun dim' mem => len dim' (List.mem_cons_of_mem dim mem), List.map_cons]

theorem cutDims_congr_spans {W : Nat} {ds : List Dim}
    (same : ∀ dim ∈ ds, spanOf W dim.ellipsis = spanOf w dim.ellipsis) (xs : List Int) : cutDims W ds xs = cutDims w ds xs := by
  induction ds generalizing xs with
  | nil => rfl
  | cons dim ds ih =>
    rw [cutDims, cutDims, same dim List.mem_cons_self, ih fun dim' mem => same dim' (List.mem_cons_of_mem dim mem)]

theorem length_mergeRuns_dimLabels (holds : Dim.Holds dim (d.dimAxes dim)) (f : Label → Int) :
    (mergeRuns w [d.dimShape dim] ((d.dimLabels w dim).map f)).length = spanOf w dim.ellipsis := by
  generalize hms : d.dimAxes dim = ms at holds
  cases holds with
  | ellipsis ell paren =>
    simp [mergeRuns, Decomposition.dimShape, Decomposition.dimLabels, hms, ell, paren, spanOf]
  | bare ell paren =>
    simp [mergeRuns, Decomposition.dimShape, Decomposition.dimLabels, hms, ell, paren, spanOf]
  | group ell paren gh =>
    simp [mergeRuns, Decomposition.dimShape, hms, ell, paren, spanOf]

theorem mergeRuns_dimLabels (holds : d.Holds) (f : Label → Int) :
    ∀ ds : List Dim, (∀ dim ∈ ds, dim ∈ d.dims) →
    mergeRuns w (ds.map d.dimShape) ((ds.flatMap (d.dimLabels w)).map f) =
      ds.flatMap fun dim => mergeRuns w [d.dimShape dim] ((d.dimLabels w dim).map f)
  | [], _ => rfl
  | dim :: ds, within => by
    have spans := dimShape_spans d (w := w) (holds.dims dim (within dim List.mem_cons_self))
    rw [List.map_cons, List.flatMap_cons, List.map_append, mergeRuns_cons_append (by simpa using spans.symm),
      mergeRuns_dimLabels holds f ds fun dim' mem => within dim' (List.mem_cons_of_mem dim mem), List.flatMap_cons]

theorem length_mergeRuns_labels (holds : d.Holds) (f : Label → Int) :
    (mergeRuns w (d.dims.map d.dimShape) ((d.dims.flatMap (d.dimLabels w)).map f)).length =
      (d.dims.map fun dim => spanOf w dim.ellipsis).sum := by
  rw [mergeRuns_dimLabels holds f d.dims fun _ mem => mem, List.length_flatMap]
  exact congrArg List.sum (List.map_congr_left fun dim mem => length_mergeRuns_dimLabels (holds.dims dim mem) f)

theorem width_mergeRuns (holds : d.Holds) (one : d.dims.countP (·.ellipsis) ≤ 1)
    (ell : d.hasEllipsis = true) (f : Label → Int) :
    d.width (mergeRuns w (d.dims.map d.dimShape) ((d.dims.flatMap (d.dimLabels w)).map f)).length = w := by
  have once : d.dims.countP (·.ellipsis) = 1 := le_antisymm one (Decomposition.hasEllipsis_iff_countP.1 ell)
  have count : d.dims.countP (·.ellipsis) + d.dims.countP (!·.ellipsis) = d.dims.length := by
    rw [List.length_eq_countP_add_countP (fun dim : Dim => dim.ellipsis)]
    simp
  rw [Decomposition.width, length_mergeRuns_labels holds f, Assembly.sum_spanOf, once]
  omega

/-- Splitting, by a read decomposition with at most one ellipsis, the merge of its labels' sizes
slot by slot as its dimensions stand lays the labels out with those sizes, when the members of a
group have their sizes known and taken from the same sizes. -/
theorem layout_mergeRuns (holds : d.Holds) (one : d.dims.countP (·.ellipsis) ≤ 1) (f : Label → Int)
    (known : ∀ dim ∈ d.dims, dim.parenthesized = true →
      ∀ a ∈ d.dimAxes dim, a.kind = .named ∧ a.size = f (.axis a.name)) (dtype : DType) :
    d.layout ⟨dtype, mergeRuns w (d.dims.map d.dimShape) ((d.dims.flatMap (d.dimLabels w)).map f)⟩ =
      (d.dims.flatMap (d.dimLabels w)).map fun l => (l, f l) := by
  have width : ∀ dim ∈ d.dims, spanOf (d.width
      (mergeRuns w (d.dims.map d.dimShape) ((d.dims.flatMap (d.dimLabels w)).map f)).length) dim.ellipsis =
      spanOf w dim.ellipsis := by
    intro dim mem
    cases ell : dim.ellipsis
    · rfl
    · rw [width_mergeRuns holds one (List.any_eq_true.2 ⟨dim, mem, ell⟩) f]
  simp only [Decomposition.layout, Decomposition.cover, Shape.rank]
  rw [cutDims_congr_spans width, mergeRuns_dimLabels holds f d.dims fun _ mem => mem,
    cutDims_flatMap w _ d.dims fun dim mem => length_mergeRuns_dimLabels (holds.dims dim mem) f,
    ← List.map_prod_left_eq_zip, List.flatMap_map, List.map_flatMap]
  exact List.flatMap_congr fun dim mem => dimLayout_mergeRuns d (holds.dims dim mem) f (known dim mem)

end Merged

/-- A read decomposition whose axis called `..` is the ellipsis has an ellipsis exactly when it
names `..`. -/
theorem Decomposition.Holds.hasEllipsis_iff {d : Decomposition} (holds : d.Holds)
    (named : ∀ a ∈ d.axes, a.isEllipsis = true ↔ a.name = ellipsisName) :
    d.hasEllipsis = true ↔ ellipsisName ∈ d.axes.map (·.name) := by
  constructor
  · intro ell
    obtain ⟨dim, mem, isEll⟩ := List.any_eq_true.1 ell
    have dimHolds := holds.dims dim mem
    generalize hms : d.dimAxes dim = ms at dimHolds
    cases dimHolds with
    | @ellipsis a _ _ kind _ =>
      have inAxes : a ∈ d.axes := holds.cover ▸ List.mem_flatMap.2 ⟨dim, mem, by simp [hms]⟩
      exact List.mem_map.2 ⟨a, inAxes, (named a inAxes).1 (by simp [Axis.isEllipsis, kind])⟩
    | bare ell' => simp [ell'] at isEll
    | group ell' => simp [ell'] at isEll
  · intro mem
    obtain ⟨a, aMem, name⟩ := List.mem_map.1 mem
    have isEll := (named a aMem).2 name
    rw [← holds.cover] at aMem
    obtain ⟨dim, dimMem, inDim⟩ := List.mem_flatMap.1 aMem
    have dimHolds := holds.dims dim dimMem
    generalize hms : d.dimAxes dim = ms at dimHolds inDim
    cases dimHolds with
    | ellipsis ell => exact List.any_eq_true.2 ⟨dim, dimMem, ell⟩
    | bare _ _ kind =>
      rw [List.mem_singleton] at inDim
      subst inDim
      simp [Axis.isEllipsis, kind] at isEll
    | group _ _ gh =>
      rcases gh.member a inDim with ⟨kind, -⟩ | ⟨kind, -⟩ <;> simp [Axis.isEllipsis, kind] at isEll

theorem Decomposition.ellipsisWidth_le (d : Decomposition) (r : Nat) : d.ellipsisWidth r ≤ r := by
  unfold Decomposition.ellipsisWidth Decomposition.width
  split
  case isTrue ell =>
    obtain ⟨dim, mem, -⟩ := List.any_eq_true.1 ell
    have := List.length_pos_of_mem mem
    omega
  case isFalse => omega

section Mirrored

variable {sizes : List (String × Int)} {d : Decomposition} {dim : Dim} {t : InputTerm} {o : OutputTerm}

theorem InputAxis.mirrors_used {ms : List InputAxis} {ns : List OutputMember}
    (m : List.Forall₂ InputAxis.Mirrors ms ns) : ns.flatMap OutputMember.used = ms.map (·.name) := by
  induction m with
  | nil => rfl
  | cons head _ ih =>
    obtain ⟨-, q, rfl⟩ := head
    simp [OutputMember.used, ih]

theorem InputAxis.mirrors_isEllipsis {ms : List InputAxis} {ns : List OutputMember}
    (m : List.Forall₂ InputAxis.Mirrors ms ns) : ns.map OutputMember.isEllipsis = ms.map fun _ => false := by
  induction m with
  | nil => rfl
  | cons head _ ih =>
    obtain ⟨-, q, rfl⟩ := head
    simp [OutputMember.isEllipsis, ih]

theorem InputTerm.Mirrors.members_used (m : t.Mirrors o) : o.members.flatMap OutputMember.used = t.names := by
  cases t with
  | axis a =>
    cases o with
    | single n =>
      obtain ⟨-, q, rfl⟩ := m
      rfl
    | group ns q => exact m.elim
  | ellipsis p =>
    cases o with
    | single n =>
      obtain ⟨q, rfl⟩ := m
      rfl
    | group ns q => exact m.elim
  | group ms =>
    cases o with
    | single n => exact m.elim
    | group ns q =>
      exact InputAxis.mirrors_used m

theorem Dim.ReadFrom.names (rf : Dim.ReadFrom sizes d dim t) : (d.dimAxes dim).map (·.name) = t.names := by
  have := congrArg (List.map Prod.fst) rf.axes
  rw [List.map_map] at this
  refine this.trans ?_
  cases t <;> simp [InputTerm.readSizes, InputTerm.names, Function.comp_def]

/-- A dimension read from an item is merged as the slot the item is written as. -/
theorem Dim.ReadFrom.dimShape_eq (rf : Dim.ReadFrom sizes d dim t) (m : t.Mirrors o) : d.dimShape dim = o.shape := by
  have length : (d.dimAxes dim).length = (t.readSizes sizes).length := by
    simpa using congrArg List.length rf.axes
  have shape : d.dimShape dim = (t.isGroup, (t.readSizes sizes).map fun _ => t.isEllipsis) := by
    rw [Decomposition.dimShape, rf.parenthesized, rf.ellipsis]
    simp only [List.map_const', length]
  rw [shape]
  cases t with
  | axis a =>
    cases o with
    | single n =>
      obtain ⟨-, q, rfl⟩ := m
      rfl
    | group ns q => exact m.elim
  | ellipsis p =>
    cases o with
    | single n =>
      obtain ⟨q, rfl⟩ := m
      rfl
    | group ns q => exact m.elim
  | group ms =>
    cases o with
    | single n => exact m.elim
    | group ns q =>
      simp only [InputTerm.isGroup, InputTerm.readSizes, InputTerm.isEllipsis, OutputTerm.shape, List.map_map]
      rw [InputAxis.mirrors_isEllipsis m]
      rfl

/-- A member of a group read with a size given for its name takes that size. -/
theorem Dim.ReadFrom.size_of_lookup (rf : Dim.ReadFrom sizes d dim t) (paren : dim.parenthesized = true) :
    ∀ a ∈ d.dimAxes dim, ∀ g, sizes.lookup a.name = some g → a.size = g := by
  intro a mem g given
  have group : t.isGroup = true := rf.parenthesized ▸ paren
  cases t with
  | axis b => simp [InputTerm.isGroup] at group
  | ellipsis q => simp [InputTerm.isGroup] at group
  | group ms =>
    have inRead : a.sized ∈ (InputTerm.group ms).readSizes sizes := rf.axes ▸ List.mem_map_of_mem mem
    simp only [InputTerm.readSizes, List.mem_map, Axis.sized, Prod.mk.injEq] at inRead
    obtain ⟨b, -, name, read⟩ := inRead
    have := (readSize_eq read).1
    simp [givenSize, name, given] at this
    exact this.symm

variable (sizes) in
theorem dimShapes_of_mirrors {dims : List Dim} {ts : List InputTerm} {os : List OutputTerm}
    (read : List.Forall₂ (fun dim t => Dim.ReadFrom sizes d dim t) dims ts)
    (mirrors : List.Forall₂ InputTerm.Mirrors ts os) : dims.map d.dimShape = os.map OutputTerm.shape := by
  induction read generalizing os with
  | nil =>
    cases mirrors
    rfl
  | cons rf _ ih =>
    cases mirrors with
    | cons m more => rw [List.map_cons, List.map_cons, rf.dimShape_eq m, ih more]

variable (sizes) in
theorem names_of_read {dims : List Dim} {ts : List InputTerm}
    (read : List.Forall₂ (fun dim t => Dim.ReadFrom sizes d dim t) dims ts) :
    (dims.flatMap d.dimAxes).map (·.name) = ts.flatMap InputTerm.names := by
  induction read with
  | nil => rfl
  | cons rf _ ih => rw [List.flatMap_cons, List.map_append, rf.names, ih, List.flatMap_cons]

theorem mirrors_used {ts : List InputTerm} {os : List OutputTerm} (mirrors : List.Forall₂ InputTerm.Mirrors ts os) :
    os.flatMap (fun o => o.members.flatMap OutputMember.used) = ts.flatMap InputTerm.names := by
  induction mirrors with
  | nil => rfl
  | cons m _ ih => rw [List.flatMap_cons, m.members_used, ih, List.flatMap_cons]

theorem PatternSyntax.outputUsed_eq (p : PatternSyntax) :
    p.outputUsed = p.output.flatMap fun o => o.members.flatMap OutputMember.used := by
  rw [PatternSyntax.outputUsed, PatternSyntax.outputMembers, List.flatMap_assoc]

theorem exists_of_forall₂_left {α β : Type} {R : α → β → Prop} {l₁ : List α} {l₂ : List β}
    (h : List.Forall₂ R l₁ l₂) : ∀ a ∈ l₁, ∃ b ∈ l₂, R a b := by
  induction h with
  | nil => simp
  | cons head _ ih =>
    intro a mem
    rcases List.mem_cons.1 mem with rfl | mem
    · exact ⟨_, List.mem_cons_self, head⟩
    · obtain ⟨b, bMem, rel⟩ := ih a mem
      exact ⟨b, List.mem_cons_of_mem _ bMem, rel⟩

theorem exists_of_forall₂_right {α β : Type} {R : α → β → Prop} {l₁ : List α} {l₂ : List β}
    (h : List.Forall₂ R l₁ l₂) : ∀ b ∈ l₂, ∃ a ∈ l₁, R a b := by
  induction h with
  | nil => simp
  | cons head _ ih =>
    intro b mem
    rcases List.mem_cons.1 mem with rfl | mem
    · exact ⟨_, List.mem_cons_self, head⟩
    · obtain ⟨a, aMem, rel⟩ := ih b mem
      exact ⟨a, List.mem_cons_of_mem _ aMem, rel⟩

theorem InputAxis.mirrors_plain {ms : List InputAxis} {ns : List OutputMember}
    (m : List.Forall₂ InputAxis.Mirrors ms ns) : ∀ a ∈ ms, a.reduce = .none := fun a mem => by
  obtain ⟨n, -, mirrors⟩ := exists_of_forall₂_left m a mem
  exact mirrors.1

/-- The axes of an item written as an output slot have no reduction. -/
theorem InputTerm.Mirrors.plain (m : t.Mirrors o) : ∀ a ∈ t.axes, a.reduce = .none := by
  cases t with
  | axis a =>
    cases o with
    | single n =>
      intro b mem
      rw [InputTerm.axes, List.mem_singleton] at mem
      exact mem ▸ m.1
    | group ns q => exact m.elim
  | ellipsis p => simp [InputTerm.axes]
  | group ms =>
    cases o with
    | single n => exact m.elim
    | group ns q => exact InputAxis.mirrors_plain m

/-- The members of the slot an item is written as are its axes, by name, or the ellipsis. -/
theorem InputTerm.Mirrors.members (m : t.Mirrors o) :
    ∀ n ∈ o.members, (∃ x s q, n = .axis x s q ∧ x ∈ t.names) ∨ ∃ q, n = .ellipsis q := by
  cases t with
  | axis a =>
    cases o with
    | single n =>
      obtain ⟨-, q, rfl⟩ := m
      intro n mem
      rw [OutputTerm.members, List.mem_singleton] at mem
      exact .inl ⟨_, _, _, mem, by simp [InputTerm.names]⟩
    | group ns q => exact m.elim
  | ellipsis p =>
    cases o with
    | single n =>
      obtain ⟨q, rfl⟩ := m
      intro n mem
      rw [OutputTerm.members, List.mem_singleton] at mem
      exact .inr ⟨q, mem⟩
    | group ns q => exact m.elim
  | group ms =>
    cases o with
    | single n => exact m.elim
    | group ns q =>
      intro n mem
      obtain ⟨a, aMem, -, q', rfl⟩ := exists_of_forall₂_right m n mem
      exact .inl ⟨_, _, _, rfl, List.mem_map_of_mem aMem⟩

end Mirrored

namespace PatternSyntax

variable {p : PatternSyntax} {text : String} {sizes : List (String × Int)} {e : Expression}

theorem single_of_read (h : p.read text 1 sizes = some e) : ∃ ts, p.inputs = [ts] := by
  obtain ⟨ds, -, -, inputsOk, arity, -, -, -⟩ := p.read_eq_some h
  have length := (readInputs_result sizes p.inputs inputsOk).1
  simp only [List.length_nil, Nat.zero_add] at length
  exact List.length_eq_one_iff.1 (by omega)

/-- A tree whose input side reduces nothing is read with no reductions. -/
theorem reductions_eq_nil {n : Int} (h : p.read text n sizes = some e)
    (plain : ∀ a ∈ p.inputAxes, a.reduce = .none) :
    e.reductions = [] := by
  obtain ⟨ds, -, -, inputsOk, -, -, -, rfl⟩ := p.read_eq_some h
  have labels := (readInputs_result sizes p.inputs inputsOk).2
  simp only [allAxes, List.flatMap_nil, List.map_nil, List.nil_append] at labels
  refine List.filterMap_eq_nil_iff.2 fun a mem => ?_
  have inTree : a.label ∈ p.inputTerms.flatMap InputTerm.labels := by
    rw [PatternSyntax.inputTerms, ← labels]
    exact List.mem_map_of_mem mem
  obtain ⟨t, tMem, inTerm⟩ := List.mem_flatMap.1 inTree
  have none : a.reduce = .none := by
    cases t with
    | axis b =>
      simp only [InputTerm.labels, List.mem_singleton, Axis.label, InputAxis.label, Prod.mk.injEq] at inTerm
      rw [inTerm.2]
      exact plain b (List.mem_flatMap.2 ⟨_, tMem, by simp [InputTerm.axes]⟩)
    | ellipsis q =>
      simp only [InputTerm.labels, List.mem_singleton, Axis.label, Prod.mk.injEq] at inTerm
      exact inTerm.2
    | group ms =>
      simp only [InputTerm.labels, List.mem_map, Axis.label, InputAxis.label, Prod.mk.injEq] at inTerm
      obtain ⟨b, bMem, -, reduce⟩ := inTerm
      rw [← reduce]
      exact plain b (List.mem_flatMap.2 ⟨_, tMem, by simpa [InputTerm.axes] using bMem⟩)
  simp [Axis.isReduced, none]

theorem newAxes_eq_nil (out : e.OutputHolds (p.outputMembers.map (OutputMember.item sizes e.names)))
    (kept : ∀ m ∈ p.outputMembers,
      (∃ x s q, m = .axis x s q ∧ (e.names.lookup x).isSome) ∨ ∃ q, m = .ellipsis q) :
    e.newAxes = [] := by
  rw [out.newAxes]
  refine List.filterMap_eq_nil_iff.2 fun pr mem => ?_
  obtain ⟨m, mMem, item⟩ := List.mem_map.1 (List.of_mem_zip mem).1
  rw [← item]
  rcases kept m mMem with ⟨x, s, q, rfl, found⟩ | ⟨q, rfl⟩
  · simp [OutputMember.item, found, OutputItem.newAxis?]
  · rfl

end PatternSyntax
namespace Rearrangement

variable {p q : PatternSyntax} {text text' : String} {sizes sizes' : List (String × Int)} {e e' : Expression}
  {d : Decomposition}

theorem outputUsed_perm (r : Rearrangement p text sizes e d) : p.outputUsed.Perm e.names.names :=
  r.kept ▸ r.outputs.kept

theorem reads {ts : List InputTerm} (r : Rearrangement p text sizes e d) (hp : p.inputs = [ts]) :
    List.Forall₂ (fun dim t => Dim.ReadFrom sizes d dim t) d.dims ts := by
  obtain ⟨d₁, single₁, reads₁⟩ := p.read_dims r.read hp
  rw [r.single, List.cons.injEq] at single₁
  obtain ⟨rfl, -⟩ := single₁
  exact reads₁

/-- A pattern whose tree mirrors the tree of a rearranging pattern, each side of one written as the
other side of the other, rearranges too: its input is read from the other's output side and names
what that side uses. -/
theorem mirror {ts us : List InputTerm} {toks' : List Token} (r : Rearrangement p text sizes e d)
    (hp : p.inputs = [ts]) (hq : q.inputs = [us]) (mirrored : List.Forall₂ InputTerm.Mirrors ts q.output)
    (mirrored' : List.Forall₂ InputTerm.Mirrors us p.output) (parsed' : Expression.parse text' 1 sizes' = .ok e')
    (scan' : Token.scanBody text' = .ok toks') (fits' : List.Forall₂ Token.Fits toks' q.marks) :
    ∃ d', Rearrangement q text' sizes' e' d' ∧
      List.Forall₂ (fun dim t => Dim.ReadFrom sizes' d' dim t) d'.dims us ∧
      d'.axes.map (·.name) = p.outputUsed := by
  obtain ⟨read', inputs', outputs', written'⟩ := q.holds_of_parse parsed' scan' fits'
  obtain ⟨d', single', reads'⟩ := q.read_dims read' hq
  have holds' : d'.Holds := inputs'.inputs d' (by simp [single'])
  have names' : d'.axes.map (·.name) = p.outputUsed := by
    rw [← holds'.cover, names_of_read sizes' reads', ← mirrors_used mirrored', PatternSyntax.outputUsed_eq]
  have noReductions' : e'.reductions = [] := q.reductions_eq_nil read' fun a mem => by
    rw [PatternSyntax.inputAxes, PatternSyntax.inputTerms, hq, List.flatten_singleton] at mem
    obtain ⟨t, tMem, inT⟩ := List.mem_flatMap.1 mem
    obtain ⟨o, -, m⟩ := exists_of_forall₂_left mirrored' t tMem
    exact m.plain a inT
  have table' : e'.names.names = p.outputUsed := by
    rw [inputs'.names_of_noReductions noReductions', single']
    simpa [allAxes] using names'
  -- the output side of `q` names what the input side of `p` names, which the output side of `p` uses
  have used : ∀ x ∈ ts.flatMap InputTerm.names, x ∈ p.outputUsed := by
    rw [← names_of_read sizes (r.reads hp), r.holds.cover, ← r.names]
    exact fun x mem => r.outputUsed_perm.symm.subset mem
  have noNewAxes' : e'.newAxes = [] := q.newAxes_eq_nil outputs' fun m mem => by
    obtain ⟨o, oMem, inO⟩ := List.mem_flatMap.1 mem
    obtain ⟨t, tMem, mo⟩ := exists_of_forall₂_right mirrored o oMem
    rcases mo.members m inO with ⟨x, s, q', rfl, xName⟩ | ellipsis
    · refine .inl ⟨x, s, q', rfl, ?_⟩
      have inTable : x ∈ e'.names.names := table' ▸ used x (List.mem_flatMap.2 ⟨t, tMem, xName⟩)
      simpa [NameTable.lookup, NameTable.names, lookup_isSome_iff_mem] using inTable
    · exact .inr ellipsis
  exact ⟨d', ⟨parsed', read', single', inputs', outputs', written', noReductions', noNewAxes'⟩, reads',
    names'⟩

/-- The members of the groups of a rearranging input whose names all have sizes given by the caller
are named axes of those sizes. -/
theorem known_groups {us : List InputTerm} (r : Rearrangement p text sizes e d)
    (reads : List.Forall₂ (fun dim t => Dim.ReadFrom sizes d dim t) d.dims us) (f : Label → Int)
    (given : ∀ x ∈ d.axes.map (·.name), x ≠ ellipsisName →
      0 < f (.axis x) ∧ sizes.lookup x = some (f (.axis x))) :
    ∀ dim ∈ d.dims, dim.parenthesized = true →
      ∀ a ∈ d.dimAxes dim, a.kind = .named ∧ a.size = f (.axis a.name) := by
  intro dim mem paren a aMem
  obtain ⟨t, -, rf⟩ := exists_of_forall₂_left reads dim mem
  have inAxes : a ∈ d.axes := r.holds.cover ▸ List.mem_flatMap.2 ⟨dim, mem, aMem⟩
  have dimHolds := r.holds.dims dim mem
  generalize hms : d.dimAxes dim = ms at dimHolds aMem
  cases dimHolds with
  | ellipsis _ flat => simp [flat] at paren
  | bare _ flat => simp [flat] at paren
  | group _ _ gh =>
    have plain : a.isEllipsis = false := by
      rcases gh.member a aMem with ⟨kind, -⟩ | ⟨kind, -⟩ <;> simp [Axis.isEllipsis, kind]
    have named : a.name ≠ ellipsisName := fun same => by simp [(r.named a inAxes).2 same] at plain
    obtain ⟨pos, found⟩ := given a.name (List.mem_map_of_mem inAxes) named
    have size : a.size = f (.axis a.name) := rf.size_of_lookup paren a (hms ▸ aMem) _ found
    rcases gh.member a aMem with ⟨kind, -⟩ | ⟨-, zero, -⟩
    · exact ⟨kind, size⟩
    · omega

variable {d' : Decomposition}

theorem hasEllipsis_eq (r : Rearrangement p text sizes e d) (r' : Rearrangement q text' sizes' e' d')
    (names' : d'.axes.map (·.name) = p.outputUsed) : d'.hasEllipsis = d.hasEllipsis := by
  refine Bool.eq_iff_iff.2 ((r'.holds.hasEllipsis_iff r'.named).trans ?_)
  rw [r.holds.hasEllipsis_iff r.named, names', ← r.names]
  exact r.outputUsed_perm.mem_iff

theorem ellipsisWidth_mergeRuns (r : Rearrangement p text sizes e d) (r' : Rearrangement q text' sizes' e' d')
    (names' : d'.axes.map (·.name) = p.outputUsed) (n : Nat) (f : Label → Int) :
    d'.ellipsisWidth (mergeRuns (d.ellipsisWidth n) (d'.dims.map d'.dimShape)
      ((d'.dims.flatMap (d'.dimLabels (d.ellipsisWidth n))).map f)).length = d.ellipsisWidth n := by
  cases ell : d'.hasEllipsis
  · have ell₁ : d.hasEllipsis = false := r.hasEllipsis_eq r' names' ▸ ell
    simp [Decomposition.ellipsisWidth, ell, ell₁]
  · rw [Decomposition.ellipsisWidth, if_pos ell]
    exact width_mergeRuns r'.holds r'.one ell _

theorem names_length_eq (r : Rearrangement p text sizes e d) (r' : Rearrangement q text' sizes' e' d')
    (names' : d'.axes.map (·.name) = p.outputUsed) : e'.names.length = e.names.length := by
  have same := congrArg List.length (r'.names.trans names')
  simp only [NameTable.names, List.length_map] at same
  rw [NameTable.length, same, r.outputUsed_perm.length_eq, NameTable.names, List.length_map, NameTable.length]

end Rearrangement

end Rearrange.Pattern

namespace Rearrange.Tensor

variable {x : Tensor}

theorem Sound.prod_le (sound : x.Sound) : x.shape.dims.prod ≤ Word.maxInt64 := by
  rw [← positionCount_of_pos sound.pos, sound.count]
  exact sound.fits

theorem Sound.dim_le (sound : x.Sound) : ∀ y ∈ x.shape.dims, y ≤ Word.maxInt64 := fun y mem =>
  (show y ≤ x.shape.dims.prod by simpa using Plan.prod_le_of_sublist (List.singleton_sublist.2 mem) sound.pos).trans
    sound.prod_le

end Rearrange.Tensor

namespace Rearrange.Plan

open Pattern

variable {text : String} {s : Shape} {opts : CompileOptions} {plan : Plan}

theorem compile_parsed {shapes : List Shape} (ok : compile text shapes opts = .ok plan) :
    ∃ e, Expression.parse text shapes.length opts.axisSizes = .ok e := by
  unfold compile at ok
  obtain ⟨e, parsed, -⟩ := Except.bind_eq_ok.1 ok
  exact ⟨e, Except.mapError_eq_ok.1 parsed⟩

theorem compile_valid (ok : compile text [s] opts = .ok plan) : s.ok = true := by
  unfold compile at ok
  obtain ⟨e, -, ok⟩ := Except.bind_eq_ok.1 ok
  have assembled := Except.mapError_eq_ok.1 ok
  unfold assemble at assembled
  obtain ⟨dtype, typed, -⟩ := Except.bind_eq_ok.1 assembled
  exact (checkDTypes_single typed).1

theorem lookup_namedSizes (x : String) : ∀ lay : List (Label × Int),
    (Assembly.namedSizes lay).lookup x = lay.lookup (.axis x)
  | [] => rfl
  | (l, k) :: lay => by
    have ih := lookup_namedSizes x lay
    simp only [Assembly.namedSizes] at ih ⊢
    cases l with
    | axis y =>
      by_cases same : x = y
      · simp [List.lookup, same]
      · have names : (x == y) = false := by simpa using same
        have labels : (Label.axis x == Label.axis y) = false := by simpa using same
        simp [List.lookup, names, labels, ih]
    | ellipsis j =>
      have labels : (Label.axis x == Label.ellipsis j) = false := by simp
      simp [List.lookup, labels, ih]
    | fresh j =>
      have labels : (Label.axis x == Label.fresh j) = false := by simp
      simp [List.lookup, labels, ih]


/-- The sizes a plan records for the names of a layout with positive sizes are the layout's. -/
theorem lookup_axisSizes {plan : Plan} {lay : List (Label × Int)}
    (sizes : ∀ x, (plan.axisSizes.lookup x).getD 0 = ((Assembly.namedSizes lay).lookup x).getD 0) {x : String}
    (pos : 0 < sizeIn lay (.axis x)) : plan.axisSizes.lookup x = some (sizeIn lay (.axis x)) := by
  have same := sizes x
  rw [lookup_namedSizes] at same
  cases found : plan.axisSizes.lookup x with
  | none =>
    simp only [found, Option.getD_none] at same
    rw [sizeIn, ← same] at pos
    exact absurd pos (lt_irrefl 0)
  | some g =>
    simp only [found, Option.getD_some] at same
    rw [same, sizeIn]

theorem Rearranges.output_prod {lay : List (Label × Int)} {out : List Label} {merged : List Int}
    (there : Rearranges plan s lay out merged) (pos : ∀ y ∈ s.dims, 0 < y) :
    plan.output.dims.prod = s.dims.prod := by
  rw [there.output]
  dsimp only
  rw [← positionCount_of_pos there.merged_pos, ← positionCount_of_pos pos, there.merged_count, there.count]

section Reversal

variable {p q : PatternSyntax} {text' : String} {e e' : Expression} {d d' : Decomposition}
  {ts us : List InputTerm} {x : Tensor} {plan' : Plan}

/-- A rearranging pattern's plan, followed by the plan of a pattern whose tree mirrors it, compiled
for the first plan's output with the sizes that plan records, returns the array it started from. -/
theorem undone_by_mirror (r : Rearrangement p text opts.axisSizes e d) (hp : p.inputs = [ts])
    (mirrored : List.Forall₂ InputTerm.Mirrors ts q.output) (r' : Rearrangement q text' plan.axisSizes e' d')
    (reads' : List.Forall₂ (fun dim t => Dim.ReadFrom plan.axisSizes d' dim t) d'.dims us)
    (mirrored' : List.Forall₂ InputTerm.Mirrors us p.output) (names' : d'.axes.map (·.name) = p.outputUsed)
    (sound : x.Sound) (wide : (e.names.length + x.shape.rank : Int) ≤ Word.maxInt64)
    (compiled : compile text [x.shape] opts = .ok plan)
    (back : compile text' [plan.output] { axisSizes := plan.axisSizes } = .ok plan') :
    ∃ y z, plan.apply Tensor.backend [x] = .ok y ∧ plan'.apply Tensor.backend [y] = .ok z ∧
      z.shape = x.shape ∧ z.flat = x.flat := by
  have wide₁ : (e.names.length + d.ellipsisWidth x.shape.rank : Int) ≤ Word.maxInt64 := by
    have := d.ellipsisWidth_le x.shape.rank
    omega
  obtain ⟨fits, there, sizes⟩ := compile_rearranges r compiled sound.pos sound.prod_le wide₁
  set w := d.ellipsisWidth x.shape.rank with hw
  set lay := d.layout x.shape with hlay
  set out := p.outputUsed.flatMap (Label.ofName w) with hout
  have width : d.hasEllipsis = true → w = d.width x.shape.rank := fun ell => by
    simp [hw, Decomposition.ellipsisWidth, ell]
  have reads := r.reads hp
  have output := there.output
  have shapes' : p.output.map OutputTerm.shape = d'.dims.map d'.dimShape :=
    (dimShapes_of_mirrors _ reads' mirrored').symm
  have labels' : out = d'.dims.flatMap (d'.dimLabels w) := by
    rw [r'.holds.flatMap_dimLabels r'.named, names']
  rw [shapes', labels'] at output
  have width' : d'.ellipsisWidth plan.output.rank = w := by
    rw [output, Shape.rank]
    exact r.ellipsisWidth_mergeRuns r' names' _ _
  have known := r'.known_groups reads' (sizeIn lay) fun y mem named => by
    have label : Label.axis y ∈ lay.map Prod.fst := by
      refine there.perm.subset (List.mem_flatMap.2 ⟨y, names' ▸ mem, ?_⟩)
      simp [Label.ofName, named]
    have pos := sizeIn_pos label there.pos
    exact ⟨pos, lookup_axisSizes sizes pos⟩
  -- so the second plan splits the output back into the layout and puts it in the first order
  have pos' : ∀ y ∈ plan.output.dims, 0 < y := by
    rw [there.output]
    exact there.merged_pos
  have small' : plan.output.dims.prod ≤ Word.maxInt64 := (there.output_prod sound.pos).trans_le sound.prod_le
  have wide' : (e'.names.length + d'.ellipsisWidth plan.output.rank : Int) ≤ Word.maxInt64 := by
    rw [width', r.names_length_eq r' names']
    exact wide₁
  obtain ⟨-, back', -⟩ := compile_rearranges r' back pos' small' wide'
  have lay' : d'.layout plan.output = out.map fun l => (l, sizeIn lay l) := by
    rw [output, layout_mergeRuns r'.holds r'.one _ known, ← labels']
  have out' : q.outputUsed.flatMap (Label.ofName w) = lay.map Prod.fst := by
    rw [PatternSyntax.outputUsed_eq, mirrors_used mirrored, ← names_of_read _ reads, r.holds.cover,
      layout_labels_names r.holds fits r.one width r.named]
  have merged' : mergeRuns w (q.output.map OutputTerm.shape)
      ((lay.map Prod.fst).map (sizeIn (out.map fun l => (l, sizeIn lay l)))) = x.shape.dims := by
    have restored : (lay.map Prod.fst).map (sizeIn (out.map fun l => (l, sizeIn lay l))) = lay.map Prod.snd := by
      rw [← map_sizeIn there.distinct]
      refine List.map_congr_left fun l mem => ?_
      simp [sizeIn, List.lookup_graph _ (there.perm.symm.subset mem)]
    rw [restored, dimShapes_of_mirrors _ reads mirrored |>.symm,
      mergeRuns_layout r.holds fits r.one width sound.dim_le]
  rw [width', lay', out', merged', there.output] at back'
  exact there.undo back' sound (compile_valid compiled)

/-- Reversing a pattern that only rearranges its input undoes it: the plan of `L -> R`, followed by
the plan of `R -> L` compiled for its output with the sizes it records, returns the array it started
from. This holds for every sound array the first plan accepts whose rank, with the number of names
of the pattern, fits a signed word. -/
theorem reversed_pattern_undoes {lhs rhs : String}
    (parsed : Expression.parse (lhs ++ " -> " ++ rhs) 1 opts.axisSizes = .ok e)
    (noReductions : e.reductions = []) (noNewAxes : e.newAxes = []) (sound : x.Sound)
    (wide : (e.names.length + x.shape.rank : Int) ≤ Word.maxInt64)
    (compiled : compile (lhs ++ " -> " ++ rhs) [x.shape] opts = .ok plan)
    (back : compile (rhs ++ " -> " ++ lhs) [plan.output] { axisSizes := plan.axisSizes } = .ok plan') :
    ∃ y z, plan.apply Tensor.backend [x] = .ok y ∧ plan'.apply Tensor.backend [y] = .ok z ∧
      z.shape = x.shape ∧ z.flat = x.flat := by
  obtain ⟨toks, scan, p, fits⟩ := fits_of_parse parsed
  obtain ⟨d, r⟩ := Rearrangement.of_parse parsed scan fits noReductions noNewAxes
  obtain ⟨e', parsed'⟩ := compile_parsed back
  rw [List.length_singleton, Nat.cast_one] at parsed'
  obtain ⟨toks', scan', q, fits'⟩ := fits_of_parse parsed'
  obtain ⟨ts, hp⟩ := p.single_of_read r.read
  obtain ⟨us, hq⟩ := q.single_of_read (q.holds_of_parse parsed' scan' fits').1
  obtain ⟨mirrored, mirrored'⟩ := PatternSyntax.mirrors_of_reversed scan fits scan' fits' hp hq
  obtain ⟨d', r', reads', names'⟩ := r.mirror hp hq mirrored mirrored' parsed' scan' fits'
  exact undone_by_mirror r hp mirrored r' reads' mirrored' names' sound wide compiled back

/-- Splitting the rows of a `6 × 2` array as `2 × 3` and putting the columns first, then compiling
the reversed pattern for the result, gives back the array. -/
theorem reversed_rows_restored :
    let x : Tensor := ⟨⟨.float32, [6, 2]⟩, #[0, 1, 2, 3, 4, 5, 6, 7, 8, 9, 10, 11], 0⟩
    ∃ e plan plan', Expression.parse ("(h w) c" ++ " -> " ++ "c h w") 1 [("h", 2)] = .ok e ∧
      e.reductions = [] ∧ e.newAxes = [] ∧ x.Sound ∧ (e.names.length + x.shape.rank : Int) ≤ Word.maxInt64 ∧
      compile ("(h w) c" ++ " -> " ++ "c h w") [x.shape] { axisSizes := [("h", 2)] } = .ok plan ∧
      compile ("c h w" ++ " -> " ++ "(h w) c") [plan.output] { axisSizes := plan.axisSizes } = .ok plan' ∧
      ∃ y z, plan.apply Tensor.backend [x] = .ok y ∧ plan'.apply Tensor.backend [y] = .ok z ∧
        z.shape = x.shape ∧ z.flat = x.flat := by
  intro x
  have sound : x.Sound := ⟨by decide, by decide, by simp [x, Word.maxInt64]⟩
  have read : ((Expression.parse ("(h w) c" ++ " -> " ++ "c h w") 1 [("h", 2)]).toOption.map fun e =>
      e.reductions.isEmpty && e.newAxes.isEmpty && decide (e.names.length = 3)) = some true := by
    cbv
  have both : ((compile ("(h w) c" ++ " -> " ++ "c h w") [x.shape] { axisSizes := [("h", 2)] }).bind fun plan =>
      compile ("c h w" ++ " -> " ++ "(h w) c") [plan.output] { axisSizes := plan.axisSizes }).toBool = true := by
    set_option maxRecDepth 20000 in cbv
  cases parsed : Expression.parse ("(h w) c" ++ " -> " ++ "c h w") 1 [("h", 2)] with
  | error f =>
    rw [parsed] at read
    cases read
  | ok e =>
  rw [parsed] at read
  simp only [Except.toOption, Option.map_some, Option.some.injEq, Bool.and_eq_true, List.isEmpty_iff,
    decide_eq_true_eq] at read
  obtain ⟨⟨noReductions, noNewAxes⟩, three⟩ := read
  have wide : (e.names.length + x.shape.rank : Int) ≤ Word.maxInt64 := by
    simp [three, x, Shape.rank, Word.maxInt64]
  cases compiled : compile ("(h w) c" ++ " -> " ++ "c h w") [x.shape] { axisSizes := [("h", 2)] } with
  | error f =>
    rw [compiled] at both
    cases both
  | ok plan =>
  rw [compiled] at both
  cases back : compile ("c h w" ++ " -> " ++ "(h w) c") [plan.output] { axisSizes := plan.axisSizes } with
  | error f =>
    simp only [Except.bind] at both
    rw [back] at both
    cases both
  | ok plan' =>
  exact ⟨e, plan, plan', rfl, noReductions, noNewAxes, sound, wide, rfl, back,
    reversed_pattern_undoes parsed noReductions noNewAxes sound wide compiled back⟩

end Reversal

end Rearrange.Plan

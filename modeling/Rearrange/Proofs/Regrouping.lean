import Rearrange.Proofs.OutputLayout
/-!
# Splitting and merging by the same groups

Each dimension of an input's decomposition stands for a run of axes that a merge would read as
an output slot (`Decomposition.dimShape`): a group, an axis alone, or the ellipsis. Splitting and
merging by the same dimension undo each other:

* merging the layout of a dimension that fits its input dimensions gives them back
  (`mergeRuns_dimLayout`), since the members of a group take sizes that multiply to its dimension;
* splitting the merge of the sizes of a dimension's labels lays out those labels with their sizes
  (`dimLayout_mergeRuns`), when every member of a group has its size known and taken from the
  same sizes.

Either way the layout is labelled by the dimension's axes in order, the ellipsis expanded
(`Decomposition.dimLabels`, `dimLayout_labels`).
-/
namespace Rearrange.Pattern

open Plan

namespace Decomposition

variable (d : Decomposition)

/-- What a merge sees of a dimension read as an output slot: whether it is a group, and which of
its axes is the ellipsis. -/
def dimShape (dim : Dim) : Bool × List Bool :=
  (dim.parenthesized, (d.dimAxes dim).map fun _ => dim.ellipsis)

/-- The labels of the axes a dimension stands for, the ellipsis matching `w` axes. -/
def dimLabels (w : Nat) (dim : Dim) : List Label :=
  if dim.ellipsis then (List.range w).map .ellipsis else (d.dimAxes dim).map fun a => .axis a.name

/-- The number of axes the ellipsis matches in an input of rank `r`, none without an ellipsis:
the width a plan works with once the input is split. -/
def ellipsisWidth (r : Nat) : Nat := if d.hasEllipsis then d.width r else 0

end Decomposition

section Runs

variable {w : Nat}

theorem mergeRuns_cons_append {g : Bool × List Bool} {gs : List (Bool × List Bool)} {X Y : List Int}
    (len : X.length = (g.2.map (spanOf w)).sum) :
    mergeRuns w (g :: gs) (X ++ Y) = mergeRuns w [g] X ++ mergeRuns w gs Y := by
  obtain ⟨group, members⟩ := g
  simp only [mergeRuns, List.append_nil, ← len, List.take_left, List.drop_left, List.take_length]

theorem prod_mergeRuns : ∀ (gs : List (Bool × List Bool)) (D : List Int),
    (mergeRuns w gs D).prod = (D.take (runsLength w gs)).prod
  | [], D => by simp [mergeRuns, runsLength]
  | (group, members) :: gs, D => by
    have length : runsLength w ((group, members) :: gs) = (members.map (spanOf w)).sum + runsLength w gs := by
      simp [runsLength]
    rw [mergeRuns, List.prod_append, prod_mergeRuns gs, length, List.take_add, List.prod_append]
    cases group <;> simp

theorem mergeRuns_pos : ∀ (gs : List (Bool × List Bool)) (D : List Int), (∀ d ∈ D, 0 < d) →
    ∀ d ∈ mergeRuns w gs D, 0 < d
  | [], _, _ => by simp [mergeRuns]
  | (group, members) :: gs, D, pos => by
    have taken : ∀ d ∈ D.take (members.map (spanOf w)).sum, 0 < d :=
      fun d mem => pos d (List.mem_of_mem_take mem)
    have rest := mergeRuns_pos gs (D.drop (members.map (spanOf w)).sum) fun d mem =>
      pos d (List.mem_of_mem_drop mem)
    intro d mem
    simp only [mergeRuns, List.mem_append] at mem
    rcases mem with here | later
    · cases group
      · exact taken d (by simpa using here)
      · simp only [if_true, List.mem_singleton] at here
        exact here ▸ List.prod_pos taken
    · exact rest d later

end Runs

section Dims

variable (d : Decomposition) {w : Nat} {dim : Dim}

theorem dimShape_spans (holds : Dim.Holds dim (d.dimAxes dim)) :
    ((d.dimShape dim).2.map (spanOf w)).sum = (d.dimLabels w dim).length := by
  generalize hms : d.dimAxes dim = ms at holds
  cases holds with
  | ellipsis ell => simp [Decomposition.dimShape, Decomposition.dimLabels, hms, ell, spanOf]
  | bare ell => simp [Decomposition.dimShape, Decomposition.dimLabels, hms, ell, spanOf]
  | group ell => simp [Decomposition.dimShape, Decomposition.dimLabels, hms, ell, spanOf]

/-- The layout of a dimension is labelled by its axes, the ellipsis by the input dimensions it
covers. -/
theorem dimLayout_labels (holds : Dim.Holds dim (d.dimAxes dim)) {ys : List Int}
    (len : ys.length = spanOf w dim.ellipsis) :
    (d.dimLayout dim ys).map Prod.fst = d.dimLabels w dim := by
  generalize hms : d.dimAxes dim = ms at holds
  cases holds with
  | ellipsis ell =>
    simp only [spanOf, ell, if_true] at len
    refine List.ext_getElem (by simp [Decomposition.dimLayout, Decomposition.dimLabels, ell, len])
      fun k h₁ _ => ?_
    simp [Decomposition.dimLayout, Decomposition.dimLabels, ell]
  | bare ell paren => simp [Decomposition.dimLayout, Decomposition.dimLabels, hms, ell, paren]
  | group ell paren => simp [Decomposition.dimLayout, Decomposition.dimLabels, hms, ell, paren]

theorem dimLayout_length (holds : Dim.Holds dim (d.dimAxes dim)) {ys : List Int}
    (len : ys.length = spanOf w dim.ellipsis) :
    ((d.dimLayout dim ys).map Prod.snd).length = ((d.dimShape dim).2.map (spanOf w)).sum := by
  rw [dimShape_spans d holds, ← dimLayout_labels d holds len]
  simp

/-- The axes of a dimension that fits positive input dimensions take positive sizes. -/
theorem dimLayout_pos (holds : Dim.Holds dim (d.dimAxes dim)) {ys : List Int}
    (len : ys.length = spanOf w dim.ellipsis) (fits : d.DimFits dim ys) (pos : ∀ y ∈ ys, 0 < y) :
    ∀ k ∈ (d.dimLayout dim ys).map Prod.snd, 0 < k := by
  generalize hms : d.dimAxes dim = ms at holds
  cases holds with
  | ellipsis ell => simpa [Decomposition.dimLayout, ell, Function.comp_def] using pos
  | bare ell paren =>
    obtain ⟨y, rfl⟩ := List.length_eq_one_iff.1 (by simpa [spanOf, ell] using len)
    simpa [Decomposition.dimLayout, hms, ell, paren] using pos
  | group ell paren gh =>
    obtain ⟨y, rfl⟩ := List.length_eq_one_iff.1 (by simpa [spanOf, ell] using len)
    have positive : 0 < y := pos y List.mem_cons_self
    -- a derived member needs the named ones to divide the dimension
    have divides : ∀ m ∈ ms, m.kind = .derived → m.siblingsSize ∣ y := by
      intro m mem derived
      have hasDerived : ms.any (·.kind = .derived) = true := List.any_eq_true.2 ⟨m, mem, by simp [derived]⟩
      have fit := fits ell
      simp only [paren, if_true, hms, hasDerived, List.headD_cons] at fit
      rcases gh.member m mem with ⟨named, -⟩ | ⟨-, -, sib⟩
      · simp [named] at derived
      · exact sib ▸ fit
    intro k mem
    simp only [Decomposition.dimLayout, ell, paren, hms, Bool.false_eq_true, if_false, if_true,
      List.map_map, List.mem_map, Function.comp_apply, List.headD_cons] at mem
    obtain ⟨m, inMs, rfl⟩ := mem
    have member : (m.kind = .named ∧ 0 < m.size) ∨ (m.kind = .derived ∧ 0 < m.siblingsSize) := by
      rcases gh.member m inMs with named | ⟨derived, -, sib⟩
      · exact .inl named
      · exact .inr ⟨derived, sib ▸ Assembly.namedProduct_pos gh⟩
    exact Assembly.memberSize_pos positive member (divides m inMs)

/-- Merging the layout of a dimension that fits its input dimensions gives them back. -/
theorem mergeRuns_dimLayout (holds : Dim.Holds dim (d.dimAxes dim)) {ys : List Int}
    (len : ys.length = spanOf w dim.ellipsis) (fits : d.DimFits dim ys)
    (small : ∀ y ∈ ys, y ≤ Word.maxInt64) :
    mergeRuns w [d.dimShape dim] ((d.dimLayout dim ys).map Prod.snd) = ys := by
  generalize hms : d.dimAxes dim = ms at holds
  cases holds with
  | ellipsis ell paren =>
    simp only [spanOf, ell, if_true] at len
    simp [mergeRuns, Decomposition.dimShape, Decomposition.dimLayout, hms, ell, paren, spanOf,
      Function.comp_def, ← len]
  | bare ell paren =>
    obtain ⟨y, rfl⟩ := List.length_eq_one_iff.1 (by simpa [spanOf, ell] using len)
    simp [mergeRuns, Decomposition.dimShape, Decomposition.dimLayout, hms, ell, paren, spanOf]
  | group ell paren gh =>
    obtain ⟨y, rfl⟩ := List.length_eq_one_iff.1 (by simpa [spanOf, ell] using len)
    have fit := fits ell
    simp only [paren, if_true, hms, List.headD_cons] at fit
    have whole := ((Assembly.groupFits_iff gh (small y List.mem_cons_self)).2 fit).2
    simp only [mergeRuns, Decomposition.dimShape, Decomposition.dimLayout, hms, ell, paren,
      Bool.false_eq_true, if_false, if_true, List.headD_cons, List.map_map]
    simp only [spanOf, Function.comp_def, List.map_const', List.sum_replicate, smul_eq_mul, mul_one,
      Bool.false_eq_true, if_false]
    rw [List.take_of_length_le (by simp)]
    simpa using whole

/-- Splitting the merge of the sizes of a dimension's labels lays the labels out with their sizes,
when the members of a group have their sizes known and taken from the same sizes. -/
theorem dimLayout_mergeRuns (holds : Dim.Holds dim (d.dimAxes dim)) (f : Label → Int)
    (known : dim.parenthesized = true → ∀ a ∈ d.dimAxes dim, a.kind = .named ∧ a.size = f (.axis a.name)) :
    d.dimLayout dim (mergeRuns w [d.dimShape dim] ((d.dimLabels w dim).map f)) =
      (d.dimLabels w dim).map fun l => (l, f l) := by
  generalize hms : d.dimAxes dim = ms at holds known
  cases holds with
  | ellipsis ell paren =>
    have merged : mergeRuns w [d.dimShape dim] ((d.dimLabels w dim).map f) =
        (List.range w).map fun k => f (.ellipsis k) := by
      simp [mergeRuns, Decomposition.dimShape, Decomposition.dimLabels, hms, ell, paren, spanOf,
        List.take_of_length_le, Function.comp_def]
    rw [merged]
    refine List.ext_getElem (by simp [Decomposition.dimLayout, Decomposition.dimLabels, ell])
      fun k h₁ _ => ?_
    simp [Decomposition.dimLayout, Decomposition.dimLabels, ell]
  | bare ell paren =>
    simp [mergeRuns, Decomposition.dimShape, Decomposition.dimLabels, Decomposition.dimLayout, hms,
      ell, paren, spanOf]
  | group ell paren gh =>
    simp only [mergeRuns, Decomposition.dimShape, Decomposition.dimLabels, Decomposition.dimLayout,
      hms, ell, paren, Bool.false_eq_true, if_false, if_true, List.headD_cons, List.map_map,
      List.append_nil]
    refine List.map_congr_left fun a mem => ?_
    obtain ⟨named, size⟩ := known paren a mem
    simp [memberSize, named, size]

end Dims

section Layout

variable {d : Decomposition} {s : Shape} {w : Nat}

/-- The pieces cut for dimensions that span no more than the list holds have the lengths the
dimensions span. -/
theorem length_of_mem_cutDims (w : Nat) : ∀ (ds : List Dim) (xs : List Int),
    (ds.map fun dim => spanOf w dim.ellipsis).sum ≤ xs.length →
    ∀ p ∈ ds.zip (cutDims w ds xs), p.2.length = spanOf w p.1.ellipsis
  | [], _, _ => by simp [cutDims]
  | dim :: ds, xs, within => by
    simp only [List.map_cons, List.sum_cons] at within
    intro p mem
    simp only [cutDims, List.zip_cons_cons, List.mem_cons] at mem
    rcases mem with rfl | later
    · simp only [List.length_take]
      omega
    · exact length_of_mem_cutDims w ds _ (by simp only [List.length_drop]; omega) p later

theorem flatten_cutDims (w : Nat) : ∀ (ds : List Dim) (xs : List Int),
    (cutDims w ds xs).flatten = xs.take (ds.map fun dim => spanOf w dim.ellipsis).sum
  | [], _ => by simp [cutDims]
  | dim :: ds, xs => by
    rw [cutDims, List.flatten_cons, flatten_cutDims w ds, List.map_cons, List.sum_cons, List.take_add]

theorem Decomposition.hasEllipsis_iff_countP : d.hasEllipsis = true ↔ 0 < d.dims.countP (·.ellipsis) := by
  rw [Decomposition.hasEllipsis, List.any_eq_true, List.countP_pos_iff]

/-- An input whose rank its dimensions allow, with the ellipsis at most once, spans all of its
dimensions. -/
theorem Decomposition.covered_of_rank
    (rank : if d.hasEllipsis then d.dims.length ≤ s.rank + 1 else s.rank = d.dims.length)
    (one : d.dims.countP (·.ellipsis) ≤ 1) :
    (d.dims.map fun dim => spanOf (d.width s.rank) dim.ellipsis).sum = s.dims.length := by
  have count : d.dims.countP (·.ellipsis) + d.dims.countP (!·.ellipsis) = d.dims.length := by
    rw [List.length_eq_countP_add_countP (fun dim : Dim => dim.ellipsis)]
    simp
  rw [Assembly.sum_spanOf]
  unfold Decomposition.width
  cases ell : d.hasEllipsis
  · have none : d.dims.countP (·.ellipsis) = 0 := by
      by_contra h
      rw [Decomposition.hasEllipsis_iff_countP.2 (by omega)] at ell
      cases ell
    simp only [ell, Bool.false_eq_true, if_false, Shape.rank] at rank
    rw [none]
    omega
  · have once : d.dims.countP (·.ellipsis) = 1 := by
      have := Decomposition.hasEllipsis_iff_countP.1 ell
      omega
    simp only [ell, if_true, Shape.rank] at rank ⊢
    rw [once]
    omega

theorem Decomposition.Fits.covered (fits : d.Fits s) (one : d.dims.countP (·.ellipsis) ≤ 1) :
    (d.dims.map fun dim => spanOf (d.width s.rank) dim.ellipsis).sum = s.dims.length :=
  Decomposition.covered_of_rank fits.rank one

/-- The labels of a dimension are those of its axes' names, when the axis called `..` is the
ellipsis. -/
theorem dimLabels_eq_ofName {dim : Dim} (holds : Dim.Holds dim (d.dimAxes dim))
    (names : ∀ a ∈ d.dimAxes dim, a.isEllipsis = true ↔ a.name = ellipsisName) :
    d.dimLabels w dim = ((d.dimAxes dim).map (·.name)).flatMap (Label.ofName w) := by
  generalize hms : d.dimAxes dim = ms at holds names
  cases holds with
  | @ellipsis a ell paren kind =>
    have named : a.name = ellipsisName := (names a List.mem_cons_self).1 (by simp [Axis.isEllipsis, kind])
    simp [Decomposition.dimLabels, ell, Label.ofName, named]
  | @bare a ell paren kind =>
    have named : a.name ≠ ellipsisName := fun h => by
      simpa [Axis.isEllipsis, kind] using (names a List.mem_cons_self).2 h
    simp [Decomposition.dimLabels, hms, ell, Label.ofName, named]
  | group ell paren gh =>
    have single : ∀ a ∈ ms, Label.ofName w a.name = [.axis a.name] := by
      intro a mem
      have notEll : a.isEllipsis = false := by
        rcases gh.member a mem with ⟨named, -⟩ | ⟨derived, -⟩ <;> simp [Axis.isEllipsis, *]
      have named : a.name ≠ ellipsisName := fun h => by simp [(names a mem).2 h] at notEll
      simp [Label.ofName, named]
    rw [Decomposition.dimLabels, hms, if_neg (by simp [ell]), List.flatMap_map,
      List.flatMap_congr single, List.map_eq_flatMap]

theorem Decomposition.Holds.flatMap_dimLabels (holds : d.Holds)
    (named : ∀ a ∈ d.axes, a.isEllipsis = true ↔ a.name = ellipsisName) (w : Nat) :
    d.dims.flatMap (d.dimLabels w) = (d.axes.map (·.name)).flatMap (Label.ofName w) := by
  rw [← holds.cover, List.map_flatMap, List.flatMap_assoc]
  refine List.flatMap_congr fun dim mem => dimLabels_eq_ofName (holds.dims dim mem) fun a inDim => ?_
  exact named a (holds.cover ▸ List.mem_flatMap.2 ⟨dim, mem, inDim⟩)

section Fitting

variable (holds : d.Holds) (fits : d.Fits s) (one : d.dims.countP (·.ellipsis) ≤ 1)
  (width : d.hasEllipsis = true → w = d.width s.rank)

include fits one in
theorem length_of_mem_cover {p : Dim × List Int} (mem : p ∈ d.cover s) :
    p.2.length = spanOf (d.width s.rank) p.1.ellipsis :=
  length_of_mem_cutDims _ d.dims s.dims (fits.covered one).le p mem

include fits one in
theorem flatten_cover : ((d.cover s).map Prod.snd).flatten = s.dims := by
  rw [Decomposition.cover, List.map_snd_zip (by simp [Assembly.cutDims_length]), flatten_cutDims,
    fits.covered one, List.take_length]

include width in
theorem spanOf_width {dim : Dim} (mem : dim ∈ d.dims) :
    spanOf (d.width s.rank) dim.ellipsis = spanOf w dim.ellipsis := by
  cases ell : dim.ellipsis
  · rfl
  · rw [width (List.any_eq_true.2 ⟨dim, mem, ell⟩)]

include width in
theorem dimLabels_width {dim : Dim} (mem : dim ∈ d.dims) :
    d.dimLabels (d.width s.rank) dim = d.dimLabels w dim := by
  cases ell : dim.ellipsis
  · simp [Decomposition.dimLabels, ell]
  · rw [width (List.any_eq_true.2 ⟨dim, mem, ell⟩)]

include holds one width in
theorem layout_labels_of_rank
    (rank : if d.hasEllipsis then d.dims.length ≤ s.rank + 1 else s.rank = d.dims.length) :
    (d.layout s).map Prod.fst = d.dims.flatMap (d.dimLabels w) := by
  rw [Decomposition.layout, List.map_flatMap, ← Assembly.map_fst_cover d s, List.flatMap_map]
  refine List.flatMap_congr fun p mem => ?_
  have dimMem : p.1 ∈ d.dims := Assembly.map_fst_cover d s ▸ List.mem_map_of_mem mem
  rw [dimLayout_labels d (holds.dims p.1 dimMem)
      (length_of_mem_cutDims _ d.dims s.dims (d.covered_of_rank rank one).le p mem),
    dimLabels_width width dimMem]

include holds fits one width in
theorem layout_labels : (d.layout s).map Prod.fst = d.dims.flatMap (d.dimLabels w) :=
  layout_labels_of_rank holds one width fits.rank

include holds fits one width in
/-- Merging the layout of an input that fits its shape by its own dimensions gives the shape
back. -/
theorem mergeRuns_layout (small : ∀ y ∈ s.dims, y ≤ Word.maxInt64) :
    mergeRuns w (d.dims.map d.dimShape) ((d.layout s).map Prod.snd) = s.dims := by
  have pieces : ∀ ps : List (Dim × List Int), (∀ p ∈ ps, p ∈ d.cover s) →
      mergeRuns w (ps.map fun p => d.dimShape p.1) ((ps.flatMap fun p => d.dimLayout p.1 p.2).map Prod.snd) =
        (ps.map Prod.snd).flatten := by
    intro ps
    induction ps with
    | nil => intro _; rfl
    | cons p ps ih =>
      intro within
      have mem := within p List.mem_cons_self
      have dimMem : p.1 ∈ d.dims := Assembly.map_fst_cover d s ▸ List.mem_map_of_mem mem
      have len : p.2.length = spanOf w p.1.ellipsis :=
        (length_of_mem_cover fits one mem).trans (spanOf_width width dimMem)
      have dimHolds := holds.dims p.1 dimMem
      have pieceSmall : ∀ y ∈ p.2, y ≤ Word.maxInt64 := fun y hy =>
        small y (flatten_cover fits one ▸ List.mem_flatten.2 ⟨p.2, List.mem_map_of_mem mem, hy⟩)
      rw [List.map_cons, List.flatMap_cons, List.map_append,
        mergeRuns_cons_append (dimLayout_length d dimHolds len),
        mergeRuns_dimLayout d dimHolds len (fits.dims p mem) pieceSmall,
        ih fun q hq => within q (List.mem_cons_of_mem p hq)]
      rfl
  have all := pieces (d.cover s) fun _ h => h
  rw [flatten_cover fits one] at all
  rw [← Assembly.map_fst_cover d s, List.map_map, Decomposition.layout]
  exact all

include holds fits one width in
theorem length_layout : ((d.layout s).map Prod.snd).length = runsLength w (d.dims.map d.dimShape) := by
  have same : ((d.layout s).map Prod.snd).length = ((d.layout s).map Prod.fst).length := by simp
  rw [same, layout_labels holds fits one width, List.length_flatMap, runsLength, List.map_map]
  exact congrArg List.sum (List.map_congr_left fun dim mem => (dimShape_spans d (holds.dims dim mem)).symm)

include holds fits one width in
theorem prod_layout (small : ∀ y ∈ s.dims, y ≤ Word.maxInt64) :
    ((d.layout s).map Prod.snd).prod = s.dims.prod := by
  conv => rhs; rw [← mergeRuns_layout holds fits one width small]
  rw [prod_mergeRuns, ← length_layout holds fits one width, List.take_length]

include holds fits one width in
theorem layout_noGroups (small : ∀ y ∈ s.dims, y ≤ Word.maxInt64) (none : d.hasGroups = false) :
    (d.layout s).map Prod.snd = s.dims := by
  have singles : ∀ g ∈ d.dims.map d.dimShape, g.1 = false := by
    intro g mem
    obtain ⟨dim, dimMem, rfl⟩ := List.mem_map.1 mem
    simpa [Decomposition.dimShape] using List.any_eq_false.1 none dim dimMem
  have merged := mergeRuns_layout holds fits one width small
  rwa [mergeRuns_of_singles w _ singles, ← length_layout holds fits one width, List.take_length] at merged

include holds fits one in
theorem layout_pos (pos : ∀ y ∈ s.dims, 0 < y) : ∀ k ∈ (d.layout s).map Prod.snd, 0 < k := by
  intro k mem
  rw [Decomposition.layout, List.map_flatMap, List.mem_flatMap] at mem
  obtain ⟨p, inCover, inPiece⟩ := mem
  have dimMem : p.1 ∈ d.dims := Assembly.map_fst_cover d s ▸ List.mem_map_of_mem inCover
  exact dimLayout_pos d (holds.dims p.1 dimMem) (length_of_mem_cover fits one inCover)
    (fits.dims p inCover)
    (fun y hy => pos y (flatten_cover fits one ▸ List.mem_flatten.2 ⟨p.2, List.mem_map_of_mem inCover, hy⟩))
    k inPiece


include holds one width in
theorem layout_labels_names_of_rank
    (rank : if d.hasEllipsis then d.dims.length ≤ s.rank + 1 else s.rank = d.dims.length)
    (names : ∀ a ∈ d.axes, a.isEllipsis = true ↔ a.name = ellipsisName) :
    (d.layout s).map Prod.fst = (d.axes.map (·.name)).flatMap (Label.ofName w) := by
  rw [layout_labels_of_rank holds one width rank]
  exact holds.flatMap_dimLabels names w

include holds fits one width in
theorem layout_labels_names (names : ∀ a ∈ d.axes, a.isEllipsis = true ↔ a.name = ellipsisName) :
    (d.layout s).map Prod.fst = (d.axes.map (·.name)).flatMap (Label.ofName w) :=
  layout_labels_names_of_rank holds one width fits.rank names

end Fitting

end Layout

end Rearrange.Pattern

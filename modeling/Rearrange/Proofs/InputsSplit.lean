import Rearrange.Proofs.Split
/-!
# Splitting every input

`Assembly.split_yields` says what splitting one input does when its dimensions are positive.
Compiling splits the inputs one after the other whatever their dimensions are, and a plan may be
compiled for dimensions that are not positive. This module says what a split that succeeds does,
with no assumption on the signs of the dimensions (`split_ok`), and then what the loop over all
inputs does (`splitAll_ok`, stated as `SplitsAll`): the layouts of the inputs are appended in
order, their names get the sizes of their layouts, the one ellipsis sets the width and its
dimensions, and each input with a group is split by one step.
-/
namespace Rearrange.Plan

open Pattern

namespace Assembly

variable {i : Nat} {x : Int}

theorem namedSizes_flatMap {β : Type} (f : β → List (Label × Int)) (xs : List β) :
    namedSizes (xs.flatMap f) = xs.flatMap fun x => namedSizes (f x) :=
  List.filterMap_flatMap

theorem namedSizes_sublist {d : Decomposition} (s : Shape) (holds : d.Holds) :
    ((namedSizes (d.layout s)).map Prod.fst).Sublist (d.axes.map (·.name)) := by
  have names : (namedSizes (d.layout s)).map Prod.fst =
      d.dims.flatMap fun dim => if dim.ellipsis then [] else (d.dimAxes dim).map (·.name) := by
    rw [Decomposition.layout, namedSizes, List.filterMap_flatMap, List.map_flatMap, ← map_fst_cover d s,
      List.flatMap_map]
    exact List.flatMap_congr fun p _ => names_dimLayout d p.1 p.2
  rw [names, ← holds.cover, List.map_flatMap]
  exact List.Sublist.flatMap_right _ fun dim _ => by split <;> simp

theorem groupMember_ok {a : Assembly} {g : Int} {acc : List Int} {m : Axis} {r : Assembly × Int × List Int}
    (h : groupMember i x (a, g, acc) m = .ok r) :
    r.1 = a.setSize m.name (memberSize x m) ∧ r.2.2 = acc ++ [memberSize x m] := by
  by_cases derived : m.kind = .derived
  · have size : memberSize x m = x.tdiv m.siblingsSize := by simp [memberSize, derived]
    simp only [groupMember, derived, if_true, pure_bind, Assembly.sizeOf_setSize] at h
    split_ifs at h
    · cases h
    · cases h
    · cases h
    · split at h
      · cases h
      · cases h
        exact ⟨by rw [size], by rw [size]⟩
  · have size : memberSize x m = m.size := by simp [memberSize, derived]
    simp only [groupMember, derived, if_false, pure_bind, Assembly.sizeOf_setSize, if_true] at h
    split at h
    · cases h
    · cases h
      exact ⟨by rw [size], by rw [size]⟩

theorem foldlM_groupMember_ok : ∀ (ms : List Axis) (a : Assembly) (g : Int) (acc : List Int)
    (r : Assembly × Int × List Int), ms.foldlM (groupMember i x) (a, g, acc) = .ok r →
    r.1 = a.recordSizes (ms.map fun m => (m.name, memberSize x m)) ∧ r.2.2 = acc ++ ms.map (memberSize x)
  | [], a, g, acc, r, h => by
    cases h
    simp
  | m :: ms, a, g, acc, r, h => by
    rw [List.foldlM_cons] at h
    obtain ⟨mid, first, rest⟩ := Except.bind_eq_ok.1 h
    obtain ⟨recorded, appended⟩ := groupMember_ok first
    obtain ⟨a', g', acc'⟩ := mid
    dsimp only at recorded appended
    subst recorded appended
    obtain ⟨recorded, appended⟩ := foldlM_groupMember_ok ms _ g' _ r rest
    exact ⟨by rw [recorded]; rfl, by rw [appended]; simp⟩

/-- What one dimension of an input does once it is matched: the same as `splitDim_yields` says,
whatever the signs of the input dimensions. -/
theorem splitDim_ok (d : Decomposition) (s : Shape) {a : Assembly} {acc : List Int} {k : Nat} {dim : Dim}
    (holds : Dim.Holds dim (d.dimAxes dim)) {r : Assembly × List Int × Nat}
    (h : splitDim i d s (a, acc, k) dim = .ok r) :
    r = (a.afterDim d dim ((s.dims.drop k).take (spanOf a.width.toNat dim.ellipsis)),
      acc ++ (d.dimLayout dim ((s.dims.drop k).take (spanOf a.width.toNat dim.ellipsis))).map Prod.snd,
      k + spanOf a.width.toNat dim.ellipsis) := by
  generalize hms : d.dimAxes dim = ms at holds
  cases holds with
  | ellipsis ell paren kind red =>
    have sizes : ∀ ys : List Int, ((ys.zipIdx.map fun p => (Label.ellipsis p.2, p.1)).map Prod.snd) = ys :=
      fun ys => by simp [Function.comp_def]
    simp only [splitDim, ell, if_true] at h
    obtain ⟨ed, cut, h⟩ := Except.bind_eq_ok.1 h
    obtain ⟨⟨-, le, -⟩, rfl⟩ := sliceOf_eq_ok.1 cut
    have width : (↑k + a.width).toNat - k = a.width.toNat := by omega
    simp only [pure, Except.pure, Except.ok.injEq] at h
    subst h
    simp only [afterDim, Decomposition.dimLayout, ell, if_true, sizes, spanOf, width, Int.toNat_natCast]
  | bare ell paren named nonneg =>
    rename_i m
    simp only [splitDim, ell, paren, hms, Bool.false_eq_true, if_false, Bool.not_false, if_true] at h
    obtain ⟨x, read, h⟩ := Except.bind_eq_ok.1 h
    obtain ⟨-, rfl⟩ := (operandAt_eq_ok_getD 0).1 read
    split at h
    · cases h
    · simp only [pure, Except.pure, Except.ok.injEq] at h
      subst h
      have head : ((s.dims.drop k).take 1).head?.getD 0 = s.dims[k]?.getD 0 := by
        simpa [List.getD_eq_getElem?_getD] using headD_take_drop s.dims k
      simp [afterDim, Decomposition.dimLayout, ell, paren, hms, namedSizes, head, spanOf]
  | group ell paren gh =>
    simp only [splitDim, ell, paren, hms, Bool.false_eq_true, if_false, Bool.not_true] at h
    obtain ⟨x, read, h⟩ := Except.bind_eq_ok.1 h
    obtain ⟨-, rfl⟩ := (operandAt_eq_ok_getD 0).1 read
    obtain ⟨⟨a', g', acc'⟩, fold, h⟩ := Except.bind_eq_ok.1 h
    obtain ⟨recorded, appended⟩ := foldlM_groupMember_ok ms a 1 acc _ fold
    dsimp only at recorded appended
    subst recorded appended
    split at h
    · cases h
    · simp only [pure, Except.pure, Except.ok.injEq] at h
      subst h
      have head : ((s.dims.drop k).take 1).head?.getD 0 = s.dims[k]?.getD 0 := by
        simpa [List.getD_eq_getElem?_getD] using headD_take_drop s.dims k
      have layout : d.dimLayout dim ((s.dims.drop k).take 1) =
          ms.map fun m => (.axis m.name, memberSize (s.dims.getD k 0) m) := by
        simp [Decomposition.dimLayout, ell, paren, hms, head, List.getD_eq_getElem?_getD]
      simp [afterDim, ell, layout, namedSizes, spanOf, Function.comp_def, List.getD_eq_getElem?_getD]

/-- The dimensions of an input in order, once matched: what `foldlM_splitDim_yields` says, whatever
the signs of the input dimensions. -/
theorem foldlM_splitDim_ok (d : Decomposition) (s : Shape) :
    ∀ (ds : List Dim) (a : Assembly) (acc : List Int) (k : Nat) (r : Assembly × List Int × Nat),
    (∀ dim ∈ ds, Dim.Holds dim (d.dimAxes dim)) → ds.foldlM (splitDim i d s) (a, acc, k) = .ok r →
    r.1 = a.afterDims d (ds.zip (cutDims a.width.toNat ds (s.dims.drop k))) ∧
      r.2.1 = acc ++ ((ds.zip (cutDims a.width.toNat ds (s.dims.drop k))).flatMap fun p =>
        d.dimLayout p.1 p.2).map Prod.snd
  | [], a, acc, k, r, _, h => by
    cases h
    simp [afterDims]
  | dim :: ds, a, acc, k, r, holds, h => by
    rw [List.foldlM_cons] at h
    obtain ⟨mid, first, rest⟩ := Except.bind_eq_ok.1 h
    rw [splitDim_ok d s (holds dim List.mem_cons_self) first] at rest
    obtain ⟨after, appended⟩ := foldlM_splitDim_ok d s ds _ _ _ r
      (fun dim' mem => holds dim' (List.mem_cons_of_mem dim mem)) rest
    simp only [afterDim_width] at after appended
    refine ⟨by rw [after]; simp [afterDims, cutDims, List.drop_drop], by rw [appended]; simp [cutDims, List.drop_drop]⟩

/-- Matching the dimensions of an input from an assembly that differs from `a` at most in its
width, the ellipsis's where there is one, does what `Splits` says. -/
theorem splits_of_fold {a a₀ a₁ : Assembly} {d : Decomposition} {s : Shape} {splitDims : List Int} {k : Nat}
    (holds : d.Holds) (oneEllipsis : d.dims.countP (·.ellipsis) ≤ 1) (distinct : (d.axes.map (·.name)).Nodup)
    (width : a₀.width = if d.hasEllipsis then (d.width s.rank : Int) else a.width)
    (same : a₀ = { a with width := a₀.width })
    (fold : d.dims.foldlM (splitDim i d s) (a₀, [], 0) = .ok (a₁, splitDims, k)) :
    Splits a (let a₂ := if d.hasGroups then { a₁ with steps := a₁.steps ++ [splitStep i s splitDims] } else a₁
      { a₂ with dims := a₂.dims ++ splitDims }) i d s := by
  obtain ⟨after, appended⟩ := foldlM_splitDim_ok d s d.dims a₀ [] 0 _ holds.dims fold
  dsimp only at after appended
  subst after appended
  have cover : d.dims.zip (cutDims a₀.width.toNat d.dims (s.dims.drop 0)) = d.cover s := by
    rw [List.drop_zero, Decomposition.cover]
    congr 1
    by_cases ell : d.hasEllipsis
    · rw [width, if_pos ell, Int.toNat_natCast]
    · refine cutDims_congr _ _ d.dims (fun dim mem => ?_) s.dims
      by_contra notFalse
      exact ell (List.any_eq_true.2 ⟨dim, mem, by simpa using notFalse⟩)
  rw [cover]
  have final := splits_final a a₀ i d s holds oneEllipsis distinct width same
  simp only [Decomposition.layout] at final ⊢
  simpa using final

/-- Splitting an input that succeeds does what `Splits` says, whatever the signs of the input
dimensions, and the input's rank is one its dimensions allow. -/
theorem split_ok {a a' : Assembly} {d : Decomposition} {s : Shape} (holds : d.Holds)
    (oneEllipsis : d.dims.countP (·.ellipsis) ≤ 1) (distinct : (d.axes.map (·.name)).Nodup)
    (h : a.split i d s = .ok a') :
    Splits a a' i d s ∧ if d.hasEllipsis then d.dims.length ≤ s.rank + 1 else s.rank = d.dims.length := by
  unfold split at h
  by_cases ell : d.hasEllipsis
  · by_cases short : (s.rank : Int) - ((d.dims.length : Int) - 1) < 0
    · simp [ell, short] at h
      cases h
    · simp only [ell, if_true, short, if_false, pure_bind] at h
      obtain ⟨⟨a₁, splitDims, k⟩, fold, h⟩ := Except.bind_eq_ok.1 h
      simp only [pure, Except.pure, Except.ok.injEq] at h
      subst h
      have width : ((s.rank : Int) - ((d.dims.length : Int) - 1)) = if d.hasEllipsis then (d.width s.rank : Int) else a.width := by
        simp only [ell, if_true]
        unfold Decomposition.width
        omega
      exact ⟨splits_of_fold holds oneEllipsis distinct width rfl fold, by simp only [ell, if_true]; omega⟩
  · by_cases mismatch : (s.rank : Int) ≠ d.dims.length
    · simp [ell, mismatch] at h
      cases h
    · simp only [ell, Bool.false_eq_true, if_false, mismatch, pure_bind] at h
      obtain ⟨⟨a₁, splitDims, k⟩, fold, h⟩ := Except.bind_eq_ok.1 h
      simp only [pure, Except.pure, Except.ok.injEq] at h
      subst h
      refine ⟨splits_of_fold holds oneEllipsis distinct (by simp [ell]) rfl fold, ?_⟩
      simp only [ell, Bool.false_eq_true, if_false]
      omega

/-- What splitting the inputs `xs`, each with its position, does to an assembly: the sizes of their
layouts are appended to the dimensions, the sizes of their names recorded, the width and the
dimensions of the one ellipsis set, and a split step emitted for each input with groups. -/
structure SplitsAll (a a' : Assembly) (xs : List (Decomposition × Nat)) (shape : Nat → Shape) : Prop where
  pattern : a'.pattern = a.pattern
  dtype : a'.dtype = a.dtype
  dims : a'.dims = a.dims ++ xs.flatMap fun p => (p.1.layout (shape p.2)).map Prod.snd
  steps : a'.steps = a.steps ++ xs.flatMap fun p =>
    if p.1.hasGroups then [splitStep p.2 (shape p.2) ((p.1.layout (shape p.2)).map Prod.snd)] else []
  sizes : ∀ x, a'.sizeOf x =
    ((namedSizes (xs.flatMap fun p => p.1.layout (shape p.2))).lookup x).getD (a.sizeOf x)
  ellipsis : ∀ p ∈ xs, p.1.hasEllipsis = true → a'.width = (p.1.width (shape p.2).rank : Int) ∧
    a'.ellipsisDims = ((p.1.cover (shape p.2)).filter (·.1.ellipsis)).flatMap (·.2)
  plain : (∀ p ∈ xs, p.1.hasEllipsis = false) → a'.width = a.width ∧ a'.ellipsisDims = a.ellipsisDims
  ranks : ∀ p ∈ xs, if p.1.hasEllipsis then p.1.dims.length ≤ (shape p.2).rank + 1
    else (shape p.2).rank = p.1.dims.length

/-- Splitting the inputs one after the other, with distinct names and one ellipsis at most among
them all, does what `SplitsAll` says. -/
theorem splitAll_ok {f : Decomposition × Nat → Assembly → Except Failure Assembly} (shape : Nat → Shape)
    (hf : ∀ d i a, f (d, i) a = a.split i d (shape i)) :
    ∀ (xs : List (Decomposition × Nat)) (a a' : Assembly),
    (∀ p ∈ xs, p.1.Holds ∧ p.1.dims.countP (·.ellipsis) ≤ 1) →
    (xs.flatMap fun p => p.1.axes.map (·.name)).Nodup → (xs.filter (·.1.hasEllipsis)).length ≤ 1 →
    forIn xs a (fun p a => do
      let a ← f p a
      pure (ForInStep.yield a)) = .ok a' → SplitsAll a a' xs shape
  | [], a, a', _, _, _, done => by
    cases done
    exact ⟨rfl, rfl, by simp, by simp, by simp [namedSizes], by simp, by simp, by simp⟩
  | (d, i) :: xs, a, a', holds, distinct, once, done => by
    rw [List.forIn_cons] at done
    obtain ⟨r, first, rest⟩ := Except.bind_eq_ok.1 done
    obtain ⟨mid, stepped, first⟩ := Except.bind_eq_ok.1 first
    cases first
    rw [hf] at stepped
    rw [List.flatMap_cons, List.nodup_append] at distinct
    obtain ⟨dHolds, dOne⟩ := holds (d, i) List.mem_cons_self
    obtain ⟨here, rank⟩ := split_ok dHolds dOne distinct.1 stepped
    have later := splitAll_ok shape hf xs mid a' (fun p mem => holds p (List.mem_cons_of_mem _ mem))
      distinct.2.1 ((((List.sublist_cons_self _ xs).filter _).length_le).trans once) rest
    -- the names the layouts give sizes to are among the inputs' names, so no two inputs share one
    have named : ((namedSizes ((d, i).1.layout (shape i) ++ xs.flatMap fun p => p.1.layout (shape p.2))).map
        Prod.fst).Nodup := by
      have sub : ((namedSizes ((d, i).1.layout (shape i) ++ xs.flatMap fun p => p.1.layout (shape p.2))).map
          Prod.fst).Sublist (((d, i) :: xs).flatMap fun p => p.1.axes.map (·.name)) := by
        rw [namedSizes_append, List.map_append, List.flatMap_cons, namedSizes_flatMap, List.map_flatMap]
        exact (namedSizes_sublist _ dHolds).append (List.Sublist.flatMap_right _ fun p mem =>
          namedSizes_sublist _ (holds p (List.mem_cons_of_mem _ mem)).1)
      exact sub.nodup (by rw [List.flatMap_cons, List.nodup_append]; exact distinct)
    have alone : d.hasEllipsis = true → ∀ p ∈ xs, p.1.hasEllipsis = false := by
      intro ell p mem
      by_contra other
      have two : ((d, i) :: xs).filter (·.1.hasEllipsis) = (d, i) :: xs.filter (·.1.hasEllipsis) := by
        simp [ell]
      have pos : 0 < (xs.filter (·.1.hasEllipsis)).length :=
        List.length_pos_of_mem (List.mem_filter.2 ⟨mem, by simpa using other⟩)
      rw [two, List.length_cons] at once
      omega
    refine ⟨later.pattern.trans here.pattern, later.dtype.trans here.dtype, ?_, ?_, fun x => ?_, ?_, ?_, ?_⟩
    · rw [later.dims, here.dims, List.flatMap_cons, List.append_assoc]
    · rw [later.steps, here.steps, List.flatMap_cons, List.append_assoc]
    · rw [later.sizes, here.sizes, List.flatMap_cons, namedSizes_append, lookup_append_getD (by
        rw [← namedSizes_append]; exact named)]
    · intro p mem ell
      rcases List.mem_cons.1 mem with rfl | mem
      · obtain ⟨width, dims⟩ := later.plain (alone ell)
        rw [width, dims, here.width, here.ellipsisDims, if_pos ell, if_pos ell]
        exact ⟨rfl, rfl⟩
      · exact later.ellipsis p mem ell
    · intro none
      obtain ⟨width, dims⟩ := later.plain fun p mem => none p (List.mem_cons_of_mem _ mem)
      have plain : d.hasEllipsis = false := none (d, i) List.mem_cons_self
      rw [width, dims, here.width, here.ellipsisDims]
      simp [plain]
    · intro p mem
      rcases List.mem_cons.1 mem with rfl | mem
      · exact rank
      · exact later.ranks p mem

end Assembly

end Rearrange.Plan

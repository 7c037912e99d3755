import Rearrange.Proofs.Decompositions
import Rearrange.Proofs.Layout
import Rearrange.Proofs.CheckedReads
import Rearrange.Plan.Compile
/-!
# Fitting an input to its shape

An input's dimensions are matched to the dimensions of its decomposition: the ellipsis covers
`w` of them (`Decomposition.width`), every other dimension one (`cutDims`). A bare axis takes
its dimension; the members of a group take their own sizes, the derived one what the others
leave of the dimension (`memberSize`). The input then lays out as a list of labelled axes with
their sizes (`Decomposition.layout`).

The input fits its shape (`Decomposition.Fits`) when its rank is right and each dimension fits
what it covers: a bare axis with a size has exactly that dimension, a group's sized members
multiply to its dimension, or divide it when the group has a derived member.

The main statement is `split_yields`: splitting an input succeeds exactly when it fits, and then
appends the sizes of its layout to the dimensions, records the sizes of its names and of the
ellipsis, and emits one split step if the input has groups; otherwise it fails with an ordinary
error. Its parts are one lemma per step of the code: a member of a group (`groupMember_yields`),
a group (`foldlM_groupMember_yields`), a dimension (`splitDim_yields`) and the dimensions in
order (`foldlM_splitDim_yields`).
-/
namespace Rearrange.Pattern

/-- The size a member of a group takes from the group's dimension `x`: its own, or, for the
derived member, what the product of the others leaves of `x`. -/
def memberSize (x : Int) (a : Axis) : Int := if a.kind = .derived then x.tdiv a.siblingsSize else a.size

/-- The input dimensions each dimension of a decomposition covers: the ellipsis `w` of them,
every other dimension one. -/
def cutDims (w : Nat) : List Dim → List Int → List (List Int)
  | [], _ => []
  | dim :: dims, xs => xs.take (spanOf w dim.ellipsis) :: cutDims w dims (xs.drop (spanOf w dim.ellipsis))

namespace Decomposition

/-- The number of axes the ellipsis of an input of rank `r` matches. -/
def width (d : Decomposition) (r : Nat) : Nat := r + 1 - d.dims.length

/-- The axes a dimension stands for, labelled, with the sizes they take from the input
dimensions `ys` it covers. -/
def dimLayout (d : Decomposition) (dim : Dim) (ys : List Int) : List (Plan.Label × Int) :=
  if dim.ellipsis then ys.zipIdx.map fun p => (.ellipsis p.2, p.1)
  else (d.dimAxes dim).map fun a =>
    (.axis a.name, if dim.parenthesized then memberSize (ys.headD 0) a else ys.headD 0)

/-- The dimensions of an input paired with the input dimensions they cover. -/
def cover (d : Decomposition) (s : Shape) : List (Dim × List Int) :=
  d.dims.zip (cutDims (d.width s.rank) d.dims s.dims)

/-- The axes of an input once split, labelled, with their sizes. -/
def layout (d : Decomposition) (s : Shape) : List (Plan.Label × Int) :=
  (d.cover s).flatMap fun p => d.dimLayout p.1 p.2

/-- A dimension fits the input dimensions `ys` it covers: a bare axis with a size has exactly
that dimension; a group's sized members multiply to it, or divide it if the group has a derived
member. -/
def DimFits (d : Decomposition) (dim : Dim) (ys : List Int) : Prop :=
  dim.ellipsis = false →
    if dim.parenthesized then
      (if (d.dimAxes dim).any (·.kind = .derived) then namedProduct (d.dimAxes dim) ∣ ys.headD 0
       else namedProduct (d.dimAxes dim) = ys.headD 0)
    else ∀ a ∈ d.dimAxes dim, 0 < a.size → a.size = ys.headD 0

/-- An input fits its shape: the rank is the number of dimensions, or with the ellipsis at
least one less, and every dimension fits what it covers. -/
structure Fits (d : Decomposition) (s : Shape) : Prop where
  rank : if d.hasEllipsis then d.dims.length ≤ s.rank + 1 else s.rank = d.dims.length
  dims : ∀ p ∈ d.cover s, d.DimFits p.1 p.2

end Decomposition

end Rearrange.Pattern

namespace Rearrange.Plan

open Pattern

namespace Assembly

section Sizes

variable (a : Assembly) (x : String) (k : Int)

@[simp] theorem setSize_pattern : (a.setSize x k).pattern = a.pattern := by
  unfold setSize; split <;> rfl

@[simp] theorem setSize_dtype : (a.setSize x k).dtype = a.dtype := by
  unfold setSize; split <;> rfl

@[simp] theorem setSize_width : (a.setSize x k).width = a.width := by
  unfold setSize; split <;> rfl

@[simp] theorem setSize_dims : (a.setSize x k).dims = a.dims := by
  unfold setSize; split <;> rfl

@[simp] theorem setSize_steps : (a.setSize x k).steps = a.steps := by
  unfold setSize; split <;> rfl

@[simp] theorem setSize_ellipsisDims : (a.setSize x k).ellipsisDims = a.ellipsisDims := by
  unfold setSize; split <;> rfl

theorem lookup_replace (y : String) : ∀ l : List (String × Int),
    (l.map fun p => if p.1 == x then (x, k) else p).lookup y =
      if y = x ∧ l.any (·.1 == x) then some k else l.lookup y
  | [] => by simp
  | (n, v) :: l => by
    have rest := lookup_replace y l
    by_cases hn : n = x
    · subst hn
      by_cases hy : y = n
      · subst hy
        simp
      · have ne : (y == n) = false := by simpa using hy
        simp only [List.map_cons, beq_self_eq_true, if_true, List.lookup, ne, hy, false_and,
          if_false]
        rw [rest, if_neg (by simp [hy])]
    · have ne : (n == x) = false := by simpa using hn
      by_cases hy : y = n
      · subst hy
        simp [List.lookup, hn]
      · have ne' : (y == n) = false := by simpa using hy
        simp only [List.map_cons, ne, Bool.false_eq_true, if_false, List.lookup, ne', rest,
          List.any_cons, Bool.false_or]

/-- Recording a size replaces the one of that name and keeps the others. -/
theorem sizeOf_setSize (y : String) : (a.setSize x k).sizeOf y = if y = x then k else a.sizeOf y := by
  unfold setSize sizeOf
  split
  · next present =>
    rw [lookup_replace]
    by_cases hy : y = x <;> simp [hy, present]
  · next absent =>
    rw [List.lookup_append]
    by_cases hy : y = x
    · subst hy
      have none : a.axisSizes.lookup y = none := by
        cases h : a.axisSizes.lookup y with
        | none => rfl
        | some v =>
          have mem : y ∈ a.axisSizes.map Prod.fst := lookup_isSome_iff_mem.1 (by simp [h])
          obtain ⟨p, pMem, rfl⟩ := List.mem_map.1 mem
          exact absent.elim (List.any_eq_true.2 ⟨p, pMem, by simp⟩)
      simp [none]
    · have ne : (y == x) = false := by simpa using hy
      cases a.axisSizes.lookup y <;> simp [List.lookup, ne, hy]

end Sizes

theorem fail_ordinary (a : Assembly) {kind : ErrorKind} (ne : kind ≠ .planInconsistent) (pos : Int)
    (msg : String) : (a.fail kind pos msg).Ordinary :=
  ⟨rfl, by simpa [fail, Failure.kind?] using ne⟩

/-- The assembly with sizes recorded one after the other. -/
def recordSizes (a : Assembly) (sizes : List (String × Int)) : Assembly :=
  sizes.foldl (fun a p => a.setSize p.1 p.2) a

section Record

variable (a : Assembly) (ps : List (String × Int))

@[simp] theorem recordSizes_nil : a.recordSizes [] = a := rfl

@[simp] theorem recordSizes_cons (p : String × Int) :
    a.recordSizes (p :: ps) = (a.setSize p.1 p.2).recordSizes ps := rfl

@[simp] theorem recordSizes_pattern : (a.recordSizes ps).pattern = a.pattern := by
  induction ps generalizing a <;> simp [*]

@[simp] theorem recordSizes_dtype : (a.recordSizes ps).dtype = a.dtype := by
  induction ps generalizing a <;> simp [*]

@[simp] theorem recordSizes_width : (a.recordSizes ps).width = a.width := by
  induction ps generalizing a <;> simp [*]

@[simp] theorem recordSizes_dims : (a.recordSizes ps).dims = a.dims := by
  induction ps generalizing a <;> simp [*]

@[simp] theorem recordSizes_steps : (a.recordSizes ps).steps = a.steps := by
  induction ps generalizing a <;> simp [*]

@[simp] theorem recordSizes_ellipsisDims : (a.recordSizes ps).ellipsisDims = a.ellipsisDims := by
  induction ps generalizing a <;> simp [*]

/-- With distinct names, each recorded size is the one looked up, and the others stay. -/
theorem sizeOf_recordSizes (distinct : (ps.map Prod.fst).Nodup) (y : String) :
    (a.recordSizes ps).sizeOf y = (ps.lookup y).getD (a.sizeOf y) := by
  induction ps generalizing a with
  | nil => rfl
  | cons p ps ih =>
    obtain ⟨n, k⟩ := p
    rw [List.map_cons, List.nodup_cons] at distinct
    rw [recordSizes_cons, ih _ distinct.2, sizeOf_setSize]
    by_cases hy : y = n
    · subst hy
      have absent : ps.lookup y = none := by
        cases h : ps.lookup y with
        | none => rfl
        | some v => exact absurd (lookup_isSome_iff_mem.1 (by simp [h])) distinct.1
      simp [absent]
    · have ne : (y == n) = false := by simpa using hy
      simp [List.lookup, ne, hy]

end Record

/-- The sizes a layout gives the named axes of the inputs. -/
def namedSizes (layout : List (Label × Int)) : List (String × Int) :=
  layout.filterMap fun p => match p.1 with
    | .axis x => some (x, p.2)
    | _ => none

theorem yields_fail {α : Type} {c : Prop} {post : α → Prop} {x : Except Failure α} {a : Assembly}
    {kind : ErrorKind} {pos : Int} {msg : String} (hc : ¬c) (ne : kind ≠ .planInconsistent)
    (eq : x = .error (a.fail kind pos msg)) : Yields c post x :=
  Yields.of_not hc ⟨_, eq, fail_ordinary a ne pos msg⟩

section Group

variable (i : Nat) {x : Int}

theorem memberSize_nonneg (hx : 0 < x) {m : Axis}
    (hm : (m.kind = .named ∧ 0 < m.size) ∨ (m.kind = .derived ∧ 0 < m.siblingsSize)) :
    0 ≤ memberSize x m := by
  unfold memberSize
  rcases hm with ⟨named, pos⟩ | ⟨derived, sib⟩
  · simp [named]
    omega
  · simp only [derived, if_true]
    exact Int.tdiv_nonneg hx.le sib.le

theorem memberSize_pos (hx : 0 < x) {m : Axis}
    (hm : (m.kind = .named ∧ 0 < m.size) ∨ (m.kind = .derived ∧ 0 < m.siblingsSize))
    (divides : m.kind = .derived → m.siblingsSize ∣ x) : 0 < memberSize x m := by
  unfold memberSize
  rcases hm with ⟨named, pos⟩ | ⟨derived, sib⟩
  · simpa [named] using pos
  · simp only [derived, if_true]
    exact Int.tdiv_pos_of_pos_of_dvd hx sib.le (divides derived)

/-- One member of a group: the derived member needs the others to divide the dimension, and the
product of the sizes so far must stay a signed 64-bit word. -/
theorem groupMember_yields (a : Assembly) (g : Int) (acc : List Int) (m : Axis) (hx : 0 < x)
    (hg : 0 ≤ g) (hm : (m.kind = .named ∧ 0 < m.size) ∨ (m.kind = .derived ∧ 0 < m.siblingsSize)) :
    Yields ((m.kind = .derived → m.siblingsSize ∣ x) ∧ g * memberSize x m ≤ Word.maxInt64)
      (· = (a.setSize m.name (memberSize x m), g * memberSize x m, acc ++ [memberSize x m]))
      (groupMember i x (a, g, acc) m) := by
  have mul := Word.checkedMul_of_nonneg g (memberSize x m) hg (memberSize_nonneg hx hm)
  rcases hm with ⟨named, pos⟩ | ⟨derived, sib⟩
  · have notDerived : m.kind ≠ .derived := by simp [named]
    have size : memberSize x m = m.size := by simp [memberSize, named]
    rw [size] at mul ⊢
    by_cases small : g * m.size ≤ Word.maxInt64
    · refine Yields.of_holds ⟨fun h => absurd h notDerived, small⟩ ⟨_, ?_, rfl⟩
      simp [groupMember, named, Assembly.sizeOf_setSize, mul, small]
      rfl
    · apply yields_fail (fun h => small h.2) (by decide : ErrorKind.invalidSize ≠ _)
      simp [groupMember, named, Assembly.sizeOf_setSize, mul, small]
      rfl
  · have size : memberSize x m = x.tdiv m.siblingsSize := by simp [memberSize, derived]
    rw [size] at mul ⊢
    have notNonpos : ¬ m.siblingsSize ≤ 0 := by omega
    by_cases divides : m.siblingsSize ∣ x
    · have exact : x.tmod m.siblingsSize = 0 := Int.tmod_eq_zero_of_dvd divides
      by_cases small : g * x.tdiv m.siblingsSize ≤ Word.maxInt64
      · refine Yields.of_holds ⟨fun _ => divides, small⟩ ⟨_, ?_, rfl⟩
        simp [groupMember, derived, notNonpos, exact, Assembly.sizeOf_setSize, mul, small]
        rfl
      · apply yields_fail (fun h => small h.2) (by decide : ErrorKind.invalidSize ≠ _)
        simp [groupMember, derived, notNonpos, exact, Assembly.sizeOf_setSize, mul, small]
        rfl
    · have inexact : x.tmod m.siblingsSize ≠ 0 := fun h => divides (Int.dvd_of_tmod_eq_zero h)
      apply yields_fail (fun h => divides (h.1 derived))
        (by decide : ErrorKind.shapeNotDivisible ≠ _)
      simp [groupMember, derived, notNonpos, inexact]
      rfl

/-- The members of a group in order: every derived member needs the others to divide the
dimension, and the product of all the sizes must stay a signed 64-bit word. -/
theorem foldlM_groupMember_yields (hx : 0 < x) : ∀ (ms : List Axis) (a : Assembly) (g : Int)
    (acc : List Int), 0 < g → g ≤ Word.maxInt64 →
    (∀ m ∈ ms, (m.kind = .named ∧ 0 < m.size) ∨ (m.kind = .derived ∧ 0 < m.siblingsSize)) →
    Yields ((∀ m ∈ ms, m.kind = .derived → m.siblingsSize ∣ x) ∧
        g * (ms.map (memberSize x)).prod ≤ Word.maxInt64)
      (· = (a.recordSizes (ms.map fun m => (m.name, memberSize x m)),
        g * (ms.map (memberSize x)).prod, acc ++ ms.map (memberSize x)))
      (ms.foldlM (groupMember i x) (a, g, acc))
  | [], a, g, acc, _, small, _ => (Yields.pure (by simp)).congr (by simpa using small)
  | m :: ms, a, g, acc, positive, small, members => by
    rw [List.foldlM_cons]
    have member := members m (by simp)
    have rest : ((m.kind = .derived → m.siblingsSize ∣ x) ∧ g * memberSize x m ≤ Word.maxInt64) →
        ∀ r, r = (a.setSize m.name (memberSize x m), g * memberSize x m, acc ++ [memberSize x m]) →
        Yields ((∀ m ∈ ms, m.kind = .derived → m.siblingsSize ∣ x) ∧
            g * memberSize x m * (ms.map (memberSize x)).prod ≤ Word.maxInt64)
          (· = (a.recordSizes ((m :: ms).map fun m => (m.name, memberSize x m)),
            g * ((m :: ms).map (memberSize x)).prod, acc ++ (m :: ms).map (memberSize x)))
          (ms.foldlM (groupMember i x) r) := by
      rintro ⟨divides, fits⟩ r rfl
      have sized := memberSize_pos hx member divides
      refine (foldlM_groupMember_yields hx ms _ _ _ (Int.mul_pos positive sized) fits
        fun m' mem => members m' (by simp [mem])).mono ?_
      rintro r rfl
      simp [Int.mul_assoc]
    refine ((groupMember_yields i a g acc m hx positive.le member).bind rest).congr ?_
    constructor
    · rintro ⟨⟨first, -⟩, others, total⟩
      exact ⟨List.forall_mem_cons.2 ⟨first, others⟩, by simpa [Int.mul_assoc] using total⟩
    · rintro ⟨divides, total⟩
      obtain ⟨first, others⟩ := List.forall_mem_cons.1 divides
      -- all sizes are positive, so the product of the first two is at most the whole product
      have restPos : 0 < (ms.map (memberSize x)).prod := Word.prod_pos_of_pos _ fun s mem => by
        obtain ⟨m', mem', rfl⟩ := List.mem_map.1 mem
        exact memberSize_pos hx (members m' (by simp [mem'])) (others m' mem')
      have sized := memberSize_pos hx member first
      have whole : g * memberSize x m * (ms.map (memberSize x)).prod ≤ Word.maxInt64 := by
        simpa [Int.mul_assoc] using total
      have grows : g * memberSize x m ≤ g * memberSize x m * (ms.map (memberSize x)).prod :=
        le_mul_of_one_le_right (Int.mul_nonneg positive.le sized.le) restPos
      exact ⟨⟨first, grows.trans whole⟩, others, whole⟩

end Group

section Dims

variable {ms : List Axis}

theorem namedProduct_pos (gh : GroupHolds ms) : 0 < namedProduct ms :=
  Word.prod_pos_of_pos _ fun s mem => by
    obtain ⟨m, inFilter, rfl⟩ := List.mem_map.1 mem
    obtain ⟨inMs, named⟩ := List.mem_filter.1 inFilter
    rcases gh.member m inMs with ⟨-, pos⟩ | ⟨derived, -⟩
    · exact pos
    · simp [derived] at named

/-- The sizes the members of a group take multiply to the product of the named ones times what
the derived member, if any, takes. -/
theorem prod_memberSize (gh : GroupHolds ms) (x : Int) :
    (ms.map (memberSize x)).prod =
      namedProduct ms * ((ms.filter (·.kind = .derived)).map fun _ => x.tdiv (namedProduct ms)).prod := by
  rw [← List.prod_map_filter_mul_prod_map_filter_not (·.kind = .named)]
  have named : (ms.filter (·.kind = .named)).map (memberSize x) =
      (ms.filter (·.kind = .named)).map (·.size) :=
    List.map_congr_left fun m mem => by
      have isNamed : m.kind = .named := of_decide_eq_true (List.mem_filter.1 mem).2
      simp [memberSize, isNamed]
  have others : ms.filter (fun m => ¬ m.kind = .named) = ms.filter (·.kind = .derived) :=
    List.filter_congr fun m mem => by
      rcases gh.member m mem with ⟨named, -⟩ | ⟨derived, -⟩
      · simp [named]
      · simp [derived]
  have derived : (ms.filter (·.kind = .derived)).map (memberSize x) =
      (ms.filter (·.kind = .derived)).map fun _ => x.tdiv (namedProduct ms) :=
    List.map_congr_left fun m mem => by
      have isDerived := of_decide_eq_true (List.mem_filter.1 mem).2
      rcases gh.member m (List.mem_filter.1 mem).1 with ⟨named, -⟩ | ⟨-, -, sib⟩
      · simp [named] at isDerived
      · simp [memberSize, isDerived, sib]
  rw [named, others, derived]
  rfl

/-- A group fits its dimension exactly when its members take sizes whose product, a signed 64-bit
word, is the dimension; each derived member needing the others to divide it. -/
theorem groupFits_iff (gh : GroupHolds ms) {x : Int} (small : x ≤ Word.maxInt64) :
    (((∀ m ∈ ms, m.kind = .derived → m.siblingsSize ∣ x) ∧
        1 * (ms.map (memberSize x)).prod ≤ Word.maxInt64) ∧ (ms.map (memberSize x)).prod = x) ↔
      (if ms.any (·.kind = .derived) then namedProduct ms ∣ x else namedProduct ms = x) := by
  rw [prod_memberSize gh, Int.one_mul]
  have npPos := namedProduct_pos gh
  by_cases hasDerived : ms.any (·.kind = .derived)
  · obtain ⟨m, mem, isDerived⟩ := List.any_eq_true.1 hasDerived
    have one : (ms.filter (·.kind = .derived)).length = 1 := by
      have := gh.one_derived
      have : 0 < (ms.filter (·.kind = .derived)).length :=
        List.length_pos_of_mem (List.mem_filter.2 ⟨mem, isDerived⟩)
      omega
    obtain ⟨m', only⟩ := List.length_eq_one_iff.1 one
    have sib : m.siblingsSize = namedProduct ms := by
      rcases gh.member m mem with ⟨named, -⟩ | ⟨-, -, sib⟩
      · simp [named] at isDerived
      · exact sib
    simp only [hasDerived, if_true, only, List.map_cons, List.map_nil, List.prod_cons,
      List.prod_nil, Int.mul_one]
    constructor
    · rintro ⟨⟨divides, -⟩, -⟩
      exact sib ▸ divides m mem (of_decide_eq_true isDerived)
    · intro divides
      have whole : namedProduct ms * x.tdiv (namedProduct ms) = x := Int.mul_tdiv_cancel' divides
      refine ⟨⟨fun m'' mem'' derived'' => ?_, by omega⟩, whole⟩
      rcases gh.member m'' mem'' with ⟨named, -⟩ | ⟨-, -, sib''⟩
      · simp [named] at derived''
      · exact sib'' ▸ divides
  · have none : ms.filter (·.kind = .derived) = [] := by
      simpa [List.filter_eq_nil_iff] using hasDerived
    simp only [hasDerived, Bool.false_eq_true, if_false, none, List.map_nil, List.prod_nil,
      Int.mul_one]
    constructor
    · exact fun h => h.2
    · intro same
      refine ⟨⟨fun m mem derived => ?_, by omega⟩, same⟩
      simp at hasDerived
      exact absurd derived (hasDerived m mem)

/-- The assembly after one dimension of an input is matched to the input dimensions `ys` it
covers: the ellipsis records them, other dimensions record the sizes of their names. -/
def afterDim (a : Assembly) (d : Decomposition) (dim : Dim) (ys : List Int) : Assembly :=
  if dim.ellipsis then { a with ellipsisDims := ys } else a.recordSizes (namedSizes (d.dimLayout dim ys))

theorem headD_take_drop (xs : List Int) (k : Nat) : ((xs.drop k).take 1).headD 0 = xs.getD k 0 := by
  cases h : xs.drop k with
  | nil =>
    have : xs.length ≤ k := by
      have := congrArg List.length h
      simp at this
      omega
    simp [List.getD_eq_getElem?_getD, List.getElem?_eq_none this]
  | cons y rest =>
    have : xs[k]? = some y := by rw [← List.head?_drop, h]; rfl
    simp [List.getD_eq_getElem?_getD, this]

/-- One dimension of an input: it succeeds exactly when it fits the input dimensions it covers,
and appends the sizes of its axes. -/
theorem splitDim_yields (i : Nat) (d : Decomposition) (s : Shape) (a : Assembly) (acc : List Int)
    (k : Nat) (dim : Dim) (ys : List Int)
    (hys : ys = (s.dims.drop k).take (spanOf a.width.toNat dim.ellipsis))
    (holds : Dim.Holds dim (d.dimAxes dim)) (inRange : k + spanOf a.width.toNat dim.ellipsis ≤ s.dims.length)
    (width : dim.ellipsis → 0 ≤ a.width) (pos : ∀ y ∈ s.dims, 0 < y) (small : ∀ y ∈ s.dims, y ≤ Word.maxInt64) :
    Yields (d.DimFits dim ys)
      (· = (a.afterDim d dim ys, acc ++ (d.dimLayout dim ys).map Prod.snd,
        k + spanOf a.width.toNat dim.ellipsis))
      (splitDim i d s (a, acc, k) dim) := by
  have single : dim.ellipsis = false → k < s.dims.length ∧
      operandAt s.dims k = .ok (s.dims.getD k 0) ∧ ys.headD 0 = s.dims.getD k 0 := fun ell => by
    simp only [spanOf, ell, Bool.false_eq_true, if_false] at inRange
    refine ⟨by omega, (operandAt_eq_ok_getD 0).2 ⟨⟨by omega, by omega⟩, rfl⟩, ?_⟩
    rw [hys, ell]
    exact headD_take_drop s.dims k
  generalize hms : d.dimAxes dim = ms at holds
  cases holds with
  | ellipsis ell paren kind red =>
    refine Yields.of_holds (fun no => by simp [ell] at no) ⟨_, ?_, rfl⟩
    subst hys
    have sizes : ∀ ys : List Int, ((ys.zipIdx.map fun p => (Label.ellipsis p.2, p.1)).map Prod.snd) = ys :=
      fun ys => by simp [Function.comp_def]
    have nonneg := width ell
    have cut : sliceOf s.dims k (k + a.width) = .ok ((s.dims.drop k).take a.width.toNat) := by
      simp only [spanOf, ell, if_true] at inRange
      exact sliceOf_eq_ok.2 ⟨⟨by omega, by omega, by omega⟩, by congr 1; omega⟩
    simp only [splitDim, ell, if_true, cut, afterDim, Decomposition.dimLayout, sizes, spanOf]
    rfl
  | bare ell paren named nonneg =>
    rename_i m
    obtain ⟨-, read, x⟩ := single ell
    have fits : d.DimFits dim ys ↔ (0 < m.size → m.size = s.dims.getD k 0) := by
      unfold Decomposition.DimFits
      rw [x]
      simp [ell, paren, hms]
    by_cases mismatch : 0 < m.size ∧ m.size ≠ s.dims.getD k 0
    · apply yields_fail (fun h => mismatch.2 (fits.1 h mismatch.1)) (by decide : ErrorKind.sizeMismatch ≠ _)
      have ne : m.size ≠ s.dims[k]?.getD 0 := by simpa [List.getD_eq_getElem?_getD] using mismatch.2
      simp [splitDim, ell, paren, hms, read, bind, Except.bind, mismatch.1, ne]
      rfl
    · refine Yields.of_holds (fits.2 fun h => by omega) ⟨_, ?_, rfl⟩
      have noCheck : ¬ (0 < m.size ∧ ¬ m.size = s.dims[k]?.getD 0) := by
        simpa [List.getD_eq_getElem?_getD] using mismatch
      simp only [splitDim, ell, paren, hms, read, bind, Except.bind, Bool.false_eq_true, if_false,
        Bool.not_false, if_true]
      have head : ys.head?.getD 0 = s.dims[k]?.getD 0 := by
        simpa [List.getD_eq_getElem?_getD] using x
      simp [noCheck, afterDim, Decomposition.dimLayout, ell, paren, hms, namedSizes, head, spanOf]
      rfl
  | group ell paren gh =>
    obtain ⟨inBounds, read, head⟩ := single ell
    have xMem : s.dims.getD k 0 ∈ s.dims := by
      rw [List.getD_eq_getElem?_getD, List.getElem?_eq_getElem inBounds]
      exact List.getElem_mem inBounds
    have members : ∀ m ∈ ms, (m.kind = .named ∧ 0 < m.size) ∨
        (m.kind = .derived ∧ 0 < m.siblingsSize) := by
      intro m mem
      rcases gh.member m mem with named | ⟨derived, -, sib⟩
      · exact .inl named
      · exact .inr ⟨derived, sib ▸ namedProduct_pos gh⟩
    have fold := foldlM_groupMember_yields i (pos _ xMem) ms a 1 acc Int.one_pos
      (by unfold Word.maxInt64; decide) members
    have fits : d.DimFits dim ys ↔ (if ms.any (·.kind = .derived) then
        namedProduct ms ∣ s.dims.getD k 0 else namedProduct ms = s.dims.getD k 0) := by
      unfold Decomposition.DimFits
      rw [head]
      simp [ell, paren, hms]
    rw [fits, ← groupFits_iff gh (small _ xMem)]
    simp only [splitDim, ell, paren, hms, read, Bool.false_eq_true, if_false, Bool.not_true]
    refine fold.bind fun _ r hr => show Yields ((ms.map (memberSize (s.dims.getD k 0))).prod =
      s.dims.getD k 0) _ _ from ?_
    subst hr
    have headN : ys.head?.getD 0 = s.dims[k]?.getD 0 := by
      simpa [List.getD_eq_getElem?_getD] using head
    have layout : d.dimLayout dim ys = ms.map fun m => (.axis m.name, memberSize (s.dims.getD k 0) m) := by
      simp [Decomposition.dimLayout, ell, paren, hms, headN]
    have after : a.afterDim d dim ys = a.recordSizes (ms.map fun m => (m.name, memberSize (s.dims.getD k 0) m)) := by
      simp [afterDim, ell, layout, namedSizes]
    by_cases same : (ms.map (memberSize (s.dims.getD k 0))).prod = s.dims.getD k 0
    · refine Yields.of_holds same ⟨_, ?_, rfl⟩
      rw [List.getD_eq_getElem?_getD] at same
      simp [same, after, layout, spanOf, Function.comp_def]
      rfl
    · apply yields_fail same (by decide : ErrorKind.sizeMismatch ≠ _)
      rw [List.getD_eq_getElem?_getD] at same
      simp [same]
      rfl

/-- The assembly after the dimensions of an input are matched, in order, to what they cover. -/
def afterDims (a : Assembly) (d : Decomposition) (ps : List (Dim × List Int)) : Assembly :=
  ps.foldl (fun a p => a.afterDim d p.1 p.2) a

section AfterDims

variable (a : Assembly) (d : Decomposition) (dim : Dim) (ys : List Int)

@[simp] theorem afterDim_width : (a.afterDim d dim ys).width = a.width := by
  unfold afterDim; split <;> simp

@[simp] theorem afterDim_pattern : (a.afterDim d dim ys).pattern = a.pattern := by
  unfold afterDim; split <;> simp

@[simp] theorem afterDim_dtype : (a.afterDim d dim ys).dtype = a.dtype := by
  unfold afterDim; split <;> simp

@[simp] theorem afterDim_dims : (a.afterDim d dim ys).dims = a.dims := by
  unfold afterDim; split <;> simp

@[simp] theorem afterDim_steps : (a.afterDim d dim ys).steps = a.steps := by
  unfold afterDim; split <;> simp

@[simp] theorem afterDims_nil : a.afterDims d [] = a := rfl

@[simp] theorem afterDims_cons (p : Dim × List Int) (ps : List (Dim × List Int)) :
    a.afterDims d (p :: ps) = (a.afterDim d p.1 p.2).afterDims d ps := rfl

variable (ps : List (Dim × List Int))

@[simp] theorem afterDims_width : (a.afterDims d ps).width = a.width := by
  induction ps generalizing a <;> simp [*]

@[simp] theorem afterDims_pattern : (a.afterDims d ps).pattern = a.pattern := by
  induction ps generalizing a <;> simp [*]

@[simp] theorem afterDims_dtype : (a.afterDims d ps).dtype = a.dtype := by
  induction ps generalizing a <;> simp [*]

@[simp] theorem afterDims_dims : (a.afterDims d ps).dims = a.dims := by
  induction ps generalizing a <;> simp [*]

@[simp] theorem afterDims_steps : (a.afterDims d ps).steps = a.steps := by
  induction ps generalizing a <;> simp [*]

theorem afterDims_ellipsisDims : (a.afterDims d ps).ellipsisDims =
    ((ps.filter (·.1.ellipsis)).map (·.2)).getLastD a.ellipsisDims := by
  induction ps generalizing a with
  | nil => rfl
  | cons p ps ih =>
    rw [afterDims_cons, ih]
    by_cases ell : p.1.ellipsis
    · simp only [afterDim, ell, if_true, List.filter_cons, List.map_cons, List.getLastD_cons]
    · simp [afterDim, ell]

theorem namedSizes_append (l₁ l₂ : List (Label × Int)) :
    namedSizes (l₁ ++ l₂) = namedSizes l₁ ++ namedSizes l₂ :=
  List.filterMap_append

theorem lookup_append_getD {l₁ l₂ : List (String × Int)} (distinct : ((l₁ ++ l₂).map Prod.fst).Nodup)
    (x : String) (b : Int) :
    ((l₁ ++ l₂).lookup x).getD b = (l₂.lookup x).getD ((l₁.lookup x).getD b) := by
  rw [List.lookup_append]
  cases h₁ : l₁.lookup x with
  | none => simp
  | some v =>
    have in₁ : x ∈ l₁.map Prod.fst := lookup_isSome_iff_mem.1 (by simp [h₁])
    have not₂ : l₂.lookup x = none := by
      cases h₂ : l₂.lookup x with
      | none => rfl
      | some u =>
        have in₂ : x ∈ l₂.map Prod.fst := lookup_isSome_iff_mem.1 (by simp [h₂])
        rw [List.map_append, List.nodup_append] at distinct
        exact absurd rfl (distinct.2.2 x in₁ x in₂)
    simp [not₂]

theorem sizeOf_afterDim (distinct : ((namedSizes (d.dimLayout dim ys)).map Prod.fst).Nodup)
    (x : String) :
    (a.afterDim d dim ys).sizeOf x = ((namedSizes (d.dimLayout dim ys)).lookup x).getD (a.sizeOf x) := by
  unfold afterDim
  split
  · next ell =>
    have none : namedSizes (d.dimLayout dim ys) = [] := by
      simp [namedSizes, Decomposition.dimLayout, ell]
    rw [none]
    rfl
  · exact sizeOf_recordSizes a _ distinct x

/-- The sizes recorded for the names of the dimensions matched, on top of those before. -/
theorem sizeOf_afterDims : ∀ (ps : List (Dim × List Int)) (a : Assembly),
    ((namedSizes (ps.flatMap fun p => d.dimLayout p.1 p.2)).map Prod.fst).Nodup → ∀ x,
    (a.afterDims d ps).sizeOf x =
      ((namedSizes (ps.flatMap fun p => d.dimLayout p.1 p.2)).lookup x).getD (a.sizeOf x)
  | [], a, _, x => rfl
  | p :: ps, a, distinct, x => by
    rw [List.flatMap_cons, namedSizes_append] at distinct ⊢
    have parts := List.nodup_append.1 (show ((namedSizes (d.dimLayout p.1 p.2)).map Prod.fst ++
        (namedSizes (ps.flatMap fun p => d.dimLayout p.1 p.2)).map Prod.fst).Nodup by
      rw [← List.map_append]
      exact distinct)
    rw [afterDims_cons, sizeOf_afterDims ps _ parts.2.1, sizeOf_afterDim a d p.1 p.2 parts.1,
      lookup_append_getD distinct]

end AfterDims

/-- The dimensions of an input in order, from input dimension `k` on: they succeed exactly when
each fits what it covers, and append the sizes of their axes. -/
theorem foldlM_splitDim_yields (i : Nat) (d : Decomposition) (s : Shape)
    (pos : ∀ y ∈ s.dims, 0 < y) (small : ∀ y ∈ s.dims, y ≤ Word.maxInt64) :
    ∀ (ds : List Dim) (a : Assembly) (acc : List Int) (k : Nat),
    (∀ dim ∈ ds, Dim.Holds dim (d.dimAxes dim)) → (∀ dim ∈ ds, dim.ellipsis → 0 ≤ a.width) →
    k + (ds.map fun dim => spanOf a.width.toNat dim.ellipsis).sum = s.dims.length →
    Yields (∀ p ∈ ds.zip (cutDims a.width.toNat ds (s.dims.drop k)), d.DimFits p.1 p.2)
      (· = (a.afterDims d (ds.zip (cutDims a.width.toNat ds (s.dims.drop k))),
        acc ++ ((ds.zip (cutDims a.width.toNat ds (s.dims.drop k))).flatMap fun p =>
          d.dimLayout p.1 p.2).map Prod.snd,
        s.dims.length))
      (ds.foldlM (splitDim i d s) (a, acc, k))
  | [], a, acc, k, _, _, covered => by
    simp only [List.map_nil, List.sum_nil, Nat.add_zero] at covered
    subst covered
    exact (Yields.pure (by simp [afterDims])).congr (by simp)
  | dim :: ds, a, acc, k, holds, width, covered => by
    rw [List.foldlM_cons]
    simp only [List.map_cons, List.sum_cons] at covered
    have step := splitDim_yields i d s a acc k dim _ rfl (holds dim (by simp)) (by omega)
      (width dim (by simp)) pos small
    refine (step.bind fun _ r hr => show Yields (∀ p ∈ ds.zip (cutDims a.width.toNat ds
      (s.dims.drop (k + spanOf a.width.toNat dim.ellipsis))), d.DimFits p.1 p.2) _ _ from ?_).congr ?_
    · subst hr
      have rest := foldlM_splitDim_yields i d s pos small ds (a.afterDim d dim
        ((s.dims.drop k).take (spanOf a.width.toNat dim.ellipsis)))
        (acc ++ (d.dimLayout dim ((s.dims.drop k).take (spanOf a.width.toNat dim.ellipsis))).map Prod.snd)
        (k + spanOf a.width.toNat dim.ellipsis) (fun dim' mem => holds dim' (by simp [mem]))
        (fun dim' mem => by simpa only [afterDim_width] using width dim' (by simp [mem]))
        (by simp only [afterDim_width]; omega)
      simp only [afterDim_width] at rest
      refine rest.mono ?_
      rintro r rfl
      simp [afterDims, cutDims, List.drop_drop]
    · simp [cutDims, List.drop_drop]

theorem cutDims_length (w : Nat) : ∀ (ds : List Dim) (xs : List Int), (cutDims w ds xs).length = ds.length
  | [], _ => rfl
  | _ :: ds, xs => by simp [cutDims, cutDims_length w ds]

theorem cutDims_congr (w w' : Nat) : ∀ (ds : List Dim), (∀ dim ∈ ds, dim.ellipsis = false) →
    ∀ xs : List Int, cutDims w ds xs = cutDims w' ds xs
  | [], _, _ => rfl
  | dim :: ds, noEll, xs => by
    have ell := noEll dim (by simp)
    simp [cutDims, ell, spanOf, cutDims_congr w w' ds fun d' mem => noEll d' (by simp [mem])]

theorem sum_spanOf (w : Nat) : ∀ ds : List Dim,
    (ds.map fun dim => spanOf w dim.ellipsis).sum = ds.countP (!·.ellipsis) + w * ds.countP (·.ellipsis)
  | [] => rfl
  | dim :: ds => by
    rw [List.map_cons, List.sum_cons, sum_spanOf w ds, List.countP_cons, List.countP_cons]
    cases dim.ellipsis <;> simp [spanOf] <;> ring

end Dims

/-- The step that splits input `i` of shape `s` into the dimensions `dims`. -/
def splitStep (i : Nat) (s : Shape) (dims : List Int) : Step :=
  { kind := .reshapeSplit, input := i, dims, output := s.withDims dims }

/-- What splitting input `i`, of shape `s`, does to an assembly: the sizes of its layout are
appended to the dimensions, the sizes of its names and of its ellipsis are recorded, the width
of its ellipsis is set, and a split step is emitted if it has groups. -/
structure Splits (a a' : Assembly) (i : Nat) (d : Decomposition) (s : Shape) : Prop where
  pattern : a'.pattern = a.pattern
  dtype : a'.dtype = a.dtype
  width : a'.width = if d.hasEllipsis then (d.width s.rank : Int) else a.width
  dims : a'.dims = a.dims ++ (d.layout s).map Prod.snd
  steps : a'.steps = a.steps ++ if d.hasGroups then [splitStep i s ((d.layout s).map Prod.snd)] else []
  sizes : ∀ x, a'.sizeOf x = ((namedSizes (d.layout s)).lookup x).getD (a.sizeOf x)
  ellipsisDims : a'.ellipsisDims =
    if d.hasEllipsis then ((d.cover s).filter (·.1.ellipsis)).flatMap (·.2) else a.ellipsisDims

theorem map_fst_cover (d : Decomposition) (s : Shape) : (d.cover s).map Prod.fst = d.dims :=
  List.map_fst_zip (by simp [cutDims_length])

/-- With at most one ellipsis, the last dimensions recorded for it are the ones it covers. -/
theorem lastEllipsis_cover (d : Decomposition) (s : Shape) (oneEllipsis : d.dims.countP (·.ellipsis) ≤ 1)
    (b : List Int) :
    (((d.cover s).filter (·.1.ellipsis)).map (·.2)).getLastD b =
      if d.hasEllipsis then ((d.cover s).filter (·.1.ellipsis)).flatMap (·.2) else b := by
  have count : ((d.cover s).filter (·.1.ellipsis)).length = d.dims.countP (·.ellipsis) := by
    rw [← List.countP_eq_length_filter, ← map_fst_cover d s, List.countP_map]
    rfl
  have any : d.hasEllipsis = decide (0 < d.dims.countP (·.ellipsis)) := by
    rw [Decomposition.hasEllipsis, Bool.eq_iff_iff, List.any_eq_true, decide_eq_true_iff,
      List.countP_pos_iff]
  rcases Nat.le_one_iff_eq_zero_or_eq_one.1 oneEllipsis with zero | one
  · rw [zero] at count
    rw [List.length_eq_zero_iff.1 count, any, zero]
    rfl
  · rw [one] at count
    obtain ⟨p, only⟩ := List.length_eq_one_iff.1 count
    rw [only, any, one]
    simp

theorem names_dimLayout (d : Decomposition) (dim : Dim) (ys : List Int) :
    (namedSizes (d.dimLayout dim ys)).map Prod.fst =
      if dim.ellipsis then [] else (d.dimAxes dim).map (·.name) := by
  unfold Decomposition.dimLayout
  split <;> simp [namedSizes, Function.comp_def]

/-- The names an input's layout gives sizes to are distinct when its axes' names are. -/
theorem namedSizes_nodup {d : Decomposition} (s : Shape) (holds : d.Holds)
    (distinct : (d.axes.map (·.name)).Nodup) : ((namedSizes (d.layout s)).map Prod.fst).Nodup := by
  have names : (namedSizes (d.layout s)).map Prod.fst =
      d.dims.flatMap fun dim => if dim.ellipsis then [] else (d.dimAxes dim).map (·.name) := by
    rw [Decomposition.layout, namedSizes, List.filterMap_flatMap, List.map_flatMap, ← map_fst_cover d s,
      List.flatMap_map]
    exact List.flatMap_congr fun p _ => names_dimLayout d p.1 p.2
  have sub : (d.dims.flatMap fun dim => if dim.ellipsis then [] else (d.dimAxes dim).map (·.name)).Sublist
      (d.axes.map (·.name)) := by
    rw [← holds.cover, List.map_flatMap]
    exact List.Sublist.flatMap_right _ fun dim _ => by split <;> simp
  rw [names]
  exact sub.nodup distinct

/-- The assembly at the end of a split, from the assembly `a₀` whose width is set. -/
theorem splits_final (a a₀ : Assembly) (i : Nat) (d : Decomposition) (s : Shape) (holds : d.Holds)
    (oneEllipsis : d.dims.countP (·.ellipsis) ≤ 1) (distinct : (d.axes.map (·.name)).Nodup)
    (width : a₀.width = if d.hasEllipsis then (d.width s.rank : Int) else a.width)
    (same : a₀ = { a with width := a₀.width }) :
    Splits a (let a₁ := a₀.afterDims d (d.cover s)
      let a₂ := if d.hasGroups then { a₁ with steps := a₁.steps ++ [splitStep i s ((d.layout s).map Prod.snd)] }
        else a₁
      { a₂ with dims := a₂.dims ++ (d.layout s).map Prod.snd }) i d s := by
  have names := namedSizes_nodup s holds distinct
  have sizes : ∀ x, (a₀.afterDims d (d.cover s)).sizeOf x =
      ((namedSizes (d.layout s)).lookup x).getD (a.sizeOf x) := fun x => by
    rw [sizeOf_afterDims d (d.cover s) a₀ names x, same]
    rfl
  have ellipsis : (a₀.afterDims d (d.cover s)).ellipsisDims =
      if d.hasEllipsis then ((d.cover s).filter (·.1.ellipsis)).flatMap (·.2) else a.ellipsisDims := by
    rw [afterDims_ellipsisDims, lastEllipsis_cover d s oneEllipsis, same]
  have pattern : a₀.pattern = a.pattern := by rw [same]
  have dtype : a₀.dtype = a.dtype := by rw [same]
  have dims : a₀.dims = a.dims := by rw [same]
  have steps : a₀.steps = a.steps := by rw [same]
  by_cases groups : d.hasGroups
  · simp only [groups, if_true]
    exact ⟨by simp [pattern], by simp [dtype], by simp [width], by simp [dims], by simp [steps, splitStep, groups],
      fun x => sizes x, ellipsis⟩
  · simp only [groups, Bool.false_eq_true, if_false]
    exact ⟨by simp [pattern], by simp [dtype], by simp [width], by simp [dims], by simp [steps, groups],
      fun x => sizes x, ellipsis⟩

/-- Splitting an input succeeds exactly when it fits its shape; it then does what `Splits` says,
and otherwise fails with an ordinary error. -/
theorem split_yields (a : Assembly) (i : Nat) (d : Decomposition) (s : Shape) (holds : d.Holds)
    (oneEllipsis : d.dims.countP (·.ellipsis) ≤ 1) (distinct : (d.axes.map (·.name)).Nodup)
    (pos : ∀ y ∈ s.dims, 0 < y) (small : ∀ y ∈ s.dims, y ≤ Word.maxInt64) :
    Yields (d.Fits s) (Splits a · i d s) (a.split i d s) := by
  have count : d.dims.countP (·.ellipsis) + d.dims.countP (!·.ellipsis) = d.dims.length := by
    rw [List.length_eq_countP_add_countP (fun dim : Dim => dim.ellipsis)]
    simp
  have any : d.hasEllipsis = decide (0 < d.dims.countP (·.ellipsis)) := by
    rw [Decomposition.hasEllipsis, Bool.eq_iff_iff, List.any_eq_true, decide_eq_true_iff,
      List.countP_pos_iff]
  unfold split
  by_cases ell : d.hasEllipsis
  · have one : d.dims.countP (·.ellipsis) = 1 := by
      have positive : 0 < d.dims.countP (·.ellipsis) := by
        rw [any] at ell
        exact of_decide_eq_true ell
      omega
    by_cases short : (s.rank : Int) - ((d.dims.length : Int) - 1) < 0
    · apply yields_fail (fun fits => by have := fits.rank; simp [ell] at this; omega)
        (by decide : ErrorKind.rankMismatch ≠ _)
      simp [ell, short]
      rfl
    · have rankOk : d.dims.length ≤ s.rank + 1 := by omega
      simp only [ell, if_true, short, if_false, pure_bind]
      have w : ((s.rank : Int) - ((d.dims.length : Int) - 1)).toNat = d.width s.rank := by
        unfold Decomposition.width
        omega
      have covered : 0 + (d.dims.map fun dim => spanOf (d.width s.rank) dim.ellipsis).sum =
          s.dims.length := by
        rw [sum_spanOf, one]
        unfold Decomposition.width
        simp only [Shape.rank] at short ⊢
        omega
      have fold := foldlM_splitDim_yields i d s pos small d.dims
        { a with width := (s.rank : Int) - ((d.dims.length : Int) - 1) } [] 0 holds.dims
        (fun _ _ _ => by dsimp only; omega) (by simpa [w] using covered)
      simp only [w] at fold
      refine (fold.bind fun _ r hr => show Yields True _ _ from ?_).congr ?_
      · subst hr
        refine Yields.pure (splits_final a _ i d s holds oneEllipsis distinct ?_ rfl)
        simp only [ell, if_true]
        unfold Decomposition.width
        omega
      · exact ⟨fun h => ⟨by simp [ell, rankOk], h.1⟩, fun fits => ⟨fits.dims, trivial⟩⟩
  · have noEll : ∀ dim ∈ d.dims, dim.ellipsis = false := by
      intro dim mem
      by_contra h
      have positive : 0 < d.dims.countP (·.ellipsis) := List.countP_pos_iff.2 ⟨dim, mem, by simpa using h⟩
      rw [any] at ell
      exact ell (decide_eq_true positive)
    have zero : d.dims.countP (·.ellipsis) = 0 := List.countP_eq_zero.2 fun dim mem => by simp [noEll dim mem]
    by_cases mismatch : (s.rank : Int) ≠ d.dims.length
    · apply yields_fail (fun fits => by have := fits.rank; simp [ell] at this; omega)
        (by decide : ErrorKind.rankMismatch ≠ _)
      simp [ell, mismatch]
      rfl
    · simp only [ell, Bool.false_eq_true, if_false, mismatch, pure_bind]
      have cover : d.dims.zip (cutDims a.width.toNat d.dims s.dims) = d.cover s := by
        rw [Decomposition.cover, cutDims_congr a.width.toNat (d.width s.rank) d.dims noEll s.dims]
      have covered : 0 + (d.dims.map fun dim => spanOf a.width.toNat dim.ellipsis).sum =
          s.dims.length := by
        rw [sum_spanOf, zero]
        simp only [Shape.rank] at mismatch
        omega
      have fold := foldlM_splitDim_yields i d s pos small d.dims a [] 0 holds.dims
        (fun dim mem ell => by simp [noEll dim mem] at ell) covered
      rw [List.drop_zero, cover] at fold
      refine (fold.bind fun _ r hr => show Yields True _ _ from ?_).congr ?_
      · subst hr
        exact Yields.pure (splits_final a a i d s holds oneEllipsis distinct (by simp [ell]) rfl)
      · have rankOk : s.rank = d.dims.length := by omega
        exact ⟨fun h => ⟨by simp [ell, rankOk], h.1⟩, fun fits => ⟨fits.dims, trivial⟩⟩

end Assembly

end Rearrange.Plan

import Rearrange.Proofs.Positions
import Rearrange.Proofs.InputsAccepted
import Rearrange.Proofs.Lexemes
/-!
# What a read input side holds

Reading the input side of a tree gives one decomposition per input, whose dimensions hold its
axes in order (`Decomposition.Holds`): a dimension holds the ellipsis alone, one named axis, or a
parenthesized group whose members all have a positive size but for at most one, derived, that
knows the product of the others' sizes (`GroupHolds`).

Across the inputs, the axes carry, in order, the kind, name and reduction of the items of the
tree (`Axis.signature`), and the positions of one counter (`Positions.indices`). The name table
lists the kept axes in order with the positions of a second counter, which skips the reduced
ones. `readInputs_holds` and `build_table` state these facts.
-/
namespace Rearrange.Pattern

def Axis.isEllipsis (a : Axis) : Bool := decide (a.kind = .ellipsis)

/-- What reading keeps of an item's axis: whether it is the ellipsis, its name and reduction. -/
def Axis.signature (a : Axis) : Bool × String × Reduction := (a.isEllipsis, a.name, a.reduce)

/-- The signatures of the axes an item stands for. -/
def InputTerm.signature : InputTerm → List (Bool × String × Reduction)
  | axis a => [(false, a.name, a.reduce)]
  | ellipsis _ => [(true, ellipsisName, .none)]
  | group ms => ms.map fun a => (false, a.name, a.reduce)

/-- The product of the sizes of a group's named members. -/
def namedProduct (ms : List Axis) : Int := ((ms.filter (·.kind = .named)).map (·.size)).prod

/-- The members of a read group: each has a positive size, but for at most one, derived, which
knows the product of the others' sizes; that product is a signed 64-bit word. -/
structure GroupHolds (ms : List Axis) : Prop where
  member : ∀ a ∈ ms, (a.kind = .named ∧ 0 < a.size) ∨
    (a.kind = .derived ∧ a.size = 0 ∧ a.siblingsSize = namedProduct ms)
  one_derived : (ms.filter (·.kind = .derived)).length ≤ 1
  fits : namedProduct ms ≤ Word.maxInt64

/-- How a dimension of a read decomposition holds its axes. -/
inductive Dim.Holds : Dim → List Axis → Prop
  | ellipsis {dim : Dim} {a : Axis} : dim.ellipsis = true → dim.parenthesized = false →
      a.kind = .ellipsis → a.reduce = .none → Dim.Holds dim [a]
  | bare {dim : Dim} {a : Axis} : dim.ellipsis = false → dim.parenthesized = false →
      a.kind = .named → 0 ≤ a.size → Dim.Holds dim [a]
  | group {dim : Dim} {ms : List Axis} : dim.ellipsis = false → dim.parenthesized = true →
      GroupHolds ms → Dim.Holds dim ms

/-- A read decomposition: its dimensions hold its axes, one after the other. -/
structure Decomposition.Holds (d : Decomposition) : Prop where
  within : ∀ dim ∈ d.dims, dim.first + dim.count ≤ d.axes.length
  cover : d.dims.flatMap d.dimAxes = d.axes
  dims : ∀ dim ∈ d.dims, Dim.Holds dim (d.dimAxes dim)

theorem Decomposition.holds_empty (i : Nat) : ({ input := i } : Decomposition).Holds :=
  ⟨by simp, by simp, by simp⟩

theorem Decomposition.dimAxes_append (d : Decomposition) (new : List Axis) (dims : List Dim)
    {dim : Dim} (within : dim.first + dim.count ≤ d.axes.length) :
    ({ d with axes := d.axes ++ new, dims } : Decomposition).dimAxes dim = d.dimAxes dim := by
  simp only [Decomposition.dimAxes]
  rw [List.drop_append_of_le_length (by omega), List.take_append_of_le_length (by simp; omega)]

/-- Appending axes with a dimension that holds them keeps a decomposition read. -/
theorem Decomposition.Holds.append {d : Decomposition} (hd : d.Holds) (new : List Axis) (dim : Dim)
    (first : dim.first = d.axes.length) (count : dim.count = new.length) (holds : Dim.Holds dim new) :
    ({ d with axes := d.axes ++ new, dims := d.dims ++ [dim] } : Decomposition).Holds := by
  have same : ∀ old ∈ d.dims,
      ({ d with axes := d.axes ++ new, dims := d.dims ++ [dim] } : Decomposition).dimAxes old =
        d.dimAxes old := fun old mem => Decomposition.dimAxes_append d new _ (hd.within old mem)
  have last : ({ d with axes := d.axes ++ new, dims := d.dims ++ [dim] } : Decomposition).dimAxes dim =
      new := by
    simp only [Decomposition.dimAxes, first, count]
    simp
  refine ⟨?_, ?_, ?_⟩
  · intro old mem
    rcases List.mem_append.1 mem with mem | mem
    · have := hd.within old mem
      simp only [List.length_append]
      omega
    · rw [List.mem_singleton.1 mem]
      simp [first, count]
  · rw [List.flatMap_append, List.flatMap_congr same, hd.cover]
    simp [last]
  · intro old mem
    rcases List.mem_append.1 mem with mem | mem
    · rw [same old mem]
      exact hd.dims old mem
    · rw [List.mem_singleton.1 mem, last]
      exact holds

theorem namedProduct_cons (a : Axis) (ms : List Axis) :
    namedProduct (a :: ms) = (if a.kind = .named then a.size else 1) * namedProduct ms := by
  by_cases named : a.kind = .named <;> simp [namedProduct, named]

theorem namedProduct_append_named (ms : List Axis) {a : Axis} (named : a.kind = .named) :
    namedProduct (ms ++ [a]) = namedProduct ms * a.size := by
  simp [namedProduct, named]

theorem namedProduct_append_derived (ms : List Axis) {a : Axis} (derived : a.kind = .derived) :
    namedProduct (ms ++ [a]) = namedProduct ms := by
  simp [namedProduct, derived]

/-- The members of a group read so far: named with a positive size, or derived with none; the
derived one, if any, is at index `derived` of the input's axes; `siblings` is the product of the
named members' sizes, a positive signed 64-bit word. -/
structure PreGroup (first : Nat) (pre : List Axis) (derived : Option Nat) (siblings : Int) :
    Prop where
  member : ∀ a ∈ pre, (a.kind = .named ∧ 0 < a.size) ∨ (a.kind = .derived ∧ a.size = 0)
  count : (pre.filter (·.kind = .derived)).length = derived.isSome.toNat
  at_derived : ∀ k (hk : k < pre.length), pre[k].kind = .derived → derived = some (first + k)
  product : siblings = namedProduct pre
  positive : 0 < siblings
  fits : siblings ≤ Word.maxInt64

/-- Gives the derived members of a group the product `c` of the others' sizes. -/
def setSiblings (c : Int) (ms : List Axis) : List Axis :=
  ms.map fun a => if a.kind = .derived then { a with siblingsSize := c } else a

@[simp] theorem setSiblings_length (c : Int) (ms : List Axis) : (setSiblings c ms).length = ms.length := by
  simp [setSiblings]

theorem setSiblings_map {β : Type} (f : Axis → β) (keeps : ∀ a c, f { a with siblingsSize := c } = f a)
    (c : Int) (ms : List Axis) : (setSiblings c ms).map f = ms.map f := by
  simp only [setSiblings, List.map_map]
  apply List.map_congr_left
  intro a _
  simp only [Function.comp_apply]
  split
  · exact keeps a c
  · rfl

theorem namedProduct_setSiblings (c : Int) : ∀ ms : List Axis,
    namedProduct (setSiblings c ms) = namedProduct ms
  | [] => rfl
  | a :: ms => by
    have rest := namedProduct_setSiblings c ms
    simp only [setSiblings, List.map_cons] at rest ⊢
    rw [namedProduct_cons, namedProduct_cons, rest]
    split <;> rfl

theorem setSiblings_filter_derived (c : Int) (ms : List Axis) :
    ((setSiblings c ms).filter (·.kind = .derived)).length = (ms.filter (·.kind = .derived)).length := by
  simp only [setSiblings, List.filter_map, List.length_map]
  congr 1
  apply List.filter_congr
  intro a _
  simp only [Function.comp_apply]
  split <;> rfl

/-- A group read to its end holds its members, once the derived one knows the product. -/
theorem PreGroup.close {first : Nat} {pre : List Axis} {derived : Option Nat} {siblings : Int}
    (h : PreGroup first pre derived siblings) : GroupHolds (setSiblings siblings pre) := by
  refine ⟨?_, ?_, ?_⟩
  · intro a mem
    obtain ⟨b, bMem, rfl⟩ := List.mem_map.1 mem
    rcases h.member b bMem with ⟨named, pos⟩ | ⟨derivedKind, unsized⟩
    · have : b.kind ≠ .derived := by rw [named]; decide
      simp only [this, if_false]
      exact .inl ⟨named, pos⟩
    · rw [if_pos derivedKind]
      exact .inr ⟨derivedKind, unsized, by rw [namedProduct_setSiblings, h.product]⟩
  · rw [setSiblings_filter_derived, h.count]
    cases derived <;> simp
  · rw [namedProduct_setSiblings, ← h.product]
    exact h.fits

theorem PreGroup.no_derived {first : Nat} {pre : List Axis} {siblings : Int}
    (h : PreGroup first pre none siblings) : ∀ a ∈ pre, a.kind ≠ .derived := by
  intro a mem derivedKind
  have := h.count
  simp only [Option.isSome_none, Bool.toNat_false, List.length_eq_zero_iff, List.filter_eq_nil_iff] at this
  exact this a mem (by simp [derivedKind])

/-- Closing a group sets the derived member's product at its index, the only derived one. -/
theorem closeGroup_axes (d0 : Decomposition) {pre : List Axis} {derived : Option Nat}
    {siblings : Int} (h : PreGroup d0.axes.length pre derived siblings) :
    (closeGroup d0.axes.length { d0 with axes := d0.axes ++ pre } derived siblings).axes =
      d0.axes ++ setSiblings siblings pre := by
  unfold closeGroup
  cases derived with
  | none =>
    have same : setSiblings siblings pre = pre := by
      conv => rhs; rw [← List.map_id pre]
      apply List.map_congr_left
      intro a mem
      simp [h.no_derived a mem]
    simp [same]
  | some i =>
    have one := h.count
    simp only [Option.isSome_some, Bool.toNat_true] at one
    obtain ⟨b, bMem⟩ : ∃ b, b ∈ pre.filter (·.kind = .derived) := List.exists_mem_of_length_pos (by omega)
    obtain ⟨k, hk, rfl⟩ := List.getElem_of_mem (List.mem_filter.1 bMem).1
    have at_i : some i = some (d0.axes.length + k) :=
      h.at_derived k hk (by simpa using (List.mem_filter.1 bMem).2)
    simp only [Option.some.injEq] at at_i
    subst at_i
    simp only
    apply List.ext_getElem (by simp)
    intro j hj _
    rw [List.getElem_modify]
    by_cases before : j < d0.axes.length
    · rw [List.getElem_append_left before, List.getElem_append_left before]
      have : ¬ (d0.axes.length + k = j) := by omega
      simp [this]
    · have hj' : j - d0.axes.length < pre.length := by simp at hj; omega
      rw [List.getElem_append_right (by omega), List.getElem_append_right (by omega)]
      simp only [setSiblings, List.getElem_map]
      by_cases here : d0.axes.length + k = j
      · obtain rfl : k = j - d0.axes.length := by omega
        rw [if_pos here, if_pos (by simpa using (List.mem_filter.1 bMem).2)]
      · have notDerived : pre[j - d0.axes.length].kind ≠ .derived := by
          intro derivedKind
          have := h.at_derived (j - d0.axes.length) hj' derivedKind
          simp only [Option.some.injEq] at this
          omega
        rw [if_neg here, if_neg notDerived]

theorem closeGroup_eq (d0 : Decomposition) {pre : List Axis} {derived : Option Nat}
    {siblings : Int} (h : PreGroup d0.axes.length pre derived siblings) :
    closeGroup d0.axes.length { d0 with axes := d0.axes ++ pre } derived siblings =
      { d0 with axes := d0.axes ++ setSiblings siblings pre,
                dims := d0.dims ++ [{ first := d0.axes.length, count := pre.length, parenthesized := true }] } := by
  have axes := closeGroup_axes d0 h
  unfold closeGroup at axes ⊢
  simp only at axes ⊢
  rw [axes]
  simp

section Reading

variable (sizes : List (String × Int))

theorem InputAxis.read_kind {a : InputAxis} {axis : Axis} (h : a.read sizes = some axis) :
    axis.kind = .named ∧ 0 ≤ axis.size := by
  unfold InputAxis.read at h
  obtain ⟨k, sized, rfl⟩ := Option.map_eq_some_iff.1 h
  refine ⟨rfl, ?_⟩
  obtain ⟨given, givenPos⟩ := readSize_eq sized
  cases hg : givenSize sizes a.name a.size with
  | none =>
    rw [hg] at given
    simp only [Option.getD_none] at given
    simp [← given]
  | some g =>
    rw [hg] at given
    have := givenPos g hg
    simp only [Option.getD_some] at given
    simp only
    omega

/-- Reading the rest of a group appends its members and closes the group with one parenthesized
dimension; the derived member, if any, learns the product of the others' sizes. -/
theorem readGroup_holds (d0 : Decomposition) : ∀ (ms : List InputAxis) (pos : Positions)
    (pre : List Axis) (derived : Option Nat) (siblings : Int) (res : Positions × Decomposition),
    readGroup sizes d0.axes.length pos { d0 with axes := d0.axes ++ pre } derived siblings false ms =
      some res →
    PreGroup d0.axes.length pre derived siblings →
    ∃ rest : List Axis, ∃ c : Int,
      res.1 = ⟨pos.next + ms.length, pos.pastEllipsis⟩ ∧
      res.2 = { d0 with axes := d0.axes ++ setSiblings c (pre ++ rest),
                        dims := d0.dims ++ [{ first := d0.axes.length, count := pre.length + rest.length,
                                              parenthesized := true }] } ∧
      GroupHolds (setSiblings c (pre ++ rest)) ∧
      rest.map Axis.signature = ms.map (fun a => (false, a.name, a.reduce)) ∧
      rest.map (·.index) = pos.indices (ms.map fun _ => false)
  | [], pos, pre, derived, siblings, res, ok, h => by
    simp only [readGroup, Bool.false_eq_true, if_false, Option.some.injEq] at ok
    subst ok
    refine ⟨[], siblings, by simp, ?_, by simpa using h.close, by simp, by simp [Positions.indices]⟩
    simpa using closeGroup_eq d0 h
  | a :: ms, pos, pre, derived, siblings, res, ok, h => by
    rw [readGroup_cons] at ok
    obtain ⟨axis, hread, ok⟩ := Option.bind_eq_some_iff.1 ok
    obtain ⟨named, sizeNonneg⟩ := InputAxis.read_kind sizes hread
    obtain ⟨-, sameName, sameReduce⟩ := InputAxis.readSize_of_read sizes hread
    simp only [groupStep] at ok
    -- the member read joins the group as derived or named; either way the group stays read
    obtain ⟨m, derived', siblings', ok', next, signature, index⟩ :
        ∃ (m : Axis) (derived' : Option Nat) (siblings' : Int),
          readGroup sizes d0.axes.length pos.take.2 { d0 with axes := d0.axes ++ (pre ++ [m]) }
            derived' siblings' false ms = some res ∧
          PreGroup d0.axes.length (pre ++ [m]) derived' siblings' ∧
          m.signature = (false, a.name, a.reduce) ∧ m.index = pos.take.1 := by
      by_cases unsized : axis.size = 0
      · cases derived with
        | some i =>
          simp only [unsized, if_true, readGroup_spoilt] at ok
          cases ok
        | none =>
          simp only [unsized, if_true] at ok
          refine ⟨{ { axis with index := pos.take.1 } with kind := .derived },
            some (d0.axes.length + pre.length), siblings, by simpa [List.append_assoc, unsized] using ok,
            ⟨?_, ?_, ?_, ?_, h.positive, h.fits⟩, by simp [Axis.signature, Axis.isEllipsis, sameName,
              sameReduce], rfl⟩
          · intro b mem
            rcases List.mem_append.1 mem with mem | mem
            · exact h.member b mem
            · rw [List.mem_singleton.1 mem]
              exact .inr ⟨rfl, unsized⟩
          · have := h.count
            simp only [Option.isSome_none, Bool.toNat_false] at this
            simp [List.filter_append, this]
          · intro k hk derivedKind
            by_cases old : k < pre.length
            · rw [List.getElem_append_left old] at derivedKind
              exact absurd derivedKind (h.no_derived _ (List.getElem_mem old))
            · simp at hk
              congr 2
              omega
          · rw [namedProduct_append_derived pre rfl]
            exact h.product
      · have sizePos : 0 < axis.size := by omega
        have positive := h.positive
        simp only [unsized, if_false] at ok
        rw [Word.checkedMul_of_nonneg siblings axis.size (by omega) (by omega)] at ok
        by_cases within : siblings * axis.size ≤ Word.maxInt64
        · simp only [within, if_true] at ok
          refine ⟨{ axis with index := pos.take.1 }, derived, siblings * axis.size,
            by simpa [List.append_assoc] using ok,
            ⟨?_, ?_, ?_, ?_, Int.mul_pos positive sizePos, within⟩,
            by simp [Axis.signature, Axis.isEllipsis, named, sameName, sameReduce], rfl⟩
          · intro b mem
            rcases List.mem_append.1 mem with mem | mem
            · exact h.member b mem
            · rw [List.mem_singleton.1 mem]
              exact .inl ⟨named, sizePos⟩
          · rw [← h.count]
            simp [List.filter_append, named]
          · intro k hk derivedKind
            by_cases old : k < pre.length
            · rw [List.getElem_append_left old] at derivedKind
              exact h.at_derived k old derivedKind
            · have last : k = pre.length := by simp at hk; omega
              subst last
              simp [named] at derivedKind
          · rw [namedProduct_append_named pre
              (show ({ axis with index := pos.take.1 } : Axis).kind = .named from named), h.product]
        · simp only [within, if_false, readGroup_spoilt] at ok
          cases ok
    obtain ⟨rest, c, first, decomposition, holds, restSignature, restIndex⟩ :=
      readGroup_holds d0 ms pos.take.2 (pre ++ [m]) derived' siblings' res ok' next
    refine ⟨m :: rest, c, ?_, ?_, ?_, ?_, ?_⟩
    · rw [first]
      simp only [Positions.take, List.length_cons, Positions.mk.injEq, and_true]
      omega
    · rw [decomposition]
      have count : (pre ++ [m]).length + rest.length = pre.length + (m :: rest).length := by
        simp
        omega
      rw [count, List.append_assoc, List.singleton_append]
    · simpa [List.append_assoc] using holds
    · simp [restSignature, signature]
    · simp [restIndex, Positions.indices, index]

theorem readTerms_ellipsis (pos : Positions) (d : Decomposition) (q : Nat) (ts : List InputTerm) :
    readTerms sizes pos d (.ellipsis q :: ts) =
      readTerms sizes pos.takeRange.2
        { d with axes := d.axes ++ [{ kind := .ellipsis, name := ellipsisName, index := pos.takeRange.1,
                                      pos := q }],
                 dims := d.dims ++ [{ first := d.axes.length, count := 1, ellipsis := true }] } ts :=
  rfl

theorem preGroup_empty (first : Nat) : PreGroup first [] none 1 :=
  ⟨by simp, by simp, by simp, rfl, by decide, by unfold Word.maxInt64; decide⟩

/-- Reading the items of an input appends their axes and dimensions to a read decomposition; the
new axes carry the items' signatures and the counter's positions. -/
theorem readTerms_holds : ∀ (ts : List InputTerm) (pos : Positions) (d : Decomposition)
    (res : Positions × Decomposition), readTerms sizes pos d ts = some res → d.Holds →
    ∃ new : List Axis, res.2.axes = d.axes ++ new ∧ res.2.Holds ∧
      new.map Axis.signature = ts.flatMap InputTerm.signature ∧
      new.map (·.index) = pos.indices (new.map Axis.isEllipsis) ∧
      res.1 = ⟨pos.next + new.length, pos.pastEllipsis || new.any Axis.isEllipsis⟩
  | [], pos, d, res, ok, hd => by
    cases ok
    exact ⟨[], by simp, hd, rfl, rfl, by simp⟩
  | .axis a :: ts, pos, d, res, ok, hd => by
    rw [readTerms_axis] at ok
    obtain ⟨axis, hread, ok⟩ := Option.bind_eq_some_iff.1 ok
    obtain ⟨named, sizeNonneg⟩ := InputAxis.read_kind sizes hread
    obtain ⟨-, sameName, sameReduce⟩ := InputAxis.readSize_of_read sizes hread
    have next := hd.append [{ axis with index := pos.take.1 }] { first := d.axes.length, count := 1 }
      rfl rfl (Dim.Holds.bare rfl rfl named sizeNonneg)
    obtain ⟨new, axes, holds, signature, index, counter⟩ := readTerms_holds ts _ _ res ok next
    have plain : Axis.isEllipsis { axis with index := pos.take.1 } = false := by
      simp [Axis.isEllipsis, named]
    refine ⟨{ axis with index := pos.take.1 } :: new, by simp [axes], holds, ?_, ?_, ?_⟩
    · simp [signature, InputTerm.signature, Axis.signature, Axis.isEllipsis, named, sameName,
        sameReduce]
    · simp only [List.map_cons, plain, Positions.indices, index]
    · rw [counter]
      simp [Positions.take, Axis.isEllipsis, named]
      omega
  | .ellipsis q :: ts, pos, d, res, ok, hd => by
    rw [readTerms_ellipsis] at ok
    have next := hd.append [{ kind := .ellipsis, name := ellipsisName, index := pos.takeRange.1, pos := q }]
      { first := d.axes.length, count := 1, ellipsis := true } rfl rfl (Dim.Holds.ellipsis rfl rfl rfl rfl)
    obtain ⟨new, axes, holds, signature, index, counter⟩ := readTerms_holds ts _ _ res ok next
    refine ⟨{ kind := .ellipsis, name := ellipsisName, index := pos.takeRange.1, pos := q } :: new,
      by simp [axes], holds, ?_, ?_, ?_⟩
    · simp [signature, InputTerm.signature, Axis.signature, Axis.isEllipsis]
    · simp only [List.map_cons, Axis.isEllipsis, decide_true, Positions.indices, index]
    · rw [counter]
      simp only [Positions.takeRange, List.length_cons, List.any_cons, Axis.isEllipsis, decide_true,
        Bool.true_or, Bool.or_true, Positions.mk.injEq, and_true]
      omega
  | .group ms :: ts, pos, d, res, ok, hd => by
    rw [readTerms_group] at ok
    obtain ⟨mid, grouped, ok⟩ := Option.bind_eq_some_iff.1 ok
    have grouped' : readGroup sizes d.axes.length pos { d with axes := d.axes ++ [] } none 1 false ms =
        some mid := by
      rw [List.append_nil]
      exact grouped
    obtain ⟨rest, c, first, decomposition, groupHolds, restSignature, restIndex⟩ :=
      readGroup_holds sizes d ms pos [] none 1 mid grouped' (preGroup_empty _)
    simp only [List.nil_append, List.length_nil, Nat.zero_add] at decomposition groupHolds
    have next := hd.append (setSiblings c rest)
      { first := d.axes.length, count := rest.length, parenthesized := true } rfl (by simp)
      (Dim.Holds.group rfl rfl groupHolds)
    rw [← decomposition] at next
    obtain ⟨new, axes, holds, signature, index, counter⟩ := readTerms_holds ts _ _ res ok next
    have restPlain : rest.map Axis.isEllipsis = ms.map fun _ => false := by
      have := congrArg (List.map Prod.fst) restSignature
      simpa [List.map_map, Function.comp_def, Axis.signature] using this
    have groupPlain : (setSiblings c rest).map Axis.isEllipsis = ms.map fun _ => false := by
      rw [setSiblings_map Axis.isEllipsis (fun _ _ => rfl), restPlain]
    have length : rest.length = ms.length := by
      simpa using congrArg List.length restPlain
    refine ⟨setSiblings c rest ++ new, by rw [axes, decomposition]; simp, holds, ?_, ?_, ?_⟩
    · rw [List.map_append, setSiblings_map Axis.signature (fun _ _ => rfl), restSignature, signature]
      simp [InputTerm.signature]
    · rw [List.map_append, List.map_append, setSiblings_map (·.index) (fun _ _ => rfl), restIndex,
        index, groupPlain, Positions.indices_append, first]
      simp
    · rw [counter, first]
      simp only [List.length_append, setSiblings_length, List.any_append, Positions.mk.injEq]
      have noEllipsis : (setSiblings c rest).any Axis.isEllipsis = false := by
        rw [show (setSiblings c rest).any Axis.isEllipsis =
          ((setSiblings c rest).map Axis.isEllipsis).any id by simp [List.any_map], groupPlain]
        simp
      rw [noEllipsis, length]
      simp only [Bool.false_or, and_true]
      omega

theorem readInputs_cons' (pos : Positions) (done : List Decomposition) (ts : List InputTerm)
    (more : List (List InputTerm)) :
    readInputs sizes pos done (ts :: more) =
      (readTerms sizes pos { input := done.length } ts).bind fun res =>
        readInputs sizes res.1 (done ++ [res.2]) more :=
  rfl

/-- Reading the inputs gives read decompositions; the axes of all inputs carry the items'
signatures and the positions of one counter. -/
theorem readInputs_holds : ∀ (tss : List (List InputTerm)) (pos : Positions)
    (done ds : List Decomposition), readInputs sizes pos done tss = some ds →
    (∀ d ∈ done, d.Holds) →
    (∀ d ∈ ds, d.Holds) ∧ ∃ new : List Axis, allAxes ds = allAxes done ++ new ∧
      new.map Axis.signature = tss.flatten.flatMap InputTerm.signature ∧
      new.map (·.index) = pos.indices (new.map Axis.isEllipsis)
  | [], pos, done, ds, ok, hdone => by
    cases ok
    exact ⟨hdone, [], by simp, rfl, rfl⟩
  | ts :: more, pos, done, ds, ok, hdone => by
    rw [readInputs_cons'] at ok
    obtain ⟨mid, terms, ok⟩ := Option.bind_eq_some_iff.1 ok
    obtain ⟨first, firstAxes, firstHolds, firstSignature, firstIndex, counter⟩ :=
      readTerms_holds sizes ts pos _ mid terms (Decomposition.holds_empty _)
    have doneHold : ∀ d ∈ done ++ [mid.2], d.Holds := by
      intro d mem
      rcases List.mem_append.1 mem with mem | mem
      · exact hdone d mem
      · rw [List.mem_singleton.1 mem]
        exact firstHolds
    obtain ⟨hds, later, allAxesEq, laterSignature, laterIndex⟩ :=
      readInputs_holds more mid.1 (done ++ [mid.2]) ds ok doneHold
    refine ⟨hds, first ++ later, ?_, ?_, ?_⟩
    · rw [allAxesEq]
      simp [allAxes, firstAxes]
    · rw [List.map_append, firstSignature, laterSignature]
      simp
    · rw [List.map_append, List.map_append, firstIndex, laterIndex, counter,
        Positions.indices_append]
      simp [List.any_map]

end Reading

section Table

variable (pattern : String)

/-- Building the table adds the kept axes in order, with the positions of a counter that skips
the reduced ones, and the names of the reduced axes. -/
theorem foldlM_add_table : ∀ (axes : List Axis) (b b' : TableBuild),
    axes.foldlM (TableBuild.add pattern) b = .ok b' →
    b'.table.entries = b.table.entries ++ ((axes.filter (!·.isReduced)).map (·.name)).zip
        (b.positions.indices ((axes.filter (!·.isReduced)).map Axis.isEllipsis)) ∧
    b'.table.reduced = b.table.reduced ++ (axes.filter (·.isReduced)).map (·.name)
  | [], b, b', ok => by
    cases ok
    simp [Positions.indices]
  | a :: axes, b, b', ok => by
    rw [List.foldlM_cons] at ok
    obtain ⟨b1, added, ok⟩ := Except.bind_eq_ok.1 ok
    obtain ⟨entries, reduced⟩ := foldlM_add_table axes b1 b' ok
    unfold TableBuild.add at added
    cases hl : b.seen.lookup a.name with
    | some firstPos =>
      rw [hl] at added
      cases added
    | none =>
      rw [hl] at added
      by_cases red : a.isReduced
      · simp only [red, if_true, Except.ok.injEq] at added
        subst added
        simp [entries, reduced, red]
      · simp only [red, Bool.false_eq_true, if_false, Except.ok.injEq] at added
        subst added
        refine ⟨?_, by simp [reduced, red]⟩
        rw [entries]
        by_cases ell : a.kind = .ellipsis
        · simp [red, ell, Axis.isEllipsis, Positions.indices]
        · simp [red, ell, Axis.isEllipsis, Positions.indices]

theorem build_table {ds : List Decomposition} {t : NameTable} (ok : NameTable.build pattern ds = .ok t) :
    t.entries = (((allAxes ds).filter (!·.isReduced)).map (·.name)).zip
        (Positions.indices {} (((allAxes ds).filter (!·.isReduced)).map Axis.isEllipsis)) ∧
    t.reduced = ((allAxes ds).filter (·.isReduced)).map (·.name) := by
  unfold NameTable.build at ok
  obtain ⟨b, folded, rfl⟩ := Except.map_eq_ok.1 ok
  simpa using foldlM_add_table pattern (allAxes ds) {} b folded

end Table

/-- What reading guarantees of the input side of an expression: read decompositions, the
positions of one counter on the axes of all inputs, distinct names, the ellipsis alone called
`..`, reductions that the shape rules know, and a name table of the kept axes with the positions
of a second counter. -/
structure Expression.InputsHold (e : Expression) : Prop where
  inputs : ∀ d ∈ e.inputs, d.Holds
  indices : (allAxes e.inputs).map (·.index) =
    Positions.indices {} ((allAxes e.inputs).map Axis.isEllipsis)
  names : ((allAxes e.inputs).map (·.name)).Nodup
  ellipsis : ∀ a ∈ allAxes e.inputs, a.isEllipsis = true ↔ a.name = ellipsisName
  ops : ∀ a ∈ allAxes e.inputs, a.isReduced = true →
    (Shape.isNumberReduction a.reduce || Shape.isOrderReduction a.reduce) = true
  entries : e.names.entries = (((allAxes e.inputs).filter (!·.isReduced)).map (·.name)).zip
    (Positions.indices {} (((allAxes e.inputs).filter (!·.isReduced)).map Axis.isEllipsis))
  reduced : e.names.reduced = ((allAxes e.inputs).filter (·.isReduced)).map (·.name)
  reductions : e.reductions = reducedAxes e.inputs

namespace PatternSyntax

variable (p : PatternSyntax) {sizes : List (String × Int)}

theorem read_eq_some {text : String} {n : Int} {e : Expression} (h : p.read text n sizes = some e) :
    ∃ ds t out, readInputs sizes {} [] p.inputs = some ds ∧ (ds.length : Int) = n ∧
      NameTable.build text ds = .ok t ∧ readOutput sizes t {} p.output = some out ∧
      e = { pattern := text, inputs := ds, reductions := reducedAxes ds, names := t,
            output := out.slots, permutation := out.permutation, newAxes := out.newAxes,
            outputSizes := out.outputSizes } := by
  unfold PatternSyntax.read at h
  cases inputsOk : readInputs sizes {} [] p.inputs with
  | none => simp [inputsOk] at h
  | some ds =>
    rw [inputsOk] at h
    by_cases arity : (ds.length : Int) = n
    · cases built : NameTable.build text ds with
      | error err => simp [arity, built] at h
      | ok t =>
        cases outOk : readOutput sizes t {} p.output with
        | none => simp [arity, built, outOk] at h
        | some out =>
          simp [arity, built, outOk] at h
          exact ⟨ds, t, out, rfl, arity, built, outOk, h.symm⟩
    · simp [arity] at h

theorem InputTerm.signature_names (t : InputTerm) : t.signature.map (·.2.1) = t.names := by
  cases t <;> simp [InputTerm.signature, InputTerm.names, Function.comp_def]

/-- The input side of a tree read with well written names holds. -/
theorem inputsHold {text : String} {n : Int} {e : Expression} (h : p.read text n sizes = some e)
    (distinct : p.leftNames.Nodup)
    (written : ∀ a ∈ p.inputAxes, a.name ≠ ellipsisName ∧
      (a.reduce ≠ .none → (Shape.isNumberReduction a.reduce || Shape.isOrderReduction a.reduce) = true)) :
    e.InputsHold := by
  obtain ⟨ds, t, out, inputsOk, -, built, -, rfl⟩ := p.read_eq_some h
  obtain ⟨holds, new, axesEq, signature, index⟩ :=
    readInputs_holds sizes p.inputs {} [] ds inputsOk (by simp)
  simp only [allAxes, List.flatMap_nil, List.nil_append] at axesEq
  have axes : allAxes ds = new := axesEq
  have origin : ∀ a ∈ allAxes ds, (a.isEllipsis = true ∧ a.name = ellipsisName ∧ a.reduce = .none) ∨
      (a.isEllipsis = false ∧ ∃ b ∈ p.inputAxes, a.name = b.name ∧ a.reduce = b.reduce) := by
    intro a mem
    have sigMem : a.signature ∈ p.inputTerms.flatMap InputTerm.signature := by
      rw [PatternSyntax.inputTerms, ← signature]
      exact List.mem_map.2 ⟨a, axes ▸ mem, rfl⟩
    obtain ⟨term, termMem, inTerm⟩ := List.mem_flatMap.1 sigMem
    cases term with
    | axis b =>
      simp only [InputTerm.signature, List.mem_singleton, Axis.signature, Prod.mk.injEq] at inTerm
      exact .inr ⟨inTerm.1, b, List.mem_flatMap.2 ⟨_, termMem, by simp [InputTerm.axes]⟩, inTerm.2.1,
        inTerm.2.2⟩
    | ellipsis q =>
      simp only [InputTerm.signature, List.mem_singleton, Axis.signature, Prod.mk.injEq] at inTerm
      exact .inl inTerm
    | group ms =>
      simp only [InputTerm.signature, List.mem_map, Axis.signature, Prod.mk.injEq] at inTerm
      obtain ⟨b, bMem, ell, name, reduce⟩ := inTerm
      exact .inr ⟨ell.symm, b, List.mem_flatMap.2 ⟨_, termMem, by simpa [InputTerm.axes] using bMem⟩,
        name.symm, reduce.symm⟩
  obtain ⟨entries, reduced⟩ := build_table text built
  refine ⟨holds, axes ▸ index, ?_, ?_, ?_, entries, reduced, rfl⟩
  · have names : (allAxes ds).map (·.name) = p.leftNames := by
      have := congrArg (List.map (·.2.1)) signature
      simp only [List.map_map, List.map_flatMap, InputTerm.signature_names] at this
      rw [axes]
      exact this
    rw [names]
    exact distinct
  · intro a mem
    rcases origin a mem with ⟨ell, name, -⟩ | ⟨ell, b, bMem, name, -⟩
    · simp [ell, name]
    · simp only [ell, Bool.false_eq_true, false_iff]
      rw [name]
      exact (written b bMem).1
  · intro a mem red
    rcases origin a mem with ⟨-, -, none⟩ | ⟨-, b, bMem, -, reduce⟩
    · simp [Axis.isReduced, none] at red
    · rw [reduce]
      apply (written b bMem).2
      rw [← reduce]
      simpa [Axis.isReduced] using red

end PatternSyntax

end Rearrange.Pattern

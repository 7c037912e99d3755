import Rearrange.Proofs.WellFormed
/-!
# The dimensions of a read input, item by item

Reading the items of an input adds one dimension per item: the ellipsis, an axis alone or a
parenthesized group (`Dim.ReadFrom`). The axes of each dimension carry the item's names with the
sizes read for them: the caller's or the written size, or 0 for a member whose size is left to be
derived (`readTerms_dims`). Read against its tree, the one input of a pattern has exactly these
dimensions (`PatternSyntax.read_dims`).
-/
namespace Rearrange.Pattern

namespace InputTerm

/-- Whether an item is the ellipsis. -/
def isEllipsis : InputTerm → Bool
  | ellipsis _ => true
  | _ => false

/-- Whether an item is a parenthesized group. -/
def isGroup : InputTerm → Bool
  | group _ => true
  | _ => false

/-- The names of an item's axes with the sizes reading finds for them: the caller's or the
written size, 0 if neither is known, none if they are not positive or disagree; the ellipsis has
size 0. -/
def readSizes (sizes : List (String × Int)) : InputTerm → List (String × Option Int)
  | axis a => [(a.name, readSize sizes a.name a.size)]
  | ellipsis _ => [(ellipsisName, some 0)]
  | group ms => ms.map fun b => (b.name, readSize sizes b.name b.size)

end InputTerm

def Axis.sized (a : Axis) : String × Option Int := (a.name, some a.size)

/-- A dimension of the read decomposition `d` stands for the item `t`: it is the ellipsis or a
group as `t` is, and its axes carry the names of `t` with the sizes read for them. -/
structure Dim.ReadFrom (sizes : List (String × Int)) (d : Decomposition) (dim : Dim) (t : InputTerm) :
    Prop where
  ellipsis : dim.ellipsis = t.isEllipsis
  parenthesized : dim.parenthesized = t.isGroup
  axes : (d.dimAxes dim).map Axis.sized = t.readSizes sizes

theorem Decomposition.dimAxes_of_split {d : Decomposition} {pre new more : List Axis}
    (axes : d.axes = pre ++ (new ++ more)) (dim : Dim) (first : dim.first = pre.length)
    (count : dim.count = new.length) : d.dimAxes dim = new := by
  simp [Decomposition.dimAxes, axes, first, count]

section Reading

variable (sizes : List (String × Int))

theorem InputAxis.sized_of_read {a : InputAxis} {axis : Axis} (h : a.read sizes = some axis) :
    axis.sized = (a.name, readSize sizes a.name a.size) := by
  unfold InputAxis.read at h
  obtain ⟨k, sized, rfl⟩ := Option.map_eq_some_iff.1 h
  simp [Axis.sized, sized]

theorem groupStep_sized (axes : List Axis) (derived : Option Nat) (siblings : Int) (spoilt : Bool)
    (axis : Axis) : (groupStep axes derived siblings spoilt axis).1.sized = axis.sized := by
  unfold groupStep
  split
  · split <;> rfl
  · split <;> rfl

/-- Reading the members of a group appends them with the names and sizes read; closing the group
only tells the derived member the product of the others. -/
theorem readGroup_sized (first : Nat) : ∀ (ms : List InputAxis) (pos : Positions) (d : Decomposition)
    (derived : Option Nat) (siblings : Int) (spoilt : Bool) (res : Positions × Decomposition),
    readGroup sizes first pos d derived siblings spoilt ms = some res →
    res.2.axes.map Axis.sized =
      d.axes.map Axis.sized ++ ms.map fun b => (b.name, readSize sizes b.name b.size)
  | [], pos, d, derived, siblings, spoilt, res, ok => by
    simp only [readGroup] at ok
    split at ok
    · cases ok
    · cases ok
      simp only [closeGroup, List.map_nil, List.append_nil]
      split
      · exact List.map_modify_of_eq Axis.sized (fun a : Axis => { a with siblingsSize := siblings })
          (fun _ => rfl) _ _
      · rfl
  | a :: ms, pos, d, derived, siblings, spoilt, res, ok => by
    rw [readGroup_cons] at ok
    obtain ⟨axis, hread, ok⟩ := Option.bind_eq_some_iff.1 ok
    have rest := readGroup_sized first ms _ _ _ _ _ res ok
    rw [rest, List.map_append, List.map_singleton, groupStep_sized]
    have member : ({ axis with index := pos.take.1 } : Axis).sized = axis.sized := rfl
    simp [member, InputAxis.sized_of_read sizes hread]

/-- Reading the items of an input appends one dimension per item, which stands for it. -/
theorem readTerms_dims : ∀ (ts : List InputTerm) (pos : Positions) (d : Decomposition)
    (res : Positions × Decomposition), readTerms sizes pos d ts = some res →
    ∃ more new, res.2.axes = d.axes ++ more ∧ res.2.dims = d.dims ++ new ∧
      List.Forall₂ (fun dim t => Dim.ReadFrom sizes res.2 dim t) new ts
  | [], pos, d, res, ok => by
    cases ok
    exact ⟨[], [], by simp, by simp, .nil⟩
  | .axis a :: ts, pos, d, res, ok => by
    rw [readTerms_axis] at ok
    obtain ⟨axis, hread, ok⟩ := Option.bind_eq_some_iff.1 ok
    obtain ⟨more, new, axes, dims, reads⟩ := readTerms_dims ts _ _ res ok
    simp only [List.append_assoc] at axes dims
    refine ⟨_ :: more, _ :: new, axes, dims, .cons ⟨rfl, rfl, ?_⟩ reads⟩
    rw [Decomposition.dimAxes_of_split axes _ rfl rfl]
    simp [InputTerm.readSizes, ← InputAxis.sized_of_read sizes hread, Axis.sized]
  | .ellipsis q :: ts, pos, d, res, ok => by
    rw [readTerms_ellipsis] at ok
    obtain ⟨more, new, axes, dims, reads⟩ := readTerms_dims ts _ _ res ok
    simp only [List.append_assoc] at axes dims
    refine ⟨_ :: more, _ :: new, axes, dims, .cons ⟨rfl, rfl, ?_⟩ reads⟩
    rw [Decomposition.dimAxes_of_split axes _ rfl rfl]
    rfl
  | .group ms :: ts, pos, d, res, ok => by
    rw [readTerms_group] at ok
    obtain ⟨mid, grouped, ok⟩ := Option.bind_eq_some_iff.1 ok
    have grouped' : readGroup sizes d.axes.length pos { d with axes := d.axes ++ [] } none 1 false ms =
        some mid := by
      rw [List.append_nil]
      exact grouped
    obtain ⟨rest, c, -, decomposition, -, -, -⟩ :=
      readGroup_holds sizes d ms pos [] none 1 mid grouped' (preGroup_empty _)
    have sized := readGroup_sized sizes _ ms pos d none 1 false mid grouped
    simp only [List.nil_append, List.length_nil, Nat.zero_add] at decomposition
    obtain ⟨more, new, axes, dims, reads⟩ := readTerms_dims ts _ _ res ok
    rw [decomposition] at axes dims sized
    simp only [List.append_assoc] at axes dims
    refine ⟨_, _ :: new, axes, dims, .cons ⟨rfl, rfl, ?_⟩ reads⟩
    rw [Decomposition.dimAxes_of_split axes _ rfl (by simp)]
    simp only [List.map_append, List.append_cancel_left_eq] at sized
    exact sized

end Reading

namespace PatternSyntax

variable (p : PatternSyntax) {sizes : List (String × Int)}

theorem read_dims {text : String} {n : Int} {e : Expression} (h : p.read text n sizes = some e)
    {ts : List InputTerm} (single : p.inputs = [ts]) :
    ∃ d, e.inputs = [d] ∧ List.Forall₂ (fun dim t => Dim.ReadFrom sizes d dim t) d.dims ts := by
  obtain ⟨ds, -, -, inputsOk, -, -, -, rfl⟩ := p.read_eq_some h
  rw [single, readInputs_cons'] at inputsOk
  obtain ⟨res, terms, rest⟩ := Option.bind_eq_some_iff.1 inputsOk
  simp only [readInputs, List.nil_append, Option.some.injEq] at rest
  obtain ⟨-, new, -, dims, reads⟩ := readTerms_dims sizes ts _ _ res terms
  simp only [List.nil_append] at dims
  exact ⟨res.2, rest.symm, dims ▸ reads⟩

end PatternSyntax

end Rearrange.Pattern

import Rearrange.Word
/-!
# Axis positions

Axes of a pattern are numbered where the ellipsis counts as a single slot. A position before
the ellipsis is `known`: it is the axis itself. The ellipsis slot is a `range`. A position
after it is `unknown` until the width of the ellipsis is known; `Index.resolve` turns it into
the axis. Positions compare by their number alone.

`Positions` hands out the numbers in order, switching from known to unknown once the ellipsis
has been taken.
-/
namespace Rearrange.Pattern

/-- How a position relates to the ellipsis; a code outside the three has no name. -/
inductive IndexKind where
  | known | unknown | range
  | unnamed (code : Int)
  deriving DecidableEq, Repr, Inhabited

namespace IndexKind

/-- The kind with the given enumeration code. -/
def ofCode : Int → IndexKind
  | 0 => known
  | 1 => unknown
  | 2 => range
  | n => unnamed n

/-- The name of a kind, `IndexKind(n)` for a code outside the three. -/
def name : IndexKind → String
  | known => "Known"
  | unknown => "Unknown"
  | range => "Range"
  | unnamed n => "IndexKind(" ++ toString n ++ ")"

end IndexKind

/-- A position among the axes, with the ellipsis as one slot. -/
structure Index where
  pos : Int
  kind : IndexKind
  deriving DecidableEq, Repr, Inhabited

namespace Index

/-- Written as the kind's name and the number: `Known(3)`. -/
def text (i : Index) : String := i.kind.name ++ "(" ++ toString i.pos ++ ")"

/-- The axis a position stands for once the ellipsis is known to cover `width` axes; for the
ellipsis itself, its first axis. The sum is a 64-bit word and wraps around. -/
def resolve (i : Index) (width : Int) : Int :=
  if i.kind = .unknown then Word.wrapInt64 (i.pos + width - 1) else i.pos

/-- Positions are equal when their numbers are. -/
def sameAs (i j : Index) : Bool := i.pos == j.pos

/-- Compares the numbers: -1, 0 or 1. -/
def compare (i j : Index) : Int :=
  if i.pos < j.pos then -1 else if i.pos = j.pos then 0 else 1

def zero : Index := ⟨0, .known⟩

end Index

/-- The counter that numbers axes: the next number, and whether the ellipsis was taken. -/
structure Positions where
  next : Nat := 0
  pastEllipsis : Bool := false
  deriving Repr, Inhabited

namespace Positions

/-- The next position for an axis. -/
def take (p : Positions) : Index × Positions :=
  (⟨p.next, if p.pastEllipsis then .unknown else .known⟩, { p with next := p.next + 1 })

/-- The next position, taken by the ellipsis. -/
def takeRange (p : Positions) : Index × Positions :=
  (⟨p.next, .range⟩, ⟨p.next + 1, true⟩)

end Positions

end Rearrange.Pattern

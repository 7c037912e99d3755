/-!
# Sets of names

A finite set of texts, kept as a list without repetitions in increasing order (texts compare
code point by code point), so that listing it gives its members sorted.
-/
namespace Rearrange

/-- A finite set of texts: its members in increasing order, each once. -/
structure NameSet where
  members : List String
  deriving DecidableEq, Repr, Inhabited

namespace NameSet

/-- The set of the texts of a list. -/
def ofList (xs : List String) : NameSet :=
  ⟨(xs.mergeSort (fun a b => decide (a ≤ b))).eraseDups⟩

def has (s : NameSet) (x : String) : Bool := s.members.contains x

def sub (s t : NameSet) : NameSet := ⟨s.members.filter (!t.has ·)⟩

def size (s : NameSet) : Nat := s.members.length

def equal (s t : NameSet) : Bool := s.size == t.size && s.members.all t.has

end NameSet

end Rearrange

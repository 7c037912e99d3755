/-!
# Listings

Lists written in square brackets with their items separated by single spaces, as in `[2 3 4]`
or `[[0 2] [2 3]]`: the form in which dimensions, permutations and groups appear in messages and
in the text of plans.
-/
namespace Rearrange.Text

/-- Items between square brackets, separated by single spaces. -/
def bracketed (items : List String) : String :=
  "[" ++ " ".intercalate items ++ "]"

def intsText (xs : List Int) : String := bracketed (xs.map toString)

def commaSeparated (items : List String) : String := ", ".intercalate items

end Rearrange.Text

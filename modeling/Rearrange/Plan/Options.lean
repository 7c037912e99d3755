import Rearrange.Text.Quoted
/-!
# Compile options

A compile may name its plan (the default name is `einops`) and give sizes to axes that the
pattern leaves unsized. Options are applied in order, a later size of an axis replacing an
earlier one. `CompileOptions.key` writes them canonically, the sizes sorted by axis name, so that
two lists of options with the same effect have the same key.
-/
namespace Rearrange

/-- The name of a plan when none is given. -/
def defaultPlanName : String := "einops"

/-- What a compile is told besides the pattern and the input shapes. -/
structure CompileOptions where
  name : String := ""
  /-- Axis sizes by name, each name once. -/
  axisSizes : List (String × Int) := []
  deriving Repr, Inhabited

namespace CompileOptions

/-- Gives an axis a size, replacing an earlier one. -/
def setSize (o : CompileOptions) (name : String) (size : Int) : CompileOptions :=
  if o.axisSizes.any (·.1 == name) then
    { o with axisSizes := o.axisSizes.map fun p => if p.1 == name then (name, size) else p }
  else { o with axisSizes := o.axisSizes ++ [(name, size)] }

/-- Gives several axes sizes, in order. -/
def setSizes (o : CompileOptions) (sizes : List (String × Int)) : CompileOptions :=
  sizes.foldl (fun o p => o.setSize p.1 p.2) o

def setName (o : CompileOptions) (name : String) : CompileOptions := { o with name }

/-- The plan's name: the one given, or the default when it is empty. -/
def planName (o : CompileOptions) : String := if o.name = "" then defaultPlanName else o.name

/-- The canonical text of the options: the quoted name, then `;"axis"=size` for each axis in
increasing order of names. -/
def key (o : CompileOptions) : String :=
  let sorted := o.axisSizes.mergeSort fun a b => decide (a.1 ≤ b.1)
  Text.quote o.name ++ String.join (sorted.map fun (n, s) => ";" ++ Text.quote n ++ "=" ++ toString s)

end CompileOptions

end Rearrange

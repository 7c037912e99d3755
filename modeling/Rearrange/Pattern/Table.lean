import Rearrange.Pattern.Expression
import Rearrange.Error
import Rearrange.Text.Quoted
/-!
# The name table and the reductions

From the axes of all inputs, in order: the reduced axes with their positions before any
reduction, and the table of the kept axes with their positions renumbered as in the array
left after the reductions, the ellipsis under the name `..`. A name used twice on the input
side, reduced or not, is an error at its second use.
-/
namespace Rearrange.Pattern

def allAxes (inputs : List Decomposition) : List Axis := inputs.flatMap (·.axes)

/-- The reduced axes, in the order they are written. -/
def reducedAxes (inputs : List Decomposition) : List ReducedAxis :=
  (allAxes inputs).filterMap fun a =>
    if a.isReduced then some { index := a.index, op := a.reduce, name := a.name } else none

/-- State of the table while the axes are read: the table, the offsets of the names seen,
and the counter of positions. -/
structure TableBuild where
  table : NameTable := {}
  seen : List (String × Nat) := []
  positions : Positions := {}

/-- Adds one axis to the table. -/
def TableBuild.add (pattern : String) (b : TableBuild) (a : Axis) : Except Error TableBuild :=
  match b.seen.lookup a.name with
  | some firstPos =>
    let msg := "axis " ++ Text.quote a.name ++ " used twice on the left side (first at offset " ++
      toString firstPos ++ ")"
    .error { kind := .duplicateAxisName, pattern, pos := a.pos, msg }
  | none =>
    let seen := (a.name, a.pos) :: b.seen
    if a.isReduced then
      .ok { b with seen, table := { b.table with reduced := b.table.reduced ++ [a.name] } }
    else
      let (idx, positions) :=
        if a.kind = .ellipsis then b.positions.takeRange else b.positions.take
      .ok { seen, positions, table := { b.table with entries := b.table.entries ++ [(a.name, idx)] } }

/-- The table of the kept axes of the inputs. -/
def NameTable.build (pattern : String) (inputs : List Decomposition) : Except Error NameTable :=
  TableBuild.table <$> (allAxes inputs).foldlM (TableBuild.add pattern) {}

end Rearrange.Pattern

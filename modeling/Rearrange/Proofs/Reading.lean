import Rearrange.Proofs.Grammar
/-!
# Reading a syntax tree

`PatternSyntax.read` reads a tree of the grammar into an `Expression` the way the parser reads
its tokens, with the same state at every step: the counter of positions, the axes and
dimensions of each input, the derived member and product of sizes of an open group, the names
used on the output side. Where the parser fails it gives `none`, whichever error it would
report.

The reading is what the parser computes without the tokens: `Rearrange.Proofs.Parse` shows
that on tokens that fit a tree the parser returns what the tree reads as, and that the trees
that read are exactly the accepted ones.
-/
namespace Rearrange.Pattern

/-- The size of a name: the caller's if given, else the written one, else 0; none when a size
is not positive or the two disagree. -/
def readSize (sizes : List (String × Int)) (name : String) (written : Option Int) : Option Int :=
  if written.any (· ≤ 0) then none
  else match sizes.lookup name with
    | some g => if g ≤ 0 ∨ (written.isSome ∧ written ≠ some g) then none else some g
    | none => some (written.getD 0)

/-- An input axis as read, before it is given a position. -/
def InputAxis.read (sizes : List (String × Int)) (a : InputAxis) : Option Axis :=
  (readSize sizes a.name a.size).map fun size =>
    { name := a.name, size, reduce := a.reduce, pos := a.pos }

/-- How a member changes an open group: the first member without a size becomes derived, a
second one spoils the group, and a sized member multiplies the product of the sizes, which
spoils the group when it overflows. -/
def groupStep (axes : List Axis) (derived : Option Nat) (siblings : Int) (spoilt : Bool)
    (axis : Axis) : Axis × Option Nat × Int × Bool :=
  if axis.size = 0 then
    match derived with
    | none => ({ axis with kind := .derived }, some axes.length, siblings, spoilt)
    | some _ => (axis, derived, siblings, true)
  else
    match Word.checkedMul siblings axis.size with
    | some q => (axis, derived, q, spoilt)
    | none => (axis, derived, 0, true)

/-- The dimension a closed group adds, and the axes once the derived member knows the product
of the others. -/
def closeGroup (first : Nat) (d : Decomposition) (derived : Option Nat) (siblings : Int) :
    Decomposition :=
  let axes := match derived with
    | some i => d.axes.modify i fun a => { a with siblingsSize := siblings }
    | none => d.axes
  { d with axes, dims := d.dims ++ [{ first, count := axes.length - first, parenthesized := true }] }

/-- Reads the members of a group whose first axis is at index `first` of the input's axes. -/
def readGroup (sizes : List (String × Int)) (first : Nat) :
    Positions → Decomposition → Option Nat → Int → Bool → List InputAxis →
    Option (Positions × Decomposition)
  | pos, d, derived, siblings, spoilt, [] =>
    if spoilt then none else some (pos, closeGroup first d derived siblings)
  | pos, d, derived, siblings, spoilt, a :: ms => do
    let axis ← a.read sizes
    let (idx, pos') := pos.take
    let (axis', derived', siblings', spoilt') :=
      groupStep d.axes derived siblings spoilt { axis with index := idx }
    readGroup sizes first pos' { d with axes := d.axes ++ [axis'] } derived' siblings' spoilt' ms

/-- Reads the items of one input. -/
def readTerms (sizes : List (String × Int)) :
    Positions → Decomposition → List InputTerm → Option (Positions × Decomposition)
  | pos, d, [] => some (pos, d)
  | pos, d, .axis a :: ts => do
    let axis ← a.read sizes
    let (idx, pos') := pos.take
    readTerms sizes pos' { d with axes := d.axes ++ [{ axis with index := idx }],
                                  dims := d.dims ++ [{ first := d.axes.length, count := 1 }] } ts
  | pos, d, .ellipsis p :: ts =>
    let (idx, pos') := pos.takeRange
    let axis : Axis := { kind := .ellipsis, name := ellipsisName, index := idx, pos := p }
    readTerms sizes pos' { d with axes := d.axes ++ [axis],
                                  dims := d.dims ++ [{ first := d.axes.length, count := 1, ellipsis := true }] } ts
  | pos, d, .group ms :: ts => do
    let (pos', d') ← readGroup sizes d.axes.length pos d none 1 false ms
    readTerms sizes pos' d' ts

/-- Reads the inputs, numbering their axes with one counter. -/
def readInputs (sizes : List (String × Int)) :
    Positions → List Decomposition → List (List InputTerm) → Option (List Decomposition)
  | _, done, [] => some done
  | pos, done, ts :: more => do
    let (pos', d) ← readTerms sizes pos { input := done.length } ts
    readInputs sizes pos' (done ++ [d]) more

/-- Reads one member of the output side. -/
def readMember (sizes : List (String × Int)) (names : NameTable) (st : OutputBuild) :
    OutputMember → Option (Index × OutputBuild)
  | .ellipsis _ =>
    match names.lookup ellipsisName with
    | none => none
    | some leftIdx =>
      if st.used.contains ellipsisName then none
      else
        let (idx, positions) := st.positions.takeRange
        some (idx, { st with positions, used := st.used ++ [ellipsisName],
                             permutation := st.permutation ++ [leftIdx] })
  | .int v _ =>
    if v ≤ 0 then none
    else
      let (idx, positions) := st.positions.take
      some (idx, { st with positions, newAxes := st.newAxes ++ [{ index := idx, size := v }] })
  | .axis name written _ => do
    let size ← readSize sizes name written
    if names.isReduced name then none
    if st.used.contains name then none
    let st := { st with used := st.used ++ [name] }
    match names.lookup name with
    | some leftIdx =>
      let (idx, positions) := st.positions.take
      let outputSizes := if size > 0 then st.outputSizes ++ [(name, size)] else st.outputSizes
      some (idx, { st with positions, outputSizes, permutation := st.permutation ++ [leftIdx] })
    | none =>
      if size = 0 then none
      else
        let (idx, positions) := st.positions.take
        some (idx, { st with positions, newAxes := st.newAxes ++ [{ index := idx, size, name }] })

/-- Reads the members of an output group opened at offset `pos`. -/
def readGroupMembers (sizes : List (String × Int)) (names : NameTable) (pos : Nat) :
    List Index → OutputBuild → List OutputMember → Option (Slot × OutputBuild)
  | members, st, [] => some (.group members pos, st)
  | members, st, x :: xs => do
    let (idx, st') ← readMember sizes names st x
    readGroupMembers sizes names pos (members ++ [idx]) st' xs

/-- Whether the output side used the ellipsis of the inputs, if they have one, and every kept
axis. -/
def OutputBuild.coversAll (names : NameTable) (st : OutputBuild) : Bool :=
  (!names.hasEllipsis || st.used.contains ellipsisName) && names.names.all st.used.contains

/-- Reads the slots of the output side. -/
def readOutput (sizes : List (String × Int)) (names : NameTable) :
    OutputBuild → List OutputTerm → Option OutputBuild
  | st, [] => if st.coversAll names then some st else none
  | st, .single x :: ts => do
    let (idx, st') ← readMember sizes names st x
    readOutput sizes names { st' with slots := st'.slots ++ [.single idx x.pos] } ts
  | st, .group xs p :: ts => do
    let (slot, st') ← readGroupMembers sizes names p [] st xs
    readOutput sizes names { st' with slots := st'.slots ++ [slot] } ts

/-- A tree read as the pattern `text` for `n` inputs with the axis sizes given by the caller. -/
def PatternSyntax.read (p : PatternSyntax) (text : String) (n : Int)
    (sizes : List (String × Int)) : Option Expression := do
  let inputs ← readInputs sizes {} [] p.inputs
  if (inputs.length : Int) ≠ n then none
  let names ← (NameTable.build text inputs).toOption
  let out ← readOutput sizes names {} p.output
  pure { pattern := text, inputs, reductions := reducedAxes inputs, names, output := out.slots,
         permutation := out.permutation, newAxes := out.newAxes, outputSizes := out.outputSizes }

end Rearrange.Pattern

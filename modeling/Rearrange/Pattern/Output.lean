import Rearrange.Pattern.Reader
import Rearrange.Pattern.Expression
/-!
# The output side of a pattern

Everything after `->`: one array, whose slots are axes of the inputs, new axes (a positive
integer, or a name with a size that is not on the input side) and the ellipsis, alone or in
parenthesized groups that are merged into one dimension (`()` is a dimension of size 1).
Each kept axis of the inputs, and the ellipsis if the inputs have one, must appear exactly
once; reduced axes may not appear at all. Positions on the output side are numbered as on the
input side, before the groups are merged.
-/
namespace Rearrange.Pattern

/-- What the output side has read so far. -/
structure OutputBuild where
  positions : Positions := {}
  used : List String := []
  slots : List Slot := []
  permutation : List Index := []
  newAxes : List NewAxis := []
  outputSizes : List (String × Int) := []
  deriving Inhabited

namespace Reader

/-- Reads one member of the output, starting at its token `t`: the ellipsis, an integer or an
axis name. Returns its output position. -/
def outputMember (r : Reader) (names : NameTable) (st : OutputBuild) (t : Token)
    (rest : List Token) : Except Error (Index × OutputBuild × Suffix rest) :=
  match t.kind with
  | .ellipsis =>
    match names.lookup ellipsisName with
    | none => .error (r.fail .ellipsisSideMismatch t
        "'..' on the right side but not on the left side")
    | some leftIdx =>
      if st.used.contains ellipsisName then
        .error (r.fail .duplicateAxisName t "'..' used twice on the right side")
      else
        let (idx, positions) := st.positions.takeRange
        let st' := { st with positions, used := st.used ++ [ellipsisName],
                             permutation := st.permutation ++ [leftIdx] }
        .ok (idx, st', Suffix.all _)
  | .int =>
    if t.value ≤ 0 then
      .error (r.fail .invalidSize t ("new axis size must be positive, got " ++ toString t.value))
    else
      let (idx, positions) := st.positions.take
      let st' := { st with positions, newAxes := st.newAxes ++ [{ index := idx, size := t.value }] }
      .ok (idx, st', Suffix.all _)
  | .ident => do
    let (name, size, u) ← r.axisName t rest
    if names.isReduced name then
      throw (r.fail .referenceToReducedAxis t ("axis " ++ Text.quote name ++
        " is reduced on the left side and can't be used on the right side"))
    if st.used.contains name then
      throw (r.fail .duplicateAxisName t ("axis " ++ Text.quote name ++
        " used twice on the right side"))
    let st := { st with used := st.used ++ [name] }
    match names.lookup name with
    | some leftIdx =>
      let (idx, positions) := st.positions.take
      let outputSizes := if size > 0 then st.outputSizes ++ [(name, size)] else st.outputSizes
      pure (idx, { st with positions, outputSizes, permutation := st.permutation ++ [leftIdx] }, u)
    | none =>
      if size = 0 then
        throw (r.fail .unresolvedAxisNeedsSize t ("new axis " ++ Text.quote name ++
          " is not on the left side and has no size: declare it as " ++ name ++ ":<size>"))
      let (idx, positions) := st.positions.take
      pure (idx, { st with positions, newAxes := st.newAxes ++ [{ index := idx, size, name }] }, u)
  | _ => .error (r.fail .unexpectedToken t
      ("unexpected " ++ t.kind.describe ++ " on the right side"))

/-- Reads the members of an output group opened by `opening`, up to its `)`. -/
def outputGroup (r : Reader) (names : NameTable) (opening : Token) :
    List Index → OutputBuild → (toks : List Token) → Except Error (Slot × OutputBuild × Suffix toks)
  | _, _, [] => .error (r.fail .unbalancedGroup opening "'(' is never closed")
  | members, st, t :: rest =>
    match t.kind with
    | .rparen => .ok (.group members opening.pos, st, ⟨rest, by simp⟩)
    | .ident | .int | .ellipsis => do
      let (idx, st', u) ← r.outputMember names st t rest
      let (slot, st'', u') ← r.outputGroup names opening (members ++ [idx]) st' u.1
      pure (slot, st'', ⟨u'.1, by have := u.2; have := u'.2; simp; omega⟩)
    | .lparen => .error (r.fail .unexpectedToken t "nested parentheses are not allowed")
    | .keyword => .error (r.fail .unexpectedToken t
        ("reduction " ++ Text.quote t.text ++ " not allowed on the right side"))
    | .eof | .comma | .arrow => .error (r.fail .unbalancedGroup opening "'(' is never closed")
    | .colon => .error (r.fail .unexpectedToken t
        ("unexpected " ++ t.kind.describe ++ " inside parentheses"))
termination_by _ _ toks => toks.length

/-- At the end of the pattern: the ellipsis of the inputs and every kept axis must have been
used, the ellipsis checked first and then the names in position order. -/
def checkAllUsed (r : Reader) (names : NameTable) (st : OutputBuild) : Except Error OutputBuild :=
  if names.hasEllipsis && !st.used.contains ellipsisName then
    .error (r.fail .ellipsisSideMismatch r.eof "'..' on the left side but not on the right side")
  else
    match names.names.find? (!st.used.contains ·) with
    | some name => .error (r.fail .axisNotInOutput r.eof ("axis " ++ Text.quote name ++
        " is not used on the right side: reduce it (e.g. sum(" ++ name ++
        ")) or add it to the output"))
    | none => .ok st

/-- Reads the output side, to the end of the pattern. -/
def output (r : Reader) (names : NameTable) :
    OutputBuild → (toks : List Token) → Except Error OutputBuild
  | st, [] => r.checkAllUsed names st
  | st, t :: rest =>
    match t.kind with
    | .lparen => do
      let (slot, st', u) ← r.outputGroup names t [] st rest
      r.output names { st' with slots := st'.slots ++ [slot] } u.1
    | .rparen => .error (r.fail .unbalancedGroup t "unmatched ')'")
    | .ident | .int | .ellipsis => do
      let (idx, st', u) ← r.outputMember names st t rest
      r.output names { st' with slots := st'.slots ++ [.single idx t.pos] } u.1
    | .keyword => .error (r.fail .unexpectedToken t
        ("reduction " ++ Text.quote t.text ++ " not allowed on the right side"))
    | .comma => .error (r.fail .unexpectedToken t
        "the output side describes a single array, ',' not allowed")
    | .eof => r.checkAllUsed names st
    | .arrow | .colon => .error (r.fail .unexpectedToken t
        ("unexpected " ++ t.kind.describe ++ " on the right side"))
termination_by _ toks => toks.length
decreasing_by
  all_goals
    have := u.2
    simp
    omega

end Reader

end Rearrange.Pattern

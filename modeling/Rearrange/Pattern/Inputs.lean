import Rearrange.Pattern.Reader
import Rearrange.Pattern.Expression
/-!
# The input side of a pattern

Everything before `->`: one group of axes per input, the groups separated by commas. An axis
is a name with an optional size (`h`, `h:4`), a reduction of one (`sum(h)`), the ellipsis, or a
parenthesized group of names and reductions (`(h w:4)`), which is one dimension of the input
split into several axes. In a group at most one member may lack a size: its size is derived
from the dimension and the product of the others. Integers, nested parentheses and the
ellipsis are refused inside a group; size errors of a group are reported only once the group
is known to be closed.

All inputs share one counter of positions, so an axis's position is its place among the axes
of all inputs joined.
-/
namespace Rearrange.Pattern

namespace Reader

/-- Reads a named axis or a reduction of one, starting at its first token `t`. -/
def inputAxis (r : Reader) (t : Token) (rest : List Token) :
    Except Error (Axis × Suffix rest) :=
  if t.kind = .keyword then do
    let (_, u1) ← r.expect .lparen ("after reduction " ++ t.text) rest
    let (ident, u2) ← r.expect .ident ("inside reduction " ++ t.text) u1.1
    let (name, size, u3) ← r.axisName ident u2.1
    let (_, u4) ← r.expect .rparen ("closing reduction " ++ t.text) u3.1
    pure ({ name, size, reduce := t.op, pos := t.pos },
      ⟨u4.1, by have := u1.2; have := u2.2; have := u3.2; have := u4.2; omega⟩)
  else do
    let (name, size, u) ← r.axisName t rest
    pure ({ name, size, pos := t.pos }, u)

/-- How a new member changes a group: the first member without a size becomes derived; a
second one is an error; a member with a size multiplies the product of the sizes, and an
overflow of it is an error. Only the first error is kept. -/
def addMember (r : Reader) (t : Token) (axes : List Axis) (derived : Option Nat)
    (siblings : Int) (sizeErr : Option Error) (axis : Axis) :
    Axis × Option Nat × Int × Option Error :=
  if axis.size = 0 then
    match derived with
    | none => ({ axis with kind := .derived }, some axes.length, siblings, sizeErr)
    | some i =>
      let first := (axes[i]?.map (·.name)).getD ""
      (axis, derived, siblings, sizeErr <|> some (r.fail .ambiguousDerivedSize t
        ("axes " ++ Text.quote first ++ " and " ++ Text.quote axis.name ++
          " in the same group have no size: at most one can be derived")))
  else
    match Word.checkedMul siblings axis.size with
    | some p => (axis, derived, p, sizeErr)
    | none => (axis, derived, 0, sizeErr <|> some (r.fail .invalidSize t
        "product of the sizes in the group overflows"))

/-- Reads the members of a parenthesized group opened by `opening`, up to its `)`, adding
them to the axes of `d` and the group to its dimensions. The group's first axis is at index
`first` of the axes. -/
def groupMembers (r : Reader) (opening : Token) (first : Nat) :
    Positions → Decomposition → Option Nat → Int → Option Error → (toks : List Token) →
    Except Error (Positions × Decomposition × Suffix toks)
  | _, _, _, _, _, [] => .error (r.fail .unbalancedGroup opening "'(' is never closed")
  | pos, d, derived, siblings, sizeErr, t :: rest =>
    match t.kind with
    | .rparen =>
      match sizeErr with
      | some e => .error e
      | none =>
        let axes := match derived with
          | some i => d.axes.modify i fun a => { a with siblingsSize := siblings }
          | none => d.axes
        let dim : Dim := { first, count := axes.length - first, parenthesized := true }
        .ok (pos, { d with axes, dims := d.dims ++ [dim] }, ⟨rest, by simp⟩)
    | .ident | .keyword => do
      let (axis, u) ← r.inputAxis t rest
      let (idx, pos') := pos.take
      let (axis', derived', siblings', sizeErr') :=
        r.addMember t d.axes derived siblings sizeErr { axis with index := idx }
      let (pos'', d', u') ← r.groupMembers opening first pos'
        { d with axes := d.axes ++ [axis'] } derived' siblings' sizeErr' u.1
      pure (pos'', d', ⟨u'.1, by have := u.2; have := u'.2; simp; omega⟩)
    | .ellipsis => .error (r.fail .ellipsisInGroupNotAllowed t
        "'..' is not allowed inside parentheses on the left side")
    | .int => .error (r.fail .anonymousSizeNotAllowed t ("integer " ++ toString t.value ++
        " not allowed inside parentheses on the left side: sizes are declared as name:size"))
    | .lparen => .error (r.fail .unexpectedToken t "nested parentheses are not allowed")
    | .comma | .arrow | .eof => .error (r.fail .unbalancedGroup opening "'(' is never closed")
    | .colon => .error (r.fail .unexpectedToken t
        ("unexpected " ++ t.kind.describe ++ " inside parentheses"))
termination_by _ _ _ _ _ toks => toks.length

/-- Reads the axes of one input, up to a `,`, the `->` or the end, which are left unread. -/
def inputAxes (r : Reader) : Positions → Decomposition → (toks : List Token) →
    Except Error (Positions × Decomposition × Suffix toks)
  | pos, d, [] => .ok (pos, d, Suffix.all _)
  | pos, d, t :: rest =>
    match t.kind with
    | .comma | .arrow | .eof => .ok (pos, d, Suffix.all _)
    | .ident | .keyword => do
      let (axis, u) ← r.inputAxis t rest
      let (idx, pos') := pos.take
      let d' := { d with axes := d.axes ++ [{ axis with index := idx }],
                         dims := d.dims ++ [{ first := d.axes.length, count := 1 }] }
      let (pos'', d'', u') ← r.inputAxes pos' d' u.1
      pure (pos'', d'', ⟨u'.1, by have := u.2; have := u'.2; simp; omega⟩)
    | .ellipsis => do
      let (idx, pos') := pos.takeRange
      let axis : Axis := { kind := .ellipsis, name := ellipsisName, index := idx, pos := t.pos }
      let d' := { d with axes := d.axes ++ [axis],
                         dims := d.dims ++ [{ first := d.axes.length, count := 1, ellipsis := true }] }
      let (pos'', d'', u') ← r.inputAxes pos' d' rest
      pure (pos'', d'', ⟨u'.1, by have := u'.2; simp; omega⟩)
    | .lparen => do
      let (pos', d', u) ← r.groupMembers t d.axes.length pos d none 1 none rest
      let (pos'', d'', u') ← r.inputAxes pos' d' u.1
      pure (pos'', d'', ⟨u'.1, by have := u.2; have := u'.2; simp; omega⟩)
    | .int => .error (r.fail .anonymousSizeNotAllowed t ("integer " ++ toString t.value ++
        " not allowed on the left side: sizes are declared as name:size"))
    | .rparen => .error (r.fail .unbalancedGroup t "unmatched ')'")
    | .colon => .error (r.fail .unexpectedToken t
        ("unexpected " ++ t.kind.describe ++ " on the left side"))
termination_by _ _ toks => toks.length

/-- Reads the inputs, one per group, up to and including the `->`; returns them with the
tokens after the arrow. -/
def inputs (r : Reader) (pos : Positions) (done : List Decomposition) (toks : List Token) :
    Except Error (List Decomposition × List Token) := do
  let (pos', d, u) ← r.inputAxes pos { input := done.length } toks
  let done' := done ++ [d]
  match h : u.1 with
  | [] => .error (r.fail .missingArrow r.eof
      "pattern has no '->' separating inputs from the output")
  | t :: rest =>
    if t.kind = .comma then r.inputs pos' done' rest
    else if t.kind = .arrow then .ok (done', rest)
    else .error (r.fail .missingArrow t "pattern has no '->' separating inputs from the output")
termination_by toks.length
decreasing_by have := u.2; rw [h] at this; simp at this; omega

end Reader

end Rearrange.Pattern

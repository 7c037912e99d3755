import Rearrange.Pattern.Parse
import Mathlib
/-!
# The grammar of patterns

The tokens of a pattern follow this grammar:

    pattern   := left '->' right
    left      := group (',' group)*
    group     := (axis | reduction | '..' | '(' (axis | reduction)* ')')*
    reduction := ('min' | 'max' | 'sum' | 'mean' | 'prod') '(' axis ')'
    axis      := identifier (':' integer)?
    right     := (axis | integer | '..' | '(' (axis | integer | '..')* ')')*

A `PatternSyntax` is a tree of this grammar and `PatternSyntax.marks` the tokens it stands for.
The grammar sees a token as a `Lexeme`: its kind with the name, number or reduction it carries.
A tree also keeps the byte offsets that a read pattern records (the first token of each axis
and of each output member, the `(` of an output group), so each printed `Mark` may name the
offset its token stands at; `Token.Fits` says a token is the one a mark asks for.

Besides its grammar, a pattern must satisfy `PatternSyntax.Accepted`: sizes are positive and
agree with the sizes given by the caller, a group of the input side has at most one member whose
size is unknown and the others multiply to a signed 64-bit word, the names of the input side are
distinct, and the output side uses every kept axis of the inputs once and nothing reduced.
-/
namespace Rearrange.Pattern

/-- What the grammar sees of a token. -/
inductive Lexeme where
  | ident (name : String)
  | int (value : Int)
  | ellipsis
  | keyword (op : Reduction)
  | comma | arrow | colon | lparen | rparen | eof
  deriving DecidableEq, Repr

/-- The lexeme of a token: names carry their text, integers their value, keywords their
reduction. -/
def Token.lexeme (t : Token) : Lexeme :=
  match t.kind with
  | .eof => .eof
  | .ident => .ident t.text
  | .int => .int t.value
  | .ellipsis => .ellipsis
  | .keyword => .keyword t.op
  | .comma => .comma
  | .arrow => .arrow
  | .colon => .colon
  | .lparen => .lparen
  | .rparen => .rparen

/-- A printed token: its lexeme and, where a read pattern records it, its byte offset. -/
structure Mark where
  lexeme : Lexeme
  pos : Option Nat := none
  deriving DecidableEq, Repr

/-- A token is the one a mark asks for: the same lexeme, at the recorded offset if any. -/
def Token.Fits (t : Token) (mk : Mark) : Prop :=
  t.lexeme = mk.lexeme ∧ ∀ p ∈ mk.pos, t.pos = p

/-- An axis of the input side: a name with the size written after it, if any, kept or under a
reduction, and the offset of its first token. -/
structure InputAxis where
  name : String
  size : Option Int := none
  reduce : Reduction := .none
  pos : Nat
  deriving DecidableEq, Repr

/-- One item of an input: an axis, the ellipsis, or a parenthesized group of axes. -/
inductive InputTerm where
  | axis (a : InputAxis)
  | ellipsis (pos : Nat)
  | group (members : List InputAxis)
  deriving DecidableEq, Repr

/-- One member of the output side: an axis with the size written after it, if any, an integer,
or the ellipsis, each with the offset of its token. -/
inductive OutputMember where
  | axis (name : String) (size : Option Int) (pos : Nat)
  | int (value : Int) (pos : Nat)
  | ellipsis (pos : Nat)
  deriving DecidableEq, Repr

/-- One slot of the output side: a member alone, or a parenthesized group of members with the
offset of its `(`. -/
inductive OutputTerm where
  | single (m : OutputMember)
  | group (members : List OutputMember) (pos : Nat)
  deriving DecidableEq, Repr

/-- A pattern as a tree of the grammar: the items of each input, at least one input, and the
slots of the output. -/
structure PatternSyntax where
  inputs : List (List InputTerm)
  output : List OutputTerm
  inputs_ne : inputs ≠ []

/-- The tokens of a written size: none, or `:` and the integer. -/
def sizeMarks : Option Int → List Mark
  | some k => [⟨.colon, none⟩, ⟨.int k, none⟩]
  | none => []

/-- The tokens of an input axis: `h:4`, or `sum(h:4)` under a reduction. -/
def InputAxis.marks (a : InputAxis) : List Mark :=
  if a.reduce = .none then ⟨.ident a.name, some a.pos⟩ :: sizeMarks a.size
  else ⟨.keyword a.reduce, some a.pos⟩ :: ⟨.lparen, none⟩ :: ⟨.ident a.name, none⟩ ::
    (sizeMarks a.size ++ [⟨.rparen, none⟩])

/-- The tokens of an input item. -/
def InputTerm.marks : InputTerm → List Mark
  | axis a => a.marks
  | ellipsis p => [⟨.ellipsis, some p⟩]
  | group ms => ⟨.lparen, none⟩ :: (ms.flatMap InputAxis.marks ++ [⟨.rparen, none⟩])

/-- The tokens of the inputs: each input's items, a `,` after every input but the last and
`->` after the last. -/
def inputsMarks : List (List InputTerm) → List Mark
  | [] => []
  | [ts] => ts.flatMap InputTerm.marks ++ [⟨.arrow, none⟩]
  | ts :: us :: more => ts.flatMap InputTerm.marks ++ ⟨.comma, none⟩ :: inputsMarks (us :: more)

/-- The tokens of an output member. -/
def OutputMember.marks : OutputMember → List Mark
  | axis x s p => ⟨.ident x, some p⟩ :: sizeMarks s
  | int v p => [⟨.int v, some p⟩]
  | ellipsis p => [⟨.ellipsis, some p⟩]

/-- The tokens of an output slot. -/
def OutputTerm.marks : OutputTerm → List Mark
  | single m => m.marks
  | group ms p => ⟨.lparen, some p⟩ :: (ms.flatMap OutputMember.marks ++ [⟨.rparen, none⟩])

/-- The tokens of a pattern. -/
def PatternSyntax.marks (p : PatternSyntax) : List Mark :=
  inputsMarks p.inputs ++ p.output.flatMap OutputTerm.marks

/-- The size an axis has before any shape is known: the one given by the caller, else the one
written in the pattern. -/
def givenSize (sizes : List (String × Int)) (name : String) (written : Option Int) : Option Int :=
  (sizes.lookup name).or written

namespace InputTerm

/-- The names of a term's axes; the ellipsis is registered as `..`. -/
def names : InputTerm → List String
  | axis a => [a.name]
  | ellipsis _ => [ellipsisName]
  | group ms => ms.map (·.name)

/-- The axes a term writes; the ellipsis writes none. -/
def axes : InputTerm → List InputAxis
  | axis a => [a]
  | ellipsis _ => []
  | group ms => ms

/-- The members of a parenthesized group. -/
def group? : InputTerm → Option (List InputAxis)
  | group ms => some ms
  | _ => none

end InputTerm

namespace OutputMember

/-- What a member uses of the inputs or names anew: its name, the ellipsis as `..`, or
nothing for an integer. -/
def used : OutputMember → List String
  | axis x _ _ => [x]
  | int _ _ => []
  | ellipsis _ => [ellipsisName]

/-- The name and written size of a named member. -/
def named? : OutputMember → Option (String × Option Int)
  | axis x s _ => some (x, s)
  | _ => none

/-- The value of an integer member. -/
def int? : OutputMember → Option Int
  | int v _ => some v
  | _ => none

/-- The byte offset of a member. -/
def pos : OutputMember → Nat
  | axis _ _ p => p
  | int _ p => p
  | ellipsis p => p

end OutputMember

/-- The members of an output slot. -/
def OutputTerm.members : OutputTerm → List OutputMember
  | single m => [m]
  | group ms _ => ms

namespace PatternSyntax

variable (p : PatternSyntax)

def inputTerms : List InputTerm := p.inputs.flatten

def inputAxes : List InputAxis := p.inputTerms.flatMap InputTerm.axes

def leftNames : List String := p.inputTerms.flatMap InputTerm.names

def reducedNames : List String := (p.inputAxes.filter (·.reduce ≠ .none)).map (·.name)

def keptNames : List String := (p.inputAxes.filter (·.reduce = .none)).map (·.name)

def inputGroups : List (List InputAxis) := p.inputTerms.filterMap InputTerm.group?

def outputMembers : List OutputMember := p.output.flatMap OutputTerm.members

def outputUsed : List String := p.outputMembers.flatMap OutputMember.used

def outputAxes : List (String × Option Int) := p.outputMembers.filterMap OutputMember.named?

def outputInts : List Int := p.outputMembers.filterMap OutputMember.int?

/-- Every size written after a name, on either side, with its name. -/
def writtenSizes : List (String × Int) :=
  p.inputAxes.filterMap (fun a => a.size.map (a.name, ·)) ++
    p.outputAxes.filterMap fun (x, s) => s.map (x, ·)

/-- Every name written in the pattern, on either side. -/
def axisNames : List String := p.inputAxes.map (·.name) ++ p.outputAxes.map (·.1)

/-- What a pattern must satisfy besides its grammar to be read for `n` inputs with the axis
sizes `sizes` given by the caller. -/
structure Accepted (n : Int) (sizes : List (String × Int)) : Prop where
  arity : (p.inputs.length : Int) = n
  written_pos : ∀ x k, (x, k) ∈ p.writtenSizes → 0 < k
  ints_pos : ∀ k ∈ p.outputInts, 0 < k
  given_pos : ∀ x ∈ p.axisNames, ∀ g, sizes.lookup x = some g → 0 < g
  given_agrees : ∀ x k, (x, k) ∈ p.writtenSizes → ∀ g, sizes.lookup x = some g → k = g
  one_unsized : ∀ ms ∈ p.inputGroups,
    (ms.filter fun a => givenSize sizes a.name a.size = none).length ≤ 1
  group_fits : ∀ ms ∈ p.inputGroups,
    (ms.filterMap fun a => givenSize sizes a.name a.size).prod ≤ Word.maxInt64
  left_distinct : p.leftNames.Nodup
  output_distinct : p.outputUsed.Nodup
  not_reduced : ∀ x ∈ p.outputUsed, x ∉ p.reducedNames
  ellipsis_output : (∃ q, OutputMember.ellipsis q ∈ p.outputMembers) → ellipsisName ∈ p.leftNames
  ellipsis_input : (∃ q, InputTerm.ellipsis q ∈ p.inputTerms) → ellipsisName ∈ p.outputUsed
  kept_used : ∀ x ∈ p.keptNames, x ∈ p.outputUsed
  new_sized : ∀ x s, (x, s) ∈ p.outputAxes → x ∉ p.leftNames → givenSize sizes x s ≠ none

end PatternSyntax

end Rearrange.Pattern

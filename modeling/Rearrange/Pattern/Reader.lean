import Rearrange.Pattern.Token
import Rearrange.Text.Quoted
/-!
# Reading tokens

The reader of a pattern walks its list of tokens (the end marker left out) and returns what is
left unread. Every reading step that succeeds returns a suffix of its input no longer than it,
and `Reader.expect` one strictly shorter, so the loops of the grammar end.

The reader also carries the pattern's text, for messages, its byte length, where the end
marker stands, and the axis sizes given by the caller.
-/
namespace Rearrange.Pattern

/-- What is left of a token list after reading some of it. -/
abbrev Suffix (toks : List Token) := { u : List Token // u.length ≤ toks.length }

def Suffix.all (toks : List Token) : Suffix toks := ⟨toks, Nat.le_refl _⟩

/-- The context of a reading. -/
structure Reader where
  pattern : String
  endPos : Nat
  /-- Axis sizes given by the caller. -/
  sizes : List (String × Int)

namespace Reader

def eof (r : Reader) : Token := Token.eof r.endPos

/-- An error of the pattern at the offset of a token. -/
def fail (r : Reader) (kind : ErrorKind) (t : Token) (msg : String) : Error :=
  { kind, pattern := r.pattern, pos := t.pos, msg }

/-- The next token, or the end marker. -/
def peek (r : Reader) : List Token → Token
  | [] => r.eof
  | t :: _ => t

/-- The error for a token of another kind than the one expected: a missing `)` is an
unbalanced group, any other mismatch an unexpected token, reported where the other token
stands. -/
def mismatch (r : Reader) (kind : TokenKind) (context : String) (t : Token) : Error :=
  if kind = .rparen then
    r.fail .unbalancedGroup t ("missing ')' " ++ context ++ ", got " ++ t.kind.describe)
  else
    r.fail .unexpectedToken t
      ("expected " ++ kind.describe ++ " " ++ context ++ ", got " ++ t.kind.describe)

/-- Consumes a token of the given kind. -/
def expect (r : Reader) (kind : TokenKind) (context : String) :
    (toks : List Token) → Except Error (Token × { u : List Token // u.length < toks.length })
  | t :: rest =>
    if t.kind = kind then .ok (t, ⟨rest, by simp⟩)
    else .error (r.mismatch kind context t)
  | [] => .error (r.mismatch kind context r.eof)

/-- Reads the optional `: size` after the name `name`: the written size, 0 when there is none.
A written size must be positive. -/
def writtenSize (r : Reader) (name : String) : (toks : List Token) → Except Error (Int × Suffix toks)
  | c :: rest =>
    if c.kind = .colon then do
      let (sizeTok, u) ← r.expect .int ("for the size of axis " ++ name) rest
      if sizeTok.value ≤ 0 then
        throw (r.fail .invalidSize sizeTok ("size of axis " ++ Text.quote name ++
          " must be positive, got " ++ toString sizeTok.value))
      pure (sizeTok.value, ⟨u.1, by have := u.2; simp; omega⟩)
    else pure (0, Suffix.all _)
  | [] => pure (0, Suffix.all _)

/-- Settles the written size of the name token `ident` with the one given by the caller: a given
size must be positive and agree with a written one, and replaces it. -/
def settleSize (r : Reader) (ident : Token) (name : String) (written : Int) : Except Error Int :=
  match r.sizes.lookup name with
  | some given =>
    if given ≤ 0 then
      throw (r.fail .invalidSize ident ("size of axis " ++ Text.quote name ++
        " must be positive, got " ++ toString given))
    else if written ≠ 0 ∧ written ≠ given then
      throw (r.fail .sizeMismatch ident ("axis " ++ Text.quote name ++ " declared with size " ++
        toString written ++ " in the pattern and " ++ toString given ++ " in the options"))
    else pure given
  | none => pure written

/-- Reads the optional `: size` after the name token `ident`, then settles the size with the
one given by the caller. The size is 0 when neither gives one. -/
def axisName (r : Reader) (ident : Token) (toks : List Token) :
    Except Error (String × Int × Suffix toks) := do
  let (written, u) ← r.writtenSize ident.text toks
  let size ← r.settleSize ident ident.text written
  pure (ident.text, size, u)

end Reader

end Rearrange.Pattern

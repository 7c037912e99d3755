import Rearrange.Error
import Rearrange.Reduction
import Rearrange.Text.Identifier
import Rearrange.Word
/-!
# Tokens of a pattern

A pattern is read byte by byte into tokens: names, integers, the ellipsis `..` (also written
`...`), the reduction keywords `min`, `max`, `sum`, `mean` and `prod`, and the punctuation
`,` `->` `:` `(` `)`. Spaces, tabs, line feeds and carriage returns separate tokens and are
dropped. Each token keeps its bytes and its byte offset; names and integers take the longest
run of their bytes.

`Token.scan` fails on the first byte that starts no token, on a `-` without `>`, on a `.`
without a second `.`, and on an integer beyond 2^63 - 1.
-/
namespace Rearrange.Pattern

/-- Kinds of tokens, in their enumeration order from 0. -/
inductive TokenKind where
  | eof | ident | int | ellipsis | keyword | comma | arrow | colon | lparen | rparen
  deriving DecidableEq, Repr, Inhabited

namespace TokenKind

/-- The kinds in enumeration order. -/
def all : List TokenKind :=
  [eof, ident, int, ellipsis, keyword, comma, arrow, colon, lparen, rparen]

/-- How a kind is named in messages. -/
def describe : TokenKind → String
  | eof => "end of pattern"
  | ident => "identifier"
  | int => "integer"
  | ellipsis => "'..'"
  | keyword => "reduction keyword"
  | comma => "','"
  | arrow => "'->'"
  | colon => "':'"
  | lparen => "'('"
  | rparen => "')'"

/-- The description of the kind with enumeration code `n`, or `TokenKind(n)` for a code
outside the enumeration. -/
def describeCode (n : Int) : String :=
  match (if n < 0 then none else all[n.toNat]?) with
  | some k => k.describe
  | none => "TokenKind(" ++ toString n ++ ")"

end TokenKind

/-- One token: its kind, its bytes, its byte offset, the value of an integer and the
reduction of a keyword. -/
structure Token where
  kind : TokenKind
  bytes : List UInt8
  pos : Nat
  value : Int := 0
  op : Reduction := .none
  deriving Repr, Inhabited

namespace Token

/-- The token's text. Tokens are made of ASCII bytes only. -/
def text (t : Token) : String := String.ofList (t.bytes.map fun b => Char.ofNat b.toNat)

def eof (n : Nat) : Token := ⟨.eof, [], n, 0, .none⟩

/-- Bytes that separate tokens: space, tab, line feed and carriage return. -/
def isBlank (b : UInt8) : Bool := b == 32 || b == 9 || b == 10 || b == 13

/-- Bytes that may start a name: ASCII letters and the underscore. -/
def isNameStart (b : UInt8) : Bool :=
  (b ≥ 97 && b ≤ 122) || (b ≥ 65 && b ≤ 90) || b == 95

/-- The number written by decimal digit bytes. -/
def digitsValue (ds : List UInt8) : Nat :=
  ds.foldl (fun n d => 10 * n + (d.toNat - 48)) 0

/-- A single-byte punctuation token. -/
def punctuation? (b : UInt8) : Option TokenKind :=
  if b == 44 then some .comma
  else if b == 58 then some .colon
  else if b == 40 then some .lparen
  else if b == 41 then some .rparen
  else none

/-- The error of a scan at a byte offset. -/
def scanError (pattern : String) (kind : ErrorKind) (pos : Nat) (msg : String) : Error :=
  { kind, pattern, pos, msg }

theorem length_dropWhile_le {α : Type} (p : α → Bool) : ∀ l : List α, (l.dropWhile p).length ≤ l.length
  | [] => Nat.le_refl _
  | a :: l => by
    simp only [List.dropWhile_cons]
    split
    · exact Nat.le_succ_of_le (length_dropWhile_le p l)
    · exact Nat.le_refl _

theorem length_dropWhile_lt_succ {α : Type} (p : α → Bool) (l : List α) :
    (l.dropWhile p).length < l.length + 1 :=
  Nat.lt_succ_of_le (length_dropWhile_le p l)

/-- Reads tokens from the bytes of `pattern` that start at byte offset `pos`. -/
def scanFrom (pattern : String) : (bytes : List UInt8) → (pos : Nat) → Except Error (List Token)
  | [], _ => .ok []
  | b :: rest, pos =>
    if isBlank b then scanFrom pattern rest (pos + 1)
    else match punctuation? b with
    | some k => (⟨k, [b], pos, 0, .none⟩ :: ·) <$> scanFrom pattern rest (pos + 1)
    | none =>
      if b == 45 then
        match rest with
        | 62 :: rest' => (⟨.arrow, [45, 62], pos, 0, .none⟩ :: ·) <$> scanFrom pattern rest' (pos + 2)
        | _ => .error (scanError pattern .unexpectedToken pos "expected '->', got a lone '-'")
      else if b == 46 then
        match rest with
        | 46 :: 46 :: rest' =>
          (⟨.ellipsis, [46, 46, 46], pos, 0, .none⟩ :: ·) <$> scanFrom pattern rest' (pos + 3)
        | 46 :: rest' =>
          (⟨.ellipsis, [46, 46], pos, 0, .none⟩ :: ·) <$> scanFrom pattern rest' (pos + 2)
        | _ => .error (scanError pattern .unexpectedToken pos "expected '..', got a lone '.'")
      else if Text.isDigitByte b then
        let ds := b :: rest.takeWhile Text.isDigitByte
        let rest' := rest.dropWhile Text.isDigitByte
        let value := digitsValue ds
        let digits := String.ofList (ds.map fun d => Char.ofNat d.toNat)
        if value > Word.maxInt64 then
          .error (scanError pattern .invalidSize pos ("invalid integer " ++ Text.quote digits ++
            ": strconv.Atoi: parsing " ++ Text.quote digits ++ ": value out of range"))
        else (⟨.int, ds, pos, value, .none⟩ :: ·) <$> scanFrom pattern rest' (pos + ds.length)
      else if isNameStart b then
        let ds := b :: rest.takeWhile Text.isIdentifierByte
        let rest' := rest.dropWhile Text.isIdentifierByte
        let word := String.ofList (ds.map fun d => Char.ofNat d.toNat)
        let tok : Token := match Reduction.ofKeyword? word with
          | some op => ⟨.keyword, ds, pos, 0, op⟩
          | none => ⟨.ident, ds, pos, 0, .none⟩
        (tok :: ·) <$> scanFrom pattern rest' (pos + ds.length)
      else .error (scanError pattern .unexpectedToken pos
        ("unexpected character " ++ Text.quoteCode b.toNat))
termination_by bytes => bytes.length
decreasing_by
  all_goals
    simp only [List.length_cons]
    first
      | omega
      | exact length_dropWhile_lt_succ _ _

/-- The tokens of a pattern, without the end marker. -/
def scanBody (pattern : String) : Except Error (List Token) :=
  scanFrom pattern pattern.toUTF8.toList 0

/-- The tokens of a pattern, ending with the end marker at the pattern's byte length. -/
def scan (pattern : String) : Except Error (List Token) :=
  (· ++ [eof pattern.utf8ByteSize]) <$> scanBody pattern

end Token

end Rearrange.Pattern

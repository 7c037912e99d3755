import Rearrange.Text.Case
/-!
# Identifiers

Two spellings of names. `normalizeIdentifier` turns any name into one made of ASCII letters,
digits and underscores, byte by byte, so that it can name a module or a value of a program.
`snakeCase` turns a camel-case name into a lower-case one with underscores between words.

Both look at the bytes of the UTF-8 encoding: a byte outside the identifier alphabet is one
underscore, and the neighbours that decide a word break are the bytes next to a letter, read
as code points.
-/
namespace Rearrange.Text

/-- Bytes that may stand in an identifier: ASCII letters, digits and the underscore. -/
def isIdentifierByte (b : UInt8) : Bool :=
  (b ≥ 97 && b ≤ 122) || (b ≥ 65 && b ≤ 90) || b == 95 || (b ≥ 48 && b ≤ 57)

def isDigitByte (b : UInt8) : Bool := b ≥ 48 && b ≤ 57

/-- The name with each byte outside the identifier alphabet replaced by an underscore, and an
underscore in front when it starts with a digit. The empty name stays empty. -/
def normalizeIdentifier (s : String) : String :=
  let bytes := s.toUTF8.toList
  let body := bytes.map fun b => if isIdentifierByte b then Char.ofNat b.toNat else '_'
  match bytes with
  | b :: _ => if isDigitByte b then String.ofList ('_' :: body) else String.ofList body
  | [] => ""

/-- A word break stands before an upper-case letter when the byte before it is neither upper
case nor an underscore, or when the byte before it is upper case and the byte after it is
present (non-zero) and neither upper case nor an underscore. -/
def breaksBefore (prev next : Nat) : Bool :=
  let isUp := fun n => isUpper (Char.ofNat n)
  (!isUp prev && prev != 95) || (isUp prev && next != 0 && !isUp next && next != 95)

/-- Walks the characters of a text whose UTF-8 bytes are `bytes`, the first of them at byte
offset `offset`. -/
def snakeCaseFrom (bytes : ByteArray) : List Char → Nat → List Char
  | [], _ => []
  | c :: rest, offset =>
    let tail := snakeCaseFrom bytes rest (offset + c.utf8Size)
    if !isUpper c then c :: tail
    else
      let byteAt := fun i => if h : i < bytes.size then bytes[i].toNat else 0
      let next := if offset + 1 < bytes.size then byteAt (offset + 1) else 0
      let mark := offset > 0 && breaksBefore (byteAt (offset - 1)) next
      if mark then '_' :: toLower c :: tail else toLower c :: tail

/-- The snake-case spelling of a camel-case name: upper-case letters become lower case, with an
underscore before those that start a word. -/
def snakeCase (s : String) : String :=
  String.ofList (snakeCaseFrom s.toUTF8 s.toList 0)

end Rearrange.Text

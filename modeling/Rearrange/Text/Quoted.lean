import Rearrange.Text.Printable
/-!
# Quoted text

A quoted literal shows a text between delimiters so that every character can be read back:
the delimiter and the backslash take a backslash, printable characters stand as themselves,
and every other character is written as an escape.

`quote` writes a double-quoted string literal; `quoteCode` writes a single-quoted character
literal of a code point, which is how a single byte of a pattern is shown.
-/
namespace Rearrange.Text

/-- Lower-case hexadecimal digits of `n`, padded on the left with zeros to `width` digits. -/
def hexPadded (width n : Nat) : String :=
  let ds := Nat.toDigits 16 n
  String.ofList (List.replicate (width - ds.length) '0' ++ ds)

/-- The escape of a character that is neither the delimiter, the backslash nor printable:
the seven control characters that have a letter take it, the other characters below the space
and DEL take two hexadecimal digits, the rest of the first plane four, the others eight. -/
def escapeUnprintable (c : Char) : String :=
  match c.toNat with
  | 0x07 => "\\a"
  | 0x08 => "\\b"
  | 0x0C => "\\f"
  | 0x0A => "\\n"
  | 0x0D => "\\r"
  | 0x09 => "\\t"
  | 0x0B => "\\v"
  | n =>
    if n < 0x20 || n == 0x7F then "\\x" ++ hexPadded 2 n
    else if n < 0x10000 then "\\u" ++ hexPadded 4 n
    else "\\U" ++ hexPadded 8 n

/-- How a character is written inside a literal delimited by `delim`. -/
def escapeChar (delim c : Char) : String :=
  if c == delim || c == '\\' then "\\" ++ c.toString
  else if isPrintable c then c.toString
  else escapeUnprintable c

/-- The double-quoted literal of a text. -/
def quote (s : String) : String :=
  "\"" ++ String.join (s.toList.map (escapeChar '"')) ++ "\""

/-- The single-quoted character literal of the code point `n`. -/
def quoteCode (n : Nat) : String :=
  "'" ++ escapeChar '\'' (Char.ofNat n) ++ "'"

end Rearrange.Text

import Rearrange.Shape
import Rearrange.Decimal.Text
import Rearrange.Rounding
import Rearrange.Element
/-!
# Constant literals

A constant of a StableHLO program is a host scalar written as an element of the constant's
element type. Booleans are `true`/`false`; integer types take the integer part of the value
(64-bit words of the matching signedness are written exactly; the 4-bit and 2-bit formats are
not counted as integer types here and are written as floating values); floating types take the value's
shortest digits, `3.0` for an integral value, and the bit pattern in hexadecimal for an
infinity, the only way the text format accepts one.
-/
namespace Rearrange.Hlo

/-- A host scalar given for a constant: a value of a host element type, or a value of a type
that has no literal, known by its type's name. -/
inductive Scalar where
  | typed (e : ElementType) (v : HostValue)
  | unsupported (typeName : String)
  deriving Repr, Inhabited

/-- Upper-case hexadecimal digits of `n`, padded to `width`. -/
def hexUpper (width n : Nat) : String :=
  (Text.hexPadded width n).map Char.toUpper

/-- A double written as an element of the element type; `finite` tells whether the double is
finite, as one converted from a 64-bit integer always is. -/
def numericLiteral (dtype : DType) (f : Float) (finite : Bool) : Except Failure String :=
  if dtype = .bool then .ok (toString (f != 0))
  else if dtype.isInteger then .ok (toString (truncToSigned 64 f))
  else if finite then
    .ok (if f == (if f ≥ 0 then f.floor else f.ceil) then Decimal.fixedOne f
         else Decimal.Layout.general.render f)
  else match dtype with
    | .float16 => .ok ("0x" ++ hexUpper 4 (Rounding.halfBits f))
    | .float32 => .ok ("0x" ++ hexUpper 8 f.toFloat32.toBits.toNat)
    | .float64 => .ok ("0x" ++ hexUpper 16 f.toBits.toNat)
    | _ => .error (.plain ("no infinity constant for dtype " ++ dtype.name))

/-- A scalar written as an element of the element type. A boolean needs a boolean element
type; a 64-bit integer is written exactly for an integer element type of its signedness; every
other value is read as a double, a finite one when it is an integer. -/
def Scalar.literal (dtype : DType) : Scalar → Except Failure String
  | .unsupported t => .error (.plain ("unsupported constant value type " ++ t))
  | .typed e v =>
    match e, v with
    | .bool, _ =>
      if dtype ≠ .bool then .error (.plain ("boolean constant for dtype " ++ dtype.name))
      else .ok (toString (v.toFloat != 0))
    | .int64, .int n => if dtype.isInteger then .ok (toString n) else numericLiteral dtype v.toFloat true
    | .uint64, .int n => if dtype.isUnsigned then .ok (toString n) else numericLiteral dtype v.toFloat true
    | _, .int _ => numericLiteral dtype v.toFloat true
    | _, _ => numericLiteral dtype v.toFloat !v.toFloat.isInf

/-- The smallest value of an element type, the start of a max reduction. The two complex types
start at zero and bfloat16 at its infinity, neither of which has a literal; an element type with
no host type has no such value at all. -/
def lowestValue : DType → Except Failure Scalar
  | .bool => .ok (.typed .bool (.bool false))
  | .int8 => .ok (.typed .int8 (.int (-128)))
  | .int16 => .ok (.typed .int16 (.int (-32768)))
  | .int32 => .ok (.typed .int32 (.int (-2147483648)))
  | .int64 => .ok (.typed .int64 (.int (-9223372036854775808)))
  | .uint8 => .ok (.typed .uint8 (.int 0))
  | .uint16 => .ok (.typed .uint16 (.int 0))
  | .uint32 => .ok (.typed .uint32 (.int 0))
  | .uint64 => .ok (.typed .uint64 (.int 0))
  | .float16 => .ok (.typed .float16 (.float (-Rounding.infinity)))
  | .float32 => .ok (.typed .float32 (.float (-Rounding.infinity)))
  | .float64 => .ok (.typed .float64 (.float (-Rounding.infinity)))
  | .bfloat16 => .ok (.unsupported "bfloat16.BFloat16")
  | .complex64 => .ok (.unsupported "complex64")
  | .complex128 => .ok (.unsupported "complex128")
  | t => .error t.noHostType

/-- The largest value of an element type, the start of a min reduction; the same types as for
`lowestValue` have none that can be written. -/
def highestValue : DType → Except Failure Scalar
  | .bool => .ok (.typed .bool (.bool true))
  | .int8 => .ok (.typed .int8 (.int 127))
  | .int16 => .ok (.typed .int16 (.int 32767))
  | .int32 => .ok (.typed .int32 (.int 2147483647))
  | .int64 => .ok (.typed .int64 (.int 9223372036854775807))
  | .uint8 => .ok (.typed .uint8 (.int 255))
  | .uint16 => .ok (.typed .uint16 (.int 65535))
  | .uint32 => .ok (.typed .uint32 (.int 4294967295))
  | .uint64 => .ok (.typed .uint64 (.int 18446744073709551615))
  | .float16 => .ok (.typed .float16 (.float Rounding.infinity))
  | .float32 => .ok (.typed .float32 (.float Rounding.infinity))
  | .float64 => .ok (.typed .float64 (.float Rounding.infinity))
  | .bfloat16 => .ok (.unsupported "bfloat16.BFloat16")
  | .complex64 => .ok (.unsupported "complex64")
  | .complex128 => .ok (.unsupported "complex128")
  | t => .error t.noHostType

end Rearrange.Hlo

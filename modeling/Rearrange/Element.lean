import Rearrange.DType
import Rearrange.Rounding
import Rearrange.Decimal.Text
/-!
# Host element types

The element types of host scalars, and host scalars of them. Every type has an array element
type, but the arrays take scalars of most of them only: not the word-sized unsigned integer,
bfloat16 or the complex types (`ElementType.isArrayElement`). An array stores doubles;
a host scalar widens to a double exactly (a 64-bit integer beyond 2^53 rounds to the nearest
double), and a double narrows to a host scalar as a machine conversion does: integer types
take the integer part, and a value out of the range of the conversion (or NaN) gives the
indefinite integer, the smallest value of the converting width, before the bits are cut to
the element width.
-/
namespace Rearrange

/-- An element type of host scalars. `int` and `uint` are the host's word-sized integers. -/
inductive ElementType where
  | bool
  | int8 | int16 | int32 | int64 | int
  | uint8 | uint16 | uint32 | uint64 | uint
  | float16 | float32 | float64
  | bfloat16 | complex64 | complex128
  deriving DecidableEq, Repr, Inhabited

/-- A host scalar: a boolean, an integer, or a floating point value (held as a double). -/
inductive HostValue where
  | bool (b : Bool)
  | int (v : Int)
  | float (x : Float)
  deriving Repr, Inhabited

namespace ElementType

/-- The name of the type, as host type names are written. -/
def name : ElementType → String
  | bool => "bool" | int8 => "int8" | int16 => "int16" | int32 => "int32" | int64 => "int64"
  | int => "int" | uint8 => "uint8" | uint16 => "uint16" | uint32 => "uint32"
  | uint64 => "uint64" | uint => "uint" | float16 => "float16.Float16" | float32 => "float32"
  | float64 => "float64" | bfloat16 => "bfloat16.BFloat16" | complex64 => "complex64"
  | complex128 => "complex128"

/-- The array element type of host values of the type; the word-sized integers are 64 bits. -/
def dtype : ElementType → DType
  | bool => .bool | int8 => .int8 | int16 => .int16 | int32 => .int32 | int64 => .int64
  | int => .int64 | uint8 => .uint8 | uint16 => .uint16 | uint32 => .uint32
  | uint64 => .uint64 | uint => .uint64 | float16 => .float16 | float32 => .float32
  | float64 => .float64 | bfloat16 => .bfloat16 | complex64 => .complex64 | complex128 => .complex128

/-- Whether arrays take scalars of the type: all types but the word-sized unsigned integer,
bfloat16 and the complex types. -/
def isArrayElement : ElementType → Bool
  | uint | bfloat16 | complex64 | complex128 => false
  | _ => true

/-- The type of the scalars an array of an element type is read and written with, when arrays
of that element type take scalars. -/
def ofDType? : DType → Option ElementType
  | .bool => some bool | .int8 => some int8 | .int16 => some int16 | .int32 => some int32
  | .int64 => some int64 | .uint8 => some uint8 | .uint16 => some uint16
  | .uint32 => some uint32 | .uint64 => some uint64 | .float16 => some float16
  | .float32 => some float32 | .float64 => some float64
  | _ => none

end ElementType

/-- The integer part of a double when it fits a signed word of `bits` bits; otherwise, and
for NaN, the smallest word. -/
def truncToSigned (bits : Nat) (x : Float) : Int :=
  let limit : Int := Int.ofNat (Nat.pow 2 (bits - 1))
  if x.isNaN || x.isInf then -limit
  else
    let v := Decimal.integralValue x
    if v < -limit || v ≥ limit then -limit else v

/-- The low `bits` bits of an integer, read as a signed word. -/
def wrapSigned (bits : Nat) (v : Int) : Int := v.bmod (Nat.pow 2 bits)

/-- The low `bits` bits of an integer, read as an unsigned word. -/
def wrapUnsigned (bits : Nat) (v : Int) : Int := v % Int.ofNat (Nat.pow 2 bits)

/-- A double as an unsigned 64-bit word: below 2^63 by the signed conversion, from 2^63 on
by converting the excess and setting the top bit. -/
def truncToUnsignedWord (x : Float) : Int :=
  if x < 9223372036854775808.0 then wrapUnsigned 64 (truncToSigned 64 x)
  else
    let u := wrapUnsigned 64 (truncToSigned 64 (x - 9223372036854775808.0))
    if u ≥ 9223372036854775808 then u else u + 9223372036854775808

/-- A double converted to a host scalar of the type. Narrow integers convert through a
32-bit word, 32-bit unsigned through a 64-bit one, the word-sized unsigned integer as the
64-bit one. No array converts to bfloat16 or a complex type; they keep the double. -/
def ElementType.ofFloat (e : ElementType) (x : Float) : HostValue :=
  match e with
  | .bool => .bool (x != 0)
  | .int8 => .int (wrapSigned 8 (truncToSigned 32 x))
  | .int16 => .int (wrapSigned 16 (truncToSigned 32 x))
  | .int32 => .int (truncToSigned 32 x)
  | .int64 | .int => .int (truncToSigned 64 x)
  | .uint8 => .int (wrapUnsigned 8 (truncToSigned 32 x))
  | .uint16 => .int (wrapUnsigned 16 (truncToSigned 32 x))
  | .uint32 => .int (wrapUnsigned 32 (truncToSigned 64 x))
  | .uint64 | .uint => .int (truncToUnsignedWord x)
  | .float16 => .float (Rounding.toHalf x)
  | .float32 => .float (Rounding.toSingle x)
  | .float64 | .bfloat16 | .complex64 | .complex128 => .float x

/-- A host scalar widened to a double. -/
def HostValue.toFloat : HostValue → Float
  | .bool b => if b then 1 else 0
  | .int v => Float.ofInt v
  | .float x => x

end Rearrange

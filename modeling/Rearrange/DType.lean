/-!
# Element types

The element types an array may have, in their fixed enumeration order, with the facts the
library needs about each: its name, its number in the enumeration, its name in StableHLO
programs, its width in bytes and the name of the host type that holds one element.

An element type is a 32-bit code; the codes 0 to 29 are the enumerated types, and any other
code is an element type too, with no name of its own (`DType(30)`).

Only some element types have a host type (booleans, integers, the three IEEE binary floating
point widths, bfloat16 and the two complex types); the 8-bit, 4-bit and 2-bit formats and the
token type have none, and neither has the invalid type.
-/
namespace Rearrange

/-- Element types, in enumeration order from 0. -/
inductive DType where
  | invalid | bool | int8 | int16 | int32 | int64 | uint8 | uint16 | uint32 | uint64
  | float16 | float32 | float64 | bfloat16 | complex64 | complex128
  | f8e5m2 | f8e4m3fn | f8e4m3b11fnuz | f8e5m2fnuz | f8e4m3fnuz | s4 | u4 | token | s2 | u2
  | f8e4m3 | f8e3m4 | f8e8m0fnu | f4e2m1fn
  /-- A code outside the enumeration. -/
  | other (code : Int)
  deriving DecidableEq, Repr, Inhabited

namespace DType

/-- All enumerated element types in order. -/
def all : List DType :=
  [invalid, bool, int8, int16, int32, int64, uint8, uint16, uint32, uint64,
   float16, float32, float64, bfloat16, complex64, complex128,
   f8e5m2, f8e4m3fn, f8e4m3b11fnuz, f8e5m2fnuz, f8e4m3fnuz, s4, u4, token, s2, u2,
   f8e4m3, f8e3m4, f8e8m0fnu, f4e2m1fn]

/-- The name of an element type. -/
def name : DType → String
  | invalid => "InvalidDType" | bool => "Bool" | int8 => "Int8" | int16 => "Int16"
  | int32 => "Int32" | int64 => "Int64" | uint8 => "Uint8" | uint16 => "Uint16"
  | uint32 => "Uint32" | uint64 => "Uint64" | float16 => "Float16" | float32 => "Float32"
  | float64 => "Float64" | bfloat16 => "BFloat16" | complex64 => "Complex64"
  | complex128 => "Complex128" | f8e5m2 => "F8E5M2" | f8e4m3fn => "F8E4M3FN"
  | f8e4m3b11fnuz => "F8E4M3B11FNUZ" | f8e5m2fnuz => "F8E5M2FNUZ" | f8e4m3fnuz => "F8E4M3FNUZ"
  | s4 => "S4" | u4 => "U4" | token => "TOKEN" | s2 => "S2" | u2 => "U2" | f8e4m3 => "F8E4M3"
  | f8e3m4 => "F8E3M4" | f8e8m0fnu => "F8E8M0FNU" | f4e2m1fn => "F4E2M1FN"
  | other n => "DType(" ++ toString n ++ ")"

/-- The code of an element type: its position in the enumeration. -/
def code : DType → Int
  | other n => n
  | t => all.idxOf t

def ofName? (s : String) : Option DType := all.find? (·.name == s)

/-- The element type with a given code. Codes are signed 32-bit words, so the number is first
brought into that range modulo 2^32. -/
def ofCode (n : Int) : DType :=
  let c := n.bmod 4294967296
  if c < 0 then other c else (all[c.toNat]?).getD (other c)

/-- Signed integer types. -/
def isSignedInt : DType → Bool
  | int8 | int16 | int32 | int64 => true
  | _ => false

/-- Unsigned integer types. -/
def isUnsigned : DType → Bool
  | uint8 | uint16 | uint32 | uint64 => true
  | _ => false

def isInteger (t : DType) : Bool := t.isSignedInt || t.isUnsigned

/-- The bit width of an integer type. -/
def intBits : DType → Nat
  | int8 | uint8 => 8
  | int16 | uint16 => 16
  | int32 | uint32 => 32
  | _ => 64

/-- The element type's name in StableHLO tensor types. -/
def hloName : DType → String
  | float64 => "f64" | float32 => "f32" | float16 => "f16" | bfloat16 => "bf16"
  | int64 => "i64" | int32 => "i32" | int16 => "i16" | int8 => "i8"
  | uint64 => "ui64" | uint32 => "ui32" | uint16 => "ui16" | uint8 => "ui8"
  | bool => "i1" | complex64 => "complex<f32>" | complex128 => "complex<f64>"
  | t => "unknown_dtype<" ++ t.name ++ ">"

/-- The name of the host type that holds one element, for the types that have one. -/
def hostName? : DType → Option String
  | bool => some "bool" | int8 => some "int8" | int16 => some "int16" | int32 => some "int32"
  | int64 => some "int64" | uint8 => some "uint8" | uint16 => some "uint16"
  | uint32 => some "uint32" | uint64 => some "uint64" | float16 => some "float16.Float16"
  | float32 => some "float32" | float64 => some "float64" | bfloat16 => some "bfloat16.BFloat16"
  | complex64 => some "complex64" | complex128 => some "complex128"
  | _ => none

/-- Bytes per element, for the types that have a host type. -/
def byteSize? : DType → Option Nat
  | bool | int8 | uint8 => some 1
  | int16 | uint16 | float16 | bfloat16 => some 2
  | int32 | uint32 | float32 => some 4
  | int64 | uint64 | float64 | complex64 => some 8
  | complex128 => some 16
  | _ => none

end DType

end Rearrange

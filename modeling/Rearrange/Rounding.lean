import Rearrange.DType
/-!
# Rounding values to an element type

Arrays hold doubles whatever their element type, and every value is rounded to what the
element type can hold: booleans become 0 or 1 (NaN counts as true), integers keep their
integer part, single precision values are rounded to the nearest float, half precision
values to the nearest float and then to the nearest half (ties to even, overflow to infinity),
and the other types keep the double as it is.

Half precision rounding works on the bits of the single precision value: 1 sign bit, 5 exponent
bits with bias 15 and 10 fraction bits.
-/
namespace Rearrange.Rounding

def infinity : Float := 1.0 / 0.0

/-- Whether the dropped bits call for rounding up: the round bit is set and either some lower
bit or the lowest kept bit is set (ties go to even). -/
def roundsUp (coef roundBit : Nat) : Bool :=
  coef &&& roundBit != 0 && coef &&& (3 * roundBit - 1) != 0

/-- The bits of the half nearest to the single with bits `u`. -/
def halfBitsOfSingle (u : Nat) : Nat :=
  let sign := (u / 2147483648) * 32768
  let exp : Nat := (u / 8388608) % 256
  let coef := u % 8388608
  if exp = 255 then
    sign ||| 0x7C00 ||| (if coef ≠ 0 then 0x200 else 0) ||| (coef / 8192)
  else
    let halfExp : Int := (exp : Int) - 127 + 15
    if halfExp ≥ 31 then sign ||| 0x7C00
    else if halfExp ≤ 0 then
      if 14 - halfExp > 24 then sign
      else
        let full := coef ||| 0x800000
        let shift := (14 - halfExp).toNat
        let halfCoef := full / Nat.pow 2 shift
        let roundBit := Nat.pow 2 (13 - halfExp).toNat
        sign ||| (if roundsUp full roundBit then halfCoef + 1 else halfCoef)
    else
      let bits := sign ||| (halfExp.toNat * 1024) ||| (coef / 8192)
      if roundsUp coef 0x1000 then bits + 1 else bits

/-- The value of the half with bits `h`. -/
def halfValue (h : Nat) : Float :=
  let negative := h / 32768 % 2 = 1
  let exp : Nat := (h / 1024) % 32
  let frac := h % 1024
  let magnitude : Float :=
    if exp = 31 then (if frac = 0 then infinity else 0.0 / 0.0)
    else if exp = 0 then Float.scaleB (Float.ofNat frac) (-24)
    else Float.scaleB (Float.ofNat (frac + 1024)) ((exp : Int) - 25)
  if negative then -magnitude else magnitude

/-- The bits of the half nearest to a double, rounded through single precision. -/
def halfBits (x : Float) : Nat := halfBitsOfSingle x.toFloat32.toBits.toNat

def toSingle (x : Float) : Float := x.toFloat32.toFloat

/-- The nearest half precision value, rounded through single precision. -/
def toHalf (x : Float) : Float := halfValue (halfBits x)

def trunc (x : Float) : Float := if x ≥ 0 then x.floor else x.ceil

end Rounding

/-- A double rounded to what the element type holds. -/
def DType.normalize (t : DType) (x : Float) : Float :=
  if t = .bool then (if x != 0 then 1 else 0)
  else if t.isInteger then Rounding.trunc x
  else if t = .float32 then Rounding.toSingle x
  else if t = .float16 then Rounding.toHalf x
  else x

end Rearrange

import Rearrange.Decimal.Shortest
/-!
# Writing doubles as text

A double is written with its shortest digits (`Decimal.shortest`), laid out by a `Layout`: the
exponents of the leading digit that are written positionally, how an exponent is written
otherwise, and the texts of NaN and the infinities. Two layouts are used: the general one of
messages and program text (positional from 10^-4 up to below 10^6, exponents as `e+06`), and the
one of JSON numbers (positional from 10^-6 up to below 10^21).

`fixedOne` writes an integral double with all its digits and one decimal: `3.0`.
-/
namespace Rearrange.Decimal

/-- How digits are laid out. -/
structure Layout where
  /-- Exponents of the leading digit written positionally, from `positionalFrom` to `positionalTo`. -/
  positionalFrom : Int
  positionalTo : Int
  /-- The least number of digits of a written exponent. -/
  expDigits : Nat
  nan : String
  posInf : String
  negInf : String

/-- The layout of messages and program text: positional for leading exponents -4 to 5,
otherwise `d.ddde±XX` with at least two exponent digits; `+Inf` for positive infinity. -/
def Layout.general : Layout := ⟨-4, 5, 2, "NaN", "+Inf", "-Inf"⟩

/-- The layout of JSON numbers: positional for leading exponents -6 to 20. -/
def Layout.json : Layout := ⟨-6, 20, 1, "NaN", "Inf", "-Inf"⟩

def digitsOf (n : Nat) : String := toString n

/-- Digits `ds` of a number whose leading digit has exponent `e`, written positionally. -/
def positional (ds : String) (e : Int) : String :=
  let k := ds.length
  if e < 0 then "0." ++ String.ofList (List.replicate (-e - 1).toNat '0') ++ ds
  else if k ≤ e.toNat + 1 then ds ++ String.ofList (List.replicate (e.toNat + 1 - k) '0')
  else String.ofList (ds.toList.take (e.toNat + 1)) ++ "." ++ String.ofList (ds.toList.drop (e.toNat + 1))

/-- Digits `ds` with exponent `e` of the leading digit, written `d.ddde±XX`. -/
def scientific (minDigits : Nat) (ds : String) (e : Int) : String :=
  let mant := match ds.toList with
    | c :: rest => if rest.isEmpty then c.toString else c.toString ++ "." ++ String.ofList rest
    | [] => "0"
  let expText := digitsOf e.natAbs
  let padded := String.ofList (List.replicate (minDigits - expText.length) '0') ++ expText
  mant ++ "e" ++ (if e < 0 then "-" else "+") ++ padded

/-- A double written by a layout. -/
def Layout.render (l : Layout) (x : Float) : String :=
  if x.isNaN then l.nan
  else if x.isInf then (if x > 0 then l.posInf else l.negInf)
  else
    let b := Binary.ofFloat x
    let sign := if b.negative then "-" else ""
    if b.m = 0 then sign ++ "0"
    else
      let (d, p) := shortest b
      let ds := digitsOf d
      let e := p + ds.length - 1
      if l.positionalFrom ≤ e && e ≤ l.positionalTo then sign ++ positional ds e
      else sign ++ scientific l.expDigits ds e

/-- The exact value of an integral finite double, as an integer. -/
def integralValue (x : Float) : Int :=
  let b := Binary.ofFloat x
  let n := if 0 ≤ b.q then b.m * Nat.pow 2 b.q.toNat else b.m / Nat.pow 2 (-b.q).toNat
  if b.negative then -(n : Int) else n

/-- An integral double with all its digits and one decimal, `-0.0` for negative zero. -/
def fixedOne (x : Float) : String :=
  let b := Binary.ofFloat x
  let n := if 0 ≤ b.q then b.m * Nat.pow 2 b.q.toNat else b.m / Nat.pow 2 (-b.q).toNat
  (if b.negative then "-" else "") ++ digitsOf n ++ ".0"

end Rearrange.Decimal

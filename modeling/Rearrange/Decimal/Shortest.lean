/-!
# Shortest decimal digits of a double

A finite IEEE binary64 value is `m · 2^q`. Every real number strictly between the midpoints to
its two neighbouring doubles reads back to it, and so do the midpoints themselves when `m` is
even (ties go to the even significand). `shortest` returns the decimal `d · 10^p` with the
fewest digits in that interval, and of those the nearest to the value, an exact tie going to
the even `d`.

The search tries 1, 2, …, 17 digits. With `k` digits the decimal grid near the value has
spacing `10^p` for `p = E - k + 1`, `E` the exponent of the value's leading digit; if a point of
that grid lies in the interval, so does one of the value's two neighbours on it, so only those
two are tested. All arithmetic is exact, on natural numbers scaled by a power of two.
-/
namespace Rearrange.Decimal

/-- A finite double as sign, significand and binary exponent, with whether its lower neighbour
is nearer than its upper one (at a power of two above the subnormal range). -/
structure Binary where
  negative : Bool
  m : Nat
  q : Int
  lowerCloser : Bool
  deriving Repr, Inhabited

/-- Splits the bits of a double. Meaningful for finite values. -/
def Binary.ofFloat (x : Float) : Binary :=
  let b := x.toBits.toNat
  let e : Nat := (b / 4503599627370496) % 2048
  let f := b % 4503599627370496
  let negative := b / 9223372036854775808 = 1
  if e = 0 then ⟨negative, f, -1074, false⟩
  else ⟨negative, f + 4503599627370496, (e : Int) - 1075, f = 0 ∧ e > 1⟩

/-- The number of decimal digits of `n` after the first, so `10^log10 n ≤ n < 10^(log10 n + 1)`
for positive `n`. -/
def log10 (n : Nat) : Nat :=
  if n < 10 then 0 else log10 (n / 10) + 1
termination_by n
decreasing_by omega

/-- The interval of reals that read back to `m · 2^q`, all scaled by `2^s`: low end, value,
high end, and whether the ends belong to it. -/
structure Interval where
  s : Nat
  lo : Nat
  v : Nat
  hi : Nat
  inclusive : Bool

/-- The interval of a positive significand. -/
def Interval.of (b : Binary) : Interval :=
  let s := (2 - b.q).toNat
  let scale := Nat.pow 2 (b.q - 2 + s).toNat
  { s, v := 4 * b.m * scale, hi := (4 * b.m + 2) * scale,
    lo := (4 * b.m - (if b.lowerCloser then 1 else 2)) * scale,
    inclusive := b.m % 2 = 0 }

namespace Interval

/-- The exponent of the leading decimal digit of the value. -/
def leadExponent (iv : Interval) : Int :=
  (log10 (iv.v * Nat.pow 10 iv.s / Nat.pow 2 iv.s) : Int) - iv.s

/-- `d · 10^p` compared with `x / 2^s`, both scaled to natural numbers. -/
def scaled (iv : Interval) (d : Nat) (p : Int) (x : Nat) : Nat × Nat :=
  (d * Nat.pow 10 p.toNat * Nat.pow 2 iv.s, x * Nat.pow 10 (-p).toNat)

/-- Whether `d · 10^p` reads back to the value. -/
def contains (iv : Interval) (d : Nat) (p : Int) : Bool :=
  let (a, lo) := iv.scaled d p iv.lo
  let (_, hi) := iv.scaled d p iv.hi
  (lo < a || (iv.inclusive && lo == a)) && (a < hi || (iv.inclusive && a == hi))

/-- The nearest decimal with `k` significant digits that reads back, if there is one; `lead`
is the exponent of the value's leading digit (`leadExponent`). -/
def withDigits (iv : Interval) (lead : Int) (k : Nat) : Option (Nat × Int) :=
  let p := lead - k + 1
  let (unit, x) := iv.scaled 1 p iv.v
  let dLo := x / unit
  let dHi := dLo + 1
  let okLo := iv.contains dLo p
  let okHi := iv.contains dHi p
  if okLo && okHi then
    let below := x - dLo * unit
    let above := dHi * unit - x
    if below < above then some (dLo, p)
    else if above < below then some (dHi, p)
    else if dLo % 2 = 0 then some (dLo, p) else some (dHi, p)
  else if okLo then some (dLo, p)
  else if okHi then some (dHi, p)
  else none

end Interval

/-- Removes trailing zero digits, raising the exponent. -/
def trimZeros (d : Nat) (p : Int) : Nat × Int :=
  if d = 0 then (0, p)
  else if d % 10 = 0 then trimZeros (d / 10) (p + 1) else (d, p)
termination_by d
decreasing_by omega

/-- The value of a double that is an integer below 2^53, if it is one. Such an integer is its
own shortest decimal: a decimal with fewer significant digits is at least 1 away from it, and
the doubles there are at most 1 apart, so only the integer's own digits read back. -/
def Binary.smallInteger? (b : Binary) : Option Nat :=
  let unit := Nat.pow 2 (-b.q).toNat
  if b.q ≤ 0 && b.m % unit == 0 then some (b.m / unit) else none

/-- The shortest decimal `d · 10^p` that reads back to a positive finite double, `d` without
trailing zeros. -/
def shortest (b : Binary) : Nat × Int :=
  match b.smallInteger? with
  | some n => trimZeros n 0
  | none =>
    let iv := Interval.of b
    let lead := iv.leadExponent
    let found := (List.range 17).findSome? fun i => iv.withDigits lead (i + 1)
    let (d, p) := found.getD (iv.v, -(iv.s : Int))
    trimZeros d p

end Rearrange.Decimal

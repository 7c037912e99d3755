/-!
# Machine words

Sizes and counts are signed 64-bit words: products wrap around modulo 2^64 into the range
from -2^63 to 2^63-1, and byte counts are unsigned words that wrap into 0 to 2^64-1.
`checkedMul` is the multiplication that refuses to leave the range instead.
-/
namespace Rearrange.Word

/-- The largest signed 64-bit word, 2^63 - 1. -/
def maxInt64 : Int := 9223372036854775807

/-- The signed 64-bit word congruent to `x` modulo 2^64. -/
def wrapInt64 (x : Int) : Int := x.bmod 18446744073709551616

/-- The unsigned 64-bit word congruent to `x` modulo 2^64. -/
def wrapUInt64 (x : Int) : Nat := (x % 18446744073709551616).toNat

/-- The product of two non-negative words, or `none` when it exceeds `maxInt64`: the test is
`b > maxInt64 / a` for a non-zero `a`. -/
def checkedMul (a b : Int) : Option Int :=
  if a ≠ 0 ∧ b > maxInt64.tdiv a then none else some (wrapInt64 (a * b))

/-- The wrapped product of a list of words. -/
def product (xs : List Int) : Int := wrapInt64 (xs.foldl (· * ·) 1)

/-- The product of a list of non-negative words, or `none` as soon as a partial product
exceeds `maxInt64`. -/
def checkedProduct (xs : List Int) : Option Int :=
  xs.foldlM checkedMul 1

end Rearrange.Word

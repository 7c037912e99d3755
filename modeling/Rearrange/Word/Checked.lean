import Rearrange.Word
import Mathlib.Algebra.BigOperators.Group.List.Basic
import Mathlib.Tactic.Linarith
/-!
# Checked products are exact

`checkedMul` tests `b > maxInt64 / a` with truncating division. For non-negative operands the test
holds exactly when the true product leaves the signed 64-bit range, so a product that fits is returned
unwrapped. `checkedProduct` stops at the first partial product that overflows. Over positive
dimensions the partial products never decrease, so stopping early agrees with the overflow of the
whole product.

The main statement is `checkedProduct_exact`.
-/
namespace Rearrange.Word

theorem maxInt64_nonneg : (0 : Int) ≤ maxInt64 := by
  unfold maxInt64
  decide

theorem wrapInt64_of_le {x : Int} (h0 : 0 ≤ x) (h1 : x ≤ maxInt64) : wrapInt64 x = x := by
  unfold wrapInt64
  unfold maxInt64 at h1
  apply Int.bmod_eq_of_le
  · omega
  · omega

theorem checkedMul_of_nonneg (a b : Int) (ha : 0 ≤ a) (hb : 0 ≤ b) :
    checkedMul a b = if a * b ≤ maxInt64 then some (a * b) else none := by
  unfold checkedMul
  rcases ha.eq_or_lt with h0 | hpos
  · subst h0
    simp [maxInt64_nonneg, wrapInt64]
  · rw [Int.tdiv_eq_ediv_of_nonneg maxInt64_nonneg]
    have key : maxInt64 / a < b ↔ maxInt64 < b * a := Int.ediv_lt_iff_lt_mul hpos
    have comm : b * a = a * b := Int.mul_comm b a
    by_cases hle : a * b ≤ maxInt64
    · have fits : ¬ (a ≠ 0 ∧ b > maxInt64 / a) := by
        intro ⟨_, h⟩
        have := key.1 h
        omega
      rw [if_neg fits, if_pos hle]
      have nonneg : 0 ≤ a * b := Int.mul_nonneg ha hb
      rw [wrapInt64_of_le nonneg hle]
    · have past : a ≠ 0 ∧ b > maxInt64 / a := ⟨by omega, key.2 (by omega)⟩
      rw [if_pos past, if_neg hle]

theorem prod_pos_of_pos (xs : List Int) (pos : ∀ x ∈ xs, 0 < x) : 0 < xs.prod := by
  induction xs with
  | nil => simp
  | cons x xs ih =>
    rw [List.prod_cons]
    exact Int.mul_pos (pos x (by simp)) (ih fun y hy => pos y (by simp [hy]))

theorem foldlM_checkedMul (dims : List Int) (pos : ∀ d ∈ dims, 0 < d) (acc : Int) (h0 : 0 < acc)
    (h1 : acc ≤ maxInt64) :
    dims.foldlM checkedMul acc =
      if acc * dims.prod ≤ maxInt64 then some (acc * dims.prod) else none := by
  induction dims generalizing acc with
  | nil => simp [h1]
  | cons d ds ih =>
    have hd : 0 < d := pos d (by simp)
    have rest : ∀ x ∈ ds, 0 < x := fun x hx => pos x (by simp [hx])
    have prodPos : 0 < ds.prod := prod_pos_of_pos ds rest
    rw [List.foldlM_cons, checkedMul_of_nonneg acc d (by omega) (by omega), List.prod_cons]
    by_cases hle : acc * d ≤ maxInt64
    · rw [if_pos hle]
      show List.foldlM checkedMul (acc * d) ds = _
      rw [ih rest (acc * d) (Int.mul_pos h0 hd) hle, Int.mul_assoc]
    · rw [if_neg hle]
      have grow : acc * d ≤ acc * (d * ds.prod) := by
        have : d ≤ d * ds.prod := by nlinarith
        nlinarith
      have past : ¬ acc * (d * ds.prod) ≤ maxInt64 := by omega
      rw [if_neg past]
      rfl

/-- On non-negative words, `checkedMul` is the exact product when that product is at most
`maxInt64`, and `none` otherwise. On a list of positive dimensions, `checkedProduct` is the exact
product of the list when it is at most `maxInt64`, and `none` otherwise. -/
theorem checkedProduct_exact :
    (∀ a b : Int, 0 ≤ a → 0 ≤ b →
      checkedMul a b = if a * b ≤ maxInt64 then some (a * b) else none) ∧
    (∀ dims : List Int, (∀ d ∈ dims, 0 < d) →
      checkedProduct dims = if dims.prod ≤ maxInt64 then some dims.prod else none) := by
  refine ⟨checkedMul_of_nonneg, fun dims pos => ?_⟩
  have start := foldlM_checkedMul dims pos 1 (by decide) (by unfold maxInt64; decide)
  rw [Int.one_mul] at start
  exact start

/-- Check at concrete inputs: `3 * 4` fits, `2^32 * 2^32` overflows, and the dimensions `[2, 3]`
have product 6. -/
theorem checkedProduct_exact_samples :
    checkedMul 3 4 = some 12 ∧ checkedMul (2 ^ 32) (2 ^ 32) = none ∧
      checkedProduct [2, 3] = some 6 := by
  refine ⟨?_, ?_, ?_⟩
  · rw [checkedProduct_exact.1 3 4 (by decide) (by decide)]
    unfold maxInt64
    decide
  · rw [checkedProduct_exact.1 (2 ^ 32) (2 ^ 32) (by decide) (by decide)]
    unfold maxInt64
    decide
  · rw [checkedProduct_exact.2 [2, 3] (by decide)]
    unfold maxInt64
    decide

end Rearrange.Word

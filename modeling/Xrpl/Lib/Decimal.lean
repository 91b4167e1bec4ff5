import Mathlib.Algebra.Order.Field.Power
import Mathlib.Data.Nat.Cast.Order.Field
import Mathlib.Tactic.Linarith
import Mathlib.Tactic.Ring

/-!
# Decimal floating point values

Two coefficients with the same number of digits are ordered by their exponents first.
-/

/-- With coefficients of one length the value with the smaller exponent is the smaller one. -/
private lemma mul_zpow_lt_mul_zpow {k m n : ℕ} {d e : ℤ} (hm : m < k * 10) (hn : k ≤ n) (hde : d < e) :
    (m : ℚ) * 10 ^ d < n * 10 ^ e := by
  have hpos : (0 : ℚ) < 10 ^ d := by positivity
  have hp : (10 : ℚ) ^ d * 10 ≤ 10 ^ e := by
    rw [← zpow_add_one₀ (by norm_num)]
    exact zpow_le_zpow_right₀ (by norm_num) hde
  have hm' : (m : ℚ) < k * 10 := by exact_mod_cast hm
  have hn' : (k : ℚ) ≤ n := by exact_mod_cast hn
  calc (m : ℚ) * 10 ^ d < k * 10 * 10 ^ d := mul_lt_mul_of_pos_right hm' hpos
    _ = k * (10 ^ d * 10) := by ring
    _ ≤ n * 10 ^ e := mul_le_mul hn' hp (by positivity) (by positivity)

lemma mul_zpow_lt_mul_zpow_iff {k m n : ℕ} {d e : ℤ} (hm : k ≤ m ∧ m < k * 10)
    (hn : k ≤ n ∧ n < k * 10) : (m : ℚ) * 10 ^ d < n * 10 ^ e ↔ d < e ∨ d = e ∧ m < n := by
  rcases lt_trichotomy d e with hde | rfl | hde
  · have := mul_zpow_lt_mul_zpow hm.2 hn.1 hde
    simp [this, hde]
  · have hpos : (0 : ℚ) < 10 ^ d := by positivity
    simp [mul_lt_mul_iff_left₀ hpos]
  · have := mul_zpow_lt_mul_zpow hn.2 hm.1 hde
    simp [this.le, hde.not_gt, hde.ne']

import Xrpl.Basics.NumberLoss
import Xrpl.MPT.Amount

/-!
# Bounds on amounts of multi-purpose tokens

* `le_of_canSubtract`: the check before a subtraction of 64 bits is enough;
* `le_of_multiply`: charging a transfer fee does not make an amount smaller.  Before fixUniversalNumber there are
  exceptions (`FeeWraps`), where a sum of 64 bits wraps around and nothing is charged.
-/

namespace Xrpl.MPT

open Except

open Basics (MantissaScale RoundingMode Number Failure)

private lemma toRep_of_le {mode : RoundingMode} {m : ℕ} (hm : m ≤ kMaxMpTokenAmount) :
    Number.toRep mode { mantissa := m, exponent := 0 } = .ok (m : ℤ) := by
  have hext : Number.external { mantissa := m, exponent := 0 } = (m, 0) := by
    rw [Number.external, if_neg]
    exact Nat.not_lt.2 hm
  rw [Number.toRep, hext]
  dsimp only
  split
  case isTrue hz =>
    subst hz
    rfl
  case isFalse =>
    change Number.doRound mode _ { sbit := false } m = _
    rw [Number.doRound, Number.changes_empty]
    rfl

private lemma canonicalize_of_le (ar : Arithmetic) (amount : MPTAmount) : canonicalize ar amount.1 0 = .ok amount := by
  obtain ⟨m, hm⟩ := amount
  rw [canonicalize]
  split
  case isTrue hz =>
    obtain rfl : m = 0 := by
      rcases hz with h | h
      · exact h
      · omega
    rfl
  cases h : ar.switchover with
  | true =>
    simp only [toRep_of_le hm]
    change (if h : m ≤ kMaxMpTokenAmount then _ else _) = _
    rw [dif_pos hm]
    rfl
  | false =>
    have hv : m / 10 ^ (-(0 : ℤ)).toNat = m := Nat.div_one m
    simp only [hv]
    change (if h : m ≤ kMaxMpTokenAmount then _ else _) = _
    rw [dif_pos hm]
    rfl

variable {ar : Arithmetic} {rate : ℕ} {cost : MPTAmount} {amount : MPTAmount}

private lemma canonicalize_le {m : ℕ} (h : canonicalize ar m 0 = .ok amount) : amount.1 ≤ m := by
  by_cases hm : m ≤ kMaxMpTokenAmount
  · rw [canonicalize_of_le ar ⟨m, hm⟩] at h
    obtain rfl := ok.inj h
    exact le_rfl
  · exact amount.2.trans (Nat.le_of_not_le hm)

lemma le_of_canSubtract {a : ℕ} {b : MPTAmount} (h : canSubtract ar a b.1 = .ok true) : b.1 ≤ a := by
  obtain ⟨aVal, ha, h⟩ := of_bind_eq_ok h
  rw [canonicalize_of_le] at h
  have hle := canonicalize_le ha
  change (if b.1 = 0 then pure true else _) = _ at h
  split at h
  case isTrue hz => omega
  case isFalse hpos =>
    have h := ok.inj h
    simp only [Bool.not_eq_true', Bool.and_eq_false_iff, decide_eq_false_iff_not] at h
    omega

private lemma raiseToMinValue_eq {value : ℕ} (hpos : 0 < value) (offset : ℤ) :
    ∃ k : ℕ, raiseToMinValue value offset = (value * 10 ^ k, offset - k) ∧ kMinValue ≤ value * 10 ^ k ∧
      (k = 0 ∨ value * 10 ^ k < kMinValue * 10) := by
  rw [raiseToMinValue]
  split
  case isTrue hlt =>
    obtain ⟨k, hk, hmin, hmax⟩ := raiseToMinValue_eq (show 0 < value * 10 by omega) (offset - 1)
    have hm : value * 10 ^ (k + 1) = value * 10 * 10 ^ k := by ring
    refine ⟨k + 1, ?_, by rwa [hm], .inr ?_⟩
    · rw [hk, hm]
      congr 1
      omega
    rw [hm]
    rcases hmax with rfl | hmax
    · omega
    · exact hmax
  case isFalse hge => exact ⟨0, by simp, by omega, .inl rfl⟩
termination_by kMinValue - value
decreasing_by omega

/-- The rates of transfer fees: parity, or more than it by at least the least fee. -/
structure IsRate (rate : ℕ) : Prop where
  fee : rate = kParityRate ∨ kParityRate + 10000 ≤ rate
  lt : rate < 10000000000

private lemma asAmount_eq (h : IsRate rate) : asAmount rate = (rate * 10 ^ 6, -15) := by
  have hp : kParityRate = 1000000000 := rfl
  have hmin : kMinValue = 1000000000000000 := rfl
  have hf := h.fee
  have hlt := h.lt
  obtain ⟨k, hk, hle, hbd⟩ := raiseToMinValue_eq (show 0 < rate by omega) (-9)
  have hk6 : k = 6 := by
    by_contra hne
    rcases Nat.lt_or_gt_of_ne hne with hl | hh
    · have : 10 ^ k ≤ 10 ^ 5 := Nat.pow_le_pow_right (by norm_num) (by omega)
      have := Nat.mul_lt_mul_of_lt_of_le hlt this (by norm_num)
      omega
    · have : 10 ^ 7 ≤ 10 ^ k := Nat.pow_le_pow_right (by norm_num) (by omega)
      have := Nat.mul_le_mul (by omega : 1000000000 ≤ rate) this
      omega
  subst hk6
  rw [asAmount, hk]
  rfl

/-- The amounts and rates for which the product of 64 bits is so close to the limit that rounding it wraps around. -/
def FeeWraps (amount rate : ℕ) : Prop := 2 ^ 64 - 7 ≤ amount * rate / 10 ^ 8 ∧ amount * rate / 10 ^ 8 < 2 ^ 64

instance (amount rate : ℕ) : Decidable (FeeWraps amount rate) := inferInstanceAs (Decidable (_ ∧ _))

private lemma product_lt {amount k : ℕ} (hlt : rate < 10000000000) (hk : k = 0 ∨ amount * 10 ^ k < kMinValue * 10)
    (hw : ¬ FeeWraps amount rate) (hm : amount * 10 ^ k * (rate * 10 ^ 6) / kTenTO14 < 2 ^ 64) :
    amount * 10 ^ k * (rate * 10 ^ 6) / kTenTO14 + 7 < 2 ^ 64 := by
  have ht : kTenTO14 = 10 ^ 8 * 10 ^ 6 := rfl
  have ha : amount * 10 ^ k * (rate * 10 ^ 6) = amount * 10 ^ k * rate * 10 ^ 6 := by ring
  rw [ht, ha, Nat.mul_div_mul_right _ _ (by norm_num)] at hm ⊢
  rcases hk with rfl | hk
  · rw [pow_zero, mul_one] at hm ⊢
    by_contra hge
    exact hw ⟨by omega, hm⟩
  · have hmin : kMinValue = 1000000000000000 := rfl
    have : amount * 10 ^ k * rate ≤ kMinValue * 10 * 10000000000 := Nat.mul_le_mul hk.le hlt.le
    omega

private lemma canonicalize_down {value k : ℕ} (hsw : ar.switchover = false)
    (hvl : value ≠ 0) (hk : k < 20) (h : canonicalize ar value (-(k : ℤ)) = .ok amount) :
    amount.1 = value / 10 ^ k := by
  rw [canonicalize, if_neg (by omega), if_neg (by omega), hsw] at h
  have hup : (-(k : ℤ)).toNat = 0 := by omega
  rw [hup, neg_neg] at h
  obtain ⟨n, hn, h⟩ := of_bind_eq_ok h
  obtain rfl := ok.inj hn
  dsimp only at h
  split at h
  · obtain rfl := ok.inj h
    rfl
  · cases h

private lemma le_of_multiplyIntegers (hsw : ar.switchover = false)
    (hpos : 0 < amount.1) (hpty : kParityRate ≤ rate) (hlt : rate < 10000000000) (hw : ¬ FeeWraps amount.1 rate)
    (h : multiplyIntegers ar amount (rate * 10 ^ 6, -15) = .ok cost) : amount.1 ≤ cost.1 := by
  obtain ⟨k, hk, hmin, hmax⟩ := raiseToMinValue_eq hpos 0
  have hk15 : k ≤ 15 := by
    rcases hmax with rfl | hmax
    · omega
    have ho : 1 * 10 ^ k ≤ amount.1 * 10 ^ k := Nat.mul_le_mul_right _ hpos
    have : 10 ^ k < 10 ^ 16 := by
      have : kMinValue * 10 = 10 ^ 16 := rfl
      omega
    have := (Nat.pow_lt_pow_iff_right (by norm_num)).1 this
    omega
  rw [multiplyIntegers, hk] at h
  obtain ⟨product, hm, h⟩ := of_bind_eq_ok h
  rw [muldiv] at hm
  split_ifs at hm with hf
  have hv := (ok.inj hm).symm
  rw [← hv, not_le] at hf
  have hp : product + 7 < 2 ^ 64 := by
    rw [hv] at hf ⊢
    exact product_lt hlt hmax hw hf
  -- the rate is at least one
  have hge : amount.1 * 10 ^ (k + 1) ≤ product := by
    rw [hv, Nat.le_div_iff_mul_le (by decide)]
    have : 10 * kTenTO14 ≤ rate * 10 ^ 6 := by
      have h1 : kTenTO14 = 100000000000000 := rfl
      have h2 : kParityRate = 1000000000 := rfl
      omega
    calc amount.1 * 10 ^ (k + 1) * kTenTO14 = amount.1 * 10 ^ k * (10 * kTenTO14) := by ring
      _ ≤ amount.1 * 10 ^ k * (rate * 10 ^ 6) := Nat.mul_le_mul_left _ this
  have hoff : (0 : ℤ) - k + -15 + 14 = -((k + 1 : ℕ) : ℤ) := by omega
  rw [hoff] at h
  rw [canonicalize_down hsw (by omega) (by omega) h]
  exact (Nat.le_div_iff_mul_le (by positivity)).2 (by omega)

private lemma of_liftNumber {α : Type} {x : Except Failure α} {a : α} (h : liftNumber x = .ok a) : x = .ok a := by
  cases x with
  | error e => cases h
  | ok b => exact congrArg Except.ok (ok.inj h)

private lemma ofRep_atLeast {scale : MantissaScale} {mode : RoundingMode} {n : ℕ} (hn : n ≤ kMaxMpTokenAmount)
    (exponent : Int32) :
    Meets Failure.IsOverflow (Number.ofRep scale mode (.ofNat n) exponent)
      (Basics.AtLeast (n * 10 ^ exponent.toInt * (1 - Basics.loss))) := by
  have hi : (Int64.ofNat n).toInt = n := Int64.toInt_ofNat_of_lt (Nat.lt_succ_of_le hn)
  have hneg : ¬ Int64.ofNat n < 0 := by
    rw [Int64.lt_iff_toInt_lt, Int64.toInt_zero]
    omega
  have hnn : (0 : Int64) ≤ Int64.ofNat n := by
    rw [Int64.le_iff_toInt_le, Int64.toInt_zero]
    omega
  have hext : Number.externalToInternal (.ofNat n) = n := by
    rw [Number.externalToInternal, if_pos hnn, hi, Int.toNat_natCast]
  rw [Number.ofRep, hext]
  have hmax : kMaxMpTokenAmount = 9223372036854775807 := rfl
  exact Basics.normalize_atLeast (by simpa using hneg) (by dsimp only; omega)

private lemma tiny_le_loss : Basics.tiny ≤ Basics.loss := by
  calc (10 : ℚ) ^ (Basics.kMinExponent + 20) ≤ 10 ^ (-12 : ℤ) :=
        zpow_le_zpow_right₀ (by norm_num) (by decide)
    _ = 1 / 10 ^ 12 := by norm_num

private lemma le_magnitude_of_atLeast {X : ℚ} {r : Number} (hX : 1 ≤ X) (h : Basics.AtLeast (X * (1 - Basics.loss)) r) :
    X * (1 - 2 * Basics.loss) ≤ r.magnitude := by
  have ht := tiny_le_loss
  have hl : 0 ≤ Basics.loss := by norm_num [Basics.loss]
  have := h.2
  nlinarith

private lemma le_of_multiplyNumbers (hpos : 0 < amount.1) (hf : kParityRate + 10000 ≤ rate) (hlt : rate < 10000000000)
    (h : multiplyNumbers ar amount (rate * 10 ^ 6, -15) = .ok cost) : amount.1 ≤ cost.1 := by
  have hpty : kParityRate = 1000000000 := rfl
  have hmax : kMaxMpTokenAmount = 9223372036854775807 := rfl
  obtain ⟨n1, h1, h⟩ := of_bind_eq_ok h
  obtain ⟨n2, h2, h⟩ := of_bind_eq_ok h
  obtain ⟨r, hr, h⟩ := of_bind_eq_ok h
  obtain ⟨k, hk, h⟩ := of_bind_eq_ok h
  replace h1 := of_liftNumber h1
  replace h2 := of_liftNumber h2
  replace hr := of_liftNumber hr
  replace hk := of_liftNumber hk
  have hn1 := (ofRep_atLeast amount.2 0).of_ok h1
  have hn2 := (ofRep_atLeast (by dsimp only; omega) (.ofInt (-15))).of_ok h2
  have hnrm1 := (Number.ofRep_normal _ _).of_ok h1
  have hnrm2 := (Number.ofRep_normal _ _).of_ok h2
  have hp := (Basics.mul_atLeast hnrm1 hnrm2 hn1.1 hn2.1).of_ok hr
  have hnrm := (Number.mul_normal hnrm1 hnrm2).of_ok hr
  have ho : (1 : ℚ) ≤ amount.1 := by exact_mod_cast hpos
  have hra : (1 + 1 / 100000 : ℚ) ≤ (rate * 10 ^ 6 : ℕ) * 10 ^ (-15 : ℤ) := by
    have : (1000010000 : ℚ) ≤ rate := by exact_mod_cast (by omega : 1000010000 ≤ rate)
    norm_num
    linarith
  have he0 : (10 : ℚ) ^ (0 : Int32).toInt = 1 := zpow_zero 10
  rw [he0, mul_one] at hn1
  have hm1 := le_magnitude_of_atLeast ho hn1
  have hm2 := le_magnitude_of_atLeast (le_trans (by norm_num) hra) hn2
  have hrch : (amount.1 : ℚ) ≤ r.magnitude := by
    have ht := tiny_le_loss
    have hl : Basics.loss = 1 / 10 ^ 12 := rfl
    have hm2' : (1 + 1 / 200000 : ℚ) ≤ n2.magnitude := by
      rw [hl] at hm2
      linarith
    have hmul : (amount.1 : ℚ) * (1 - 2 * Basics.loss) * (1 + 1 / 200000) ≤ n1.magnitude * n2.magnitude :=
      mul_le_mul hm1 hm2' (by norm_num) (Basics.Number.magnitude_nonneg _)
    have hres : (amount.1 : ℚ) * (1 - 2 * Basics.loss) * (1 + 1 / 200000) * (1 - Basics.loss) ≤
        r.magnitude + Basics.tiny :=
      le_trans (mul_le_mul_of_nonneg_right hmul (by norm_num [Basics.loss])) hp.2
    rw [hl] at hres ht
    linarith
  have hc := (Basics.le_toRep hnrm hp.1 hrch).of_ok hk
  -- the conversion gives an `int64_t`, which is an amount as it stands
  have hin : k.toNat ≤ kMaxMpTokenAmount := by
    have := (Basics.toRep_le hnrm).of_ok hk
    exact Int.toNat_le.2 this
  rw [canonicalize_of_le ar ⟨k.toNat, hin⟩] at h
  obtain rfl := ok.inj h
  dsimp only
  omega

lemma le_of_multiply (hr : IsRate rate)
    (hw : ar.switchover = true ∨ ¬ FeeWraps amount.1 rate) (h : multiply ar amount rate = .ok cost) :
    amount.1 ≤ cost.1 := by
  rw [multiply] at h
  split at h
  · obtain rfl := ok.inj h
    exact le_rfl
  case isFalse hne =>
  split at h
  · obtain rfl := ok.inj h
    exact le_rfl
  case isFalse hz =>
  have hpos : 0 < amount.1 := Nat.pos_of_ne_zero hz
  have hf := hr.fee.resolve_left hne
  rw [asAmount_eq hr] at h
  split at h
  · exact le_of_multiplyNumbers hpos hf hr.lt h
  case isFalse hsw =>
    have hp : kParityRate ≤ rate := (Nat.le_add_right _ _).trans hf
    exact le_of_multiplyIntegers (by simpa using hsw) hpos hp hr.lt (hw.resolve_left hsw) h

end Xrpl.MPT

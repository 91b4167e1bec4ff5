import Mathlib.Data.Rat.Floor
import Mathlib.Tactic.LinearCombination
import Xrpl.Basics.NumberRounding

/-!
# Directed rounding: the four operations

In the scale `large`, a result of `+`, `-`, `*` or `/` that is not zero is on the side of the exact value that the mode
asks for, except where an addition loses the sign (`Operation.LosesSign`); there it is on the wrong side.
-/

namespace Xrpl.Basics

open Except Guard MantissaType

namespace Number

variable {mode : RoundingMode}

private lemma large_fix : (getMantissaRange .large).cuspRoundingFixEnabled = true := rfl

variable {x r y : Number} {z : Number} {negative : Bool}

private lemma Sided.normalize (hm : mode ≠ .toNearest) {X : ℚ}
    (hz : Sided (mode.outward negative) negative X z) (hlt : z.mantissa < 2 ^ 64)
    (h : Number.normalize .large mode z = .ok r) : Sided (mode.outward negative) negative X r := by
  rcases hz with rfl | ⟨hn, hb⟩
  · exact .inl (ok.inj h).symm
  have hs : Meets Failure.IsOverflow (doNormalize .uint64 (getMantissaRange .large) mode false z)
      (Sided (mode.outward z.negative) z.negative ((z.mantissa + 0) * 10 ^ z.exponent)) :=
    doNormalize_directed hm large_fix hlt le_rfl zero_lt_one (by simp) (fun _ => by simp)
  have hr := hs.of_ok h
  rw [hn, add_zero] at hr
  rcases hr with rfl | ⟨hn', hb'⟩
  · exact .inl rfl
  · exact .inr ⟨hn', hb.trans hb'⟩

/-- The operands of an addition that are not zero and do not cancel are aligned, combined by their signs and
normalized. -/
private lemma add_cases (hx : x.Normal (getMantissaRange .large)) (hy : y.Normal (getMantissaRange .large))
    (h : add .large mode x y = .ok r) :
    (y = kZero ∧ r = x) ∨ (x = kZero ∧ r = y) ∨ (x = y.neg ∧ r = kZero) ∨
      x.InRange (getMantissaRange .large) ∧ y.InRange (getMantissaRange .large) ∧ x ≠ y.neg ∧
        ∃ z, normalize .large mode z.narrow = .ok r ∧
          (x.negative = y.negative ∧ addMagnitudes .large mode (align x y).1 (align x y).2.1 (align x y).2.2 = .ok z ∨
            x.negative ≠ y.negative ∧
              subMagnitudes .large mode (align x y).1 (align x y).2.1 (align x y).2.2 = .ok z) := by
  rw [add] at h
  split at h
  case isTrue hy0 => exact .inl ⟨hy0, (ok.inj h).symm⟩
  case isFalse hy0 =>
  split at h
  case isTrue hx0 => exact .inr (.inl ⟨hx0, (ok.inj h).symm⟩)
  case isFalse hx0 =>
  split at h
  case isTrue hneg => exact .inr (.inr (.inl ⟨hneg, (ok.inj h).symm⟩))
  case isFalse hne =>
  have hx' := hx.inRange hx0
  have hy' := hy.inRange hy0
  obtain ⟨hxn, hyn⟩ := align_negative hx'.lt_wide hy'.lt_wide
  obtain ⟨z, hz, hn⟩ := of_bind_eq_ok h
  refine .inr (.inr (.inr ⟨hx', hy', hne, z, hn, ?_⟩))
  rw [addAligned, hxn, hyn] at hz
  split at hz
  case isTrue hs => exact .inl ⟨hs, hz⟩
  case isFalse hs => exact .inr ⟨hs, hz⟩

private lemma toRat_add_of_same (hs : x.negative = y.negative) :
    x.toRat + y.toRat = signed x.negative (x.magnitude + y.magnitude) := by
  rw [toRat, toRat, ← hs, signed]
  cases x.negative
  · simp
  · simp
    ring

private lemma sum_spec (hm : mode ≠ .toNearest) (hx : x.InRange (getMantissaRange .large))
    (hy : y.InRange (getMantissaRange .large)) (hs : x.negative = y.negative)
    (h : addMagnitudes .large mode (align x y).1 (align x y).2.1 (align x y).2.2 = .ok z)
    (hn : normalize .large mode z.narrow = .ok r) :
    ∃ sbit inexact, RoundedTo (mode.outward sbit) inexact x.negative (x.magnitude + y.magnitude) r ∧
        (¬ LosesSign x y → inexact → sbit = x.negative) ∧ (LosesSign x y → sbit = false ∧ inexact) := by
  have hsum := (align_totals hx hy hs).unrounded hs
  have hw : (fitSum (getMantissaRange .large) (align x y).1 (total (align x y).2.1 (align x y).2.2)).2.mantissa <
      2 ^ uint128.bits := by
    refine lt_of_le_of_lt hsum.roundable.le_rep ?_
    decide
  have hnrm := (doRoundUp_normal _ _ hsum.roundable).of_ok h
  have hr := (doRoundUp_directed hm large_fix _ _ hw hsum.stands).of_ok h
  rw [narrow_of_lt hnrm.mantissa_lt] at hn
  have hrz : r = z := by
    rcases hnrm with rfl | hin
    · exact (ok.inj hn).symm
    · exact (normalize_of_inRange hin).of_ok hn
  rw [hsum.negative, ← hrz] at hr
  exact ⟨_, _, hr, hsum.sbit, hsum.losesSign⟩

/-- A sum of operands of one sign is on the right side exactly when it does not lose the sign. -/
private lemma onSide_sum_iff (hm : mode.Directed) {sbit : Bool} {inexact : Prop}
    (hs : x.negative = y.negative) (hr : r ≠ kZero)
    (h : RoundedTo (mode.outward sbit) inexact x.negative (x.magnitude + y.magnitude) r)
    (hkp : ¬ LosesSign x y → inexact → sbit = x.negative) (hlos : LosesSign x y → sbit = false ∧ inexact) :
    OnSide mode (x.toRat + y.toRat) r.toRat ↔ ¬ LosesSign x y := by
  obtain ⟨hn, hb, hi⟩ := h.resolve_left hr
  have hr' : r.toRat = signed x.negative r.magnitude := by rw [← hn]; rfl
  rw [toRat_add_of_same hs, hr', onSide_signed_iff hm]
  by_cases hl : LosesSign x y
  · obtain ⟨rfl, hin⟩ := hlos hl
    have ho : mode.outward false = !mode.outward x.negative := by
      rw [hl.1, ← hm.outward_not]
      rfl
    rw [ho] at hb
    exact iff_of_false ((bracket_not_iff (hi.1 hin)).1 hb) (not_not.2 hl)
  · refine iff_of_true ?_ hl
    by_cases hin : inexact
    · rw [← hkp hl hin]
      exact hb
    have heq : r.magnitude = x.magnitude + y.magnitude := by
      by_contra hne
      exact hin (hi.2 hne)
    rw [heq]
    exact Bracket.refl _ _

private lemma add_onSide_iff (hm : mode.Directed) (hx : x.Normal (getMantissaRange .large))
    (hy : y.Normal (getMantissaRange .large)) (h : add .large mode x y = .ok r) (hr : r ≠ kZero) :
    OnSide mode (x.toRat + y.toRat) r.toRat ↔ ¬ LosesSign x y := by
  rcases add_cases hx hy h with ⟨rfl, rfl⟩ | ⟨rfl, rfl⟩ | ⟨-, rfl⟩ | ⟨hx', hy', hne, z, hn, ⟨hs, hz⟩ | ⟨hs, hz⟩⟩
  · rw [toRat_kZero, add_zero]
    exact iff_of_true (onSide_refl _ _) (fun hl => absurd hl.2.1 (by decide))
  · rw [toRat_kZero, zero_add]
    exact iff_of_true (onSide_refl _ _) (fun hl => absurd hl.1 (by decide))
  · exact absurd rfl hr
  · obtain ⟨sbit, inexact, hrnd, hkp, hlos⟩ := sum_spec hm.ne_toNearest hx' hy' hs hz hn
    exact onSide_sum_iff hm hs hr hrnd hkp hlos
  obtain ⟨negative, X, hvl, hsub⟩ := subMagnitudes_sided hx' hy' hm hs hne
  obtain ⟨hsd, hlt⟩ := hsub.of_ok hz
  rw [narrow_of_lt hlt] at hn
  rw [hvl]
  exact iff_of_true (onSide_of_sided hm (Sided.normalize hm.ne_toNearest hsd hlt hn) hr)
    fun ⟨hx, hy, _⟩ => hs (hx.trans hy.symm)

/-! ### Towards zero -/

/-- The exact sum `X` of operands with different signs, aligned to the exponent `e`, leaves nothing behind in the guard
once the digit is taken back that there is room for; or the last digit is cut off, which is more. -/
def Spares (X : ℚ) (e : ℤ) : Prop :=
  if 10 * ⌈X / 10 ^ e⌉ ≤ kMaxRep then ∃ k : ℤ, X = k * 10 ^ (e - 1)
  else (∃ k : ℤ, X = k * 10 ^ e) ∨ kMaxRep < ⌈X / 10 ^ e⌉ ∧ ⌈X / 10 ^ e⌉ % 10 ≠ 0

private lemma spares_iff {m : ℕ} {f : ℚ} (hf : 0 ≤ f) (hf1 : f < 1) (e : ℤ) : Spares ((m - f) * 10 ^ e) e ↔
    if 10 * m ≤ kMaxRep then ∃ k : ℤ, 10 * f = k else f = 0 ∨ kMaxRep < m ∧ m % 10 ≠ 0 := by
  have hp : (10 : ℚ) ^ e ≠ 0 := zpow_ne_zero _ (by norm_num)
  have hp1 : (10 : ℚ) ^ (e - 1) ≠ 0 := zpow_ne_zero _ (by norm_num)
  have hten : (10 : ℚ) ^ e = 10 * 10 ^ (e - 1) := by
    rw [mul_comm, ← ten_zpow_add_one, sub_add_cancel]
  have hceil : ⌈(m - f) * 10 ^ e / 10 ^ e⌉ = (m : ℤ) := by
    rw [mul_div_cancel_right₀ _ hp, Int.ceil_eq_iff]
    push_cast
    constructor <;> linarith
  have hmul : (∃ k : ℤ, (m - f) * 10 ^ e = k * 10 ^ e) ↔ f = 0 := by
    constructor
    · rintro ⟨k, hk⟩
      have hk' := mul_right_cancel₀ hp hk
      have hlt : ((m - k : ℤ) : ℚ) < 1 := by push_cast; linarith
      have hge : (0 : ℚ) ≤ (m - k : ℤ) := by push_cast; linarith
      have hz : (m - k : ℤ) = 0 := le_antisymm (Int.lt_add_one_iff.1 (by exact_mod_cast hlt)) (by exact_mod_cast hge)
      have hq : ((m - k : ℤ) : ℚ) = 0 := by exact_mod_cast hz
      push_cast at hq
      linarith
    · rintro rfl
      exact ⟨m, by simp⟩
  have hmul1 : (∃ k : ℤ, (m - f) * 10 ^ e = k * 10 ^ (e - 1)) ↔ ∃ k : ℤ, 10 * f = k := by
    constructor
    · rintro ⟨k, hk⟩
      rw [hten, ← mul_assoc] at hk
      refine ⟨10 * m - k, ?_⟩
      have := mul_right_cancel₀ hp1 hk
      push_cast
      linarith
    · rintro ⟨k, hk⟩
      refine ⟨10 * m - k, ?_⟩
      rw [hten]
      push_cast
      rw [← hk]
      ring
  rw [Spares, hceil, hmul, hmul1]
  norm_cast

/-- Rounding towards zero cuts off the digit that is too much. -/
private lemma normalize_truncates (hmin : 10 ^ 18 ≤ x.mantissa) (hmax : x.mantissa < 10 ^ 19)
    (hlow : kMinExponent ≤ x.exponent)
    (hhigh : x.exponent ≤ kMaxExponent) : Meets Failure.IsOverflow (normalize .large .towardsZero x)
      (· = { x with mantissa := if kMaxRep < x.mantissa then x.mantissa / 10 * 10 else x.mantissa }) := by
  have hm : (getMantissaRange .large).min = 10 ^ 18 := rfl
  have hm' : (getMantissaRange .large).max = 10 ^ 19 - 1 := rfl
  have hno : ∀ (g : Guard) (z : Number), g.doRoundUp .uint64 (getMantissaRange .large) .towardsZero "Number::normalize 2" z =
      finishRoundUp .uint64 (getMantissaRange .large) "Number::normalize 2" z := by
    intro g z
    rw [doRoundUp]
    exact if_neg (by simp [changes, Guard.round])
  rw [normalize_of_le (by omega) (by omega) hlow, fitRep]
  split_ifs with hr ht
  · exact ⟨_, rfl⟩
  · have hb : bringIntoRange .uint64 (getMantissaRange .large)
        { x with mantissa := x.mantissa / 10, exponent := x.exponent + 1 } = { x with mantissa := x.mantissa / 10 * 10 } := by
      rw [bringIntoRange_of_lt (by dsimp only; omega), if_neg (by dsimp only; omega), add_sub_cancel_right]
    rw [doDropDigit_eq (T := .uint64) (hmax.trans (by decide))]
    change Meets _ (doRoundUp _ _ _ _ _ _) _
    rw [hno, finishRoundUp_of_eq hb hhigh]
    exact rfl
  · have hb : bringIntoRange .uint64 (getMantissaRange .large) x = x := by
      rw [bringIntoRange_of_le (by omega), if_neg (by omega)]
    change Meets _ (doRoundUp _ _ _ _ _ _) _
    rw [hno, finishRoundUp_of_eq hb hhigh]
    exact rfl

lemma magnitude_nonneg (x : Number) : 0 ≤ x.magnitude := mul_nonneg (Nat.cast_nonneg _) (zpow_nonneg (by norm_num) _)

private lemma toRat_neg (x : Number) : x.neg.toRat = -x.toRat := by
  rw [neg]
  split
  case isTrue h0 => simp [toRat, kZero, magnitude, h0]
  case isFalse => cases hn : x.negative <;> simp [toRat, magnitude, hn]

private lemma abs_toRat (x : Number) : |x.toRat| = x.magnitude := by
  unfold toRat
  split <;> simp [abs_of_nonneg (magnitude_nonneg x)]

private lemma abs_signed {X : ℚ} (hX : 0 ≤ X) : |signed negative X| = X := by
  cases negative <;> simp [signed, abs_of_nonneg hX]

/-- A difference whose guard still holds something is too large by it, unless a digit is cut off. -/
private lemma truncated_le_iff {w : Number} {f : ℚ} (hf : 0 < f) (hf1 : f < 1) (hw : kMaxRep < 10 * w.mantissa)
    (hw' : w.mantissa < 10 ^ 19) (hlow : kMinExponent ≤ w.exponent - if w.mantissa < 10 ^ 18 then 1 else 0)
    (hhigh : w.exponent ≤ kMaxExponent)
    (h : normalize .large .towardsZero (bringIntoRange .uint128 (getMantissaRange .large) w) = .ok r) :
    |r.toRat| ≤ (w.mantissa - f) * 10 ^ w.exponent ↔ kMaxRep < w.mantissa ∧ w.mantissa % 10 ≠ 0 := by
  have hm : (getMantissaRange .large).min = 10 ^ 18 := rfl
  have hrep : kMaxRep = 9223372036854775807 := rfl
  have hp : (0 : ℚ) < 10 ^ w.exponent := zpow_pos (by norm_num) _
  have hr : |r.toRat| = (if kMaxRep < w.mantissa then w.mantissa / 10 * 10 else w.mantissa : ℕ) * 10 ^ w.exponent := by
    rw [abs_toRat]
    by_cases hs : w.mantissa < 10 ^ 18
    · rw [if_pos hs] at hlow
      rw [bringIntoRange_of_lt hs, if_neg (by omega)] at h
      have htr := (normalize_truncates (by dsimp only; omega) (by dsimp only; omega) hlow (by dsimp only; omega)).of_ok h
      dsimp only at htr
      rw [if_pos (by omega), Nat.mul_div_cancel _ (by norm_num)] at htr
      rw [htr, magnitude_mul_ten, if_neg (by omega), magnitude]
    · rw [if_neg hs, sub_zero] at hlow
      rw [bringIntoRange_of_le (by omega), if_neg (by omega)] at h
      rw [(normalize_truncates (by omega) hw' hlow hhigh).of_ok h]
      rfl
  rw [hr, mul_le_mul_iff_left₀ hp]
  constructor
  · intro hle
    by_contra hno
    have hle' : w.mantissa ≤ if kMaxRep < w.mantissa then w.mantissa / 10 * 10 else w.mantissa := by
      split_ifs <;> omega
    have : (w.mantissa : ℚ) ≤ (if kMaxRep < w.mantissa then w.mantissa / 10 * 10 else w.mantissa : ℕ) := by
      exact_mod_cast hle'
    linarith
  · rintro ⟨hgt, hne⟩
    rw [if_pos hgt]
    have hle : w.mantissa / 10 * 10 + 1 ≤ w.mantissa := by omega
    have : ((w.mantissa / 10 * 10 : ℕ) : ℚ) + 1 ≤ w.mantissa := by exact_mod_cast hle
    linarith

private lemma abs_toRat_le {X : ℚ} (hX : 0 ≤ X) (h : Sided false negative X r) : |r.toRat| ≤ X := by
  rw [abs_toRat]
  rcases h with rfl | ⟨-, hle⟩
  · simpa [magnitude, kZero] using hX
  · exact hle

section

variable {g : Guard} {s : Guard × Number} {f : ℚ}

private lemma doRoundDown_towardsZero (g : Guard) (x : Number) :
    g.doRoundDown .uint128 (getMantissaRange .large) .towardsZero x =
      bringIntoRange .uint128 (getMantissaRange .large) x := by
  rw [doRoundDown]
  exact if_neg (by simp [changes, Guard.round])

private lemma poppable_iff (hx : x.mantissa < 10 ^ 19) :
    Poppable (getMantissaRange .large) x ↔ 10 * x.mantissa ≤ kMaxRep := by
  have hmin : (getMantissaRange .large).min = 10 ^ 18 := rfl
  have hrep : kMaxRep = 9223372036854775807 := rfl
  have hwr : uint128.wrap (x.mantissa * 10) = x.mantissa * 10 :=
    Nat.mod_eq_of_lt (by change _ < 2 ^ 128; omega)
  rw [Poppable, hwr]
  omega

private lemma sub_eq_zero_iff_integral {q : ℚ} {d : ℕ} (h0 : 0 ≤ q - d) (h1 : q - d < 1) :
    q - d = 0 ↔ ∃ k : ℤ, q = k := by
  constructor
  · intro h
    exact ⟨d, by push_cast; linarith⟩
  · rintro ⟨k, rfl⟩
    have hle : (d : ℤ) ≤ k := by exact_mod_cast sub_nonneg.1 h0
    have hlt : k < d + 1 := by exact_mod_cast sub_lt_iff_lt_add'.1 h1
    obtain rfl : k = d := by omega
    simp

private lemma exact_le {w : Number} (hw : w.mantissa < 2 ^ 64)
    (h : normalize .large .towardsZero (bringIntoRange .uint128 (getMantissaRange .large) w) = .ok r) :
    |r.toRat| ≤ w.mantissa * 10 ^ w.exponent := by
  have hsd : Sided false w.negative w.magnitude (bringIntoRange .uint128 (getMantissaRange .large) w) :=
    (bringIntoRange_keeps w).sided (Bracket.refl _ _)
  have hm : RoundingMode.towardsZero ≠ .toNearest := by decide
  exact abs_toRat_le (magnitude_nonneg w) (Sided.normalize hm hsd (bringIntoRange_lt (by norm_num) hw) h)

/-- What a difference and its guard stand for is not exceeded by the sum exactly if the guard is left empty, or a digit
is cut off. -/
private lemma takeBack_towardsZero (hs : g.takeBack (getMantissaRange .large) 40 x = .ok s) (hg : g.Holds f)
    (hpos : 0 < x.mantissa) (hx : x.mantissa < 10 ^ 19) (hexact : g.xbit = true → ¬ Poppable (getMantissaRange .large) x)
    (hnear : (∃ k : ℤ, 10 * f = k) ∨ 9 * 10 ^ 17 ≤ x.mantissa) (hlow : 0 < f → kMinExponent < x.exponent)
    (hhigh : x.exponent ≤ kMaxExponent)
    (h : normalize .large .towardsZero (s.1.doRoundDown .uint128 (getMantissaRange .large) .towardsZero s.2).narrow =
      .ok r) :
    |r.toRat| ≤ (x.mantissa - f) * 10 ^ x.exponent ↔
      if 10 * x.mantissa ≤ kMaxRep then ∃ k : ℤ, 10 * f = k else f = 0 ∨ kMaxRep < x.mantissa ∧ x.mantissa % 10 ≠ 0 := by
  have hrep : kMaxRep = 9223372036854775807 := rfl
  have hf0 := hg.toSticky.nonneg
  obtain ⟨f', h1, h2, -, -, -, h6, h7⟩ := takeBack_value hs hg hpos (hx.trans (by norm_num)) hexact
  rw [narrow_of_lt (s.1.doRoundDown_lt h6 h7), doRoundDown_towardsZero] at h
  by_cases hpop : 10 * x.mantissa ≤ kMaxRep
  · have hp := (poppable_iff hx).2 hpop
    have hxb : g.xbit = false := by
      rw [← Bool.not_eq_true]
      exact fun hb => hexact hb hp
    have hd := pop_le hg.isPacked
    have hg1 := hg.pop hxb
    have hs1 := takeBack_of_poppable hs hp hpos hg.isPacked
    rw [if_pos hpop, ← sub_eq_zero_iff_integral hg1.toSticky.nonneg hg1.toSticky.lt_one]
    by_cases hint : 10 * f - g.pop.1 = 0
    · -- the digit that is taken back is the last one
      obtain ⟨-, -, -, -, hnz, -⟩ := takeBack_value hs1 hg1 (by dsimp only; omega) (by dsimp only; omega)
        (fun hb => by simp [hxb] at hb)
      have hno : ¬ s.1.Nonzero := fun hn => (hg1.toSticky.nonzero_iff.1 (hnz hn)).ne' hint
      have hf' : f' = 0 := le_antisymm (not_lt.1 (mt h1.nonzero_iff.2 hno)) h1.nonneg
      rw [h2, hf', sub_zero]
      exact iff_of_true (exact_le h7 h) hint
    · have hfar := hnear.resolve_left (mt (sub_eq_zero_iff_integral hg1.toSticky.nonneg hg1.toSticky.lt_one).2 hint)
      obtain rfl := takeBack_of_not_poppable hs1 (mt (poppable_iff (by dsimp only; omega)).1 (by dsimp only; omega))
      have hf1 : 0 < 10 * f - g.pop.1 := lt_of_le_of_ne hg1.toSticky.nonneg (Ne.symm hint)
      have hf' : 0 < f' := h1.nonzero_iff.1 (hg1.toSticky.nonzero_iff.2 hf1)
      have hlow' := hlow (by linarith [(Nat.cast_nonneg g.pop.1 : (0 : ℚ) ≤ g.pop.1)])
      rw [h2, truncated_le_iff hf' h1.lt_one (by dsimp only; omega) (by dsimp only; omega) ?_ (by dsimp only; omega) h]
      · exact iff_of_false (fun h => absurd h.1 (by dsimp only; omega)) hint
      · rw [if_neg (by dsimp only; omega)]
        dsimp only
        omega
  · obtain rfl := takeBack_of_not_poppable hs (mt (poppable_iff hx).1 hpop)
    rw [if_neg hpop]
    rcases hf0.eq_or_lt with rfl | hfp
    · rw [sub_zero]
      exact iff_of_true (exact_le h7 h) (.inl rfl)
    · rw [truncated_le_iff hfp hg.toSticky.lt_one (by omega) hx ?_ hhigh h]
      · simp [hfp.ne']
      · have := hlow hfp
        split_ifs <;> omega

end

private lemma sub_towardsZero (hx : x.InRange (getMantissaRange .large))
    (hy : y.InRange (getMantissaRange .large)) (hs : x.negative ≠ y.negative) (hne : x ≠ y.neg)
    (h : subMagnitudes .large .towardsZero (align x y).1 (align x y).2.1 (align x y).2.2 = .ok z)
    (hn : normalize .large .towardsZero z.narrow = .ok r) :
    |r.toRat| ≤ |x.toRat + y.toRat| ↔ Spares |x.toRat + y.toRat| (max x.exponent y.exponent) := by
  have hd := align_differs hx hy hs
  have hpos := difference_pos (align_mantissa_ne hx hy hs hne)
  have hle := max_le hx.le_maxExponent hy.le_maxExponent
  obtain ⟨f, hf, hvl, hnear, hlow⟩ := hd.value
  obtain ⟨s, hr, hz⟩ := of_bind_eq_ok h
  obtain rfl := ok.inj hz
  have hst := hf.toSticky
  have hX : 0 ≤ ((difference (align x y).2.1 (align x y).2.2).mantissa - f) *
      10 ^ (difference (align x y).2.1 (align x y).2.2).exponent := by
    have h1 : (1 : ℚ) ≤ (difference (align x y).2.1 (align x y).2.2).mantissa := by exact_mod_cast hpos
    exact mul_nonneg (by linarith [hst.lt_one]) (zpow_nonneg (by norm_num) _)
  rw [hvl, abs_signed hX, ← hd.exponent_eq, spares_iff hst.nonneg hst.lt_one]
  exact takeBack_towardsZero hr hf hpos hd.lt hd.exact hnear hlow (hd.exponent_eq.trans_le hle) hn

private lemma spares_of_multiple {X : ℚ} {e : ℤ} (k : ℤ) (h : X = k * 10 ^ e) : Spares X e := by
  rw [Spares]
  split_ifs
  · refine ⟨10 * k, ?_⟩
    rw [h, show e = e - 1 + 1 by omega, ten_zpow_add_one, sub_add_cancel]
    push_cast
    ring
  · exact .inl ⟨k, h⟩

private lemma InRange.spares (hx : x.InRange (getMantissaRange .large)) :
    Spares |x.toRat| (max x.exponent kZero.exponent) := by
  have he := hx.minExponent_le
  have hz : kZero.exponent ≤ kMinExponent := by decide
  rw [max_eq_left (hz.trans he), abs_toRat]
  exact spares_of_multiple x.mantissa rfl

/-- A sum rounded towards zero does not exceed the exact one in magnitude exactly if the signs agree or the guard is
spared. -/
theorem add_towardsZero_iff (hx : x.isnormal .large = true) (hy : y.isnormal .large = true)
    (h : add .large .towardsZero x y = .ok r) :
    |r.toRat| ≤ |x.toRat + y.toRat| ↔
      x.negative = y.negative ∨ Spares |x.toRat + y.toRat| (max x.exponent y.exponent) := by
  rw [isnormal_iff] at hx hy
  rcases add_cases hx hy h with ⟨rfl, rfl⟩ | ⟨rfl, rfl⟩ | ⟨rfl, rfl⟩ | ⟨hx', hy', hne, z, hn, ⟨hs, hz⟩ | ⟨hs, hz⟩⟩
  · rw [toRat_kZero, add_zero]
    exact iff_of_true le_rfl (hx.imp (by rintro rfl; rfl) InRange.spares)
  · rw [toRat_kZero, zero_add, max_comm]
    exact iff_of_true le_rfl (hy.imp (by rintro rfl; rfl) InRange.spares)
  · rw [toRat_kZero, abs_zero]
    refine iff_of_true (abs_nonneg _) (.inr (spares_of_multiple 0 ?_))
    rw [toRat_neg, neg_add_cancel, abs_zero, Int.cast_zero, zero_mul]
  · obtain ⟨sbit, inexact, hr, -⟩ := sum_spec (by decide) hx' hy' hs hz hn
    refine iff_of_true ?_ (.inl hs)
    have hX := add_nonneg (magnitude_nonneg x) (magnitude_nonneg y)
    rw [toRat_add_of_same hs, abs_signed hX]
    exact abs_toRat_le hX hr.sided
  · rw [sub_towardsZero hx' hy' hs hne hz hn]
    simp [hs]

theorem add_towardsZero_thirds :
    |toRat { mantissa := 6666666666666666666, exponent := -19 }| ≤
      |toRat { mantissa := 3333333333333333333, exponent := -19 } +
        toRat { mantissa := 3333333333333333333, exponent := -19 }| :=
  (add_towardsZero_iff (by decide) (by decide) (by decide +kernel)).2 (.inl rfl)

/-- The difference `10 ^ 18 - 1 / 10` is given as `10 ^ 18`: the digit that was shifted out is not taken off. -/
theorem add_towardsZero_exceeds :
    ∃ x y r : Number, x.isnormal .large = true ∧ y.isnormal .large = true ∧ add .large .towardsZero x y = .ok r ∧
      |x.toRat + y.toRat| < |r.toRat| := by
  refine ⟨{ mantissa := 10 ^ 18, exponent := 0 }, { negative := true, mantissa := 10 ^ 18, exponent := -19 },
    { mantissa := 10 ^ 18, exponent := 0 }, by decide, by decide, by decide +kernel, ?_⟩
  norm_num [toRat, magnitude]

lemma shrink_spec (lim : MantissaLimits) (g : Guard) (z : Number) (hz : z.mantissa < 2 ^ 128) :
    (shrink lim g z).2.mantissa ≤ kMaxRep ∧ ∃ n, shrink lim g z = g.dropDigits .uint128 n z := by
  rw [shrink]
  split
  case isTrue ha =>
    have hd := g.doDropDigit_lt .uint128 (x := z) (by omega)
    obtain ⟨hle, n, hn⟩ := shrink_spec lim _ _ (hd.trans hz)
    exact ⟨hle, n + 1, hn⟩
  case isFalse hin => exact ⟨by dsimp only; omega, 0, rfl⟩
termination_by z.mantissa
decreasing_by exact hd

private lemma mul_onSide (hm : mode.Directed) (hx : x.Normal (getMantissaRange .large))
    (hy : y.Normal (getMantissaRange .large)) (h : mul .large mode x y = .ok r) (hr : r ≠ kZero) :
    OnSide mode (x.toRat * y.toRat) r.toRat := by
  have hx1 := hx.mantissa_lt
  have hy1 := hy.mantissa_lt
  rw [mul] at h
  split at h
  case isTrue hx0 => exact absurd ((ok.inj h).symm.trans hx0) hr
  split at h
  case isTrue hy0 => exact absurd ((ok.inj h).symm.trans hy0) hr
  have hp : x.mantissa * y.mantissa < 2 ^ 128 := by
    calc x.mantissa * y.mantissa < 2 ^ 64 * 2 ^ 64 := Nat.mul_lt_mul'' hx1 hy1
      _ = 2 ^ 128 := by norm_num
  have hw : uint128.wrap (x.mantissa * y.mantissa) = x.mantissa * y.mantissa := Nat.mod_eq_of_lt hp
  have hvl : x.toRat * y.toRat = signed (x.negative != y.negative) (x.magnitude * y.magnitude) := by
    rw [toRat, toRat, signed]
    cases x.negative <;> cases y.negative <;> simp
  dsimp only at h
  rw [hw] at h
  have hstd : Stands { sbit := x.negative != y.negative }
      { negative := x.negative != y.negative, mantissa := x.mantissa * y.mantissa,
        exponent := x.exponent + y.exponent } (x.magnitude * y.magnitude) := by
    refine ⟨0, (holds_empty _).toSticky, ?_⟩
    rw [magnitude, magnitude, zpow_add₀ (by norm_num)]
    push_cast
    ring
  obtain ⟨hle, n, hn⟩ := shrink_spec (getMantissaRange .large) { sbit := x.negative != y.negative }
    { negative := x.negative != y.negative, mantissa := x.mantissa * y.mantissa, exponent := x.exponent + y.exponent }
    hp
  obtain ⟨hs1, hn1, -⟩ := dropDigits_signs (T := .uint128) (g := { sbit := x.negative != y.negative })
    (x := { negative := x.negative != y.negative, mantissa := x.mantissa * y.mantissa,
            exponent := x.exponent + y.exponent }) hp n
  have hstd' := hstd.dropDigits (T := .uint128) hp n
  rw [← hn] at hs1 hn1 hstd'
  generalize shrink _ _ _ = s at *
  have hlt : s.2.mantissa < 2 ^ 64 := hle.trans_lt (by decide)
  rw [narrow_of_lt hlt] at h
  obtain ⟨z, hz, hno⟩ := of_bind_eq_ok h
  have hsd := (doRoundUp_directed hm.ne_toNearest large_fix _ _ hlt hstd').of_ok hz
  rw [hs1, hn1] at hsd
  have hz1 := (doRoundUp_lt (B := 2 ^ 64) (by norm_num) _ _ hlt).of_ok hz
  rw [hvl]
  exact onSide_of_sided hm (Sided.normalize hm.ne_toNearest hsd.sided hz1 hno) hr

/-! ### Division -/

private lemma cast_div_add_mod {a d : ℕ} (hd : 0 < d) : (a : ℚ) / d = (a / d : ℕ) + (a % d : ℕ) / d := by
  have hs : (a : ℚ) = d * (a / d : ℕ) + (a % d : ℕ) := by exact_mod_cast (Nat.div_add_mod a d).symm
  conv_lhs => rw [hs]
  field_simp

private lemma magnitude_div (hy : 0 < y.mantissa) : x.magnitude / y.magnitude =
      ((x.mantissa * 10 ^ 17 : ℕ) : ℚ) / y.mantissa * 10 ^ (x.exponent - y.exponent - 17) := by
  rw [magnitude, magnitude, zpow_sub₀ (by norm_num), zpow_sub₀ (by norm_num)]
  push_cast
  field_simp

/-- What the quotient of two mantissas stands for: the fraction that is missing is zero unless the flag is set, and it
is small if zeros will have to be appended. -/
structure Quotient (X : ℚ) (q : ℕ × ℤ × Bool) (f : ℚ) : Prop where
  nonneg : 0 ≤ f
  lt_one : f < 1
  dropped : q.2.2 = true ↔ 0 < f
  short : q.1 < (getMantissaRange .large).min → f * ((getMantissaRange .large).min * 10 : ℕ) ≤ q.1
  value : X = (q.1 + f) * 10 ^ q.2.1

/-- The second and third stage of the division, for a quotient `q` with remainder `rem` by `d`. -/
def correctQuotient (q rem d : ℕ) (e : ℤ) : ℕ × ℤ × Bool :=
  if rem = 0 then (q, e, false)
  else if rem * 10 ^ 5 / d = 0 then (q, e, rem * 10 ^ 5 % d != 0)
  else (q * 10 ^ 5 + rem * 10 ^ 5 / d, e - 5, rem * 10 ^ 5 % d != 0)

private lemma divideMantissas_eq {numerator dm : ℕ} (e : ℤ) (hn : numerator < 10 ^ 36) (hmin : 10 ^ 18 ≤ dm)
    (hmax : dm < 10 ^ 19) :
    divideMantissas .large numerator dm e = correctQuotient (numerator / dm) (numerator % dm) dm e := by
  have hw : ∀ m, m < 2 ^ 128 → uint128.wrap m = m := fun m => Nat.mod_eq_of_lt
  have hr : numerator % dm < dm := Nat.mod_lt _ (by omega)
  have hle : numerator / dm ≤ numerator / 10 ^ 18 := Nat.div_le_div_left hmin (by positivity)
  rw [divideMantissas, correctQuotient]
  generalize numerator % dm = rem at hr ⊢
  generalize numerator / dm = q at hle ⊢
  have hp : uint128.wrap (rem * kPowerOfTen 5) = rem * 10 ^ 5 := hw (rem * 10 ^ 5) (by omega)
  have hs : uint128.wrap (q * kPowerOfTen 5) = q * 10 ^ 5 := hw (q * 10 ^ 5) (by omega)
  have hc : rem * 10 ^ 5 / dm ≤ rem * 10 ^ 5 := Nat.div_le_self _ _
  dsimp only
  rw [hp, hs, hw (q * 10 ^ 5 + rem * 10 ^ 5 / dm) (by omega)]
  have hsm : MantissaScale.large ≠ .small := by decide
  simp only [hsm, false_or, large_fix, Bool.true_and]

private lemma correctQuotient_spec {q rem d : ℕ} (e : ℤ) (hr : rem < d) (hq : 10 ^ 16 ≤ q) :
    ∃ f, Quotient ((q + (rem : ℚ) / d) * 10 ^ e) (correctQuotient q rem d e) f := by
  have hmin : (getMantissaRange .large).min = 10 ^ 18 := rfl
  have hd : 0 < d := by omega
  have hd' : (0 : ℚ) < d := by exact_mod_cast hd
  rw [correctQuotient]
  split
  case isTrue he => exact ⟨0, le_rfl, zero_lt_one, by simp, by simp, by simp [he]⟩
  case isFalse hpos =>
    have hr' : (rem : ℚ) < d := by exact_mod_cast hr
    split
    case isTrue hz =>
      -- the correction is zero: the remainder is below `10 ^ -5` of the last digit
      have hsm : rem * 10 ^ 5 < d := (Nat.div_eq_zero_iff_lt hd).1 hz
      have hsm' : (rem : ℚ) / d * 10 ^ 5 < 1 := by
        rw [div_mul_eq_mul_div, div_lt_one hd']
        exact_mod_cast hsm
      refine ⟨rem / d, by positivity, (div_lt_one hd').2 hr', ?_, fun _ => ?_, rfl⟩
      · refine iff_of_true ?_ (by positivity)
        rw [bne_iff_ne, Nat.mod_eq_of_lt hsm]
        omega
      · have hq' : (10 : ℚ) ^ 16 ≤ q := by exact_mod_cast hq
        rw [hmin]
        linarith
    case isFalse hc =>
      have hs := cast_div_add_mod (a := rem * 10 ^ 5) hd
      have hm : ((rem * 10 ^ 5 % d : ℕ) : ℚ) < d := by exact_mod_cast Nat.mod_lt _ hd
      refine ⟨(rem * 10 ^ 5 % d : ℕ) / d, by positivity, (div_lt_one hd').2 hm, ?_, fun hsho => ?_, ?_⟩
      · rw [bne_iff_ne, div_pos_iff_of_pos_right hd', Nat.cast_pos, Nat.pos_iff_ne_zero]
      · generalize rem * 10 ^ 5 / d = c at hsho
        omega
      have hexp : (10 : ℚ) ^ e = 10 ^ (e - 5) * 10 ^ 5 := by
        rw [← zpow_natCast, ← zpow_add₀ (by norm_num)]
        congr 1
        omega
      rw [hexp]
      push_cast at hs ⊢
      linear_combination (10 : ℚ) ^ (e - 5) * hs

private lemma quotient_spec (hx : x.InRange (getMantissaRange .large)) (hy : y.InRange (getMantissaRange .large)) :
    ∃ f, Quotient (x.magnitude / y.magnitude) (quotient .large x y) f := by
  have hmin : (getMantissaRange .large).min = 10 ^ 18 := rfl
  have hmax : (getMantissaRange .large).max = 10 ^ 19 - 1 := rfl
  have hx1 := hx.min_le
  have hx2 := hx.le_max
  have hy1 := hy.min_le
  have hy2 := hy.le_max
  have hl : 10 ^ 16 ≤ x.mantissa * 10 ^ 17 / y.mantissa := by
    rw [Nat.le_div_iff_mul_le hy.pos]
    omega
  have hn : uint128.wrap (x.mantissa * kPowerOfTen 17) = x.mantissa * 10 ^ 17 := by
    refine Nat.mod_eq_of_lt ?_
    change x.mantissa * 10 ^ 17 < 2 ^ 128
    omega
  rw [magnitude_div hy.pos, cast_div_add_mod hy.pos, quotient, hn,
    divideMantissas_eq _ (by omega) (by omega) (by omega)]
  exact correctQuotient_spec _ (Nat.mod_lt _ hy.pos) hl

private lemma div_onSide (hm : mode.Directed) (hx : x.Normal (getMantissaRange .large))
    (hy : y.Normal (getMantissaRange .large)) (h : div .large mode x y = .ok r) (hr : r ≠ kZero) :
    OnSide mode (x.toRat / y.toRat) r.toRat := by
  rw [div] at h
  split at h
  case isTrue => cases h
  case isFalse hy0 =>
  split at h
  case isTrue hx0 => exact absurd ((ok.inj h).symm.trans hx0) hr
  case isFalse hx0 =>
  obtain ⟨f, hq⟩ := quotient_spec (hx.inRange hx0) (hy.inRange hy0)
  have hvl : x.toRat / y.toRat = signed (x.negative != y.negative) (x.magnitude / y.magnitude) := by
    rw [toRat, toRat, signed]
    cases x.negative <;> cases y.negative <;> simp [neg_div, div_neg]
  have hlt := quotient_lt .large x y
  generalize quotient .large x y = q at h hq hlt
  obtain ⟨zm, ze, dropped⟩ := q
  obtain ⟨z, hz, hn⟩ := of_bind_eq_ok h
  have hnrm := (doNormalize_normal .uint128 _ mode _ hlt).of_ok hz
  have hsd := (doNormalize_directed hm.ne_toNearest large_fix hlt hq.nonneg hq.lt_one hq.dropped hq.short).of_ok hz
  have hrz : r = z := by
    rw [narrow_of_lt hnrm.mantissa_lt] at hn
    exact (ok.inj hn).symm
  rw [hrz] at hr ⊢
  rw [hvl, hq.value]
  exact onSide_of_sided hm hsd hr

end Number

inductive Operation
  | add
  | sub
  | mul
  | div
deriving DecidableEq, Repr

namespace Operation

open Number

def run (op : Operation) (scale : MantissaScale) (mode : RoundingMode) (x y : Number) : Except Failure Number :=
  match op with
  | .add => Number.add scale mode x y
  | .sub => Number.sub scale mode x y
  | .mul => Number.mul scale mode x y
  | .div => Number.div scale mode x y

def exact (op : Operation) (x y : ℚ) : ℚ :=
  match op with
  | .add => x + y
  | .sub => x - y
  | .mul => x * y
  | .div => x / y

/-- The sums and differences that lose the sign of their guard digit. -/
def LosesSign (op : Operation) (x y : Number) : Prop :=
  match op with
  | .add => Number.LosesSign x y
  | .sub => Number.LosesSign x y.neg
  | .mul | .div => False

instance (op : Operation) (x y : Number) : Decidable (op.LosesSign x y) :=
  match op with
  | .add => inferInstanceAs (Decidable (Number.LosesSign x y))
  | .sub => inferInstanceAs (Decidable (Number.LosesSign x y.neg))
  | .mul | .div => inferInstanceAs (Decidable False)

/-- In the scale `large` and a directed rounding mode, a result that is not zero is on the right side of the exact value
if and only if the operation does not lose the sign. -/
theorem run_onSide_iff {mode : RoundingMode} (hmode : mode.Directed) {op : Operation} {x y r : Number}
    (hx : x.isnormal .large = true) (hy : y.isnormal .large = true) (h : op.run .large mode x y = .ok r)
    (hr : r ≠ kZero) : OnSide mode (op.exact x.toRat y.toRat) r.toRat ↔ ¬ op.LosesSign x y := by
  rw [isnormal_iff] at hx hy
  cases op with
  | add => exact add_onSide_iff hmode hx hy h hr
  | sub =>
    have hs := add_onSide_iff hmode hx hy.neg h hr
    rw [toRat_neg, ← sub_eq_add_neg] at hs
    exact hs
  | mul => exact iff_of_true (mul_onSide hmode hx hy h hr) not_false
  | div => exact iff_of_true (div_onSide hmode hx hy h hr) not_false

theorem run_onSide_third : OnSide .upward (div.exact (toRat { mantissa := 10 ^ 18, exponent := -18 })
        (toRat { mantissa := 3 * 10 ^ 18, exponent := -18 }))
      (toRat { mantissa := 3333333333333333334, exponent := -19 }) := by
  have hr : div.run .large .upward { mantissa := 10 ^ 18, exponent := -18 }
      { mantissa := 3 * 10 ^ 18, exponent := -18 } =
      .ok { mantissa := 3333333333333333334, exponent := -19 } := by decide +kernel
  exact (run_onSide_iff (by decide) (by decide) (by decide) hr (by decide)).2 (by decide)

/-- The sum of `-9223372036854775807` and `-9223372036854775806` is rounded to `-18446744073709551610` in the mode
`downward`, although this is greater than the exact sum. -/
theorem run_loses_sign : ∃ x y r : Number, x.isnormal .large = true ∧ y.isnormal .large = true ∧
      add.run .large .downward x y = .ok r ∧ r ≠ kZero ∧
      ¬ OnSide .downward (add.exact x.toRat y.toRat) r.toRat := by
  refine ⟨{ negative := true, mantissa := 9223372036854775807, exponent := 0 },
    { negative := true, mantissa := 9223372036854775806, exponent := 0 },
    { negative := true, mantissa := 1844674407370955161, exponent := 1 },
    by decide, by decide, by decide +kernel, by decide, ?_⟩
  norm_num [OnSide, exact, toRat, magnitude]

end Operation

end Xrpl.Basics

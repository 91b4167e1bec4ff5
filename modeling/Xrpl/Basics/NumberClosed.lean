import Xrpl.Basics.NumberSum
import Xrpl.Lib.Decimal

/-!
# Operations on normal numbers

Every operation ends with a normalization, so it throws or gives a normal number; for `operator+=` this needs that the
loop over the guard digits ends.  On normal numbers the comparison of the fields is the comparison of the represented
values, because a normal mantissa determines the exponent.
-/

namespace Xrpl.Basics

namespace Number

variable {scale : MantissaScale} {mode : RoundingMode} {x y : Number} {lim : MantissaLimits}

section

variable (hx : x.Normal (getMantissaRange scale))

include hx

section

variable (hy : y.Normal (getMantissaRange scale))

include hy

private lemma add_normal : Meets Failure.IsOverflow (add scale mode x y) (Normal (getMantissaRange scale)) := by
  rw [add]
  split
  case isTrue => exact hx
  case isFalse hy0 =>
  split
  case isTrue => exact hy
  case isFalse hx0 =>
  split
  case isTrue => exact .inl rfl
  case isFalse hne =>
  have hx' := hx.inRange hx0
  have hy' := hy.inRange hy0
  obtain ⟨hxn, hyn⟩ := align_negative hx'.lt_wide hy'.lt_wide
  have hsum : Meets Failure.IsOverflow
      (addAligned scale mode (align x y).1 (align x y).2.1 (align x y).2.2) (fun _ => True) := by
    rw [addAligned]
    split
    case isTrue =>
      rw [addMagnitudes]
      generalize fitSum _ _ _ = s
      exact (s.1.doRoundUp_lt (B := s.2.mantissa + 10 ^ 19 + 1) (by omega) s.2 (by omega)).mono fun _ _ => trivial
    case isFalse hs =>
      rw [hxn, hyn] at hs
      exact subMagnitudes_throws scale mode (align_isPacked hx'.lt_wide hy'.lt_wide) (align_mantissa_ne hx' hy' hs hne)
  exact hsum.bind fun z _ => normalize_normal z.narrow_lt

lemma mul_normal : Meets Failure.IsOverflow (mul scale mode x y) (Normal (getMantissaRange scale)) := by
  rw [mul]
  split
  case isTrue => exact hx
  split
  case isTrue => exact hy
  dsimp only
  generalize shrink _ _ _ = s
  refine (s.1.doRoundUp_lt (B := 2 ^ 64) (by norm_num) s.2.narrow s.2.narrow_lt).bind fun z hz => ?_
  exact normalize_normal hz

end

private lemma div_normal : Meets Failure.IsOverflow (div scale mode x y) (Normal (getMantissaRange scale)) := by
  rw [div]
  split
  case isTrue => exact ⟨_, rfl⟩
  split
  case isTrue => exact hx
  refine (doNormalize_normal .uint128 _ mode _ (quotient_lt scale x y)).bind fun z hz => ?_
  rw [narrow_of_lt hz.mantissa_lt]
  exact hz

end

private lemma dropFraction_mantissa_le (x : Number) : x.dropFraction.mantissa ≤ x.mantissa := by
  rw [dropFraction]
  split
  case isTrue =>
    refine (dropFraction_mantissa_le _).trans ?_
    exact Nat.div_le_self _ _
  case isFalse => exact le_rfl
termination_by x.mantissa
decreasing_by omega

private lemma power_normal {f : Number} (hf : f.Normal (getMantissaRange scale)) (n : ℕ) :
    Meets Failure.IsOverflow (power scale mode f n) (Normal (getMantissaRange scale)) := by
  rw [power]
  split
  case isTrue => exact isnormal_iff.1 (by cases scale <;> decide)
  split
  case isTrue => exact hf
  refine (power_normal hf (n / 2)).bind fun r hr => ?_
  refine (mul_normal hr hr).bind fun r' hr' => ?_
  split
  · exact mul_normal hr' hf
  · exact hr'
termination_by n
decreasing_by omega

private lemma externalToInternal_lt (mantissa : Int64) : externalToInternal mantissa < 2 ^ 64 := by
  have hpos := mantissa.toInt_lt
  have hn := (-mantissa).toInt_lt
  rw [externalToInternal]
  split
  · omega
  · split
    · omega
    · exact Nat.mod_lt _ (by decide)

lemma ofRep_normal (mantissa : Int64) (exponent : Int32) :
    Meets Failure.IsOverflow (ofRep scale mode mantissa exponent) (Normal (getMantissaRange scale)) :=
  normalize_normal (externalToInternal_lt mantissa)

section

variable (hx : x.InRange lim)

include hx

private lemma InRange.magnitude_pos : 0 < x.magnitude := by
  have := hx.pos
  rw [magnitude]
  positivity

private lemma magnitude_lt_iff (hy : y.InRange lim) :
    x.magnitude < y.magnitude ↔ x.exponent < y.exponent ∨ x.exponent = y.exponent ∧ x.mantissa < y.mantissa := by
  have hmax := lim.max_add_one
  have hx' := hx.le_max
  have hy' := hy.le_max
  exact mul_zpow_lt_mul_zpow_iff ⟨hx.min_le, by omega⟩ ⟨hy.min_le, by omega⟩

private lemma InRange.toRat_pos_iff : 0 < x.toRat ↔ x.negative = false := by
  have hpos := hx.magnitude_pos
  cases hn : x.negative <;> simp [toRat, hn, hpos, hpos.le]

private lemma InRange.toRat_neg_iff : x.toRat < 0 ↔ x.negative = true := by
  have hpos := hx.magnitude_pos
  cases hn : x.negative <;> simp [toRat, hn, hpos, hpos.le]

end

/-- On normal numbers `operator<` is the order of the represented values. -/
private lemma lt_iff (hx : x.Normal lim) (hy : y.Normal lim) : x.lt y = true ↔ x.toRat < y.toRat := by
  rcases hx with rfl | hx <;> rcases hy with rfl | hy
  · simp [lt]
  · rw [toRat_kZero, hy.toRat_pos_iff]
    have := hy.pos
    cases hn : y.negative <;> simp [lt, kZero, hn, this]
  · rw [toRat_kZero, hx.toRat_neg_iff]
    cases hn : x.negative <;> simp [lt, kZero, hn]
  have hxm := hx.pos
  have hym := hy.pos
  have hxp := hx.magnitude_pos
  have hyp := hy.magnitude_pos
  have hxy := magnitude_lt_iff hx hy
  have hyx := magnitude_lt_iff hy hx
  cases hxn : x.negative <;> cases hyn : y.negative
  · rw [lt, if_neg (by simp [hxn, hyn]), if_neg hxm.ne', if_neg hym.ne', toRat, toRat, hxn, hyn]
    rcases lt_trichotomy x.exponent y.exponent with he | he | he
    · simp [hxy, he, he.not_gt]
    · simp [hxy, he]
    · simp [hxy, he, he.not_gt, he.ne']
  · have : ¬ x.magnitude < -y.magnitude := by linarith
    simp [lt, toRat, hxn, hyn, this]
  · have : -x.magnitude < y.magnitude := by linarith
    simp [lt, toRat, hxn, hyn, this]
  rw [lt, if_neg (by simp [hxn, hyn]), if_neg hxm.ne', if_neg hym.ne', toRat, toRat, hxn, hyn]
  rcases lt_trichotomy x.exponent y.exponent with he | he | he
  · simp [hyx, he, he.ne']
  · simp [hyx, he]
  · simp [hyx, he]

private lemma eq_iff (hx : x.Normal lim) (hy : y.Normal lim) : x = y ↔ x.toRat = y.toRat := by
  refine ⟨fun h => h ▸ rfl, fun h => ?_⟩
  rcases hx with rfl | hx <;> rcases hy with rfl | hy
  · rfl
  · rw [toRat_kZero] at h
    have hneg := hy.toRat_neg_iff
    have hpos := hy.toRat_pos_iff
    cases hn : y.negative <;> simp [hn, ← h] at hneg hpos
  · rw [toRat_kZero] at h
    have hneg := hx.toRat_neg_iff
    have hpos := hx.toRat_pos_iff
    cases hn : x.negative <;> simp [hn, h] at hneg hpos
  · have hs : x.negative = y.negative := by
      have hx' := hx.toRat_neg_iff
      have hy' := hy.toRat_neg_iff
      rw [h] at hx'
      rw [Bool.eq_iff_iff, ← hx', ← hy']
    have hm : x.magnitude = y.magnitude := by
      rw [toRat, toRat, hs] at h
      split at h
      · exact neg_injective h
      · exact h
    have hxy := magnitude_lt_iff hx hy
    have hyx := magnitude_lt_iff hy hx
    simp only [hm, lt_irrefl, false_iff] at hxy hyx
    have he : x.exponent = y.exponent := by omega
    have hma : x.mantissa = y.mantissa := by omega
    cases x
    cases y
    simp only at hs he hma
    rw [hs, he, hma]

/-- An operation throws `std::overflow_error`, or its result is normal. -/
def KeepsNormal (scale : MantissaScale) (c : Except Failure Number) : Prop :=
  Meets Failure.IsOverflow c fun r => r.isnormal scale = true

private lemma keepsNormal_iff {c : Except Failure Number} :
    KeepsNormal scale c ↔ Meets Failure.IsOverflow c (Normal (getMantissaRange scale)) := by
  simp only [KeepsNormal, isnormal_iff]

/-- The arithmetic of a scale and a rounding mode does not leave the normal numbers, and there the comparison operators
are those of the represented values. -/
structure Invariant (scale : MantissaScale) (mode : RoundingMode) : Prop where
  add : ∀ x y : Number, x.isnormal scale → y.isnormal scale → KeepsNormal scale (add scale mode x y)
  sub : ∀ x y : Number, x.isnormal scale → y.isnormal scale → KeepsNormal scale (sub scale mode x y)
  mul : ∀ x y : Number, x.isnormal scale → y.isnormal scale → KeepsNormal scale (mul scale mode x y)
  div : ∀ x y : Number, x.isnormal scale → y.isnormal scale → KeepsNormal scale (div scale mode x y)
  neg : ∀ x : Number, x.isnormal scale → x.neg.isnormal scale
  truncate : ∀ x : Number, x.isnormal scale → KeepsNormal scale (truncate scale mode x)
  power : ∀ (f : Number) (n : ℕ), f.isnormal scale → KeepsNormal scale (power scale mode f n)
  ofRep : ∀ (mantissa : Int64) (exponent : Int32), KeepsNormal scale (ofRep scale mode mantissa exponent)
  eq : ∀ x y : Number, x.isnormal scale → y.isnormal scale → ((x == y) = true ↔ x.toRat = y.toRat)
  lt : ∀ x y : Number, x.isnormal scale → y.isnormal scale → (x.lt y = true ↔ x.toRat < y.toRat)

/-- Normalization is an invariant in every scale and rounding mode. -/
theorem arithmetic_invariant (scale : MantissaScale) (mode : RoundingMode) : Invariant scale mode where
  add x y hx hy := keepsNormal_iff.2 (add_normal (isnormal_iff.1 hx) (isnormal_iff.1 hy))
  sub x y hx hy := keepsNormal_iff.2 (add_normal (isnormal_iff.1 hx) (isnormal_iff.1 hy).neg)
  mul x y hx hy := keepsNormal_iff.2 (mul_normal (isnormal_iff.1 hx) (isnormal_iff.1 hy))
  div x y hx _ := keepsNormal_iff.2 (div_normal (isnormal_iff.1 hx))
  neg x hx := isnormal_iff.2 (isnormal_iff.1 hx).neg
  truncate x hx := by
    rw [isnormal_iff] at hx
    rw [keepsNormal_iff, truncate]
    split
    case isTrue => exact hx
    case isFalse => exact normalize_normal (x.dropFraction_mantissa_le.trans_lt hx.mantissa_lt)
  power f n hf := keepsNormal_iff.2 (power_normal (isnormal_iff.1 hf) n)
  ofRep mantissa exponent := keepsNormal_iff.2 (ofRep_normal mantissa exponent)
  eq x y hx hy := by
    rw [beq_iff_eq]
    exact eq_iff (isnormal_iff.1 hx) (isnormal_iff.1 hy)
  lt x y hx hy := lt_iff (isnormal_iff.1 hx) (isnormal_iff.1 hy)

end Number

end Xrpl.Basics

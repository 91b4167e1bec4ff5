import Xrpl.Basics.Guard
import Xrpl.Lib.Yields

/-!
# Normalization of `Number`

`doNormalize` either throws or gives a normal number, whatever it starts from (`doNormalize_normal`), because each of its
loops leaves the mantissa in a known range: `scaleUp` stops below ten times the least mantissa, `scaleDown` and `fitRep`
only drop digits, and rounding needs a mantissa that is short of at most one digit (`Roundable`).
-/

namespace Xrpl.Basics

open MantissaType

def Failure.IsOverflow (e : Failure) : Prop := ∃ what, e = .overflowError what

namespace MantissaLimits

variable (lim : MantissaLimits)

lemma ten_le_min : 10 ≤ lim.min := Nat.le_self_pow lim.log_pos.ne' 10

lemma min_le : lim.min ≤ 10 ^ 18 := Nat.pow_le_pow_right (by norm_num) lim.log_le

lemma max_add_one : lim.max + 1 = lim.min * 10 := by
  have hmin := lim.ten_le_min
  rw [max]
  omega

end MantissaLimits

/-- The mantissa and the exponent of a normal number other than zero. -/
structure Number.InRange (lim : MantissaLimits) (x : Number) : Prop where
  min_le : lim.min ≤ x.mantissa
  le_max : x.mantissa ≤ lim.max
  rep : x.mantissa ≤ kMaxRep ∨ x.mantissa % 10 = 0
  minExponent_le : kMinExponent ≤ x.exponent
  le_maxExponent : x.exponent ≤ kMaxExponent

def Number.Normal (lim : MantissaLimits) (x : Number) : Prop := x = kZero ∨ x.InRange lim

variable {x : Number}

lemma Number.isnormal_iff {scale : MantissaScale} : x.isnormal scale = true ↔ x.Normal (getMantissaRange scale) := by
  simp only [isnormal, Bool.or_eq_true, beq_iff_eq, Bool.and_eq_true, decide_eq_true_eq]
  constructor
  · rintro (h | ⟨⟨⟨⟨h1, h2⟩, h3⟩, h4⟩, h5⟩)
    · exact .inl h
    · exact .inr ⟨h1, h2, h3, h4, h5⟩
  · rintro (h | h)
    · exact .inl h
    · exact .inr ⟨⟨⟨⟨h.min_le, h.le_max⟩, h.rep⟩, h.minExponent_le⟩, h.le_maxExponent⟩

lemma Number.Normal.mantissa_lt {lim : MantissaLimits} (h : x.Normal lim) : x.mantissa < 2 ^ 64 := by
  have hmin := lim.min_le
  have hmax := lim.max_add_one
  rcases h with rfl | h
  · decide
  · have := h.le_max
    omega

/-- A mantissa that rounding brings into the range: at most one digit is missing. -/
structure Roundable (lim : MantissaLimits) (m : ℕ) : Prop where
  min_le : lim.min ≤ m * 10
  le_max : m ≤ lim.max
  le_rep : m ≤ kMaxRep

section Rounding

variable {T : MantissaType} {lim : MantissaLimits} {mode : RoundingMode} {location : String}

lemma bringIntoRange_of_le (hx : lim.min ≤ x.mantissa) :
    bringIntoRange T lim x = if x.exponent < kMinExponent then Number.kZero else x := by
  have hin : ¬ x.mantissa < lim.min := by omega
  simp only [bringIntoRange, if_neg hin]

lemma bringIntoRange_of_lt (hx : x.mantissa < lim.min) : bringIntoRange T lim x =
      if x.exponent - 1 < kMinExponent then Number.kZero
      else { x with mantissa := x.mantissa * 10, exponent := x.exponent - 1 } := by
  have hmin := lim.min_le
  have hw : T.wrap (x.mantissa * 10) = x.mantissa * 10 := wrap_of_lt (by omega)
  simp only [bringIntoRange, if_pos hx, hw]

lemma bringIntoRange_lt {B : ℕ} (hB : 10 ^ 19 ≤ B) (hx : x.mantissa < B) : (bringIntoRange T lim x).mantissa < B := by
  have hmin := lim.min_le
  by_cases hs : x.mantissa < lim.min
  · rw [bringIntoRange_of_lt hs]
    split
    · exact lt_of_lt_of_le (by decide) hB
    · dsimp only
      omega
  · rw [bringIntoRange_of_le (by omega)]
    split
    · exact lt_of_lt_of_le (by decide) hB
    · exact hx

private lemma finishRoundUp_normal (hx : Roundable lim x.mantissa) :
    Meets Failure.IsOverflow (finishRoundUp T lim location x) (Number.Normal lim) := by
  have hmin := hx.min_le
  have hmax := lim.max_add_one
  rw [finishRoundUp]
  by_cases hs : x.mantissa < lim.min
  · rw [bringIntoRange_of_lt hs]
    split
    · exact .inl rfl
    rename_i he
    split
    · exact ⟨location, rfl⟩
    · rename_i ho
      refine .inr ⟨hmin, ?_, .inr ?_, ?_, ?_⟩ <;> dsimp only at ho ⊢ <;> omega
  · rw [bringIntoRange_of_le (by omega)]
    split
    · exact .inl rfl
    · split
      · exact ⟨location, rfl⟩
      · exact .inr ⟨by omega, hx.le_max, .inl hx.le_rep, by omega, by omega⟩

private lemma Roundable.div_ten {m : ℕ} (hm : Roundable lim m) (hc : ¬ (m < lim.max ∧ m < kMaxRep)) :
    Roundable lim (m / 10) := by
  have hmin := lim.min_le
  have hmin' := lim.ten_le_min
  have hmax := lim.max_add_one
  have hr : kMaxRep = 9223372036854775807 := rfl
  obtain ⟨h1, h2, h3⟩ := hm
  refine ⟨?_, ?_, ?_⟩ <;> omega

namespace Guard

lemma doRoundUp_normal (g : Guard) (x : Number) (hx : Roundable lim x.mantissa) :
    Meets Failure.IsOverflow (g.doRoundUp T lim mode location x) (Number.Normal lim) := by
  have hmin := lim.min_le
  have hmax := lim.max_add_one
  have hr : kMaxRep = 9223372036854775807 := rfl
  have hle := hx.le_rep
  have hw : T.wrap (x.mantissa + 1) = x.mantissa + 1 := wrap_of_lt (by omega)
  have hlt : x.mantissa < 2 ^ T.bits := lt_of_lt_of_le (by omega) T.le_bits
  obtain ⟨h1, h2, h3⟩ := id hx
  rw [doRoundUp]
  split
  case isFalse => exact finishRoundUp_normal hx
  split
  case isTrue =>
    split
    case isTrue hs =>
      exact finishRoundUp_normal ⟨by dsimp only; omega, by dsimp only; omega, by dsimp only; omega⟩
    case isFalse hc =>
      rw [doDropDigit_eq hlt]
      exact doRoundUp_normal _ _ (hx.div_ten hc)
  case isFalse =>
    -- the legacy behaviour: increment first, then divide
    dsimp only
    split
    case isTrue ho =>
      refine finishRoundUp_normal ⟨?_, ?_, ?_⟩ <;> dsimp only <;> omega
    case isFalse hin =>
      refine finishRoundUp_normal ⟨?_, ?_, ?_⟩ <;> dsimp only <;> omega
termination_by x.mantissa
decreasing_by omega

lemma doRoundUp_lt {B : ℕ} (hB : 10 ^ 19 ≤ B) (g : Guard) (x : Number) (hx : x.mantissa < B) :
    Meets Failure.IsOverflow (g.doRoundUp T lim mode location x) (fun r => r.mantissa < B) := by
  have hr : kMaxRep = 9223372036854775807 := rfl
  have hf : ∀ y : Number, y.mantissa < B →
      Meets Failure.IsOverflow (finishRoundUp T lim location y) (fun r => r.mantissa < B) := by
    intro y hy
    rw [finishRoundUp]
    split
    · exact ⟨location, rfl⟩
    · exact bringIntoRange_lt hB hy
  have hw : T.wrap (x.mantissa + 1) ≤ x.mantissa + 1 := Nat.mod_le _ _
  rw [doRoundUp]
  split
  case isFalse => exact hf x hx
  split
  case isTrue =>
    split
    case isTrue hs => exact hf _ (by dsimp only; omega)
    case isFalse hc =>
      have hd := doDropDigit_lt T g (x := x) (MantissaLimits.pos_of_cusp hc)
      exact doRoundUp_lt hB _ _ (hd.trans hx)
  case isFalse =>
    dsimp only
    split
    case isTrue ho => exact hf _ (by dsimp only; omega)
    case isFalse hin => exact hf _ (by dsimp only; omega)
termination_by x.mantissa
decreasing_by exact hd

end Guard

end Rounding

section Loops

variable {T : MantissaType} {lim : MantissaLimits}

lemma scaleUp_eq (T : MantissaType) (lim : MantissaLimits) (x : Number) :
    ∃ k : ℕ, scaleUp T lim x = { x with mantissa := x.mantissa * 10 ^ k, exponent := x.exponent - k } ∧
      (k = 0 ∨ x.mantissa * 10 ^ k < lim.min * 10) := by
  have hmin := lim.min_le
  rw [scaleUp]
  split
  case isTrue hc =>
    have hw : T.wrap (x.mantissa * 10) = x.mantissa * 10 := wrap_of_lt (by omega)
    rw [hw]
    obtain ⟨k, hk, hlt⟩ := scaleUp_eq T lim { x with mantissa := x.mantissa * 10, exponent := x.exponent - 1 }
    have hm : x.mantissa * 10 ^ (k + 1) = x.mantissa * 10 * 10 ^ k := by rw [pow_succ']; ring
    refine ⟨k + 1, ?_, .inr ?_⟩
    · rw [hk, hm]
      congr 1
      push_cast
      ring
    · rw [hm]
      rcases hlt with rfl | hlt
      · omega
      · exact hlt
  case isFalse => exact ⟨0, by simp, .inl rfl⟩
termination_by (x.exponent - kMinExponent).toNat
decreasing_by omega

lemma scaleUp_lt (hx : x.mantissa < 2 ^ T.bits) : (scaleUp T lim x).mantissa < 2 ^ T.bits := by
  have hmin := lim.min_le
  have hb := T.le_bits
  obtain ⟨k, hk, hlt⟩ := scaleUp_eq T lim x
  rw [hk]
  rcases hlt with rfl | hlt
  · simpa using hx
  · refine lt_of_lt_of_le ?_ hb
    dsimp only
    omega

lemma scaleDown_spec (g : Guard) (x : Number) (hx : x.mantissa < 2 ^ T.bits) :
    Meets Failure.IsOverflow (scaleDown T lim g x) (fun s => s.2.mantissa ≤ lim.max ∧ ∃ n, s = g.dropDigits T n x) := by
  rw [scaleDown]
  split
  case isTrue ha =>
    split
    · exact ⟨_, rfl⟩
    have hd := g.doDropDigit_lt T (x := x) (by omega)
    refine (scaleDown_spec _ _ (hd.trans hx)).mono fun s hs => ?_
    obtain ⟨hle, n, hn⟩ := hs
    exact ⟨hle, n + 1, hn⟩
  case isFalse hin => exact ⟨Nat.le_of_not_lt hin, 0, rfl⟩
termination_by x.mantissa
decreasing_by exact hd

lemma fitRep_spec (g : Guard) (hmin : lim.min ≤ x.mantissa) (hmax : x.mantissa ≤ lim.max) :
    Meets Failure.IsOverflow (fitRep T g x) (fun s => Roundable lim s.2.mantissa ∧ ∃ n, s = g.dropDigits T n x) := by
  have h18 := lim.min_le
  have hl := lim.max_add_one
  have hr : kMaxRep = 9223372036854775807 := rfl
  rw [fitRep]
  split
  case isTrue ha =>
    split
    · exact ⟨_, rfl⟩
    · refine ⟨?_, 1, rfl⟩
      rw [Guard.doDropDigit_eq (lt_of_lt_of_le (by omega) T.le_bits)]
      refine ⟨?_, ?_, ?_⟩ <;> dsimp only <;> omega
  case isFalse => exact ⟨⟨by dsimp only; omega, hmax, by dsimp only; omega⟩, 0, rfl⟩

end Loops

/-- Whatever it starts from, `doNormalize` throws or gives a normal number. -/
lemma doNormalize_normal (T : MantissaType) (lim : MantissaLimits) (mode : RoundingMode) (dropped : Bool)
    (hx : x.mantissa < 2 ^ T.bits) :
    Meets Failure.IsOverflow (doNormalize T lim mode dropped x) (Number.Normal lim) := by
  rw [doNormalize]
  split
  · exact .inl rfl
  refine (scaleDown_spec _ _ (scaleUp_lt hx)).bind fun s hs => ?_
  obtain ⟨g, z⟩ := s
  dsimp only at hs ⊢
  split
  · exact .inl rfl
  · refine (fitRep_spec g (by omega) hs.1).bind fun s' hs' => ?_
    exact s'.1.doRoundUp_normal s'.2 hs'.1

namespace Number

variable {scale : MantissaScale} {mode : RoundingMode}

lemma normalize_normal (hx : x.mantissa < 2 ^ 64) :
    Meets Failure.IsOverflow (normalize scale mode x) (Normal (getMantissaRange scale)) :=
  doNormalize_normal .uint64 _ mode false hx

lemma narrow_lt (x : Number) : x.narrow.mantissa < 2 ^ 64 := Nat.mod_lt _ (by decide)

lemma narrow_of_lt (hx : x.mantissa < 2 ^ 64) : x.narrow = x := by
  rw [narrow, wrap_of_lt hx]

lemma quotient_lt (scale : MantissaScale) (x y : Number) : (quotient scale x y).1 < 2 ^ 128 := by
  have hw : ∀ m, uint128.wrap m < 2 ^ 128 := fun m => Nat.mod_lt _ (by decide)
  have hd : ∀ m, uint128.wrap m / y.mantissa < 2 ^ 128 := fun m => lt_of_le_of_lt (Nat.div_le_self _ _) (hw m)
  rw [quotient, divideMantissas]
  dsimp only
  split
  · exact hd _
  · split
    · exact hd _
    · exact hw _

end Number

end Xrpl.Basics

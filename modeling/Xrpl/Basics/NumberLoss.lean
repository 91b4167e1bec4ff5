import Xrpl.Basics.NumberClosed
import Xrpl.Basics.NumberOperations
import Xrpl.Basics.NumberRep

/-!
# How much a positive `Number` loses to rounding

Whatever the rounding mode and the mantissa scale, a positive result falls short of the exact value by at most a
fraction of 10^-12 of it, apart from results so close to zero that they are flushed.

* `normalize_atLeast`, `mul_atLeast`: the bound for a normalization and for a product;
* `le_toRep`: the conversion to an integer does not go below an integer that the number reaches.
-/

namespace Xrpl.Basics

open Number Guard MantissaType

def tiny : ℚ := 10 ^ (kMinExponent + 20)

/-- A number that is not negative and reaches `X`, apart from what is flushed to zero. -/
def AtLeast (X : ℚ) (r : Number) : Prop := r.negative = false ∧ X ≤ r.magnitude + tiny

variable {X : ℚ} {n : ℕ}

private lemma AtLeast.mono {Y : ℚ} {r : Number} (h : AtLeast X r) (hYX : Y ≤ X) : AtLeast Y r := ⟨h.1, hYX.trans h.2⟩

private lemma tiny_pos : 0 < tiny := by
  rw [tiny]
  positivity

private lemma atLeast_kZero (h : X ≤ tiny) :
    AtLeast X kZero := ⟨rfl, h.trans (le_add_of_nonneg_left (magnitude_nonneg _))⟩

variable {x : Number} {T : MantissaType} {g : Guard} {scale : MantissaScale} {mode : RoundingMode} {location : String}
  {lim : MantissaLimits}

private lemma atLeast_magnitude (h : x.negative = false) :
    AtLeast x.magnitude x := ⟨h, le_add_of_nonneg_right tiny_pos.le⟩

private lemma mul_zpow_le_tiny {m : ℕ} {e : ℤ} (hm : m ≤ 10 ^ 20) (he : e ≤ kMinExponent) :
    (m : ℚ) * 10 ^ e ≤ tiny := by
  have hm' : (m : ℚ) ≤ 10 ^ 20 := by exact_mod_cast hm
  have he' : (10 : ℚ) ^ e ≤ 10 ^ kMinExponent := zpow_le_zpow_right₀ (by norm_num) he
  calc (m : ℚ) * 10 ^ e ≤ 10 ^ 20 * 10 ^ kMinExponent := by gcongr
    _ = tiny := by
      rw [tiny, zpow_add₀ (by norm_num), mul_comm]
      norm_num

section Rounding

private lemma bringIntoRange_atLeast (hn : x.negative = false) (hm : x.mantissa ≤ 10 ^ 19) :
    AtLeast x.magnitude (bringIntoRange T lim x) := by
  by_cases hs : x.mantissa < lim.min
  · rw [bringIntoRange_of_lt hs, ← magnitude_mul_ten x]
    split
    case isTrue he => exact atLeast_kZero (mul_zpow_le_tiny (by dsimp only; omega) he.le)
    case isFalse => exact atLeast_magnitude hn
  · rw [bringIntoRange_of_le (by omega)]
    split
    case isTrue he => exact atLeast_kZero (mul_zpow_le_tiny (by omega) he.le)
    case isFalse => exact atLeast_magnitude hn

private lemma finishRoundUp_atLeast (hn : x.negative = false) (hm : x.mantissa ≤ 10 ^ 19) :
    Meets Failure.IsOverflow (finishRoundUp T lim location x) (AtLeast x.magnitude) := by
  rw [finishRoundUp]
  split
  · exact ⟨location, rfl⟩
  · exact bringIntoRange_atLeast hn hm

namespace Guard

private lemma doRoundUp_atLeast_of_safe (g : Guard) (hn : x.negative = false)
    (hs : x.mantissa < lim.max ∧ x.mantissa < kMaxRep) :
    Meets Failure.IsOverflow (g.doRoundUp T lim mode location x) (AtLeast x.magnitude) := by
  obtain ⟨hmax, hrep⟩ := hs
  have hk : kMaxRep = 9223372036854775807 := rfl
  have hw : T.wrap (x.mantissa + 1) = x.mantissa + 1 := wrap_of_lt (by omega)
  have hf : x.mantissa + 1 ≤ 10 ^ 19 := by omega
  have hup : Meets Failure.IsOverflow (finishRoundUp T lim location { x with mantissa := x.mantissa + 1 })
      (AtLeast x.magnitude) := by
    refine (finishRoundUp_atLeast (x := { x with mantissa := x.mantissa + 1 }) hn hf).mono fun r hr => ?_
    refine hr.mono ?_
    rw [magnitude, magnitude]
    gcongr
    exact Nat.le_succ _
  rw [doRoundUp]
  split
  case isFalse => exact finishRoundUp_atLeast hn (by omega)
  split
  case isTrue =>
    rw [if_pos ⟨hmax, hrep⟩, hw]
    exact hup
  case isFalse =>
    have hin : ¬ (lim.max < x.mantissa + 1 ∨ kMaxRep < x.mantissa + 1) := by omega
    rw [hw, if_neg hin]
    exact hup

private lemma doRoundUp_atLeast (g : Guard) (hn : x.negative = false) (hx : Roundable lim x.mantissa) :
    Meets Failure.IsOverflow (g.doRoundUp T lim mode location x)
      (AtLeast (((x.mantissa : ℚ) - 9) * 10 ^ x.exponent)) := by
  have hk : kMaxRep = 9223372036854775807 := rfl
  have hl := lim.max_add_one
  have hrep := hx.le_rep
  have hmax := hx.le_max
  have hle : ((x.mantissa : ℚ) - 9) * 10 ^ x.exponent ≤ x.magnitude := by
    rw [magnitude]
    gcongr
    linarith
  by_cases hs : x.mantissa < lim.max ∧ x.mantissa < kMaxRep
  · exact (doRoundUp_atLeast_of_safe g hn hs).mono fun r hr => hr.mono hle
  have hw : T.wrap (x.mantissa + 1) = x.mantissa + 1 := wrap_of_lt (by omega)
  have hlt : x.mantissa < 2 ^ T.bits := lt_of_lt_of_le (by omega) T.le_bits
  -- dividing by ten loses the last digit
  have hd : ∀ m, x.mantissa ≤ m → ((x.mantissa : ℚ) - 9) * 10 ^ x.exponent ≤
      magnitude { x with mantissa := m / 10, exponent := x.exponent + 1 } := by
    intro m hm
    have hdi : (x.mantissa : ℚ) - 9 ≤ (m / 10 : ℕ) * 10 := by
      have : x.mantissa ≤ m / 10 * 10 + 9 := by omega
      have : (x.mantissa : ℚ) ≤ (m / 10 : ℕ) * 10 + 9 := by exact_mod_cast this
      linarith
    rw [magnitude, ten_zpow_add_one, mul_comm (10 ^ x.exponent) 10, ← mul_assoc]
    gcongr
  rw [doRoundUp]
  split
  case isFalse => exact (finishRoundUp_atLeast hn (by omega)).mono fun r hr => hr.mono hle
  split
  case isTrue =>
    have hs' : x.mantissa / 10 < lim.max ∧ x.mantissa / 10 < kMaxRep := by omega
    rw [doDropDigit_eq hlt]
    refine (doRoundUp_atLeast_of_safe _ (x := { x with mantissa := x.mantissa / 10, exponent := x.exponent + 1 })
      hn hs').mono fun r hr => hr.mono (hd _ le_rfl)
  case isFalse =>
    have ho : lim.max < x.mantissa + 1 ∨ kMaxRep < x.mantissa + 1 := by omega
    have hf : (x.mantissa + 1) / 10 ≤ 10 ^ 19 := by omega
    rw [hw, if_pos ho]
    refine (finishRoundUp_atLeast (x := { x with mantissa := (x.mantissa + 1) / 10, exponent := x.exponent + 1 })
      hn hf).mono fun r hr => hr.mono (hd _ (Nat.le_succ _))

end Guard

end Rounding

private lemma magnitude_lt_of_dropDigits (hx : x.mantissa < 2 ^ T.bits) (n : ℕ) :
    x.magnitude < (((g.dropDigits T n x).2.mantissa : ℚ) + 1) * 10 ^ (g.dropDigits T n x).2.exponent := by
  rw [dropDigits_number hx]
  have hpos : 0 < 10 ^ n := by positivity
  have hlt : x.mantissa < (x.mantissa / 10 ^ n + 1) * 10 ^ n := by
    rw [mul_comm]
    exact Nat.lt_mul_div_succ _ hpos
  have hlt' : (x.mantissa : ℚ) < ((x.mantissa / 10 ^ n : ℕ) + 1) * 10 ^ n := by exact_mod_cast hlt
  rw [magnitude, zpow_add₀ (by norm_num), zpow_natCast, mul_comm (10 ^ x.exponent), ← mul_assoc]
  gcongr

def loss : ℚ := 1 / 10 ^ 12

private lemma Guard.doRoundUp_dropDigits {U : MantissaType} (hn : x.negative = false) (hx : x.mantissa < 2 ^ T.bits)
    (hrnd : Roundable (getMantissaRange scale) (g.dropDigits T n x).2.mantissa) :
    Meets Failure.IsOverflow
      ((g.dropDigits T n x).1.doRoundUp U (getMantissaRange scale) mode location (g.dropDigits T n x).2)
      (AtLeast (x.magnitude * (1 - loss))) := by
  have hlt := magnitude_lt_of_dropDigits (g := g) hx n
  have hn' : (g.dropDigits T n x).2.negative = false := by
    rw [(dropDigits_signs hx n).2.1]
    exact hn
  have hmin := hrnd.min_le
  have hs : 10 ^ 15 ≤ (getMantissaRange scale).min := by cases scale <;> decide
  have hl : 10 ^ 14 ≤ (g.dropDigits T n x).2.mantissa := by omega
  refine (doRoundUp_atLeast _ hn' hrnd).mono fun r hr => hr.mono ?_
  generalize (g.dropDigits T n x).2 = z at *
  have hl' : (10 : ℚ) ^ 14 ≤ z.mantissa := by exact_mod_cast hl
  calc x.magnitude * (1 - loss) ≤ ((z.mantissa : ℚ) + 1) * 10 ^ z.exponent * (1 - loss) := by
        gcongr
        · norm_num [loss]
    _ = ((z.mantissa : ℚ) + 1) * (1 - loss) * 10 ^ z.exponent := by ring
    _ ≤ ((z.mantissa : ℚ) - 9) * 10 ^ z.exponent := by
        gcongr
        rw [loss]
        linarith

private lemma le_scaleUp (T : MantissaType) (lim : MantissaLimits) (x : Number) :
    lim.min ≤ (scaleUp T lim x).mantissa ∨ (scaleUp T lim x).exponent ≤ kMinExponent := by
  rw [scaleUp]
  split
  case isTrue => exact le_scaleUp T lim _
  case isFalse h =>
    rcases not_and_or.1 h with h | h
    · exact .inl (Nat.le_of_not_lt h)
    · exact .inr (not_lt.1 h)
termination_by (x.exponent - kMinExponent).toNat
decreasing_by omega

private lemma magnitude_scaleUp (T : MantissaType) (lim : MantissaLimits) (x : Number) :
    (scaleUp T lim x).magnitude = x.magnitude := by
  obtain ⟨k, hk, -⟩ := scaleUp_eq T lim x
  have he : (10 : ℚ) ^ x.exponent = 10 ^ k * 10 ^ (x.exponent - k) := by
    rw [← zpow_natCast, ← zpow_add₀ (by norm_num)]
    congr 1
    omega
  rw [hk, magnitude, magnitude, he]
  push_cast
  ring

private lemma le_scaleDown (g : Guard) (x : Number) (hx : x.mantissa < 2 ^ T.bits) :
    Meets Failure.IsOverflow (scaleDown T lim g x) (fun s => lim.min ≤ s.2.mantissa ∨ s = (g, x)) := by
  have hmax := lim.max_add_one
  rw [scaleDown]
  split
  case isTrue ha =>
    split
    · exact ⟨_, rfl⟩
    have hd := g.doDropDigit_lt T (x := x) (by omega)
    have heq := doDropDigit_eq (g := g) hx
    refine (le_scaleDown _ _ (hd.trans hx)).mono fun s hs => .inl ?_
    rcases hs with hs | rfl
    · exact hs
    · rw [heq]
      dsimp only
      omega
  case isFalse hin => exact .inr rfl
termination_by x.mantissa
decreasing_by exact hd

private lemma Guard.dropDigits_add (g : Guard) (x : Number) (m n : ℕ) :
    (g.dropDigits T m x).1.dropDigits T n (g.dropDigits T m x).2 = g.dropDigits T (m + n) x := by
  induction m generalizing g x with
  | zero => rw [Nat.zero_add]; rfl
  | succ m ih =>
    rw [Nat.add_right_comm]
    exact ih _ _

lemma normalize_atLeast (hn : x.negative = false) (hx : x.mantissa < 2 ^ 64) :
    Meets Failure.IsOverflow (normalize scale mode x) (AtLeast (x.magnitude * (1 - loss))) := by
  have hl : x.magnitude * (1 - loss) ≤ x.magnitude := mul_le_of_le_one_right (magnitude_nonneg x) (by norm_num [loss])
  rw [Number.normalize, doNormalize]
  split
  case isTrue hz =>
    refine atLeast_kZero (hl.trans ?_)
    rw [magnitude, hz, Nat.cast_zero, zero_mul]
    exact tiny_pos.le
  have hup : (scaleUp .uint64 (getMantissaRange scale) x).mantissa < 2 ^ uint64.bits := scaleUp_lt hx
  have hn' : (scaleUp .uint64 (getMantissaRange scale) x).negative = false := by
    obtain ⟨k, hk, -⟩ := scaleUp_eq .uint64 (getMantissaRange scale) x
    rw [hk]
    exact hn
  rw [← magnitude_scaleUp .uint64 (getMantissaRange scale) x] at hl ⊢
  have hr := le_scaleUp .uint64 (getMantissaRange scale) x
  generalize scaleUp .uint64 (getMantissaRange scale) x = y at *
  refine ((scaleDown_spec _ _ hup).and (le_scaleDown _ _ hup)).bind fun s hs => ?_
  obtain ⟨⟨hmax, n, rfl⟩, hmin⟩ := hs
  have hlt := magnitude_lt_of_dropDigits (g := { xbit := false, sbit := x.negative }) hup n
  dsimp only
  split
  case isTrue hf =>
    -- a mantissa that is too short has the least exponent
    have he : (dropDigits .uint64 n { xbit := false, sbit := x.negative } y).2.exponent ≤ kMinExponent := by
      rcases hf with hf | hf
      · exact hf.le
      rcases hmin with hmin | hmin
      · omega
      · rw [hmin] at hf ⊢
        exact hr.resolve_left (by dsimp only at hf; omega)
    refine atLeast_kZero (hl.trans (hlt.le.trans ?_))
    have hlim := (getMantissaRange scale).min_le
    have hli := (getMantissaRange scale).max_add_one
    have := mul_zpow_le_tiny (m := (dropDigits .uint64 n { xbit := false, sbit := x.negative } y).2.mantissa + 1)
      (by omega) he
    exact_mod_cast this
  case isFalse hke =>
    rw [not_or, not_lt, not_lt] at hke
    refine (fitRep_spec _ hke.2 hmax).bind fun s' hs' => ?_
    obtain ⟨hrnd, n', rfl⟩ := hs'
    rw [dropDigits_add] at hrnd ⊢
    exact doRoundUp_dropDigits hn' hup hrnd

/-- The loop of the multiplication leaves a mantissa that rounding brings into the range. -/
private lemma shrink_roundable (lim : MantissaLimits) (g : Guard) (z : Number) (hz : z.mantissa < 2 ^ 128)
    (hmin : lim.min ≤ z.mantissa * 10) : Roundable lim (shrink lim g z).2.mantissa := by
  have h18 := lim.min_le
  have hmax := lim.max_add_one
  have hk : kMaxRep = 9223372036854775807 := rfl
  rw [shrink]
  split
  case isTrue ha =>
    have hd := g.doDropDigit_lt .uint128 (x := z) (by omega)
    have heq := doDropDigit_eq (T := .uint128) (g := g) hz
    refine shrink_roundable lim _ _ (hd.trans hz) ?_
    rw [heq]
    dsimp only
    omega
  case isFalse hin => exact ⟨hmin, by dsimp only; omega, by dsimp only; omega⟩
termination_by z.mantissa
decreasing_by exact hd

private lemma normalize_of_normal
    (hx : x.Normal (getMantissaRange scale)) : Meets Failure.IsOverflow (normalize scale mode x) (· = x) := by
  rcases hx with rfl | hx
  · exact rfl
  · exact normalize_of_inRange hx

lemma mul_atLeast {y : Number}
    (hx : x.Normal (getMantissaRange scale)) (hy : y.Normal (getMantissaRange scale)) (hxn : x.negative = false)
    (hyn : y.negative = false) :
    Meets Failure.IsOverflow (mul scale mode x y) (AtLeast (x.magnitude * y.magnitude * (1 - loss))) := by
  have hze : kZero.magnitude = 0 := by
    rw [magnitude]
    simp [kZero]
  rw [mul]
  split
  case isTrue hx0 =>
    subst hx0
    rw [hze, zero_mul, zero_mul]
    exact atLeast_kZero tiny_pos.le
  case isFalse hx0 =>
  split
  case isTrue hy0 =>
    subst hy0
    rw [hze, mul_zero, zero_mul]
    exact atLeast_kZero tiny_pos.le
  case isFalse hy0 =>
  have hx' := hx.resolve_left hx0
  have hy' := hy.resolve_left hy0
  have hp : x.mantissa * y.mantissa < 2 ^ 128 := by
    calc x.mantissa * y.mantissa < 2 ^ 64 * 2 ^ 64 := Nat.mul_lt_mul'' hx.mantissa_lt hy.mantissa_lt
      _ = 2 ^ 128 := by norm_num
  have hw : uint128.wrap (x.mantissa * y.mantissa) = x.mantissa * y.mantissa := Nat.mod_eq_of_lt hp
  have hm : x.magnitude * y.magnitude =
      magnitude { negative := false, mantissa := x.mantissa * y.mantissa, exponent := x.exponent + y.exponent } := by
    simp only [magnitude]
    rw [zpow_add₀ (by norm_num)]
    push_cast
    ring
  have hmin : (getMantissaRange scale).min ≤ x.mantissa * y.mantissa * 10 := by
    have ho := hy'.min_le
    have := (getMantissaRange scale).min_pos
    calc (getMantissaRange scale).min ≤ x.mantissa * 1 := by
          rw [mul_one]
          exact hx'.min_le
      _ ≤ x.mantissa * y.mantissa := Nat.mul_le_mul_left _ (by omega)
      _ ≤ x.mantissa * y.mantissa * 10 := by omega
  dsimp only
  rw [hw, hm, hxn, hyn, bne_self_eq_false]
  obtain ⟨hle, n, hn⟩ := shrink_spec (getMantissaRange scale) { sbit := false }
    { negative := false, mantissa := x.mantissa * y.mantissa, exponent := x.exponent + y.exponent } hp
  have hrnd := shrink_roundable (getMantissaRange scale) { sbit := false }
    { negative := false, mantissa := x.mantissa * y.mantissa, exponent := x.exponent + y.exponent } hp hmin
  rw [narrow_of_lt (hle.trans_lt (by decide))]
  rw [hn] at hrnd ⊢
  refine ((doRoundUp_dropDigits (T := .uint128) rfl hp hrnd).and (doRoundUp_normal _ _ hrnd)).bind fun z hz => ?_
  refine (normalize_of_normal hz.2).mono fun r hr => ?_
  subst hr
  exact hz.1

lemma toRep_le (hx : x.Normal lim) : Meets Failure.IsOverflow (toRep mode x) (· ≤ (kMaxRep : ℤ)) := by
  obtain ⟨m, k, f, -, -, -, -, hr⟩ := toRep_split hx mode
  rw [hr]
  split
  case isFalse => exact ⟨_, rfl⟩
  case isTrue hk =>
    show (if x.negative then -(k : ℤ) else k) ≤ (kMaxRep : ℤ)
    split <;> omega

/-- A normal number that reaches an integer is converted to this integer or a greater one. -/
lemma le_toRep (hx : x.Normal lim) (hneg : x.negative = false) (hn : (n : ℚ) ≤ x.magnitude) :
    Meets Failure.IsOverflow (toRep mode x) ((n : ℤ) ≤ ·) := by
  obtain ⟨m, k, f, -, hf, hvl, hk, hr⟩ := toRep_split hx mode
  have hlt : (n : ℚ) < m + 1 := by linarith
  have hlt' : n < m + 1 := by exact_mod_cast hlt
  rw [hr, hneg]
  split
  case isFalse => exact ⟨_, rfl⟩
  case isTrue =>
    show (n : ℤ) ≤ k
    omega

end Xrpl.Basics

import Xrpl.Basics.NumberSum

/-!
# Directed rounding

In the modes `upward` and `downward` a magnitude is rounded away from zero or towards it, by the sign of the result
(`RoundingMode.outward`).  The guard decides by its own sign, so the results of this module are stated for the sign of
the guard (`Guard.doRoundUp_directed`, `Guard.doRoundDown_directed`); they say more than the source intends where that
sign is not the sign of the number.
-/

namespace Xrpl.Basics

open MantissaType Guard

def RoundingMode.Directed (mode : RoundingMode) : Prop := mode = .upward ∨ mode = .downward

instance (mode : RoundingMode) : Decidable mode.Directed := inferInstanceAs (Decidable (_ ∨ _))

def RoundingMode.outward (mode : RoundingMode) (negative : Bool) : Bool :=
  match mode with
  | .upward => !negative
  | .downward => negative
  | _ => false

variable {mode : RoundingMode} {T : MantissaType} {x : Number}

lemma RoundingMode.Directed.outward_not (h : mode.Directed) (negative : Bool) :
    mode.outward (!negative) = !mode.outward negative := by
  rcases h with rfl | rfl <;> cases negative <;> rfl

/-- The magnitude `M` lies beyond `X`, or short of it. -/
def Bracket (beyond : Bool) (X M : ℚ) : Prop := if beyond then X ≤ M else M ≤ X

lemma Bracket.refl (beyond : Bool) (X : ℚ) : Bracket beyond X X := by
  cases beyond <;> exact le_refl X

variable {beyond : Bool} {X f : ℚ} {dropped : Bool}

lemma Bracket.trans {Y Z : ℚ} (h : Bracket beyond X Y) (h' : Bracket beyond Y Z) :
    Bracket beyond X Z := by
  cases beyond
  · exact le_trans (α := ℚ) h' h
  · exact le_trans (α := ℚ) h h'

lemma bracket_not_iff {M : ℚ} (h : M ≠ X) : Bracket (!beyond) X M ↔ ¬ Bracket beyond X M := by
  cases beyond
  · exact ⟨fun hle => not_le.2 (lt_of_le_of_ne hle h.symm), fun hlt => (not_le.1 hlt).le⟩
  · exact ⟨fun hle => not_le.2 (lt_of_le_of_ne hle h), fun hlt => (not_le.1 hlt).le⟩

lemma RoundingMode.Directed.ne_toNearest (h : mode.Directed) : mode ≠ .toNearest := by
  rcases h with rfl | rfl <;> decide

/-- The guard changes the mantissa when it holds something and its sign is rounded outward. -/
lemma Guard.changes_iff (hm : mode ≠ .toNearest) (g : Guard) (m : ℕ) :
    g.changes mode m = true ↔ mode.outward g.sbit = true ∧ g.Nonzero := by
  have hrnd : g.round mode = 1 ∧ mode.outward g.sbit = true ∧ g.Nonzero ∨
      g.round mode = -1 ∧ ¬ (mode.outward g.sbit = true ∧ g.Nonzero) := by
    simp only [Nonzero]
    cases mode with
    | toNearest => exact absurd rfl hm
    | towardsZero => exact .inr ⟨rfl, by simp [RoundingMode.outward]⟩
    | _ =>
      by_cases h : 0 < g.digits ∨ g.xbit = true <;> cases hs : g.sbit <;> simp only [round, hs, h] <;> decide
  rw [changes]
  rcases hrnd with ⟨hr, h⟩ | ⟨hr, h⟩
  · rw [hr]
    exact iff_of_true rfl h
  · rw [hr]
    exact iff_of_false (by simp) h

/-! ### Rounding -/

/-- The number has become zero, or it has kept its sign and its magnitude. -/
def Number.Keeps (x r : Number) : Prop := r = kZero ∨ (r.negative = x.negative ∧ r.magnitude = x.magnitude)

lemma magnitude_mul_ten (x : Number) :
    Number.magnitude { x with mantissa := x.mantissa * 10, exponent := x.exponent - 1 } = x.magnitude := by
  have h : (10 : ℚ) ^ x.exponent = 10 ^ (x.exponent - 1) * 10 := by
    rw [← ten_zpow_add_one]
    congr 1
    omega
  rw [Number.magnitude, Number.magnitude, h]
  push_cast
  ring

private lemma MantissaType.wrap_pred {m : ℕ} (hpos : 0 < m) (hm : m < 2 ^ 64) :
    T.wrap (m + 2 ^ T.bits - 1) = m - 1 := by
  have hle : m - 1 < 2 ^ T.bits := lt_of_lt_of_le (by omega) T.le_bits
  rw [wrap, Nat.sub_add_comm hpos, Nat.add_mod_right, Nat.mod_eq_of_lt hle]

section Rounding

variable {lim : MantissaLimits} {location : String}

lemma bringIntoRange_keeps (x : Number) : x.Keeps (bringIntoRange T lim x) := by
  by_cases hs : x.mantissa < lim.min
  · rw [bringIntoRange_of_lt hs]
    split
    · exact .inl rfl
    · exact .inr ⟨rfl, magnitude_mul_ten x⟩
  · rw [bringIntoRange_of_le (by omega)]
    split
    · exact .inl rfl
    · exact .inr ⟨rfl, rfl⟩

private lemma finishRoundUp_keeps (x : Number) : Meets Failure.IsOverflow (finishRoundUp T lim location x)
    (x.Keeps ·) := by
  rw [finishRoundUp]
  split
  · exact ⟨location, rfl⟩
  · exact bringIntoRange_keeps x

/-- The result `r` of rounding the magnitude `X`: zero, or of the given sign and on the side of `X` that `beyond` says. -/
def Sided (beyond negative : Bool) (X : ℚ) (r : Number) : Prop :=
  r = Number.kZero ∨ (r.negative = negative ∧ Bracket beyond X r.magnitude)

variable {r : Number} {y : Number} {inexact : Prop}

lemma Number.Keeps.sided (h : y.Keeps r) (hb : Bracket beyond X y.magnitude) : Sided beyond y.negative X r := by
  rcases h with rfl | ⟨hr, hm⟩
  · exact .inl rfl
  · rw [← hm] at hb
    exact .inr ⟨hr, hb⟩

/-- A result on one side of `X` that differs from `X` if and only if `inexact` holds. -/
def RoundedTo (beyond : Bool) (inexact : Prop) (negative : Bool) (X : ℚ) (r : Number) : Prop :=
  r = Number.kZero ∨ (r.negative = negative ∧ Bracket beyond X r.magnitude ∧ (inexact ↔ r.magnitude ≠ X))

private lemma Number.Keeps.roundedTo (h : y.Keeps r) (hb : Bracket beyond X y.magnitude)
    (hi : inexact ↔ y.magnitude ≠ X) :
    RoundedTo beyond inexact y.negative X r := by
  rcases h with rfl | ⟨hr, hm⟩
  · exact .inl rfl
  · rw [← hm] at hb hi
    exact .inr ⟨hr, hb, hi⟩

lemma RoundedTo.sided {negative : Bool} (h : RoundedTo beyond inexact negative X r) : Sided beyond negative X r :=
  h.imp_right fun h => ⟨h.1, h.2.1⟩

namespace Guard

/-- With the fix of the cusp, rounding up goes to the side that the sign of the guard asks for. -/
lemma doRoundUp_directed (hm : mode ≠ .toNearest) (hfix : lim.cuspRoundingFixEnabled = true) (g : Guard) (x : Number)
    {X : ℚ} (hx : x.mantissa < 2 ^ T.bits) (hX : Stands g x X) :
    Meets Failure.IsOverflow (g.doRoundUp T lim mode location x)
      (RoundedTo (mode.outward g.sbit) g.Nonzero x.negative X) := by
  have hpow : (0 : ℚ) < 10 ^ x.exponent := zpow_pos (by norm_num) _
  have hstd := hX.drop hx
  obtain ⟨f, hf, rfl⟩ := hX
  have hnn := hf.nonneg
  have hlt := hf.lt_one
  have hi := hf.nonzero_iff
  have hchs := changes_iff hm g x.mantissa
  rw [doRoundUp]
  split
  case isFalse hk =>
    refine (finishRoundUp_keeps x).mono fun r hr => hr.roundedTo ?_ ?_
    · rw [hchs] at hk
      cases ho : mode.outward g.sbit
      · exact mul_le_mul_of_nonneg_right (by linarith) hpow.le
      have hz : f = 0 := by
        by_contra hne
        exact hk ⟨ho, hi.2 (lt_of_le_of_ne hnn (Ne.symm hne))⟩
      rw [hz, add_zero]
      exact Bracket.refl _ _
    · rw [hi, Number.magnitude, Ne, mul_left_inj' hpow.ne']
      constructor
      · intro hpos heq
        linarith
      · intro hne
        refine lt_of_le_of_ne hnn fun h0 => hne ?_
        rw [← h0, add_zero]
  case isTrue hchg =>
    obtain ⟨ho, hnz⟩ := hchs.1 hchg
    have hpos := hi.1 hnz
    split
    case isTrue hs =>
      have hrep : kMaxRep = 9223372036854775807 := rfl
      rw [wrap_of_lt (by omega)]
      have hb : ((x.mantissa : ℚ) + f) * 10 ^ x.exponent < ((x.mantissa + 1 : ℕ) : ℚ) * 10 ^ x.exponent := by
        refine mul_lt_mul_of_pos_right ?_ hpow
        push_cast
        linarith
      refine (finishRoundUp_keeps _).mono fun r hr => hr.roundedTo ?_ ?_
      · rw [ho]
        exact hb.le
      · exact ⟨fun _ => hb.ne', fun _ => hnz⟩
    case isFalse hc =>
      have hdr := doDropDigit_lt T g (x := x) (MantissaLimits.pos_of_cusp hc)
      have hre := doRoundUp_directed hm hfix _ _ (hdr.trans hx) hstd
      have hd := toNat_digit x.mantissa
      have hp := hf.push (d := .ofNat 32 (x.mantissa % 10)) (by omega)
      have hnz' : (g.doDropDigit T x).1.Nonzero := by
        rw [doDropDigit_eq hx]
        refine hp.nonzero_iff.2 ?_
        positivity
      have hsb : (g.doDropDigit T x).1.sbit = g.sbit := by rw [doDropDigit_eq hx, push_sbit]
      have hn : (g.doDropDigit T x).2.negative = x.negative := by rw [doDropDigit_eq hx]
      rw [hsb] at hre
      refine hre.mono fun r hr => ?_
      rcases hr with hr | ⟨h1, h2, h3⟩
      · exact .inl hr
      · exact .inr ⟨h1.trans hn, h2, fun _ => h3.1 hnz', fun _ => hnz⟩
termination_by x.mantissa
decreasing_by exact hdr

/-- Rounding down, after a subtraction: the guard holds what is still to be taken off, with the sign of the operand that
it comes from. -/
lemma doRoundDown_directed (hm : mode.Directed) {g : Guard} {x : Number} {f : ℚ} (hf : g.Sticky f)
    (hs : g.Nonzero → g.sbit = !x.negative) (hpos : 0 < x.mantissa) (hx : x.mantissa < 2 ^ 64) :
    Sided (mode.outward x.negative) x.negative ((x.mantissa - f) * 10 ^ x.exponent) (g.doRoundDown T lim mode x) := by
  have hmin := lim.min_le
  have hp : (0 : ℚ) < 10 ^ x.exponent := zpow_pos (by norm_num) _
  have hnn := hf.nonneg
  have hlt := hf.lt_one
  have hc := changes_iff hm.ne_toNearest g x.mantissa
  rw [doRoundDown]
  split
  case isFalse hk =>
    rw [hc] at hk
    refine (bringIntoRange_keeps x).sided ?_
    rcases hnn.eq_or_lt with rfl | hpos'
    · rw [sub_zero]
      exact Bracket.refl _ _
    have hnz := hf.nonzero_iff.2 hpos'
    have ho : mode.outward x.negative = true := by
      rw [hs hnz, hm.outward_not] at hk
      simpa [hnz] using hk
    rw [ho]
    exact mul_le_mul_of_nonneg_right (by linarith) hp.le
  case isTrue hchg =>
    obtain ⟨ho, hnz⟩ := hc.1 hchg
    rw [hs hnz, hm.outward_not, Bool.not_eq_true'] at ho
    have hw : T.wrap (x.mantissa + 2 ^ T.bits - 1) = x.mantissa - 1 := wrap_pred hpos hx
    have hsho : ((x.mantissa - 1 : ℕ) : ℚ) * 10 ^ x.exponent ≤ (x.mantissa - f) * 10 ^ x.exponent := by
      refine mul_le_mul_of_nonneg_right ?_ hp.le
      rw [Nat.cast_sub hpos]
      push_cast
      linarith
    dsimp only
    rw [hw, ho]
    split
    case isTrue hsm =>
      rw [wrap_of_lt (by omega)]
      refine (bringIntoRange_keeps _).sided ?_
      rw [magnitude_mul_ten { x with mantissa := x.mantissa - 1 }]
      exact hsho
    case isFalse => exact (bringIntoRange_keeps _).sided hsho

lemma doRoundDown_lt (g : Guard) {x : Number} (hpos : 0 < x.mantissa) (hx : x.mantissa < 2 ^ 64) :
    (g.doRoundDown T lim mode x).mantissa < 2 ^ 64 := by
  have hmin := lim.min_le
  rw [doRoundDown]
  split
  case isFalse => exact bringIntoRange_lt (by norm_num) hx
  case isTrue =>
    dsimp only
    rw [wrap_pred hpos hx]
    split
    case isTrue hsm =>
      rw [wrap_of_lt (by omega)]
      exact bringIntoRange_lt (by norm_num) (by dsimp only; omega)
    case isFalse => exact bringIntoRange_lt (by norm_num) (by dsimp only; omega)

end Guard

end Rounding

lemma Guard.dropDigits_signs {g : Guard} (hx : x.mantissa < 2 ^ T.bits) (n : ℕ) :
    (g.dropDigits T n x).1.sbit = g.sbit ∧ (g.dropDigits T n x).2.negative = x.negative ∧
      (g.dropDigits T n x).2.mantissa ≤ x.mantissa := by
  rw [dropDigits_sbit hx, dropDigits_number hx]
  exact ⟨rfl, rfl, Nat.div_le_self _ _⟩

/-- Appending zeros keeps what a number and a fraction stand for, as long as the fraction stays below the last digit. -/
private lemma stands_scaleUp (T : MantissaType) (lim : MantissaLimits)
    (hpos : 0 < x.mantissa) (hnn : 0 ≤ f) (hlt : f < 1) (hd : dropped = true ↔ 0 < f)
    (hs : x.mantissa < lim.min → f * (lim.min * 10 : ℕ) ≤ x.mantissa) :
    Stands { xbit := dropped, sbit := x.negative } (scaleUp T lim x) ((x.mantissa + f) * 10 ^ x.exponent) := by
  obtain ⟨k, hk, hbd⟩ := scaleUp_eq T lim x
  have hp : (0 : ℚ) < 10 ^ k := by positivity
  refine ⟨f * 10 ^ k, ⟨by positivity, ?_, ?_⟩, ?_⟩
  · rcases hbd with rfl | hbd
    · simpa using hlt
    rcases Nat.eq_zero_or_pos k with rfl | hkp
    · simpa using hlt
    have ht : 10 ≤ 10 ^ k := Nat.le_self_pow hkp.ne' 10
    have hsm : x.mantissa < lim.min := by nlinarith
    have hpos' : (0 : ℚ) < x.mantissa := by exact_mod_cast hpos
    have hbd' : (x.mantissa : ℚ) * 10 ^ k < (lim.min * 10 : ℕ) := by exact_mod_cast hbd
    rcases hnn.eq_or_lt with rfl | hf
    · simp
    refine lt_of_mul_lt_mul_right ?_ hpos'.le
    calc f * 10 ^ k * x.mantissa = f * (x.mantissa * 10 ^ k) := by ring
      _ < f * (lim.min * 10 : ℕ) := mul_lt_mul_of_pos_left hbd' hf
      _ ≤ x.mantissa := hs hsm
      _ = 1 * x.mantissa := by ring
  · rw [nonzero_iff_toNat]
    simp only [hd]
    constructor
    · rintro (h | h)
      · exact absurd rfl h
      · positivity
    · intro h
      exact .inr (pos_of_mul_pos_left h hp.le)
  · have he : (10 : ℚ) ^ x.exponent = 10 ^ (x.exponent - k) * 10 ^ k := by
      rw [← zpow_natCast, ← zpow_add₀ (by norm_num)]
      congr 1
      omega
    rw [hk, he]
    push_cast
    ring

lemma doNormalize_directed {lim : MantissaLimits} (hmo : mode ≠ .toNearest) (hf : lim.cuspRoundingFixEnabled = true)
    (hx : x.mantissa < 2 ^ T.bits) (hnn : 0 ≤ f) (hlt : f < 1) (hd : dropped = true ↔ 0 < f)
    (hsho : x.mantissa < lim.min → f * (lim.min * 10 : ℕ) ≤ x.mantissa) :
    Meets Failure.IsOverflow (doNormalize T lim mode dropped x)
      (Sided (mode.outward x.negative) x.negative ((x.mantissa + f) * 10 ^ x.exponent)) := by
  rw [doNormalize]
  split
  · exact .inl rfl
  case isFalse hne =>
  have hstd := stands_scaleUp T lim (Nat.pos_of_ne_zero hne) hnn hlt hd hsho
  have hup : (scaleUp T lim x).mantissa < 2 ^ T.bits := scaleUp_lt hx
  have hneg : (scaleUp T lim x).negative = x.negative := by
    obtain ⟨k, hk, -⟩ := scaleUp_eq T lim x
    rw [hk]
  refine (scaleDown_spec _ _ hup).bind fun s hs => ?_
  obtain ⟨hmax, n, rfl⟩ := hs
  obtain ⟨hs1, hn1, hm1⟩ := dropDigits_signs (g := { xbit := dropped, sbit := x.negative }) hup n
  have hstd1 := hstd.dropDigits hup n
  generalize dropDigits T n _ _ = s at *
  obtain ⟨g, z⟩ := s
  dsimp only at *
  split
  · exact .inl rfl
  refine (fitRep_spec g (by omega) hmax).bind fun s' hs' => ?_
  obtain ⟨-, n', rfl⟩ := hs'
  have hz : z.mantissa < 2 ^ T.bits := hm1.trans_lt hup
  obtain ⟨hs2, hn2, hm2⟩ := dropDigits_signs (g := g) hz n'
  refine (doRoundUp_directed hmo hf _ _ (hm2.trans_lt hz) (hstd1.dropDigits hz n')).mono fun r hr => ?_
  rw [hs2, hs1, hn2, hn1, hneg] at hr
  exact hr.sided

end Xrpl.Basics

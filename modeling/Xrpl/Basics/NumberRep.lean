import Mathlib.Data.Rat.Floor
import Xrpl.Basics.NumberDirected

/-!
# Conversion of a `Number` to an integer

`toRep` rounds correctly: the guard holds what the shifted mantissa lost (`Guard.Holds`), so its verdict is the one of
the exact fraction (`Guard.changes_eq`), and the sign is put back at the end.
-/

namespace Xrpl.Basics

open RoundingMode

namespace RoundingMode

/-- The nearest integer, the even one of two. -/
def nearestEven (q : ℚ) : ℤ :=
  if 2 * Int.fract q < 1 ∨ (2 * Int.fract q = 1 ∧ Even ⌊q⌋) then ⌊q⌋ else ⌊q⌋ + 1

def roundInt (mode : RoundingMode) (q : ℚ) : ℤ :=
  match mode with
  | .toNearest => nearestEven q
  | .towardsZero => if q < 0 then ⌈q⌉ else ⌊q⌋
  | .downward => ⌊q⌋
  | .upward => ⌈q⌉

/-- Is the magnitude `m + f` of a number with the given sign rounded away from zero? -/
def away (mode : RoundingMode) (negative : Bool) (m : ℕ) (f : ℚ) : Bool :=
  match mode with
  | .toNearest => 1 < 2 * f ∨ (2 * f = 1 ∧ m % 2 = 1)
  | .towardsZero => false
  | .downward => negative ∧ 0 < f
  | .upward => ¬ negative ∧ 0 < f

private lemma floor_neg_of_fract {q : ℚ} (h : Int.fract q ≠ 0) : ⌊-q⌋ = -(⌊q⌋ + 1) := by
  have hpos := lt_of_le_of_ne (Int.fract_nonneg q) h.symm
  have hlt := Int.fract_lt_one q
  have hq := Int.floor_add_fract q
  rw [Int.floor_eq_iff]
  constructor <;> push_cast <;> linarith

private lemma nearestEven_neg (q : ℚ) : nearestEven (-q) = -nearestEven q := by
  by_cases h : Int.fract q = 0
  · have hq : q = (⌊q⌋ : ℤ) := by
      have := Int.floor_add_fract q
      rw [h, add_zero] at this
      exact this.symm
    rw [hq, nearestEven, nearestEven, ← Int.cast_neg, Int.fract_intCast, Int.floor_intCast]
    simp
  · have hp : Even (-(⌊q⌋ + 1)) ↔ ¬ Even ⌊q⌋ := by rw [even_neg, Int.even_add_one]
    rw [nearestEven, nearestEven, floor_neg_of_fract h, Int.fract_neg h]
    simp only [hp]
    rcases lt_trichotomy (2 * Int.fract q) 1 with hlt | heq | hgt
    · rw [if_neg, if_pos (.inl hlt)]
      · ring
      · rintro (h' | ⟨h', -⟩) <;> linarith
    · by_cases he : Even ⌊q⌋
      · rw [if_neg, if_pos (.inr ⟨heq, he⟩)]
        · ring
        · rintro (h' | ⟨-, h'⟩)
          · linarith
          · exact h' he
      · rw [if_pos (.inr ⟨by linarith, he⟩), if_neg]
        rintro (h' | ⟨-, h'⟩)
        · exact h'.ne heq
        · exact he h'
    · rw [if_pos (.inl (by linarith)), if_neg]
      rintro (h' | ⟨h', -⟩) <;> linarith

/-- The mode with the directions of the line exchanged. -/
def opposite : RoundingMode → RoundingMode
  | .downward => .upward
  | .upward => .downward
  | mode => mode

variable (mode : RoundingMode) (m : ℕ) {f : ℚ}

private lemma roundInt_neg (q : ℚ) : mode.roundInt (-q) = -mode.opposite.roundInt q := by
  cases mode with
  | toNearest => exact nearestEven_neg q
  | downward => exact Int.floor_neg
  | upward => exact Int.ceil_neg
  | towardsZero =>
    simp only [opposite, roundInt, Int.floor_neg, Int.ceil_neg]
    rcases lt_trichotomy q 0 with h | rfl | h
    · rw [if_neg (by linarith), if_pos h]
    · simp
    · rw [if_pos (by linarith), if_neg (by linarith)]

private lemma roundInt_add (h0 : 0 ≤ f) (h1 : f < 1) :
    mode.roundInt (m + f) = (m + (mode.away false m f).toNat : ℕ) := by
  have hz : ⌊f⌋ = 0 := Int.floor_eq_zero_iff.2 ⟨h0, h1⟩
  have hflo : ⌊(m + f : ℚ)⌋ = m := by rw [Int.floor_natCast_add, hz, add_zero]
  have hfr : Int.fract (m + f : ℚ) = f := by rw [Int.fract_natCast_add, Int.fract_eq_self.2 ⟨h0, h1⟩]
  cases mode with
  | toNearest =>
    rw [roundInt, nearestEven, hflo, hfr, away]
    rcases lt_trichotomy (2 * f) 1 with hf | hf | hf
    · simp [hf, hf.ne, hf.not_gt]
    · rcases Nat.mod_two_eq_zero_or_one m with hm | hm <;> simp [hf, hm, Nat.even_iff]
    · simp [hf, hf.ne', hf.not_gt]
  | towardsZero =>
    have hm : (0 : ℚ) ≤ m := Nat.cast_nonneg m
    rw [roundInt, if_neg (by linarith), hflo]
    rfl
  | downward =>
    rw [roundInt, hflo]
    simp [away]
  | upward =>
    rw [roundInt]
    rcases h0.eq_or_lt with rfl | hf
    · simp [away]
    have ho : ⌈f⌉ = 1 := by
      rw [Int.ceil_eq_iff]
      constructor <;> push_cast <;> linarith
    simp [away, hf, ho]

private lemma away_opposite (negative : Bool) : mode.opposite.away negative m f = mode.away (!negative) m f := by
  cases mode <;> cases negative <;> simp [opposite, away]

/-- The sign does not matter for the magnitude, apart from the direction. -/
private lemma roundInt_signed (negative : Bool) (h0 : 0 ≤ f) (h1 : f < 1) {k : ℕ}
    (hk : k = m + (mode.away negative m f).toNat) :
    mode.roundInt (if negative then -(m + f) else m + f) = if negative then -(k : ℤ) else k := by
  subst hk
  cases negative with
  | false => exact mode.roundInt_add m h0 h1
  | true =>
    rw [if_pos rfl, roundInt_neg, roundInt_add _ m h0 h1, away_opposite]
    rfl

end RoundingMode

namespace Guard

variable {g : Guard} {f : ℚ}

/-- The digits compare to a five as the decimals do. -/
private lemma decimals_half (h : IsPacked 16 g.digits.toNat) :
    (g.digits < 0x5000000000000000 ↔ g.decimals < 5 * 10 ^ 15) ∧
      (g.digits = 0x5000000000000000 ↔ g.decimals = 5 * 10 ^ 15) := by
  have hp := decimals_pop h
  have hl : g.pop.2.decimals < 10 ^ 16 := by
    rw [decimals, pop_digits]
    exact h.shiftOut.lt
  have hz : g.pop.2.decimals = 0 ↔ g.digits.toNat % 16 ^ 15 * 16 = 0 := by
    rw [decimals, pop_digits]
    exact h.shiftOut.eq_zero_iff
  rw [pop_digit] at hp
  have hf : (0x5000000000000000 : BitVec 64).toNat = 5 * 16 ^ 15 := rfl
  rw [BitVec.lt_def, ← BitVec.toNat_inj]
  omega

private lemma Holds.half (h : g.Holds f) :
    (g.digits < 0x5000000000000000 ↔ 2 * f < 1) ∧ (g.digits = 0x5000000000000000 ∧ g.xbit = false ↔ 2 * f = 1) := by
  have hle := h.le
  have hlt := h.lt
  obtain ⟨hl, heq⟩ := decimals_half h.isPacked
  rw [hl, heq, ← Bool.not_eq_true, h.sticky]
  refine ⟨⟨fun hd => ?_, fun hf => ?_⟩, ⟨fun hd => ?_, fun hf => ?_⟩⟩
  · have hd' : (g.decimals : ℚ) + 1 ≤ 5 * 10 ^ 15 := by exact_mod_cast hd
    linarith
  · have hd' : (g.decimals : ℚ) < 5 * 10 ^ 15 := by linarith
    exact_mod_cast hd'
  · have hd' : (g.decimals : ℚ) = 5 * 10 ^ 15 := by exact_mod_cast hd.1
    linarith
  have h1 : (g.decimals : ℚ) ≤ 5 * 10 ^ 15 := by linarith
  have h2 : (5 * 10 ^ 15 : ℚ) < g.decimals + 1 := by linarith
  have h1' : g.decimals ≤ 5 * 10 ^ 15 := by exact_mod_cast h1
  have h2' : 5 * 10 ^ 15 < g.decimals + 1 := by exact_mod_cast h2
  have hd : g.decimals = 5 * 10 ^ 15 := by omega
  refine ⟨hd, fun hm => ?_⟩
  rw [hd] at hm
  push_cast at hm
  linarith

private lemma Holds.changes_nearest (h : g.Holds f) (m : ℕ) : g.changes .toNearest m = toNearest.away g.sbit m f := by
  obtain ⟨hl, heq⟩ := h.half
  rw [changes, away]
  rcases lt_trichotomy (2 * f) 1 with hf | hf | hf
  · have hlow := hl.2 hf
    have hr : g.round .toNearest = -1 := by
      rw [round, if_neg (fun hgt => BitVec.lt_irrefl _ (BitVec.lt_trans hgt hlow)), if_pos hlow]
    simp [hr, hf.ne, hf.not_gt]
  · obtain ⟨hd, hx⟩ := heq.2 hf
    have hr : g.round .toNearest = 0 := by
      rw [round, hd, if_neg (BitVec.lt_irrefl _), if_neg (BitVec.lt_irrefl _), if_neg (by simp [hx])]
    simp [hr, hf]
    rfl
  · have hh := (not_congr hl).2 hf.not_gt
    have hr : g.round .toNearest = 1 := by
      rw [round]
      split
      · rfl
      rename_i hn
      have hd : g.digits = 0x5000000000000000 := BitVec.le_antisymm (BitVec.not_lt.1 hn) (BitVec.not_lt.1 hh)
      have hx : g.xbit = true := by
        by_contra hx
        exact hf.ne' (heq.1 ⟨hd, by simpa using hx⟩)
      rw [if_pos hx]
    simp [hr, hf]

/-- The verdict of the guard is the one of the fraction that it holds. -/
private lemma Holds.changes_eq (h : g.Holds f) (mode : RoundingMode) (m : ℕ) :
    g.changes mode m = mode.away g.sbit m f := by
  have hnz := h.toSticky.nonzero_iff
  cases mode with
  | toNearest => exact h.changes_nearest m
  | towardsZero => rfl
  | downward | upward =>
    rw [Bool.eq_iff_iff, changes_iff (by decide), hnz]
    simp [outward, away]

end Guard

namespace Number

variable {mode : RoundingMode} {lim : MantissaLimits} {x : Number} {g : Guard} {f : ℚ} {location : String}

private lemma magnitude_external (hx : x.Normal lim) : (x.external.1 : ℚ) * 10 ^ x.external.2 = x.magnitude := by
  rw [external]
  split
  case isTrue hl =>
    have hr : x.mantissa % 10 = 0 := by
      rcases hx with rfl | hx
      · rfl
      · exact hx.rep.resolve_left (by omega)
    have hd : (x.mantissa : ℚ) = (x.mantissa / 10 : ℕ) * 10 := by
      have : x.mantissa = x.mantissa / 10 * 10 := by omega
      exact_mod_cast this
    rw [magnitude, hd, ten_zpow_add_one]
    ring
  case isFalse => rfl

private lemma external_le (hx : x.Normal lim) : x.external.1 ≤ kMaxRep := by
  have hlt := hx.mantissa_lt
  have hr : kMaxRep = 9223372036854775807 := rfl
  rw [external]
  split
  · omega
  · dsimp only
    omega

private lemma raiseRep_eq (offset : ℕ) {drops : ℕ} (h : drops ≤ kMaxRep) :
    raiseRep offset drops = if drops * 10 ^ offset ≤ kMaxRep then .ok (drops * 10 ^ offset)
      else .error (.overflowError "Number::operator rep() overflow") := by
  induction offset generalizing drops with
  | zero =>
    rw [pow_zero, mul_one, if_pos h]
    rfl
  | succ offset ih =>
    have hp : drops * 10 ≤ drops * 10 ^ (offset + 1) := Nat.mul_le_mul_left _ (Nat.le_self_pow (by omega) 10)
    rw [raiseRep]
    split
    · rw [if_neg (by omega)]
      rfl
    · rw [ih (by omega), mul_assoc, ← pow_succ']

private lemma doRound_eq (hg : g.Holds f) {drops k : ℕ} (hk : k = drops + (mode.away g.sbit drops f).toNat)
    (hle : k ≤ kMaxRep) : doRound mode location g drops = .ok (if g.sbit then -(k : ℤ) else k) := by
  rw [doRound, hg.changes_eq]
  cases ha : mode.away g.sbit drops f with
  | false =>
    rw [ha] at hk
    subst hk
    rfl
  | true =>
    rw [ha, Bool.toNat_true] at hk
    subst hk
    rw [if_pos rfl, if_neg (by omega)]
    rfl

/-- The integer part and the fraction of the magnitude, and what `toRep` makes of them. -/
lemma toRep_split (hx : x.Normal lim) (mode : RoundingMode) :
    ∃ (m k : ℕ) (f : ℚ), 0 ≤ f ∧ f < 1 ∧ x.magnitude = m + f ∧ k = m + (mode.away x.negative m f).toNat ∧
      toRep mode x = if k ≤ kMaxRep then .ok (if x.negative then -(k : ℤ) else k)
        else .error (.overflowError "Number::operator rep() overflow") := by
  have hr : kMaxRep = 9223372036854775807 := rfl
  have hle := external_le hx
  have ha : ∀ m, mode.away x.negative m 0 = false := fun m => by cases mode <;> simp [away]
  rw [← magnitude_external hx, toRep]
  generalize x.external = p at hle ⊢
  obtain ⟨drops, offset⟩ := p
  dsimp only at *
  by_cases hdr : drops = 0
  · refine ⟨0, 0, 0, le_rfl, zero_lt_one, by simp [hdr], by rw [ha]; rfl, ?_⟩
    rw [if_pos hdr, if_pos (by decide)]
    cases x.negative <;> rfl
  rw [if_neg hdr]
  have hlt : drops < 2 ^ MantissaType.uint64.bits := by
    rw [MantissaType.bits]
    omega
  have hh := (Guard.holds_empty x.negative).dropDigits (T := .uint64)
    (x := { mantissa := drops, exponent := offset }) hlt (-offset).toNat
  have hs := Guard.dropDigits_sbit (g := { sbit := x.negative }) (T := .uint64)
    (x := { mantissa := drops, exponent := offset }) hlt (-offset).toNat
  rw [Guard.dropDigits_number (T := .uint64) hlt]
  generalize (Guard.dropDigits _ _ _ _).1 = g at *
  dsimp only at *
  -- one of the two loops does nothing
  rcases le_total 0 offset with ho | ho
  · obtain ⟨e, rfl⟩ := Int.eq_ofNat_of_zero_le ho
    have h0 : (-(e : ℤ)).toNat = 0 := by omega
    rw [h0, pow_zero, Nat.mod_one, Nat.cast_zero, add_zero, zero_div] at hh
    refine ⟨drops * 10 ^ e, drops * 10 ^ e, 0, le_rfl, zero_lt_one, by push_cast; simp, by rw [ha]; rfl, ?_⟩
    rw [h0, pow_zero, Nat.div_one, Int.toNat_natCast, raiseRep_eq e hle]
    split
    case isFalse => rfl
    case isTrue hf =>
      rw [← hs]
      exact doRound_eq hh (by rw [hs, ha]; rfl) hf
  · obtain ⟨e, he⟩ := Int.eq_ofNat_of_zero_le (neg_nonneg.2 ho)
    obtain rfl : offset = -(e : ℤ) := by omega
    have hpos : (0 : ℚ) < 10 ^ e := by positivity
    have h0 : (-(e : ℤ)).toNat = 0 := by omega
    rw [neg_neg, add_zero] at hh
    have hspl : (drops : ℚ) = 10 ^ e * (drops / 10 ^ e : ℕ) + (drops % 10 ^ e : ℕ) := by
      exact_mod_cast (Nat.div_add_mod drops (10 ^ e)).symm
    have hf : drops / 10 ^ e + (mode.away x.negative (drops / 10 ^ e) ((drops % 10 ^ e : ℕ) / 10 ^ e)).toNat ≤
        kMaxRep := by
      have hb := Bool.toNat_le (mode.away x.negative (drops / 10 ^ e) ((drops % 10 ^ e : ℕ) / 10 ^ e))
      rcases Nat.eq_zero_or_pos e with rfl | hpos
      · simp [Nat.mod_one, ha, hle]
      · have hd : drops / 10 ^ e ≤ drops / 10 := Nat.div_le_div_left (Nat.le_self_pow hpos.ne' 10) (by decide)
        omega
    refine ⟨drops / 10 ^ e, _, (drops % 10 ^ e : ℕ) / 10 ^ e, by positivity, ?_, ?_, rfl, ?_⟩
    · rw [div_lt_one hpos]
      exact_mod_cast Nat.mod_lt _ (by positivity)
    · rw [zpow_neg, zpow_natCast]
      conv_lhs => rw [hspl]
      field_simp
    · rw [h0, neg_neg, if_pos hf, ← hs]
      exact doRound_eq hh rfl (hs ▸ hf)

/-- The conversion to an integer rounds the exact value as the mode says, and throws if the result does not fit. -/
theorem toRep_rounded (mode : RoundingMode) (x : Number) (hx : x.isnormal .large = true) :
    toRep mode x = if (mode.roundInt x.toRat).natAbs ≤ kMaxRep then .ok (mode.roundInt x.toRat)
      else .error (.overflowError "Number::operator rep() overflow") := by
  obtain ⟨m, k, f, h0, h1, hvl, hk, hr⟩ := toRep_split (isnormal_iff.1 hx) mode
  rw [hr, toRat, hvl, roundInt_signed mode m _ h0 h1 hk]
  cases x.negative
  · rfl
  · rw [if_pos rfl, Int.natAbs_neg]
    rfl

theorem toRep_rounded_half : let x : Number := { negative := true, mantissa := 2500000000000000000, exponent := -18 }
    x.isnormal .large = true ∧ toRep .toNearest x = if (roundInt .toNearest x.toRat).natAbs ≤ kMaxRep then
        .ok (roundInt .toNearest x.toRat) else .error (.overflowError "Number::operator rep() overflow") :=
  ⟨by decide, toRep_rounded _ _ (by decide)⟩

end Number

end Xrpl.Basics

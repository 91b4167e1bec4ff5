import Xrpl.Basics.Number
import Xrpl.Lib.PackedDecimal

/-!
# What a guard holds

The digits that an operation drops from a mantissa form a fraction `f` of the last digit that is kept.

* `Guard.Holds g f`: the digits of `g` are the first sixteen decimals of `f`, and its sticky bit says whether there are
  more.  Pushing a digit `d` makes it hold `(d + f) / 10`, popping takes the first decimal off.
* `Guard.Sticky g f` keeps only what directed rounding needs: `g` knows whether `f` is zero.
* `Stands g x X`: the number `x`, with the fraction its guard holds, is the magnitude `X`.  Dropping digits does not
  change it.
-/

namespace Xrpl.Basics

open BitVec Guard

namespace Guard

@[simp]
lemma push_sbit (g : Guard) (d : BitVec 32) : (g.push d).sbit = g.sbit := rfl

@[simp]
lemma pop_xbit (g : Guard) : g.pop.2.xbit = g.xbit := rfl

private lemma and_fifteen (n : ℕ) : n &&& 15 = n % 16 := Nat.and_two_pow_sub_one_eq_mod n 4

variable {g : Guard} {d : BitVec 32} {f : ℚ}

private lemma push_digits (hd : d.toNat ≤ 9) : (g.push d).digits.toNat = g.digits.toNat / 16 + d.toNat * 16 ^ 15 := by
  have hl : g.digits.toNat >>> 4 < 2 ^ 60 := by
    omega
  have hh : (d.toNat % 2 ^ 64 &&& 15) <<< 60 % 2 ^ 64 = d.toNat <<< 60 := by
    rw [and_fifteen, Nat.shiftLeft_eq, Nat.shiftLeft_eq]
    omega
  have hp : (g.push d).digits.toNat = g.digits.toNat >>> 4 ||| (d.toNat % 2 ^ 64 &&& 15) <<< 60 % 2 ^ 64 := by
    simp [push]
  rw [hp, hh, Nat.or_comm, ← Nat.shiftLeft_add_eq_or_of_lt hl, Nat.shiftLeft_eq, Nat.shiftRight_eq_div_pow]
  omega

private lemma push_xbit (g : Guard) (d : BitVec 32) :
    (g.push d).xbit = true ↔ g.xbit = true ∨ g.digits.toNat % 16 ≠ 0 := by
  have hm : (g.digits &&& 0xF) = 0 ↔ g.digits.toNat % 16 = 0 := by
    rw [← toNat_inj]
    simp [and_fifteen]
  simp only [push, Bool.or_eq_true, bne_iff_ne, ne_eq, hm]

lemma pop_digit (g : Guard) : g.pop.1 = g.digits.toNat / 16 ^ 15 := by
  have hp : g.pop.1 = (g.digits.toNat &&& 0xF000000000000000) >>> 60 := by
    simp [pop]
  rw [hp, Nat.shiftRight_and_distrib, Nat.shiftRight_eq_div_pow, Nat.shiftRight_eq_div_pow]
  rw [and_fifteen]
  omega

lemma pop_digits (g : Guard) : g.pop.2.digits.toNat = g.digits.toNat % 16 ^ 15 * 16 := by
  simp only [pop, toNat_shiftLeft, Nat.shiftLeft_eq]
  omega

/-! ### The fraction -/

def decimals (g : Guard) : ℕ := packed 16 g.digits.toNat

private lemma decimals_push (h : IsPacked 16 g.digits.toNat) (hd : d.toNat ≤ 9) :
    (g.push d).decimals = g.decimals / 10 + d.toNat * 10 ^ 15 := by
  rw [decimals, decimals, push_digits hd, packed_shiftIn h hd]

lemma decimals_pop (h : IsPacked 16 g.digits.toNat) : g.decimals * 10 = g.pop.2.decimals + g.pop.1 * 10 ^ 16 := by
  rw [decimals, decimals, pop_digits, pop_digit]
  exact packed_shiftOut h

/-- The digits of the guard are the first sixteen decimals of `f`, and the sticky bit says whether there are more. -/
structure Holds (g : Guard) (f : ℚ) : Prop where
  isPacked : IsPacked 16 g.digits.toNat
  le : (g.decimals : ℚ) ≤ f * 10 ^ 16
  lt : f * 10 ^ 16 < g.decimals + 1
  sticky : g.xbit = true ↔ (g.decimals : ℚ) < f * 10 ^ 16

def Nonzero (g : Guard) : Prop := 0 < g.digits ∨ g.xbit = true

/-- The guard knows whether the fraction `f` is zero. -/
structure Sticky (g : Guard) (f : ℚ) : Prop where
  nonneg : 0 ≤ f
  lt_one : f < 1
  nonzero_iff : g.Nonzero ↔ 0 < f

lemma nonzero_iff_toNat (g : Guard) : g.Nonzero ↔ g.digits.toNat ≠ 0 ∨ g.xbit = true := by
  rw [Nonzero, lt_def, ← Nat.pos_iff_ne_zero]
  rfl

lemma Holds.toSticky (h : g.Holds f) : g.Sticky f := by
  have hle := h.le
  have hlt := h.lt
  have hbd : (g.decimals : ℚ) + 1 ≤ 10 ^ 16 := by exact_mod_cast h.isPacked.lt
  have hz := h.isPacked.eq_zero_iff
  refine ⟨by linarith, by linarith, ?_⟩
  rw [nonzero_iff_toNat, h.sticky]
  constructor
  · rintro (hd | hm)
    · have hpos : (0 : ℚ) < g.decimals := by
        exact_mod_cast Nat.pos_of_ne_zero (fun hp => hd (hz.1 hp))
      linarith
    · linarith
  · intro hf
    by_cases hd : g.digits.toNat = 0
    · right
      rw [decimals, hd, packed_zero_right]
      simpa using hf
    · exact .inl hd

lemma holds_empty (sbit : Bool) : Holds { sbit } 0 where
  isPacked := isPacked_zero_right 16
  le := by simp [decimals]
  lt := by simp [decimals]
  sticky := by simp [decimals]

private lemma Holds.eq_of_xbit (h : g.Holds f) (hx : g.xbit = false) : f * 10 ^ 16 = g.decimals := by
  have hle := h.le
  have hs := h.sticky
  rw [hx] at hs
  have hn : ¬ (g.decimals : ℚ) < f * 10 ^ 16 := fun hlt => by simpa using hs.2 hlt
  linarith

lemma Holds.xbit_of_integral (h : g.Holds f) {k : ℕ} (hk : f * 10 ^ 16 = k) : g.xbit = false := by
  have hle := h.le
  have hlt := h.lt
  rw [hk] at hle hlt
  have hle' : g.decimals ≤ k := by exact_mod_cast hle
  have hlt' : k < g.decimals + 1 := by exact_mod_cast hlt
  have heq : g.decimals = k := by omega
  rw [← Bool.not_eq_true, h.sticky, hk, heq]
  exact lt_irrefl _

private lemma Holds.push (h : g.Holds f) (hd : d.toNat ≤ 9) : (g.push d).Holds ((d.toNat + f) / 10) := by
  have hp := h.isPacked
  have hle := h.le
  have hlt := h.lt
  have hr := decimals_push hp hd
  have hl : g.decimals % 10 = g.digits.toNat % 16 := packed_mod_ten hp
  have hs := h.sticky
  have hspl : (g.decimals : ℚ) = 10 * (g.decimals / 10 : ℕ) + (g.decimals % 10 : ℕ) := by
    exact_mod_cast (Nat.div_add_mod _ 10).symm
  have hdi : ((g.decimals % 10 : ℕ) : ℚ) + 1 ≤ 10 := by
    exact_mod_cast Nat.mod_lt _ (by norm_num : 10 > 0)
  refine ⟨?_, ?_, ?_, ?_⟩
  · rw [push_digits hd]
    exact hp.2.add_top hd
  · rw [hr]
    push_cast
    linarith
  · rw [hr]
    push_cast
    linarith
  rw [push_xbit, hs, ← hl, hr]
  push_cast
  constructor
  · rintro (hm | hmod)
    · linarith
    · have : (0 : ℚ) < (g.decimals % 10 : ℕ) := by exact_mod_cast Nat.pos_of_ne_zero hmod
      linarith
  · intro hm
    by_cases hmod : g.decimals % 10 = 0
    · rw [hmod] at hspl
      left
      linarith
    · exact .inr hmod

lemma Sticky.push (h : g.Sticky f) (hd : d.toNat ≤ 9) : (g.push d).Sticky ((d.toNat + f) / 10) := by
  have hnn := h.nonneg
  have hlt := h.lt_one
  have hd' : (d.toNat : ℚ) ≤ 9 := by exact_mod_cast hd
  refine ⟨by positivity, by linarith, ?_⟩
  have hi := h.nonzero_iff
  rw [nonzero_iff_toNat] at hi
  rw [nonzero_iff_toNat, push_digits hd, push_xbit]
  have hdig : g.digits.toNat / 16 + d.toNat * 16 ^ 15 ≠ 0 ∨ g.xbit = true ∨ g.digits.toNat % 16 ≠ 0 ↔
      d.toNat ≠ 0 ∨ g.digits.toNat ≠ 0 ∨ g.xbit = true := by
    constructor <;> intro hor
    · rcases hor with h1 | h1 | h1
      · omega
      · exact .inr (.inr h1)
      · omega
    · rcases hor with h1 | h1 | h1
      · left
        omega
      · by_cases hm : g.digits.toNat % 16 = 0
        · left
          omega
        · exact .inr (.inr hm)
      · exact .inr (.inl h1)
  rw [hdig, hi]
  constructor
  · rintro (hd0 | hf)
    · positivity
    · positivity
  intro hs
  by_cases hd0 : d.toNat = 0
  · right
    rw [hd0] at hs
    linarith
  · exact .inl hd0

lemma Holds.pop (h : g.Holds f) (hx : g.xbit = false) : g.pop.2.Holds (10 * f - g.pop.1) := by
  have heq := h.eq_of_xbit hx
  have hc : (g.decimals : ℚ) * 10 = g.pop.2.decimals + g.pop.1 * 10 ^ 16 := by
    exact_mod_cast decimals_pop h.isPacked
  have hr : (10 * f - g.pop.1) * 10 ^ 16 = g.pop.2.decimals := by linarith
  refine ⟨?_, hr.ge, ?_, ?_⟩
  · rw [pop_digits]
    exact h.isPacked.shiftOut
  · rw [hr]
    exact lt_add_one _
  · rw [pop_xbit, hx, hr]
    exact ⟨fun h => absurd h Bool.false_ne_true, fun h => absurd h (lt_irrefl _)⟩

end Guard

lemma MantissaType.le_bits (T : MantissaType) : 2 ^ 64 ≤ 2 ^ T.bits := by
  cases T <;> decide

variable {T : MantissaType}

lemma MantissaType.wrap_of_lt {m : ℕ} (h : m < 2 ^ 64) : T.wrap m = m := Nat.mod_eq_of_lt (h.trans_le T.le_bits)

namespace Guard

/-- Both versions of `doDropDigit` divide the mantissa by ten. -/
lemma doDropDigit_eq {g : Guard} {x : Number} (hx : x.mantissa < 2 ^ T.bits) : g.doDropDigit T x =
      (g.push (.ofNat 32 (x.mantissa % 10)), { x with mantissa := x.mantissa / 10, exponent := x.exponent + 1 }) := by
  cases T with
  | uint64 => rfl
  | uint128 =>
    have hu : (BitVec.ofNat 128 x.mantissa).toNat = x.mantissa := by
      exact Nat.mod_eq_of_lt hx
    obtain ⟨hr, hq⟩ := divu10_spec (.ofNat 128 x.mantissa)
    rw [hu] at hr hq
    have hr' : (divu10 (.ofNat 128 x.mantissa)).1 = .ofNat 32 (x.mantissa % 10) := by
      apply eq_of_toNat_eq
      rw [hr, toNat_ofNat]
      omega
    change (g.push (divu10 (.ofNat 128 x.mantissa)).1,
      { x with mantissa := (divu10 (.ofNat 128 x.mantissa)).2.toNat, exponent := x.exponent + 1 }) = _
    rw [hr', hq]

lemma toNat_digit (m : ℕ) : (BitVec.ofNat 32 (m % 10)).toNat = m % 10 := by
  rw [toNat_ofNat]
  omega

end Guard

def Number.magnitude (x : Number) : ℚ := x.mantissa * 10 ^ x.exponent

def Number.toRat (x : Number) : ℚ := if x.negative then -x.magnitude else x.magnitude

lemma Number.toRat_kZero : kZero.toRat = 0 := by
  simp [toRat, kZero, magnitude]

/-- The number `x`, with the fraction that its guard has seen, is the magnitude `X`. -/
def Stands (g : Guard) (x : Number) (X : ℚ) : Prop :=
  ∃ f, g.Sticky f ∧ X = (x.mantissa + f) * 10 ^ x.exponent

lemma ten_zpow_add_one (e : ℤ) : (10 : ℚ) ^ (e + 1) = 10 ^ e * 10 := zpow_add_one₀ (by norm_num) e

variable {g : Guard} {x : Number} {X : ℚ}

lemma Stands.drop (h : Stands g x X)
    (hx : x.mantissa < 2 ^ T.bits) : Stands (g.doDropDigit T x).1 (g.doDropDigit T x).2 X := by
  obtain ⟨f, hf, rfl⟩ := h
  rw [doDropDigit_eq hx]
  have hd : (BitVec.ofNat 32 (x.mantissa % 10)).toNat = x.mantissa % 10 := toNat_digit _
  have hp := hf.push (d := .ofNat 32 (x.mantissa % 10)) (by omega)
  rw [hd] at hp
  refine ⟨_, hp, ?_⟩
  have hs : (x.mantissa : ℚ) = 10 * (x.mantissa / 10 : ℕ) + (x.mantissa % 10 : ℕ) := by
    exact_mod_cast (Nat.div_add_mod _ 10).symm
  rw [ten_zpow_add_one]
  conv_lhs => rw [hs]
  ring

namespace Guard

section

variable (hx : x.mantissa < 2 ^ T.bits) (n : ℕ)

include hx n

private lemma dropDigits_succ : g.dropDigits T (n + 1) x = (g.push (.ofNat 32 (x.mantissa % 10))).dropDigits T n
      { x with mantissa := x.mantissa / 10, exponent := x.exponent + 1 } := by
  rw [dropDigits, doDropDigit_eq hx]

lemma dropDigits_number :
    (g.dropDigits T n x).2 = { x with mantissa := x.mantissa / 10 ^ n, exponent := x.exponent + n } := by
  induction n generalizing g x with
  | zero => simp [dropDigits]
  | succ n ih =>
    rw [dropDigits_succ hx, ih (lt_of_le_of_lt (Nat.div_le_self _ _) hx), Nat.div_div_eq_div_mul, ← pow_succ']
    simp only [Nat.cast_add, Nat.cast_one]
    congr 1
    omega

lemma dropDigits_sbit : (g.dropDigits T n x).1.sbit = g.sbit := by
  induction n generalizing g x with
  | zero => rfl
  | succ n ih => rw [dropDigits_succ hx, ih (lt_of_le_of_lt (Nat.div_le_self _ _) hx), push_sbit]

end

lemma Holds.dropDigits {f : ℚ} (h : g.Holds f) (hx : x.mantissa < 2 ^ T.bits) (n : ℕ) :
    (g.dropDigits T n x).1.Holds (((x.mantissa % 10 ^ n : ℕ) + f) / 10 ^ n) := by
  induction n generalizing g x f with
  | zero => simpa [dropDigits, Nat.mod_one] using h
  | succ n ih =>
    have hd := toNat_digit x.mantissa
    have hp := h.push (d := .ofNat 32 (x.mantissa % 10)) (by omega)
    rw [hd] at hp
    rw [dropDigits_succ hx]
    have hr := ih (x := { x with mantissa := x.mantissa / 10, exponent := x.exponent + 1 }) hp
      (lt_of_le_of_lt (Nat.div_le_self _ _) hx)
    have hm : x.mantissa % 10 ^ (n + 1) = x.mantissa % 10 + 10 * (x.mantissa / 10 % 10 ^ n) := by
      rw [pow_succ', Nat.mod_mul]
    convert hr using 1
    rw [hm, pow_succ]
    push_cast
    field_simp
    ring

end Guard

lemma Stands.dropDigits (h : Stands g x X)
    (hx : x.mantissa < 2 ^ T.bits) (n : ℕ) : Stands (g.dropDigits T n x).1 (g.dropDigits T n x).2 X := by
  induction n generalizing g x with
  | zero => exact h
  | succ n ih =>
    have hd := h.drop hx
    rw [doDropDigit_eq hx] at hd
    rw [dropDigits_succ hx]
    exact ih hd (lt_of_le_of_lt (Nat.div_le_self _ _) hx)

end Xrpl.Basics

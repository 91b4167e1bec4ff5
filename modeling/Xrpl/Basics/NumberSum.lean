import Xrpl.Basics.NumberNormal

/-!
# The operands of an addition

Alignment shifts the operand with the smaller exponent, and the guard holds the digits that it loses (`align_spec`).  The
loop that takes digits back after a subtraction ends (`takeBack_ends`): the value it works on is not zero, since operands
that cancel were sorted out before (`align_mantissa_ne`).
-/

namespace Xrpl.Basics

open Guard MantissaType

namespace Number

variable {lim : MantissaLimits} {x y : Number} {g : Guard}

lemma Normal.inRange (h : x.Normal lim) (hx : x ≠ kZero) : x.InRange lim := h.resolve_left hx

lemma InRange.pos (h : x.InRange lim) : 0 < x.mantissa := by
  have := lim.ten_le_min
  have := h.min_le
  omega

lemma InRange.lt_wide (h : x.InRange lim) : x.mantissa < 2 ^ 128 := (Normal.mantissa_lt (.inr h)).trans_le (by decide)

private lemma neg_of_pos (h : 0 < x.mantissa) : x.neg = { x with negative := !x.negative } := by
  rw [neg, if_neg (by omega)]

lemma Normal.neg (hx : x.Normal lim) : x.neg.Normal lim := by
  rcases hx with rfl | hx
  · exact .inl rfl
  · rw [neg_of_pos hx.pos]
    exact .inr ⟨hx.min_le, hx.le_max, hx.rep, hx.minExponent_le, hx.le_maxExponent⟩

private lemma eq_neg (hy : 0 < y.mantissa) (hs : x.negative ≠ y.negative) (hm : x.mantissa = y.mantissa)
    (he : x.exponent = y.exponent) : x = y.neg := by
  have hs' : x.negative = !y.negative := by
    cases hx : x.negative <;> cases hy : y.negative <;> simp_all
  rw [neg_of_pos hy, ← hs', ← hm, ← he]

/-- The operand `x` of an addition has become `x'` by losing its `n` last digits to the guard. -/
structure Shifted (x : Number) (n : ℕ) (g : Guard) (x' : Number) : Prop where
  holds : g.Holds ((x.mantissa % 10 ^ n : ℕ) / 10 ^ n)
  sbit : g.sbit = (decide (0 < n) && x.negative)
  eq : x' = { x with mantissa := x.mantissa / 10 ^ n, exponent := x.exponent + n }

private lemma shifted_dropDigits (hx : x.mantissa < 2 ^ 128) {n : ℕ} (hn : 0 < n) :
    Shifted x n (dropDigits .uint128 n { sbit := x.negative } x).1
      (dropDigits .uint128 n { sbit := x.negative } x).2 where
  holds := by simpa using (holds_empty x.negative).dropDigits (T := .uint128) hx n
  sbit := by simpa [hn] using dropDigits_sbit (T := .uint128) hx n
  eq := dropDigits_number (T := .uint128) hx n

lemma align_spec (hx : x.mantissa < 2 ^ 128) (hy : y.mantissa < 2 ^ 128) :
    ∃ n : ℕ, (Shifted x n (align x y).1 (align x y).2.1 ∧ (align x y).2.2 = y ∧ x.exponent + n = y.exponent) ∨
      (Shifted y n (align x y).1 (align x y).2.2 ∧ (align x y).2.1 = x ∧ y.exponent + n = x.exponent) := by
  rw [align]
  split
  · exact ⟨_, .inl ⟨shifted_dropDigits hx (by omega), rfl, by omega⟩⟩
  · split
    · exact ⟨_, .inr ⟨shifted_dropDigits hy (by omega), rfl, by omega⟩⟩
    · exact ⟨0, .inl ⟨⟨by simpa [Nat.mod_one] using holds_empty false, rfl, by simp⟩, rfl, by push_cast; omega⟩⟩

lemma Shifted.lt_min {x' : Number} {n : ℕ} (h : Shifted x n g x') (hn : 0 < n)
    (hx : x.InRange lim) : x'.mantissa < lim.min := by
  have hmax := lim.max_add_one
  have hle := hx.le_max
  have ht : 10 ≤ 10 ^ n := Nat.le_self_pow hn.ne' 10
  rw [h.eq]
  refine Nat.div_lt_of_lt_mul ?_
  calc x.mantissa < 10 * lim.min := by omega
    _ ≤ 10 ^ n * lim.min := Nat.mul_le_mul_right _ ht

lemma align_mantissa_ne (hx : x.InRange lim) (hy : y.InRange lim)
    (hs : x.negative ≠ y.negative) (hne : x ≠ y.neg) : (align x y).2.1.mantissa ≠ (align x y).2.2.mantissa := by
  have hxm := hx.min_le
  have hym := hy.min_le
  obtain ⟨n, ⟨hsh, ho, he⟩ | ⟨hsh, ho, he⟩⟩ := align_spec hx.lt_wide hy.lt_wide
  · rcases Nat.eq_zero_or_pos n with rfl | hn
    · rw [ho, hsh.eq]
      exact fun hm => hne (eq_neg hy.pos hs (by simpa using hm) (by simpa using he))
    · have := hsh.lt_min hn hx
      rw [ho]
      omega
  · rcases Nat.eq_zero_or_pos n with rfl | hn
    · rw [ho, hsh.eq]
      exact fun hm => hne (eq_neg hy.pos hs (by simpa using hm) (by simpa using he.symm))
    · have := hsh.lt_min hn hy
      rw [ho]
      omega

lemma align_isPacked (hx : x.mantissa < 2 ^ 128) (hy : y.mantissa < 2 ^ 128) :
    IsPacked 16 (align x y).1.digits.toNat := by
  obtain ⟨n, h | h⟩ := align_spec hx hy
  · exact h.1.holds.isPacked
  · exact h.1.holds.isPacked

lemma align_negative (hx : x.mantissa < 2 ^ 128) (hy : y.mantissa < 2 ^ 128) :
    (align x y).2.1.negative = x.negative ∧ (align x y).2.2.negative = y.negative := by
  obtain ⟨n, ⟨hsh, ho, -⟩ | ⟨hsh, ho, -⟩⟩ := align_spec hx hy
  · rw [ho, hsh.eq]
    exact ⟨rfl, rfl⟩
  · rw [ho, hsh.eq]
    exact ⟨rfl, rfl⟩

lemma difference_pos (h : x.mantissa ≠ y.mantissa) : 0 < (difference x y).mantissa := by
  rw [difference]
  split <;> dsimp only <;> omega

lemma pop_le (hg : IsPacked 16 g.digits.toNat) : g.pop.1 ≤ 9 := by
  rw [pop_digit]
  exact hg.split_top.2

lemma takeBack_mantissa {m d : ℕ} (hm : 0 < m) (hm' : m < 10 ^ 18) (hd : d ≤ 9) :
    uint128.wrap (uint128.wrap (m * 10) + 2 ^ 128 - d) = m * 10 - d := by
  rw [wrap_of_lt (m := m * 10) (by omega)]
  change (m * 10 + 2 ^ 128 - d) % 2 ^ 128 = _
  omega

/-- The loop that takes guard digits back ends.  With the guard digits taken off the mantissa it holds a value that is
not zero, and each round multiplies this value by ten. -/
private lemma takeBack_ends (lim : MantissaLimits) {fuel j : ℕ}
    (hg : IsPacked 16 g.digits.toNat) (hx : g.decimals + 10 ^ j ≤ x.mantissa * 10 ^ 16) (hj : 34 ≤ fuel + j) :
    Meets Failure.IsOverflow (g.takeBack lim fuel x) (fun _ => True) := by
  have hmin := lim.min_le
  induction fuel generalizing j g x with
  | zero =>
    have hp : 10 ^ 34 ≤ 10 ^ j := Nat.pow_le_pow_right (by norm_num) (by omega)
    rw [takeBack, if_neg (by omega)]
    trivial
  | succ fuel ih =>
    rw [takeBack]
    split
    case isTrue hc =>
      have hpos : 0 < 10 ^ j := by positivity
      have hd := pop_le hg
      have hpop := decimals_pop hg
      dsimp only
      rw [takeBack_mantissa (by omega) (by omega) hd]
      refine ih (j := j + 1) ?_ ?_ (by omega)
      · rw [pop_digits]
        exact hg.shiftOut
      · dsimp only
        omega
    case isFalse => trivial

lemma subMagnitudes_throws (scale : MantissaScale) (mode : RoundingMode) (hg : IsPacked 16 g.digits.toNat)
    (hne : x.mantissa ≠ y.mantissa) : Meets Failure.IsOverflow (subMagnitudes scale mode g x y) (fun _ => True) := by
  have hpos := difference_pos hne
  have hd : g.decimals < 10 ^ 16 := hg.lt
  rw [subMagnitudes]
  exact (takeBack_ends _ (j := 0) hg (by omega) (by norm_num)).bind fun _ _ => trivial

end Number

end Xrpl.Basics

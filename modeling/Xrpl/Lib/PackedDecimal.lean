import Mathlib.Tactic.Ring

/-!
# Packed decimal digits

A number whose hexadecimal digits are all below ten is read as the decimal number with the same digits.

* `packed n d` is the decimal reading of the `n` low hexadecimal digits of `d`, `IsPacked n d` says that `d` has no more
  digits than these and that each of them is a decimal one.
* Shifting the digits right, with a new one entering at the top (`packed_shiftIn`), divides the reading by ten;
  shifting them left, with the top one leaving (`packed_shiftOut`), multiplies what is left by ten.
-/

/-- The decimal reading of the `n` low hexadecimal digits of `d`. -/
def packed : ℕ → ℕ → ℕ
  | 0, _ => 0
  | n + 1, d => d % 16 + 10 * packed n (d / 16)

/-- `d` has at most `n` hexadecimal digits, and they are decimal digits. -/
def IsPacked : ℕ → ℕ → Prop
  | 0, d => d = 0
  | n + 1, d => d % 16 ≤ 9 ∧ IsPacked n (d / 16)

@[simp]
lemma packed_zero_right (n : ℕ) : packed n 0 = 0 := by
  induction n with
  | zero => rfl
  | succ n ih => simp [packed, ih]

@[simp]
lemma isPacked_zero_right (n : ℕ) : IsPacked n 0 := by
  induction n with
  | zero => rfl
  | succ n ih => simp [IsPacked, ih]

variable {n d c : ℕ}

lemma IsPacked.lt (h : IsPacked n d) : packed n d < 10 ^ n := by
  induction n generalizing d with
  | zero => simp [packed]
  | succ n ih =>
    have hr := ih h.2
    have hl := h.1
    rw [packed]
    omega

lemma IsPacked.eq_zero_iff (h : IsPacked n d) : packed n d = 0 ↔ d = 0 := by
  induction n generalizing d with
  | zero => simpa [packed, IsPacked] using h
  | succ n ih =>
    have hr := ih h.2
    rw [packed]
    omega

lemma packed_mod_ten (h : IsPacked (n + 1) d) : packed (n + 1) d % 10 = d % 16 := by
  have hl := h.1
  rw [packed]
  omega

private lemma packed_div_ten (h : IsPacked (n + 1) d) : packed (n + 1) d / 10 = packed n (d / 16) := by
  have hl := h.1
  rw [packed]
  omega

private lemma packed_add_top (hd : d < 16 ^ n) (hc : c < 16) : packed (n + 1)
    (d + c * 16 ^ n) = packed n d + c * 10 ^ n := by
  induction n generalizing d with
  | zero =>
    obtain rfl : d = 0 := by simpa using hd
    simp [packed, Nat.mod_eq_of_lt hc]
  | succ n ih =>
    have hs : d + c * 16 ^ (n + 1) = d + 16 * (c * 16 ^ n) := by ring
    have hr := ih (d := d / 16) (by rw [pow_succ] at hd; omega)
    rw [packed, hs, Nat.add_mul_mod_self_left, Nat.add_mul_div_left _ _ (by norm_num), hr, packed]
    ring

lemma IsPacked.add_top (h : IsPacked n d) (hc : c ≤ 9) : IsPacked (n + 1) (d + c * 16 ^ n) := by
  induction n generalizing d with
  | zero =>
    obtain rfl : d = 0 := h
    have hsm : c < 16 := by omega
    simp [IsPacked, Nat.mod_eq_of_lt hsm, hc, hsm]
  | succ n ih =>
    have hs : d + c * 16 ^ (n + 1) = d + 16 * (c * 16 ^ n) := by ring
    rw [IsPacked, hs, Nat.add_mul_mod_self_left, Nat.add_mul_div_left _ _ (by norm_num)]
    exact ⟨h.1, ih h.2⟩

private lemma IsPacked.lt_hex (h : IsPacked n d) : d < 16 ^ n := by
  induction n generalizing d with
  | zero =>
    obtain rfl : d = 0 := h
    simp
  | succ n ih =>
    have hr := ih h.2
    omega

section

variable (h : IsPacked (n + 1) d)

include h

lemma IsPacked.split_top : IsPacked n (d % 16 ^ n) ∧ d / 16 ^ n ≤ 9 := by
  induction n generalizing d with
  | zero =>
    have hl := h.1
    obtain hh : d / 16 = 0 := h.2
    simp only [IsPacked]
    omega
  | succ n ih =>
    obtain ⟨hr, ht⟩ := ih h.2
    have hm : d % 16 ^ (n + 1) % 16 = d % 16 := Nat.mod_mod_of_dvd _ (dvd_pow_self 16 (by omega))
    have hd : d % 16 ^ (n + 1) / 16 = d / 16 % 16 ^ n := by
      rw [pow_succ', Nat.mod_mul_right_div_self]
    rw [IsPacked, hm, hd, pow_succ', ← Nat.div_div_eq_div_mul]
    exact ⟨⟨h.1, hr⟩, ht⟩

/-- Shifting right: the low digit is lost, the rest is divided by ten, the new digit is the leading one. -/
lemma packed_shiftIn (hc : c ≤ 9) : packed (n + 1) (d / 16 + c * 16 ^ n) = packed (n + 1) d / 10 + c * 10 ^ n := by
  rw [packed_add_top h.2.lt_hex (by omega), packed_div_ten h]

lemma IsPacked.shiftOut : IsPacked (n + 1) (d % 16 ^ n * 16) := by
  rw [IsPacked, Nat.mul_div_cancel _ (by norm_num)]
  exact ⟨by norm_num, h.split_top.1⟩

lemma packed_shiftOut : packed (n + 1) d * 10 = packed (n + 1) (d % 16 ^ n * 16) + d / 16 ^ n * 10 ^ (n + 1) := by
  obtain ⟨hl, ht⟩ := h.split_top
  have hd : d % 16 ^ n + d / 16 ^ n * 16 ^ n = d := by
    rw [Nat.mul_comm, Nat.mod_add_div]
  have hr : packed (n + 1) d = packed n (d % 16 ^ n) + d / 16 ^ n * 10 ^ n := by
    conv_lhs => rw [← hd]
    exact packed_add_top hl.lt_hex (by omega)
  rw [hr, packed, Nat.mul_mod_left, Nat.mul_div_cancel _ (by norm_num)]
  ring

end


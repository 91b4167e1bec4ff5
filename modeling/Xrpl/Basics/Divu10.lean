import Mathlib.Data.Nat.Cast.Order.Field
import Mathlib.Tactic.FieldSimp
import Mathlib.Tactic.Linarith
import Mathlib.Tactic.Ring

/-!
# Division by ten with shifts and additions

`divu10` divides an unsigned 128-bit integer by ten.  The quotient starts at three quarters of the number; adding to it
its own `2 ^ -4`, `2 ^ -8`, … part brings it close to four fifths, since `(1 - 1 / K) * (1 + 1 / K) = 1 - 1 / K ^ 2`.
Each addition rounds down once, so the error stays below what the final correction repairs.  No sum overflows, so the
same steps on numbers of any size give the same (`divu10_exact`).
-/

namespace Xrpl.Basics

open BitVec

/-- The remainder of `u` by ten, and the quotient that replaces `u`. -/
def divu10 (u : BitVec 128) : BitVec 32 × BitVec 128 :=
  let q := (u >>> 1) + (u >>> 2)
  let q := q + q >>> 4
  let q := q + q >>> 8
  let q := q + q >>> 16
  let q := q + q >>> 32
  let q := q + q >>> 64
  let q := q >>> 3
  let r := (u - ((q <<< 3) + (q <<< 1))).setWidth 32
  -- the correction is 1 if the remainder is still ten or more
  let c := (r + 6) >>> 4
  (r - c * 10, q + c.setWidth 128)

/-- The steps of `divu10` on numbers of any size, where no sum overflows and no digit is cut off. -/
def divu10Unbounded (u : ℕ) : ℕ × ℕ :=
  let q := (u >>> 1) + (u >>> 2)
  let q := q + q >>> 4
  let q := q + q >>> 8
  let q := q + q >>> 16
  let q := q + q >>> 32
  let q := q + q >>> 64
  let q := q >>> 3
  let r := u - ((q <<< 3) + (q <<< 1))
  let c := (r + 6) >>> 4
  (r - c * 10, q + c)

/-- `q` is at most `(1 - 1 / K) * a`, and less than that by at most `E`. -/
private def Near (a : ℚ) (K : ℕ) (E : ℚ) (q : ℕ) : Prop :=
  a * (1 - 1 / K) - E ≤ q ∧ (q : ℚ) ≤ a * (1 - 1 / K)

private lemma Near.step {a E : ℚ} {K q : ℕ} (hK : 0 < K) (h : Near a K E q) :
    Near a (K ^ 2) (E * (1 + 1 / K) + 1) (q + q / K) := by
  obtain ⟨hl, hh⟩ := h
  have hpos : (0 : ℚ) < K := by exact_mod_cast hK
  have hf : (0 : ℚ) ≤ 1 + 1 / K := by positivity
  have hs : a * (1 - 1 / ((K ^ 2 : ℕ) : ℚ)) = a * (1 - 1 / K) * (1 + 1 / K) := by
    push_cast
    field_simp
    ring
  have hsum : (q : ℚ) * (1 + 1 / K) = q + q / K := by ring
  have hflo : ((q / K : ℕ) : ℚ) ≤ q / K := Nat.cast_div_le
  have hc : (q : ℚ) / K ≤ ((q / K : ℕ) : ℚ) + 1 := by
    rw [div_le_iff₀ hpos]
    exact_mod_cast (Nat.lt_mul_of_div_lt (Nat.lt_succ_self (q / K)) hK).le
  rw [Near, hs]
  push_cast
  have hup := mul_le_mul_of_nonneg_right hh hf
  have hd := mul_le_mul_of_nonneg_right hl hf
  constructor <;> linarith

private lemma Near.lt {u K q : ℕ} {E : ℚ} (hu : u < 2 ^ 128) (h : Near (4 / 5 * u) K E q) : q < 2 ^ 128 := by
  have hK : (0 : ℚ) ≤ 1 / K := by positivity
  have hle : (q : ℚ) ≤ u := by nlinarith [h.2]
  have hle' : q ≤ u := by exact_mod_cast hle
  omega

private lemma Near.toNat_step {u : ℕ} {E : ℚ} {q : BitVec 128} (k : ℕ) (hu : u < 2 ^ 128)
    (h : Near (4 / 5 * u) (2 ^ k) E q.toNat) : (q + q >>> k).toNat = q.toNat + q.toNat >>> k ∧
    Near (4 / 5 * u) (2 ^ (2 * k)) (E * (1 + 1 / (2 ^ k : ℕ)) + 1) (q + q >>> k).toNat := by
  have hs := h.step (Nat.two_pow_pos k)
  rw [← pow_mul, Nat.mul_comm, ← Nat.shiftRight_eq_div_pow] at hs
  rw [toNat_add, toNat_ushiftRight, Nat.mod_eq_of_lt (hs.lt hu)]
  exact ⟨rfl, hs⟩

private def fourFifths (u : BitVec 128) : BitVec 128 :=
  let q := (u >>> 1) + (u >>> 2)
  let q := q + q >>> 4
  let q := q + q >>> 8
  let q := q + q >>> 16
  let q := q + q >>> 32
  q + q >>> 64

variable (u : BitVec 128)

private lemma toNat_start : ((u >>> 1) + (u >>> 2)).toNat = u.toNat >>> 1 + u.toNat >>> 2 := by
  simp only [toNat_add, toNat_ushiftRight]
  omega

private lemma near_start : Near (4 / 5 * (u.toNat : ℕ)) (2 ^ 4) (5 / 4) ((u >>> 1) + (u >>> 2)).toNat := by
  have hl : 3 * u.toNat ≤ 4 * (u.toNat >>> 1 + u.toNat >>> 2) + 5 := by omega
  have hh : 4 * (u.toNat >>> 1 + u.toNat >>> 2) ≤ 3 * u.toNat := by omega
  rw [toNat_start]
  generalize u.toNat >>> 1 + u.toNat >>> 2 = q at hl hh
  have hl' : 3 * (u.toNat : ℚ) ≤ 4 * q + 5 := by exact_mod_cast hl
  have hh' : 4 * (q : ℚ) ≤ 3 * u.toNat := by exact_mod_cast hh
  constructor <;> push_cast <;> linarith

private lemma fourFifths_bounds : divu10Unbounded u.toNat = (let q := (fourFifths u).toNat >>> 3
      let r := u.toNat - (q <<< 3 + q <<< 1)
      let c := (r + 6) >>> 4
      (r - c * 10, q + c)) ∧
    5 * (fourFifths u).toNat ≤ 4 * u.toNat ∧ 4 * u.toNat ≤ 5 * (fourFifths u).toNat + 36 := by
  obtain ⟨e1, h1⟩ := (near_start u).toNat_step 4 u.isLt
  obtain ⟨e2, h2⟩ := h1.toNat_step 8 u.isLt
  obtain ⟨e3, h3⟩ := h2.toNat_step 16 u.isLt
  obtain ⟨e4, h4⟩ := h3.toNat_step 32 u.isLt
  obtain ⟨e5, hl, hh⟩ := h4.toNat_step 64 u.isLt
  have hu : (u.toNat : ℚ) ≤ 2 ^ 128 := by exact_mod_cast u.isLt.le
  rw [e4, e3, e2, e1, toNat_start] at e5
  change (fourFifths u).toNat = _ at e5
  change _ ≤ ((fourFifths u).toNat : ℚ) at hl
  change ((fourFifths u).toNat : ℚ) ≤ _ at hh
  refine ⟨by rw [e5]; rfl, ?_, ?_⟩
  · have : (5 : ℚ) * (fourFifths u).toNat ≤ 4 * u.toNat := by linarith
    exact_mod_cast this
  · have : (4 : ℚ) * u.toNat ≤ 5 * (fourFifths u).toNat + 36 := by linarith
    exact_mod_cast this

/-- `divu10` is exact: the remainder is that of a division by ten, and so is the quotient. -/
lemma divu10_spec : (divu10 u).1.toNat = u.toNat % 10 ∧ (divu10 u).2.toNat = u.toNat / 10 := by
  obtain ⟨-, hl, hh⟩ := fourFifths_bounds u
  -- the remainder before the correction is below twenty
  have hq : (fourFifths u >>> 3).toNat = (fourFifths u).toNat / 8 := by
    simp [Nat.shiftRight_eq_div_pow]
  have hr : ((u - ((fourFifths u >>> 3) <<< 3 + (fourFifths u >>> 3) <<< 1)).setWidth 32).toNat =
      u.toNat - 10 * ((fourFifths u).toNat / 8) := by
    simp only [toNat_setWidth, toNat_sub, toNat_add, toNat_shiftLeft]
    omega
  have hd : divu10 u = (let q := fourFifths u >>> 3
       let r := (u - (q <<< 3 + q <<< 1)).setWidth 32
       let c := (r + 6) >>> 4
       (r - c * 10, q + c.setWidth 128)) := rfl
  rw [hd]
  dsimp only
  generalize (u - ((fourFifths u >>> 3) <<< 3 + (fourFifths u >>> 3) <<< 1)).setWidth 32 = r at hr
  generalize fourFifths u >>> 3 = q at hq
  have hs : u.toNat = 10 * q.toNat + r.toNat := by omega
  have hsm : r.toNat < 20 := by omega
  have hc : ((r + 6) >>> 4).toNat = (r.toNat + 6) / 16 := by
    simp only [toNat_ushiftRight, toNat_add, ofNat_eq_ofNat, toNat_ofNat]
    omega
  generalize (r + 6) >>> 4 = c at hc
  simp only [toNat_sub, toNat_mul, toNat_add, toNat_setWidth, ofNat_eq_ofNat, toNat_ofNat]
  clear hl hh hq hr
  by_cases ht : r.toNat < 10
  · omega
  · omega

/-- `divu10` divides by ten, and on its way no sum overflows and nothing is cut off: the same steps on numbers of any size
give the same. -/
theorem divu10_exact : (divu10 u).1.toNat = u.toNat % 10 ∧ (divu10 u).2.toNat = u.toNat / 10 ∧
    divu10Unbounded u.toNat = ((divu10 u).1.toNat, (divu10 u).2.toNat) := by
  obtain ⟨hr, hq⟩ := divu10_spec u
  obtain ⟨hu, hl, hh⟩ := fourFifths_bounds u
  refine ⟨hr, hq, ?_⟩
  obtain ⟨r, hs⟩ : ∃ r, u.toNat = 10 * (fourFifths u).toNat >>> 3 + r := Nat.exists_eq_add_of_le (by omega)
  have hsm : r < 20 := by omega
  have hd : u.toNat - ((fourFifths u).toNat >>> 3 <<< 3 + (fourFifths u).toNat >>> 3 <<< 1) = r := by omega
  rw [hr, hq, hu, Prod.mk.injEq, hd, hs]
  clear hu hl hh hd hs hr hq
  by_cases ht : r < 10
  · omega
  · omega

end Xrpl.Basics

import Mathlib.Tactic.Ring

/-!
# `base_uint<256>`

Keys and hashes are 256-bit numbers stored with the most significant byte first.  `byte` is the access through
`begin()`, and `hexDigit` the four-bit digits that are read off the bytes; the 64 digits determine the number
(`eq_of_hexDigit`).
-/

namespace Xrpl

open List BitVec

abbrev Uint256 := BitVec 256

abbrev Byte := BitVec 8

namespace Uint256

instance linearOrder : LinearOrder Uint256 where
  le_refl := BitVec.le_refl
  le_trans _ _ _ := BitVec.le_trans
  le_antisymm _ _ := BitVec.le_antisymm
  le_total := BitVec.le_total
  lt_iff_le_not_ge a b := by
    rw [lt_def, le_def, le_def]
    omega
  toDecidableLE := inferInstance
  toDecidableLT := inferInstance

def next (k : Uint256) : Uint256 := k + 1#256

def byte (k : Uint256) (i : Nat) : Byte := k.extractLsb' (8 * (31 - i)) 8

def bytes (k : Uint256) : List Byte := (range 32).map k.byte

/-- The `d`-th hexadecimal digit, counted from the most significant one. -/
def hexDigit (k : Uint256) (d : Nat) : Nat := k.toNat / 16 ^ (63 - d) % 16

private lemma byte_toNat (k : Uint256) (i : Nat) : (k.byte i).toNat = k.toNat / 256 ^ (31 - i) % 256 := by
  have h : (2 : Nat) ^ (8 * (31 - i)) = 256 ^ (31 - i) := by rw [Nat.pow_mul]
  simp [byte, Nat.shiftRight_eq_div_pow, h]

variable {d : Nat} {k k' : Uint256}

lemma byte_div (k : Uint256) (hd : d < 64) (h : d % 2 = 0) : (k.byte (d / 2)).toNat / 16 = k.hexDigit d := by
  have he : 63 - d = 2 * (31 - d / 2) + 1 := by omega
  have hp : (16 : Nat) ^ (63 - d) = 256 ^ (31 - d / 2) * 16 := by
    rw [he, Nat.pow_succ, Nat.pow_mul]
  rw [byte_toNat, hexDigit, hp, ← Nat.div_div_eq_div_mul]
  omega

lemma byte_mod (k : Uint256) (hd : d < 64) (h : d % 2 ≠ 0) : (k.byte (d / 2)).toNat % 16 = k.hexDigit d := by
  have he : 63 - d = 2 * (31 - d / 2) := by omega
  have hp : (16 : Nat) ^ (63 - d) = 256 ^ (31 - d / 2) := by
    rw [he, Nat.pow_mul]
  rw [byte_toNat, hexDigit, hp]
  omega

lemma eq_of_hexDigit (h : ∀ d, d < 64 → k.hexDigit d = k'.hexDigit d) : k = k' := by
  have key : ∀ j, j ≤ 64 → k.toNat % 16 ^ j = k'.toNat % 16 ^ j := by
    intro j hj
    induction j with
    | zero => simp [Nat.mod_one]
    | succ j ih =>
      have hd := h (63 - j) (by omega)
      have hj' : 63 - (63 - j) = j := by omega
      simp only [hexDigit, hj'] at hd
      rw [Nat.mod_pow_succ, Nat.mod_pow_succ, ih (by omega), hd]
  have h64 := key 64 (Nat.le_refl _)
  have e : (16 : Nat) ^ 64 = 2 ^ 256 := by norm_num
  rw [e, Nat.mod_eq_of_lt k.isLt, Nat.mod_eq_of_lt k'.isLt] at h64
  exact eq_of_toNat_eq h64

private lemma div_succ_eq (k : Uint256) (hd : d < 64) :
    k.toNat / 16 ^ (63 - d) = 16 * (k.toNat / 16 ^ (64 - d)) + k.hexDigit d := by
  have hp : (16 : Nat) ^ (64 - d) = 16 ^ (63 - d) * 16 := by
    rw [← Nat.pow_succ]
    congr 1
    omega
  rw [hexDigit, hp, ← Nat.div_div_eq_div_mul]
  omega

private lemma div_eq_of_hexDigit (hd : d ≤ 64)
    (h : ∀ e, e < d → k.hexDigit e = k'.hexDigit e) : k.toNat / 16 ^ (64 - d) = k'.toNat / 16 ^ (64 - d) := by
  induction d with
  | zero =>
    have e : (16 : Nat) ^ 64 = 2 ^ 256 := by norm_num
    rw [e, Nat.div_eq_of_lt k.isLt, Nat.div_eq_of_lt k'.isLt]
  | succ d ih =>
    have hd' : 64 - (d + 1) = 63 - d := by omega
    rw [hd', div_succ_eq k (by omega), div_succ_eq k' (by omega), ih (by omega) fun e he => h e (by omega),
      h d (by omega)]

lemma lt_of_hexDigit (hd : d < 64) (h : ∀ e, e < d → k.hexDigit e = k'.hexDigit e)
    (hlt : k.hexDigit d < k'.hexDigit d) : k < k' := by
  have hdiv : k.toNat / 16 ^ (63 - d) < k'.toNat / 16 ^ (63 - d) := by
    rw [div_succ_eq k hd, div_succ_eq k' hd, div_eq_of_hexDigit (by omega) h]
    omega
  by_contra hge
  exact absurd (Nat.div_le_div_right (not_lt.1 hge)) (not_le.2 hdiv)

/-- The number with the given bytes, the most significant one first. -/
def ofBytes (l : List Byte) : Uint256 := BitVec.ofNat 256 (l.foldl (fun n b => n * 256 + b.toNat) 0)

private lemma foldl_bytes (l : List Byte) (n : Nat) :
    l.foldl (fun n b => n * 256 + b.toNat) n = n * 256 ^ l.length + l.foldl (fun n b => n * 256 + b.toNat) 0 := by
  induction l generalizing n with
  | nil => simp
  | cons b l ih =>
    rw [foldl_cons, foldl_cons, ih, ih (0 * 256 + b.toNat), length_cons]
    ring

private lemma foldl_bytes_lt (l : List Byte) : l.foldl (fun n b => n * 256 + b.toNat) 0 < 256 ^ l.length := by
  induction l with
  | nil => simp
  | cons b l ih =>
    rw [foldl_cons, foldl_bytes, Nat.zero_add]
    have hb : b.toNat + 1 ≤ 256 := b.isLt
    calc b.toNat * 256 ^ l.length + l.foldl (fun n b => n * 256 + b.toNat) 0
        < b.toNat * 256 ^ l.length + 256 ^ l.length := by omega
      _ = (b.toNat + 1) * 256 ^ l.length := by ring
      _ ≤ 256 * 256 ^ l.length := Nat.mul_le_mul_right _ hb
      _ = 256 ^ l.length * 256 := Nat.mul_comm _ _

lemma bytes_ofBytes {l : List Byte} (hl : l.length = 32) : (ofBytes l).bytes = l := by
  apply ext_getElem
  · simp [bytes, hl]
  intro i hi hil
  simp only [bytes, getElem_map, getElem_range]
  apply eq_of_toNat_eq
  have hs : l = l.take i ++ l[i] :: l.drop (i + 1) := by
    rw [← drop_eq_getElem_cons hil, take_append_drop]
  have hlen : (l.drop (i + 1)).length = 31 - i := by
    rw [length_drop]
    omega
  have hlt := foldl_bytes_lt (l.drop (i + 1))
  rw [hlen] at hlt
  have hn : (ofBytes l).toNat = l.foldl (fun n b => n * 256 + b.toNat) 0 := by
    rw [ofBytes, toNat_ofNat, Nat.mod_eq_of_lt]
    have := foldl_bytes_lt l
    rw [hl] at this
    exact this
  rw [byte_toNat, hn]
  conv_lhs => rw [hs]
  rw [foldl_append, foldl_cons, foldl_bytes, hlen, Nat.add_comm, Nat.mul_comm,
    Nat.add_mul_div_left _ _ (Nat.pow_pos (by decide)), Nat.div_eq_of_lt hlt]
  omega

private lemma foldl_byte {n : Nat} (hn : n ≤ 32) :
    ((range n).map k.byte).foldl (fun n b => n * 256 + b.toNat) 0 = k.toNat / 256 ^ (32 - n) := by
  induction n with
  | zero =>
    have e : (256 : Nat) ^ 32 = 2 ^ 256 := by norm_num
    rw [e, Nat.div_eq_of_lt k.isLt]
    rfl
  | succ n ih =>
    have e : 32 - n = 31 - n + 1 := by omega
    rw [range_succ, map_append, foldl_append, ih (by omega), e, Nat.pow_succ, ← Nat.div_div_eq_div_mul]
    simp only [map_cons, map_nil, foldl_cons, foldl_nil, byte_toNat, Nat.reduceSubDiff]
    omega

lemma ofBytes_bytes (k : Uint256) : ofBytes k.bytes = k := by
  rw [ofBytes, bytes, foldl_byte le_rfl, Nat.pow_zero, Nat.div_one, ofNat_toNat, setWidth_eq]

@[simp] lemma length_bytes (k : Uint256) : k.bytes.length = 32 := by simp [bytes]

end Uint256

end Xrpl

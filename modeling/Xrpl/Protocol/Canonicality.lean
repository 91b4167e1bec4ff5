import Mathlib.Data.Nat.Digits.Lemmas

/-!
# Canonical signatures

The bytes of a signature are read with a check, so that a read outside of them would be an error.

* `der`, `Encodes`: the shortest bytes of a number, and of a signature;
* `canonical_unique`: which signatures are accepted, and that each has one encoding.
-/

namespace Xrpl.Protocol

open List Except

inductive Fault
  | outOfRange

def get (buf : List UInt8) (i : ℕ) : Except Fault UInt8 :=
  if h : i < buf.length then .ok buf[i] else .error .outOfRange

/-- The first bytes of a slice and the rest. -/
def split (buf : List UInt8) (n : ℕ) : Except Fault (List UInt8 × List UInt8) :=
  if n ≤ buf.length then .ok (buf.take n, buf.drop n) else .error .outOfRange

def topBit (b : UInt8) : Bool := b &&& 0x80 ≠ 0

/-- The number, if there is one, and what is left of the buffer. -/
def sigPart : List UInt8 → Except Fault (Option (List UInt8) × List UInt8)
  | tag :: len :: b :: t => do
    if tag ≠ 0x02 then return (none, tag :: len :: b :: t)
    if len.toNat > (b :: t).length ∨ len.toNat < 1 ∨ len.toNat > 33 then return (none, b :: t)
    if topBit b then return (none, b :: t)
    if b = 0 then
      if len.toNat = 1 then return (none, b :: t)
      if !topBit (← get (b :: t) 1) then return (none, b :: t)
    let (number, buf) ← split (b :: t) len.toNat
    return (some number, buf)
  | buf => return (none, buf)

/-- The hexadecimal digits. -/
def sliceToHex (slice : List UInt8) : Except Fault (List ℕ) := do
  let pad := if topBit (← get slice 0) then [0, 0] else []
  return pad ++ slice.flatMap fun b => [b.toNat / 16, b.toNat % 16]

def uint264 (slice : List UInt8) : Except Fault ℕ := do
  return (← sliceToHex slice).foldl (fun n d => 16 * n + d) 0 % 2 ^ 264

def kG : ℕ := 0xFFFFFFFFFFFFFFFFFFFFFFFFFFFFFFFEBAAEDCE6AF48A03BBFD25E8CD0364141

inductive ECDSACanonicality
  | canonical
  | fullyCanonical

/-- The end of `ecdsaCanonicality`, where both numbers are known. -/
def grade (r s : List UInt8) : Except Fault (Option ECDSACanonicality) := do
  let rNum ← uint264 r
  if kG ≤ rNum then return none
  let sNum ← uint264 s
  if kG ≤ sNum then return none
  return some (if kG - sNum < sNum then .canonical else .fullyCanonical)

def ecdsaCanonicality : List UInt8 → Except Fault (Option ECDSACanonicality)
  | a :: n :: p =>
    if p.length + 2 < 8 ∨ 72 < p.length + 2 then .ok none
    else if a ≠ 0x30 ∨ n.toNat ≠ p.length then .ok none
    else do
      let (r, p) ← sigPart p
      let (s, p) ← sigPart p
      match r, s, p with
      | some r, some s, [] => grade r s
      | _, _, _ => .ok none
  | _ => .ok none

/-- Big-endian. -/
def order : List UInt8 :=
  [0x10, 0x00, 0x00, 0x00, 0x00, 0x00, 0x00, 0x00, 0x00, 0x00, 0x00,
    0x00, 0x00, 0x00, 0x00, 0x00, 0x14, 0xDE, 0xF9, 0xDE, 0xA2, 0xF7,
    0x9C, 0xD6, 0x58, 0x12, 0x63, 0x1A, 0x5C, 0xF5, 0xD3, 0xED]

def ed25519Canonical (sig : List UInt8) : Except Fault Bool := do
  if sig.length ≠ 64 then return false
  let (_, le) ← split sig 32
  let (le, _) ← split le 32
  return le.reverse < order

/-! ### Numbers -/

/-- The number of big-endian bytes. -/
def value (l : List UInt8) : ℕ := Nat.ofDigits 256 (l.reverse.map UInt8.toNat)

variable {b : UInt8} {l l' sig : List UInt8}

private lemma value_cons : value (b :: l) = b.toNat * 256 ^ l.length + value l := by
  simp [value, Nat.ofDigits_append, mul_comm, add_comm]

private lemma digits_lt (l : List UInt8) : ∀ d ∈ l.reverse.map UInt8.toNat, d < 256 := by
  intro d hd
  obtain ⟨b, -, rfl⟩ := mem_map.1 hd
  exact b.toNat_lt

private lemma value_lt (l : List UInt8) : value l < 256 ^ l.length := by
  simpa [value] using Nat.ofDigits_lt_base_pow_length (by decide) (digits_lt l)

private lemma lt_iff_value_lt (hlen : l.length = l'.length) : l < l' ↔ value l < value l' := by
  induction l generalizing l' with
  | nil =>
    obtain rfl := length_eq_zero_iff.1 hlen.symm
    simp
  | cons a l ih =>
    obtain ⟨b, l', rfl⟩ := exists_cons_of_length_eq_add_one hlen.symm
    have hl : l.length = l'.length := by simpa using hlen
    have hv := value_lt l
    have hv' := value_lt l'
    rw [hl] at hv
    rw [cons_lt_cons_iff, ih hl, value_cons, value_cons, hl, UInt8.lt_iff_toNat_lt, ← UInt8.toNat_inj]
    rcases lt_trichotomy a.toNat b.toNat with h | h | h
    · exact iff_of_true (.inl h) (by nlinarith)
    · simp [h]
    · exact iff_of_false (by omega) (by nlinarith)

private lemma foldl_hex (l : List UInt8) (n : ℕ) :
    (l.flatMap fun b => [b.toNat / 16, b.toNat % 16]).foldl (fun n d => 16 * n + d) n = n * 256 ^ l.length + value l := by
  induction l generalizing n with
  | nil => simp [value]
  | cons b l ih =>
    have hb : 16 * (16 * n + b.toNat / 16) + b.toNat % 16 = 256 * n + b.toNat := by omega
    rw [flatMap_cons, foldl_append, foldl_cons, foldl_cons, foldl_nil, hb, ih, value_cons, length_cons, pow_succ]
    ring

private lemma uint264_eq (hne : l ≠ []) (hl : l.length ≤ 33) : uint264 l = .ok (value l) := by
  obtain ⟨b, t, rfl⟩ := exists_cons_of_ne_nil hne
  have hv : value (b :: t) < 2 ^ 264 := (value_lt _).trans_le (Nat.pow_le_pow_right (by decide) hl)
  show ok ((((if topBit b then [0, 0] else []) ++ _).foldl _ 0) % _) = _
  rw [foldl_append, foldl_hex]
  split_ifs <;> simp [Nat.mod_eq_of_lt hv]

/-- The bytes of a number without leading zeros. -/
def bytes (n : ℕ) : List UInt8 := ((Nat.digits 256 n).map UInt8.ofNat).reverse

/-- The shortest bytes of a number in DER: a zero comes first if the number would be negative without it. -/
def der (n : ℕ) : List UInt8 := if (bytes n).head?.any topBit then 0 :: bytes n else bytes n

/-- What `sigPart` asks of a number. -/
def Tight (l : List UInt8) : Prop := ∃ b t, l = b :: t ∧ ¬ topBit b ∧ (b = 0 → ∃ c t', t = c :: t' ∧ topBit c)

private lemma Tight.ne_nil (h : Tight l) : l ≠ [] := by
  obtain ⟨b, t, rfl, -⟩ := h
  exact cons_ne_nil b t

private lemma value_bytes (n : ℕ) : value (bytes n) = n := by
  have hd : (Nat.digits 256 n).map (UInt8.toNat ∘ UInt8.ofNat) = (Nat.digits 256 n).map id :=
    map_congr_left fun d hd => Nat.mod_eq_of_lt (Nat.digits_lt_base (by decide) hd)
  rw [value, bytes, reverse_reverse, List.map_map, hd, List.map_id, Nat.ofDigits_digits]

private lemma bytes_value (hb : b ≠ 0) : bytes (value (b :: l)) = b :: l := by
  have hid : UInt8.ofNat ∘ UInt8.toNat = id := funext fun _ => UInt8.ofNat_toNat
  rw [bytes, value, Nat.digits_ofDigits 256 (by decide) _ (digits_lt _) ?_, List.map_map, hid, List.map_id, reverse_reverse]
  simpa using fun h => hb (UInt8.toNat_inj.1 h)

private lemma bytes_cons {n : ℕ} (hn : n ≠ 0) : ∃ b t, bytes n = b :: t ∧ b ≠ 0 := by
  have hne : Nat.digits 256 n ≠ [] := Nat.digits_ne_nil_iff_ne_zero.2 hn
  have hlt : (Nat.digits 256 n).getLast hne < 256 := Nat.digits_lt_base (by decide) (getLast_mem hne)
  refine ⟨_, _, by rw [bytes, ← dropLast_append_getLast hne, map_append, reverse_append]; rfl, fun h0 => ?_⟩
  have hz := congrArg UInt8.toNat h0
  rw [UInt8.toNat_ofNat', Nat.mod_eq_of_lt hlt] at hz
  exact Nat.getLast_digit_ne_zero 256 hn hz

private lemma tight_der {n : ℕ} (hn : n ≠ 0) : Tight (der n) ∧ value (der n) = n := by
  obtain ⟨b, t, hb, h0⟩ := bytes_cons hn
  have hv := value_bytes n
  rw [hb] at hv
  rw [der, hb]
  by_cases ht : topBit b
  · rw [if_pos (by simpa using ht)]
    exact ⟨⟨0, b :: t, rfl, by decide, fun _ => ⟨b, t, rfl, ht⟩⟩, by simpa [value_cons] using hv⟩
  · rw [if_neg (by simpa using ht)]
    exact ⟨⟨b, t, rfl, ht, fun h => absurd h h0⟩, hv⟩

private lemma Tight.eq_der (h : Tight l) : l = der (value l) ∧ value l ≠ 0 := by
  have hpos {c : UInt8} {t : List UInt8} (hc : c ≠ 0) : value (c :: t) ≠ 0 := by
    have h0 : c.toNat ≠ 0 := fun h => hc (UInt8.toNat_inj.1 h)
    rw [value_cons]
    positivity
  obtain ⟨b, t, rfl, hb, hz⟩ := h
  by_cases h0 : b = 0
  · obtain ⟨c, t, rfl, hc⟩ := hz h0
    have hc0 : c ≠ 0 := by
      rintro rfl
      cases hc
    have hv : value (b :: c :: t) = value (c :: t) := by simp [h0, value_cons]
    rw [hv, der, bytes_value hc0, if_pos (by simpa using hc), h0]
    exact ⟨rfl, hpos hc0⟩
  · rw [der, bytes_value h0, if_neg (by simpa using hb)]
    exact ⟨rfl, hpos h0⟩

private lemma length_der {n : ℕ} (hn : n < kG) : (der n).length ≤ 33 := by
  have hl : (bytes n).length ≤ 32 := by
    rw [bytes, length_reverse, length_map, Nat.digits_length_le_iff (by decide)]
    exact hn.trans (by decide)
  rw [der]
  split_ifs <;> simp <;> omega

def part (l : List UInt8) : List UInt8 := 0x02 :: UInt8.ofNat l.length :: l

private lemma sigPart_part (ht : Tight l) (hlen : l.length ≤ 33) (rest : List UInt8) :
    sigPart (part l ++ rest) = .ok (some l, rest) := by
  have hn : (UInt8.ofNat l.length).toNat = l.length := by
    rw [UInt8.toNat_ofNat']
    omega
  have hs : split (l ++ rest) l.length = .ok (l, rest) := by simp [split]
  obtain ⟨b, t, rfl, hb, hz⟩ := ht
  rw [part, cons_append, cons_append, cons_append, sigPart, if_neg (not_not.2 rfl), hn,
    if_neg (by simp at hlen ⊢; omega), if_neg hb, ← cons_append, hs]
  by_cases h0 : b = 0
  · obtain ⟨c, t, rfl, hc⟩ := hz h0
    have hg : get (b :: c :: t ++ rest) 1 = .ok c := rfl
    rw [if_pos h0, if_neg (by simp), hg]
    exact if_neg (by simp [hc])
  · rw [if_neg h0]
    rfl

/-- No byte outside is read, and a number that is found is in its shortest form. -/
private lemma sigPart_spec (buf : List UInt8) :
    ∃ x, sigPart buf = .ok x ∧ ∀ l ∈ x.1, Tight l ∧ l.length ≤ 33 ∧ buf = part l ++ x.2 := by
  rcases buf with _ | ⟨tag, _ | ⟨len, _ | ⟨b, t⟩⟩⟩
  iterate 3 exact ⟨_, rfl, by simp⟩
  have hacc (htag : ¬ tag ≠ 0x02) (hn : ¬ (len.toNat > (b :: t).length ∨ len.toNat < 1 ∨ len.toNat > 33))
      (ht : Tight ((b :: t).take len.toNat)) : ∀ l ∈ some ((b :: t).take len.toNat),
        Tight l ∧ l.length ≤ 33 ∧ tag :: len :: b :: t = part l ++ (b :: t).drop len.toNat := by
    simp only [not_or, not_lt] at hn
    have hl : ((b :: t).take len.toNat).length = len.toNat := length_take_of_le hn.1
    rintro _ ⟨⟩
    refine ⟨ht, hl.trans_le hn.2.2, ?_⟩
    rw [part, hl, UInt8.ofNat_toNat, cons_append, cons_append, take_append_drop, not_not.1 htag]
  rw [sigPart]
  split_ifs with htag hn hb h0 h1
  iterate 4 exact ⟨_, rfl, by simp⟩
  all_goals
    have hs : split (b :: t) len.toNat = .ok ((b :: t).take len.toNat, (b :: t).drop len.toNat) := if_pos (by omega)
    obtain ⟨m, hm⟩ : ∃ m, len.toNat = m + 1 := ⟨len.toNat - 1, by omega⟩
    rw [hs]
  · rcases t with _ | ⟨c, t⟩
    · simp only [length_cons, length_nil] at hn
      omega
    by_cases hc : topBit c
    · obtain ⟨m, rfl⟩ : ∃ n, m = n + 1 := ⟨m - 1, by omega⟩
      exact ⟨_, if_neg (by simp [hc]), hacc htag hn (hm ▸ ⟨b, _, rfl, hb, fun _ => ⟨c, _, rfl, hc⟩⟩)⟩
    · exact ⟨_, if_pos (by simpa using hc), by simp⟩
  · exact ⟨_, rfl, hacc htag hn (hm ▸ ⟨b, _, rfl, hb, fun h => absurd h h0⟩)⟩

/-! ### Signatures -/

def pack (r s : List UInt8) : List UInt8 := 0x30 :: UInt8.ofNat (part r ++ part s).length :: (part r ++ part s)

/-- The bytes are the encoding of two numbers below the order of the group. -/
def Encodes (sig : List UInt8) (r s : ℕ) : Prop :=
  (1 ≤ r ∧ r < kG) ∧ (1 ≤ s ∧ s < kG) ∧ sig = pack (der r) (der s)

private lemma grade_eq {r s : List UInt8} (hr : Tight r) (hs : Tight s) (hrl : r.length ≤ 33) (hsl : s.length ≤ 33) :
    grade r s = .ok (if kG ≤ value r ∨ kG ≤ value s then none
      else some (if kG - value s < value s then .canonical else .fullyCanonical)) := by
  rw [grade, uint264_eq hr.ne_nil hrl, uint264_eq hs.ne_nil hsl]
  by_cases hk : kG ≤ value r
  · exact (if_pos hk).trans (by rw [if_pos (.inl hk)]; rfl)
  refine (if_neg hk).trans ?_
  by_cases hk' : kG ≤ value s
  · exact (if_pos hk').trans (by rw [if_pos (.inr hk')]; rfl)
  · exact (if_neg hk').trans (by rw [if_neg (not_or.2 ⟨hk, hk'⟩)]; rfl)

private lemma Encodes.ecdsaCanonicality_eq {r s : ℕ} (h : Encodes sig r s) :
    ecdsaCanonicality sig = .ok (some (if kG - s < s then .canonical else .fullyCanonical)) := by
  obtain ⟨⟨hr, hrk⟩, ⟨hs, hsk⟩, rfl⟩ := h
  obtain ⟨htR, hvR⟩ := tight_der (Nat.ne_of_gt hr)
  obtain ⟨htS, hvS⟩ := tight_der (Nat.ne_of_gt hs)
  have hlR := length_der hrk
  have hlS := length_der hsk
  have hR0 := length_pos_iff.2 htR.ne_nil
  have hS0 := length_pos_iff.2 htS.ne_nil
  have hl : (part (der r) ++ part (der s)).length = (der r).length + (der s).length + 4 := by simp [part]; omega
  have hn : (UInt8.ofNat ((der r).length + (der s).length + 4)).toNat = (der r).length + (der s).length + 4 := by
    rw [UInt8.toNat_ofNat']
    omega
  rw [pack, ecdsaCanonicality, hl, hn, if_neg (by omega), if_neg (by simp), sigPart_part htR hlR]
  show (sigPart (part (der s)) >>= _) = _
  rw [← append_nil (part (der s)), sigPart_part htS hlS]
  show grade (der r) (der s) = _
  rw [grade_eq htR htS hlR hlS, hvR, hvS, if_neg (by omega)]

private lemma ecdsaCanonicality_spec (sig : List UInt8) :
    (∃ r s, Encodes sig r s) ∨ ecdsaCanonicality sig = .ok none := by
  rcases sig with _ | ⟨a, _ | ⟨n, p⟩⟩
  iterate 2 exact .inr rfl
  rw [ecdsaCanonicality]
  split_ifs with hlen hh
  iterate 2 exact .inr rfl
  simp only [not_or, not_not] at hh
  obtain ⟨rfl, hn⟩ := hh
  obtain ⟨⟨R, p'⟩, hp, hR⟩ := sigPart_spec p
  obtain ⟨⟨S, p''⟩, hp', hS⟩ := sigPart_spec p'
  rw [hp]
  show _ ∨ (sigPart p' >>= _) = _
  rw [hp']
  rcases R with _ | R
  · exact .inr rfl
  rcases S with _ | S
  · exact .inr rfl
  rcases p'' with _ | ⟨b, p''⟩
  swap
  · exact .inr rfl
  obtain ⟨htR, hlR, rfl⟩ := hR R rfl
  obtain ⟨htS, hlS, rfl⟩ := hS S rfl
  show _ ∨ grade R S = _
  rw [grade_eq htR htS hlR hlS]
  by_cases hk : kG ≤ value R ∨ kG ≤ value S
  · exact .inr (congrArg _ (if_pos hk))
  simp only [not_or, not_le] at hk
  obtain ⟨hR, hR0⟩ := htR.eq_der
  obtain ⟨hS, hS0⟩ := htS.eq_der
  rw [append_nil] at hn ⊢
  refine .inl ⟨_, _, ⟨Nat.pos_of_ne_zero hR0, hk.1⟩, ⟨Nat.pos_of_ne_zero hS0, hk.2⟩, ?_⟩
  rw [pack, ← hR, ← hS, ← hn, UInt8.ofNat_toNat]

private lemma Encodes.fullyCanonical_iff {r s : ℕ} (h : Encodes sig r s) :
    ecdsaCanonicality sig = .ok (some .fullyCanonical) ↔ 2 * s ≤ kG := by
  rw [h.ecdsaCanonicality_eq]
  split_ifs with hlt
  · exact iff_of_false (by simp) (by omega)
  · exact iff_of_true rfl (by omega)

private lemma Encodes.unique {sig' : List UInt8} {r s s' : ℕ} (h : Encodes sig r s) (h' : Encodes sig' r s')
    (hs : s' = s ∨ s' = kG - s) (hf : ecdsaCanonicality sig = .ok (some .fullyCanonical))
    (hf' : ecdsaCanonicality sig' = .ok (some .fullyCanonical)) : sig = sig' := by
  have hodd : kG % 2 = 1 := by decide
  rw [h.fullyCanonical_iff] at hf
  rw [h'.fullyCanonical_iff] at hf'
  obtain rfl : s' = s := by omega
  rw [h.2.2, h'.2.2]

private lemma ed25519Canonical_eq (hlen : sig.length = 64) :
    ed25519Canonical sig = .ok (decide ((sig.drop 32).reverse < order)) := by
  have hd : (sig.drop 32).length = 32 := by simp [hlen]
  have hs : split sig 32 = .ok (sig.take 32, sig.drop 32) := if_pos (by omega)
  have hs' : split (sig.drop 32) 32 = .ok (sig.drop 32, []) := by
    rw [split, if_pos hd.ge, take_of_length_le hd.le, drop_eq_nil_of_le hd.le]
  rw [ed25519Canonical, if_neg (not_not.2 hlen), hs]
  show (split (sig.drop 32) 32 >>= _) = _
  rw [hs']
  rfl

/-- A signature is accepted if and only if it is the encoding of two numbers, and fully canonical ones do not come in pairs;
no byte outside of it is read. -/
theorem canonical_unique :
    (∀ sig, ∃ c, ecdsaCanonicality sig = .ok c ∧ (c.isSome ↔ ∃ r s, Encodes sig r s) ∧
      (c = some .fullyCanonical ↔ ∃ r s, Encodes sig r s ∧ 2 * s ≤ kG)) ∧
    (∀ sig sig' r s s', Encodes sig r s → Encodes sig' r s' → s' = s ∨ s' = kG - s →
      ecdsaCanonicality sig = .ok (some .fullyCanonical) → ecdsaCanonicality sig' = .ok (some .fullyCanonical) →
      sig = sig') ∧
    ∀ sig, ∃ b, ed25519Canonical sig = .ok b ∧ (b ↔ sig.length = 64 ∧
      Nat.ofDigits 256 ((sig.drop 32).map UInt8.toNat) < 2 ^ 252 + 27742317777372353535851937790883648493) := by
  refine ⟨fun sig => ?_, fun sig sig' r s s' h h' => h.unique h', fun sig => ?_⟩
  · rcases ecdsaCanonicality_spec sig with ⟨r, s, h⟩ | hn
    · refine ⟨_, h.ecdsaCanonicality_eq, iff_of_true rfl ⟨r, s, h⟩, fun hf => ⟨r, s, h, ?_⟩, ?_⟩
      · exact h.fullyCanonical_iff.1 (hf ▸ h.ecdsaCanonicality_eq)
      · rintro ⟨r', s', h', hle⟩
        exact ok.inj (h.ecdsaCanonicality_eq.symm.trans (h'.fullyCanonical_iff.2 hle))
    · have hno : ∀ r s, ¬ Encodes sig r s := by
        intro r s h
        cases hn.symm.trans h.ecdsaCanonicality_eq
      exact ⟨none, hn, by simp [hno], by simp [hno]⟩
  · by_cases hlen : sig.length = 64
    · have ho : value order = 2 ^ 252 + 27742317777372353535851937790883648493 := rfl
      refine ⟨_, ed25519Canonical_eq hlen, ?_⟩
      rw [decide_eq_true_iff, lt_iff_value_lt (by simp [hlen, order]), value, reverse_reverse, ho, and_iff_right hlen]
    · exact ⟨false, if_pos hlen, by simp [hlen]⟩

end Xrpl.Protocol

import Xrpl.Lib.Buckets
import Xrpl.NFT.Pages

/-!
# Pages of tokens as a list

What the pages of an account are for: the tokens in buckets, by their low bits.

* `keyOf`: the position of a token; its order is that of the low bits;
* `Valid`: the tokens are where they should be, and no page is empty or too large;
* `splitPage_spec`: how a full page is split.
-/

namespace Xrpl.NFT

open List Option

def keyOf (owner : AccountID) (id : Uint256) : Uint256 := nftpage (nftpageMin owner) id

lemma toNat_nftpageMin (owner : AccountID) : (nftpageMin owner).toNat = owner.toNat * 2 ^ 96 := by
  rw [nftpageMin, BitVec.toNat_append]
  simp [Nat.shiftLeft_eq]

lemma toNat_nftpageMax (owner : AccountID) : (nftpageMax owner).toNat = owner.toNat * 2 ^ 96 + (2 ^ 96 - 1) := by
  rw [nftpageMax, BitVec.toNat_append, ← Nat.shiftLeft_add_eq_or_of_lt (by simp), Nat.shiftLeft_eq]
  simp

private lemma toNat_and_kPageMask (x : Uint256) : (x &&& kPageMask).toNat = x.toNat % 2 ^ 96 := by
  rw [← Nat.and_two_pow_sub_one_eq_mod]
  rfl

private lemma nftpageMin_and_not (owner : AccountID) : nftpageMin owner &&& ~~~kPageMask = nftpageMin owner := by
  have hm : kPageMask = (BitVec.allOnes 96).setWidth 256 := by decide
  apply BitVec.eq_of_getLsbD_eq
  intro i hi
  rw [hm, nftpageMin]
  simp only [BitVec.getLsbD_and, BitVec.getLsbD_append, BitVec.getLsbD_not, BitVec.getLsbD_setWidth,
    BitVec.getLsbD_allOnes]
  by_cases h : i < 96 <;> simp [h, hi]

private lemma toNat_keyOf (owner : AccountID) (id : Uint256) :
    (keyOf owner id).toNat = owner.toNat * 2 ^ 96 + id.toNat % 2 ^ 96 := by
  rw [keyOf, nftpage, nftpageMin_and_not, BitVec.toNat_add, toNat_nftpageMin, toNat_and_kPageMask]
  omega

variable {a b : Uint256} {owner : AccountID}

lemma keyOf_lt_keyOf : keyOf owner a < keyOf owner b ↔ a &&& kPageMask < b &&& kPageMask := by
  rw [BitVec.lt_def, BitVec.lt_def, toNat_keyOf, toNat_keyOf, toNat_and_kPageMask, toNat_and_kPageMask]
  omega

lemma keyOf_le_keyOf : keyOf owner a ≤ keyOf owner b ↔ a &&& kPageMask ≤ b &&& kPageMask := by
  rw [← not_lt, keyOf_lt_keyOf, not_lt]

lemma keyOf_inj : keyOf owner a = keyOf owner b ↔ a &&& kPageMask = b &&& kPageMask := by
  rw [le_antisymm_iff, le_antisymm_iff, keyOf_le_keyOf, keyOf_le_keyOf]

section

variable (owner : AccountID)

lemma keyOf_le_max (id : Uint256) : keyOf owner id ≤ nftpageMax owner := by
  rw [BitVec.le_def, toNat_keyOf, toNat_nftpageMax]
  omega

lemma min_le_keyOf (id : Uint256) : nftpageMin owner ≤ keyOf owner id := by
  rw [BitVec.le_def, toNat_keyOf, toNat_nftpageMin]
  omega

lemma keyOf_keyOf (id : Uint256) : keyOf owner (keyOf owner id) = keyOf owner id := by
  refine keyOf_inj.2 (BitVec.eq_of_toNat_eq ?_)
  rw [toNat_and_kPageMask, toNat_and_kPageMask, toNat_keyOf]
  omega

end

variable {id k : Uint256} {t t' : NFToken}

lemma keyOf_eq_max : keyOf owner id = nftpageMax owner ↔ id &&& kPageMask = kPageMask := by
  have hm : kPageMask.toNat = 2 ^ 96 - 1 := by decide
  rw [← BitVec.toNat_inj, ← BitVec.toNat_inj, toNat_keyOf, toNat_nftpageMax, toNat_and_kPageMask]
  omega

lemma keyOf_max (owner : AccountID) : keyOf owner (nftpageMax owner) = nftpageMax owner := by
  rw [← BitVec.toNat_inj, toNat_keyOf, toNat_nftpageMax]
  omega

lemma toNat_next (h : k.toNat + 1 < 2 ^ 256) : k.next.toNat = k.toNat + 1 := by
  exact Nat.mod_eq_of_lt h

lemma toNat_next_max (h : owner ≠ BitVec.allOnes 160) :
    (nftpageMax owner).next.toNat = (nftpageMax owner).toNat + 1 := by
  have ho : owner.toNat ≠ 2 ^ 160 - 1 := fun heq => h (BitVec.eq_of_toNat_eq (by simpa using heq))
  refine toNat_next ?_
  rw [toNat_nftpageMax]
  omega

lemma lt_next_max (h : owner ≠ BitVec.allOnes 160) : k < (nftpageMax owner).next ↔ k ≤ nftpageMax owner := by
  rw [BitVec.lt_def, BitVec.le_def, toNat_next_max h]
  omega

private lemma toNat_keyOf_next (h : keyOf owner id ≠ nftpageMax owner) :
    (keyOf owner id.next).toNat = (keyOf owner id).toNat + 1 := by
  have hne := mt keyOf_eq_max.2 h
  have hm : kPageMask.toNat = 2 ^ 96 - 1 := by decide
  rw [← BitVec.toNat_inj, toNat_and_kPageMask] at hne
  rw [toNat_keyOf, toNat_keyOf, Uint256.next, BitVec.toNat_add]
  simp only [BitVec.toNat_ofNat]
  omega

lemma compareTokens_iff (owner : AccountID) : compareTokens a b = true ↔
    keyOf owner a < keyOf owner b ∨ keyOf owner a = keyOf owner b ∧ a < b := by
  rw [keyOf_lt_keyOf, keyOf_inj, compareTokens]
  by_cases heq : a &&& kPageMask = b &&& kPageMask
  · simp [heq]
  · simp [heq]

private lemma compareTokens_iff_lex : compareTokens a b = true ↔ toLex (keyOf 0 a, a) < toLex (keyOf 0 b, b) := by
  rw [compareTokens_iff 0, Prod.Lex.toLex_lt_toLex]

lemma compareTokens_asymm (h : compareTokens a b = true) : compareTokens b a = false := by
  rw [← Bool.not_eq_true, compareTokens_iff_lex]
  exact lt_asymm (compareTokens_iff_lex.1 h)

/-- The order of the tokens on a page. -/
def Before (t t' : NFToken) : Prop := compareTokens t.nftokenID t'.nftokenID = true

private lemma Before.keyOf_le (h : Before t t') (owner : AccountID) :
    keyOf owner t.nftokenID ≤ keyOf owner t'.nftokenID := by
  rcases (compareTokens_iff owner).1 h with h | ⟨h, -⟩
  · exact h.le
  · exact h.le

lemma sortTokens_perm (arr : List NFToken) : (sortTokens arr).Perm arr := perm_insertionSort _ arr

lemma sortTokens_pairwise {arr : List NFToken} (h : (arr.map NFToken.nftokenID).Nodup) :
    (sortTokens arr).Pairwise Before := by
  have hn : ((sortTokens arr).map NFToken.nftokenID).Nodup := ((sortTokens_perm arr).map _).nodup_iff.2 h
  have htot : Std.Total fun t t' : NFToken => ¬compareTokens t'.nftokenID t.nftokenID := ⟨fun t t' => by
      simp only [compareTokens_iff_lex, not_lt]
      exact le_total _ _⟩
  have ht : IsTrans NFToken fun t t' => ¬compareTokens t'.nftokenID t.nftokenID := ⟨fun a b c hab hbc => by
      rw [compareTokens_iff_lex, not_lt] at hab hbc ⊢
      exact hab.trans hbc⟩
  have hs := pairwise_insertionSort (fun t t' : NFToken => ¬compareTokens t'.nftokenID t.nftokenID) arr
  refine (hs.and (pairwise_map.1 hn)).imp fun ⟨hle, hne⟩ => compareTokens_iff_lex.2 ?_
  rw [compareTokens_iff_lex, not_lt] at hle
  exact lt_of_le_of_ne hle fun heq => hne (congrArg (fun x => (ofLex x).2) heq)

/-! ### Splitting a full page -/

/-- The tokens of a full page, where one more token comes, are split at the position `n`. -/
structure Splits (owner : AccountID) (ts : List NFToken) (id : Uint256) (narr carr : List NFToken) (n : Uint256) : Prop where
  append : narr ++ carr = ts
  below : ∀ t ∈ narr, keyOf owner t.nftokenID < n
  above : ∀ t ∈ carr, n ≤ keyOf owner t.nftokenID
  before : narr = [] → keyOf owner id < n
  after : carr = [] → n ≤ keyOf owner id
  room : keyOf owner id < n → narr.length < kDirMaxTokensPerPage
  room' : n ≤ keyOf owner id → carr.length < kDirMaxTokensPerPage

section

variable {owner : AccountID} {ts : List NFToken} {i j : Nat}

private lemma keyOf_le_of_sorted (hs : ts.Pairwise Before) (hij : i ≤ j) (hj : j < ts.length) :
    keyOf owner ts[i].nftokenID ≤ keyOf owner ts[j].nftokenID := by
  rcases Nat.eq_or_lt_of_le hij with rfl | hlt
  · exact le_rfl
  · exact (pairwise_iff_getElem.1 hs i j (by omega) hj hlt).keyOf_le owner

private lemma lt_of_cut (hs : ts.Pairwise Before) (hi : i + 1 < ts.length)
    (hne : keyOf owner ts[i].nftokenID ≠ keyOf owner ts[i + 1].nftokenID) :
    ∀ a ∈ ts.take (i + 1), ∀ b ∈ ts.drop (i + 1), keyOf owner a.nftokenID < keyOf owner b.nftokenID := by
  intro a ha b hb
  obtain ⟨p, hp, rfl⟩ := mem_iff_getElem.1 ha
  obtain ⟨q, hq, rfl⟩ := mem_iff_getElem.1 hb
  rw [length_take] at hp
  rw [length_drop] at hq
  rw [getElem_take, getElem_drop]
  calc keyOf owner ts[p].nftokenID
    _ ≤ keyOf owner ts[i].nftokenID := keyOf_le_of_sorted hs (by omega) (by omega)
    _ < keyOf owner ts[i + 1].nftokenID := lt_of_le_of_ne (keyOf_le_of_sorted hs (by omega) hi) hne
    _ ≤ keyOf owner ts[i + 1 + q].nftokenID := keyOf_le_of_sorted hs (by omega) (by omega)

variable {m : NFToken}

private lemma ne_of_findIdx_drop (hlen : ts.length = 32) (hm : ts[15] = m) {f : Nat} (hf : f < 16)
    (hfi : (ts.drop 16).findIdx (fun t => t.nftokenID &&& kPageMask ≠ m.nftokenID &&& kPageMask) = f) :
    keyOf owner ts[15 + f].nftokenID ≠ keyOf owner ts[15 + f + 1].nftokenID := by
  have hd : f < (ts.drop 16).length := by
    rw [length_drop]
    omega
  obtain ⟨hne, hb⟩ := (findIdx_eq hd).1 hfi
  have hne' : ts[15 + f + 1].nftokenID &&& kPageMask ≠ m.nftokenID &&& kPageMask := by
    have hix : 16 + f = 15 + f + 1 := by omega
    simpa [hix] using hne
  have heq : ts[15 + f].nftokenID &&& kPageMask = m.nftokenID &&& kPageMask := by
    cases f with
    | zero => exact congrArg (fun t => NFToken.nftokenID t &&& kPageMask) hm
    | succ f =>
      have hix : 16 + f = 15 + (f + 1) := by omega
      simpa [hix] using hb f (by omega)
  exact fun h => hne' ((keyOf_inj.1 h).symm.trans heq)

private lemma splitIndex_front (hs : ts.Pairwise Before) (hlen : ts.length = 32) (hm : ts[15] = m)
    (hb : ∀ t ∈ ts.drop 16, t.nftokenID &&& kPageMask = m.nftokenID &&& kPageMask)
    (hf : ts.findIdx (fun t => t.nftokenID &&& kPageMask = m.nftokenID &&& kPageMask) = j) :
    (j = 0 ∧ ∀ t ∈ ts, keyOf owner t.nftokenID = keyOf owner m.nftokenID) ∨
    ∃ i, j = i + 1 ∧ i + 1 < ts.length ∧
      ∀ a ∈ ts.take (i + 1), ∀ b ∈ ts.drop (i + 1), keyOf owner a.nftokenID < keyOf owner b.nftokenID := by
  have hlt : j < ts.length := hf ▸ findIdx_lt_length.2 ⟨m, hm ▸ getElem_mem _, by simp⟩
  obtain ⟨hfnd, hbef⟩ := (findIdx_eq hlt).1 hf
  simp only [decide_eq_true_eq, decide_eq_false_iff_not] at hfnd hbef
  cases j with
  | succ i =>
    refine .inr ⟨i, rfl, hlt, lt_of_cut hs hlt fun heq => ?_⟩
    exact hbef i (by omega) ((keyOf_inj.1 heq).trans hfnd)
  | zero =>
    refine .inl ⟨rfl, fun t ht => ?_⟩
    obtain ⟨p, hp, rfl⟩ := mem_iff_getElem.1 ht
    by_cases hp' : p ≤ 15
    · refine le_antisymm ((keyOf_le_of_sorted hs hp' (by omega)).trans_eq (by rw [hm])) ?_
      exact (keyOf_inj.2 hfnd).symm.trans_le (keyOf_le_of_sorted hs (Nat.zero_le p) hp)
    have hmem : ts[p] ∈ ts.drop 16 := by
      refine mem_iff_getElem.2 ⟨p - 16, by rw [length_drop]; omega, ?_⟩
      rw [getElem_drop]
      congr 1
      omega
    exact keyOf_inj.2 (hb _ hmem)

/-- The index where a page is split is between two positions, unless all tokens are at the same position. -/
private lemma splitIndex_spec (hs : ts.Pairwise Before) (hlen : ts.length = 32) (hm : ts[15] = m) :
    (splitIndex ts (m.nftokenID &&& kPageMask) = 0 ∧ ∀ t ∈ ts, keyOf owner t.nftokenID = keyOf owner m.nftokenID) ∨
    ∃ i, splitIndex ts (m.nftokenID &&& kPageMask) = i + 1 ∧ i + 1 < ts.length ∧
      ∀ a ∈ ts.take (i + 1), ∀ b ∈ ts.drop (i + 1), keyOf owner a.nftokenID < keyOf owner b.nftokenID := by
  have hh : kDirMaxTokensPerPage / 2 = 16 := by decide
  have hd : (ts.drop 16).length = 16 := by rw [length_drop, hlen]
  unfold splitIndex
  rw [hh]
  obtain ⟨f, hf⟩ : ∃ f, (ts.drop 16).findIdx (fun t => t.nftokenID &&& kPageMask ≠ m.nftokenID &&& kPageMask) = f :=
    ⟨_, rfl⟩
  have hle : f ≤ 16 := hf.symm.trans_le (findIdx_le_length.trans_eq hd)
  by_cases hlt : f < 16
  · rw [if_neg (by omega)]
    refine .inr ⟨15 + f, by omega, by omega, ?_⟩
    exact lt_of_cut hs (by omega) (ne_of_findIdx_drop hlen hm hlt hf)
  rw [if_pos (by omega)]
  refine splitIndex_front hs hlen hm (fun t ht => ?_) rfl
  have ha : (ts.drop 16).findIdx (fun t => t.nftokenID &&& kPageMask ≠ m.nftokenID &&& kPageMask) =
    (ts.drop 16).length := by omega
  simpa using findIdx_eq_length.1 ha t ht

lemma splitPage_spec (owner : AccountID) (hs : ts.Pairwise Before) (hlen : ts.length = kDirMaxTokensPerPage) (id : Uint256) :
    (splitPage ts id = none ∧ ∀ t ∈ ts, keyOf owner t.nftokenID = keyOf owner id) ∨
    (splitPage ts id = some (ts, []) ∧ ∀ t ∈ ts, keyOf owner t.nftokenID < keyOf owner id) ∨
    (splitPage ts id = some ([], ts) ∧ ∀ t ∈ ts, keyOf owner id < keyOf owner t.nftokenID) ∨
    ∃ narr carr, splitPage ts id = some (narr, carr) ∧ narr ++ carr = ts ∧ narr ≠ [] ∧ carr ≠ [] ∧
      ∀ a ∈ narr, ∀ b ∈ carr, keyOf owner a.nftokenID < keyOf owner b.nftokenID := by
  have hlen' : ts.length = 32 := hlen
  have hm : ts[kDirMaxTokensPerPage / 2 - 1]? = some ts[15] := getElem?_eq_getElem (by omega)
  unfold splitPage
  rw [hm]
  dsimp only
  rcases splitIndex_spec hs hlen' rfl with ⟨hi, ha⟩ | ⟨i, hi, hlt, hc⟩
  · rw [hi, if_neg (by omega)]
    by_cases heq : id &&& kPageMask = ts[15].nftokenID &&& kPageMask
    · rw [if_pos heq]
      exact .inl ⟨rfl, fun t ht => (ha t ht).trans (keyOf_inj.2 heq).symm⟩
    rw [if_neg heq]
    by_cases hgt : id &&& kPageMask > ts[15].nftokenID &&& kPageMask
    · rw [if_pos hgt]
      exact .inr (.inl ⟨rfl, fun t ht => (ha t ht).trans_lt (keyOf_lt_keyOf.2 hgt)⟩)
    · rw [if_neg hgt]
      have hlt : id &&& kPageMask < ts[15].nftokenID &&& kPageMask := lt_of_le_of_ne (not_lt.1 hgt) heq
      exact .inr (.inr (.inl ⟨rfl, fun t ht => (keyOf_lt_keyOf.2 hlt).trans_eq (ha t ht).symm⟩))
  · rw [hi, if_neg (by omega)]
    refine .inr (.inr (.inr ⟨_, _, rfl, take_append_drop _ ts, ?_, ?_, hc⟩))
    · exact ne_nil_of_length_pos (by rw [length_take]; omega)
    · exact ne_nil_of_length_pos (by rw [length_drop]; omega)

/-- The new page gets its key from the first token that stays on the old page, or from the last one that leaves it. -/
lemma tokenIDForNewPage_spec (hs : ts.Pairwise Before) (hlen : ts.length = kDirMaxTokensPerPage)
    {narr carr : List NFToken} (hspl : splitPage ts id = some (narr, carr)) :
    ∃ token, tokenIDForNewPage narr carr = some token ∧ Splits owner ts id narr carr (keyOf owner token) := by
  have hlen' : ts.length = 32 := hlen
  unfold tokenIDForNewPage
  rcases splitPage_spec owner hs hlen id with ⟨heq, -⟩ | ⟨heq, hall⟩ | ⟨heq, hall⟩ |
    ⟨narr', carr', heq, happ, hne, hne', hlt⟩ <;> rw [heq] at hspl
  · cases hspl
  · obtain ⟨rfl, rfl⟩ := Prod.mk.inj (some.inj hspl)
    rw [if_pos hlen, getElem?_eq_getElem (by omega)]
    refine ⟨_, rfl, ?_⟩
    have hl : keyOf owner ts[31].nftokenID < keyOf owner id := hall _ (getElem_mem _)
    have hn := toNat_keyOf_next (hl.trans_le (keyOf_le_max owner id)).ne
    have hle : keyOf owner ts[31].nftokenID.next ≤ keyOf owner id := by
      rw [BitVec.le_def, hn]
      exact hl
    refine ⟨append_nil ts, fun t ht => ?_, by simp, ?_, fun _ => hle, fun hlt => absurd hle (not_le.2 hlt),
      by simp [kDirMaxTokensPerPage]⟩
    · obtain ⟨p, hp, rfl⟩ := mem_iff_getElem.1 ht
      have hp' : keyOf owner ts[p].nftokenID ≤ keyOf owner ts[31].nftokenID :=
        keyOf_le_of_sorted hs (by omega) (by omega)
      exact Nat.lt_of_le_of_lt hp' (hn ▸ Nat.lt_succ_self _)
    · rintro rfl
      simp at hlen'
  · obtain ⟨rfl, rfl⟩ := Prod.mk.inj (some.inj hspl)
    cases ts with
    | nil => simp at hlen'
    | cons t ts =>
      have hid := hall t (by simp)
      refine ⟨t.nftokenID, by simp [kDirMaxTokensPerPage], rfl, by simp, fun t' ht' => ?_, fun _ => hid, by simp,
        by simp [kDirMaxTokensPerPage], fun hle => absurd hid (not_lt.2 hle)⟩
      rcases mem_cons.1 ht' with rfl | ht'
      · exact le_rfl
      · exact ((pairwise_cons.1 hs).1 t' ht').keyOf_le owner
  · obtain ⟨rfl, rfl⟩ := Prod.mk.inj (some.inj hspl)
    cases carr' with
    | nil => exact absurd rfl hne'
    | cons t carr =>
      have hpos := length_pos_of_ne_nil hne
      rw [← happ, length_append, length_cons] at hlen
      rw [if_neg (by omega)]
      refine ⟨t.nftokenID, rfl, happ, fun a ha => hlt a ha t (by simp), fun t' ht' => ?_, fun h => absurd h hne,
        by simp, fun _ => by omega, fun _ => by rw [length_cons]; omega⟩
      rcases mem_cons.1 ht' with rfl | ht'
      · exact le_rfl
      · rw [← happ] at hs
        exact ((pairwise_cons.1 (pairwise_append.1 hs).2.1).1 t' ht').keyOf_le owner

end

/-- What holds of each page: its key belongs to the account, it has tokens, not too many, and in the right order. -/
structure PageOk (owner : AccountID) (e : Uint256 × List NFToken) : Prop where
  key : keyOf owner e.1 = e.1
  nonempty : e.2 ≠ []
  small : e.2.length ≤ kDirMaxTokensPerPage
  sorted : e.2.Pairwise Before

structure Valid (owner : AccountID) (l : Buckets Uint256 NFToken) : Prop where
  cut : l.Cut (fun t => keyOf owner t.nftokenID) (nftpageMax owner)
  page : ∀ e ∈ l, PageOk owner e

lemma valid_nil (owner : AccountID) : Valid owner [] := ⟨⟨.nil, by simp, by simp, by simp⟩, by simp⟩

/-- Any two adjacent pages hold more tokens than fit on one. -/
def Dense (l : Buckets Uint256 NFToken) : Prop := l.IsChain fun e e' => kDirMaxTokensPerPage < e.2.length + e'.2.length

lemma Dense.grow {l m : Buckets Uint256 NFToken} {k n : Uint256} {a b : List NFToken}
    (h : Dense (l ++ (k, a) :: m)) (hab : a.length ≤ b.length) : Dense (l ++ (n, b) :: m) := by
  obtain ⟨h1, h2, h3⟩ := isChain_append.1 h
  obtain ⟨h4, h5⟩ := isChain_cons.1 h2
  refine isChain_append.2 ⟨h1, isChain_cons.2 ⟨fun e he => ?_, h5⟩, fun e he e' he' => ?_⟩
  · exact (h4 e he).trans_le (Nat.add_le_add_right hab _)
  · obtain rfl : (n, b) = e' := by simpa using he'
    exact (h3 e he (k, a) rfl).trans_le (Nat.add_le_add_left hab _)

end Xrpl.NFT

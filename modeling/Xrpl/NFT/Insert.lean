import Xrpl.NFT.PageLinks

/-!
# Inserting a token

* `Room`: there is room for a token on a page, and the token belongs there;
* `insertToken_spec`: the token is on the pages, or there are too many tokens with its low bits.
-/

namespace Xrpl.NFT

open Ledger List Function Multiset Buckets

variable {owner : AccountID} {l l1 l2 : Buckets Uint256 NFToken} {s : Tokens} {id k n : Uint256}
  {ts narr carr : List NFToken} {nft : NFToken}

/-- The number of tokens with the low bits of `id`. -/
def equivalents (l : Buckets Uint256 NFToken) (id : Uint256) : Nat :=
  l.items.countP fun t => t.nftokenID &&& kPageMask = id &&& kPageMask

private lemma Valid.equivalents_eq (h : Valid owner (l1 ++ (k, ts) :: l2)) {t : NFToken} (ht : t ∈ ts)
    (hid : t.nftokenID &&& kPageMask = id &&& kPageMask) :
    equivalents (l1 ++ (k, ts) :: l2) id = ts.countP fun t => t.nftokenID &&& kPageMask = id &&& kPageMask := by
  have hn := h.cut.keys_nodup
  have ho : ∀ e ∈ l1 ++ l2, ∀ t' ∈ e.2, ¬t'.nftokenID &&& kPageMask = id &&& kPageMask := by
    intro e he t' ht' hid'
    have hmem : e ∈ l1 ++ (k, ts) :: l2 := by
      simp at he ⊢
      tauto
    have hp : (k, ts) ∈ l1 ++ (k, ts) :: l2 := by simp
    have hloc := h.cut.locate_eq hmem ht'
    rw [keyOf_inj.2 (hid'.trans hid.symm), h.cut.locate_eq hp ht] at hloc
    cases hloc
    have hnot := Represents.notMem_of_nodup hn ts
    rcases mem_append.1 he with he | he
    · exact hnot.1 he
    · exact hnot.2 he
  have hz : ∀ l' : Buckets Uint256 NFToken, (∀ e ∈ l', e ∈ l1 ++ l2) →
      l'.items.countP (fun t => t.nftokenID &&& kPageMask = id &&& kPageMask) = 0 := by
    intro l' hl'
    refine Multiset.countP_eq_zero.2 fun t' ht' => ?_
    obtain ⟨e, he, ht'⟩ := Buckets.mem_items.1 ht'
    exact ho e (hl' e he) t' ht'
  rw [equivalents, items_append, items_cons, countP_add, countP_add,
    hz l1 (fun e he => by simp [he]), hz l2 (fun e he => by simp [he])]
  simp

lemma Valid.equivalents_le (h : Valid owner l) (id : Uint256) : equivalents l id ≤ kDirMaxTokensPerPage := by
  by_cases hn : ∀ t ∈ l.items, ¬t.nftokenID &&& kPageMask = id &&& kPageMask
  · rw [equivalents, countP_eq_zero.2 hn]
    exact Nat.zero_le _
  push Not at hn
  obtain ⟨t, ht, hid⟩ := hn
  obtain ⟨⟨k, ts⟩, he, hts⟩ := mem_items.1 ht
  obtain ⟨l1, l2, rfl⟩ := append_of_mem he
  rw [h.equivalents_eq hts hid]
  exact countP_le_length.trans (h.page (k, ts) he).small

private lemma ids_nodup_of_sorted (h : ts.Pairwise Before) : (ts.map NFToken.nftokenID).Nodup := by
  refine pairwise_map.2 (h.imp fun {t t'} hlt heq => ?_)
  have ha := compareTokens_asymm hlt
  rw [Before, heq] at hlt
  rw [heq, hlt] at ha
  exact absurd ha (by simp)

/-- The token goes to the page `(k, ts)`, and there is room on it. -/
structure Room (owner : AccountID) (id : Uint256) (l₁ : Buckets Uint256 NFToken) (k : Uint256) (ts : List NFToken)
    (l₂ : Buckets Uint256 NFToken) : Prop where
  cut : (l₁ ++ (k, ts) :: l₂).Cut (fun t => keyOf owner t.nftokenID) (nftpageMax owner)
  others : ∀ e ∈ l₁ ++ l₂, PageOk owner e
  key : keyOf owner k = k
  small : ts.length < kDirMaxTokensPerPage
  sorted : ts.Pairwise Before
  before : ∀ e ∈ l₁, e.1 ≤ keyOf owner id
  below : k ≠ nftpageMax owner → keyOf owner id < k

private lemma Room.insert (h : Room owner nft.nftokenID l1 k ts l2)
    (hnew : ∀ t ∈ ts, t.nftokenID ≠ nft.nftokenID) : Valid owner (l1 ++ (k, sortTokens (ts ++ [nft])) :: l2) := by
  have hmem : ∀ t, t ∈ sortTokens (ts ++ [nft]) ↔ t ∈ ts ∨ t = nft := fun t => by
    rw [(sortTokens_perm _).mem_iff, List.mem_append, List.mem_singleton]
  have hlen : (sortTokens (ts ++ [nft])).length = ts.length + 1 := by
    rw [(sortTokens_perm _).length_eq, length_append, length_singleton]
  have hn : ((ts ++ [nft]).map NFToken.nftokenID).Nodup := by
    rw [List.map_append, List.nodup_append]
    refine ⟨ids_nodup_of_sorted h.sorted, List.nodup_singleton _, ?_⟩
    simpa using hnew
  refine ⟨h.cut.setItems fun t ht => ?_, fun e he => ?_⟩
  · rcases (hmem t).1 ht with ht | rfl
    · exact ⟨fun e he => (h.cut.at_bucket.1 e he).2 t ht, h.cut.below (k, ts) (by simp) t ht⟩
    · exact ⟨h.before, h.below⟩
  by_cases hk : e = (k, sortTokens (ts ++ [nft]))
  · subst hk
    have hsm := h.small
    exact ⟨h.key, ne_nil_of_length_pos (by simp only; omega), by simp only; omega, sortTokens_pairwise hn⟩
  · exact h.others e (by simpa [hk] using he)

private lemma items_sortTokens :
    (l1 ++ (k, sortTokens (ts ++ [nft])) :: l2).items = nft ::ₘ (l1 ++ (k, ts) :: l2).items := by
  have hp : (sortTokens (ts ++ [nft]) : Multiset NFToken) = nft ::ₘ (ts : Multiset NFToken) := by
    rw [cons_coe, coe_eq_coe]
    exact (sortTokens_perm _).trans (perm_append_singleton nft ts)
  rw [items_append, items_append, items_cons, items_cons, hp, cons_add, add_cons]

private lemma Valid.room (h : Valid owner (l1 ++ (k, ts) :: l2)) (hbe : ∀ e ∈ l1, e.1 ≤ keyOf owner id)
    (hbl : keyOf owner id < k ∨ l2 = []) (hsm : ts.length ≠ kDirMaxTokensPerPage) : Room owner id l1 k ts l2 where
  cut := h.cut
  others e he := h.page e (by simp at he ⊢; tauto)
  key := (h.page (k, ts) (by simp)).key
  small := lt_of_le_of_ne (h.page (k, ts) (by simp)).small hsm
  sorted := (h.page (k, ts) (by simp)).sorted
  before := hbe
  below ht := hbl.resolve_right fun hn => ht (h.cut.eq_top_iff.2 hn)

/-! ### Splitting a page -/

section

variable (h : Valid owner (l1 ++ (k, ts) :: l2)) (hbe : ∀ e ∈ l1, e.1 ≤ keyOf owner id)
  (hbl : keyOf owner id < k ∨ l2 = []) (hsp : Splits owner ts id narr carr n)

include h hbl hsp in
/-- The key of the new page is below that of the old one, unless a token has all low bits set. -/
private lemma Splits.lt_or_eq : n < k ∨ n = k ∧
    (keyOf owner id = nftpageMax owner ∨ ∃ t ∈ carr, keyOf owner t.nftokenID = nftpageMax owner) := by
  have hcas : ∀ id', n ≤ keyOf owner id' → (k ≠ nftpageMax owner → keyOf owner id' < k) →
      n < k ∨ n = k ∧ keyOf owner id' = nftpageMax owner := by
    intro id' hn hk
    have hmax := keyOf_le_max owner id'
    by_cases htop : k = nftpageMax owner
    · rcases (hn.trans hmax).lt_or_eq with hlt | heq
      · exact .inl (htop ▸ hlt)
      · exact .inr ⟨heq.trans htop.symm, le_antisymm hmax (heq ▸ hn)⟩
    · exact .inl (hn.trans_lt (hk htop))
  cases hc : carr with
  | nil =>
    have hbl' : k ≠ nftpageMax owner → keyOf owner id < k := fun htop =>
      hbl.resolve_right fun hnil => htop (h.cut.eq_top_iff.2 hnil)
    exact (hcas id (hsp.after hc) hbl').imp_right fun ⟨hk, hmax⟩ => ⟨hk, .inl hmax⟩
  | cons t carr' =>
    have ht : t ∈ carr := hc ▸ mem_cons_self
    have hts : t ∈ ts := by simp [← hsp.append, ht]
    refine (hcas t.nftokenID (hsp.above t ht) (h.cut.below (k, ts) (by simp) t hts)).imp_right ?_
    exact fun ⟨hk, hmax⟩ => ⟨hk, .inr ⟨t, by simp, hmax⟩⟩

include h hbe hsp in
private lemma Splits.key_lt : ∀ e ∈ l1, e.1 < n := by
  intro e he
  cases hn : narr with
  | nil => exact (hbe e he).trans_lt (hsp.before hn)
  | cons t narr' =>
    have ht : t ∈ narr := hn ▸ mem_cons_self
    have hts : t ∈ ts := by simp [← hsp.append, ht]
    exact ((h.cut.at_bucket.1 e he).2 t hts).trans_lt (hsp.below t ht)

include h hbe hsp in
private lemma Splits.cut (hnk : n < k) : (l1 ++ (n, narr) :: (k, carr) :: l2).Cut (fun t => keyOf owner t.nftokenID)
    (nftpageMax owner) := by
  have hmem : ∀ t, t ∈ ts ↔ t ∈ narr ∨ t ∈ carr := fun t => by rw [← hsp.append, mem_append]
  have hold : ∀ t ∈ ts, ∀ e ∈ l1, e.1 ≤ keyOf owner t.nftokenID := fun t ht e he => (h.cut.at_bucket.1 e he).2 t ht
  refine Buckets.Cut.insertBucket (h.cut.setItems fun t ht => ?_) (hsp.key_lt h hbe) hnk (fun t ht => ?_)
    hsp.above
  · have hts := (hmem t).2 (.inr ht)
    exact ⟨hold t hts, h.cut.below (k, ts) (by simp) t hts⟩
  · exact ⟨hold t ((hmem t).2 (.inl ht)), hsp.below t ht⟩

include h hsp in
private lemma Splits.sublists : narr.length ≤ kDirMaxTokensPerPage ∧ carr.length ≤ kDirMaxTokensPerPage ∧
    narr.Pairwise Before ∧ carr.Pairwise Before := by
  have hp := h.page (k, ts) (by simp)
  have hsm := hp.small
  have hs := hp.sorted
  simp only [← hsp.append, length_append, pairwise_append] at hsm hs
  exact ⟨by omega, by omega, hs.1, hs.2.1⟩

include h hbe hsp in
private lemma Splits.notMem_keys (hnk : n < k) : n ∉ (l1 ++ (k, ts) :: l2).keys := by
  intro hmem
  obtain ⟨e, he, rfl⟩ := mem_map.1 hmem
  rcases mem_append.1 he with he | he
  · exact lt_irrefl _ (hsp.key_lt h hbe e he)
  · rcases mem_cons.1 he with rfl | he
    · exact lt_irrefl _ hnk
    · exact lt_asymm hnk (h.cut.at_bucket.2 e he).1

include h hbe hbl hsp in
private lemma Splits.some_room (hn : keyOf owner n = n) (hnk : n < k) :
    if keyOf owner id < n then Room owner id l1 n narr ((k, carr) :: l2)
    else Room owner id (l1 ++ [(n, narr)]) k carr l2 := by
  have hcut := hsp.cut h hbe hnk
  have hkey := (h.page (k, ts) (by simp)).key
  obtain ⟨hna, hc, hna', hc'⟩ := hsp.sublists h
  split_ifs with hid
  · refine ⟨hcut, fun e he => ?_, hn, hsp.room hid, hna', hbe, fun _ => hid⟩
    by_cases hk : e = (k, carr)
    · subst hk
      exact ⟨hkey, fun hnil => absurd (hsp.after hnil) (not_le.2 hid), hc, hc'⟩
    · exact h.page e (by simp [hk] at he ⊢; tauto)
  · have hle := not_lt.1 hid
    rw [append_cons] at hcut
    refine ⟨hcut, fun e he => ?_, hkey, hsp.room' hle, hc', fun e he => ?_, fun ht => ?_⟩
    · by_cases hk : e = (n, narr)
      · subst hk
        exact ⟨hn, fun hnil => hid (hsp.before hnil), hna, hna'⟩
      · exact h.page e (by simp [hk] at he ⊢; tauto)
    · rcases mem_append.1 he with he | he
      · exact hbe e he
      · obtain rfl := List.mem_singleton.1 he
        exact hle
    · exact hbl.resolve_right fun hnil => ht (h.cut.eq_top_iff.2 hnil)

end

private lemma insertPage_spec (narr carr : List NFToken) (h : Represents s.pages (l1 ++ (k, ts) :: l2))
    (hno : (l1 ++ (k, ts) :: l2).keys.Nodup) (hn : n ∉ (l1 ++ (k, ts) :: l2).keys) :
    Succeeds (insertPage s n k ⟨ts, l2.keys.head?, l1.keys.getLast?⟩ narr carr) fun s' =>
      Represents s'.pages (l1 ++ (n, narr) :: (k, carr) :: l2) ∧ s'.adjustments = s.adjustments ++ [1] := by
  have hmem := h.mem_of_getLast?
  have hne : n ≠ k := fun heq => hn (by simp [heq])
  refine (relink_spec hmem (some n) fun k hk => if_pos (hmem k hk)).bind fun v1 h1 => ?_
  refine (insertNew_reads (fun hv => hn (h.mem_iff.1 (h1.mem_iff.1 hv))) _).bind fun v2 h2 => ?_
  have hk : k ∈ v2 := by
    rw [← tokensOf_isSome, h2.tokens_eq, update_of_ne hne.symm, h1.tokens_eq, tokensOf_isSome]
    exact h.mem_iff.2 (by simp)
  -- it is as if the tokens of the page had changed before the new page came
  obtain ⟨w, -, hw⟩ := modify_setNFTokens h.lookup_eq fun _ => carr
  have hs := h.setTokens hno hw
  refine (modify_refill hk carr (some n)).bind fun v3 h3 =>
    .pure ⟨hs.insert (by simpa using hno) (by simpa using hn) ⟨rfl, rfl, ?_⟩ ?_ ?_, rfl⟩
  · refine h3.tokens_eq.trans ?_
    rw [h2.tokens_eq, h1.tokens_eq, hw.tokens_eq, update_comm hne]
  · intro c
    refine (congrFun h3.next_eq c).trans ?_
    rw [h2.next_eq, h1.next_eq, update_apply, hw.next_eq]
    simp
  intro c
  refine (congrFun h3.prev_eq c).trans ?_
  rw [h2.prev_eq, h1.prev_eq, update_apply, update_apply, hw.prev_eq]
  simp
  by_cases hc : c = k
  · subst hc
    simp [hne.symm]
  · simp [hc, Ne.symm hc]

private lemma insertPage_error (h : Represents s.pages (l1 ++ (k, ts) :: l2)) :
    insertPage s k k ⟨ts, l2.keys.head?, l1.keys.getLast?⟩ narr carr = .error .insertExisting := by
  have hmem := h.mem_of_getLast?
  refine (relink_spec hmem (some k) fun c hc => if_pos (hmem c hc)).bind_eq fun v1 h1 => ?_
  have hk : k ∈ v1 := h1.mem_iff.2 (h.mem_iff.2 (by simp))
  rw [View.insertNew, if_pos hk]
  rfl

/-! ### The page for a token -/

/-- The owner count is adjusted by the number of pages that come or go. -/
def Counts (s : Tokens) (l : Buckets Uint256 NFToken) (s' : Tokens) (l' : Buckets Uint256 NFToken) : Prop :=
  ∃ d : Option Int, s'.adjustments = s.adjustments ++ d.toList ∧ (l'.length : Int) = l.length + d.getD 0

/-- The token or one of those on the pages has all low bits set. -/
def AllOnes (l : Buckets Uint256 NFToken) (id : Uint256) : Prop :=
  id &&& kPageMask = kPageMask ∨ ∃ t ∈ l.items, t.nftokenID &&& kPageMask = kPageMask

private lemma splitPage_eq_none (hva : Valid owner (l1 ++ (k, ts) :: l2)) (hbe : ∀ e ∈ l1, e.1 ≤ keyOf owner id)
    (hbl : keyOf owner id < k ∨ l2 = []) (hf : ts.length = kDirMaxTokensPerPage)
    (hc : equivalents (l1 ++ (k, ts) :: l2) id = kDirMaxTokensPerPage) : splitPage ts id = none := by
  have hs : ts.Pairwise Before := (hva.page (k, ts) (by simp)).sorted
  obtain ⟨t, ht, hid⟩ := countP_pos.1 (show 0 < equivalents _ id by rw [hc]; decide)
  obtain ⟨e, he, hte⟩ := mem_items.1 ht
  have hl := hva.cut.locate_eq he hte
  rw [keyOf_inj.2 hid, locate_append hbe hbl] at hl
  obtain rfl := Option.some.inj hl
  rw [hva.equivalents_eq hte hid, ← hf, countP_eq_length] at hc
  have hall : ∀ t ∈ ts, keyOf owner t.nftokenID = keyOf owner id := fun t ht =>
    keyOf_inj.2 (by simpa using hc t ht)
  rcases splitPage_spec owner hs hf id with ⟨hn, -⟩ | ⟨-, hlt⟩ | ⟨-, hlt⟩ |
    ⟨narr, carr, -, happ, hne, hne', hlt⟩
  · exact hn
  · exact absurd (hall t hte) (hlt t hte).ne
  · exact absurd (hall t hte) (hlt t hte).ne'
  obtain ⟨a, ha⟩ := exists_mem_of_ne_nil _ hne
  obtain ⟨b, hb⟩ := exists_mem_of_ne_nil _ hne'
  have ha' := hall a (by simp [← happ, ha])
  have hb' := hall b (by simp [← happ, hb])
  exact absurd (ha'.trans hb'.symm) (hlt a ha b hb).ne

private lemma getPageForToken_full (h : Represents s.pages (l1 ++ (k, ts) :: l2))
    (hva : Valid owner (l1 ++ (k, ts) :: l2))
    (hk : locateKey s.pages owner id = k) (hbe : ∀ e ∈ l1, e.1 ≤ keyOf owner id)
    (hbl : keyOf owner id < k ∨ l2 = []) (hf : ts.length = kDirMaxTokensPerPage) :
    (getPageForToken s owner id = .error .insertExisting ∧ AllOnes (l1 ++ (k, ts) :: l2) id ∧
      equivalents (l1 ++ (k, ts) :: l2) id ≠ kDirMaxTokensPerPage) ∨
    (getPageForToken s owner id = .ok (none, s) ∧ equivalents (l1 ++ (k, ts) :: l2) id = kDirMaxTokensPerPage) ∨
    ∃ m1 k' ts' m2 s', getPageForToken s owner id = .ok (some k', s') ∧ Represents s'.pages (m1 ++ (k', ts') :: m2) ∧
      Room owner id m1 k' ts' m2 ∧ (m1 ++ (k', ts') :: m2).items = (l1 ++ (k, ts) :: l2).items ∧
      Counts s (l1 ++ (k, ts) :: l2) s' (m1 ++ (k', ts') :: m2) ∧
      (l1 ++ (k, ts) :: l2).length < (m1 ++ (k', ts') :: m2).length := by
  have hp := hva.page (k, ts) (by simp)
  unfold getPageForToken
  dsimp only
  rw [hk, h.lookup_eq]
  dsimp only
  rw [if_neg (not_not.2 hf)]
  cases hsp : splitPage ts id with
  | none =>
    rcases splitPage_spec owner hp.sorted hf id with ⟨-, ha⟩ | ⟨hso, -⟩ | ⟨hso, -⟩ | ⟨_, _, hso, -⟩
    · refine .inr (.inl ⟨rfl, ?_⟩)
      obtain ⟨t, ht⟩ := exists_mem_of_ne_nil _ hp.nonempty
      rw [hva.equivalents_eq ht (keyOf_inj.1 (ha t ht)), countP_eq_length.2, hf]
      exact fun t ht => by simpa using keyOf_inj.1 (ha t ht)
    all_goals cases hsp.symm.trans hso
  | some r =>
    obtain ⟨narr, carr⟩ := r
    obtain ⟨token, htok, hs⟩ : ∃ token, tokenIDForNewPage narr carr = some token ∧
      Splits owner ts id narr carr (keyOf owner token) := tokenIDForNewPage_spec hp.sorted hf hsp
    dsimp only
    rw [htok]
    dsimp only
    rw [← keyOf, ← keyOf]
    rcases hs.lt_or_eq hva hbl with hnk | ⟨hnk, ho⟩
    · obtain ⟨s', hs', hrep, hadj⟩ :=
        insertPage_spec narr carr h hva.cut.keys_nodup (hs.notMem_keys hva hbe hnk)
      have hr := hs.some_room hva hbe hbl (keyOf_keyOf owner token) hnk
      have hi : (l1 ++ (keyOf owner token, narr) :: (k, carr) :: l2).items = (l1 ++ (k, ts) :: l2).items := by
        rw [← hs.append]
        exact (items_merge ..).symm
      have hc : Counts s (l1 ++ (k, ts) :: l2) s' (l1 ++ (keyOf owner token, narr) :: (k, carr) :: l2) :=
        ⟨some 1, hadj, by simp [add_assoc]⟩
      refine .inr (.inr ?_)
      rw [hs']
      split_ifs at hr with hid
      · exact ⟨_, _, _, _, s', by simp [hid], hrep, hr, hi, hc, by simp⟩
      · rw [append_cons l1 (keyOf owner token, narr)] at hrep hi hc
        exact ⟨_, _, _, _, s', by simp [hid], hrep, hr, hi, hc, by simp⟩
    · rw [hnk, insertPage_error h]
      refine .inl ⟨rfl, ho.imp keyOf_eq_max.1 ?_, fun hcnt => ?_⟩
      · rintro ⟨t, ht, hmax⟩
        refine ⟨t, ?_, keyOf_eq_max.1 hmax⟩
        rw [← hs.append]
        exact mem_items.2 ⟨(k, narr ++ carr), by simp, by simp [ht]⟩
      · cases hsp.symm.trans (splitPage_eq_none hva hbe hbl hf hcnt)

variable (hown : owner ≠ BitVec.allOnes 160) (h : Represents s.pages l) (hva : Valid owner l)

include hown h hva

private lemma getPageForToken_spec (id : Uint256) :
    (getPageForToken s owner id = .error .insertExisting ∧ AllOnes l id ∧ equivalents l id ≠ kDirMaxTokensPerPage) ∨
    (getPageForToken s owner id = .ok (none, s) ∧ equivalents l id = kDirMaxTokensPerPage) ∨
    ∃ l1 k ts l2 s', getPageForToken s owner id = .ok (some k, s') ∧ Represents s'.pages (l1 ++ (k, ts) :: l2) ∧
      Room owner id l1 k ts l2 ∧ (l1 ++ (k, ts) :: l2).items = l.items ∧ Counts s l s' (l1 ++ (k, ts) :: l2) ∧
      (l = l1 ++ (k, ts) :: l2 ∨ l.length < (l1 ++ (k, ts) :: l2).length) := by
  cases hloc : l.locate (keyOf owner id) with
  | none =>
    obtain rfl := locate_eq_none.1 hloc
    have hl : nftpageMax owner ∉ s.pages := fun hmem => by simpa using h.mem_iff.1 hmem
    obtain ⟨v, hv, hr⟩ := insertNew_reads hl ⟨[], none, none⟩
    have hn : Represents s.pages ([] ++ []) := h
    have hrep : Represents v [(nftpageMax owner, [])] := hn.insert (by simp) (by simp) hr
      (fun a => by simp [update_apply]) (fun a => by simp [update_apply])
    have hro : Room owner id [] (nftpageMax owner) [] [] := ⟨⟨pairwise_singleton _ _, by simp, by simp, by simp⟩,
      by simp, keyOf_max owner, by decide, .nil, by simp, fun h => absurd rfl h⟩
    refine .inr (.inr ⟨[], nftpageMax owner, [], [], ⟨v, s.adjustments ++ [1]⟩, ?_, hrep, hro, by simp,
      ⟨some 1, rfl, by simp⟩, .inr (by simp)⟩)
    unfold getPageForToken
    dsimp only
    rw [locateKey_of_empty h, AList.lookup_eq_none.2 hl]
    rw [hv]
    rfl
  | some e =>
    have hk := locateKey_eq h hva hown hloc
    obtain ⟨l1, l2, rfl, hbe, hbl⟩ := locate_split hloc
    obtain ⟨k, ts⟩ := e
    by_cases hf : ts.length = kDirMaxTokensPerPage
    · exact (getPageForToken_full h hva hk hbe hbl hf).imp_right <| Or.imp_right
        fun ⟨m1, k', ts', m2, s', hs, hr, hro, hi, hc, hlt⟩ => ⟨m1, k', ts', m2, s', hs, hr, hro, hi, hc, .inr hlt⟩
    refine .inr (.inr ⟨l1, k, ts, l2, s, ?_, h, hva.room hbe hbl hf, rfl, ⟨none, by simp, by simp⟩, .inl rfl⟩)
    unfold getPageForToken
    dsimp only
    rw [hk, h.lookup_eq]
    exact if_pos hf

/-- A new token is inserted, unless as many tokens as there may be on a page have its low bits. -/
lemma insertToken_spec (hn : ∀ t ∈ l.items, t.nftokenID ≠ nft.nftokenID) :
    (insertToken s owner nft = .error .insertExisting ∧ AllOnes l nft.nftokenID ∧
      equivalents l nft.nftokenID ≠ kDirMaxTokensPerPage) ∨
    (insertToken s owner nft = .ok (.tecNO_SUITABLE_NFTOKEN_PAGE, s) ∧
      equivalents l nft.nftokenID = kDirMaxTokensPerPage) ∨
    ∃ l' s', insertToken s owner nft = .ok (.tesSUCCESS, s') ∧ Represents s'.pages l' ∧ Valid owner l' ∧
      l'.items = nft ::ₘ l.items ∧ Counts s l s' l' ∧ (Dense l → l'.length = l.length → Dense l') := by
  unfold insertToken
  rcases getPageForToken_spec hown h hva nft.nftokenID with ⟨hp, ho⟩ | ⟨hp, hc⟩ |
    ⟨l1, k, ts, l2, s', hp, hrep, hr, hi, hcts, hl⟩ <;> rw [hp]
  · exact .inl ⟨rfl, ho⟩
  · exact .inr (.inl ⟨rfl, hc⟩)
  obtain ⟨v, hv, hre⟩ := modify_setNFTokens hrep.lookup_eq fun arr => sortTokens (arr ++ [nft])
  have hn' : ∀ t ∈ ts, t.nftokenID ≠ nft.nftokenID := fun t ht =>
    hn t (hi ▸ mem_items.2 ⟨(k, ts), by simp, ht⟩)
  refine .inr (.inr ⟨l1 ++ (k, sortTokens (ts ++ [nft])) :: l2, { s' with pages := v }, ?_,
    hrep.setTokens hr.cut.keys_nodup hre, hr.insert hn', ?_, ?_, fun hd hlen => ?_⟩)
  · change (s'.pages.modify k _ >>= _) = _
    rw [hv]
    rfl
  · rw [items_sortTokens, hi]
  · obtain ⟨d, hd, hlen⟩ := hcts
    exact ⟨d, hd, by simpa using hlen⟩
  · rcases hl with rfl | hlt
    · exact hd.grow (by simp [(sortTokens_perm _).length_eq])
    · exact absurd hlen (by simpa using hlt.ne')

end Xrpl.NFT

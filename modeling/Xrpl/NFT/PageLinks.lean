import Xrpl.Lib.Linked
import Xrpl.Lib.Yields
import Xrpl.NFT.PageList

/-!
# Linked pages refine lists of pages

* `Represents`: the links of the pages run through a list of pages;
* `Represents.setTokens`, `Represents.insert`, `Represents.erase`: how the pages may be changed;
* `locateKey_eq`: the search for a page finds the one that the list gives;
* `mergePages_spec`.
-/

namespace Xrpl.NFT

open Ledger List Option Function Buckets View Buckets NFTokenPage

def nextOf (v : PageView) (k : Uint256) : Option (Option Uint256) := (v.lookup k).map nextPageMin

def prevOf (v : PageView) (k : Uint256) : Option (Option Uint256) := (v.lookup k).map previousPageMin

def tokensOf (v : PageView) (k : Uint256) : Option (List NFToken) := (v.lookup k).map nftokens

variable {k : Uint256} {v : PageView}

lemma tokensOf_isSome : (tokensOf v k).isSome ↔ k ∈ v := by
  rw [tokensOf, isSome_map, AList.lookup_isSome]

/-- All that is read of the pages. -/
structure Reads (v : PageView) (next prev : Uint256 → Option (Option Uint256)) (tokens : Uint256 → Option (List NFToken)) :
    Prop where
  next_eq : nextOf v = next
  prev_eq : prevOf v = prev
  tokens_eq : tokensOf v = tokens

private lemma reads_insert (v : PageView) (k : Uint256) (p : NFTokenPage) : Reads (AList.insert k p v)
    (update (nextOf v) k (some p.nextPageMin)) (update (prevOf v) k (some p.previousPageMin))
    (update (tokensOf v) k (some p.nftokens)) :=
  ⟨map_lookup_insert _ v k p, map_lookup_insert _ v k p, map_lookup_insert _ v k p⟩

lemma Reads.mem_iff {v' : PageView} {next prev : Uint256 → Option (Option Uint256)} (h : Reads v' next prev (tokensOf v))
    : k ∈ v' ↔ k ∈ v := by
  rw [← tokensOf_isSome, h.tokens_eq, tokensOf_isSome]

lemma insertNew_reads (hk : k ∉ v) (p : NFTokenPage) : Succeeds (v.insertNew k p) fun v' =>
    Reads v' (update (nextOf v) k (some p.nextPageMin)) (update (prevOf v) k (some p.previousPageMin))
      (update (tokensOf v) k (some p.nftokens)) :=
  ⟨_, insertNew_eq hk, reads_insert v k p⟩

lemma eraseKey_reads (hk : k ∈ v) : Succeeds (v.eraseKey k) fun v' =>
    Reads v' (update (nextOf v) k none) (update (prevOf v) k none) (update (tokensOf v) k none) :=
  ⟨_, eraseKey_eq hk, map_lookup_erase _ v k, map_lookup_erase _ v k, map_lookup_erase _ v k⟩

private lemma exists_lookup (hk : k ∈ v) : ∃ p, v.lookup k = some p ∧
    nextOf v k = some p.nextPageMin ∧ prevOf v k = some p.previousPageMin ∧ tokensOf v k = some p.nftokens := by
  obtain ⟨p, hp⟩ := isSome_iff_exists.1 (AList.lookup_isSome.2 hk)
  exact ⟨p, hp, by simp [nextOf, hp], by simp [prevOf, hp], by simp [tokensOf, hp]⟩

lemma modify_setNextPageMin (hk : k ∈ v) (link : Option Uint256) :
    Succeeds (v.modify k (setNextPageMin link)) fun v' =>
      Reads v' (update (nextOf v) k (some link)) (prevOf v) (tokensOf v) := by
  obtain ⟨p, hp, -, hpr, ht⟩ := exists_lookup hk
  have h := reads_insert v k (p.setNextPageMin link)
  refine ⟨_, modify_eq hp, h.next_eq, h.prev_eq.trans ?_, h.tokens_eq.trans ?_⟩
  · exact update_eq_self_iff.2 hpr.symm
  · exact update_eq_self_iff.2 ht.symm

lemma modify_setPreviousPageMin (hk : k ∈ v) (link : Option Uint256) :
    Succeeds (v.modify k (setPreviousPageMin link)) fun v' =>
      Reads v' (nextOf v) (update (prevOf v) k (some link)) (tokensOf v) := by
  obtain ⟨p, hp, hn, -, ht⟩ := exists_lookup hk
  have h := reads_insert v k (p.setPreviousPageMin link)
  refine ⟨_, modify_eq hp, h.next_eq.trans ?_, h.prev_eq, h.tokens_eq.trans ?_⟩
  · exact update_eq_self_iff.2 hn.symm
  · exact update_eq_self_iff.2 ht.symm

lemma modify_refill (hk : k ∈ v) (arr : List NFToken) (link : Option Uint256) :
    Succeeds (v.modify k fun p => (p.setNFTokens arr).setPreviousPageMin link) fun v' =>
      Reads v' (nextOf v) (update (prevOf v) k (some link)) (update (tokensOf v) k (some arr)) := by
  obtain ⟨p, hp, hn, -⟩ := exists_lookup hk
  have h := reads_insert v k ((p.setNFTokens arr).setPreviousPageMin link)
  refine ⟨_, modify_eq hp, h.next_eq.trans ?_, h.prev_eq, h.tokens_eq⟩
  exact update_eq_self_iff.2 hn.symm

lemma modify_setNFTokens {p : NFTokenPage} (hp : v.lookup k = some p)
    (f : List NFToken → List NFToken) : Succeeds (v.modify k fun p => p.setNFTokens (f p.nftokens)) fun v' =>
      Reads v' (nextOf v) (prevOf v) (update (tokensOf v) k (some (f p.nftokens))) := by
  have h := reads_insert v k (p.setNFTokens (f p.nftokens))
  refine ⟨_, modify_eq hp, h.next_eq.trans ?_, h.prev_eq.trans ?_, h.tokens_eq⟩
  · exact update_eq_self_iff.2 (by rw [nextOf, hp]; rfl)
  · exact update_eq_self_iff.2 (by rw [prevOf, hp]; rfl)

/-! ### Representing a list of pages -/

/-- The links run through the pages in both directions, and the pages have the tokens of the list. -/
structure Represents (v : PageView) (l : Buckets Uint256 NFToken) : Prop where
  linked : DoublyLinked (nextOf v) (prevOf v) l.keys
  tokens : ∀ k ts, tokensOf v k = some ts ↔ (k, ts) ∈ l

namespace Represents

variable {v v' : PageView} {l l1 l2 : Buckets Uint256 NFToken} {n : Uint256} {ts ts' : List NFToken}
  {next' prev' : Uint256 → Option (Option Uint256)}

section

variable (h : Represents v l)

include h

lemma mem_iff : k ∈ v ↔ k ∈ l.keys := by
  rw [← tokensOf_isSome, isSome_iff_exists]
  simp only [h.tokens, Buckets.keys, List.mem_map, Prod.exists]
  exact ⟨fun ⟨ts, hts⟩ => ⟨k, ts, hts, rfl⟩, fun ⟨_, ts, hts, hk⟩ => ⟨ts, hk ▸ hts⟩⟩

lemma exists_mem (hk : k ∈ v) : ∃ ts, (k, ts) ∈ l := by
  obtain ⟨e, he, rfl⟩ := mem_map.1 (h.mem_iff.1 hk)
  exact ⟨e.2, he⟩

lemma tokensOf_eq (h' : Represents v' l) : tokensOf v = tokensOf v' := by
  funext k
  exact ext fun ts => (h.tokens k ts).trans (h'.tokens k ts).symm

lemma mem_items_of_lookup {page : NFTokenPage} (hlk : v.lookup k = some page) {t : NFToken}
    (ht : t ∈ page.nftokens) : t ∈ l.items := by
  have hto : tokensOf v k = some page.nftokens := by rw [tokensOf, hlk]; rfl
  exact mem_items.2 ⟨_, (h.tokens _ _).1 hto, ht⟩

end

lemma mem_of_getLast? (h : Represents v (l1 ++ l2)) : ∀ k, l1.keys.getLast? = some k → k ∈ v := fun k hk =>
  h.mem_iff.2 (by simp [List.mem_of_getLast? hk])

lemma mem_of_head? (h : Represents v (l1 ++ l2)) : ∀ k, l2.keys.head? = some k → k ∈ v := fun k hk =>
  h.mem_iff.2 (by simp [List.mem_of_head? hk])

lemma lookup_eq (h : Represents v (l1 ++ (k, ts) :: l2)) :
    v.lookup k = some ⟨ts, l2.keys.head?, l1.keys.getLast?⟩ := by
  have hl := h.linked
  rw [Buckets.keys_append, Buckets.keys_cons] at hl
  have hk : k ∈ v := h.mem_iff.2 (by simp)
  obtain ⟨p, hp, hn, hpr, ht⟩ := exists_lookup hk
  rw [hl.next_eq, some_inj] at hn
  rw [hl.prev_eq, some_inj] at hpr
  rw [(h.tokens k ts).2 (by simp), some_inj] at ht
  rw [hp, hn, hpr, ht]

private lemma notMem_of_notMem_keys (hn : n ∉ l.keys) (ts : List NFToken) : (n, ts) ∉ l :=
  fun hmem => hn (mem_map_of_mem hmem)

lemma notMem_of_nodup (hn : (l1 ++ (k, ts) :: l2).keys.Nodup) (ts' : List NFToken) :
    (k, ts') ∉ l1 ∧ (k, ts') ∉ l2 := by
  rw [Buckets.keys_append, Buckets.keys_cons, nodup_middle, nodup_cons, mem_append, not_or] at hn
  exact ⟨notMem_of_notMem_keys hn.1.1 ts', notMem_of_notMem_keys hn.1.2 ts'⟩

lemma setTokens (h : Represents v (l1 ++ (k, ts) :: l2)) (hn : (l1 ++ (k, ts) :: l2).keys.Nodup)
    (hr : Reads v' (nextOf v) (prevOf v) (update (tokensOf v) k (some ts'))) :
    Represents v' (l1 ++ (k, ts') :: l2) where
  linked := by
    have hl := h.linked
    rw [hr.next_eq, hr.prev_eq]
    simpa using hl
  tokens := by
    intro k' ts''
    have hnot := notMem_of_nodup hn
    have hold := h.tokens k' ts''
    rw [hr.tokens_eq, update_apply]
    by_cases hk : k' = k
    · subst hk
      simp [hnot, eq_comm]
    · rw [if_neg hk, hold]
      simp [hk]

lemma insert (h : Represents v (l1 ++ l2)) (hno : (l1 ++ l2).keys.Nodup) (hn : n ∉ (l1 ++ l2).keys)
    (hr : Reads v' next' prev' (update (tokensOf v) n (some ts)))
    (hne : ∀ a, next' a = if a = n then some l2.keys.head?
      else if l1.keys.getLast? = some a then some (some n) else nextOf v a)
    (hp : ∀ a, prev' a = if a = n then some l1.keys.getLast?
      else if l2.keys.head? = some a then some (some n) else prevOf v a) :
    Represents v' (l1 ++ (n, ts) :: l2) where
  linked := by
    have hl := h.linked
    rw [Buckets.keys_append] at hl hno hn
    rw [Buckets.keys_append, hr.next_eq, hr.prev_eq]
    exact hl.link hno hn hne hp
  tokens := by
    intro k' ts''
    have hold := h.tokens k' ts''
    rw [hr.tokens_eq, update_apply]
    by_cases hk : k' = n
    · subst hk
      have hnot := notMem_of_notMem_keys hn
      simp only [mem_append, not_or] at hnot
      simp [hnot, eq_comm]
    · rw [if_neg hk, hold]
      simp [hk]

lemma erase (h : Represents v (l1 ++ (n, ts) :: l2)) (hno : (l1 ++ (n, ts) :: l2).keys.Nodup)
    (hr : Reads v' next' prev' (update (tokensOf v) n none))
    (hne : ∀ a ≠ n, next' a = if l1.keys.getLast? = some a then some l2.keys.head? else nextOf v a)
    (hp : ∀ a ≠ n, prev' a = if l2.keys.head? = some a then some l1.keys.getLast? else prevOf v a) :
    Represents v' (l1 ++ l2) where
  linked := by
    have hl := h.linked
    rw [Buckets.keys_append] at hl hno
    obtain ⟨hn, hno⟩ := nodup_cons.1 (nodup_middle.1 hno)
    rw [Buckets.keys_append, hr.next_eq, hr.prev_eq]
    exact hl.unlink hno (fun a ha => hne a (ne_of_mem_of_not_mem ha hn)) (fun a ha => hp a (ne_of_mem_of_not_mem ha hn))
  tokens := by
    intro k' ts''
    have hnot := notMem_of_nodup hno
    have hold := h.tokens k' ts''
    rw [hr.tokens_eq, update_apply]
    by_cases hk : k' = n
    · subst hk
      simp [hnot]
    · rw [if_neg hk, hold]
      simp [hk]

variable {a b : List NFToken}

lemma merge (h : Represents v (l1 ++ (n, a) :: (k, b) :: l2)) (hn : (l1 ++ (n, a) :: (k, b) :: l2).keys.Nodup)
    (ht : tokensOf v' = update (update (tokensOf v) k (some ts)) n none)
    (hne : ∀ c ≠ n, nextOf v' c = if l1.keys.getLast? = some c then some (some k) else nextOf v c)
    (hp : ∀ c ≠ n, prevOf v' c = if k = c then some l1.keys.getLast? else prevOf v c) :
    Represents v' (l1 ++ (k, ts) :: l2) := by
  -- first the tokens change, and then the other page goes
  rw [append_cons] at h hn
  have hlk := h.lookup_eq
  obtain ⟨w, -, hw⟩ := modify_setNFTokens hlk fun _ => ts
  have hs := h.setTokens hn hw
  rw [← append_cons] at hs
  refine hs.erase (by simpa using hn) ⟨rfl, rfl, ?_⟩ ?_ ?_
  · rw [ht, hw.tokens_eq]
  · simpa [hw.next_eq] using hne
  · simpa [hw.prev_eq] using hp

end Represents

variable {v : PageView} {l l1 l2 : Buckets Uint256 NFToken} {owner : AccountID} {e : Uint256 × List NFToken}

/-- The search for the next key finds the first page above a position, or falls back to the last page. -/
lemma succ_getD_eq (hmem : ∀ k, k ∈ v ↔ k ∈ l.keys) (hv : Valid owner l) (ho : owner ≠ BitVec.allOnes 160)
    {q : Uint256} (he : l.locate q = some e) :
    (v.succ q (some (nftpageMax owner).next)).getD (nftpageMax owner) = e.1 := by
  obtain ⟨l1, l2, rfl, hbef, hq⟩ := locate_split he
  by_cases hlt : q < e.1
  · have hl : e.1 < (nftpageMax owner).next := (lt_next_max ho).2 (hv.cut.le_top e (by simp))
    have hle : ∀ k ∈ v, q < k → e.1 ≤ k := by
      intro k hk hlt'
      obtain ⟨f, hf, rfl⟩ := mem_map.1 ((hmem k).1 hk)
      rcases mem_append.1 hf with hf | hf
      · exact absurd (hbef f hf) (not_le.2 hlt')
      · rcases mem_cons.1 hf with rfl | hf
        · exact le_rfl
        · exact (hv.cut.at_bucket.2 f hf).1.le
    rw [succ_eq_some.2 ⟨(hmem _).2 (by simp), hlt, hle, fun b hb => some.inj hb ▸ hl⟩]
    rfl
  · obtain rfl := hq.resolve_left hlt
    have hn : v.succ q (some (nftpageMax owner).next) = none := by
      refine succ_eq_none.2 fun k hk hlt' => ?_
      obtain ⟨f, hf, rfl⟩ := mem_map.1 ((hmem k).1 hk)
      rcases mem_append.1 hf with hf | hf
      · exact absurd (hbef f hf) (not_le.2 hlt')
      · obtain rfl := mem_singleton.1 hf
        exact absurd hlt' hlt
    rw [hn]
    exact (hv.cut.eq_top_iff.2 rfl).symm

lemma locateKey_eq (h : Represents v l) (hv : Valid owner l) (ho : owner ≠ BitVec.allOnes 160)
    {id : Uint256} (he : l.locate (keyOf owner id) = some e) : locateKey v owner id = e.1 :=
  succ_getD_eq (fun _ => h.mem_iff) hv ho he

lemma locateKey_of_empty (h : Represents v []) (id : Uint256) : locateKey v owner id = nftpageMax owner := by
  have hs : v.succ (nftpage (nftpageMin owner) id) (some (nftpageMax owner).next) = none :=
    succ_eq_none.2 fun k hk => by simpa using h.mem_iff.1 hk
  rw [locateKey, hs]
  rfl

variable {link : Option Uint256} {a b : List NFToken}

lemma relink_spec (hmem : ∀ k, link = some k → k ∈ v) (x : Option Uint256) {f : Uint256 → Except LogicError PageView}
    (hf : ∀ k, link = some k → f k = v.modify k (setNextPageMin x)) :
    Succeeds (match link with
      | none => pure v
      | some k => f k) fun v' =>
        Reads v' (fun a => if link = some a then some x else nextOf v a) (prevOf v) (tokensOf v) := by
  cases link with
  | none => exact .pure ⟨by simp, rfl, rfl⟩
  | some k =>
    dsimp only
    rw [hf k rfl]
    refine (modify_setNextPageMin (hmem k rfl) x).mono fun v' hr =>
      ⟨hr.next_eq.trans ?_, hr.prev_eq, hr.tokens_eq⟩
    funext a
    rw [update_apply]
    simp [eq_comm]

lemma relinkPrevious_spec (hmem : ∀ k, link = some k → k ∈ v) (x : Option Uint256) : Succeeds (match link with
      | none => pure v
      | some k => v.modify k (setPreviousPageMin x)) fun v' =>
        Reads v' (nextOf v) (fun a => if link = some a then some x else prevOf v a) (tokensOf v) := by
  cases link with
  | none => exact .pure ⟨rfl, by simp, rfl⟩
  | some k =>
    refine (modify_setPreviousPageMin (hmem k rfl) x).mono fun v' hr =>
      ⟨hr.next_eq, hr.prev_eq.trans ?_, hr.tokens_eq⟩
    funext a
    rw [update_apply]
    simp [eq_comm]

lemma mergePages_spec {k1 k2 : Uint256} (h : Represents v (l1 ++ (k1, a) :: (k2, b) :: l2))
    (hcut : (l1 ++ (k1, a) :: (k2, b) :: l2).Cut (fun t => keyOf owner t.nftokenID) (nftpageMax owner)) :
    Succeeds (mergePages v k1 k2) fun r =>
      if a.length + b.length > kDirMaxTokensPerPage then r = (false, v)
      else r.1 = true ∧ Represents r.2 (l1 ++ (k2, a ++ b) :: l2) := by
  have h' : Represents v ((l1 ++ [(k1, a)]) ++ (k2, b) :: l2) := by simpa using h
  have hlt : k1 < k2 := (hcut.at_bucket.2 (k2, b) (by simp)).1
  have hk1 : k1 ≠ nftpageMax owner := fun htop => by simpa using hcut.eq_top_iff.1 htop
  have hm : a.merge b (fun t t' => !compareTokens t'.nftokenID t.nftokenID) = a ++ b := by
    refine merge_of_le fun t t' ht ht' => ?_
    have hke : keyOf owner t.nftokenID < keyOf owner t'.nftokenID :=
      (hcut.below (k1, a) (by simp) t ht hk1).trans_le ((hcut.at_bucket.2 (k2, b) (by simp)).2 t' ht')
    rw [compareTokens_asymm ((compareTokens_iff owner).2 (.inl hke))]
    rfl
  have hmem := h.mem_of_getLast?
  unfold mergePages
  rw [h.lookup_eq, h'.lookup_eq]
  dsimp only
  rw [if_neg (not_le.2 hlt), if_neg (by simp), if_neg (by simp), hm]
  split_ifs with hf
  · exact .pure rfl
  refine (relink_spec hmem (some k2) fun k hk => if_pos (hmem k hk)).bind fun v1 h1 => ?_
  refine (modify_refill (h1.mem_iff.2 (h'.mem_iff.2 (by simp))) (a ++ b) l1.keys.getLast?).bind fun v2 h2 => ?_
  have hk1 : k1 ∈ v2 := by
    rw [← tokensOf_isSome, h2.tokens_eq, update_of_ne hlt.ne, h1.tokens_eq, tokensOf_isSome]
    exact h.mem_iff.2 (by simp)
  refine (eraseKey_reads hk1).bind fun v3 h3 => .pure ⟨rfl, h.merge hcut.keys_nodup ?_ ?_ ?_⟩
  · rw [h3.tokens_eq, h2.tokens_eq, h1.tokens_eq]
  · intro c hc
    rw [h3.next_eq, update_of_ne hc, h2.next_eq, h1.next_eq]
  · intro c hc
    rw [h3.prev_eq, update_of_ne hc, h2.prev_eq, h1.prev_eq, update_apply]
    simp only [eq_comm]

end Xrpl.NFT

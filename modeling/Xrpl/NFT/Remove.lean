import Xrpl.NFT.Insert

/-!
# Removing a token

* `Kept`: if any two adjacent pages hold more tokens than fit on one, this stays so and at most one page goes;
* `removeTokenFrom_spec`: a token that is on the pages is removed.
-/

namespace Xrpl.NFT

open List Function Buckets

variable {owner : AccountID} {l l1 l2 : Buckets Uint256 NFToken} {v : PageView} {s : Tokens} {id k k1 k2 : Uint256}
  {ts a b : List NFToken}

private lemma Valid.merge (h : Valid owner (l1 ++ (k1, a) :: (k2, b) :: l2))
    (hsm : a.length + b.length ≤ kDirMaxTokensPerPage) :
    Valid owner (l1 ++ (k2, a ++ b) :: l2) := by
  refine ⟨h.cut.merge, fun e he => ?_⟩
  by_cases hk : e = (k2, a ++ b)
  · subst hk
    have hp1 := h.page (k1, a) (by simp)
    have hp2 := h.page (k2, b) (by simp)
    have hk1 : k1 ≠ nftpageMax owner := fun htop => by simpa using h.cut.eq_top_iff.1 htop
    refine ⟨hp2.key, by simp [hp1.nonempty], by simpa using hsm, pairwise_append.2 ⟨hp1.sorted, hp2.sorted, ?_⟩⟩
    intro t ht t' ht'
    refine (compareTokens_iff owner).2 (.inl ?_)
    calc keyOf owner t.nftokenID
      _ < k1 := h.cut.below (k1, a) (by simp) t ht hk1
      _ ≤ keyOf owner t'.nftokenID := (h.cut.at_bucket.2 (k2, b) (by simp)).2 t' ht'
  · exact h.page e (by simp [hk] at he ⊢; tauto)

/-- What is left of the pages when some go: they are still valid, and no token is lost. -/
structure Merged (owner : AccountID) (l l' : Buckets Uint256 NFToken) (cnt : Int) : Prop where
  valid : Valid owner l'
  items : l'.items = l.items
  length : (l'.length : Int) = l.length - cnt

private lemma Merged.refl (h : Valid owner l) : Merged owner l l 0 := ⟨h, rfl, by simp⟩

private lemma mergePages_valid (h : Represents v (l1 ++ (k1, a) :: (k2, b) :: l2))
    (hv : Valid owner (l1 ++ (k1, a) :: (k2, b) :: l2)) :
    Succeeds (mergePages v k1 k2) fun r => ∃ m ts, Represents r.2 (m ++ (k2, ts) :: l2) ∧
      Merged owner (l1 ++ (k1, a) :: (k2, b) :: l2) (m ++ (k2, ts) :: l2) (if r.1 then 1 else 0) ∧
      (r.1 = true → a.length + b.length ≤ ts.length) ∧ b.length ≤ ts.length ∧
      (Dense (l1 ++ [(k1, a)]) → Dense (m ++ [(k2, ts)])) := by
  refine (mergePages_spec h hv.cut).mono fun r hr => ?_
  split_ifs at hr with hf
  · subst hr
    refine ⟨l1 ++ [(k1, a)], b, ?_, ?_, nofun, le_rfl, fun hd => ?_⟩
    · rwa [← append_cons]
    · rw [← append_cons]
      exact Merged.refl hv
    · rw [← append_cons]
      exact isChain_split.2 ⟨hd, isChain_pair.2 hf⟩
  · obtain ⟨hm, hrep⟩ := hr
    refine ⟨l1, a ++ b, hrep, ⟨hv.merge (by omega), items_merge .., ?_⟩, by simp, by simp, fun hd => hd.grow (by simp)⟩
    simp [hm]
    omega

/-- Dense pages stay dense, and at most one of them goes. -/
def Kept (l l' : Buckets Uint256 NFToken) : Prop := Dense l → Dense l' ∧ l.length ≤ l'.length + 1

section

variable (h : Represents v (l1 ++ (k, ts) :: l2)) (hv : Valid owner (l1 ++ (k, ts) :: l2))

include h hv

private lemma mergePrevious_spec : Succeeds (match l1.keys.getLast? with
      | none => pure (false, v)
      | some prev => mergePages v prev k) fun r => ∃ m ts', Represents r.2 (m ++ (k, ts') :: l2) ∧
        Merged owner (l1 ++ (k, ts) :: l2) (m ++ (k, ts') :: l2) (if r.1 then 1 else 0) ∧
        (r.1 = true → ∃ e ∈ l1.getLast?, e.2.length + ts.length ≤ ts'.length) ∧
        (Dense l1 → Dense (m ++ [(k, ts')])) := by
  cases l1 using reverseRecOn with
  | nil => exact .pure ⟨[], ts, h, Merged.refl hv, nofun, fun _ => .singleton _⟩
  | append_singleton l1 e =>
    rw [← append_cons] at h hv ⊢
    rw [keys_getLast?_concat]
    refine (mergePages_valid h hv).mono fun r ⟨m, ts', hr, hm, hs, _, hd⟩ => ⟨m, ts', hr, hm, fun hr => ?_, hd⟩
    exact ⟨e, by simp, hs hr⟩

private lemma mergeNext_spec : Succeeds (match l2.keys.head? with
      | none => pure (false, v)
      | some next => mergePages v k next) fun r => ∃ l', Represents r.2 l' ∧
        Merged owner (l1 ++ (k, ts) :: l2) l' (if r.1 then 1 else 0) ∧
        (r.1 = true → ∃ e ∈ l2.head?, ts.length + e.2.length ≤ kDirMaxTokensPerPage) ∧
        (Dense (l1 ++ [(k, ts)]) → Dense l2 → Dense l') := by
  cases l2 with
  | nil => exact .pure ⟨_, h, Merged.refl hv, nofun, fun hd _ => hd⟩
  | cons e l2 =>
    refine (mergePages_valid h hv).mono fun r ⟨m, ts', hr, hm, hs, hle, hd⟩ => ⟨_, hr, hm, fun hr => ?_, ?_⟩
    · exact ⟨e, rfl, (hs hr).trans (hm.valid.page (e.1, ts') (by simp)).small⟩
    · exact fun h1 h2 => isChain_split.2 ⟨hd h1, Dense.grow (l := []) h2 hle⟩

private lemma consolidate_spec :
    Succeeds (consolidate v l1.keys.getLast? k l2.keys.head?) fun r => ∃ l', Represents r.2 l' ∧
      Merged owner (l1 ++ (k, ts) :: l2) l' r.1 ∧
      ∀ c : List NFToken, c.length = ts.length + 1 → Kept (l1 ++ (k, c) :: l2) l' := by
  refine (mergePrevious_spec h hv).bind fun r ⟨m, ts', hrep, hm, hs, hd⟩ => ?_
  refine (mergeNext_spec hrep hm.valid).bind fun r' ⟨l', hrep', hm', hs', hd'⟩ => ?_
  have hlen := hm.length
  have hlen' := hm'.length
  refine .pure ⟨l', hrep', ⟨hm'.valid, hm'.items.trans hm.items, by omega⟩, fun c hc hden => ?_⟩
  obtain ⟨h1, h2, h3⟩ := isChain_append.1 hden
  refine ⟨hd' (hd h1) (isChain_cons.1 h2).2, ?_⟩
  have hone : (if r.1 then 1 else 0 : Int) + (if r'.1 then 1 else 0) ≤ 1 := by
    split_ifs with hr hr'
    -- with both neighbours on it the page would be too large
    · obtain ⟨e, he, hle⟩ := hs hr
      obtain ⟨e', he', hle'⟩ := hs' hr'
      have hlt := h3 e he (k, c) rfl
      have hpos := length_pos_of_ne_nil (hv.page e' (by simp [mem_of_head? he'])).nonempty
      dsimp only at hlt
      omega
    all_goals decide
  simp only [length_append, length_cons] at hlen hlen' ⊢
  omega

end

private lemma loadPage_eq {link : Option Uint256} (h : ∀ k, link = some k → k ∈ v) (page1 : Uint256) (field : String) :
    loadPage v page1 field link = .ok link := by
  cases link with
  | none => rfl
  | some k => exact if_pos (h k rfl)

private lemma refillLast_spec (h : Represents v (l1 ++ [(k1, a), (k2, b)]))
    (hn : (l1 ++ [(k1, a), (k2, b)]).keys.Nodup) :
    Succeeds (refillLast v k1 k2) fun v' => Represents v' (l1 ++ [(k2, a)]) := by
  have hmem := h.mem_of_getLast?
  unfold refillLast
  rw [h.lookup_eq]
  refine (modify_refill (h.mem_iff.2 (by simp)) a l1.keys.getLast?).bind fun v1 h1 => ?_
  have hmem1 : ∀ k ∈ v, k ∈ v1 := by
    intro k hk
    rw [← tokensOf_isSome, h1.tokens_eq, update_apply]
    split_ifs
    · rfl
    · exact tokensOf_isSome.2 hk
  rw [loadPage_eq fun k hk => hmem1 k (hmem k hk)]
  refine (relink_spec (fun k hk => hmem1 k (hmem k hk)) (some k2) fun _ _ => rfl).bind fun v2 h2 => ?_
  have hk1 : k1 ∈ v2 := h2.mem_iff.2 (hmem1 k1 (h.mem_iff.2 (by simp)))
  refine (eraseKey_reads hk1).mono fun v3 h3 => h.merge hn ?_ ?_ ?_
  · rw [h3.tokens_eq, h2.tokens_eq, h1.tokens_eq]
  · intro c hc
    rw [h3.next_eq, update_of_ne hc, h2.next_eq, h1.next_eq]
  · intro c hc
    rw [h3.prev_eq, update_of_ne hc, h2.prev_eq, h1.prev_eq, update_apply]
    simp only [eq_comm]

private lemma unlinkPage_spec (h : Represents v (l1 ++ (k, ts) :: l2)) (hn : (l1 ++ (k, ts) :: l2).keys.Nodup)
    (hv : Valid owner (l1 ++ l2)) (hts : ts.length = 1) :
    Succeeds (unlinkPage v l1.keys.getLast? k l2.keys.head?) fun r => ∃ l', Represents r.2 l' ∧
      Merged owner (l1 ++ l2) l' (r.1 - 1) ∧ Kept (l1 ++ (k, ts) :: l2) l' := by
  have h' : Represents v ((l1 ++ [(k, ts)]) ++ l2) := by rwa [← append_cons]
  refine (relink_spec h.mem_of_getLast? l2.keys.head? fun _ _ => rfl).bind fun v1 h1 => ?_
  refine (relinkPrevious_spec (fun k hk => h1.mem_iff.2 (h'.mem_of_head? k hk)) l1.keys.getLast?).bind fun v2 h2 => ?_
  have hk : k ∈ v2 := h2.mem_iff.2 (h1.mem_iff.2 (h.mem_iff.2 (by simp)))
  refine (eraseKey_reads hk).bind fun v3 h3 => ?_
  have hrep : Represents v3 (l1 ++ l2) := by
    refine h.erase hn ⟨rfl, rfl, ?_⟩ ?_ ?_
    · rw [h3.tokens_eq, h2.tokens_eq, h1.tokens_eq]
    · intro c hc
      rw [h3.next_eq, update_of_ne hc, h2.next_eq, h1.next_eq]
    · intro c hc
      rw [h3.prev_eq, update_of_ne hc, h2.prev_eq, h1.prev_eq]
  cases l1 using reverseRecOn with
  | nil => exact .pure ⟨_, hrep, Merged.refl hv, fun hd => ⟨(isChain_cons.1 hd).2, by simp⟩⟩
  | append_singleton l1 e1 =>
    cases l2 with
    | nil =>
      rw [keys_getLast?_concat]
      exact .pure ⟨_, hrep, Merged.refl hv, fun hd => ⟨by rw [append_nil]; exact hd.left_of_append, by simp⟩⟩
    | cons e2 l2 =>
      rw [← append_cons] at hrep hv ⊢
      rw [keys_getLast?_concat]
      refine (mergePages_valid hrep hv).bind fun r ⟨m, ts', hrep', hm, hs, hle, hd⟩ => .pure ⟨_, hrep', ?_, fun hden => ?_⟩
      · cases hr : r.1 with
        | false => simpa [hr] using hm
        | true => simpa [hr] using hm
      obtain ⟨h1, h2, h3⟩ := isChain_append.1 hden
      have hlt := h3 e1 (by simp) (k, ts) rfl
      refine ⟨isChain_split.2 ⟨hd h1, Dense.grow (l := []) (isChain_cons.1 h2).2 hle⟩, ?_⟩
      have hr : r.1 = false := by
        by_contra hr
        have hsm := (hm.valid.page (e2.1, ts') (by simp)).small
        have hpos := length_pos_of_ne_nil (hv.page e2 (by simp)).nonempty
        have hsum := hs (by simpa using hr)
        dsimp only at hlt hsm
        omega
      have hlen := hm.length
      simp [hr] at hlen ⊢
      omega

/-! ### Removing -/

variable {arr : List NFToken} {t t0 : NFToken}

private lemma Valid.setSublist (h : Valid owner (l1 ++ (k, ts) :: l2)) (hs : arr.Sublist ts)
    (hne : arr ≠ []) : Valid owner (l1 ++ (k, arr) :: l2) := by
  have hp := h.page (k, ts) (by simp)
  refine ⟨h.cut.setItems fun t ht => ?_, fun e he => ?_⟩
  · exact ⟨fun e he => (h.cut.at_bucket.1 e he).2 t (hs.subset ht), h.cut.below (k, ts) (by simp) t (hs.subset ht)⟩
  by_cases hk : e = (k, arr)
  · subst hk
    exact ⟨hp.key, hne, hs.length_le.trans hp.small, hp.sorted.sublist hs⟩
  · exact h.page e (by simp [hk] at he ⊢; tauto)

private lemma Valid.dropPage (h : Valid owner (l1 ++ (k, ts) :: l2)) (hla : l2 ≠ [] ∨ l1 = []) :
    Valid owner (l1 ++ l2) := by
  by_cases hl2 : l2 = []
  · obtain rfl := hla.resolve_left (not_not.2 hl2)
    subst hl2
    exact valid_nil owner
  · exact ⟨h.cut.dropBucket hl2, fun e he => h.page e (by simp at he ⊢; tauto)⟩

private lemma Valid.refill (h : Valid owner (l1 ++ [(k1, a), (k2, b)])) : Valid owner (l1 ++ [(k2, a)]) := by
  refine ⟨h.cut.merge.setItems fun t ht => ?_, fun e he => ?_⟩
  · have hm := h.cut.merge
    exact ⟨fun e he => (hm.at_bucket.1 e he).2 t (by simp [ht]), hm.below (k2, a ++ b) (by simp) t (by simp [ht])⟩
  by_cases hk : e = (k2, a)
  · subst hk
    have hp := h.page (k1, a) (by simp)
    exact ⟨(h.page (k2, b) (by simp)).key, hp.nonempty, hp.small, hp.sorted⟩
  · exact h.page e (by simp [hk] at he ⊢; tauto)

private lemma items_of_perm (h : ts.Perm (t :: arr)) :
    (l1 ++ (k, ts) :: l2).items = t ::ₘ (l1 ++ (k, arr) :: l2).items := by
  have hp : (ts : Multiset NFToken) = t ::ₘ (arr : Multiset NFToken) := Multiset.coe_eq_coe.2 h
  rw [items_append, items_append, items_cons, items_cons, hp, Multiset.cons_add, Multiset.add_cons]

structure Removed (owner : AccountID) (id : Uint256) (s : Tokens) (l : Buckets Uint256 NFToken) (r : TER × Tokens) (t : NFToken)
    (l' : Buckets Uint256 NFToken) : Prop where
  result : r.1 = .tesSUCCESS
  represents : Represents r.2.pages l'
  valid : Valid owner l'
  token : t.nftokenID = id
  items : l.items = t ::ₘ l'.items
  counts : Counts s l r.2 l'

section

variable (h : Represents s.pages (l1 ++ (k, ts) :: l2)) (hv : Valid owner (l1 ++ (k, ts) :: l2))
  (hto : t.nftokenID = id)

include h hv hto in
private lemma consolidate_removed (hp : ts.Perm (t :: arr)) (hs : arr.Sublist ts) (ha : arr ≠ []) : Succeeds (do
      let view ← s.pages.modify k (NFTokenPage.setNFTokens arr)
      let (cnt, view) ← consolidate view l1.keys.getLast? k l2.keys.head?
      return (TER.tesSUCCESS,
        if cnt ≠ 0 then adjustOwnerCount { s with pages := view } (-cnt) else { s with pages := view })) fun r =>
      ∃ l', Removed owner id s (l1 ++ (k, ts) :: l2) r t l' ∧ Kept (l1 ++ (k, ts) :: l2) l' := by
  refine (modify_setNFTokens h.lookup_eq fun _ => arr).bind fun v hr => ?_
  have hrep := h.setTokens hv.cut.keys_nodup hr
  refine (consolidate_spec hrep (hv.setSublist hs ha)).bind fun r ⟨l', hrep', hm, hk⟩ =>
    .pure ⟨l', ⟨rfl, ?_, hm.valid, hto, ?_, ?_⟩, hk ts hp.length_eq⟩
  · split_ifs
    · exact hrep'
    · exact hrep'
  · rw [items_of_perm hp, hm.items]
  have hlen := hm.length
  split_ifs with hc
  · exact ⟨some (-r.1), rfl, by simp at hlen ⊢; omega⟩
  · exact ⟨none, by simp, by simp at hlen ⊢; omega⟩

include h hv hto in
private lemma unlinkPage_removed (hp : ts.Perm [t]) (hl : l2 ≠ [] ∨ l1 = []) : Succeeds (do
      let (cnt, view) ← unlinkPage s.pages l1.keys.getLast? k l2.keys.head?
      return (TER.tesSUCCESS, adjustOwnerCount { s with pages := view } (-cnt))) fun r =>
      ∃ l', Removed owner id s (l1 ++ (k, ts) :: l2) r t l' ∧ Kept (l1 ++ (k, ts) :: l2) l' := by
  refine (unlinkPage_spec h hv.cut.keys_nodup (hv.dropPage hl) hp.length_eq).bind fun r ⟨l', hr, hm, hk⟩ =>
    .pure ⟨l', ⟨rfl, hr, hm.valid, hto, ?_, some (-r.1), rfl, ?_⟩, hk⟩
  · rw [items_of_perm hp, hm.items]
    simp
  · have hlen := hm.length
    simp at hlen ⊢
    omega

end

lemma removeTokenFrom_spec (h : Represents s.pages (l1 ++ (k, ts) :: l2)) (hv : Valid owner (l1 ++ (k, ts) :: l2))
    (ht0 : t0 ∈ ts) (hid0 : t0.nftokenID = id) :
    Succeeds (removeTokenFrom s id k ⟨ts, l2.keys.head?, l1.keys.getLast?⟩) fun r =>
      ∃ t l', Removed owner id s (l1 ++ (k, ts) :: l2) r t l' ∧ Kept (l1 ++ (k, ts) :: l2) l' := by
  have h' : Represents s.pages ((l1 ++ [(k, ts)]) ++ l2) := by rwa [← append_cons]
  obtain ⟨t, ts1, ts2, -, hto, hts, he⟩ :=
    exists_of_eraseP (p := fun t => t.nftokenID = id) ht0 (by simpa using hid0)
  have hto' : t.nftokenID = id := by simpa using hto
  have hp : ts.Perm (t :: (ts1 ++ ts2)) := hts ▸ perm_middle
  have hs : (ts1 ++ ts2).Sublist ts := by simp [hts]
  have hla : k &&& kPageMask = kPageMask ↔ l2 = [] := by
    rw [← hv.cut.eq_top_iff, ← keyOf_eq_max, (hv.page (k, ts) (by simp)).key]
  unfold removeTokenFrom
  rw [if_neg (by push Not; exact ⟨t0, ht0, hid0⟩)]
  rw [he, loadPage_eq h.mem_of_getLast?, loadPage_eq h'.mem_of_head?]
  change Succeeds (if ts1 ++ ts2 ≠ [] then _ else _) _
  by_cases ha : ts1 ++ ts2 = []
  · rw [if_neg (not_not.2 ha)]
    rw [ha] at hp
    cases l1 using reverseRecOn with
    | nil => exact (unlinkPage_removed h hv hto' hp (.inr rfl)).mono fun r hr => ⟨t, hr⟩
    | append_singleton l1 e =>
      rw [keys_getLast?_concat]
      dsimp only
      by_cases hl2 : l2 = []
      · subst hl2
        rw [if_pos (hla.2 rfl)]
        rw [← append_cons] at h hv ⊢
        refine (refillLast_spec h hv.cut.keys_nodup).bind fun v hrep =>
          .pure ⟨t, _, ⟨rfl, hrep, hv.refill, hto', ?_, some (-1), rfl, ?_⟩, fun hd => ⟨?_, by simp⟩⟩
        · rw [append_cons, items_of_perm hp]
          simp
        · simp
          omega
        · exact Dense.grow (isChain_split.1 hd).1 le_rfl
      · rw [if_neg (mt hla.1 hl2), ← keys_getLast?_concat l1 e]
        exact (unlinkPage_removed h hv hto' hp (.inl hl2)).mono fun r hr => ⟨t, hr⟩
  · rw [if_pos ha]
    exact (consolidate_removed h hv hto' hp hs ha).mono fun r hr => ⟨t, hr⟩

lemma lookup_of_mem (ho : owner ≠ BitVec.allOnes 160) (h : Represents v l) (hv : Valid owner l)
    (ht : t ∈ l.items) : ∃ l1 k ts l2, l = l1 ++ (k, ts) :: l2 ∧ t ∈ ts ∧ locateKey v owner t.nftokenID = k := by
  obtain ⟨⟨k, ts⟩, he, hts⟩ := mem_items.1 ht
  have hk := locateKey_eq h hv ho (hv.cut.locate_eq he hts)
  obtain ⟨l1, l2, rfl⟩ := append_of_mem he
  exact ⟨l1, k, ts, l2, rfl, hts, hk⟩

lemma removeToken_missing (h : Represents s.pages l) (hid : ∀ t ∈ l.items, t.nftokenID ≠ id) :
    removeToken s owner id = .ok (.tecNO_ENTRY, s) := by
  unfold removeToken locatePage
  cases hlk : s.pages.lookup (locateKey s.pages owner id) with
  | none => rfl
  | some page => exact if_pos fun t ht => hid t (h.mem_items_of_lookup hlk ht)

lemma findToken_iff (ho : owner ≠ BitVec.allOnes 160) (h : Represents v l) (hv : Valid owner l) :
    (findToken v owner id).isSome ↔ ∃ t ∈ l.items, t.nftokenID = id := by
  constructor
  · unfold findToken locatePage
    cases hlk : v.lookup (locateKey v owner id) with
    | none => exact nofun
    | some page =>
      intro hs
      obtain ⟨t, ht, hto⟩ := find?_isSome.1 hs
      exact ⟨t, h.mem_items_of_lookup hlk ht, by simpa using hto⟩
  · rintro ⟨t, ht, rfl⟩
    obtain ⟨l1, k, ts, l2, rfl, hts, hk⟩ := lookup_of_mem ho h hv ht
    unfold findToken locatePage
    rw [hk, h.lookup_eq]
    exact find?_isSome.2 ⟨t, hts, by simp⟩

end Xrpl.NFT

import Xrpl.NFT.PageRuns

/-!
# Repairing the links of the pages

`repairNFTokenDirectoryLinks` walks through the pages of an account by their keys and sets their links.  It asks for the next
key after the number that follows the key of a page, and so misses a page whose key is that number, unless it is the last one.

* `Adjacent`: there is such a page;
* `run_repairable_iff`: all other links are repaired.
-/

namespace Xrpl.NFT

open Ledger List Option Function Except BitVec Buckets NFTokenPage

def repairNextPageMin (view : PageView) (key : Uint256) (link : Option Uint256) (didRepair : Bool) :
    Except LogicError (Bool × PageView) :=
  if (view.lookup key).map nextPageMin = some link then .ok (didRepair, view)
  else do
    let view ← view.modify key (setNextPageMin link)
    return (true, view)

def repairPreviousPageMin (view : PageView) (key : Uint256) (link : Option Uint256) (didRepair : Bool) :
    Except LogicError (Bool × PageView) :=
  if (view.lookup key).map previousPageMin = some link then .ok (didRepair, view)
  else do
    let view ← view.modify key (setPreviousPageMin link)
    return (true, view)

/-- The key of the page that the walk goes to after `page`. -/
def nextPageKey (view : PageView) (owner : AccountID) (page : Uint256) : Uint256 :=
  (view.succ page.next (some (nftpageMax owner).next)).getD (nftpageMax owner)

/-- Walk through the pages.  The result has the page where the walk ends, and the last page if it is there; there are at most
as many rounds as pages. -/
def repairLoop (owner : AccountID) : Nat → PageView → Uint256 → Bool →
    Except LogicError (Bool × PageView × Uint256 × Option Uint256)
  | 0, _, _, _ => .error (.what "out of fuel")
  | fuel + 1, view, page, didRepair =>
    let nextPage := nextPageKey view owner page
    if nextPage ∉ view then .ok (didRepair, view, page, none)
    else do
      let (didRepair, view) ← repairNextPageMin view page (some nextPage) didRepair
      let (didRepair, view) ← repairPreviousPageMin view nextPage (some page) didRepair
      if nextPage = nftpageMax owner then return (didRepair, view, page, some nextPage)
      else repairLoop owner fuel view nextPage didRepair

/-- The last of the pages does not have the right key: its tokens go to a page that has. -/
def moveToLast (toBase58 : AccountID → String) (view : PageView) (owner : AccountID) (page : Uint256) :
    Except LogicError PageView :=
  match view.lookup page with
  | none => .error .updateMissing
  | some p => do
    let view ← (match p.previousPageMin with
      | none => pure view
      | some prevLink =>
        if prevLink ∈ view then view.modify prevLink (setNextPageMin (some (nftpageMax owner)))
        else .error (.what ("NFTokenPage directory for " ++ toBase58 owner ++
          " cannot be repaired.  Unexpected link problem.")))
    let view ← view.eraseKey page
    view.insertNew (nftpageMax owner) { nftokens := p.nftokens, previousPageMin := p.previousPageMin }

def repairNFTokenDirectoryLinks (toBase58 : AccountID → String) (view : PageView) (owner : AccountID) :
    Except LogicError (Bool × PageView) :=
  let last := nftpageMax owner
  let page := (view.succ (nftpageMin owner) (some last.next)).getD last
  if page ∉ view then .ok (false, view)
  else if page = last then do
    let (didRepair, view) ← repairPreviousPageMin view page none false
    repairNextPageMin view page none didRepair
  else do
    let (didRepair, view) ← repairPreviousPageMin view page none false
    let (didRepair, view, page, nextPage) ← repairLoop owner view.keys.length view page didRepair
    match nextPage with
    | none => do
      let view ← moveToLast toBase58 view owner page
      return (true, view)
    | some nextPage => repairNextPageMin view nextPage none didRepair

variable {toBase58 : AccountID → String} {owner : AccountID} {v w : PageView} {l l1 l2 : Buckets Uint256 NFToken}
  {k : Uint256} {e e' : Uint256 × List NFToken} {fuel : Nat} {didRepair : Bool} {link : Option Uint256} {n : Uint256}
  {r : Bool × PageView × Uint256 × Option Uint256} {ks : List Uint256}

private lemma repairNextPageMin_eq (h : nextOf v k = some link) :
    repairNextPageMin v k link didRepair = .ok (didRepair, v) := if_pos h

private lemma repairPreviousPageMin_eq (h : prevOf v k = some link) :
    repairPreviousPageMin v k link didRepair = .ok (didRepair, v) := if_pos h

private lemma repairNextPageMin_spec (hk : k ∈ v) (link : Option Uint256) (didRepair : Bool) :
    Succeeds (repairNextPageMin v k link didRepair) fun r =>
      Reads r.2 (update (nextOf v) k (some link)) (prevOf v) (tokensOf v) ∧
        (nextOf v k = some link → r = (didRepair, v)) := by
  by_cases h : nextOf v k = some link
  · rw [repairNextPageMin_eq h]
    exact .pure ⟨⟨(update_eq_self_iff.2 h.symm).symm, rfl, rfl⟩, fun _ => rfl⟩
  · rw [repairNextPageMin, ← nextOf, if_neg h]
    exact (modify_setNextPageMin hk link).bind fun v' hr => .pure ⟨hr, fun heq => absurd heq h⟩

private lemma repairPreviousPageMin_spec (hk : k ∈ v) (link : Option Uint256) (didRepair : Bool) :
    Succeeds (repairPreviousPageMin v k link didRepair) fun r =>
      Reads r.2 (nextOf v) (update (prevOf v) k (some link)) (tokensOf v) ∧
        (prevOf v k = some link → r = (didRepair, v)) := by
  by_cases h : prevOf v k = some link
  · rw [repairPreviousPageMin_eq h]
    exact .pure ⟨⟨rfl, (update_eq_self_iff.2 h.symm).symm, rfl⟩, fun _ => rfl⟩
  · rw [repairPreviousPageMin, ← prevOf, if_neg h]
    exact (modify_setPreviousPageMin hk link).bind fun v' hr => .pure ⟨hr, fun heq => absurd heq h⟩

/-- There is a page right after the key of another one, and it is not the last one. -/
def Adjacent (owner : AccountID) (v : PageView) : Prop := ∃ k ∈ v, k.next ∈ v ∧ k.next ≠ nftpageMax owner

private lemma Valid.le_of_lt (h : Valid owner (l1 ++ e :: e' :: l2)) (hk : k ∈ (l1 ++ e :: e' :: l2).keys)
    (hlt : e.1 < k) :
    e'.1 ≤ k := by
  obtain ⟨f, hf, rfl⟩ := mem_map.1 hk
  have h' : Valid owner ((l1 ++ [e]) ++ e' :: l2) := by rwa [← append_cons]
  rcases mem_append.1 hf with hf | hf
  · exact absurd (h.cut.at_bucket.1 f hf).1 (lt_asymm hlt)
  rcases mem_cons.1 hf with rfl | hf
  · exact absurd hlt (lt_irrefl _)
  · rcases mem_cons.1 hf with rfl | hf
    · exact le_rfl
    · exact (h'.cut.at_bucket.2 f hf).1.le

private lemma Valid.lt_iff_next_le (h : Valid owner (l1 ++ e :: e' :: l2)) : e.1 < k ↔ e.1.next ≤ k := by
  have hlt : e.1 < e'.1 := (h.cut.at_bucket.2 e' (by simp)).1
  rw [lt_def] at hlt
  rw [lt_def, le_def, toNat_next (by omega)]
  omega

section

variable (howner : owner ≠ allOnes 160) (h : Represents w l) (hva : Valid owner l) (hto : tokensOf v = tokensOf w)

include h hto in
private lemma mem_iff_of_tokens : k ∈ v ↔ k ∈ l.keys := by
  rw [← h.mem_iff, ← tokensOf_isSome, hto, tokensOf_isSome]

include howner h hva hto in
/-- A page is missed only if its key comes right after the one of the page before, and it is not the last page. -/
private lemma nextPageKey_eq (hl : l = l1 ++ e :: e' :: l2) (ha : e'.1 = e.1.next → l2 = []) :
    nextPageKey v owner e.1 = e'.1 := by
  refine succ_getD_eq (fun k => mem_iff_of_tokens h hto) hva howner ?_
  subst hl
  have hlt : e.1 < e'.1 := (hva.cut.at_bucket.2 e' (by simp)).1
  rw [append_cons]
  refine locate_append (forall_mem_append.2 ⟨fun f hf => ?_, ?_⟩) ?_
  · exact ((hva.cut.at_bucket.1 f hf).1.trans (hva.lt_iff_next_le.2 le_rfl)).le
  · exact forall_mem_singleton.2 (hva.lt_iff_next_le.2 le_rfl).le
  · exact (hva.lt_iff_next_le.1 hlt).lt_or_eq.imp_right fun heq => ha heq.symm

include howner h hva hto in
private lemma nextPageKey_ne (hl : l = l1 ++ e :: e' :: l2) (ha : e'.1 = e.1.next) (hl2 : l2 ≠ []) :
    nextPageKey v owner e.1 ∈ v ∧ nextPageKey v owner e.1 ≠ e'.1 := by
  obtain ⟨e'', l3, rfl⟩ := exists_cons_of_ne_nil hl2
  rw [append_cons] at hl
  have hmem : ∀ k, k ∈ v ↔ k ∈ l.keys := fun k => mem_iff_of_tokens h hto
  have hc := hva.cut
  rw [hl] at hc
  have hlt : e'.1 < e''.1 := (hc.at_bucket.2 e'' (by simp)).1
  have hk : nextPageKey v owner e.1 = e''.1 := by
    refine succ_getD_eq hmem hva howner ?_
    rw [← ha, hl, append_cons]
    refine locate_append (forall_mem_append.2 ⟨fun f hf => ?_, ?_⟩) (.inl hlt)
    · exact (hc.at_bucket.1 f hf).1.le
    · exact forall_mem_singleton.2 le_rfl
  rw [hk]
  exact ⟨(hmem _).2 (by simp [hl]), hlt.ne'⟩

include howner h hva hto in
private lemma firstPageKey_eq (hl : l = e :: l2) :
    (v.succ (nftpageMin owner) (some (nftpageMax owner).next)).getD (nftpageMax owner) = e.1 := by
  refine succ_getD_eq (fun k => mem_iff_of_tokens h hto) hva howner ?_
  subst hl
  have hf : nftpageMin owner < e.1 := by
    obtain ⟨t, ht⟩ := exists_mem_of_ne_nil _ (hva.page e (by simp)).nonempty
    by_cases htop : e.1 = nftpageMax owner
    · rw [htop, lt_def, toNat_nftpageMin, toNat_nftpageMax]
      omega
    · exact (min_le_keyOf owner t.nftokenID).trans_lt (hva.cut.below e (by simp) t ht htop)
  have hn : ∀ e' ∈ ([] : Buckets Uint256 NFToken), e'.1 ≤ nftpageMin owner := fun _ he' => (nomatch he')
  exact locate_append hn (.inl hf)

end

private lemma keys_length (hmem : ∀ k, k ∈ v ↔ k ∈ l.keys) (hn : l.keys.Nodup) : v.keys.length = l.length := by
  have hp : v.keys.Perm l.keys := (perm_ext_iff_of_nodup v.keys_nodup hn).2 fun k => by
    rw [← AList.mem_keys, hmem]
  rw [hp.length_eq]
  exact length_map ..

/-! ### Other links are repaired -/

/-- The links up to a page are right, but for the link from it to the next one. -/
def LinkedTo (v : PageView) (ks : List Uint256) (k : Uint256) : Prop :=
  DoublyLinked (update (nextOf v) k (some none)) (prevOf v) (ks ++ [k])

private lemma linkedTo_first (h : prevOf v k = some none) : LinkedTo v [] k := by
  intro l1 a l2 hl
  cases l1 with
  | nil =>
    obtain ⟨rfl, rfl⟩ := cons.inj hl
    exact ⟨update_self .., h⟩
  | cons b l1 => simp at hl

private lemma LinkedTo.next {v' : PageView} (h : LinkedTo v ks k) (hno : (ks ++ [k, n]).Nodup)
    (hne : nextOf v' = update (nextOf v) k (some (some n)))
    (hp : prevOf v' = update (prevOf v) n (some (some k))) : LinkedTo v' (ks ++ [k]) n := by
  have hnd' : ((ks ++ [k]) ++ [n]).Nodup := by simpa using hno
  obtain ⟨hks, -, hd⟩ := nodup_append.1 hnd'
  have hn : n ∉ ks ++ [k] := fun hmem => hd n hmem n (by simp) rfl
  have hl : DoublyLinked (update (nextOf v) k (some none)) (prevOf v) ((ks ++ [k]) ++ []) := by
    rw [append_nil]
    exact h
  refine hl.link (by rwa [append_nil]) (by rwa [append_nil]) (fun a => ?_) (fun a => ?_)
  · rw [hne, update_apply]
    by_cases hk : a = k
    · simp [hk]
    · simp [hk, Ne.symm hk]
  · rw [hp, update_apply]
    simp

section

variable (howner : owner ≠ allOnes 160) (h : Represents w (l1 ++ e :: e' :: l2)) (hva : Valid owner (l1 ++ e :: e' :: l2))

include howner h hva

/-- A round of the walk sets the links between two pages, and changes nothing if they are right. -/
private lemma repairLoop_round (ha : e'.1 = e.1.next → l2 = []) (hto : tokensOf v = tokensOf w)
    (hl : LinkedTo v l1.keys e.1) (fuel : Nat) (didRepair : Bool) :
    ∃ didRepair' v', tokensOf v' = tokensOf w ∧ LinkedTo v' (l1 ++ [e] : Buckets Uint256 NFToken).keys e'.1 ∧
      (Represents v (l1 ++ e :: e' :: l2) → didRepair' = didRepair ∧ v' = v) ∧
      repairLoop owner (fuel + 1) v e.1 didRepair =
        if l2 = [] then .ok (didRepair', v', e.1, some e'.1) else repairLoop owner fuel v' e'.1 didRepair' := by
  have hmem : ∀ k, k ∈ v ↔ _ := fun k => mem_iff_of_tokens h hto
  have hmem' : e'.1 ∈ v := (hmem _).2 (by simp)
  have ht : e'.1 = nftpageMax owner ↔ l2 = [] := by
    rw [append_cons] at hva
    exact hva.cut.eq_top_iff
  have hn : (l1.keys ++ [e.1, e'.1]).Nodup := by
    have hn := hva.cut.keys_nodup
    exact hn.sublist (by simp)
  obtain ⟨⟨d1, v1⟩, hrep1, h1, hs1⟩ := repairNextPageMin_spec ((hmem e.1).2 (by simp)) (some e'.1) didRepair
  obtain ⟨⟨d2, v2⟩, hrep2, h2, hs2⟩ := repairPreviousPageMin_spec (h1.mem_iff.2 hmem') (some e.1) d1
  refine ⟨d2, v2, ?_, ?_, fun hv => ?_, ?_⟩
  · rw [h2.tokens_eq, h1.tokens_eq, hto]
  · rw [Buckets.keys_append]
    refine hl.next hn ?_ ?_
    · rw [h2.next_eq, h1.next_eq]
    · rw [h2.prev_eq, h1.prev_eq]
  · have hr := hv.linked
    rw [Buckets.keys_append, Buckets.keys_cons] at hr
    obtain ⟨rfl, rfl⟩ := Prod.mk.inj (hs1 hr.next_eq)
    rw [append_cons] at hr
    exact Prod.mk.inj (hs2 (by rw [hr.prev_eq, getLast?_concat]))
  rw [repairLoop]
  rw [nextPageKey_eq howner h hva hto rfl ha, if_neg (not_not.2 hmem'), hrep1]
  change (repairPreviousPageMin v1 e'.1 (some e.1) d1 >>= _) = _
  rw [hrep2]
  simp only [ht]
  rfl

private lemma repairLoop_spec (ha : ¬Adjacent owner w) (hf : l2.length < fuel)
    (hto : tokensOf v = tokensOf w) (hlnk : LinkedTo v l1.keys e.1) (didRepair : Bool) :
    Succeeds (repairLoop owner fuel v e.1 didRepair) fun r => tokensOf r.2.1 = tokensOf w ∧
      (∃ ks f, r.2.2.2 = some f ∧ (l1 ++ e :: e' :: l2).keys = ks ++ [f] ∧ LinkedTo r.2.1 ks f) ∧
      (Represents v (l1 ++ e :: e' :: l2) → r.1 = didRepair ∧ r.2.1 = v) := by
  induction fuel generalizing l1 e e' l2 v didRepair with
  | zero => omega
  | succ fuel ih =>
    have hl : e'.1 = e.1.next → l2 = [] := fun heq => by
      rw [append_cons] at hva
      refine hva.cut.eq_top_iff.1 (not_not.1 fun hne => ha ⟨e.1, h.mem_iff.2 (by simp), ?_, heq ▸ hne⟩)
      exact heq ▸ h.mem_iff.2 (by simp)
    obtain ⟨d, v', hto', hlnk', hs, hr⟩ := repairLoop_round howner h hva hl hto hlnk fuel didRepair
    rw [hr]
    cases l2 with
    | nil => exact .pure ⟨hto', ⟨_, e'.1, rfl, by simp, hlnk'⟩, hs⟩
    | cons e'' l2 =>
      rw [length_cons] at hf
      rw [append_cons] at h hva hs ⊢
      refine (ih h hva (by omega) hto' hlnk' d).mono fun r ⟨hto'', he, hs'⟩ => ⟨hto'', he, fun hv => ?_⟩
      obtain ⟨rfl, rfl⟩ := hs hv
      exact hs' hv

end

/-- All links are right when the walk has come to the last page and its link has gone. -/
private lemma repairNextPageMin_last (h : Represents w l) (hto : tokensOf v = tokensOf w)
    (hke : l.keys = ks ++ [k]) (hl : LinkedTo v ks k) (didRepair : Bool) :
    Succeeds (repairNextPageMin v k none didRepair) fun r =>
      Represents r.2 l ∧ (Represents v l → r = (didRepair, v)) := by
  have hk : k ∈ v := (mem_iff_of_tokens h hto).2 (by simp [hke])
  refine (repairNextPageMin_spec hk none didRepair).mono fun r ⟨hr, hs⟩ => ⟨⟨?_, ?_⟩, fun hv => hs ?_⟩
  · rw [hr.next_eq, hr.prev_eq, hke]
    exact hl
  · rw [hr.tokens_eq, hto]
    exact h.tokens
  · have hri := hv.linked
    rw [hke] at hri
    exact hri.next_eq

private lemma repair_spec (howner : owner ≠ allOnes 160) (h : Represents w l) (hva : Valid owner l)
    (ha : ¬Adjacent owner w) (hto : tokensOf v = tokensOf w) :
    Succeeds (repairNFTokenDirectoryLinks toBase58 v owner) fun r =>
      Represents r.2 l ∧ (Represents v l → r = (false, v)) := by
  have hmem : ∀ k, k ∈ v ↔ k ∈ l.keys := fun k => mem_iff_of_tokens h hto
  unfold repairNFTokenDirectoryLinks
  dsimp only
  cases l with
  | nil =>
    have he : ∀ k, k ∉ v := fun k hk => by simpa using (hmem k).1 hk
    rw [if_pos (he _)]
    exact .pure ⟨⟨.nil, hto ▸ h.tokens⟩, fun _ => rfl⟩
  | cons e l2 =>
    have hev : e.1 ∈ v := (hmem _).2 (by simp)
    have h' : Represents w ([] ++ e :: l2) := h
    have hva' : Valid owner ([] ++ e :: l2) := hva
    rw [firstPageKey_eq howner h hva hto rfl, if_neg (not_not.2 hev)]
    simp only [hva'.cut.eq_top_iff]
    obtain ⟨⟨d1, v1⟩, hrep1, h1, hs1⟩ := repairPreviousPageMin_spec hev none false
    have hs1 : Represents v (e :: l2) → d1 = false ∧ v1 = v := fun hv =>
      Prod.mk.inj (hs1 (hv.linked [] e.1 (Buckets.keys l2) rfl).2)
    have hfst : LinkedTo v1 [] e.1 := linkedTo_first (by rw [h1.prev_eq, update_self])
    have hto1 : tokensOf v1 = tokensOf w := h1.tokens_eq.trans hto
    rw [hrep1]
    cases l2 with
    | nil =>
      refine (repairNextPageMin_last h hto1 rfl hfst d1).mono fun r ⟨hr, hs⟩ => ⟨hr, fun hv => ?_⟩
      obtain ⟨rfl, rfl⟩ := hs1 hv
      exact hs hv
    | cons e' l2 =>
      have hlen1 := keys_length (fun k => mem_iff_of_tokens h hto1) hva.cut.keys_nodup
      have hf : l2.length < v1.keys.length := by
        simp at hlen1
        omega
      refine (repairLoop_spec howner h' hva' ha hf hto1 hfst d1).bind ?_
      rintro ⟨d2, v2, k, last⟩ ⟨hto2, ⟨ks, f, rfl, hke, hl⟩, hs2⟩
      refine (repairNextPageMin_last h hto2 hke hl d2).mono fun r ⟨hr, hs⟩ => ⟨hr, fun hv => ?_⟩
      obtain ⟨rfl, rfl⟩ := hs1 hv
      obtain ⟨rfl, rfl⟩ := hs2 hv
      exact hs hv

private lemma repair_of_represents (howner : owner ≠ allOnes 160) (h : Represents v l) (hva : Valid owner l)
    (ha : ¬Adjacent owner v) : repairNFTokenDirectoryLinks toBase58 v owner = .ok (false, v) := by
  have hs : Succeeds (repairNFTokenDirectoryLinks toBase58 v owner) _ := repair_spec howner h hva ha rfl
  obtain ⟨r, hr, -, hsa⟩ := hs
  rw [hr, hsa h]

/-! ### A page that is missed -/

private lemma repairNextPageMin_true {r : Bool × PageView}
    (h : repairNextPageMin v k link didRepair = .ok r) (hd : didRepair = true ∨ nextOf v k ≠ some link) : r.1 = true := by
  by_cases hl : nextOf v k = some link
  · rw [repairNextPageMin_eq hl] at h
    obtain rfl := ok.inj h
    exact hd.resolve_right (not_not.2 hl)
  · rw [repairNextPageMin, ← nextOf, if_neg hl] at h
    obtain ⟨v', -, h⟩ := of_bind_eq_ok h
    exact ok.inj h ▸ rfl

private lemma repairPreviousPageMin_true {r : Bool × PageView}
    (h : repairPreviousPageMin v k link true = .ok r) : r.1 = true := by
  by_cases hl : prevOf v k = some link
  · rw [repairPreviousPageMin_eq hl] at h
    exact ok.inj h ▸ rfl
  · rw [repairPreviousPageMin, ← prevOf, if_neg hl] at h
    obtain ⟨v', -, h⟩ := of_bind_eq_ok h
    exact ok.inj h ▸ rfl

/-- Once a link has been repaired, this is reported; so is a link that is not to the next page of the walk. -/
private lemma repairLoop_true (h : repairLoop owner fuel v k didRepair = .ok r)
    (hd : didRepair = true ∨ nextPageKey v owner k ∈ v ∧ nextOf v k ≠ some (some (nextPageKey v owner k))) : r.1 = true := by
  induction fuel generalizing v k didRepair with
  | zero => cases h
  | succ fuel ih =>
    rw [repairLoop] at h
    by_cases hmem : nextPageKey v owner k ∈ v
    · rw [if_neg (not_not.2 hmem)] at h
      obtain ⟨r1, h1, h⟩ := of_bind_eq_ok h
      obtain ⟨d1, v1⟩ := r1
      obtain rfl := repairNextPageMin_true h1 (hd.imp_right And.right)
      obtain ⟨r2, h2, h⟩ := of_bind_eq_ok h
      obtain ⟨d2, v2⟩ := r2
      obtain rfl := repairPreviousPageMin_true h2
      split_ifs at h with ht
      · exact ok.inj h ▸ rfl
      · exact ih h (.inl rfl)
    · rw [if_pos hmem] at h
      obtain rfl := ok.inj h
      exact hd.resolve_right fun hne => hmem hne.1

private lemma repairLoop_of_adjacent (howner : owner ≠ allOnes 160) (h : Represents v (l1 ++ e :: e' :: l2))
    (hva : Valid owner (l1 ++ e :: e' :: l2)) (hlnk : LinkedTo v l1.keys e.1) (hk : k ∈ e.1 :: e'.1 :: l2.keys)
    (hn : k.next ∈ v) (hne : k.next ≠ nftpageMax owner)
    (hr : repairLoop owner fuel v e.1 didRepair = .ok r) : r.1 = true := by
  induction fuel generalizing l1 e e' l2 with
  | zero => cases hr
  | succ fuel ih =>
    by_cases hm : e'.1 = e.1.next ∧ l2 ≠ []
    · obtain ⟨hmem, hne'⟩ := nextPageKey_ne howner h hva rfl rfl hm.1 hm.2
      have hlnk := h.linked
      rw [Buckets.keys_append] at hlnk
      refine repairLoop_true hr (.inr ⟨hmem, ?_⟩)
      rw [hlnk.next_eq]
      simpa using hne'.symm
    · have ha : e'.1 = e.1.next → l2 = [] := fun heq => not_not.1 fun hl2 => hm ⟨heq, hl2⟩
      obtain ⟨d, v', -, hlnk', hs, hrnd⟩ := repairLoop_round howner h hva ha rfl hlnk fuel didRepair
      obtain ⟨rfl, rfl⟩ := hs h
      rw [hrnd] at hr
      have hfst : k = e.1 → e'.1 = e.1.next := by
        rintro rfl
        have hlt : e.1 < e'.1 := (hva.cut.at_bucket.2 e' (by simp)).1
        exact le_antisymm (hva.le_of_lt (h.mem_iff.1 hn) (hva.lt_iff_next_le.2 le_rfl)) (hva.lt_iff_next_le.1 hlt)
      rw [append_cons] at h hva
      cases l2 with
      | nil =>
        have ht : e'.1 = nftpageMax owner := hva.cut.eq_top_iff.2 rfl
        rcases mem_cons.1 hk with rfl | hk
        · exact absurd ((hfst rfl).symm.trans ht) hne
        obtain rfl := mem_singleton.1 hk
        obtain ⟨f, hf, hn'⟩ := mem_map.1 (h.mem_iff.1 hn)
        have hle := hva.cut.le_top f hf
        rw [hn', ht, le_def, toNat_next_max howner] at hle
        omega
      | cons e'' l2 =>
        refine ih h hva hlnk' ?_ hr
        exact (mem_cons.1 hk).resolve_left fun heq => hm ⟨hfst heq, by simp⟩

private lemma repair_of_adjacent (howner : owner ≠ allOnes 160) (h : Represents v l) (hva : Valid owner l)
    (ha : Adjacent owner v) (v' : PageView) : repairNFTokenDirectoryLinks toBase58 v owner ≠ .ok (false, v') := by
  obtain ⟨k, hk, hn, hne⟩ := ha
  intro hr
  unfold repairNFTokenDirectoryLinks at hr
  dsimp only at hr
  cases l with
  | nil => simpa using h.mem_iff.1 hk
  | cons e l2 =>
    have h' : Represents v ([] ++ e :: l2) := h
    have hva' : Valid owner ([] ++ e :: l2) := hva
    obtain ⟨-, hf⟩ := h'.linked [] e.1 (Buckets.keys l2) rfl
    rw [getLast?_nil] at hf
    rw [firstPageKey_eq howner h hva rfl rfl, if_neg (not_not.2 (h.mem_iff.2 (by simp)))] at hr
    simp only [hva'.cut.eq_top_iff] at hr
    rw [repairPreviousPageMin_eq hf] at hr
    cases l2 with
    | nil =>
      have ht : e.1 = nftpageMax owner := hva'.cut.eq_top_iff.2 rfl
      exact hne ((mem_singleton.1 (h.mem_iff.1 hn)).trans ht)
    | cons e' l2 =>
      change (repairLoop owner v.keys.length v e.1 false >>= _) = _ at hr
      obtain ⟨⟨d, v1, page, last⟩, hl, hr⟩ := of_bind_eq_ok hr
      obtain rfl : d = true := repairLoop_of_adjacent howner h' hva' (linkedTo_first hf) (h.mem_iff.1 hk) hn hne hl
      cases last with
      | none =>
        obtain ⟨v2, -, hr⟩ := of_bind_eq_ok hr
        exact absurd (Prod.mk.inj (ok.inj hr)).1 (by simp)
      | some last => exact absurd (repairNextPageMin_true hr (.inl rfl)) (by simp)

/-! ### Repairing after a run -/

/-- Each page names the next and the previous page in the order of the keys. -/
def LinksInOrder (v : PageView) : Prop := ∀ k page, v.lookup k = some page →
  (∀ n, page.nextPageMin = some n ↔ n ∈ v ∧ k < n ∧ ∀ k' ∈ v, k < k' → n ≤ k') ∧
  ∀ n, page.previousPageMin = some n ↔ n ∈ v ∧ n < k ∧ ∀ k' ∈ v, k' < k → k' ≤ n

section

variable (h : Represents v (l1 ++ e :: l2)) (hva : Valid owner (l1 ++ e :: l2))

include h hva

private lemma head?_keys_iff : l2.keys.head? = some n ↔ n ∈ v ∧ e.1 < n ∧ ∀ k' ∈ v, e.1 < k' → n ≤ k' := by
  cases l2 with
  | nil =>
    have ht : e.1 = nftpageMax owner := hva.cut.eq_top_iff.2 rfl
    simp only [Buckets.keys_nil, head?_nil, reduceCtorEq, false_iff]
    rintro ⟨hn, hlt, -⟩
    obtain ⟨f, hf, rfl⟩ := mem_map.1 (h.mem_iff.1 hn)
    exact absurd (hva.cut.le_top f hf) (not_le.2 (ht ▸ hlt))
  | cons e' l2 =>
    have hmem : e'.1 ∈ v := h.mem_iff.2 (by simp)
    have hlt : e.1 < e'.1 := (hva.cut.at_bucket.2 e' (by simp)).1
    rw [Buckets.keys_cons, head?_cons, some_inj]
    constructor
    · rintro rfl
      exact ⟨hmem, hlt, fun k' hk' => hva.le_of_lt (h.mem_iff.1 hk')⟩
    · rintro ⟨hn, hlt', hl⟩
      exact le_antisymm (hva.le_of_lt (h.mem_iff.1 hn) hlt') (hl _ hmem hlt)

private lemma getLast?_keys_iff : l1.keys.getLast? = some n ↔ n ∈ v ∧ n < e.1 ∧ ∀ k' ∈ v, k' < e.1 → k' ≤ n := by
  cases l1 using reverseRecOn with
  | nil =>
    simp only [Buckets.keys_nil, getLast?_nil, reduceCtorEq, false_iff]
    rintro ⟨hn, hlt, -⟩
    obtain ⟨f, hf, rfl⟩ := mem_map.1 (h.mem_iff.1 hn)
    rcases mem_cons.1 hf with rfl | hf
    · exact lt_irrefl _ hlt
    · exact lt_asymm hlt (hva.cut.at_bucket.2 f hf).1
  | append_singleton l1 f =>
    rw [← append_cons] at h hva
    have hmem : f.1 ∈ v := h.mem_iff.2 (by simp)
    have hlt : f.1 < e.1 := (hva.cut.at_bucket.2 e (by simp)).1
    have hgr : ∀ k' ∈ v, k' < e.1 → k' ≤ f.1 := fun k' hk' hlt' =>
      not_lt.1 fun hlt'' => not_le.2 hlt' (hva.le_of_lt (h.mem_iff.1 hk') hlt'')
    rw [keys_getLast?_concat, some_inj]
    constructor
    · rintro rfl
      exact ⟨hmem, hlt, hgr⟩
    · rintro ⟨hn, hlt', hgr'⟩
      exact le_antisymm (hgr' _ hmem hlt) (hgr n hn hlt')

end

private lemma Represents.linksInOrder (h : Represents v l) (hva : Valid owner l) : LinksInOrder v := by
  intro k page hlk
  obtain ⟨ts, hts⟩ := h.exists_mem (AList.lookup_isSome.1 (by rw [hlk]; rfl))
  obtain ⟨l1, l2, rfl⟩ := append_of_mem hts
  rw [h.lookup_eq] at hlk
  obtain rfl := some.inj hlk
  exact ⟨fun n => head?_keys_iff h hva, fun n => getLast?_keys_iff h hva⟩

/-- The same pages with the same tokens, with any links. -/
def SameTokens (v w : PageView) : Prop :=
  ∀ k, (v.lookup k).map nftokens = (w.lookup k).map nftokens

/-- What the repair is for: it leaves the pages alone, it sets all links right when they have been overwritten, and then there
is nothing left to repair. -/
def Repairable (toBase58 : AccountID → String) (owner : AccountID) (v : PageView) : Prop :=
  repairNFTokenDirectoryLinks toBase58 v owner = .ok (false, v) ∧
  ∀ w, SameTokens w v → ∃ didRepair w', repairNFTokenDirectoryLinks toBase58 w owner = .ok (didRepair, w') ∧
    LinksInOrder w' ∧ SameTokens w' v ∧ repairNFTokenDirectoryLinks toBase58 w' owner = .ok (false, w')

/-- The repair works on the pages of every run exactly when no page is missed. -/
theorem run_repairable_iff (toBase58 : AccountID → String) (owner : AccountID) (howner : owner ≠ allOnes 160)
    (cs : List Call) (hfresh : Along (step owner) Fresh init cs) (s : Traced) (hrun : run owner cs = .ok s) :
    Repairable toBase58 owner s.tokens.pages ↔ ¬Adjacent owner s.tokens.pages := by
  obtain ⟨l, hinv⟩ : ∃ l, Inv owner s l := run_inv howner hfresh hrun
  constructor
  · intro hr ha
    exact repair_of_adjacent howner hinv.represents hinv.valid ha _ hr.1
  intro ha
  refine ⟨repair_of_represents howner hinv.represents hinv.valid ha, fun w hw => ?_⟩
  obtain ⟨⟨didRepair, w'⟩, hre, hrep, -⟩ := repair_spec howner hinv.represents hinv.valid ha (funext hw)
  have hmem : ∀ k, k ∈ w' ↔ k ∈ s.tokens.pages := fun k => hrep.mem_iff.trans hinv.represents.mem_iff.symm
  have ha' : ¬Adjacent owner w' := fun ⟨k, hk, hn, hne⟩ =>
    ha ⟨k, (hmem _).1 hk, (hmem _).1 hn, hne⟩
  exact ⟨didRepair, w', hre, hrep.linksInOrder hinv.valid, congrFun (hrep.tokensOf_eq hinv.represents),
    repair_of_represents howner hrep hinv.valid ha'⟩

/-- Two pages that are linked with each other. -/
theorem run_repairable_iff_two : ∃ s, run 1 denseCalls = .ok s ∧
    (s.tokens.pages.entries.map fun e => (e.1, e.2.previousPageMin, e.2.nextPageMin)) =
      [(nftpageMax 1, some (keyOf 1 16), none), (keyOf 1 16, none, some (nftpageMax 1))] ∧
    Repairable (fun _ => "owner") 1 s.tokens.pages := by
  have hrun : ((run 1 denseCalls).toOption.map fun s => s.tokens.pages.entries.map fun e =>
      (e.1, e.2.previousPageMin, e.2.nextPageMin)) =
        some [(nftpageMax 1, some (keyOf 1 16), none), (keyOf 1 16, none, some (nftpageMax 1))] := by
    decide +kernel
  obtain ⟨s, hs, hr⟩ := Option.map_eq_some_iff.1 hrun
  have hs : run 1 denseCalls = .ok s := by
    cases h : run 1 denseCalls <;> simp_all [Except.toOption]
  refine ⟨s, hs, hr, (run_repairable_iff _ 1 (by decide) denseCalls (by decide +kernel) s hs).2 ?_⟩
  have hkeys : s.tokens.pages.keys = [nftpageMax 1, keyOf 1 16] := by
    have hfst := congrArg (map Prod.fst) hr
    rw [List.map_map] at hfst
    exact hfst
  rintro ⟨k, hk, hn, -⟩
  rw [AList.mem_keys, hkeys] at hk hn
  have hk : k = nftpageMax 1 ∨ k = keyOf 1 16 := by simpa using hk
  rcases hk with rfl | rfl
  · exact absurd hn (by decide +kernel)
  · exact absurd hn (by decide +kernel)

/-- Thirty-two tokens with the low bits 0, thirty-two with the low bits 1, and another one: the keys of the pages end with 1
and 2 and with ones. -/
def missedCalls : List Call :=
  ((range 32).map fun i => .insertToken ⟨BitVec.ofNat 256 (i * 2 ^ 96), none⟩) ++
    ((range 32).map fun i => .insertToken ⟨BitVec.ofNat 256 (i * 2 ^ 96 + 1), none⟩) ++ [.insertToken ⟨7, none⟩]

/-- Whether the repair reports that it changed a link after the calls. -/
def repairsAfter (owner : AccountID) (cs : List Call) : Bool :=
  match run owner cs with
  | .error _ => false
  | .ok s =>
    match repairNFTokenDirectoryLinks (fun _ => "owner") s.tokens.pages owner with
    | .error _ => false
    | .ok (didRepair, _) => didRepair

theorem run_not_repairable : Along (step 1) Fresh init missedCalls ∧
    ∃ s, run 1 missedCalls = .ok s ∧ ¬Repairable (fun _ => "owner") 1 s.tokens.pages := by
  have hr : repairsAfter 1 missedCalls = true := by decide +kernel
  refine ⟨by decide +kernel, ?_⟩
  unfold repairsAfter at hr
  cases hrun : run 1 missedCalls with
  | error e =>
    rw [hrun] at hr
    cases hr
  | ok s =>
    refine ⟨s, rfl, fun hrep => ?_⟩
    rw [hrun] at hr
    dsimp only at hr
    rw [hrep.1] at hr
    cases hr

end Xrpl.NFT

import Xrpl.NFT.Remove

/-!
# Runs of insertions and removals of tokens

* `Call`, `step`, `run`: any sequence of insertions and removals, starting from no pages;
* `WellFormed`: what holds of the pages at all times, in the words of the fields of the pages;
* `run_tokens_wellFormed`: every run that does not throw keeps the pages well formed, and a run throws only when a token has all its
  low bits set;
* `run_tokens_dense`: while any two adjacent pages hold more tokens than fit on one, a removal takes away at most one
  page.  A split can end this (`run_sparseCalls`).
-/

namespace Xrpl.NFT

open Ledger List Multiset

variable {n start : Nat} {adj : List Int} {nft : NFToken}

private lemma foldl_confineOwnerCount (h : ∀ p, p <+: adj → 0 ≤ start + p.sum ∧ start + p.sum < 2 ^ 32) :
    ((adj.foldl confineOwnerCount start : Nat) : Int) = start + adj.sum := by
  induction adj using List.reverseRecOn with
  | nil => simp
  | append_singleton adj a ih =>
    have hbd := h (adj ++ [a]) prefix_rfl
    have ih := ih fun p hp => h p (hp.trans (prefix_append adj [a]))
    rw [List.sum_append, List.sum_singleton] at hbd
    rw [List.foldl_concat, List.sum_append, List.sum_singleton, confineOwnerCount]
    split_ifs <;> omega

/-- The adjustments add up to `n`, and never to less than nothing. -/
structure AddsUp (adj : List Int) (n : Nat) : Prop where
  sum : adj.sum = n
  nonneg : ∀ p, p <+: adj → 0 ≤ p.sum

private lemma AddsUp.ownerCount {s : Tokens} (h : AddsUp s.adjustments n)
    (hst : ∀ p, p <+: s.adjustments → start + p.sum < 2 ^ 32) : s.ownerCount start = start + n := by
  have hbd : ∀ p, p <+: s.adjustments → 0 ≤ start + p.sum ∧ start + p.sum < 2 ^ 32 := fun p hp =>
    ⟨by have hnn := h.nonneg p hp; omega, hst p hp⟩
  have hf := foldl_confineOwnerCount hbd
  rw [h.sum] at hf
  exact_mod_cast hf

inductive Call where
  | insertToken (nft : NFToken)
  | removeToken (nftokenID : Uint256)

/-- The pages, and the tokens that were inserted and not removed. -/
structure Traced where
  tokens : Tokens
  held : List NFToken

def init : Traced := ⟨⟨∅, []⟩, []⟩

def step (owner : AccountID) (s : Traced) : Call → Except LogicError Traced
  | .insertToken nft => do
    let (ter, tokens) ← insertToken s.tokens owner nft
    return ⟨tokens, if ter = .tesSUCCESS then nft :: s.held else s.held⟩
  | .removeToken id => do
    let (_, tokens) ← removeToken s.tokens owner id
    return ⟨tokens, s.held.filter fun t => t.nftokenID ≠ id⟩

def run (owner : AccountID) (cs : List Call) : Except LogicError Traced := cs.foldlM (step owner) init

def Fresh (s : Traced) : Call → Prop
  | .insertToken nft => ∀ t ∈ s.held, t.nftokenID ≠ nft.nftokenID
  | .removeToken _ => True

instance decidableFresh (s : Traced) : ∀ c, Decidable (Fresh s c)
  | .insertToken nft => inferInstanceAs (Decidable (∀ t ∈ s.held, t.nftokenID ≠ nft.nftokenID))
  | .removeToken _ => inferInstanceAs (Decidable True)

/-- No token with all low bits set is inserted. -/
def Call.LowBitsClear : Call → Prop
  | .insertToken nft => nft.nftokenID &&& kPageMask ≠ kPageMask
  | .removeToken _ => True

instance decidableLowBitsClear : ∀ c : Call, Decidable c.LowBitsClear
  | .insertToken nft => inferInstanceAs (Decidable (nft.nftokenID &&& kPageMask ≠ kPageMask))
  | .removeToken _ => inferInstanceAs (Decidable True)

/-! ### The invariant -/

structure Inv (owner : AccountID) (s : Traced) (l : Buckets Uint256 NFToken) : Prop where
  represents : Represents s.tokens.pages l
  valid : Valid owner l
  items : l.items = s.held
  nodup : (s.held.map NFToken.nftokenID).Nodup
  count : AddsUp s.tokens.adjustments l.length

variable {owner : AccountID} {s s' : Traced} {l l' : Buckets Uint256 NFToken} {c : Call}

private lemma inv_init (owner : AccountID) : Inv owner init [] :=
  ⟨⟨.nil, fun k ts => by simp [tokensOf, init]⟩, valid_nil owner, rfl, by simp [init], rfl, by simp [init]⟩

private lemma Inv.mem_iff (h : Inv owner s l) {t : NFToken} : t ∈ l.items ↔ t ∈ s.held := by
  rw [h.items, mem_coe]

private lemma AddsUp.counts {t t' : Tokens} (h : AddsUp t.adjustments l.length) (hc : Counts t l t' l') :
    AddsUp t'.adjustments l'.length := by
  obtain ⟨d, hd, hm⟩ := hc
  rw [hd]
  have hs := h.sum
  cases d with
  | none =>
    obtain heq : l'.length = l.length := by simpa using hm
    simpa [heq] using h
  | some a =>
    simp only [Option.getD_some] at hm
    have hs' : (t.adjustments ++ [a]).sum = l'.length := by
      rw [List.sum_append, List.sum_singleton]
      omega
    refine ⟨hs', fun p hp => ?_⟩
    rcases prefix_concat_iff.1 hp with rfl | hp
    · omega
    · exact h.nonneg p hp

private lemma filter_of_cons {held : List NFToken} {t : NFToken} {m : Multiset NFToken}
    (hn : (held.map NFToken.nftokenID).Nodup)
    (hh : (held : Multiset NFToken) = t ::ₘ m) :
    m = (held.filter fun t' => t'.nftokenID ≠ t.nftokenID : List NFToken) := by
  have hi : (t.nftokenID ::ₘ m.map NFToken.nftokenID).Nodup := by
    rw [← Multiset.map_cons, ← hh]
    exact hn
  have hne : ∀ t' ∈ m, t'.nftokenID ≠ t.nftokenID := fun t' ht' heq =>
    (nodup_cons.1 hi).1 (heq ▸ mem_map_of_mem _ ht')
  calc m
    _ = m.filter (fun t' => t'.nftokenID ≠ t.nftokenID) := (filter_eq_self.2 hne).symm
    _ = (t ::ₘ m).filter (fun t' => t'.nftokenID ≠ t.nftokenID) := (filter_cons_of_neg m (by simp)).symm
    _ = _ := by rw [← hh, filter_coe]

section

variable (hown : owner ≠ BitVec.allOnes 160)

include hown

section

variable (h : Inv owner s l)

include h

private lemma step_removeToken (id : Uint256) : Succeeds (step owner s (.removeToken id)) fun s' =>
      (∃ l', Inv owner s' l' ∧ Kept l l') ∧ s'.held = s.held.filter fun t => t.nftokenID ≠ id := by
  by_cases hmem : ∃ t ∈ s.held, t.nftokenID = id
  · obtain ⟨t0, ht0, hid⟩ := hmem
    obtain ⟨l1, k, ts, l2, rfl, hts, hk⟩ := lookup_of_mem hown h.represents h.valid (h.mem_iff.2 ht0)
    rw [step, removeToken, locatePage, ← hid, hk, h.represents.lookup_eq]
    refine (removeTokenFrom_spec h.represents h.valid hts rfl).bind fun r ⟨t, l', hr, hk⟩ =>
      .pure ⟨⟨l', ⟨hr.represents, hr.valid, ?_, ?_, h.count.counts hr.counts⟩, hk⟩, rfl⟩
    · have hi := hr.items
      rw [h.items] at hi
      rw [filter_of_cons h.nodup hi, hr.token]
    · exact h.nodup.sublist (filter_sublist.map _)
  · push Not at hmem
    have hs : (s.held.filter fun t => t.nftokenID ≠ id) = s.held :=
      filter_eq_self.2 fun t ht => by simpa using hmem t ht
    unfold step
    dsimp only
    rw [removeToken_missing h.represents fun t ht => hmem t (h.mem_iff.1 ht)]
    refine .pure ⟨⟨l, ?_, fun hd => ⟨hd, by omega⟩⟩, rfl⟩
    rw [hs]
    exact { h with }

private lemma step_insertToken (hf : Fresh s (.insertToken nft)) :
    (step owner s (.insertToken nft) = .error .insertExisting ∧ AllOnes l nft.nftokenID) ∨
    step owner s (.insertToken nft) = .ok s ∨
    ∃ l' s', step owner s (.insertToken nft) = .ok s' ∧ Inv owner s' l' ∧ s'.held = nft :: s.held ∧
      (Dense l → l'.length = l.length → Dense l') := by
  have hn : ∀ t ∈ l.items, t.nftokenID ≠ nft.nftokenID := fun t ht => hf t (h.mem_iff.1 ht)
  unfold step
  dsimp only
  rcases insertToken_spec hown h.represents h.valid hn with ⟨hi, ho, -⟩ | ⟨hi, -⟩ |
    ⟨l', tokens, hi, hr, hv, hits, hc, hd⟩ <;> rw [hi]
  · exact .inl ⟨rfl, ho⟩
  · exact .inr (.inl rfl)
  refine .inr (.inr ⟨l', ⟨tokens, nft :: s.held⟩, rfl, ⟨hr, hv, ?_, ?_, h.count.counts hc⟩, rfl, hd⟩)
  · rw [hits, h.items, cons_coe]
  rw [List.map_cons, List.nodup_cons]
  refine ⟨fun hmem => ?_, h.nodup⟩
  obtain ⟨t, ht, htok⟩ := mem_map.1 hmem
  exact hf t ht htok

private lemma step_inv (hf : Fresh s c) (hs : step owner s c = .ok s') : ∃ l', Inv owner s' l' := by
  cases c with
  | removeToken id =>
    obtain ⟨s'', hs', ⟨l', hinv, -⟩, -⟩ := step_removeToken hown h id
    obtain rfl := Except.ok.inj (hs.symm.trans hs')
    exact ⟨l', hinv⟩
  | insertToken nft =>
    rcases step_insertToken hown h hf with ⟨hs', -⟩ | hs' | ⟨l', s'', hs', hinv, -⟩
    · cases hs.symm.trans hs'
    · obtain rfl := Except.ok.inj (hs.symm.trans hs')
      exact ⟨l, h⟩
    · obtain rfl := Except.ok.inj (hs.symm.trans hs')
      exact ⟨l', hinv⟩

private lemma step_succeeds (hf : Fresh s c)
    (hh : ∀ t ∈ s.held, t.nftokenID &&& kPageMask ≠ kPageMask) (hc : c.LowBitsClear) :
    Succeeds (step owner s c) fun s' => ∀ t ∈ s'.held, t.nftokenID &&& kPageMask ≠ kPageMask := by
  cases c with
  | removeToken id =>
    obtain ⟨s', hs, -, hh'⟩ := step_removeToken hown h id
    exact ⟨s', hs, fun t ht => hh t (mem_of_mem_filter (hh' ▸ ht))⟩
  | insertToken nft =>
    rcases step_insertToken hown h hf with ⟨-, ho⟩ | hs | ⟨l', s', hs, -, hh', -⟩
    · rcases ho with hn | ⟨t, ht, ho⟩
      · exact absurd hn hc
      · exact absurd ho (hh t (h.mem_iff.1 ht))
    · exact ⟨s, hs, hh⟩
    refine ⟨s', hs, ?_⟩
    dsimp only
    rw [hh']
    exact forall_mem_cons.2 ⟨hc, hh⟩

end

lemma run_inv {cs : List Call} (hf : Along (step owner) Fresh init cs)
    (hr : run owner cs = .ok s) : ∃ l, Inv owner s l :=
  Along.foldlM_of_ok (I := fun s => ∃ l, Inv owner s l) (fun _ _ _ ⟨_, hinv⟩ hc hs => step_inv hown hinv hc hs)
    ⟨[], inv_init owner⟩ hf hr

end

/-! ### What holds of the pages -/

/-- The pages of an account, in the order of their keys. -/
structure WellFormed (owner : AccountID) (s : Traced) (l : List (Uint256 × List NFToken)) : Prop where
  /-- The list has all pages. -/
  pages : ∀ k ts, (k, ts) ∈ l ↔ (s.tokens.pages.lookup k).map NFTokenPage.nftokens = some ts
  /-- Each page names the next and the previous one. -/
  links : ∀ l₁ k ts l₂, l = l₁ ++ (k, ts) :: l₂ →
    s.tokens.pages.lookup k = some ⟨ts, l₂.head?.map Prod.fst, l₁.getLast?.map Prod.fst⟩
  increasing : l.Pairwise fun e e' => e.1 < e'.1
  owned : ∀ e ∈ l, nftpageMin owner ≤ e.1
  last : ∀ e, l.getLast? = some e → e.1 = nftpageMax owner
  tokens : ∀ e ∈ l, e.2 ≠ [] ∧ e.2.length ≤ kDirMaxTokensPerPage ∧
    e.2.Pairwise fun t t' => compareTokens t.nftokenID t'.nftokenID = true
  /-- The low bits of the tokens are between those of the keys, or are all ones. -/
  low : ∀ l₁ e l₂, l = l₁ ++ e :: l₂ → ∀ t ∈ e.2,
    (∀ p, l₁.getLast? = some p → p.1 &&& kPageMask ≤ t.nftokenID &&& kPageMask) ∧
    (t.nftokenID &&& kPageMask < e.1 &&& kPageMask ∨ l₂ = [] ∧ t.nftokenID &&& kPageMask = kPageMask)
  adjusted : s.tokens.adjustments.sum = l.length
  /-- The owner count has a unit for each page, unless it got stuck at the largest 32-bit number. -/
  ownerCount : ∀ start : Nat, (∀ p, p <+: s.tokens.adjustments → start + p.sum < 2 ^ 32) →
    s.tokens.ownerCount start = start + l.length
  found : ∀ id, (findToken s.tokens.pages owner id).isSome ↔ ∃ t ∈ s.held, t.nftokenID = id
  full : ∀ nft, (∀ t ∈ s.held, t.nftokenID ≠ nft.nftokenID) →
    ((∃ s', insertToken s.tokens owner nft = .ok (.tecNO_SUITABLE_NFTOKEN_PAGE, s')) ↔
      (s.held.countP fun t => t.nftokenID &&& kPageMask = nft.nftokenID &&& kPageMask) = kDirMaxTokensPerPage)
  unchanged : ∀ nft, (∀ t ∈ s.held, t.nftokenID ≠ nft.nftokenID) → ∀ s',
    insertToken s.tokens owner nft = .ok (.tecNO_SUITABLE_NFTOKEN_PAGE, s') → s' = s.tokens

private lemma Inv.insertToken_full (hown : owner ≠ BitVec.allOnes 160) (h : Inv owner s l)
    (hn : ∀ t ∈ s.held, t.nftokenID ≠ nft.nftokenID) :
    ((∃ s', insertToken s.tokens owner nft = .ok (.tecNO_SUITABLE_NFTOKEN_PAGE, s')) ↔
      equivalents l nft.nftokenID = kDirMaxTokensPerPage) ∧
    ∀ s', insertToken s.tokens owner nft = .ok (.tecNO_SUITABLE_NFTOKEN_PAGE, s') → s' = s.tokens := by
  have hn' : ∀ t ∈ l.items, t.nftokenID ≠ nft.nftokenID := fun t ht => hn t (h.mem_iff.1 ht)
  rcases insertToken_spec hown h.represents h.valid hn' with ⟨hi, -, hcnt⟩ | ⟨hi, hcnt⟩ |
    ⟨l', tokens, hi, -, hv, hits, -⟩ <;> rw [hi]
  · exact ⟨⟨fun ⟨_, h⟩ => (nomatch h), fun h => absurd h hcnt⟩, fun _ h => nomatch h⟩
  · refine ⟨⟨fun _ => hcnt, fun _ => ⟨_, rfl⟩⟩, fun s' hs' => ?_⟩
    exact (Prod.mk.inj (Except.ok.inj hs')).2.symm
  refine ⟨⟨fun ⟨_, h⟩ => (nomatch h), fun hcnt => ?_⟩, fun _ h => nomatch h⟩
  -- one more of these tokens would not fit on a page
  have hle := hv.equivalents_le nft.nftokenID
  have hc : equivalents l' nft.nftokenID = equivalents l nft.nftokenID + 1 := by
    rw [equivalents, hits]
    exact countP_cons_of_pos _ rfl
  omega

private lemma Inv.wellFormed (hown : owner ≠ BitVec.allOnes 160) (h : Inv owner s l) : WellFormed owner s l where
  pages k ts := (h.represents.tokens k ts).symm
  links l1 k ts l2 hl := by
    subst hl
    have hlk := h.represents.lookup_eq
    simpa [Buckets.keys] using hlk
  increasing := h.valid.cut.ordered.imp And.left
  owned e he := (h.valid.page e he).key ▸ min_le_keyOf owner e.1
  last e he := by
    obtain ⟨l1, rfl⟩ := getLast?_eq_some_iff.1 he
    exact h.valid.cut.eq_top_iff.2 rfl
  tokens e he := ⟨(h.valid.page e he).nonempty, (h.valid.page e he).small, (h.valid.page e he).sorted⟩
  low l1 e l2 hl t ht := by
    subst hl
    constructor
    · intro p hp
      have hmem := mem_of_getLast? hp
      have hle := (h.valid.cut.at_bucket.1 p hmem).2 t ht
      rwa [← (h.valid.page p (by simp [hmem])).key, keyOf_le_keyOf] at hle
    · by_cases htop : e.1 = nftpageMax owner
      · rcases (keyOf_le_max owner t.nftokenID).lt_or_eq with hlt | heq
        · rw [← keyOf_max, keyOf_lt_keyOf] at hlt
          exact .inl (htop ▸ hlt)
        · exact .inr ⟨h.valid.cut.eq_top_iff.1 htop, keyOf_eq_max.1 heq⟩
      · have hlt := h.valid.cut.below e (by simp) t ht htop
        rw [← (h.valid.page e (by simp)).key, keyOf_lt_keyOf] at hlt
        exact .inl hlt
  adjusted := h.count.sum
  ownerCount _ hst := h.count.ownerCount hst
  found id := by
    rw [findToken_iff hown h.represents h.valid]
    simp only [h.mem_iff]
  full nft hn := by
    rw [← coe_countP, ← h.items]
    exact (h.insertToken_full hown hn).1
  unchanged nft hn := (h.insertToken_full hown hn).2

/-- Every run that does not throw leaves well-formed pages, and no run throws unless a token with all its low bits set is
inserted. -/
theorem run_tokens_wellFormed (owner : AccountID) (howner : owner ≠ BitVec.allOnes 160) (cs : List Call)
    (hfresh : Along (step owner) Fresh init cs) :
    (∀ s, run owner cs = .ok s → ∃ l, WellFormed owner s l) ∧
    ((∀ c ∈ cs, c.LowBitsClear) → ∃ s, run owner cs = .ok s) := by
  constructor
  · intro s hr
    obtain ⟨l, hinv⟩ := run_inv howner hfresh hr
    exact ⟨l, hinv.wellFormed howner⟩
  intro hclr
  have hs : ∀ s c, ((∃ l, Inv owner s l) ∧ ∀ t ∈ s.held, t.nftokenID &&& kPageMask ≠ kPageMask) →
      Fresh s c ∧ c.LowBitsClear → Succeeds (step owner s c) fun s' =>
        (∃ l, Inv owner s' l) ∧ ∀ t ∈ s'.held, t.nftokenID &&& kPageMask ≠ kPageMask := by
    rintro s c ⟨⟨l, hinv⟩, hh⟩ ⟨hc, hclr⟩
    obtain ⟨s', hs, hh'⟩ := step_succeeds howner hinv hc hh hclr
    exact ⟨s', hs, step_inv howner hinv hc hs, hh'⟩
  obtain ⟨s, hr, -⟩ := Along.foldlM hs ⟨⟨[], inv_init owner⟩, by simp [init]⟩ (hfresh.and_forall hclr)
  exact ⟨s, hr⟩

theorem run_tokens_wellFormed_two : ∃ s, run 1 [.insertToken ⟨5, none⟩, .insertToken ⟨7, none⟩, .removeToken 5] = .ok s ∧
    ∃ l, WellFormed 1 s l := by
  have h := run_tokens_wellFormed 1 (by decide) [.insertToken ⟨5, none⟩, .insertToken ⟨7, none⟩, .removeToken 5]
    (by decide +kernel)
  obtain ⟨s, hr⟩ := h.2 (by decide +kernel)
  exact ⟨s, hr, h.1 s hr⟩

/-- Thirty-two tokens with the same low bits, and then one whose low bits are all ones: the new page would get the key of the
last page. -/
def collidingCalls : List Call :=
  ((List.range 32).map fun i => .insertToken ⟨BitVec.ofNat 256 (i * 2 ^ 96 + (2 ^ 96 - 2)), none⟩) ++
    [.insertToken ⟨kPageMask, none⟩]

theorem run_collidingCalls : Along (step 1) Fresh init collidingCalls ∧ ¬∃ s, run 1 collidingCalls = .ok s := by
  have he : (run 1 collidingCalls).isOk = false := by decide +kernel
  refine ⟨by decide +kernel, fun ⟨s, hs⟩ => ?_⟩
  rw [hs] at he
  cases he

/-! ### How full the pages are -/

/-- A removal from pages of which any two adjacent ones hold more tokens than fit on one leaves such pages.  At most one
page goes: either two pages are merged, or an empty page is erased and its neighbours stay apart.  An insertion that does
not split a page leaves such pages too. -/
theorem run_tokens_dense (owner : AccountID) (howner : owner ≠ BitVec.allOnes 160) (cs : List Call)
    (hfresh : Along (step owner) Fresh init cs) (s : Traced) (hrun : run owner cs = .ok s) :
    ∃ l, WellFormed owner s l ∧ (Dense l →
      (∀ id, ∃ s' l', step owner s (.removeToken id) = .ok s' ∧ WellFormed owner s' l' ∧ Dense l' ∧
        l.length ≤ l'.length + 1) ∧
      ∀ nft s', Fresh s (.insertToken nft) → step owner s (.insertToken nft) = .ok s' →
        ∃ l', WellFormed owner s' l' ∧ (l'.length = l.length → Dense l')) := by
  obtain ⟨l, h⟩ := run_inv howner hfresh hrun
  refine ⟨l, h.wellFormed howner, fun hd => ⟨fun id => ?_, fun nft s' hf hs => ?_⟩⟩
  · obtain ⟨s', hs, ⟨l', h', hk⟩, -⟩ := step_removeToken howner h id
    exact ⟨s', l', hs, h'.wellFormed howner, hk hd⟩
  rcases step_insertToken howner h hf with ⟨hs', -⟩ | hs' | ⟨l', s'', hs', h', -, hd'⟩
  · cases hs.symm.trans hs'
  · obtain rfl := Except.ok.inj (hs.symm.trans hs')
    exact ⟨l, h.wellFormed howner, fun _ => hd⟩
  · obtain rfl := Except.ok.inj (hs.symm.trans hs')
    exact ⟨l', h'.wellFormed howner, hd' hd⟩

/-- One token more than fits on a page: the page is split in the middle. -/
def denseCalls : List Call := (List.range 33).map fun i => .insertToken ⟨.ofNat 256 i, none⟩

/-- The two pages hold 16 and 17 tokens, and a removal from the first one merges them. -/
theorem run_tokens_dense_two : ∃ s l, run 1 denseCalls = .ok s ∧ WellFormed 1 s l ∧ l.length = 2 ∧ Dense l ∧
    ∃ s' l', step 1 s (.removeToken 5) = .ok s' ∧ WellFormed 1 s' l' ∧ Dense l' := by
  have hrun : ((run 1 denseCalls).toOption.map fun s => decide (s.tokens.adjustments.sum = 2 ∧
      ((s.tokens.pages.lookup (nftpageMax 1)).map fun p => (p.nftokens.length, p.previousPageMin)) =
        some (17, some (keyOf 1 16)) ∧
      ((s.tokens.pages.lookup (keyOf 1 16)).map fun p => p.nftokens.length) = some 16)) = some true := by decide +kernel
  obtain ⟨s, hs, hr⟩ := Option.map_eq_some_iff.1 hrun
  obtain ⟨hsum, htop, hlow⟩ := of_decide_eq_true hr
  have hs : run 1 denseCalls = .ok s := by
    cases h : run 1 denseCalls <;> simp_all [Except.toOption]
  obtain ⟨l, hw, hd⟩ := run_tokens_dense 1 (by decide) denseCalls (by decide +kernel) s hs
  have hlen := hw.adjusted
  obtain ⟨e, e', rfl⟩ := length_eq_two.1 (by omega : l.length = 2)
  have hden : Dense [e, e'] := by
    have he := hw.links [] e.1 e.2 [e'] rfl
    have he' := hw.links [e] e'.1 e'.2 [] rfl
    rw [hw.last e' rfl] at he'
    rw [he'] at htop
    obtain ⟨htop, hkey⟩ := Prod.mk.inj (Option.some.inj htop)
    have hkey : e.1 = keyOf 1 16 := Option.some.inj hkey
    rw [← hkey, he] at hlow
    have htop : e'.2.length = 17 := htop
    have hlow : e.2.length = 16 := Option.some.inj hlow
    simp only [Dense, isChain_cons_cons, kDirMaxTokensPerPage]
    exact ⟨by omega, .singleton e'⟩
  obtain ⟨s', l', hs', hw', hd', -⟩ := (hd hden).1 5
  exact ⟨s, [e, e'], hs, hw, rfl, hden, s', l', hs', hw', hd'⟩

/-- Sixteen tokens have the same low bits.  The page that they fill up with lower ones is split twice, first before its last
token and then in the middle. -/
def sparseCalls : List Call :=
  ((List.range 15).map fun i => .insertToken ⟨.ofNat 256 i, none⟩) ++
    ((List.range 16).map fun i => .insertToken ⟨.ofNat 256 (i * 2 ^ 96 + 20), none⟩) ++
    [.insertToken ⟨40, none⟩, .insertToken ⟨15, none⟩, .insertToken ⟨41, none⟩, .removeToken 15,
      .insertToken ⟨30, none⟩, .insertToken ⟨16, none⟩, .insertToken ⟨17, none⟩]

/-- A page with 16 tokens comes before one with a single token.  When that token goes, the page is erased and then its
neighbours are merged. -/
theorem run_sparseCalls : Along (step 1) Fresh init (sparseCalls ++ [.removeToken 30]) ∧
    ((run 1 sparseCalls).toOption.map fun s => [keyOf 1 30, keyOf 1 40].map fun k =>
      (s.tokens.pages.lookup k).map fun p => (p.nftokens.length, p.nextPageMin)) =
        some [some (16, some (keyOf 1 40)), some (1, some (nftpageMax 1))] ∧
    ((run 1 (sparseCalls ++ [.removeToken 30])).toOption.map fun s => s.tokens.adjustments) =
      some [1, 1, 1, 1, -2] := by
  decide +kernel

end Xrpl.NFT

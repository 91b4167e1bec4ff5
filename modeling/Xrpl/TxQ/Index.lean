import Mathlib.Data.Prod.Lex
import Xrpl.TxQ.Accept

/-!
# The indexes agree

`Indexed q` says that `byFee` links exactly the candidates in the maps of the accounts, each once and in order, and
that every candidate is stored under its own account and sequence.

* `find_updateTx`, `find_removeTx`, …: the candidates after a change;
* `Indexed.erase`, `Indexed.eraseAndAdvance`: erasing a linked candidate does not fail;
* `Indexed.insertTx`, `Indexed.rebuild`: a new candidate, and a new order.
-/

namespace Xrpl.TxQ

open List Option OrderedMap

variable {q q' : TxQ} {h h' : Handle} {f : TxQAccount → TxQAccount} {a : MaybeTx}

private lemma find_updateAccount {a : AccountID} {g : SeqProxy → Option MaybeTx → Option MaybeTx}
    (hg : ∀ acct s, (f acct).transactions.find s = g s (acct.transactions.find s)) (hn : ∀ s, g s none = none)
    (h : Handle) :
    (q.updateAccount a f).find h = if h.account = a then g h.seqProxy (q.find h) else q.find h := by
  rw [find, updateAccount, find_modify, find]
  split_ifs
  · cases q.byAccount.find h.account with
    | none => exact (hn _).symm
    | some acct => exact hg acct h.seqProxy
  · rfl

lemma find_mark {a : AccountID} (hf : ∀ acct, (f acct).transactions = acct.transactions)
    (h : Handle) : (q.updateAccount a f).find h = q.find h := by
  have := find_updateAccount (q := q) (a := a) (f := f) (g := fun _ c => c) (fun acct s => by rw [hf acct])
    (fun _ => rfl) h
  rw [this, ite_self]

lemma find_updateTx (f : MaybeTx → MaybeTx) (h h' : Handle) :
    (q.updateTx h f).find h' = if h' = h then (q.find h').map f else q.find h' := by
  rw [updateTx, find_updateAccount (g := fun s c => if s = h.seqProxy then c.map f else c)
    (fun acct s => find_modify ..) (fun s => by split_ifs <;> rfl)]
  obtain ⟨a, s⟩ := h
  obtain ⟨a', s'⟩ := h'
  by_cases ha : a' = a
  · by_cases hs : s' = s <;> simp [hs]
  · simp [ha]

private lemma find_removeTx (h h' : Handle) : (q.removeTx h).find h' = if h' = h then none else q.find h' := by
  rw [removeTx, find_updateAccount (g := fun s c => if s = h.seqProxy then none else c)
    (fun acct s => find_erase ..) (fun s => by split_ifs <;> rfl)]
  obtain ⟨a, s⟩ := h
  obtain ⟨a', s'⟩ := h'
  by_cases ha : a' = a
  · by_cases hs : s' = s <;> simp [hs]
  · simp [ha]

private lemma find_ensureAccount (a : AccountID) (h : Handle) : (q.ensureAccount a).find h = q.find h := by
  cases ha : q.byAccount.find a with
  | some acct => rw [ensureAccount, emplace_of_find ha]
  | none =>
    rw [find, ensureAccount, find_emplace ha, find]
    split_ifs with heq
    · rw [heq, ha]
      rfl
    · rfl

private lemma find_account_ensureAccount (a : AccountID) : ((q.ensureAccount a).byAccount.find a).isSome := by
  cases ha : q.byAccount.find a with
  | some acct =>
    rw [ensureAccount, emplace_of_find ha, ha]
    rfl
  | none =>
    rw [ensureAccount, find_emplace ha, if_pos rfl]
    rfl

variable {c b : MaybeTx} {hash : Uint256} {acct : TxQAccount}

structure MaybeTx.Same (c c' : MaybeTx) : Prop where
  feeLevel : c'.feeLevel = c.feeLevel
  txID : c'.txID = c.txID
  account : c'.account = c.account
  lastValid : c'.lastValid = c.lastValid
  seqProxy : c'.seqProxy = c.seqProxy
  flags : c'.flags = c.flags

lemma MaybeTx.Same.refl (c : MaybeTx) : c.Same c := ⟨rfl, rfl, rfl, rfl, rfl, rfl⟩

lemma MaybeTx.Same.trans (hab : a.Same b) (hbc : b.Same c) : a.Same c :=
  ⟨hbc.feeLevel.trans hab.feeLevel, hbc.txID.trans hab.txID, hbc.account.trans hab.account,
    hbc.lastValid.trans hab.lastValid, hbc.seqProxy.trans hab.seqProxy, hbc.flags.trans hab.flags⟩

lemma orderCandidates_iff : orderCandidates hash a b ↔
      b.feeLevel < a.feeLevel ∨ a.feeLevel = b.feeLevel ∧ a.txID ^^^ hash < b.txID ^^^ hash := by
  rw [orderCandidates]
  split_ifs with heq
  · simp [heq]
  · simp [heq]

lemma orderCandidates_iff_lex : orderCandidates hash a b ↔
      toLex (OrderDual.toDual a.feeLevel, a.txID ^^^ hash) < toLex (OrderDual.toDual b.feeLevel, b.txID ^^^ hash) := by
  rw [orderCandidates_iff, Prod.Lex.toLex_lt_toLex]
  rfl

lemma before_of_find {c' : MaybeTx} (hc : q.find h = some c) (hc' : q.find h' = some c') :
    q.before h h' = orderCandidates q.parentHashComp c c' := by
  rw [before, hc, hc']

lemma before_asymm (hb : q.before h h') : ¬ q.before h' h := by
  rw [before] at hb ⊢
  cases hc : q.find h with
  | none => simp [hc] at hb
  | some c =>
    cases hc' : q.find h' with
    | none => simp
    | some c' =>
      rw [hc, hc'] at hb
      exact fun hb' => lt_asymm (orderCandidates_iff_lex.1 hb) (orderCandidates_iff_lex.1 hb')

private lemma before_trans {h1 h2 h3 : Handle} (hs : (q.find h2).isSome) (h21 : ¬ q.before h2 h1)
    (h32 : ¬ q.before h3 h2) : ¬ q.before h3 h1 := by
  obtain ⟨c2, hc2⟩ := isSome_iff_exists.1 hs
  cases hc1 : q.find h1 with
  | none => simp [before, hc1]
  | some c1 =>
    cases hc3 : q.find h3 with
    | none => simp [before, hc3]
    | some c3 =>
      rw [before_of_find hc2 hc1, orderCandidates_iff_lex, not_lt] at h21
      rw [before_of_find hc3 hc2, orderCandidates_iff_lex, not_lt] at h32
      rw [before_of_find hc3 hc1, orderCandidates_iff_lex, not_lt]
      exact h21.trans h32

structure Indexed (q : TxQ) : Prop where
  nodup : q.byFee.Nodup
  mem : ∀ h, h ∈ q.byFee ↔ (q.find h).isSome
  sorted : q.byFee.Pairwise fun h h' => ¬ q.before h' h
  own : ∀ h c, q.find h = some c → c.account = h.account ∧ c.seqProxy = h.seqProxy

/-- Every candidate of `q'` is one of `q`, with the same constant fields. -/
def Within (q q' : TxQ) : Prop := ∀ h c', q'.find h = some c' → ∃ c, q.find h = some c ∧ c.Same c'

lemma Within.refl (q : TxQ) : Within q q := fun _ c hc => ⟨c, hc, .refl c⟩

namespace Indexed

lemma make (setup : Setup) (hash : Uint256) : Indexed (TxQ.make setup hash) where
  nodup := nodup_nil
  mem h := by simp [TxQ.make, find, OrderedMap.empty, OrderedMap.find]
  sorted := .nil
  own h c hc := by simp [TxQ.make, find, OrderedMap.empty, OrderedMap.find] at hc

variable (hq : Indexed q)

include hq

private lemma thin (hsub : q'.byFee.Sublist q.byFee) (hmem : ∀ h, h ∈ q'.byFee ↔ (q'.find h).isSome)
    (hw : Within q q') (hha : q'.parentHashComp = q.parentHashComp) : Indexed q' where
  nodup := hq.nodup.sublist hsub
  mem := hmem
  sorted := by
    refine (hq.sorted.sublist hsub).imp_of_mem ?_
    intro h h' hh hh' hn
    obtain ⟨c, hc⟩ := isSome_iff_exists.1 ((hmem h).1 hh)
    obtain ⟨c', hc'⟩ := isSome_iff_exists.1 ((hmem h').1 hh')
    obtain ⟨d, hd, hs⟩ := hw h c hc
    obtain ⟨d', hd', hs'⟩ := hw h' c' hc'
    rw [before_of_find hd' hd] at hn
    rwa [before_of_find hc' hc, hha, orderCandidates, hs.feeLevel, hs'.feeLevel, hs.txID, hs'.txID]
  own h c' hc' := by
    obtain ⟨c, hc, hs⟩ := hw h c' hc'
    rw [hs.account, hs.seqProxy]
    exact hq.own h c hc

lemma congr (hf : q'.byFee = q.byFee) (hs : ∀ h, (q'.find h).isSome = (q.find h).isSome)
    (hw : Within q q') (hh : q'.parentHashComp = q.parentHashComp) : Indexed q' := by
  refine hq.thin (hf ▸ List.Sublist.refl _) ?_ hw hh
  intro h
  rw [hf, hq.mem, hs]

lemma find_of_mem (hh : h ∈ q.byFee) : ∃ c, q.find h = some c := isSome_iff_exists.1 ((hq.mem h).1 hh)

lemma mem_of_find (hc : q.find h = some c) : h ∈ q.byFee := (hq.mem h).2 (by rw [hc]; rfl)

private lemma eq_handle (hc : q.find h = some c) : Handle.mk c.account c.seqProxy = h := by
  obtain ⟨ha, hs⟩ := hq.own h c hc
  rw [ha, hs]

end Indexed

lemma accountAt_of_find (hc : q.find h = some c) :
    ∃ acct, q.byAccount.find h.account = some acct ∧ acct.transactions.find h.seqProxy = some c :=
  bind_eq_some_iff.1 hc

private lemma within_updateTx {f : MaybeTx → MaybeTx} (hf : ∀ c, q.find h = some c → c.Same (f c)) :
    Within q (q.updateTx h f) := by
  intro h' c' hc'
  rw [find_updateTx] at hc'
  split_ifs at hc' with heq
  · subst heq
    obtain ⟨c, hc, rfl⟩ := map_eq_some_iff.1 hc'
    exact ⟨c, hc, hf c hc⟩
  · exact ⟨c', hc', .refl c'⟩

lemma Indexed.updateTx (hq : Indexed q) {f : MaybeTx → MaybeTx} (hf : ∀ c, q.find h = some c → c.Same (f c)) :
    Indexed (q.updateTx h f) := by
  refine hq.congr rfl ?_ (within_updateTx hf) rfl
  intro h'
  rw [find_updateTx]
  split_ifs
  · exact isSome_map
  · rfl

lemma Indexed.mark (hq : Indexed q) {a : AccountID}
    (hf : ∀ acct, (f acct).transactions = acct.transactions) : Indexed (q.updateAccount a f) :=
  hq.congr rfl (fun h => by rw [find_mark hf]) (fun h c hc => ⟨c, (find_mark hf h).symm.trans hc, .refl c⟩) rfl

def dropTx (q : TxQ) (h : Handle) : TxQ := { q with byFee := q.byFee.erase h }.removeTx h

lemma find_dropTx (h h' : Handle) : (q.dropTx h).find h' = if h' = h then none else q.find h' := by
  rw [dropTx, find_removeTx]
  rfl

lemma within_dropTx : Within q (q.dropTx h) := by
  intro h' c' hc'
  rw [find_dropTx] at hc'
  split_ifs at hc'
  exact ⟨c', hc', .refl c'⟩

lemma Indexed.dropTx (hq : Indexed q) (h : Handle) : Indexed (q.dropTx h) := by
  refine hq.thin erase_sublist ?_ within_dropTx rfl
  intro h'
  change h' ∈ q.byFee.erase h ↔ _
  rw [hq.nodup.mem_erase_iff, hq.mem, find_dropTx]
  split_ifs with heq
  · simp [heq]
  · simp [heq]

lemma deref_eq (hc : q.find h = some c) : q.deref h = .ok c := by rw [deref, hc]

lemma accountAt_eq {a : AccountID} (ha : q.byAccount.find a = some acct) : q.accountAt a = .ok acct := by
  rw [accountAt, ha]

lemma next_eq (hh : h ∈ q.byFee) : q.next h = .ok (q.byFee.follower h) := if_pos hh

lemma unlink_eq (hh : h ∈ q.byFee) :
    q.unlink h = .ok (q.byFee.follower h, { q with byFee := q.byFee.erase h }) := if_pos hh

lemma Indexed.erase (hq : Indexed q) (hh : h ∈ q.byFee) : q.erase h = .ok (q.byFee.follower h, q.dropTx h) := by
  obtain ⟨c, hc⟩ := hq.find_of_mem hh
  obtain ⟨acct, ha, -⟩ := accountAt_of_find hc
  rw [TxQ.erase, deref_eq hc, ← (hq.own h c hc).1] at *
  change (q.accountAt c.account >>= _) = _
  rw [accountAt_eq ha]
  rw [unlink_eq hh, hq.eq_handle hc]
  rfl

def accountNext (q : TxQ) (h : Handle) : Option Handle :=
  (q.byAccount.find h.account).bind fun a => (a.transactions.next h.seqProxy).map fun e => ⟨h.account, e.1⟩

/-- Whether the next candidate of the account comes before the next one in the order of the fees. -/
def jumps (q : TxQ) (h : Handle) : Bool :=
  (q.accountNext h).any fun n => (q.byFee.follower h).all fun f => q.before n f

private lemma accountNext_of_find (ha : q.byAccount.find h.account = some acct) :
    q.accountNext h = (acct.transactions.next h.seqProxy).map fun e => ⟨h.account, e.1⟩ := by
  rw [accountNext, ha]
  rfl

lemma Indexed.of_accountNext (hq : Indexed q) {n : Handle} (hn : q.accountNext h = some n) :
    n ∈ q.byFee ∧ n.account = h.account ∧ h.seqProxy < n.seqProxy ∧
      ∀ h' ∈ q.byFee, h'.account = h.account → h.seqProxy < h'.seqProxy → n.seqProxy ≤ h'.seqProxy := by
  obtain ⟨acct, ha, hne⟩ := bind_eq_some_iff.1 hn
  obtain ⟨e, he, rfl⟩ := map_eq_some_iff.1 hne
  refine ⟨hq.mem_of_find (c := e.2) ?_, rfl, lt_of_next he, ?_⟩
  · rw [find, ha]
    exact find_eq_some.2 (mem_of_next he)
  intro h' hh' ha' hlt
  obtain ⟨c', hc'⟩ := hq.find_of_mem hh'
  rw [find, ha', ha] at hc'
  exact le_of_next he (find_eq_some.1 hc') hlt

lemma Indexed.of_accountNext_eq_none (hq : Indexed q) (hn : q.accountNext h = none) (hh' : h' ∈ q.byFee)
    (ha' : h'.account = h.account) : ¬ h.seqProxy < h'.seqProxy := by
  obtain ⟨c', hc'⟩ := hq.find_of_mem hh'
  obtain ⟨acct, ha, hf⟩ := accountAt_of_find hc'
  rw [ha'] at ha
  rw [accountNext_of_find ha, map_eq_none_iff] at hn
  simpa using find?_eq_none.1 hn _ (find_eq_some.1 hf)

private lemma Indexed.useAccountNext (hq : Indexed q) (hc : q.find h = some c)
    (ha : q.byAccount.find h.account = some acct) :
    q.useAccountNext c (acct.transactions.next h.seqProxy) (q.byFee.follower h) = .ok (q.jumps h) := by
  rw [jumps, accountNext_of_find ha]
  cases hn : acct.transactions.next h.seqProxy with
  | none => rfl
  | some e =>
    obtain ⟨s, d⟩ := e
    have hlt : c.seqProxy < s := by
      rw [(hq.own h c hc).2]
      exact lt_of_next hn
    have hd : q.find ⟨h.account, s⟩ = some d := by
      rw [find, ha]
      exact find_eq_some.2 (mem_of_next hn)
    cases hf : q.byFee.follower h with
    | none =>
      simp only [TxQ.useAccountNext, hlt]
      rfl
    | some f =>
      obtain ⟨d', hd'⟩ := hq.find_of_mem (mem_of_follower hf)
      simp only [TxQ.useAccountNext, deref_eq hd', hlt]
      change Except.ok (orderCandidates q.parentHashComp d d') = .ok (q.before ⟨h.account, s⟩ f)
      rw [before_of_find hd hd']

/-- Erasing a linked candidate in `accept` gives the next one of the account, or the one behind it. -/
lemma Indexed.eraseAndAdvance (hq : Indexed q) (hh : h ∈ q.byFee) :
    q.eraseAndAdvance h = .ok (if q.jumps h then q.accountNext h else q.byFee.follower h, q.dropTx h) := by
  obtain ⟨c, hc⟩ := hq.find_of_mem hh
  obtain ⟨acct, hac, -⟩ := accountAt_of_find hc
  obtain ⟨ha, hs⟩ := hq.own h c hc
  rw [TxQ.eraseAndAdvance, deref_eq hc]
  change (q.accountAt c.account >>= _) = _
  rw [ha, accountAt_eq hac]
  rw [next_eq hh, hs]
  change (q.useAccountNext c (acct.transactions.next h.seqProxy) (q.byFee.follower h) >>= _) = _
  rw [hq.useAccountNext hc hac]
  rw [unlink_eq hh, accountNext_of_find hac]
  rfl

def insertTx (q : TxQ) (c : MaybeTx) : TxQ :=
  ((q.ensureAccount c.account).addTx c).link ⟨c.account, c.seqProxy⟩

lemma find_insertTx (hc : q.find ⟨c.account, c.seqProxy⟩ = none) (h : Handle) :
    (q.insertTx c).find h = if h = ⟨c.account, c.seqProxy⟩ then some c else q.find h := by
  obtain ⟨a, s⟩ := h
  obtain ⟨acct, ha⟩ := isSome_iff_exists.1 (find_account_ensureAccount (q := q) c.account)
  rw [← find_ensureAccount (a := c.account), find, ha] at hc
  rw [← find_ensureAccount (a := c.account) (q := q)]
  show (((q.ensureAccount c.account).addTx c).find ⟨a, s⟩) = _
  rw [find, addTx, updateAccount, find_modify, find]
  by_cases heq : a = c.account
  · subst heq
    rw [if_pos rfl, ha]
    refine (find_emplace hc s).trans ?_
    by_cases hs : s = c.seqProxy
    · rw [if_pos hs, if_pos (by rw [hs])]
    · rw [if_neg hs, if_neg fun hand => hs (congrArg Handle.seqProxy hand)]
      rfl
  · rw [if_neg heq, if_neg fun hand => heq (congrArg Handle.account hand)]

private lemma mem_link (h h' : Handle) : h' ∈ (q.link h).byFee ↔ h' = h ∨ h' ∈ q.byFee := mem_orderedInsert _

lemma perm_link (h : Handle) : (q.link h).byFee.Perm (h :: q.byFee) := perm_orderedInsert ..

private lemma sorted_link (hl : ∀ h' ∈ q.byFee, (q.find h').isSome)
    (hs : q.byFee.Pairwise fun h h' => ¬ q.before h' h) (h : Handle) :
    (q.link h).byFee.Pairwise fun h h' => ¬ q.before h' h :=
  pairwise_orderedInsert (fun _ _ => before_asymm) (fun h2 hh2 _ _ h21 h32 => before_trans (hl h2 hh2) h21 h32) hs

lemma Indexed.insertTx (hq : Indexed q) (hc : q.find ⟨c.account, c.seqProxy⟩ = none) : Indexed (q.insertTx c) := by
  have hf := find_insertTx hc
  have hn : Handle.mk c.account c.seqProxy ∉ q.byFee := by
    rw [hq.mem, hc]
    simp
  have hold : ∀ h ∈ q.byFee, (q.insertTx c).find h = q.find h := by
    intro h hh
    have hne : h ≠ ⟨c.account, c.seqProxy⟩ := fun heq => hn (heq ▸ hh)
    rw [hf, if_neg hne]
  constructor
  · exact (perm_link _).nodup_iff.2 (nodup_cons.2 ⟨hn, hq.nodup⟩)
  · intro h
    rw [TxQ.insertTx, mem_link, ← TxQ.insertTx, hf]
    split_ifs with heq
    · simp [heq]
    · simp only [heq, false_or]
      exact hq.mem h
  · refine sorted_link (q := (q.ensureAccount c.account).addTx c) ?_ ?_ _
    · intro h hh
      have := (hq.mem h).1 hh
      rwa [← hold h hh] at this
    refine hq.sorted.imp_of_mem ?_
    intro h h' hh hh' hn hb
    refine hn ?_
    rw [before] at hb ⊢
    have h1 := hold h hh
    have h2 := hold h' hh'
    rw [← h1, ← h2]
    exact hb
  · intro h d hd
    rw [hf] at hd
    split_ifs at hd with heq
    · obtain rfl := some.inj hd
      rw [heq]
      exact ⟨rfl, rfl⟩
    · exact hq.own h d hd

lemma mem_handles (h : Handle) : h ∈ q.handles ↔ (q.find h).isSome := by
  obtain ⟨a, s⟩ := h
  rw [handles, mem_flatMap, isSome_iff_exists]
  constructor
  · rintro ⟨⟨a', acct⟩, ha, hs⟩
    obtain ⟨⟨s', c⟩, hc, heq⟩ := mem_map.1 hs
    obtain ⟨rfl, rfl⟩ := Handle.mk.inj heq
    refine ⟨c, ?_⟩
    rw [find, find_eq_some.2 ha]
    exact find_eq_some.2 hc
  · rintro ⟨c, hc⟩
    obtain ⟨acct, ha, hs⟩ := accountAt_of_find hc
    exact ⟨(a, acct), find_eq_some.1 ha, mem_map.2 ⟨(s, c), find_eq_some.1 hs, rfl⟩⟩

private lemma nodup_handles (q : TxQ) : q.handles.Nodup := by
  rw [handles, nodup_flatMap]
  constructor
  · intro e _
    refine pairwise_map.2 (e.2.transactions.sorted.imp ?_)
    intro e1 e2 hlt heq
    exact ne_of_lt hlt (congrArg Handle.seqProxy heq)
  · refine q.byAccount.sorted.imp ?_
    intro e1 e2 hlt h h1 h2
    obtain ⟨_, -, rfl⟩ := mem_map.1 h1
    obtain ⟨_, -, heq⟩ := mem_map.1 h2
    exact ne_of_gt hlt (congrArg Handle.account heq)

lemma foldl_link {l : List Handle} (hl : ∀ h ∈ l, (q.find h).isSome) (hlnk : ∀ h ∈ q.byFee, (q.find h).isSome)
    (hs : q.byFee.Pairwise fun h h' => ¬ q.before h' h) :
    ∃ byFee, l.foldl link q = { q with byFee } ∧ byFee.Perm (l.reverse ++ q.byFee) ∧
      byFee.Pairwise fun h h' => ¬ q.before h' h := by
  induction l generalizing q with
  | nil => exact ⟨q.byFee, rfl, .refl _, hs⟩
  | cons h l ih =>
    rw [forall_mem_cons] at hl
    have hlnk' : ∀ h' ∈ (q.link h).byFee, ((q.link h).find h').isSome := by
      intro h' hh'
      rcases (mem_link h h').1 hh' with rfl | hh'
      · exact hl.1
      · exact hlnk h' hh'
    obtain ⟨byFee, heq, hp, hpa⟩ := ih (q := q.link h) hl.2 hlnk' (sorted_link hlnk hs h)
    refine ⟨byFee, heq, ?_, hpa⟩
    rw [reverse_cons, append_assoc]
    exact hp.trans ((perm_link h).append_left _)

lemma Indexed.rebuild (hq : Indexed q) (parentHash : Uint256) : Indexed (q.rebuild parentHash) := by
  obtain ⟨byFee, heq, hp, hpa⟩ := foldl_link (q := { q with byFee := [], parentHashComp := parentHash })
    (l := q.handles) (fun h hh => (mem_handles h).1 hh) (by simp) .nil
  rw [append_nil] at hp
  rw [TxQ.rebuild, heq]
  constructor
  · exact hp.nodup_iff.2 (nodup_reverse.2 q.nodup_handles)
  · intro h
    rw [hp.mem_iff, mem_reverse, mem_handles]
    rfl
  · exact hpa
  · exact hq.own

lemma find_rebuild (parentHash : Uint256) (h : Handle) : (q.rebuild parentHash).find h = q.find h := by
  obtain ⟨byFee, heq, -, -⟩ := foldl_link (q := { q with byFee := [], parentHashComp := parentHash })
    (l := q.handles) (fun h hh => (mem_handles h).1 hh) (by simp) .nil
  rw [rebuild, heq]
  rfl

end Xrpl.TxQ

import Xrpl.TxQ.Index

/-!
# What `apply` does to the queue

* `Thinned app q q'`: the candidates of `q'` are candidates of `q`, perhaps with another preflight result;
* `Held`: a new candidate that the rules allow, in a queue that is thinned;
* `apply_effect`: after `apply` the queue is thinned, or a transaction is held.  Nothing in `apply` fails.
-/

namespace Xrpl.TxQ

open List Except

open Option hiding any_eq_false

variable {V : Type} {app : App V} {q q' : TxQ} {h h' : Handle}

/-- The candidate `c'` is `c` after it was tried: preflight may have run again. -/
structure MaybeTx.Aged (app : App V) (c c' : MaybeTx) : Prop where
  same : c.Same c'
  tx : c'.pfResult.tx = c.pfResult.tx
  pfResult : c'.pfResult = c.pfResult ∨ ∃ rules, c'.pfResult = app.preflight rules c.pfResult.tx c.flags

namespace MaybeTx.Aged

lemma refl (c : MaybeTx) : c.Aged app c := ⟨.refl c, rfl, .inl rfl⟩

private lemma trans {a b c : MaybeTx} (hab : a.Aged app b) (hbc : b.Aged app c) : a.Aged app c := by
  refine ⟨hab.same.trans hbc.same, hbc.tx.trans hab.tx, ?_⟩
  rcases hbc.pfResult with heq | ⟨rules, heq⟩
  · rw [heq]
    exact hab.pfResult
  · rw [hab.tx, hab.same.flags] at heq
    exact .inr ⟨rules, heq⟩

private lemma triedTx (ter : TER) (c : MaybeTx) : c.Aged app (triedTx ter c) :=
  ⟨⟨rfl, rfl, rfl, rfl, rfl, rfl⟩, rfl, .inl rfl⟩

lemma failedTx (account : TxQAccount) (ter : TER) (c : MaybeTx) : c.Aged app (failedTx account ter c) :=
  ⟨⟨rfl, rfl, rfl, rfl, rfl, rfl⟩, rfl, .inl rfl⟩

end MaybeTx.Aged

lemma preflight_tx (rules : Rules) (tx : STTx) (flags : ApplyFlags) : (app.preflight rules tx flags).tx = tx := by
  rw [App.preflight]
  cases app.verdict rules tx flags <;> rfl

variable {view : V} {tx : STTx} {flags : ApplyFlags} {pfResult : PreflightResult} {sleAccount : AccountRoot}
  {plan : Plan V} {live : List (SeqProxy × MaybeTx)} {range : List SeqProxy}

lemma MaybeTx.aged_apply {view' : V} {c c' : MaybeTx} {result : TER × Bool}
    (h : c.apply app view = (result, view', c')) : c.Aged app c' := by
  obtain rfl : c.refresh app view = c' := congrArg (fun r => r.2.2) h
  rw [refresh]
  split_ifs
  · exact ⟨⟨rfl, rfl, rfl, rfl, rfl, rfl⟩, preflight_tx .., .inr ⟨_, rfl⟩⟩
  · exact .refl c

structure Thinned (app : App V) (q q' : TxQ) : Prop where
  indexed : Indexed q'
  setup : q'.setup = q.setup
  maxSize : q'.maxSize = q.maxSize
  aged : ∀ h c', q'.find h = some c' → ∃ c, q.find h = some c ∧ c.Aged app c'

namespace Thinned

lemma refl (hq : Indexed q) : Thinned app q q := ⟨hq, rfl, rfl, fun _ c hc => ⟨c, hc, .refl c⟩⟩

lemma trans {q1 q2 q3 : TxQ} (h12 : Thinned app q1 q2) (h23 : Thinned app q2 q3) : Thinned app q1 q3 := by
  refine ⟨h23.indexed, h23.setup.trans h12.setup, h23.maxSize.trans h12.maxSize, ?_⟩
  intro h c3 hc3
  obtain ⟨c2, hc2, ha2⟩ := h23.aged h c3 hc3
  obtain ⟨c1, hc1, ha1⟩ := h12.aged h c2 hc2
  exact ⟨c1, hc1, ha1.trans ha2⟩

lemma isSome (ht : Thinned app q q') (hh : (q'.find h).isSome) : (q.find h).isSome := by
  obtain ⟨c', hc'⟩ := isSome_iff_exists.1 hh
  obtain ⟨c, hc, -⟩ := ht.aged h c' hc'
  rw [hc]
  rfl

lemma length_le (ht : Thinned app q q') (hq : Indexed q) : q'.byFee.length ≤ q.byFee.length := by
  refine (subperm_of_subset ht.indexed.nodup ?_).length_le
  intro h hh
  rw [hq.mem]
  exact ht.isSome ((ht.indexed.mem h).1 hh)

lemma dropTx (hq : Indexed q) (h : Handle) : Thinned app q (q.dropTx h) := by
  refine ⟨hq.dropTx h, rfl, rfl, ?_⟩
  intro h' c hc
  rw [find_dropTx] at hc
  split_ifs at hc
  exact ⟨c, hc, .refl c⟩

lemma updateTx (hq : Indexed q) {c : MaybeTx} (ha : ∀ d, q.find h = some d → d.Aged app c) :
    Thinned app q (q.updateTx h fun _ => c) := by
  refine ⟨hq.updateTx fun d hd => (ha d hd).same, rfl, rfl, ?_⟩
  intro h' c' hc'
  rw [find_updateTx] at hc'
  split_ifs at hc' with heq
  · subst heq
    obtain ⟨d, hd, rfl⟩ := map_eq_some_iff.1 hc'
    exact ⟨d, hd, ha d hd⟩
  · exact ⟨c', hc', .refl c'⟩

lemma mark (hq : Indexed q) {a : AccountID} {f : TxQAccount → TxQAccount}
    (hf : ∀ acct, (f acct).transactions = acct.transactions) : Thinned app q (q.updateAccount a f) :=
  ⟨hq.mark hf, rfl, rfl, fun h c hc => ⟨c, (find_mark hf h).symm.trans hc, .refl c⟩⟩

end Thinned

lemma length_dropTx (hh : h ∈ q.byFee) : (q.dropTx h).byFee.length + 1 = q.byFee.length := by
  change (q.byFee.erase h).length + 1 = _
  have := length_pos_of_mem hh
  rw [length_erase_of_mem hh]
  omega

variable {ter : TER} {multiTxn : Option V} {maxSize : ℕ}

lemma of_require {condition : Bool} {u : Unit} (h : require condition ter = .ok u) : condition = true := by
  rw [require] at h
  split_ifs at h with hc
  exact hc

structure Admitted (q : TxQ) (app : App V) (view : V) (tx : STTx) (flags : ApplyFlags) (pfResult : PreflightResult)
    (sleAccount : AccountRoot) (plan : Plan V) : Prop where
  live : plan.live = (q.byAccount.find tx.account).elim [] fun a => a.lowerBound (.sequence sleAccount.sequence)
  replaced : plan.replaced = q.find ⟨tx.account, tx.seqProxy⟩
  feeLevelPaid : plan.feeLevelPaid = getFeeLevelPaid app view tx
  blocks : pfResult.consequences.isBlocker → plan.live.length ≤ 1 ∧ ∀ e ∈ plan.live, e.1 = tx.seqProxy
  blocked : plan.live.length = 1 → ∀ e ∈ plan.live, e.2.consequences.isBlocker → e.1 = tx.seqProxy
  sequence : q.checkSequence app view tx flags pfResult sleAccount plan.live plan.replaced = .ok plan.multiTxn

private lemma admitted_of_checkRules (h : q.checkRules app view tx flags pfResult sleAccount = .ok plan) :
    Admitted q app view tx flags pfResult sleAccount plan := by
  obtain ⟨_, hm, h⟩ := of_bind_eq_ok h
  obtain ⟨_, ho, h⟩ := of_bind_eq_ok h
  obtain ⟨required, -, h⟩ := of_bind_eq_ok h
  obtain ⟨_, hblk, h⟩ := of_bind_eq_ok h
  obtain ⟨-, -, h⟩ := of_bind_eq_ok h
  obtain ⟨multiTxn, hs, h⟩ := of_bind_eq_ok h
  obtain ⟨-, -, h⟩ := of_bind_eq_ok h
  obtain rfl := ok.inj h
  replace hm := of_require hm
  replace ho := of_require ho
  replace hblk := of_require hblk
  simp only [Bool.not_eq_true', Bool.and_eq_false_iff, decide_eq_false_iff_not, any_eq_false, Bool.and_eq_true,
    decide_eq_true_eq, not_and, not_not] at hm ho hblk
  refine ⟨rfl, rfl, rfl, ?_, ?_, hs⟩
  · intro hb
    have hle := (hm.resolve_left (by simp [hb]))
    refine ⟨Nat.le_of_not_lt hle, fun e he => ?_⟩
    have hone := length_pos_of_mem he
    rcases ho with (hn | hlen) | ha
    · rw [hb] at hn
      cases hn
    · exact absurd (Nat.le_antisymm (Nat.le_of_not_lt hle) hone) hlen
    · exact (ha e he).symm
  · intro hlen e he hb
    rcases hblk with hn | ha
    · exact absurd hlen hn
    · exact ha e he hb

private lemma isTesSuccess_iff : isTesSuccess ter = true ↔ ter = tesSUCCESS := decide_eq_true_iff

variable {replaced : Option MaybeTx}

/-- The sequence of an admitted transaction: it has its place among the live candidates of the account, or it replaces
the only one, or there are none. -/
inductive SequenceChecked (q : TxQ) (app : App V) (view : V) (tx : STTx) (flags : ApplyFlags)
    (sleAccount : AccountRoot) (live : List (SeqProxy × MaybeTx)) (replaced : Option MaybeTx) : Option V → Prop
  | multi (txQAcct : TxQAccount) (multiTxn : V) (account : q.byAccount.find tx.account = some txQAcct)
      (le : .sequence sleAccount.sequence ≤ tx.seqProxy)
      (held : q.canBeHeld app tx flags view sleAccount replaced = tesSUCCESS)
      (place : q.checkPlace tx sleAccount txQAcct replaced = .ok ()) :
      SequenceChecked q app view tx flags sleAccount live replaced (some multiTxn)
  | lone (le : .sequence sleAccount.sequence ≤ tx.seqProxy) (replaces : replaced.isSome) :
      SequenceChecked q app view tx flags sleAccount live replaced none
  | first (empty : q.byAccount.find tx.account = none ∨ live = [])
      (eq : tx.seqProxy.isSeq → tx.seqProxy = .sequence sleAccount.sequence) :
      SequenceChecked q app view tx flags sleAccount live replaced none

lemma sequenceChecked_of (h : q.checkSequence app view tx flags pfResult sleAccount live replaced = .ok multiTxn) :
    SequenceChecked q app view tx flags sleAccount live replaced multiTxn := by
  unfold checkSequence at h
  split at h
  case h_1 txQAcct e rest ha =>
    obtain ⟨_, hle, h⟩ := of_bind_eq_ok h
    have hle := of_require hle
    simp only [Bool.not_eq_true', decide_eq_false_iff_not, not_lt] at hle
    split_ifs at h with hm
    · obtain ⟨_, hh, h⟩ := of_bind_eq_ok h
      obtain ⟨_, hplc, h⟩ := of_bind_eq_ok h
      obtain ⟨_, -, h⟩ := of_bind_eq_ok h
      obtain rfl := ok.inj h
      exact .multi txQAcct _ ha hle (isTesSuccess_iff.1 (of_require hh)) hplc
    · obtain rfl := ok.inj h
      exact .lone hle (isSome_iff_ne_none.2 fun hn => (not_or.1 hm).2 (by rw [hn]; rfl))
  case h_2 hn =>
    obtain ⟨_, hp, h⟩ := of_bind_eq_ok h
    obtain ⟨_, hpre, h⟩ := of_bind_eq_ok h
    obtain rfl := ok.inj h
    replace hp := of_require hp
    replace hpre := of_require hpre
    simp only [Bool.not_eq_true', Bool.and_eq_false_iff, decide_eq_false_iff_not, not_lt] at hp hpre
    refine .first ?_ ?_
    · cases ha : q.byAccount.find tx.account with
      | none => exact .inl rfl
      | some acct =>
        refine .inr ?_
        by_contra hne
        obtain ⟨e, rest, hc⟩ := exists_cons_of_ne_nil hne
        exact hn acct e rest ha hc
    · intro hs
      rw [hs] at hp hpre
      exact le_antisymm (hpre.resolve_left (by simp)) (hp.resolve_left (by simp))

private lemma removeFromByFee_eq (hq : Indexed q) {replaced : Option Handle} (hr : ∀ h ∈ replaced, h ∈ q.byFee) :
    q.removeFromByFee replaced = .ok (replaced.elim q q.dropTx) := by
  cases replaced with
  | none => rfl
  | some h =>
    rw [removeFromByFee, hq.erase (hr h rfl)]
    rfl

private lemma tryDirectApply_effect (hq : Indexed q) (view : V) (tx : STTx) (flags : ApplyFlags) :
    Succeeds (q.tryDirectApply app view tx flags) fun r => ∀ reply ∈ r, Thinned app q reply.2.2 := by
  rw [tryDirectApply]
  split
  case h_1 => exact .pure (by simp)
  case h_2 sleAccount _ =>
  split_ifs
  · exact .pure (by simp)
  split
  case h_1 => exact .pure (by simpa using Thinned.refl hq)
  case h_2 requiredFeeLevel _ =>
  split_ifs
  · exact .pure (by simp)
  dsimp only
  rw [removeFromByFee_eq hq fun h hh => ?_]
  · refine .pure ?_
    intro reply hr
    obtain rfl := some.inj hr
    cases q.existingTx tx _ with
    | none => exact .refl hq
    | some h => exact .dropTx hq h
  · rw [existingTx] at hh
    split_ifs at hh with hc
    · obtain rfl := some.inj hh
      exact (hq.mem _).2 (Bool.and_eq_true_iff.1 hc).2
    · cases hh

private lemma clearLoop_effect (account : AccountID) (view : V) (hq : Indexed q)
    (hrng : ∀ s ∈ range, (q.find ⟨account, s⟩).isSome) :
    Succeeds (clearLoop app account range view q) fun r =>
      Thinned app q r.2.2 ∧ ∀ h, (r.2.2.find h).isSome = (q.find h).isSome := by
  induction range generalizing q view with
  | nil => exact .pure ⟨.refl hq, fun _ => rfl⟩
  | cons s range ih =>
    rw [forall_mem_cons] at hrng
    obtain ⟨c, hc⟩ := isSome_iff_exists.1 hrng.1
    rw [clearLoop, deref_eq hc]
    refine .ok_bind ?_
    obtain ⟨⟨⟨ter, applied⟩, view', c'⟩, hr⟩ : ∃ r, c.apply app view = r := ⟨_, rfl⟩
    simp only [hr]
    have ht : Thinned app q (q.updateTx ⟨account, s⟩ fun _ => triedTx ter c') := by
      refine .updateTx hq ?_
      intro d hd
      obtain rfl := some.inj (hc.symm.trans hd)
      exact (MaybeTx.aged_apply hr).trans (.triedTx ter c')
    have hso (h : Handle) : ((q.updateTx ⟨account, s⟩ fun _ => triedTx ter c').find h).isSome = (q.find h).isSome := by
      rw [find_updateTx]
      split_ifs
      · exact isSome_map
      · rfl
    split_ifs
    · refine (ih view' ht.indexed fun s hs => by rw [hso]; exact hrng.2 s hs).mono ?_
      rintro r ⟨hth, hk⟩
      exact ⟨ht.trans hth, fun h => (hk h).trans (hso h)⟩
    · exact .pure ⟨ht, hso⟩

private lemma eraseRange_effect (app : App V) (account : AccountID) (hq : Indexed q) (hn : range.Nodup)
    (hr : ∀ s ∈ range, (q.find ⟨account, s⟩).isSome) : Succeeds (eraseRange account range q) (Thinned app q) := by
  induction range generalizing q with
  | nil => exact .pure (.refl hq)
  | cons s range ih =>
    rw [forall_mem_cons] at hr
    rw [nodup_cons] at hn
    rw [eraseRange, unlink_eq ((hq.mem _).2 hr.1)]
    refine (ih (hq.dropTx ⟨account, s⟩) hn.2 ?_).mono fun q' hq' => (Thinned.dropTx hq _).trans hq'
    intro s' hs'
    rw [find_dropTx, if_neg]
    · exact hr.2 s' hs'
    · intro heq
      have hs : s' = s := congrArg Handle.seqProxy heq
      exact hn.1 (hs ▸ hs')

def Reply.applied : Reply → Bool
  | result _ applied => applied
  | thrown _ => false

/-- The queue is thinned, and all candidates stay if the transaction is not applied. -/
def ClearEffect (app : App V) (q : TxQ) (r : Reply × V × TxQ) : Prop :=
  Thinned app q r.2.2 ∧ (r.1.applied = false → ∀ h, (r.2.2.find h).isSome = (q.find h).isSome)

section

variable (hq : Indexed q)

include hq

private lemma ClearEffect.refl (reply : Reply) (view : V) :
    ClearEffect app q (reply, view, q) := ⟨.refl hq, fun _ _ => rfl⟩

private lemma clearUpThruTx_effect (view : V) (tx : STTx)
    (pfResult : PreflightResult) (hn : range.Nodup) (hr : ∀ s ∈ range, (q.find ⟨tx.account, s⟩).isSome) :
    Succeeds (q.clearUpThruTx app view tx range pfResult) (ClearEffect app q) := by
  refine (clearLoop_effect tx.account view hq hr).bind ?_
  rintro ⟨failed, view', q1⟩ ⟨ht, hk⟩
  cases failed with
  | some ter => exact .pure ⟨ht, fun _ => hk⟩
  | none =>
    dsimp only
    split_ifs with ha
    · -- everything was applied: the range goes, and the candidate that is replaced
      have hr' : ∀ s ∈ range, (q1.find ⟨tx.account, s⟩).isSome := fun s hs => by rw [hk]; exact hr s hs
      refine (eraseRange_effect app tx.account ht.indexed hn hr').bind ?_
      intro q2 hq2
      refine (eraseRange_effect app tx.account hq2.indexed ?_ ?_).bind ?_
      · split_ifs <;> simp
      · intro s hs
        split_ifs at hs with hso
        · rw [mem_singleton.1 hs]
          exact hso
        · cases hs
      · intro q3 hq3
        refine .pure ⟨ht.trans (hq2.trans hq3), fun hnot => ?_⟩
        rw [ha] at hnot
        cases hnot
    · exact .pure ⟨ht, fun _ => hk⟩

private lemma clearIfPaid_effect (view : V) (tx : STTx) (paid : ℕ)
    (pfResult : PreflightResult) (hn : range.Nodup) (hr : ∀ s ∈ range, (q.find ⟨tx.account, s⟩).isSome)
    (required : Except Thrown (Option ℕ)) :
    Succeeds (q.clearIfPaid app view tx range paid pfResult required) (ClearEffect app q) := by
  rcases required with what | required
  · exact .pure (.refl hq _ _)
  cases required with
  | none => exact .pure (.refl hq _ _)
  | some required =>
    rw [clearIfPaid]
    split_ifs
    · exact .pure (.refl hq _ _)
    · exact clearUpThruTx_effect hq view tx pfResult hn hr

/-! ### Holding a transaction -/

private lemma lastOther_effect (account : AccountID) {l : List Handle} (hl : ∀ h ∈ l, h ∈ q.byFee) :
    Succeeds (q.lastOther account l) fun r => ∀ h ∈ r, h ∈ q.byFee ∧ h.account ≠ account := by
  induction l with
  | nil => exact .pure (by simp)
  | cons h l ih =>
    rw [forall_mem_cons] at hl
    obtain ⟨c, hc⟩ := hq.find_of_mem hl.1
    rw [lastOther, deref_eq hc]
    change Succeeds (if c.account = account then q.lastOther account l else pure (some h)) _
    split_ifs with heq
    · exact ih hl.2
    refine .pure ?_
    intro h' hh'
    obtain rfl := some.inj hh'
    rw [(hq.own h c hc).1] at heq
    exact ⟨hl.1, heq⟩

private lemma makeRoom_effect (account : AccountID) (feeLevelPaid : ℕ) :
    Succeeds (q.makeRoom account feeLevelPaid) fun r => ∀ q', r = .ok q' →
      ∃ h ∈ q.byFee, h.account ≠ account ∧ q' = q.dropTx h := by
  refine (lastOther_effect hq account fun h hh => mem_reverse.1 hh).bind ?_
  intro r hr
  cases r with
  | none => exact .pure (by simp)
  | some lastR =>
    obtain ⟨hmem, hne⟩ := hr lastR rfl
    obtain ⟨c, hc⟩ := hq.find_of_mem hmem
    obtain ⟨acct, ha, hs⟩ := accountAt_of_find hc
    dsimp only
    rw [deref_eq hc]
    change Succeeds (q.accountAt c.account >>= _) _
    rw [(hq.own lastR c hc).1, accountAt_eq ha]
    change Succeeds (if endEffectiveFeeLevel c acct feeLevelPaid < feeLevelPaid then _ else _) _
    split_ifs
    · cases hl : acct.transactions.entries.getLast? with
      | none =>
        rw [getLast?_eq_none_iff] at hl
        have := OrderedMap.find_eq_some.1 hs
        rw [hl] at this
        cases this
      | some drop =>
        have hd : q.find ⟨lastR.account, drop.1⟩ = some drop.2 := by
          rw [find, ha]
          exact OrderedMap.find_eq_some.2 (mem_of_getLast? hl)
        have hmem := hq.mem_of_find hd
        dsimp only
        rw [hq.erase hmem]
        refine .pure ?_
        intro q' hq'
        exact ⟨_, hmem, hne, (ok.inj hq').symm⟩
    · exact .pure (by simp)

end

def newTx (app : App V) (view : V) (tx : STTx) (flags : ApplyFlags) : MaybeTx :=
  .make tx (getFeeLevelPaid app view tx) (flags &&& ~~~TapRetry) (app.preflight (app.rules view) tx flags)

private lemma hold_eq (app : App V) (hq : Indexed q) (flags : ApplyFlags) (pfResult : PreflightResult)
    (feeLevelPaid : ℕ) (hr : replaced.isSome = (q.find ⟨tx.account, tx.seqProxy⟩).isSome) :
    ∃ m, Thinned app q m ∧ m.find ⟨tx.account, tx.seqProxy⟩ = none ∧
      m.byFee.length + (if replaced.isSome then 1 else 0) = q.byFee.length ∧
      (∀ h, h.account = tx.account → h.seqProxy ≠ tx.seqProxy → m.find h = q.find h) ∧
      q.hold tx flags pfResult feeLevelPaid replaced =
        .ok (m.insertTx (.make tx feeLevelPaid (flags &&& ~~~TapRetry) pfResult)) := by
  cases replaced with
  | none =>
    refine ⟨q, .refl hq, ?_, rfl, fun _ _ _ => rfl, rfl⟩
    simpa using hr.symm
  | some c =>
    have hmem : Handle.mk tx.account tx.seqProxy ∈ q.byFee := (hq.mem _).2 hr.symm
    refine ⟨q.dropTx ⟨tx.account, tx.seqProxy⟩, .dropTx hq _, ?_, length_dropTx hmem, ?_, ?_⟩
    · rw [find_dropTx, if_pos rfl]
    · intro h _ hne
      rw [find_dropTx, if_neg fun heq => hne (congrArg Handle.seqProxy heq)]
    · rw [hold, removeFromByFee_eq hq (by simpa using hmem)]
      rfl

/-- A transaction is held: the rules allow it, and it is new in a queue with fewer candidates. -/
structure Held (app : App V) (view : V) (tx : STTx) (flags : ApplyFlags) (q : TxQ) (sleAccount : AccountRoot)
    (plan : Plan V) (m q' : TxQ) : Prop where
  read : app.read view tx.account = some sleAccount
  admitted : Admitted q app view tx flags (app.preflight (app.rules view) tx flags) sleAccount plan
  canBeHeld : q.canBeHeld app tx flags view sleAccount plan.replaced = tesSUCCESS
  thinned : Thinned app q m
  absent : m.find ⟨tx.account, tx.seqProxy⟩ = none
  new : q' = m.insertTx (newTx app view tx flags)
  size : ∀ maxSize, q.maxSize = some maxSize → q'.byFee.length ≤ max q.byFee.length maxSize

def ApplyEffect (app : App V) (view : V) (tx : STTx) (flags : ApplyFlags) (q : TxQ) (r : Reply × V × TxQ) : Prop :=
  Thinned app q r.2.2 ∨ ∃ sleAccount plan m, Held app view tx flags q sleAccount plan m r.2.2

private lemma length_insertTx (c : MaybeTx) :
    (q.insertTx c).byFee.length = q.byFee.length + 1 := (perm_link _).length_eq

private lemma roomFor_effect (app : App V) (hq : Indexed q) (account : AccountID) (plan : Plan V) :
    Succeeds (q.roomFor account plan) fun r => ∀ m, r = .ok m → Thinned app q m ∧
      (∀ h, h.account = account → m.find h = q.find h) ∧
      (plan.replaced = none → ∀ maxSize, q.maxSize = some maxSize → m.byFee.length < max q.byFee.length maxSize) := by
  rw [roomFor]
  split_ifs with hf
  · refine (makeRoom_effect hq account plan.feeLevelPaid).mono ?_
    intro r hr m hm
    obtain ⟨h, hh, hne, rfl⟩ := hr m hm
    refine ⟨.dropTx hq h, ?_, ?_⟩
    · intro h' hh'
      rw [find_dropTx, if_neg fun heq => hne (by rw [← heq]; exact hh')]
    · intro _ maxSize _
      have := length_dropTx hh
      omega
  · refine .pure ?_
    intro m hm
    obtain rfl := ok.inj hm
    refine ⟨.refl hq, fun _ _ => rfl, ?_⟩
    intro hn maxSize hmax
    have hfull : q.isFull 100 = false := by simpa [hn] using hf
    rw [isFull, hmax, any_some, decide_eq_false_iff_not] at hfull
    have hle : uint64 (maxSize * 100) ≤ maxSize * 100 := Nat.mod_le ..
    omega

private lemma enqueue_effect (hre : app.read view tx.account = some sleAccount)
    (hrul : Admitted q app view tx flags (app.preflight (app.rules view) tx flags) sleAccount plan)
    (hq : Indexed q) {q1 : TxQ} (ht : Thinned app q q1) (hk : ∀ h, (q1.find h).isSome = (q.find h).isSome)
    (hs : plan.multiTxn = none → q1 = q) :
    Succeeds (q1.enqueue app view tx flags (app.preflight (app.rules view) tx flags) sleAccount plan)
      (ApplyEffect app view tx flags q) := by
  unfold enqueue
  dsimp only
  generalize hd : (if plan.multiTxn.isSome = true then tesSUCCESS
    else q1.canBeHeld app tx flags view sleAccount plan.replaced) = held
  split_ifs with hh
  · exact .pure (.inl ht)
  have hc : q.canBeHeld app tx flags view sleAccount plan.replaced = tesSUCCESS := by
    cases hmul : plan.multiTxn with
    | none =>
      rw [hmul, hs hmul] at hd
      rw [← isTesSuccess_iff, show q.canBeHeld app tx flags view sleAccount plan.replaced = held from hd]
      simpa using hh
    | some v =>
      have hchk := sequenceChecked_of hrul.sequence
      rw [hmul] at hchk
      cases hchk
      assumption
  refine (roomFor_effect app ht.indexed tx.account plan).bind ?_
  intro room hro
  cases room with
  | error ter => exact .pure (.inl ht)
  | ok q2 =>
    obtain ⟨ht2, hf2, hsi2⟩ := hro q2 rfl
    have hr : plan.replaced.isSome = (q2.find ⟨tx.account, tx.seqProxy⟩).isSome := by
      rw [hrul.replaced, hf2 _ rfl, hk]
    obtain ⟨m, hm, ha, hlen, -, hho⟩ := hold_eq app ht2.indexed flags
      (app.preflight (app.rules view) tx flags) plan.feeLevelPaid hr
    dsimp only
    rw [hho]
    refine .pure (.inr ⟨sleAccount, plan, m, hre, hrul, hc, ht.trans (ht2.trans hm), ha, ?_, ?_⟩)
    · rw [hrul.feeLevelPaid]
      rfl
    intro maxSize hmax
    rw [length_insertTx]
    have h1 := ht.length_le hq
    have h2 := ht2.length_le ht.indexed
    cases hrep : plan.replaced with
    | none =>
      have := hsi2 hrep maxSize (ht.maxSize.trans hmax)
      omega
    | some c =>
      simp only [hrep, isSome_some, if_true] at hlen
      omega

private lemma queueTx_effect (hr : app.read view tx.account = some sleAccount)
    (hrul : Admitted q app view tx flags (app.preflight (app.rules view) tx flags) sleAccount plan)
    (hq : Indexed q) :
    Succeeds (q.queueTx app view tx flags (app.preflight (app.rules view) tx flags) sleAccount plan)
      (ApplyEffect app view tx flags q) := by
  have hl : (plan.live.map Prod.fst).Nodup ∧ ∀ e ∈ plan.live, (q.find ⟨tx.account, e.1⟩).isSome := by
    rw [hrul.live]
    cases ha : q.byAccount.find tx.account with
    | none => exact ⟨nodup_nil, by simp⟩
    | some acct =>
      refine ⟨pairwise_map.2 ((acct.transactions.sorted.filter _).imp ne_of_lt), fun e he => ?_⟩
      rw [find, ha]
      exact isSome_iff_exists.2 ⟨e.2, OrderedMap.find_eq_some.2 (mem_of_mem_filter he)⟩
  rw [queueTx]
  split_ifs with hc
  · refine Succeeds.bind (P := ClearEffect app q) (clearIfPaid_effect hq _ tx _ _ ?_ (fun s hs => ?_) _) ?_
    · exact hl.1.sublist (filter_sublist.map Prod.fst)
    · obtain ⟨e, he, rfl⟩ := mem_map.1 hs
      exact hl.2 e (mem_of_mem_filter he)
    rintro ⟨reply, view', q1⟩ ⟨ht, hk⟩
    cases reply with
    | thrown what => exact .pure (.inl ht)
    | result ter applied =>
      cases applied with
      | true => exact .pure (.inl ht)
      | false =>
        refine enqueue_effect hr hrul hq ht (hk rfl) ?_
        intro hn
        simp [mayClear, hn] at hc
  · exact enqueue_effect hr hrul hq (.refl hq) (fun _ => rfl) fun _ => rfl

/-- `apply` does not fail, and it thins the queue or holds the transaction. -/
lemma apply_effect (hq : Indexed q) (view : V) (tx : STTx) (flags : ApplyFlags) :
    Succeeds (q.apply app view tx flags) (ApplyEffect app view tx flags q) := by
  unfold TxQ.apply
  dsimp only
  split_ifs
  · exact .pure (.inl (.refl hq))
  refine (tryDirectApply_effect hq view tx flags).bind ?_
  intro r hr
  cases r with
  | some reply => exact .pure (.inl (hr reply rfl))
  | none =>
    show Succeeds (q.applyQueued app view tx flags (app.preflight (app.rules view) tx flags)) _
    unfold applyQueued
    split
    · exact .pure (.inl (.refl hq))
    split
    case h_1 => exact .pure (.inl (.refl hq))
    case h_2 sleAccount hre =>
    split
    · exact .pure (.inl (.refl hq))
    split
    case h_1 => exact .pure (.inl (.refl hq))
    case h_2 plan hrul => exact queueTx_effect hre (admitted_of_checkRules hrul) hq

end Xrpl.TxQ

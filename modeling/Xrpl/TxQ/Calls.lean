import Xrpl.TxQ.Rounds

/-!
# The calls of the queue

`CallEffect` says what a call does to the candidates: they become fewer, or `apply` holds one more.

* `expireLoop_effect`, `accept_effect`, `step_effect`: no call fails;
* `run_indexed`: after every sequence of calls `byFee` links exactly the candidates of the accounts, in order;
* `run_submitted`: every candidate is a transaction that was submitted.
-/

namespace Xrpl.TxQ

open List

variable {V : Type} {app : App V} {q q' : TxQ}

private lemma expireLoop_effect (app : App V) (ledgerSeq : UInt32) {fuel : ℕ} {l1 l2 : List Handle} (hq : Indexed q)
    (hl : q.byFee = l1 ++ l2) (hf : l2.length ≤ fuel) :
    Succeeds (expireLoop ledgerSeq fuel l2.head? q) (Thinned app q) := by
  induction l2 generalizing q l1 fuel with
  | nil =>
    cases fuel <;> exact .pure (.refl hq)
  | cons h l2 ih =>
    obtain ⟨fuel, rfl⟩ := Nat.exists_eq_add_one.2 (lt_of_lt_of_le (Nat.succ_pos _) hf)
    have hh : h ∈ q.byFee := by rw [hl]; exact mem_append_right _ mem_cons_self
    have hl1 : h ∉ l1 := (hl ▸ hq.nodup).apart.1
    have hf' : l2.length ≤ fuel := Nat.le_of_succ_le_succ hf
    obtain ⟨c, hc⟩ := hq.find_of_mem hh
    obtain ⟨acct, ha, -⟩ := accountAt_of_find hc
    rw [head?_cons, expireLoop, deref_eq hc]
    refine .ok_bind ?_
    split
    case isTrue =>
      rw [(hq.own h c hc).1, accountAt_eq ha]
      refine .ok_bind ?_
      -- the mark leaves the links as they are, and the iterator stands behind the erased candidate
      have hm : Thinned app q (q.updateAccount h.account fun a => { a with dropPenalty := true }) :=
        .mark hq fun _ => rfl
      have he : (q.byFee.follower h, q.byFee.erase h) = (l2.head?, l1 ++ l2) := by
        rw [hl, follower_append hl1, erase_append_cons hl1]
      dsimp only
      rw [hm.indexed.erase hh]
      refine .ok_bind ?_
      rw [show TxQ.byFee (q.updateAccount _ _) = q.byFee from rfl, (Prod.mk.inj he).1]
      exact (ih (hm.indexed.dropTx h) (Prod.mk.inj he).2 hf').mono fun _ =>
        (hm.trans (.dropTx hm.indexed h)).trans
    case isFalse =>
      rw [next_eq hh, hl, follower_append hl1]
      exact .ok_bind (ih hq (hl.trans (append_cons ..)) hf')

/-- The candidates of `q'` are candidates of `q`, and the links are right. -/
structure Fewer (app : App V) (q q' : TxQ) : Prop where
  indexed : Indexed q'
  setup : q'.setup = q.setup
  aged : ∀ h c', q'.find h = some c' → ∃ c, q.find h = some c ∧ c.Aged app c'

private lemma Thinned.fewer (ht : Thinned app q q') : Fewer app q q' := { ht with }

private lemma find_filter_accounts (q : TxQ) (h : Handle) :
    TxQ.find { q with byAccount := q.byAccount.filter fun _ a => a.getTxnCount ≠ 0 } h = q.find h := by
  rw [find, find, OrderedMap.find_filter]
  cases ha : q.byAccount.find h.account with
  | none => rfl
  | some acct =>
    rw [Option.filter_some]
    split_ifs with hc
    · rfl
    · have he : acct.transactions.entries = [] := by
        simpa [TxQAccount.getTxnCount, OrderedMap.size] using hc
      simp [OrderedMap.find, he]

private lemma processClosedLedger_effect (hq : Indexed q) (view : V) (timeLeap : Bool) :
    Succeeds (q.processClosedLedger app view timeLeap) (Fewer app q) := by
  have hq' : ∀ feeMetrics maxSize, Indexed { q with feeMetrics, maxSize } := fun _ _ =>
    hq.congr rfl (fun _ => rfl) (.refl q) rfl
  have hl : ∀ feeMetrics maxSize, Succeeds
      (expireLoop (app.seq view) q.byFee.length q.byFee.head? { q with feeMetrics, maxSize })
      (Thinned app { q with feeMetrics, maxSize }) := fun feeMetrics maxSize =>
    expireLoop_effect app _ (hq' feeMetrics maxSize) (nil_append q.byFee).symm le_rfl
  refine (hl _ _).bind ?_
  intro q1 hq1
  refine .pure ⟨hq1.indexed.congr rfl (fun h => by rw [find_filter_accounts]) ?_ rfl, hq1.setup, ?_⟩
  · intro h c hc
    rw [find_filter_accounts] at hc
    exact ⟨c, hc, .refl c⟩
  · intro h c hc
    rw [find_filter_accounts] at hc
    exact hq1.aged h c hc

private lemma Thinned.rebuild (hq : Indexed q) (parentHash : Uint256) : Thinned app q (q.rebuild parentHash) := by
  obtain ⟨byFee, heq, -, -⟩ := foldl_link (q := { q with byFee := [], parentHashComp := parentHash })
    (l := q.handles) (fun h hh => (mem_handles h).1 hh) (by simp) .nil
  refine ⟨hq.rebuild parentHash, ?_, ?_, ?_⟩
  · rw [TxQ.rebuild, heq]
  · rw [TxQ.rebuild, heq]
  · intro h c hc
    rw [find_rebuild] at hc
    exact ⟨c, hc, .refl c⟩

lemma RoundEffect.thinned {snapshot : Snapshot} {s s' : AcceptState V} (hs : Ready s)
    (hr : RoundEffect app snapshot s (.next s')) : Thinned app s.queue s'.queue := by
  cases hr with
  | skipped => exact .refl hs.indexed
  | tried h c attempt q1 q' view next ledgerChanged retouched after =>
    exact retouched.thinned.trans (after.thinned app retouched.thinned.indexed)

private lemma accept_effect (app : App V) (hq : Indexed q) (view : V) :
    Succeeds (q.accept app view) fun r => Thinned app q r.2.2 := by
  refine (acceptLoop_effect (I := fun s => Ready s ∧ Thinned app q s.queue) (fun s hs => hs.1) ?_
    ⟨⟨hq, fun _ hh => List.mem_of_mem_head? hh⟩, .refl hq⟩ (rank_acceptStart q view)).bind ?_
  · intro s s' hs _ hr
    exact ⟨(hr.ready hs.1).1, hs.2.trans (hr.thinned hs.1)⟩
  rintro ⟨s, what⟩ ⟨⟨-, hs⟩, -⟩
  cases what with
  | none => exact .pure (hs.trans (.rebuild hs.indexed _))
  | some what => exact .pure hs

inductive CallEffect (q : TxQ) : Call V → TxQ → Prop
  | fewer {call : Call V} {q' : TxQ} (fewer : Fewer call.app q q') : CallEffect q call q'
  | held {app : App V} {view : V} {tx : STTx} {flags : ApplyFlags} {sleAccount : AccountRoot} {plan : Plan V}
      {m q' : TxQ} (held : Held app view tx flags q sleAccount plan m q') : CallEffect q (.apply app view tx flags) q'

lemma step_effect (hq : Indexed q) (call : Call V) : Succeeds (q.step call) (CallEffect q call) := by
  cases call with
  | apply app view tx flags =>
    refine (apply_effect hq view tx flags).map ?_
    rintro r (ht | ⟨sleAccount, plan, m, hh⟩)
    · exact .fewer ht.fewer
    · exact .held hh
  | accept app view => exact (accept_effect app hq view).map fun r hr => .fewer hr.fewer
  | processClosedLedger app view timeLeap =>
    exact (processClosedLedger_effect hq view timeLeap).mono fun q' hq' => .fewer hq'

private lemma Held.indexed {view : V} {tx : STTx} {flags : ApplyFlags} {sleAccount : AccountRoot} {plan : Plan V}
    {m : TxQ}
    (hh : Held app view tx flags q sleAccount plan m q') : Indexed q' := by
  rw [hh.new]
  exact hh.thinned.indexed.insertTx hh.absent

lemma CallEffect.indexed {call : Call V} (he : CallEffect q call q') : Indexed q' := by
  cases he with
  | fewer hf => exact hf.indexed
  | held hh => exact hh.indexed

/-- After every sequence of calls, whatever the transactions and the ledgers do, the links of `byFee` are exactly the
candidates of the accounts, each once, in their order; no call uses an iterator of an erased candidate, or fails
otherwise; and `apply` leaves no more candidates than before, or than fit. -/
theorem run_indexed (setup : Setup) (hash : Uint256) (calls : List (Call V)) :
    Succeeds (calls.foldlM step (make setup hash)) fun q =>
      Indexed q ∧ ∀ (app : App V) view tx flags, Succeeds (q.apply app view tx flags) fun r =>
        ∀ maxSize, q.maxSize = some maxSize → r.2.2.byFee.length ≤ max q.byFee.length maxSize := by
  refine (Succeeds.foldlM_rest (I := fun _ => Indexed)
    (fun call _ _ hq => (step_effect hq call).mono fun _ he => he.indexed) (.make setup hash)).mono ?_
  intro q hq
  refine ⟨hq, fun app view tx flags => (apply_effect hq view tx flags).mono ?_⟩
  rintro r (ht | ⟨sleAccount, plan, m, hh⟩) maxSize hmax
  · exact (ht.length_le hq).trans (le_max_left ..)
  · exact hh.size maxSize hmax

/-- A candidate is a transaction that was given to `apply`, in its place and with the fee level that it paid. -/
def Submitted (calls : List (Call V)) (h : Handle) (c : MaybeTx) : Prop :=
  ∃ app view flags, .apply app view c.pfResult.tx flags ∈ calls ∧
    h = ⟨c.pfResult.tx.account, c.pfResult.tx.seqProxy⟩ ∧ c.feeLevel = getFeeLevelPaid app view c.pfResult.tx

private lemma Submitted.of_aged {calls : List (Call V)} {h : Handle} {c c' : MaybeTx} (hs : Submitted calls h c)
    (ha : c.Aged app c') : Submitted calls h c' := by
  unfold Submitted
  rw [ha.tx, ha.same.feeLevel]
  exact hs

/-- After any calls every candidate is a submitted transaction. -/
theorem run_submitted (setup : Setup) (hash : Uint256) (calls : List (Call V)) :
    Succeeds (calls.foldlM step (make setup hash)) fun q => ∀ h c, q.find h = some c → Submitted calls h c := by
  refine (Succeeds.foldlM_rest (I := fun rest q => (Indexed q ∧ rest ⊆ calls) ∧ ∀ h c, q.find h = some c →
    Submitted calls h c) ?_ ⟨⟨.make setup hash, Subset.refl _⟩, fun h c hc => by cases hc⟩).mono fun _ h => h.2
  rintro call rest q ⟨⟨hq, hsub⟩, hall⟩
  refine (step_effect hq call).mono fun q' he => ⟨⟨he.indexed, fun _ hc => hsub (.tail _ hc)⟩, fun h c' hc' => ?_⟩
  cases he with
  | fewer hf =>
    obtain ⟨c, hc, ha⟩ := hf.aged h c' hc'
    exact (hall h c hc).of_aged ha
  | @held app view tx flags _ _ _ _ hh =>
    rw [hh.new, find_insertTx hh.absent] at hc'
    split at hc'
    · obtain rfl := Option.some.inj hc'
      have htx : (newTx app view tx flags).pfResult.tx = tx := preflight_tx _ tx flags
      refine ⟨app, view, flags, ?_⟩
      rw [htx]
      exact ⟨hsub (.head _), ‹_›, rfl⟩
    · obtain ⟨c, hc, ha⟩ := hh.thinned.aged h c' hc'
      exact (hall h c hc).of_aged ha

end Xrpl.TxQ

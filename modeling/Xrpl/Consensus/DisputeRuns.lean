import Xrpl.Consensus.Disputes

/-!
# Disputes throughout a run

Every event keeps the disputes in agreement with the positions of the peers and with our own position.

* `Inv`: the invariant of the class;
* `run_disputes`: what it says about the disputes, after any events.
-/

namespace Xrpl.Consensus

open TxType TxSetType Option AList HashMap Peers

variable {NodeID LedgerID TxSet Tx TxID SetID : Type} [TxType Tx TxID] [TxSetType TxSet Tx TxID SetID]

variable [DecidableEq NodeID] [DecidableEq SetID] [DecidableEq TxID]

structure Inv (c : Consensus NodeID LedgerID TxSet) : Prop where
  keyed : Keyed c.peers
  sound : ∀ r, c.result_ = some r → Sound c.peers r
  establish : c.phase_ = .establish → c.result_.isSome

variable {a : ConsensusAdaptor NodeID LedgerID TxSet} {c : Consensus NodeID LedgerID TxSet}

def initial (prevLedgerID : LedgerID) (previousLedger : ConsensusLedger LedgerID) : Consensus NodeID LedgerID TxSet :=
  { prevLedgerID_ := prevLedgerID, previousLedger_ := previousLedger }

/-! ### Proposals and transaction sets -/

variable {v : Peers NodeID LedgerID TxSet} {r : ConsensusResult NodeID LedgerID TxSet}
  {c' : Consensus NodeID LedgerID TxSet} {set : TxSet} {now : Int} {fuel : Nat}
  {r' : ConsensusResult NodeID LedgerID TxSet} {p : ConsensusProposal NodeID LedgerID SetID}
  {prevLedgerID : LedgerID} {prevLedger : ConsensusLedger LedgerID}
  {s : HashMap TxID (DisputedTx Tx NodeID) × Option TxSet}

private lemma Sound.of_eq (h : Sound v r)
    (ht : r'.txns = r.txns) (hdis : r'.disputes = r.disputes) (hc : r'.compares = r.compares) :
    Sound v r' := by
  refine ⟨⟨fun x d hd => ?_, fun id hid => ?_, fun id set hid hs x hx => ?_⟩, fun n p hp hmem => ?_⟩
  · rw [ht]
    exact h.core.right x d (hdis ▸ hd)
  · exact h.core.acquired id (hc ▸ hid)
  · rw [hdis]
    exact h.core.covered id set (hc ▸ hid) hs x (ht ▸ hx)
  · rw [hc]
    exact h.compared n p hp hmem

private lemma Inv.setStance (hk : Keyed c.peers) {s : ConsensusResult NodeID LedgerID TxSet × Nat}
    (h : Sound c.peers s.1) :
    Inv (c.setStance s) := by
  refine ⟨hk, fun r hr => ?_, fun _ => rfl⟩
  obtain rfl : s.1 = r := some.inj hr
  exact h

private lemma Inv.of_result (h : Inv c) (hps : c'.peers = c.peers)
    {f : ConsensusResult NodeID LedgerID TxSet → ConsensusResult NodeID LedgerID TxSet}
    (hres : c'.result_ = c.result_.map f)
    (hf : ∀ r, (f r).txns = r.txns ∧ (f r).disputes = r.disputes ∧ (f r).compares = r.compares)
    (hph : c'.phase_ = .establish → c.phase_ = .establish) : Inv c' := by
  refine ⟨hps ▸ h.keyed, fun r' hr' => ?_, fun he => ?_⟩
  · obtain ⟨r, hr, rfl⟩ := map_eq_some_iff.1 (hres.symm.trans hr')
    rw [hps]
    exact (h.sound r hr).of_eq (hf r).1 (hf r).2.1 (hf r).2.2
  · rw [hres, isSome_map]
    exact h.establish (hph he)

private lemma Inv.same (h : Inv c) (hps : c'.peers = c.peers)
    (hr : c'.result_ = c.result_) (hph : c'.phase_ = .establish → c.phase_ = .establish) : Inv c' :=
  h.of_result (f := id) hps (by simpa using hr) (fun _ => ⟨rfl, rfl, rfl⟩) hph

private lemma Inv.ask (h : Inv c) : Inv c.ask := h.same rfl rfl id

private lemma Core.acquire (h : Core c.peers (fun _ => True) r) (hn : setID set ∉ c.acquired_) :
    Core ⟨c.currPeerPositions_, c.acquired_.insert (setID set) set⟩
      (fun n => ∀ p, c.currPeerPositions_.lookup n = some p → p.position_ ≠ setID set) r where
  right x d hd := by
    have hr := h.right x d hd
    refine ⟨hr.id, hr.ourVote, hr.tallied, hr.voters, fun n b hf hb => hr.votes n b trivial ?_⟩
    rw [← hb]
    cases hp : c.currPeerPositions_.lookup n with
    | none => simp [vote, peers, hp]
    | some p => simp [vote, peers, hp, lookup_insert_ne (hf p hp)]
  acquired id hid := (mem_insert _).2 (.inr (h.acquired id hid))
  covered id set' hid hs' := by
    have hne : id ≠ setID set := fun heq => hn (heq ▸ h.acquired id hid)
    exact h.covered id set' hid ((lookup_insert_ne hne).symm.trans hs')

/-- A set becomes available: the peers that propose it vote now, and all others vote as before. -/
private lemma inv_acquire (hk : Keyed c.peers) (hn : setID set ∉ c.acquired_) (h : Sound c.peers r)
    (hc' : c'.peers = ⟨c.currPeerPositions_, c.acquired_.insert (setID set) set⟩) (counter : Nat) :
    Inv (c'.setStance (updateSupporters a c' set (r, counter))) := by
  have hs : c'.acquired_ = c.acquired_.insert (setID set) set := congrArg sets hc'
  have hpos : c'.currPeerPositions_ = c.currPeerPositions_ := congrArg positions hc'
  have hk' : Keyed c'.peers := hc' ▸ hk.acquire set
  have hsp : Core c'.peers (fun _ => True) (updateSupporters a c' set (r, counter)).1 ∧
      Compared c'.peers (updateSupporters a c' set (r, counter)).1 := updateSupporters_spec hk' ?_ ?_ ?_
  · exact Inv.setStance hk' ⟨hsp.1, hsp.2⟩
  · rw [hs]
    exact (mem_insert _).2 (.inl rfl)
  · rw [hc', hpos]
    exact h.core.acquire hn
  intro n p hp hmem
  rw [hs] at hmem
  rcases (mem_insert _).1 hmem with heq | hmem
  · exact .inr heq
  · exact .inl (h.compared n p (by rwa [hpos] at hp) hmem)

private lemma inv_gotTxSet {txSet : TxSet} (h : Inv c) : Inv (gotTxSet a now txSet c) := by
  unfold gotTxSet
  by_cases hph : c.phase_ = .accepted
  · rwa [if_pos hph]
  rw [if_neg hph]
  by_cases hmem : setID txSet ∈ c.acquired_
  · rw [if_pos hmem]
    exact h.same rfl rfl id
  rw [if_neg hmem]
  cases hres : c.result_ with
  | none => exact ⟨h.keyed.acquire txSet, fun r hr => (nomatch hr), fun he => by simpa [hres] using h.establish he⟩
  | some r => exact Inv.ask (inv_acquire h.keyed hmem (h.sound r hres) rfl _)

private lemma Core.store (h : Core c.peers (fun _ => True) r) (p : ConsensusProposal NodeID LedgerID SetID) :
    Core ⟨c.currPeerPositions_.insert p.nodeID_ p, c.acquired_⟩ (fun n => n ≠ p.nodeID_) r where
  right x d hd := by
    have hr := h.right x d hd
    refine ⟨hr.id, hr.ourVote, hr.tallied, fun n hn => (mem_insert _).2 (.inr (hr.voters n hn)),
      fun n b hf hb => hr.votes n b trivial ?_⟩
    simpa [vote, peers, lookup_insert_ne hf] using hb
  acquired := h.acquired
  covered := h.covered

private lemma inv_usePosition (h : Inv c)
    (hc' : c'.peers = ⟨c.currPeerPositions_.insert p.nodeID_ p, c.acquired_⟩) (hres : c'.result_ = c.result_)
    (hph : c'.phase_ = c.phase_) : Inv (usePosition a p c') := by
  have hk : Keyed c'.peers := hc' ▸ h.keyed.store p
  have hs : c'.acquired_ = c.acquired_ := congrArg sets hc'
  have he : c'.phase_ = .establish → c'.result_.isSome := by
    rw [hph, hres]
    exact h.establish
  unfold usePosition
  cases hset : c'.acquired_.lookup p.position_ with
  | none =>
    -- the vote of the peer is not known yet
    have hinv : Inv c' := by
      refine ⟨hk, fun r hr => ?_, he⟩
      have hr := h.sound r (hres ▸ hr)
      have hn : p.position_ ∉ c.acquired_ := hs ▸ lookup_eq_none.1 hset
      rw [hc']
      refine ⟨⟨fun x d hd => ?_, hr.core.acquired, hr.core.covered⟩, hr.compared.store fun hmem => absurd hmem hn⟩
      have hrt := (hr.core.store p).right x d hd
      refine ⟨hrt.id, hrt.ourVote, hrt.tallied, hrt.voters, fun n b _ hb => ?_⟩
      by_cases hne : n = p.nodeID_
      · subst hne
        simp [vote, lookup_eq_none.2 hn] at hb
      · exact hrt.votes n b hne hb
    cases ha : a.acquireTxSet c'.asked p.position_ with
    | none => exact hinv.ask
    | some set => exact inv_gotTxSet hinv.ask
  | some set =>
    cases hr : c'.result_ with
    | none =>
      refine ⟨hk, fun r hr' => ?_, he⟩
      cases hr.symm.trans hr'
    | some r =>
      have hr := h.sound r (hres ▸ hr)
      have hid : setID set = p.position_ := hk.sets _ _ hset
      have hmem : setID set ∈ c'.acquired_ := by
        rw [hid]
        exact lookup_isSome.1 (by simp [hset])
      have hv : ∀ x, c'.peers.vote p.nodeID_ x = some (exists_ set x) := by
        refine vote_eq hk ?_ hid.symm hmem
        rw [hc']
        exact lookup_insert _
      have ho : Core c'.peers (fun n => n ≠ p.nodeID_) r := hc' ▸ hr.core.store p
      obtain ⟨hco, hg, hcmp⟩ := updateDisputes_spec (a := a) (s := (r, c'.peerUnchangedCounter_)) hk hmem hv ho
      refine Inv.ask (Inv.setStance hk ⟨hco.mono fun n _ => ne_or_eq n _, ?_⟩)
      rw [hc']
      refine Compared.store (fun n p' hp' hmem' => hg.compares _ (hr.compared n p' hp' hmem')) fun _ => ?_
      rwa [hid] at hcmp

private lemma Sound.remove (h : Sound c.peers r) (n : NodeID) : Sound ⟨c.currPeerPositions_.erase n, c.acquired_⟩
      { r with disputes := r.disputes.mapVal fun _ d => d.unVote n } := by
  refine ⟨⟨fun x d hd => ?_, h.core.acquired, fun id set hid hs x hx => ?_⟩, fun m p hp hmem => ?_⟩
  · rw [lookup_mapVal] at hd
    obtain ⟨d', hd', rfl⟩ := map_eq_some_iff.1 hd
    have hr := h.core.right x d' hd'
    refine ⟨by simpa using hr.id, by simpa using hr.ourVote, DisputedTx.tallied_unVote hr.tallied n, fun m hm => ?_,
      fun m b _ hb => ?_⟩
    · obtain ⟨hne, hm⟩ := DisputedTx.mem_votes_unVote hm
      exact mem_erase.2 ⟨hne, hr.voters m hm⟩
    by_cases hne : m = n
    · subst hne
      simp [vote] at hb
    · rw [DisputedTx.lookup_votes_unVote, if_neg hne]
      exact hr.votes m b trivial (by simpa [vote, peers, lookup_erase_ne hne] using hb)
  · exact mem_mapVal.2 (h.core.covered id set hid hs x hx)
  by_cases hne : m = n
  · subst hne
    simp at hp
  · exact h.compared m p ((lookup_erase_ne hne).symm.trans hp) hmem

private lemma inv_remove (h : Inv c) {n : NodeID}
    (hc' : c'.peers = ⟨c.currPeerPositions_.erase n, c.acquired_⟩) (hres : c'.result_ = (c.unVote n).result_)
    (hph : c'.phase_ = c.phase_) : Inv c' := by
  refine ⟨?_, fun r hr => ?_, fun he => ?_⟩
  · rw [hc']
    refine ⟨h.keyed.sets, fun m p hp => ?_⟩
    by_cases hne : m = n
    · subst hne
      simp at hp
    · exact h.keyed.positions m p ((lookup_erase_ne hne).symm.trans hp)
  · obtain ⟨r', hr', rfl⟩ := map_eq_some_iff.1 (hres.symm.trans hr)
    rw [hc']
    exact (h.sound r' hr').remove n
  · rw [hres, unVote, isSome_map]
    exact h.establish (hph ▸ he)

private lemma inv_closeLedger (h : Inv c) : Inv (closeLedger a c) := by
  unfold closeLedger
  generalize a.onClose c.asked c.previousLedger_ c.now_ c.mode_ = taken
  obtain ⟨txns, position⟩ := taken
  have hk := h.keyed.emplace txns
  refine Inv.setStance hk (createAllDisputes_spec hk ⟨fun x d hd => ?_, fun id hid => ?_, fun id set hid => ?_⟩)
  · exact absurd hd (by simp)
  · exact absurd hid (notMem_empty id)
  · exact absurd hid (notMem_empty id)

private lemma inv_phaseOpen (h : Inv c) : Inv (phaseOpen a c) := by
  unfold phaseOpen
  dsimp only
  split_ifs
  · exact inv_closeLedger (h.same rfl rfl id)
  · exact h.same rfl rfl id

/-! ### The establish phase -/

private lemma inv_leaveConsensus (h : Inv c) : Inv c.leaveConsensus := by
  unfold leaveConsensus
  by_cases hm : c.mode_ = .proposing
  · rw [if_pos hm]
    refine h.of_result rfl rfl (fun r => ?_) id
    split_ifs <;> exact ⟨rfl, rfl, rfl⟩
  · rwa [if_neg hm]

private lemma inv_removeStale (h : Inv c) : Inv (removeStale a c).1 := by
  refine List.foldlRecOn (motive := fun s : Consensus NodeID LedgerID TxSet × List Int => Inv s.1) _ _
    (h.same rfl rfl id) fun s hs e he => ?_
  have hn : e.2.nodeID_ = e.1 := h.keyed.positions _ _ (lookup_of_mem_entries (mem_order.1 he))
  split_ifs
  · rw [hn]
    exact inv_remove hs rfl rfl rfl
  · exact hs

/-- What the votes of the peers have made of our votes and our set, while we go through the disputes. -/
structure Revised (v : Peers NodeID LedgerID TxSet) (r : ConsensusResult NodeID LedgerID TxSet)
    (s : HashMap TxID (DisputedTx Tx NodeID) × Option TxSet) : Prop where
  right : ∀ x d, s.1.lookup x = some d → Right v (fun _ => True) (s.2.getD r.txns) x d
  mem : ∀ x, x ∈ s.1 ↔ x ∈ r.disputes
  same : ∀ x, x ∉ r.disputes → exists_ (s.2.getD r.txns) x = exists_ r.txns x

omit [DecidableEq SetID] in
private lemma exists_revised (set : TxSet) {tx : Tx} {x : TxID} (hx : txID tx = x) (yes : Bool) (y : TxID) :
    exists_ (if yes then TxSetType.insert set tx else TxSetType.erase set x) y = if y = x then yes else exists_ set y := by
  subst hx
  cases yes with
  | true =>
    have h := isSome_find_insert set tx y
    by_cases hy : y = txID tx <;> simpa [exists_, hy] using h
  | false =>
    have h := isSome_find_erase set (txID tx) y
    by_cases hy : y = txID tx <;> simpa [exists_, hy] using h

private lemma revised_updateOurVote (h : Revised v r s) (x : TxID) : Revised v r (updateOurVote a c r.txns s x) := by
  unfold updateOurVote
  cases hd : s.1.lookup x with
  | none => exact h
  | some d =>
    have hr := h.right x d hd
    have hx : x ∈ r.disputes := (h.mem x).1 (lookup_isSome.1 (by simp [hd]))
    have hu := DisputedTx.updated_updateVote d c.convergePercent_ (c.mode_ = .proposing) a.parms
    dsimp only
    generalize d.updateVote c.convergePercent_ (c.mode_ = .proposing) a.parms = updated at hu ⊢
    obtain ⟨changed, d'⟩ := updated
    set set' := (if changed then
      some (if d'.ourVote_ then TxSetType.insert (s.2.getD r.txns) d'.tx_ else TxSetType.erase (s.2.getD r.txns) x)
      else s.2) with hs'
    have hex : ∀ y, exists_ (set'.getD r.txns) y = if y = x then d'.ourVote_ else exists_ (s.2.getD r.txns) y := by
      intro y
      cases changed with
      | true => exact exists_revised _ (by rw [hu.tx, hr.id]) _ y
      | false =>
        by_cases hy : y = x
        · subst hy
          simpa [hs'] using hr.ourVote.symm.trans (by simpa using hu.ourVote.symm)
        · simp [hs', hy]
    refine ⟨fun y d'' hd'' => ?_, fun y => ?_, fun y hy => ?_⟩
    · rcases of_lookup_insert hd'' with ⟨rfl, rfl⟩ | ⟨hy, hd''⟩
      · refine ⟨hu.tx ▸ hr.id, by simp [hex], hu.tallied hr.tallied, ?_, ?_⟩
        · rw [hu.votes]
          exact hr.voters
        · rw [hu.votes]
          exact hr.votes
      · have hr := h.right y d'' hd''
        exact ⟨hr.id, by simpa [hex, hy] using hr.ourVote, hr.tallied, hr.voters, hr.votes⟩
    · rw [mem_insert, ← h.mem y]
      exact or_iff_right_of_imp fun hy => hy ▸ (h.mem x).2 hx
    · have hne : y ≠ x := fun heq => hy (heq ▸ hx)
      simpa [hex, hne] using h.same y hy

private lemma revised_updateOurVotes (h : Core v (fun _ => True) r) : Revised v r (updateOurVotes a c r) :=
  List.foldlRecOn _ _ ⟨h.right, fun _ => Iff.rfl, fun _ _ => rfl⟩ fun _ hs x _ => revised_updateOurVote hs x

private lemma Revised.sound (hs : Revised v r s) (h : Sound v r)
    (hdis : r'.disputes = s.1) (ht : r'.txns = s.2.getD r.txns) (hc : r'.compares = r.compares) :
    Sound v r' := by
  refine ⟨⟨fun x d hd => ?_, fun id hid => ?_, fun id set hid hset x hx => ?_⟩, fun n p hp hmem => ?_⟩
  · rw [ht]
    exact hs.right x d (hdis ▸ hd)
  · exact h.core.acquired id (hc ▸ hid)
  · rw [hdis, hs.mem]
    by_contra hn
    rw [ht, hs.same x hn] at hx
    exact hn (h.core.covered id set (hc ▸ hid) hset x hx)
  · rw [hc]
    exact h.compared n p hp hmem

private lemma inv_adoptSet (hk : Keyed c.peers) {closeTime : Int}
    (h : Sound c.peers { r with txns := set }) : Inv (adoptSet a c r set closeTime) := by
  unfold adoptSet
  by_cases hmem : setID set ∈ c.acquired_
  · rw [if_pos hmem]
    exact Inv.setStance hk (h.of_eq rfl rfl rfl)
  rw [if_neg hmem]
  have hs : Sound c.peers { r with
      txns := set, position := r.position.changePosition (setID set) closeTime c.now_ } := h.of_eq rfl rfl rfl
  exact Inv.ask (inv_acquire hk hmem hs rfl _)

private lemma inv_revisePosition {times : List Int} (hk : Keyed c.peers)
    (h : Sound c.peers r) : Inv (revisePosition a times c r) := by
  have hs := revised_updateOurVotes (a := a) (c := c) h.core
  have hps : (updateCloseTime a c.ask (c.asCloseTime r.position.closeTime_) times).2.peers = c.peers := by
    unfold updateCloseTime
    split_ifs <;> rfl
  unfold revisePosition
  dsimp only
  generalize updateOurVotes a c r = revised at hs ⊢
  generalize updateCloseTime a c.ask (c.asCloseTime r.position.closeTime_) times = timed at hps ⊢
  obtain ⟨disputes, mutableSet⟩ := revised
  obtain ⟨closeTime, c'⟩ := timed
  have hk' : Keyed c'.peers := hps ▸ hk
  have hsnd : ∀ r' : ConsensusResult NodeID LedgerID TxSet, r'.disputes = disputes →
      r'.txns = mutableSet.getD r.txns → r'.compares = r.compares → Sound c'.peers r' := by
    intro r' hd ht hc
    rw [hps]
    exact hs.sound h hd ht hc
  cases mutableSet with
  | some set => exact inv_adoptSet hk' (hsnd _ rfl rfl rfl)
  | none =>
    by_cases hn : closeTime ≠ c.asCloseTime r.position.closeTime_ ∨
        r.position.isStale (c'.now_ - a.parms.proposeINTERVAL)
    · rw [if_pos hn]
      exact inv_adoptSet hk' (hsnd _ rfl rfl rfl)
    · rw [if_neg hn]
      exact Inv.setStance hk' (hsnd _ rfl rfl rfl)

private lemma inv_updateOurPositions (h : Inv c) : Inv (updateOurPositions a c) := by
  have hs := inv_removeStale (a := a) h
  unfold updateOurPositions
  generalize removeStale a c = stale at hs ⊢
  obtain ⟨c', times⟩ := stale
  dsimp only at hs ⊢
  cases hr : c'.result_ with
  | none => exact hs
  | some r => exact inv_revisePosition hs.keyed (hs.sound r hr)

private lemma inv_haveConsensus (h : Inv c) (hr : c.result_ = some r) : Inv (haveConsensus a c r).2 := by
  have hs : ∀ state, Inv { c.ask with result_ := some { r with state := state } } := by
    intro state
    refine h.of_result (f := fun r => { r with state := state }) rfl ?_ (fun _ => ⟨rfl, rfl, rfl⟩) id
    rw [hr, map_some]
  unfold haveConsensus
  dsimp only
  split_ifs
  · exact hs _
  · exact hs _
  · exact inv_leaveConsensus (hs _)
  · exact hs _

private lemma inv_acceptRound (h : Inv c) (hr : c.result_ = some r) : Inv (acceptRound a c r) := by
  have hc : Inv (haveConsensus a c.ask r).2 := inv_haveConsensus h.ask hr
  unfold acceptRound
  by_cases hp : shouldPause a c r
  · rw [if_pos hp]
    exact h.ask
  dsimp only
  split_ifs
  · exact hc.same rfl rfl fun hph => nomatch hph
  · exact hc

private lemma inv_phaseEstablish (h : Inv c) : Inv (phaseEstablish a c) := by
  unfold phaseEstablish
  cases hr : c.result_ with
  | none => exact h
  | some r =>
    have hm : Inv (measureRound a c r) := by
      refine h.of_result (f := fun r => { r with
        roundTime := r.roundTime.tick (a.now c.asked), proposers := c.currPeerPositions_.entries.length })
        rfl ?_ (fun _ => ⟨rfl, rfl, rfl⟩) id
      rw [hr]
      rfl
    dsimp only
    split_ifs
    · exact hm
    have hpos := inv_updateOurPositions (a := a) hm
    cases hr' : (updateOurPositions a (measureRound a c r)).result_ with
    | none => exact hpos
    | some r' => exact inv_acceptRound hpos hr'

private lemma inv_runPhase (h : Inv c) : Inv (runPhase a c) := by
  unfold runPhase
  split
  · exact inv_phaseOpen h
  · exact inv_phaseEstablish h
  · exact h

private lemma inv_simulate {consensusDelay : Option Int} (h : Inv c) : Inv (simulate a now consensusDelay c) := by
  have hc : Inv (closeLedger a { c with now_ := now }) := inv_closeLedger (h.same rfl rfl id)
  unfold simulate
  dsimp only
  generalize closeLedger a { c with now_ := now } = closed at hc ⊢
  cases hr : closed.result_ with
  | none => exact hc
  | some r =>
    refine hc.of_result (f := fun r => { r with
      roundTime := r.roundTime.tickFixed (consensusDelay.getD 100)
      proposers := closed.currPeerPositions_.entries.length }) rfl ?_ (fun _ => ⟨rfl, rfl, rfl⟩) fun hph => nomatch hph
    rw [hr, map_some]

variable [DecidableEq LedgerID]

private lemma inv_peerProposalInternal (h : Inv c) : Inv (peerProposalInternal a now p c).2 := by
  unfold peerProposalInternal
  by_cases hph : c.phase_ = .accepted
  · rwa [if_pos hph]
  have hn : Inv { c with now_ := now } := h.same rfl rfl id
  dsimp only
  split_ifs
  · exact hn
  · exact hn
  · exact hn
  · exact inv_remove h rfl rfl rfl
  · exact inv_usePosition h rfl rfl rfl

private lemma inv_playbackProposals (h : Inv c) : Inv (playbackProposals a c) := by
  refine List.foldlRecOn _ _ (h.same rfl rfl id) fun c hc e _ => ?_
  refine List.foldlRecOn _ _ hc fun c hc p _ => ?_
  split_ifs
  · exact inv_peerProposalInternal hc
  · exact hc

private lemma inv_switchLedger {lgrId : LedgerID} (h : Inv c) : Inv (switchLedger a lgrId c) := by
  have hl := inv_leaveConsensus h
  unfold switchLedger
  by_cases hs : c.leaveConsensus.prevLedgerID_ ≠ lgrId
  · rw [if_pos hs]
    refine inv_playbackProposals ⟨⟨hl.keyed.sets, fun n p hp => ?_⟩, fun r hr => ?_, fun he => ?_⟩
    · exact absurd hp (by simp [peers])
    · obtain ⟨r', -, rfl⟩ := map_eq_some_iff.1 hr
      exact ⟨⟨fun x d hd => absurd hd (by simp), fun id hid => absurd hid (notMem_empty id),
        fun id set hid => absurd hid (notMem_empty id)⟩, fun n p hp => absurd hp (by simp [peers])⟩
    · rw [isSome_map]
      exact hl.establish he
  · rwa [if_neg hs]

private lemma inv_openRound {mode : ConsensusMode} : Inv (openRound a now prevLedgerID prevLedger mode c) := by
  refine inv_playbackProposals ⟨⟨fun id set hs => ?_, fun n p hp => ?_⟩, fun r hr => ?_, fun he => ?_⟩
  · exact absurd hs (by simp [peers])
  · exact absurd hp (by simp [peers])
  · cases hr
  · cases he

section

variable {restart : Restart NodeID LedgerID TxSet}
  (hre : ∀ now lgrId ledger mode c, Ensures (restart now lgrId ledger mode c) Inv)

include hre

private lemma inv_handleWrongLedger {lgrId : LedgerID} (h : Inv c) :
    Ensures (handleWrongLedger a restart lgrId c) Inv := by
  have hs : Inv (switchLedger a lgrId c) := inv_switchLedger h
  unfold handleWrongLedger
  dsimp only
  split_ifs
  · exact .pure hs
  · split
    · exact hre _ _ _ _ _
    · exact .pure (hs.same rfl rfl id)

private lemma inv_timerEntryWith (h : Inv c) : Ensures (timerEntryWith a restart now c) Inv := by
  unfold timerEntryWith
  split_ifs
  · exact .pure h
  refine Ensures.map ?_ fun _ => inv_runPhase
  unfold checkLedger
  dsimp only
  split_ifs
  · exact inv_handleWrongLedger hre (h.same rfl rfl id)
  · exact .pure (h.same rfl rfl id)

end

private lemma inv_startRoundInternal (fuel : Nat) (now : Int) (prevLedgerID : LedgerID)
    (prevLedger : ConsensusLedger LedgerID)
    (mode : ConsensusMode) (c : Consensus NodeID LedgerID TxSet) :
    Ensures (startRoundInternal a fuel now prevLedgerID prevLedger mode c) Inv := by
  induction fuel generalizing now prevLedgerID prevLedger mode c with
  | zero => exact fun _ hc => nomatch hc
  | succ fuel ih =>
    unfold startRoundInternal
    dsimp only
    split_ifs
    · exact inv_timerEntryWith ih inv_openRound
    · exact .pure inv_openRound

/-! ### Runs -/

inductive Event (NodeID LedgerID TxSet : Type) {Tx TxID SetID : Type} [TxType Tx TxID]
    [TxSetType TxSet Tx TxID SetID] where
  | startRound (now : Int) (prevLedgerID : LedgerID) (prevLedger : ConsensusLedger LedgerID)
    (nowUntrusted : List NodeID) (proposing : Bool)
  | peerProposal (now : Int) (newPeerPos : ConsensusProposal NodeID LedgerID SetID)
  | gotTxSet (now : Int) (txSet : TxSet)
  | timerEntry (now : Int)
  | simulate (now : Int) (consensusDelay : Option Int)

/-- The state after an event, unless rounds start one another more than `fuel` times. -/
def step (a : ConsensusAdaptor NodeID LedgerID TxSet) (fuel : Nat) (c : Consensus NodeID LedgerID TxSet) :
    Event NodeID LedgerID TxSet → Option (Consensus NodeID LedgerID TxSet)
  | .startRound now prevLedgerID prevLedger nowUntrusted proposing =>
    startRound a fuel now prevLedgerID prevLedger nowUntrusted proposing c
  | .peerProposal now newPeerPos => some (peerProposal a now newPeerPos c).2
  | .gotTxSet now txSet => some (gotTxSet a now txSet c)
  | .timerEntry now => timerEntry a fuel now c
  | .simulate now consensusDelay => some (simulate a now consensusDelay c)

def run (a : ConsensusAdaptor NodeID LedgerID TxSet) (fuel : Nat) (events : List (Event NodeID LedgerID TxSet))
    (c : Consensus NodeID LedgerID TxSet) : Option (Consensus NodeID LedgerID TxSet) :=
  events.foldlM (step a fuel) c

private lemma inv_step (event : Event NodeID LedgerID TxSet) (h : Inv c) : Ensures (step a fuel c event) Inv := by
  cases event with
  | startRound now prevLedgerID prevLedger nowUntrusted proposing =>
    unfold step startRound
    dsimp only
    split
    · exact inv_startRoundInternal _ _ _ _ _ _
    · split <;> exact inv_startRoundInternal _ _ _ _ _ _
  | peerProposal now newPeerPos => exact .pure (inv_peerProposalInternal (h.same rfl rfl id))
  | gotTxSet now txSet => exact .pure (inv_gotTxSet h)
  | timerEntry now => exact inv_timerEntryWith (inv_startRoundInternal fuel) h
  | simulate now consensusDelay => exact .pure (inv_simulate h)

/-- After any events, in any order: our vote on a dispute is whether our set has the transaction; the numbers of votes
are right, and only peers with a position have votes; and for every peer whose set we have, all differences from our
set are disputed and its votes say what its set contains. -/
theorem run_disputes {fuel : Nat} {prevLedgerID : LedgerID} {previousLedger : ConsensusLedger LedgerID}
    {events : List (Event NodeID LedgerID TxSet)} (h : run a fuel events (initial prevLedgerID previousLedger) = some c)
    {r : ConsensusResult NodeID LedgerID TxSet} (hr : c.result_ = some r) :
    (∀ x d, r.disputes.lookup x = some d → txID d.tx_ = x ∧ (d.ourVote_ = true ↔ exists_ r.txns (txID d.tx_) = true)) ∧
    (∀ x d, r.disputes.lookup x = some d → d.yays_ = d.votes_.values.count true ∧
      d.nays_ = d.votes_.values.count false ∧ ∀ n, n ∈ d.votes_ → n ∈ c.currPeerPositions_) ∧
    ∀ n p set, c.currPeerPositions_.lookup n = some p → c.acquired_.lookup p.position_ = some set →
      (∀ x, exists_ set x ≠ exists_ r.txns x → x ∈ r.disputes) ∧
      ∀ x d, r.disputes.lookup x = some d → d.votes_.lookup n = some (exists_ set x) := by
  have hi : Inv (initial prevLedgerID previousLedger : Consensus NodeID LedgerID TxSet) :=
    ⟨⟨by simp [initial, peers], by simp [initial, peers]⟩, fun r hr => (nomatch hr), nofun⟩
  obtain ⟨hco, hcmp⟩ := (Ensures.foldlM (fun event _ _ hc => inv_step event hc) hi c h).sound r hr
  refine ⟨fun x d hd => ?_, fun x d hd => ?_, fun n p set hp hs => ⟨fun x hx => ?_, fun x d hd => ?_⟩⟩
  · have hrt := hco.right x d hd
    exact ⟨hrt.id, by rw [hrt.ourVote, hrt.id]⟩
  · have hrt := hco.right x d hd
    exact ⟨hrt.tallied.yays, hrt.tallied.nays, hrt.voters⟩
  · have hmem : p.position_ ∈ c.acquired_ := lookup_isSome.1 (by simp [hs])
    exact hco.covered _ set (hcmp n p hp hmem) hs x hx
  · exact (hco.right x d hd).votes n _ trivial (by simp [vote, peers, hp, hs])

/-! A run in which a peer proposes another set, and we change our vote. -/

instance : TxType Nat Nat where
  txID := id

/-- Sets of numbers, as lists. -/
instance : TxSetType (List Nat) Nat Nat (Finset Nat) where
  setID := List.toFinset
  find s x := if x ∈ s then some x else none
  compare s s' := (s.filter (· ∉ s')).map (·, true) ++ (s'.filter (· ∉ s)).map (·, false)
  insert s x := x :: s
  erase s x := s.filter (· ≠ x)
  txID_of_find := by
    intro s x tx h
    obtain ⟨-, rfl⟩ : x ∈ s ∧ x = tx := by simpa using h
    rfl
  isSome_find_of_setID := by
    intro s s' h x
    have hx : x ∈ s ↔ x ∈ s' := by rw [← List.mem_toFinset, h, List.mem_toFinset]
    simp [hx]
  mem_compare := by
    intro s s' x b
    cases b <;> simp [and_comm]
  isSome_find_insert := by
    intro s tx x
    simp [TxType.txID]
  isSome_find_erase := by
    intro s x y
    simp [and_comm]

/-- Node 5 proposes the set of 2 and 3, which is available, and we start with the set of 1 and 2. -/
def twoSetsAdaptor : ConsensusAdaptor Nat Nat (List Nat) where
  now n := 3000 * n
  acquireLedger _ _ := none
  acquireTxSet _ id := if id = {2, 3} then some [2, 3] else none
  hasOpenTransactions _ := true
  proposersValidated _ _ := 0
  proposersFinished _ _ _ := 0
  getPrevLedger _ id _ _ := id
  onClose _ ledger now _ := ([1, 2], ⟨ledger.id, {1, 2}, now, now, 0, 0⟩)
  getValidLedgerIndex _ := 0
  getQuorumKeys _ := (0, 0)
  laggards _ _ := (0, 0)
  validator _ := false
  haveValidated _ := false
  order _ _ l := l
  order_perm _ _ l := List.Perm.refl l

def sevenLedger : ConsensusLedger Nat := ⟨7, 1, 30, true, 90, 60⟩

def twoSetsEvents : List (Event Nat Nat (List Nat)) :=
  [.startRound 100 7 sevenLedger [] true, .peerProposal 101 ⟨7, {2, 3}, 100, 101, 0, 5⟩, .timerEntry 102, .timerEntry 105]

theorem run_disputes_twoSets : ∃ c r d, run twoSetsAdaptor 1 twoSetsEvents (initial 7 sevenLedger) = some c ∧
    c.result_ = some r ∧ r.txns = [2] ∧ r.disputes.lookup 3 = some d ∧ d.ourVote_ = false ∧
    d.votes_.lookup 5 = some true := by
  have hrun : (run twoSetsAdaptor 1 twoSetsEvents (initial 7 sevenLedger)).any fun c =>
      c.result_.any fun r => r.txns = [2] ∧ (r.disputes.lookup 3).isSome ∧
        (c.currPeerPositions_.lookup 5).any fun p => c.acquired_.lookup p.position_ = some [2, 3] := by
    decide +kernel
  simp only [any_eq_true, decide_eq_true_eq] at hrun
  obtain ⟨c, hc, r, hr, ht, hd, p, hp, hs⟩ := hrun
  obtain ⟨d, hd⟩ := isSome_iff_exists.1 hd
  obtain ⟨hours, -, hps⟩ := run_disputes hc hr
  obtain ⟨hid, ho⟩ := hours 3 d hd
  refine ⟨c, r, d, hc, hr, ht, hd, ?_, (hps 5 p [2, 3] hp hs).2 3 d hd⟩
  rw [← Bool.not_eq_true, ho, hid, ht]
  decide

end Xrpl.Consensus

import Xrpl.Consensus.Consensus

/-!
# Disputes agree with the positions of the peers

Disputes are created when a set is compared with ours for the first time, and their votes are changed from many places.
This is what it means that they agree with the positions of the peers, and how the functions that work on the disputes
bring it about.

* `Peers.vote`: the vote of a peer on a transaction, as its position and the sets that we have determine it;
* `Core`: the disputes are right for the peers in `fresh`, and cover all the sets compared so far;
* `createDisputes_spec`, `updateDisputes_spec`, `updateSupporters_spec`, `createAllDisputes_spec`: what the functions
  that create and update disputes do.
-/

namespace Xrpl.Consensus

open TxType TxSetType Option HashMap AList DisputedTx

variable {NodeID LedgerID TxSet Tx TxID SetID : Type} [TxType Tx TxID] [TxSetType TxSet Tx TxID SetID]

private lemma exists_of_setID {s s' : TxSet} (h : setID s = setID s') (x : TxID) : exists_ s x = exists_ s' x :=
  isSome_find_of_setID h x

lemma mem_order {a : ConsensusAdaptor NodeID LedgerID TxSet} {α : Type} {n : Nat} {l : List α} {e : α} :
    e ∈ a.order n l ↔ e ∈ l := (a.order_perm n l).mem_iff

/-- The result has as many disputes and compared sets as before or more, and the same transactions. -/
structure Grows (r r' : ConsensusResult NodeID LedgerID TxSet) : Prop where
  txns : r'.txns = r.txns
  compares : ∀ id, id ∈ r.compares → id ∈ r'.compares
  disputes : ∀ x, x ∈ r.disputes → x ∈ r'.disputes

private lemma Grows.refl (r : ConsensusResult NodeID LedgerID TxSet) : Grows r r := ⟨rfl, fun _ h => h, fun _ h => h⟩

variable {r r' : ConsensusResult NodeID LedgerID TxSet} {txns o : TxSet} {x : TxID}
  {r'' : ConsensusResult NodeID LedgerID TxSet}

private lemma Grows.trans (h : Grows r r') (h' : Grows r' r'') : Grows r r'' :=
  ⟨h'.txns.trans h.txns, fun id hid => h'.compares id (h.compares id hid), fun x hx => h'.disputes x (h.disputes x hx)⟩

private lemma find_of_mem_compare {diff : TxID × Bool} (h : diff ∈ compare txns o) :
    ∃ tx, (if diff.2 then find txns diff.1 else find o diff.1) = some tx ∧ txID tx = diff.1 := by
  obtain ⟨x, b⟩ := diff
  obtain ⟨hs, ho⟩ := mem_compare.1 h
  cases b with
  | true =>
    obtain ⟨tx, htx⟩ := isSome_iff_exists.1 hs
    exact ⟨tx, by simpa using htx, txID_of_find htx⟩
  | false =>
    obtain ⟨tx, htx⟩ := isSome_iff_exists.1 ho
    exact ⟨tx, by simpa using htx, txID_of_find htx⟩

variable [DecidableEq NodeID] [DecidableEq SetID]

/-- What is known of the peers: their positions, and the sets that we have. -/
structure Peers (NodeID LedgerID TxSet : Type) {Tx TxID SetID : Type} [TxType Tx TxID]
    [TxSetType TxSet Tx TxID SetID] where
  positions : HashMap NodeID (ConsensusProposal NodeID LedgerID SetID)
  sets : HashMap SetID TxSet

def peers (c : Consensus NodeID LedgerID TxSet) : Peers NodeID LedgerID TxSet := ⟨c.currPeerPositions_, c.acquired_⟩

/-- The vote of a peer on a transaction, as far as its position is known and the set is there. -/
def Peers.vote (v : Peers NodeID LedgerID TxSet) (n : NodeID) (x : TxID) : Option Bool :=
  (v.positions.lookup n).bind fun p => (v.sets.lookup p.position_).map fun set => exists_ set x

/-- A dispute about the transaction `x` is right, where the votes of the peers outside `fresh` need not be up to date. -/
structure Right (v : Peers NodeID LedgerID TxSet) (fresh : NodeID → Prop) (txns : TxSet) (x : TxID)
    (d : DisputedTx Tx NodeID) : Prop where
  id : txID d.tx_ = x
  ourVote : d.ourVote_ = exists_ txns x
  tallied : d.Tallied
  voters : ∀ n, n ∈ d.votes_ → n ∈ v.positions
  votes : ∀ n b, fresh n → v.vote n x = some b → d.votes_.lookup n = some b

/-- The keys of the containers are right. -/
structure Keyed (v : Peers NodeID LedgerID TxSet) : Prop where
  sets : ∀ id set, v.sets.lookup id = some set → setID set = id
  positions : ∀ n p, v.positions.lookup n = some p → p.nodeID_ = n

lemma Peers.vote_eq {v : Peers NodeID LedgerID TxSet} (hc : Keyed v) {n : NodeID}
    {p : ConsensusProposal NodeID LedgerID SetID} (hp : v.positions.lookup n = some p) {set : TxSet}
    (hs : p.position_ = setID set) (hmem : setID set ∈ v.sets) (x : TxID) : v.vote n x = some (exists_ set x) := by
  obtain ⟨set', hs'⟩ := isSome_iff_exists.1 (lookup_isSome.2 hmem)
  rw [← hs] at hs'
  simp [vote, hp, hs', exists_of_setID ((hc.sets _ _ hs').trans hs) x]

private lemma Peers.mem_of_vote {v : Peers NodeID LedgerID TxSet} {n : NodeID} {b : Bool} (h : v.vote n x = some b) :
    n ∈ v.positions := by
  obtain ⟨p, hp, -⟩ := bind_eq_some_iff.1 h
  exact lookup_isSome.1 (by simp [hp])

variable {a : ConsensusAdaptor NodeID LedgerID TxSet} {c : Consensus NodeID LedgerID TxSet} {fresh : NodeID → Prop}

/-- What the loop over the peers has made of a new dispute, with the peers in `rest` still to come. -/
structure Voting (v : Peers NodeID LedgerID TxSet) (x : TxID) (d : DisputedTx Tx NodeID)
    (rest : List (Σ _ : NodeID, ConsensusProposal NodeID LedgerID SetID)) (d' : DisputedTx Tx NodeID) : Prop where
  tx : d'.tx_ = d.tx_
  ourVote : d'.ourVote_ = d.ourVote_
  tallied : d'.Tallied
  sound : ∀ n, n ∈ d'.votes_ → n ∈ v.positions
  complete : ∀ n b, v.vote n x = some b → d'.votes_.lookup n = some b ∨ ∃ e ∈ rest, e.1 = n

private lemma voting_initialVotes (x : TxID) {s : DisputedTx Tx NodeID × Nat}
    (h : Voting c.peers x s.1 c.currPeerPositions_.entries s.1) :
    Voting c.peers x s.1 [] (initialVotes a c x s).1 := by
  refine List.foldl_rest (I := fun rest (s' : DisputedTx Tx NodeID × Nat) => Voting c.peers x s.1 rest s'.1) ?_
    ⟨h.tx, h.ourVote, h.tallied, h.sound, fun n b hb => ?_⟩
  · intro e he rest s' hs
    have hl := lookup_of_mem_entries (mem_order.1 he)
    cases hset : c.acquired_.lookup e.2.position_ with
    | none =>
      refine ⟨hs.tx, hs.ourVote, hs.tallied, hs.sound, fun n b hb => (hs.complete n b hb).imp_right ?_⟩
      rintro ⟨e', he', rfl⟩
      rcases List.mem_cons.1 he' with rfl | he'
      · simp [Peers.vote, peers, hl, hset] at hb
      · exact ⟨e', he', rfl⟩
    | some set =>
      have hv : c.peers.vote e.1 x = some (exists_ set x) := by simp [Peers.vote, peers, hl, hset]
      refine ⟨by simpa using hs.tx, by simpa using hs.ourVote, tallied_setVote hs.tallied _ _, ?_, ?_⟩
      · intro n hn
        rcases mem_votes_setVote hn with rfl | hn
        · exact Peers.mem_of_vote hv
        · exact hs.sound n hn
      · intro n b hb
        rw [lookup_votes_setVote]
        by_cases hn : n = e.1
        · subst hn
          exact .inl (by simpa using hv.symm.trans hb)
        simp only [if_neg hn]
        refine (hs.complete n b hb).imp_right ?_
        rintro ⟨e', he', rfl⟩
        rcases List.mem_cons.1 he' with rfl | he'
        · exact absurd rfl hn
        · exact ⟨e', he', rfl⟩
  · refine (h.complete n b hb).imp_right ?_
    rintro ⟨e, he, hn⟩
    exact ⟨e, mem_order.2 he, hn⟩

private lemma right_initialVotes {tx : Tx} (hx : txID tx = x) (counter : Nat) :
    Right c.peers fresh txns x (initialVotes a c x ({ ourVote_ := exists_ txns x, tx_ := tx }, counter)).1 := by
  have h := voting_initialVotes (a := a) (c := c) x
    (s := (({ ourVote_ := exists_ txns x, tx_ := tx } : DisputedTx Tx NodeID), counter))
    ⟨rfl, rfl, ⟨rfl, rfl⟩, fun n hn => absurd hn (notMem_empty n), fun n b hb => .inr ?_⟩
  · refine ⟨by rw [h.tx, hx], h.ourVote, h.tallied, h.sound, fun n b _ hb => ?_⟩
    exact (h.complete n b hb).resolve_right (by simp)
  · obtain ⟨v, hv⟩ := isSome_iff_exists.1 (lookup_isSome.2 (Peers.mem_of_vote hb))
    exact ⟨⟨n, v⟩, mem_lookup_iff.1 hv, rfl⟩

private lemma Right.setVote {d : DisputedTx Tx NodeID} (h : Right c.peers fresh txns x d) {node : NodeID}
    {b : Bool} (hb : c.peers.vote node x = some b) :
    Right c.peers (fun n => fresh n ∨ n = node) txns x (d.setVote node b).2 where
  id := by simpa using h.id
  ourVote := by simpa using h.ourVote
  tallied := tallied_setVote h.tallied _ _
  voters n hn := by
    rcases mem_votes_setVote hn with rfl | hn
    · exact Peers.mem_of_vote hb
    · exact h.voters n hn
  votes n b' hn hb' := by
    rw [lookup_votes_setVote]
    by_cases hno : n = node
    · subst hno
      simpa using hb.symm.trans hb'
    · simpa [hno] using h.votes n b' (hn.resolve_right hno) hb'

lemma Keyed.acquire (hk : Keyed c.peers) (set : TxSet) :
    Keyed (⟨c.currPeerPositions_, c.acquired_.insert (setID set) set⟩ : Peers NodeID LedgerID TxSet) := by
  refine ⟨fun id set' hid => ?_, hk.positions⟩
  rcases of_lookup_insert hid with ⟨rfl, rfl⟩ | ⟨-, hid⟩
  · rfl
  · exact hk.sets id set' hid

lemma Keyed.store (hk : Keyed c.peers) (p : ConsensusProposal NodeID LedgerID SetID) :
    Keyed (⟨c.currPeerPositions_.insert p.nodeID_ p, c.acquired_⟩ : Peers NodeID LedgerID TxSet) := by
  refine ⟨hk.sets, fun n p' hp' => ?_⟩
  rcases of_lookup_insert hp' with ⟨rfl, rfl⟩ | ⟨-, hp'⟩
  · rfl
  · exact hk.positions n p' hp'

lemma Keyed.emplace (hk : Keyed c.peers) (set : TxSet) :
    Keyed (⟨c.currPeerPositions_, c.acquired_.emplace (setID set) set⟩ : Peers NodeID LedgerID TxSet) := by
  unfold HashMap.emplace
  split_ifs
  · exact hk
  · exact hk.acquire set

/-- The sets of the peers' positions that we have are compared with ours. -/
def Compared (v : Peers NodeID LedgerID TxSet) (r : ConsensusResult NodeID LedgerID TxSet) : Prop :=
  ∀ n p, v.positions.lookup n = some p → p.position_ ∈ v.sets → p.position_ ∈ r.compares

omit [DecidableEq SetID] in
lemma Compared.store (h : Compared c.peers r)
    {p : ConsensusProposal NodeID LedgerID SetID} (hp : p.position_ ∈ c.acquired_ → p.position_ ∈ r.compares) :
    Compared ⟨c.currPeerPositions_.insert p.nodeID_ p, c.acquired_⟩ r := by
  intro n p' hp' hmem
  rcases of_lookup_insert hp' with ⟨rfl, rfl⟩ | ⟨-, hp'⟩
  · exact hp hmem
  · exact h n p' hp' hmem

variable [DecidableEq TxID]

/-- The disputes of a result are right, and every transaction in which a compared set differs from ours has one. -/
structure Core (v : Peers NodeID LedgerID TxSet) (fresh : NodeID → Prop)
    (r : ConsensusResult NodeID LedgerID TxSet) : Prop where
  right : ∀ x d, r.disputes.lookup x = some d → Right v fresh r.txns x d
  acquired : ∀ id, id ∈ r.compares → id ∈ v.sets
  covered : ∀ id set, id ∈ r.compares → v.sets.lookup id = some set →
    ∀ x, exists_ set x ≠ exists_ r.txns x → x ∈ r.disputes

/-- What the invariant says about a position that has been taken. -/
structure Sound (v : Peers NodeID LedgerID TxSet) (r : ConsensusResult NodeID LedgerID TxSet) : Prop where
  core : Core v (fun _ => True) r
  compared : Compared v r

lemma Core.mono {fresh' : NodeID → Prop} (h : Core c.peers fresh r)
    (hf : ∀ n, fresh' n → fresh n) : Core c.peers fresh' r where
  right x d hd :=
    have hr := h.right x d hd
    ⟨hr.id, hr.ourVote, hr.tallied, hr.voters, fun n b hn => hr.votes n b (hf n hn)⟩
  acquired := h.acquired
  covered := h.covered

/-! ### Creating and updating disputes -/

/-- Some disputes have been added, with the right votes. -/
structure Created (v : Peers NodeID LedgerID TxSet) (fresh : NodeID → Prop)
    (r r' : ConsensusResult NodeID LedgerID TxSet) : Prop where
  right : ∀ x d, r'.disputes.lookup x = some d → Right v fresh r'.txns x d
  grows : Grows r r'
  compares : r'.compares = r.compares

variable {s : ConsensusResult NodeID LedgerID TxSet × Nat}

section

variable (h : ∀ x d, s.1.disputes.lookup x = some d → Right c.peers fresh s.1.txns x d)

include h

private lemma created_createDispute {diff : TxID × Bool} (hdi : diff ∈ compare s.1.txns o) :
    Created c.peers fresh s.1 (createDispute a c o s diff).1 ∧ diff.1 ∈ (createDispute a c o s diff).1.disputes := by
  obtain ⟨tx, htx, hid⟩ := find_of_mem_compare hdi
  simp only [createDispute, htx, hid]
  by_cases hmem : diff.1 ∈ s.1.disputes
  · simp only [if_pos hmem]
    exact ⟨⟨h, Grows.refl _, rfl⟩, hmem⟩
  simp only [if_neg hmem]
  refine ⟨⟨fun x d hd => ?_, ⟨rfl, fun _ hid => hid, fun x hx => (mem_insert _).2 (.inr hx)⟩, rfl⟩,
    (mem_insert _).2 (.inl rfl)⟩
  rcases of_lookup_insert hd with ⟨rfl, rfl⟩ | ⟨-, hd⟩
  · exact right_initialVotes hid s.2
  · exact h x d hd

private lemma created_foldl : Created c.peers fresh s.1 ((compare s.1.txns o).foldl (createDispute a c o) s).1 ∧
      ∀ diff ∈ compare s.1.txns o, diff.1 ∈ ((compare s.1.txns o).foldl (createDispute a c o) s).1.disputes := by
  have hl := List.foldl_rest (f := createDispute a c o) (l := compare s.1.txns o) (s := s)
    (I := fun rest s' => Created c.peers fresh s.1 s'.1 ∧
      ∀ diff ∈ compare s.1.txns o, diff.1 ∈ s'.1.disputes ∨ diff ∈ rest)
    ?_ ⟨⟨h, Grows.refl _, rfl⟩, fun diff hd => .inr hd⟩
  · exact ⟨hl.1, fun diff hd => (hl.2 diff hd).resolve_right (by simp)⟩
  intro diff hd rest s' hs
  have hd' : diff ∈ compare s'.1.txns o := by rwa [hs.1.grows.txns]
  obtain ⟨hcr, hmem⟩ := created_createDispute (a := a) hs.1.right hd'
  refine ⟨⟨hcr.right, hs.1.grows.trans hcr.grows, hcr.compares.trans hs.1.compares⟩, fun other ho => ?_⟩
  rcases hs.2 other ho with hold | hr
  · exact .inl (hcr.grows.disputes _ hold)
  · rcases List.mem_cons.1 hr with rfl | hr
    · exact .inl hmem
    · exact .inr hr

end

section

variable (hc : Keyed c.peers)

include hc

private lemma Created.core (ho : setID o ∈ c.acquired_) (h : Core c.peers fresh r)
    (hcr : Created c.peers fresh { r with compares := r.compares.insert (setID o) () } r')
    (hd : ∀ x, exists_ o x ≠ exists_ r.txns x → x ∈ r'.disputes) :
    Core c.peers fresh r' ∧ Grows r r' ∧ setID o ∈ r'.compares := by
  have hmem : ∀ id, id ∈ r'.compares ↔ id = setID o ∨ id ∈ r.compares := by
    intro id
    rw [hcr.compares]
    exact mem_insert _
  refine ⟨⟨hcr.right, fun id hid => ?_, fun id set hid hs x hx => ?_⟩,
    ⟨hcr.grows.txns, fun id hid => (hmem id).2 (.inr hid), hcr.grows.disputes⟩, (hmem _).2 (.inl rfl)⟩
  · rcases (hmem id).1 hid with rfl | hid
    · exact ho
    · exact h.acquired id hid
  have ht : r'.txns = r.txns := hcr.grows.txns
  rw [ht] at hx
  rcases (hmem id).1 hid with rfl | hid
  · rw [exists_of_setID (hc.sets _ _ hs)] at hx
    exact hd x hx
  · exact hcr.grows.disputes x (h.covered id set hid hs x hx)

private lemma createDisputes_spec (ho : setID o ∈ c.acquired_) (h : Core c.peers fresh s.1) :
    Core c.peers fresh (createDisputes a c o s).1 ∧ Grows s.1 (createDisputes a c o s).1 ∧
      setID o ∈ (createDisputes a c o s).1.compares := by
  unfold createDisputes
  by_cases hold : setID o ∈ s.1.compares
  · simp only [if_pos hold]
    exact ⟨h, Grows.refl _, hold⟩
  simp only [if_neg hold]
  by_cases hs : setID s.1.txns = setID o
  · simp only [if_pos hs]
    exact Created.core hc ho h ⟨h.right, Grows.refl _, rfl⟩ fun x hx => absurd (exists_of_setID hs.symm x) hx
  simp only [if_neg hs]
  obtain ⟨hcr, hd⟩ := created_foldl (a := a) (o := o)
    (s := ({ s.1 with compares := s.1.compares.insert (setID o) () }, s.2)) h.right
  refine Created.core hc ho h hcr fun x hx => ?_
  exact hd (x, exists_ s.1.txns x) (mem_compare.2 ⟨rfl, Bool.eq_not_iff.2 hx⟩)

lemma updateDisputes_spec {node : NodeID} {other : TxSet} (ho : setID other ∈ c.acquired_)
    (hv : ∀ x, c.peers.vote node x = some (exists_ other x)) (h : Core c.peers fresh s.1) :
    Core c.peers (fun n => fresh n ∨ n = node) (updateDisputes a c node other s).1 ∧
      Grows s.1 (updateDisputes a c node other s).1 ∧
      setID other ∈ (updateDisputes a c node other s).1.compares := by
  unfold updateDisputes
  set s' := if setID other ∈ s.1.compares then s else createDisputes a c other s with hs'
  obtain ⟨hco, hg, hmem⟩ : Core c.peers fresh s'.1 ∧ Grows s.1 s'.1 ∧ setID other ∈ s'.1.compares := by
    by_cases hold : setID other ∈ s.1.compares
    · rw [hs', if_pos hold]
      exact ⟨h, Grows.refl _, hold⟩
    · rw [hs', if_neg hold]
      exact createDisputes_spec hc ho h
  refine ⟨⟨fun x d hd => ?_, hco.acquired, fun id set hid hset x hx => ?_⟩,
    ⟨hg.txns, hg.compares, fun x hx => mem_mapVal.2 (hg.disputes x hx)⟩, hmem⟩
  · rw [lookup_mapVal] at hd
    obtain ⟨d', hd', rfl⟩ := map_eq_some_iff.1 hd
    have hr := hco.right x d' hd'
    show Right c.peers _ s'.1.txns x (d'.setVote node (exists_ other (txID d'.tx_))).2
    rw [hr.id]
    exact hr.setVote (hv x)
  · exact mem_mapVal.2 (hco.covered id set hid hset x hx)

/-- After the peers with a position have voted for it, everything is right if it was right for the others. -/
lemma updateSupporters_spec {set : TxSet} (hset : setID set ∈ c.acquired_)
    (h : Core c.peers (fun n => ∀ p, c.currPeerPositions_.lookup n = some p → p.position_ ≠ setID set) s.1)
    (hcmp : ∀ n p, c.currPeerPositions_.lookup n = some p → p.position_ ∈ c.acquired_ →
      p.position_ ∈ s.1.compares ∨ p.position_ = setID set) :
    Core c.peers (fun _ => True) (updateSupporters a c set s).1 ∧ Compared c.peers (updateSupporters a c set s).1 := by
  -- the peers in `rest` have not voted yet
  have hl := List.foldl_rest (l := a.order c.asked c.currPeerPositions_.entries) (s := s)
    (f := fun s e => if e.2.position_ = setID set then updateDisputes a c e.1 set s else s)
    (I := fun rest s => Core c.peers (fun n => ∀ p, c.currPeerPositions_.lookup n = some p → p.position_ = setID set →
        ⟨n, p⟩ ∉ rest) s.1 ∧
      ∀ n p, c.currPeerPositions_.lookup n = some p → p.position_ ∈ c.acquired_ →
        p.position_ ∈ s.1.compares ∨ (p.position_ = setID set ∧ ⟨n, p⟩ ∈ rest)) ?_ ⟨h.mono ?_, ?_⟩
  · refine ⟨hl.1.mono fun n _ p hp _ => by simp, fun n p hp hmem => ?_⟩
    exact (hl.2 n p hp hmem).resolve_right (by simp)
  · intro e he rest s hs
    have hlo := lookup_of_mem_entries (mem_order.1 he)
    by_cases hpos : e.2.position_ = setID set
    · simp only [if_pos hpos]
      obtain ⟨hco, hg, hmem⟩ := updateDisputes_spec (a := a) hc hset (Peers.vote_eq hc hlo hpos hset) hs.1
      refine ⟨hco.mono fun n hn => ?_, fun n p hp ha => ?_⟩
      · by_cases hne : n = e.1
        · exact .inr hne
        refine .inl fun p hp hpos hmem => ?_
        rcases List.mem_cons.1 hmem with rfl | hmem
        · exact hne rfl
        · exact hn p hp hpos hmem
      · rcases hs.2 n p hp ha with hold | ⟨hset, -⟩
        · exact .inl (hg.compares _ hold)
        · exact .inl (hset ▸ hmem)
    · simp only [if_neg hpos]
      refine ⟨hs.1.mono fun n hn p hp hpos' hmem => ?_, fun n p hp ha => (hs.2 n p hp ha).imp_right ?_⟩
      · rcases List.mem_cons.1 hmem with rfl | hmem
        · exact hpos hpos'
        · exact hn p hp hpos' hmem
      rintro ⟨hpos', hmem⟩
      rcases List.mem_cons.1 hmem with rfl | hmem
      · exact absurd hpos' hpos
      · exact ⟨hpos', hmem⟩
  · intro n hn p hp hpos
    exact absurd (mem_order.2 (mem_lookup_iff.1 hp)) (hn p hp hpos)
  · intro n p hp hmem
    exact (hcmp n p hp hmem).imp_right fun hpos => ⟨hpos, mem_order.2 (mem_lookup_iff.1 hp)⟩

end

/-- After all positions that we have the transactions for are compared, everything is right. -/
lemma createAllDisputes_spec (hk : Keyed c.peers) (h : Core c.peers (fun _ => True) s.1) :
    Sound c.peers (createAllDisputes a c s).1 := by
  unfold createAllDisputes
  have hl := fun f => List.foldl_rest (l := a.order c.asked c.currPeerPositions_.entries) (s := s) (f := f)
    (I := fun rest s => Core c.peers (fun _ => True) s.1 ∧
      ∀ n p, c.currPeerPositions_.lookup n = some p → p.position_ ∈ c.acquired_ →
        p.position_ ∈ s.1.compares ∨ ⟨n, p⟩ ∈ rest)
  refine (hl _ ?_ ⟨h, fun n p hp _ => .inr (mem_order.2 (mem_lookup_iff.1 hp))⟩).elim fun hco hcmp =>
    ⟨hco, fun n p hp hmem => (hcmp n p hp hmem).resolve_right (by simp)⟩
  intro e he rest s hs
  cases hset : c.acquired_.lookup e.2.position_ with
  | none =>
    refine ⟨hs.1, fun n p hp hmem => (hs.2 n p hp hmem).imp_right fun hr => ?_⟩
    rcases List.mem_cons.1 hr with rfl | hr
    · exact absurd hmem (lookup_eq_none.1 hset)
    · exact hr
  | some set =>
    have hid := hk.sets _ _ hset
    have hmem : setID set ∈ c.acquired_ := by
      rw [hid]
      exact lookup_isSome.1 (by simp [hset])
    obtain ⟨hco, hg, hcmp⟩ := createDisputes_spec (a := a) hk hmem hs.1
    refine ⟨hco, fun n p hp ha => ?_⟩
    rcases hs.2 n p hp ha with hold | hr
    · exact .inl (hg.compares _ hold)
    · rcases List.mem_cons.1 hr with rfl | hr
      · exact .inl (hid ▸ hcmp)
      · exact .inr hr

end Xrpl.Consensus

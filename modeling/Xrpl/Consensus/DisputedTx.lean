import Xrpl.Lib.HashMap

/-!
# Disputed transactions

A transaction that is in our position and not in a peer's, or the other way round, is disputed.  Of such a transaction
we keep the vote of each peer, the number of votes for and against it, and our own vote.

* `DisputedTx.Tallied`: the two numbers are the numbers of votes;
* `DisputedTx.tallied_setVote`, `tallied_unVote`, `Updated.tallied`: every operation keeps them so;
* `DisputedTx.updated_updateVote`: our vote changes when it is said to, and nothing else that the peers see.
-/

namespace Xrpl.Consensus

open HashMap

/-- How far the threshold for a yes vote has risen. -/
inductive AvalancheState where
  | init
  | mid
  | late
  | stuck
  deriving DecidableEq

/-- The time, in percent of the previous round, at which a state begins, the agreement it requires, and the state
after it. -/
structure AvalancheCutoff where
  consensusTime : Int
  consensusPct : Nat
  next : AvalancheState

/-- Proposal times are in seconds, the other times in milliseconds. -/
structure ConsensusParms where
  proposeFRESHNESS : Int := 20
  proposeINTERVAL : Int := 12
  minConsensusPct : Nat := 80
  ledgerIdleInterval : Int := 15000
  ledgerMinConsensus : Int := 1950
  ledgerMaxConsensus : Int := 15000
  ledgerMinClose : Int := 2000
  ledgerAbandonConsensusFactor : Int := 10
  ledgerAbandonConsensus : Int := 120000
  avMinConsensusTime : Int := 5000
  avalancheCutoffs : AvalancheState → AvalancheCutoff := fun
    | .init => ⟨0, 50, .mid⟩
    | .mid => ⟨50, 65, .late⟩
    | .late => ⟨85, 70, .stuck⟩
    | .stuck => ⟨200, 95, .stuck⟩
  avCtConsensusPct : Nat := 75
  avMinRounds : Nat := 2
  avStalledRounds : Nat := 4

/-- The agreement that is needed, and the next state when it is reached. -/
def getNeededWeight (p : ConsensusParms) (currentState : AvalancheState) (percentTime : Int)
    (currentRounds minimumRounds : Nat) : Nat × Option AvalancheState :=
  let currentCutoff := p.avalancheCutoffs currentState
  if currentCutoff.next ≠ currentState ∧ currentRounds ≥ minimumRounds then
    let nextCutoff := p.avalancheCutoffs currentCutoff.next
    if percentTime ≥ nextCutoff.consensusTime then (nextCutoff.consensusPct, some currentCutoff.next)
    else (currentCutoff.consensusPct, none)
  else (currentCutoff.consensusPct, none)

structure DisputedTx (Tx NodeID : Type) where
  yays_ : Int := 0
  nays_ : Int := 0
  ourVote_ : Bool
  tx_ : Tx
  votes_ : HashMap NodeID Bool := ∅
  currentVoteCounter_ : Nat := 0
  avalancheState_ : AvalancheState := .init
  avalancheCounter_ : Nat := 0

namespace DisputedTx

variable {Tx NodeID : Type}

section

variable (d : DisputedTx Tx NodeID)

def stalled (p : ConsensusParms) (proposing : Bool) (peersUnchanged : Nat) : Bool :=
  let currentCutoff := p.avalancheCutoffs d.avalancheState_
  let nextCutoff := p.avalancheCutoffs currentCutoff.next
  if nextCutoff.consensusTime > currentCutoff.consensusTime ∨ d.avalancheCounter_ < p.avMinRounds then false
  else if proposing ∧ d.currentVoteCounter_ < p.avMinRounds then false
  else if peersUnchanged < p.avStalledRounds ∧ (proposing ∧ d.currentVoteCounter_ < p.avStalledRounds) then false
  else
    let support := (d.yays_ + if proposing && d.ourVote_ then 1 else 0) * 100
    let total := d.nays_ + d.yays_ + if proposing then 1 else 0
    if total = 0 then false
    else
      let weight := support.tdiv total
      weight > p.minConsensusPct || weight < 100 - p.minConsensusPct

/-- The required agreement at this time; the avalanche state moves on with it. -/
def advance (percentTime : Int) (p : ConsensusParms) : Nat × DisputedTx Tx NodeID :=
  let d := { d with avalancheCounter_ := d.avalancheCounter_ + 1 }
  match getNeededWeight p d.avalancheState_ percentTime d.avalancheCounter_ p.avMinRounds with
  | (requiredPct, some newState) => (requiredPct, { d with avalancheState_ := newState, avalancheCounter_ := 0 })
  | (requiredPct, none) => (requiredPct, d)

/-- The position that the votes ask for; our own vote counts in full only while we propose. -/
def newPosition (requiredPct : Nat) (proposing : Bool) : Bool :=
  if proposing then (d.yays_ * 100 + if d.ourVote_ then 100 else 0).tdiv (d.nays_ + d.yays_ + 1) > requiredPct
  else d.yays_ > d.nays_

/-- Update our vote given the votes of the peers; whether it has changed. -/
def updateVote (percentTime : Int) (proposing : Bool) (p : ConsensusParms) :
    Bool × DisputedTx Tx NodeID :=
  if d.ourVote_ ∧ d.nays_ = 0 then (false, d)
  else if ¬d.ourVote_ ∧ d.yays_ = 0 then (false, d)
  else
    let (requiredPct, d) := d.advance percentTime p
    let newPosition := d.newPosition requiredPct proposing
    if newPosition = d.ourVote_ then (false, { d with currentVoteCounter_ := d.currentVoteCounter_ + 1 })
    else (true, { d with currentVoteCounter_ := 0, ourVote_ := newPosition })

end

/-- The numbers of yes and no votes are right. -/
structure Tallied (d : DisputedTx Tx NodeID) : Prop where
  yays : d.yays_ = d.votes_.values.count true
  nays : d.nays_ = d.votes_.values.count false

/-- Our vote is flipped when it is said to have changed, and all that concerns the peers stays. -/
structure Updated (changed : Bool) (d d' : DisputedTx Tx NodeID) : Prop where
  ourVote : d'.ourVote_ = (d.ourVote_ ^^ changed)
  tx : d'.tx_ = d.tx_
  votes : d'.votes_ = d.votes_
  yays : d'.yays_ = d.yays_
  nays : d'.nays_ = d.nays_

lemma updated_updateVote (d : DisputedTx Tx NodeID) (percentTime : Int) (proposing : Bool) (p : ConsensusParms) :
    Updated (d.updateVote percentTime proposing p).1 d (d.updateVote percentTime proposing p).2 := by
  have ha : Updated false d (d.advance percentTime p).2 := by
    unfold advance
    dsimp only
    split <;> exact ⟨by simp, rfl, rfl, rfl, rfl⟩
  unfold updateVote
  split_ifs with h1 h2
  · exact ⟨by simp, rfl, rfl, rfl, rfl⟩
  · exact ⟨by simp, rfl, rfl, rfl, rfl⟩
  dsimp only
  split_ifs with h3
  · exact ⟨ha.ourVote, ha.tx, ha.votes, ha.yays, ha.nays⟩
  · refine ⟨?_, ha.tx, ha.votes, ha.yays, ha.nays⟩
    have ho : d.ourVote_ = (d.advance percentTime p).2.ourVote_ := by simpa using ha.ourVote.symm
    simpa [ho, Bool.eq_not_iff] using h3

variable {d : DisputedTx Tx NodeID}

lemma Updated.tallied {changed : Bool} {d' : DisputedTx Tx NodeID} (h : Updated changed d d')
    (hd : d.Tallied) : d'.Tallied := by
  constructor
  · rw [h.yays, h.votes, hd.yays]
  · rw [h.nays, h.votes, hd.nays]

variable [DecidableEq NodeID]

section

variable (d : DisputedTx Tx NodeID)

def setVote (peer : NodeID) (votesYes : Bool) : Bool × DisputedTx Tx NodeID :=
  match d.votes_.lookup peer with
  | none =>
    let d := { d with votes_ := d.votes_.insert peer votesYes }
    (true, if votesYes then { d with yays_ := d.yays_ + 1 } else { d with nays_ := d.nays_ + 1 })
  | some vote =>
    if votesYes && !vote then
      (true, { d with nays_ := d.nays_ - 1, yays_ := d.yays_ + 1, votes_ := d.votes_.insert peer true })
    else if !votesYes && vote then
      (true, { d with nays_ := d.nays_ + 1, yays_ := d.yays_ - 1, votes_ := d.votes_.insert peer false })
    else (false, d)

def unVote (peer : NodeID) : DisputedTx Tx NodeID :=
  match d.votes_.lookup peer with
  | none => d
  | some vote =>
    let d := if vote then { d with yays_ := d.yays_ - 1 } else { d with nays_ := d.nays_ - 1 }
    { d with votes_ := d.votes_.erase peer }

lemma lookup_votes_setVote (peer : NodeID) (votesYes : Bool) (n : NodeID) :
    (d.setVote peer votesYes).2.votes_.lookup n = if n = peer then some votesYes else d.votes_.lookup n := by
  unfold setVote
  cases hv : d.votes_.lookup peer with
  | none =>
    by_cases hn : n = peer
    · subst hn
      cases votesYes <;> simp
    · cases votesYes <;> simp [hn]
  | some vote =>
    by_cases hn : n = peer
    · subst hn
      cases votesYes <;> cases vote <;> simp [hv]
    · cases votesYes <;> cases vote <;> simp [hn]

lemma lookup_votes_unVote (peer n : NodeID) :
    (d.unVote peer).votes_.lookup n = if n = peer then none else d.votes_.lookup n := by
  unfold unVote
  by_cases hn : n = peer
  · subst hn
    cases hv : d.votes_.lookup n with
    | none => simpa using hv
    | some vote => simp
  · cases hv : d.votes_.lookup peer with
    | none => simp [hn]
    | some vote => cases vote <;> simp [hn]

end

lemma mem_votes_setVote {peer n : NodeID} {votesYes : Bool}
    (h : n ∈ (d.setVote peer votesYes).2.votes_) : n = peer ∨ n ∈ d.votes_ := by
  rw [← AList.lookup_isSome, lookup_votes_setVote] at h
  by_cases hn : n = peer
  · exact .inl hn
  · exact .inr (AList.lookup_isSome.1 (by simpa [hn] using h))

lemma mem_votes_unVote {peer n : NodeID} (h : n ∈ (d.unVote peer).votes_) : n ≠ peer ∧ n ∈ d.votes_ := by
  rw [← AList.lookup_isSome, lookup_votes_unVote] at h
  by_cases hn : n = peer
  · simp [hn] at h
  · exact ⟨hn, AList.lookup_isSome.1 (by simpa [hn] using h)⟩

section

variable (d : DisputedTx Tx NodeID)

variable (peer : NodeID)

@[simp] lemma ourVote_setVote (votesYes : Bool) : (d.setVote peer votesYes).2.ourVote_ = d.ourVote_ := by
  unfold setVote
  split <;> split_ifs <;> rfl

@[simp] lemma tx_setVote (votesYes : Bool) : (d.setVote peer votesYes).2.tx_ = d.tx_ := by
  unfold setVote
  split <;> split_ifs <;> rfl

@[simp] lemma ourVote_unVote : (d.unVote peer).ourVote_ = d.ourVote_ := by
  unfold unVote
  split
  · rfl
  · split_ifs <;> rfl

@[simp] lemma tx_unVote : (d.unVote peer).tx_ = d.tx_ := by
  unfold unVote
  split
  · rfl
  · split_ifs <;> rfl

end

lemma tallied_setVote (h : d.Tallied) (peer : NodeID) (votesYes : Bool) : (d.setVote peer votesYes).2.Tallied := by
  obtain ⟨hy, hn⟩ := h
  unfold setVote
  cases hv : d.votes_.lookup peer with
  | none =>
    rw [← erase_of_lookup_eq_none hv] at hy hn
    cases votesYes <;> constructor <;> simp [values_insert, hy, hn]
  | some vote =>
    cases votesYes <;> cases vote <;> constructor <;> simp [values_insert, values_of_lookup hv, hy, hn]

lemma tallied_unVote (h : d.Tallied) (peer : NodeID) : (d.unVote peer).Tallied := by
  obtain ⟨hy, hn⟩ := h
  unfold unVote
  cases hv : d.votes_.lookup peer with
  | none => exact ⟨hy, hn⟩
  | some vote =>
    rw [values_of_lookup hv] at hy hn
    cases vote <;> constructor <;> simp [hy, hn]

end DisputedTx

end Xrpl.Consensus

import Xrpl.Lib.Yields
import Xrpl.Consensus.RoundTiming

/-!
# The consensus round

The class `Consensus`: a node proposes a set of transactions, compares it with the sets that its peers propose, keeps a
dispute for every transaction on which they differ, and changes its own set until enough of them agree.

What the code asks from outside is a `ConsensusAdaptor`; question number `n` may have any answer, and a hash container
may be iterated in any order.  What the code sends (proposals, sets and transactions that it shares, the accepted
ledger) does not come back into the state and is left out.  A round may start another one when the network has moved to
another ledger; `fuel` bounds how often that happens within one call.
-/

namespace Xrpl.Consensus

/-- A transaction. -/
class TxType (Tx : Type) (TxID : outParam Type) where
  txID : Tx → TxID

open TxType

/-- A set of transactions, with an id that determines its contents.  `compare` lists what is in only one of the two sets,
with a flag for the first one. -/
class TxSetType (TxSet : Type) (Tx TxID SetID : outParam Type) [TxType Tx TxID] where
  setID : TxSet → SetID
  find : TxSet → TxID → Option Tx
  compare : TxSet → TxSet → List (TxID × Bool)
  insert : TxSet → Tx → TxSet
  erase : TxSet → TxID → TxSet
  txID_of_find : ∀ {s x tx}, find s x = some tx → txID tx = x
  isSome_find_of_setID : ∀ {s s'}, setID s = setID s' → ∀ x, (find s x).isSome = (find s' x).isSome
  mem_compare : ∀ {s s' x b}, (x, b) ∈ compare s s' ↔ (find s x).isSome = b ∧ (find s' x).isSome = !b
  isSome_find_insert : ∀ s tx x, (find (insert s tx) x).isSome ↔ x = txID tx ∨ (find s x).isSome
  isSome_find_erase : ∀ s x y, (find (erase s x) y).isSome ↔ y ≠ x ∧ (find s y).isSome

namespace TxSetType

variable {TxSet Tx TxID SetID : Type} [TxType Tx TxID] [TxSetType TxSet Tx TxID SetID]

def exists_ (s : TxSet) (x : TxID) : Bool := (find s x).isSome

end TxSetType

/-- A position that a node takes on the transactions and the close time. -/
structure ConsensusProposal (NodeID LedgerID Position : Type) where
  previousLedger_ : LedgerID
  position_ : Position
  closeTime_ : Int
  time_ : Int
  proposeSeq_ : Nat
  nodeID_ : NodeID

namespace ConsensusProposal

variable {NodeID LedgerID Position : Type}

def kSeqJoin : Nat := 0

def kSeqLeave : Nat := 0xffffffff

variable (p : ConsensusProposal NodeID LedgerID Position)

def isInitial : Bool := p.proposeSeq_ = kSeqJoin

def isBowOut : Bool := p.proposeSeq_ = kSeqLeave

def isStale (cutoff : Int) : Bool := p.time_ ≤ cutoff

def changePosition (newPosition : Position) (newCloseTime now : Int) :
    ConsensusProposal NodeID LedgerID Position :=
  { p with
    position_ := newPosition, closeTime_ := newCloseTime, time_ := now,
    proposeSeq_ := if p.proposeSeq_ ≠ kSeqLeave then p.proposeSeq_ + 1 else p.proposeSeq_ }

def bowOut (now : Int) :
    ConsensusProposal NodeID LedgerID Position :=
  { p with time_ := now, proposeSeq_ := kSeqLeave }

end ConsensusProposal

/-- What the round reads of the ledger that it builds on. -/
structure ConsensusLedger (LedgerID : Type) where
  id : LedgerID
  seq : Nat
  closeTimeResolution : Int
  closeAgree : Bool
  closeTime : Int
  parentCloseTime : Int

/-- The close times of the first proposals of the peers, with their numbers, and our own. -/
structure ConsensusCloseTimes where
  peers : HashMap Int Nat := ∅
  self : Int := 0

/-- Our position in the round. -/
structure ConsensusResult (NodeID LedgerID TxSet : Type) {Tx TxID SetID : Type}
    [TxType Tx TxID] [TxSetType TxSet Tx TxID SetID] where
  txns : TxSet
  position : ConsensusProposal NodeID LedgerID SetID
  disputes : HashMap TxID (DisputedTx Tx NodeID) := ∅
  compares : HashSet SetID := ∅
  roundTime : ConsensusTimer := {}
  state : ConsensusState := .no
  proposers : Nat := 0

/-- The answers to the questions of the round, by their number.  Of the trusted validators only the quorum and the
numbers of all, lagging and silent ones are used. -/
structure ConsensusAdaptor (NodeID LedgerID TxSet : Type) {Tx TxID SetID : Type}
    [TxType Tx TxID] [TxSetType TxSet Tx TxID SetID] where
  parms : ConsensusParms := {}
  now : Nat → Int
  acquireLedger : Nat → LedgerID → Option (ConsensusLedger LedgerID)
  acquireTxSet : Nat → SetID → Option TxSet
  hasOpenTransactions : Nat → Bool
  proposersValidated : Nat → LedgerID → Nat
  proposersFinished : Nat → ConsensusLedger LedgerID → LedgerID → Nat
  getPrevLedger : Nat → LedgerID → ConsensusLedger LedgerID → ConsensusMode → LedgerID
  onClose : Nat → ConsensusLedger LedgerID → Int → ConsensusMode → TxSet × ConsensusProposal NodeID LedgerID SetID
  getValidLedgerIndex : Nat → Nat
  getQuorumKeys : Nat → Nat × Nat
  laggards : Nat → Nat → Nat × Nat
  validator : Nat → Bool
  haveValidated : Nat → Bool
  order : Nat → {α : Type} → List α → List α
  order_perm : ∀ n {α : Type} (l : List α), (order n l).Perm l

end Xrpl.Consensus

open Xrpl.Consensus in
/-- The members of the class, and the number of questions asked so far. -/
structure Xrpl.Consensus (NodeID LedgerID TxSet : Type) {Tx TxID SetID : Type}
    [TxType Tx TxID] [TxSetType TxSet Tx TxID SetID] where
  phase_ : ConsensusPhase := .accepted
  mode_ : ConsensusMode := .observing
  firstRound_ : Bool := true
  haveCloseTimeConsensus_ : Bool := false
  convergePercent_ : Int := 0
  openTime_ : ConsensusTimer := {}
  closeResolution_ : Int := kLedgerDefaultTimeResolution
  closeTimeAvalancheState_ : AvalancheState := .init
  prevRoundTime_ : Int := 0
  now_ : Int := 0
  prevCloseTime_ : Int := 0
  prevLedgerID_ : LedgerID
  previousLedger_ : ConsensusLedger LedgerID
  acquired_ : HashMap SetID TxSet := ∅
  result_ : Option (ConsensusResult NodeID LedgerID TxSet) := none
  rawCloseTimes_ : ConsensusCloseTimes := {}
  peerUnchangedCounter_ : Nat := 0
  establishCounter_ : Nat := 0
  currPeerPositions_ : HashMap NodeID (ConsensusProposal NodeID LedgerID SetID) := ∅
  recentPeerPositions_ : HashMap NodeID (List (ConsensusProposal NodeID LedgerID SetID)) := ∅
  prevProposers_ : Nat := 0
  deadNodes_ : HashSet NodeID := ∅
  asked : Nat := 0

namespace Xrpl.Consensus

open TxType TxSetType

variable {NodeID LedgerID TxSet Tx TxID SetID : Type} [TxType Tx TxID] [TxSetType TxSet Tx TxID SetID]

section

variable (c : Consensus NodeID LedgerID TxSet)

def ask : Consensus NodeID LedgerID TxSet := { c with asked := c.asked + 1 }

def asCloseTime (raw : Int) : Int := roundCloseTime raw c.closeResolution_

/-- Change our position and the number of rounds in which no peer has changed a vote. -/
def setStance (s : ConsensusResult NodeID LedgerID TxSet × Nat) :
    Consensus NodeID LedgerID TxSet :=
  { c with result_ := some s.1, peerUnchangedCounter_ := s.2 }

/-- Revoke our proposal, if any, and cease to propose until the round ends. -/
def leaveConsensus : Consensus NodeID LedgerID TxSet :=
  if c.mode_ = .proposing then
    { c with
      result_ := c.result_.map fun r => if r.position.isBowOut then r else { r with position := r.position.bowOut c.now_ }
      mode_ := .observing }
  else c

end

variable [DecidableEq NodeID] [DecidableEq LedgerID] [DecidableEq TxID] [DecidableEq SetID]
  (a : ConsensusAdaptor NodeID LedgerID TxSet) (c : Consensus NodeID LedgerID TxSet)

/-- The votes of the peers on a new dispute, as far as their sets are known. -/
def initialVotes (x : TxID) (s : DisputedTx Tx NodeID × Nat) : DisputedTx Tx NodeID × Nat :=
  (a.order c.asked c.currPeerPositions_.entries).foldl
    (fun s e =>
      match c.acquired_.lookup e.2.position_ with
      | some set =>
        let (changed, dtx) := s.1.setVote e.1 (exists_ set x)
        (dtx, if changed then 0 else s.2)
      | none => s)
    s

/-- One difference between our set and `o`. -/
def createDispute (o : TxSet) (s : ConsensusResult NodeID LedgerID TxSet × Nat) (diff : TxID × Bool) :
    ConsensusResult NodeID LedgerID TxSet × Nat :=
  match (if diff.2 then find s.1.txns diff.1 else find o diff.1) with
  | none => s
  | some tx =>
    if txID tx ∈ s.1.disputes then s
    else
      let (dtx, counter) := initialVotes a c (txID tx) ({ ourVote_ := exists_ s.1.txns (txID tx), tx_ := tx }, s.2)
      ({ s.1 with disputes := s.1.disputes.insert (txID tx) dtx }, counter)

def createDisputes (o : TxSet) (s : ConsensusResult NodeID LedgerID TxSet × Nat) :
    ConsensusResult NodeID LedgerID TxSet × Nat :=
  if setID o ∈ s.1.compares then s
  else
    let r := { s.1 with compares := s.1.compares.insert (setID o) () }
    if setID r.txns = setID o then (r, s.2)
    else (compare r.txns o).foldl (createDispute a c o) (r, s.2)

def updateDisputes (node : NodeID) (other : TxSet) (s : ConsensusResult NodeID LedgerID TxSet × Nat) :
    ConsensusResult NodeID LedgerID TxSet × Nat :=
  let s := if setID other ∈ s.1.compares then s else createDisputes a c other s
  let vote := fun d : DisputedTx Tx NodeID => d.setVote node (exists_ other (txID d.tx_))
  ({ s.1 with disputes := s.1.disputes.mapVal fun _ d => (vote d).2 },
    if s.1.disputes.entries.any fun e => (vote e.2).1 then 0 else s.2)

/-- Update the disputes for all peers whose position is the given set. -/
def updateSupporters (set : TxSet) (s : ConsensusResult NodeID LedgerID TxSet × Nat) :
    ConsensusResult NodeID LedgerID TxSet × Nat :=
  (a.order c.asked c.currPeerPositions_.entries).foldl
    (fun s e => if e.2.position_ = setID set then updateDisputes a c e.1 set s else s) s

def unVote (peerID : NodeID) : Consensus NodeID LedgerID TxSet :=
  { c with
    result_ := c.result_.map fun r => { r with disputes := r.disputes.mapVal fun _ d => d.unVote peerID } }

def gotTxSet (now : Int) (txSet : TxSet) (c : Consensus NodeID LedgerID TxSet) : Consensus NodeID LedgerID TxSet :=
  if c.phase_ = .accepted then c
  else
    let c := { c with now_ := now }
    if setID txSet ∈ c.acquired_ then c
    else
      let c := { c with acquired_ := c.acquired_.insert (setID txSet) txSet }
      match c.result_ with
      | none => c
      | some r => (c.setStance (updateSupporters a c txSet (r, c.peerUnchangedCounter_))).ask

def storePosition (newPeerProp : ConsensusProposal NodeID LedgerID SetID) (c : Consensus NodeID LedgerID TxSet) :
    Consensus NodeID LedgerID TxSet :=
  let t := newPeerProp.closeTime_
  let peers := c.rawCloseTimes_.peers
  { c with
    currPeerPositions_ := c.currPeerPositions_.insert newPeerProp.nodeID_ newPeerProp
    rawCloseTimes_.peers :=
      if newPeerProp.isInitial then peers.insert t ((peers.lookup t).getD 0 + 1) else peers }

/-- Acquire the set of a new position, or vote for the peer when we have it. -/
def usePosition (newPeerProp : ConsensusProposal NodeID LedgerID SetID) (c : Consensus NodeID LedgerID TxSet) :
    Consensus NodeID LedgerID TxSet :=
  match c.acquired_.lookup newPeerProp.position_ with
  | none =>
    match a.acquireTxSet c.asked newPeerProp.position_ with
    | some set => gotTxSet a c.now_ set c.ask
    | none => c.ask
  | some set =>
    match c.result_ with
    | none => c
    | some r => (c.setStance (updateDisputes a c newPeerProp.nodeID_ set (r, c.peerUnchangedCounter_))).ask

/-- Handle a replayed or new proposal; whether it is to be shared. -/
def peerProposalInternal (now : Int) (newPeerProp : ConsensusProposal NodeID LedgerID SetID)
    (c : Consensus NodeID LedgerID TxSet) : Bool × Consensus NodeID LedgerID TxSet :=
  if c.phase_ = .accepted then (false, c)
  else
    let c := { c with now_ := now }
    let peerID := newPeerProp.nodeID_
    if newPeerProp.previousLedger_ ≠ c.prevLedgerID_ then (false, c)
    else if peerID ∈ c.deadNodes_ then (false, c)
    else if (c.currPeerPositions_.lookup peerID).any fun p => newPeerProp.proposeSeq_ ≤ p.proposeSeq_ then (false, c)
    else if newPeerProp.isBowOut then
      (true, { c.unVote peerID with
        currPeerPositions_ := c.currPeerPositions_.erase peerID, deadNodes_ := c.deadNodes_.insert peerID () })
    else (true, usePosition a newPeerProp (storePosition newPeerProp c))

def peerProposal (now : Int) (newPeerPos : ConsensusProposal NodeID LedgerID SetID)
    (c : Consensus NodeID LedgerID TxSet) : Bool × Consensus NodeID LedgerID TxSet :=
  let peerID := newPeerPos.nodeID_
  let props := (c.recentPeerPositions_.lookup peerID).getD []
  let props := (if props.length ≥ 10 then props.tail else props) ++ [newPeerPos]
  peerProposalInternal a now newPeerPos
    { c with recentPeerPositions_ := c.recentPeerPositions_.insert peerID props }

/-- Replay the recent proposals for the ledger that we work on now. -/
def playbackProposals : Consensus NodeID LedgerID TxSet :=
  (a.order c.asked c.recentPeerPositions_.entries).foldl
    (fun c e =>
      e.2.foldl
        (fun c pos => if pos.previousLedger_ = c.prevLedgerID_ then (peerProposalInternal a c.now_ pos c).2 else c) c)
    c.ask

/-- Create disputes with the positions of the peers that we have the transactions for. -/
def createAllDisputes (s : ConsensusResult NodeID LedgerID TxSet × Nat) : ConsensusResult NodeID LedgerID TxSet × Nat :=
  (a.order c.asked c.currPeerPositions_.entries).foldl
    (fun s e =>
      match c.acquired_.lookup e.2.position_ with
      | some set => createDisputes a c set s
      | none => s)
    s

def closeLedger : Consensus NodeID LedgerID TxSet :=
  let (txns, position) := a.onClose c.asked c.previousLedger_ c.now_ c.mode_
  let r : ConsensusResult NodeID LedgerID TxSet := { txns, position, roundTime := .reset (a.now c.asked) }
  let c := { c.ask with
    phase_ := .establish, rawCloseTimes_.self := c.now_, establishCounter_ := 0,
    acquired_ := c.acquired_.emplace (setID txns) txns }
  c.setStance (createAllDisputes a c (r, 0))

/-- The time since the prior ledger was closed: by its close time when there was consensus on it, and by our own
otherwise. -/
def sinceClose : Int :=
  let prevCloseTime := c.previousLedger_.closeTime
  let previousCloseCorrect := c.mode_ ≠ .wrongLedger ∧ c.previousLedger_.closeAgree ∧
    prevCloseTime ≠ c.previousLedger_.parentCloseTime + 1
  let lastCloseTime := if previousCloseCorrect then prevCloseTime else c.prevCloseTime_
  (c.now_ - lastCloseTime) * 1000

def phaseOpen : Consensus NodeID LedgerID TxSet :=
  let openTime := c.openTime_.tick (a.now c.asked)
  let idleInterval := max a.parms.ledgerIdleInterval (2 * c.previousLedger_.closeTimeResolution * 1000)
  let close := shouldCloseLedger (a.hasOpenTransactions c.asked) c.prevProposers_ c.currPeerPositions_.entries.length
    (a.proposersValidated c.asked c.prevLedgerID_) c.prevRoundTime_ c.sinceClose openTime.read idleInterval a.parms
  let c := { c.ask with openTime_ := openTime }
  if close then closeLedger a c else c

/-! ### The establish phase -/

/-- Remove the peers whose proposal is stale; the close times that the others propose. -/
def removeStale : Consensus NodeID LedgerID TxSet × List Int :=
  let peerCutoff := c.now_ - a.parms.proposeFRESHNESS
  (a.order c.asked c.currPeerPositions_.entries).foldl
    (fun s e =>
      if e.2.isStale peerCutoff then
        ({ s.1.unVote e.2.nodeID_ with currPeerPositions_ := s.1.currPeerPositions_.erase e.1 }, s.2)
      else (s.1, c.asCloseTime e.2.closeTime_ :: s.2))
    (c.ask, [])

/-- Update our vote on one dispute, and our set when the vote changes. -/
def updateOurVote (txns : TxSet) (s : HashMap TxID (DisputedTx Tx NodeID) × Option TxSet) (x : TxID) :
    HashMap TxID (DisputedTx Tx NodeID) × Option TxSet :=
  match s.1.lookup x with
  | none => s
  | some dispute =>
    let (changed, dispute) := dispute.updateVote c.convergePercent_ (c.mode_ = .proposing) a.parms
    let mutableSet := s.2.getD txns
    (s.1.insert x dispute,
      if changed then
        some (if dispute.ourVote_ then TxSetType.insert mutableSet dispute.tx_ else TxSetType.erase mutableSet x)
      else s.2)

/-- Update our votes on all disputes; our new set, if there is one. -/
def updateOurVotes (r : ConsensusResult NodeID LedgerID TxSet) : HashMap TxID (DisputedTx Tx NodeID) × Option TxSet :=
  (a.order c.asked r.disputes.keys).foldl (updateOurVote a c r.txns) (r.disputes, none)

def updateCloseTime (ourTime : Int) (times : List Int) : Int × Consensus NodeID LedgerID TxSet :=
  if c.currPeerPositions_.entries.isEmpty then (ourTime, { c with haveCloseTimeConsensus_ := true })
  else
    let (neededWeight, newState) := getNeededWeight a.parms c.closeTimeAvalancheState_ c.convergePercent_ 0 0
    let proposing := c.mode_ = .proposing
    let participants := c.currPeerPositions_.entries.length + if proposing then 1 else 0
    let vote := voteCloseTime (if proposing then ourTime :: times else times)
      (participantsNeeded participants neededWeight) (participantsNeeded participants a.parms.avCtConsensusPct)
    (vote.consensusCloseTime,
      { c with
        closeTimeAvalancheState_ := newState.getD c.closeTimeAvalancheState_
        haveCloseTimeConsensus_ := vote.haveCloseTimeConsensus })

def adoptSet (r : ConsensusResult NodeID LedgerID TxSet) (ourNewSet : TxSet) (consensusCloseTime : Int) :
    Consensus NodeID LedgerID TxSet :=
  let newID := setID ourNewSet
  let r := { r with txns := ourNewSet, position := r.position.changePosition newID consensusCloseTime c.now_ }
  if newID ∈ c.acquired_ then c.setStance (r, c.peerUnchangedCounter_)
  else
    let c := { c with acquired_ := c.acquired_.insert newID ourNewSet }
    (c.setStance (updateSupporters a c ourNewSet (r, c.peerUnchangedCounter_))).ask

/-- Vote with the fresh positions of the peers, and change our position when the votes ask for it. -/
def revisePosition (times : List Int) (c : Consensus NodeID LedgerID TxSet)
    (r : ConsensusResult NodeID LedgerID TxSet) : Consensus NodeID LedgerID TxSet :=
  let (disputes, mutableSet) := updateOurVotes a c r
  let ourTime := c.asCloseTime r.position.closeTime_
  let (consensusCloseTime, c) := updateCloseTime a c.ask ourTime times
  let ourCutoff := c.now_ - a.parms.proposeINTERVAL
  let ourNewSet := mutableSet.or
    (if consensusCloseTime ≠ ourTime ∨ r.position.isStale ourCutoff then some r.txns else none)
  let r := { r with disputes := disputes }
  match ourNewSet with
  | none => c.setStance (r, c.peerUnchangedCounter_)
  | some ourNewSet => adoptSet a c r ourNewSet consensusCloseTime

def updateOurPositions : Consensus NodeID LedgerID TxSet :=
  let (c, times) := removeStale a c
  match c.result_ with
  | none => c
  | some r => revisePosition a times c r

def subSize (m n : Nat) : Nat := (m + 2 ^ 64 - n) % 2 ^ 64

def kMaxPausePhase : Nat := 4

section

variable (r : ConsensusResult NodeID LedgerID TxSet)

def shouldPause : Bool :=
  let seq := c.previousLedger_.seq
  let ahead := seq - min (a.getValidLedgerIndex c.asked) seq
  let (quorum, totalValidators) := a.getQuorumKeys c.asked
  let (laggards, offline) := a.laggards c.asked seq
  if ahead = 0 ∨ laggards = 0 ∨ totalValidators = 0 ∨ ¬a.validator c.asked ∨ ¬a.haveValidated c.asked ∨
      r.roundTime.read > a.parms.ledgerMaxConsensus then false
  else
    let phase := (ahead - 1) % (kMaxPausePhase + 1)
    if phase = 0 then laggards + offline > subSize totalValidators quorum
    else if phase = kMaxPausePhase then true
    else
      let nonLaggards := Float32.ofNat (subSize totalValidators (laggards + offline))
      let quorumRatio := Float32.ofNat quorum / Float32.ofNat totalValidators
      let allowedDissent := 1 - quorumRatio
      let phaseFactor := Float32.ofNat phase / Float32.ofNat kMaxPausePhase
      nonLaggards / Float32.ofNat totalValidators < quorumRatio + allowedDissent * phaseFactor

def haveConsensus : Bool × Consensus NodeID LedgerID TxSet :=
  let positions := c.currPeerPositions_.entries
  let agree := positions.countP fun e => e.2.position_ = r.position.position_
  let proposing : Bool := c.mode_ = .proposing
  let stalled := c.haveCloseTimeConsensus_ && !r.disputes.entries.isEmpty &&
    r.disputes.entries.all fun e => e.2.stalled a.parms proposing c.peerUnchangedCounter_
  let currentFinished := a.proposersFinished c.asked c.previousLedger_ c.prevLedgerID_
  let state := checkConsensus c.prevProposers_ positions.length agree currentFinished c.prevRoundTime_ r.roundTime.read
    stalled a.parms proposing
  let c := { c.ask with result_ := some { r with state := state } }
  let kMinimumCounter := 4 * a.parms.avMinRounds
  if state = .no then (false, c)
  else if state = .expired then
    if c.establishCounter_ < kMinimumCounter then (false, c) else (true, c.leaveConsensus)
  else (true, c)

/-- Accept the round when there is consensus on the transactions and on the close time. -/
def acceptRound : Consensus NodeID LedgerID TxSet :=
  if shouldPause a c r then c.ask
  else
    let (consensus, c) := haveConsensus a c.ask r
    if consensus ∧ c.haveCloseTimeConsensus_ then
      { c with
        prevProposers_ := c.currPeerPositions_.entries.length, prevRoundTime_ := r.roundTime.read, phase_ := .accepted }
    else c

def measureRound : Consensus NodeID LedgerID TxSet :=
  let roundTime := r.roundTime.tick (a.now c.asked)
  { c.ask with
    result_ := some { r with roundTime := roundTime, proposers := c.currPeerPositions_.entries.length }
    peerUnchangedCounter_ := c.peerUnchangedCounter_ + 1, establishCounter_ := c.establishCounter_ + 1,
    convergePercent_ := (roundTime.read * 100).tdiv (max c.prevRoundTime_ a.parms.avMinConsensusTime) }

end

/-- Work with the peers to reach consensus.  The code asserts that there is a position. -/
def phaseEstablish : Consensus NodeID LedgerID TxSet :=
  match c.result_ with
  | none => c
  | some r =>
    let early : Bool := (r.roundTime.tick (a.now c.asked)).read < a.parms.ledgerMinConsensus
    let c := measureRound a c r
    if early then c
    else
      let c := updateOurPositions a c
      match c.result_ with
      | none => c
      | some r => acceptRound a c r

/-- How a new round is started: the time, the id of the prior ledger, the ledger we have, and the mode. -/
abbrev Restart (NodeID LedgerID TxSet : Type) {Tx TxID SetID : Type} [TxType Tx TxID] [TxSetType TxSet Tx TxID SetID] :=
  Int → LedgerID → ConsensusLedger LedgerID → ConsensusMode → Consensus NodeID LedgerID TxSet →
    Option (Consensus NodeID LedgerID TxSet)

/-- The first part of `handleWrongLedger`: leave the round, and replay the proposals for the other ledger. -/
def switchLedger (lgrId : LedgerID) (c : Consensus NodeID LedgerID TxSet) : Consensus NodeID LedgerID TxSet :=
  let c := c.leaveConsensus
  if c.prevLedgerID_ ≠ lgrId then
    playbackProposals a
      { c with
        prevLedgerID_ := lgrId, result_ := c.result_.map fun r => { r with disputes := ∅, compares := ∅ },
        currPeerPositions_ := ∅, rawCloseTimes_.peers := ∅, deadNodes_ := ∅ }
  else c

def handleWrongLedger (restart : Restart NodeID LedgerID TxSet) (lgrId : LedgerID)
    (c : Consensus NodeID LedgerID TxSet) : Option (Consensus NodeID LedgerID TxSet) :=
  let c := switchLedger a lgrId c
  if c.previousLedger_.id = c.prevLedgerID_ then some c
  else
    match a.acquireLedger c.asked c.prevLedgerID_ with
    | some newLedger => restart c.now_ lgrId newLedger .switchedLedger c.ask
    | none => some { c.ask with mode_ := .wrongLedger }

def checkLedger (restart : Restart NodeID LedgerID TxSet) (c : Consensus NodeID LedgerID TxSet) :
    Option (Consensus NodeID LedgerID TxSet) :=
  let netLgr := a.getPrevLedger c.asked c.prevLedgerID_ c.previousLedger_ c.mode_
  if netLgr ≠ c.prevLedgerID_ ∨ c.previousLedger_.id ≠ c.prevLedgerID_ then handleWrongLedger a restart netLgr c.ask
  else some c.ask

def runPhase : Consensus NodeID LedgerID TxSet :=
  match c.phase_ with
  | .open_ => phaseOpen a c
  | .establish => phaseEstablish a c
  | .accepted => c

/-- `timerEntry`, where `restart` starts a new round. -/
def timerEntryWith (restart : Restart NodeID LedgerID TxSet) (now : Int) (c : Consensus NodeID LedgerID TxSet) :
    Option (Consensus NodeID LedgerID TxSet) :=
  if c.phase_ = .accepted then some c
  else (checkLedger a restart { c with now_ := now }).map (runPhase a)

/-- The state at the start of a round, with the recent proposals replayed. -/
def openRound (now : Int) (prevLedgerID : LedgerID) (prevLedger : ConsensusLedger LedgerID) (mode : ConsensusMode)
    (c : Consensus NodeID LedgerID TxSet) : Consensus NodeID LedgerID TxSet :=
  playbackProposals a
    { c.ask with
      phase_ := .open_, mode_ := mode, now_ := now, prevLedgerID_ := prevLedgerID, previousLedger_ := prevLedger,
      result_ := none, convergePercent_ := 0, closeTimeAvalancheState_ := .init, haveCloseTimeConsensus_ := false,
      openTime_ := .reset (a.now c.asked), currPeerPositions_ := ∅, acquired_ := ∅, rawCloseTimes_ := {}, deadNodes_ := ∅,
      closeResolution_ :=
        getNextLedgerTimeResolution prevLedger.closeTimeResolution prevLedger.closeAgree (prevLedger.seq + 1) }

def startRoundInternal (a : ConsensusAdaptor NodeID LedgerID TxSet) (fuel : Nat) : Restart NodeID LedgerID TxSet :=
  fun now prevLedgerID prevLedger mode c =>
    match fuel with
    | 0 => none
    | fuel + 1 =>
      let c := openRound a now prevLedgerID prevLedger mode c
      -- we may be falling behind: do not wait for the timer
      if c.currPeerPositions_.entries.length > c.prevProposers_ / 2 then
        timerEntryWith a (startRoundInternal a fuel) c.now_ c
      else some c

def timerEntry (fuel : Nat) (now : Int) (c : Consensus NodeID LedgerID TxSet) :
    Option (Consensus NodeID LedgerID TxSet) :=
  timerEntryWith a (startRoundInternal a fuel) now c

def startRound (fuel : Nat) (now : Int) (prevLedgerID : LedgerID) (prevLedger : ConsensusLedger LedgerID)
    (nowUntrusted : List NodeID) (proposing : Bool) (c : Consensus NodeID LedgerID TxSet) :
    Option (Consensus NodeID LedgerID TxSet) :=
  let c :=
    if c.firstRound_ then
      { c with
        prevRoundTime_ := a.parms.ledgerIdleInterval, prevCloseTime_ := prevLedger.closeTime, firstRound_ := false }
    else { c with prevCloseTime_ := c.rawCloseTimes_.self }
  let c := { c with recentPeerPositions_ := nowUntrusted.foldl (fun m n => m.erase n) c.recentPeerPositions_ }
  let startMode := if proposing then ConsensusMode.proposing else .observing
  if prevLedger.id = prevLedgerID then startRoundInternal a fuel now prevLedgerID prevLedger startMode c
  else
    match a.acquireLedger c.asked prevLedgerID with
    | some newLedger => startRoundInternal a fuel now prevLedgerID newLedger startMode c.ask
    | none => startRoundInternal a fuel now prevLedgerID prevLedger .wrongLedger c.ask

def simulate (now : Int) (consensusDelay : Option Int) (c : Consensus NodeID LedgerID TxSet) :
    Consensus NodeID LedgerID TxSet :=
  let c := closeLedger a { c with now_ := now }
  match c.result_ with
  | none => c
  | some r =>
    let proposers := c.currPeerPositions_.entries.length
    let r := { r with roundTime := r.roundTime.tickFixed (consensusDelay.getD 100), proposers := proposers }
    { c with result_ := some r, prevProposers_ := proposers, prevRoundTime_ := r.roundTime.read, phase_ := .accepted }

end Xrpl.Consensus

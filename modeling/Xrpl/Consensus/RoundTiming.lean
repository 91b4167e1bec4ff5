import Xrpl.Consensus.DisputedTx

/-!
# Decisions about time and agreement in a consensus round

When to close the open ledger, whether consensus has been reached, and how close times are rounded and voted on.  Times
of the network clock and their resolution are in seconds, durations of the steady clock in milliseconds.
-/

namespace Xrpl.Consensus

inductive ConsensusMode where
  | proposing
  | observing
  | wrongLedger
  | switchedLedger
  deriving DecidableEq

inductive ConsensusPhase where
  | open_
  | establish
  | accepted
  deriving DecidableEq

inductive ConsensusState where
  | no
  | movedOn
  | expired
  | yes
  deriving DecidableEq

structure ConsensusTimer where
  start_ : Int := 0
  dur_ : Int := 0

namespace ConsensusTimer

def read (t : ConsensusTimer) : Int := t.dur_

def tickFixed (t : ConsensusTimer) (fixed : Int) : ConsensusTimer := { t with dur_ := t.dur_ + fixed }

def reset (tp : Int) : ConsensusTimer := ⟨tp, 0⟩

def tick (t : ConsensusTimer) (tp : Int) : ConsensusTimer := { t with dur_ := tp - t.start_ }

end ConsensusTimer

def kLedgerPossibleTimeResolutions : List Int := [10, 20, 30, 60, 90, 120]

def kLedgerDefaultTimeResolution : Int := 30

def kIncreaseLedgerTimeResolutionEvery : Nat := 8

def kDecreaseLedgerTimeResolutionEvery : Nat := 1

def getNextLedgerTimeResolution (previousResolution : Int) (previousAgree : Bool) (ledgerSeq : Nat) : Int :=
  let iter := kLedgerPossibleTimeResolutions.idxOf previousResolution
  if iter = kLedgerPossibleTimeResolutions.length then previousResolution
  else if ¬previousAgree ∧ ledgerSeq % kDecreaseLedgerTimeResolutionEvery = 0 then
    (kLedgerPossibleTimeResolutions[iter + 1]?).getD previousResolution
  else if previousAgree ∧ ledgerSeq % kIncreaseLedgerTimeResolutionEvery = 0 ∧ iter ≠ 0 then
    (kLedgerPossibleTimeResolutions[iter - 1]?).getD previousResolution
  else previousResolution

def roundCloseTime (closeTime closeResolution : Int) : Int :=
  if closeTime = 0 then closeTime
  else
    let closeTime := closeTime + closeResolution.tdiv 2
    closeTime - closeTime.tmod closeResolution

/-- How many of the participants must agree to reach a given threshold. -/
def participantsNeeded (participants percent : Nat) : Nat :=
  let result := (participants * percent + percent / 2) / 100
  if result = 0 then 1 else result

/-- The close time so far with enough votes, the number of votes another one needs to take its place, and whether there
is consensus on it. -/
structure CloseTimeVote where
  consensusCloseTime : Int := 0
  threshVote : Nat
  haveCloseTimeConsensus : Bool := false

/-- Count the votes for the close times in increasing order; among times with equally many votes the last one wins. -/
def voteCloseTime (times : List Int) (threshVote threshConsensus : Nat) : CloseTimeVote :=
  (times.dedup.insertionSort (· ≤ ·)).foldl
    (fun s t =>
      let v := times.count t
      if v ≥ s.threshVote then ⟨t, v, s.haveCloseTimeConsensus || v ≥ threshConsensus⟩ else s)
    { threshVote := threshVote }

def shouldCloseLedger (anyTransactions : Bool) (prevProposers proposersClosed proposersValidated : Nat)
    (prevRoundTime timeSincePrevClose openTime idleInterval : Int) (parms : ConsensusParms) : Bool :=
  if prevRoundTime < -1000 ∨ prevRoundTime > 600000 ∨ timeSincePrevClose > 600000 then true
  else if proposersClosed + proposersValidated > prevProposers / 2 then true
  else if ¬anyTransactions then timeSincePrevClose ≥ idleInterval
  else if openTime < parms.ledgerMinClose then false
  else if openTime < prevRoundTime.tdiv 2 then false
  else true

def checkConsensusReached (agreeing total : Nat) (countSelf : Bool) (minConsensusPct : Nat) (reachedMax stalled : Bool) :
    Bool :=
  if total = 0 then reachedMax
  else if stalled then true
  else
    let agreeing := if countSelf then agreeing + 1 else agreeing
    let total := if countSelf then total + 1 else total
    agreeing * 100 / total ≥ minConsensusPct

def checkConsensus (prevProposers currentProposers currentAgree currentFinished : Nat)
    (previousAgreeTime currentAgreeTime : Int) (stalled : Bool) (parms : ConsensusParms) (proposing : Bool) :
    ConsensusState :=
  if currentAgreeTime ≤ parms.ledgerMinConsensus then .no
  else if currentProposers < prevProposers * 3 / 4 ∧ currentAgreeTime < previousAgreeTime + parms.ledgerMinConsensus then
    .no
  else if checkConsensusReached currentAgree currentProposers proposing parms.minConsensusPct
      (currentAgreeTime > parms.ledgerMaxConsensus) stalled then .yes
  else if checkConsensusReached currentFinished currentProposers false parms.minConsensusPct
      (currentAgreeTime > parms.ledgerMaxConsensus) false then .movedOn
  else
    let maxAgreeTime := previousAgreeTime * parms.ledgerAbandonConsensusFactor
    if currentAgreeTime > max parms.ledgerMaxConsensus (min maxAgreeTime parms.ledgerAbandonConsensus) then .expired
    else .no

end Xrpl.Consensus

import Xrpl.TxQ.Apply

/-!
# `TxQ::accept` and `TxQ::processClosedLedger`

`accept` walks through the candidates in the order of their fees and applies those that pay enough, each account's
sequences in their order; `acceptStep` is one round of its loop.  `Call` are the calls of the queue, and `step` is one
call.
-/

namespace Xrpl.TxQ

variable {V : Type}

def expireLoop (ledgerSeq : UInt32) : ℕ → Option Handle → TxQ → Except Fault TxQ
  | _, none, q => .ok q
  | 0, some _, _ => .error .endless
  | fuel + 1, some candidateIter, q => do
    let candidate ← q.deref candidateIter
    if candidate.lastValid.any fun lastValid => lastValid ≤ ledgerSeq then
      let _ ← q.accountAt candidate.account
      let q := q.updateAccount candidate.account fun a => { a with dropPenalty := true }
      let (candidateIter, q) ← q.erase candidateIter
      expireLoop ledgerSeq fuel candidateIter q
    else
      let candidateIter ← q.next candidateIter
      expireLoop ledgerSeq fuel candidateIter q

def processClosedLedger (q : TxQ) (app : App V) (view : V) (timeLeap : Bool) : Except Fault TxQ := do
  let feeMetrics := q.feeMetrics.update q.setup app view timeLeap
  let maxSize := if timeLeap then q.maxSize
    else some (max (uint64 (feeMetrics.txnsExpected * q.setup.ledgersInQueue)) q.setup.queueSizeMin)
  let q ← expireLoop (app.seq view) q.byFee.length q.byFee.head? { q with feeMetrics, maxSize }
  pure { q with byAccount := q.byAccount.filter fun _ a => a.getTxnCount ≠ 0 }

/-- The state of the loop; `attempts` are the candidates that were applied or tried, the last one first. -/
structure AcceptState (V : Type) where
  queue : TxQ
  view : V
  candidateIter : Option Handle
  ledgerChanged : Bool := false
  attempts : List Handle := []

inductive Round (V : Type)
  | next (state : AcceptState V)
  | leave
  | thrown (what : Thrown)

def failedTx (account : TxQAccount) (ter : TER) (c : MaybeTx) : MaybeTx :=
  { c with
    retriesRemaining := if account.retryPenalty && 2 < c.retriesRemaining then 1 else c.retriesRemaining - 1
    lastResult := some ter }

section

variable (q : TxQ) (candidateIter : Handle) (account : TxQAccount) (candidate : MaybeTx)

/-- Drop the last candidate of the account of a candidate that failed. -/
def dropLast : Except Fault TxQ :=
  match account.transactions.entries.getLast? with
  | none => .error .dangling
  | some drop =>
    if Handle.mk candidate.account drop.1 ≠ candidateIter then Prod.snd <$> q.erase ⟨candidate.account, drop.1⟩
    else .ok q

/-- A candidate that failed stays in the queue, unless the queue is nearly full. -/
def leaveInQueue :
    Except Fault (Option Handle × TxQ) :=
  if account.dropPenalty && 1 < account.transactions.size && q.isFull 95 then
    if candidate.seqProxy.isTicket then q.eraseAndAdvance candidateIter
    else do
      let q ← q.dropLast candidateIter account candidate
      let candidateIter ← q.next candidateIter
      pure (candidateIter, q)
  else do
    let candidateIter ← q.next candidateIter
    pure (candidateIter, q)

/-- What becomes of a candidate after it was tried with the result `ter`. -/
def settle (ter : TER)
    (didApply : Bool) : Except Fault (Option Handle × TxQ) :=
  if didApply then q.eraseAndAdvance candidateIter
  else if isTefFailure ter || isTemMalformed ter || candidate.retriesRemaining ≤ 0 then
    let q := q.updateAccount candidate.account fun a =>
      if candidate.retriesRemaining ≤ 0 then { a with retryPenalty := true } else { a with dropPenalty := true }
    q.eraseAndAdvance candidateIter
  else
    let q := q.updateTx candidateIter fun _ => failedTx account ter candidate
    q.leaveInQueue candidateIter account candidate

end

def acceptStep (app : App V) (snapshot : Snapshot) (s : AcceptState V) : Except Fault (Round V) :=
  match s.candidateIter with
  | none => .ok .leave
  | some candidateIter => do
    let candidate ← s.queue.deref candidateIter
    let account ← s.queue.accountAt candidate.account
    match account.transactions.entries.head? with
    | none => .error .dangling
    | some begin =>
      if candidate.seqProxy.isSeq && begin.1 < candidate.seqProxy then
        let next ← s.queue.next candidateIter
        pure (.next { s with candidateIter := next })
      else
        match scaleFeeLevel snapshot (app.txCount s.view) with
        | .error what => pure (.thrown what)
        | .ok requiredFeeLevel =>
          if requiredFeeLevel ≤ candidate.feeLevel then
            let ((ter, didApply), view, candidate) := candidate.apply app s.view
            let q := s.queue.updateTx candidateIter fun _ => candidate
            let (next, q) ← q.settle candidateIter account candidate ter didApply
            pure (.next
              { queue := q, view, candidateIter := next, ledgerChanged := s.ledgerChanged || didApply
                attempts := candidateIter :: s.attempts })
          else pure .leave

def acceptLoop (app : App V) (snapshot : Snapshot) : ℕ → AcceptState V → Except Fault (AcceptState V × Option Thrown)
  | 0, _ => .error .endless
  | fuel + 1, s => do
    match ← acceptStep app snapshot s with
    | .next s => acceptLoop app snapshot fuel s
    | .leave => pure (s, none)
    | .thrown what => pure (s, some what)

def handles (q : TxQ) : List Handle :=
  q.byAccount.entries.flatMap fun e => e.2.transactions.entries.map fun e' => ⟨e.1, e'.1⟩

/-- `byFee_` is cleared and filled again for the hash of another ledger. -/
def rebuild (q : TxQ) (parentHash : Uint256) : TxQ :=
  q.handles.foldl link { q with byFee := [], parentHashComp := parentHash }

def acceptStart (q : TxQ) (view : V) : AcceptState V := { queue := q, view, candidateIter := q.byFee.head? }

/-- `accept`: whether the ledger was changed, or what was thrown, with the view and the queue. -/
def accept (q : TxQ) (app : App V) (view : V) : Except Fault (Except Thrown Bool × V × TxQ) := do
  let fuel := (q.byFee.length + 1) * (q.byFee.length + 1)
  match ← acceptLoop app q.feeMetrics.getSnapshot fuel (q.acceptStart view) with
  | (s, some what) => pure (.error what, s.view, s.queue)
  | (s, none) => pure (.ok s.ledgerChanged, s.view, s.queue.rebuild (app.parentHash s.view))

inductive Call (V : Type)
  | apply (app : App V) (view : V) (tx : STTx) (flags : ApplyFlags)
  | accept (app : App V) (view : V)
  | processClosedLedger (app : App V) (view : V) (timeLeap : Bool)

def Call.app : Call V → App V
  | .apply app .. => app
  | .accept app _ => app
  | .processClosedLedger app .. => app

def Call.read : Call V → AccountID → Option AccountRoot
  | .apply app view .. => app.read view
  | .accept app view => app.read view
  | .processClosedLedger app view _ => app.read view

def step (q : TxQ) : Call V → Except Fault TxQ
  | .apply app view tx flags => (fun r => r.2.2) <$> q.apply app view tx flags
  | .accept app view => (fun r => r.2.2) <$> q.accept app view
  | .processClosedLedger app view timeLeap => q.processClosedLedger app view timeLeap

end Xrpl.TxQ

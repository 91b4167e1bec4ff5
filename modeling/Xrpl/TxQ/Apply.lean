import Xrpl.TxQ.Queue

/-!
# `TxQ::apply`

A transaction goes into the open ledger at once if it pays enough (`tryDirectApply`).  If it does not, the rules say
whether it may be queued (`checkRules`, which does not change the queue), it may pay for the whole queue of its account
(`tryClearAccountQueueUpThruTx`), or it is held, in place of a cheaper candidate if the queue is full.
-/

namespace Xrpl.TxQ

variable {V : Type}

inductive Reply
  | result (ter : TER) (applied : Bool)
  | thrown (what : Thrown)
deriving DecidableEq, Repr

/-- What ends the checks: a result for a transaction that is not queued, or an exception. -/
inductive Stop
  | ter (ter : TER)
  | thrown (what : Thrown)
deriving DecidableEq, Repr

def Stop.reply : Stop → Reply
  | ter t => .result t false
  | thrown what => .thrown what

def require (condition : Bool) (ter : TER) : Except Stop Unit := if condition then .ok () else .error (.ter ter)

def liftThrown {α : Type} (x : Except Thrown α) : Except Stop α := x.mapError .thrown

/-- `nextQueuableSeqImpl`, the loop over the entries after one with the sequence of the account. -/
def nextOpening : SeqProxy → List (SeqProxy × MaybeTx) → SeqProxy
  | attempt, [] => attempt
  | attempt, e :: rest => if attempt < e.1 then attempt else nextOpening e.2.consequences.followingSeq rest

def nextQueuableSeqImpl (q : TxQ) (account : AccountID) (sleAccount : Option AccountRoot) : SeqProxy :=
  match sleAccount with
  | none => .sequence 0
  | some sleAccount =>
    let acctSeqProx := SeqProxy.sequence sleAccount.sequence
    match q.byAccount.find account with
    | none => acctSeqProx
    | some txQAccount =>
      match txQAccount.lowerBound acctSeqProx with
      | [] => acctSeqProx
      | e :: rest => if e.1 ≠ acctSeqProx then acctSeqProx else nextOpening e.2.consequences.followingSeq rest

/-- `canBeHeld`, where `replaced` is the candidate that would be replaced. -/
def canBeHeld (q : TxQ) (app : App V) (tx : STTx) (flags : ApplyFlags) (view : V) (sleAccount : AccountRoot)
    (replaced : Option MaybeTx) : TER :=
  if tx.hasTxnID ∨ flags &&& TapFailHard ≠ 0 then telCAN_NOT_QUEUE
  else if tx.lastLedgerSequence.any fun lastValid => lastValid < app.seq view + q.setup.minimumLastLedgerBuffer then
    telCAN_NOT_QUEUE
  else
    match q.byAccount.find tx.account with
    | none => tesSUCCESS
    | some txQAcct =>
      if replaced.isSome then tesSUCCESS
      else if txQAcct.getTxnCount < q.setup.maximumTxnPerAccount then tesSUCCESS
      else if tx.seqProxy.isTicket then telCAN_NOT_QUEUE_FULL
      else
        let nextQueuable := q.nextQueuableSeqImpl tx.account (some sleAccount)
        if tx.seqProxy ≠ nextQueuable then telCAN_NOT_QUEUE_FULL
        else if (txQAcct.transactions.next nextQueuable).any fun e => e.1.isSeq then tesSUCCESS
        else telCAN_NOT_QUEUE_FULL

def removeFromByFee (q : TxQ) (replaced : Option Handle) : Except Fault TxQ :=
  match replaced with
  | none => .ok q
  | some h => Prod.snd <$> q.erase h

def existingTx (q : TxQ) (tx : STTx) (didApply : Bool) : Option Handle :=
  if didApply && (q.find ⟨tx.account, tx.seqProxy⟩).isSome then some ⟨tx.account, tx.seqProxy⟩ else none

def tryDirectApply (q : TxQ) (app : App V) (view : V) (tx : STTx) (flags : ApplyFlags) :
    Except Fault (Option (Reply × V × TxQ)) :=
  match app.read view tx.account with
  | none => .ok none
  | some sleAccount =>
    if tx.seqProxy.isSeq ∧ tx.seqProxy ≠ .sequence sleAccount.sequence then .ok none
    else
      match scaleFeeLevel q.feeMetrics.getSnapshot (app.txCount view) with
      | .error what => .ok (some (.thrown what, view, q))
      | .ok requiredFeeLevel =>
        if getFeeLevelPaid app view tx < requiredFeeLevel then .ok none
        else
          let ((ter, didApply), view) := app.apply tx flags view
          (fun q => some (.result ter didApply, view, q)) <$> q.removeFromByFee (q.existingTx tx didApply)

/-- What is known of a transaction that may be queued. -/
structure Plan (V : Type) where
  /-- The candidates of the account from its sequence on. -/
  live : List (SeqProxy × MaybeTx)
  replaced : Option MaybeTx
  feeLevelPaid : ℕ
  requiredFeeLevel : ℕ
  multiTxn : Option V

def inFlight (tx : STTx) (pfResult : PreflightResult) : List (SeqProxy × MaybeTx) → ℤ × ℤ
  | [] => (0, 0)
  | e :: rest =>
    let (totalFee, potentialSpend) := inFlight tx pfResult rest
    if e.1 ≠ tx.seqProxy then
      (totalFee + e.2.consequences.fee, potentialSpend + e.2.consequences.potentialSpend)
    else if !rest.isEmpty then
      (totalFee + pfResult.consequences.fee, potentialSpend + pfResult.consequences.potentialSpend)
    else (totalFee, potentialSpend)

def checkPlace (q : TxQ) (tx : STTx) (sleAccount : AccountRoot) (txQAcct : TxQAccount) (replaced : Option MaybeTx) :
    Except Stop Unit :=
  let acctSeqProx := SeqProxy.sequence sleAccount.sequence
  if (txQAcct.getPrevTx tx.seqProxy).all fun prev => tx.seqProxy < prev.1 then do
    require (!(tx.seqProxy.isSeq && tx.seqProxy < acctSeqProx)) tefPAST_SEQ
    require (!(tx.seqProxy.isSeq && acctSeqProx < tx.seqProxy)) terPRE_SEQ
  else
    require (!(replaced.isNone && tx.seqProxy.isSeq &&
      q.nextQueuableSeqImpl tx.account (some sleAccount) ≠ tx.seqProxy)) telCAN_NOT_QUEUE

section

variable (q : TxQ) (app : App V) (view : V) (tx : STTx) (flags : ApplyFlags) (pfResult : PreflightResult)
  (sleAccount : AccountRoot)

/-- The checks with the other candidates of the account, and the view that has paid for them. -/
def checkMulti (txQAcct : TxQAccount) (live : List (SeqProxy × MaybeTx)) (replaced : Option MaybeTx) :
    Except Stop (Option V) := do
  let held := q.canBeHeld app tx flags view sleAccount replaced
  require (isTesSuccess held) held
  q.checkPlace tx sleAccount txQAcct replaced
  let (totalFee, potentialSpend) := inFlight tx pfResult live
  let balance := sleAccount.balance
  let reserve := app.reserve view
  require (!(balance ≤ totalFee || (10 * app.base view < reserve && reserve ≤ totalFee))) telCAN_NOT_QUEUE_BALANCE
  let potentialTotalSpend := totalFee + min (balance - min balance reserve) potentialSpend
  let sequence := if tx.seqProxy.isSeq then tx.seqProxy.value
    else (q.nextQueuableSeqImpl tx.account (some sleAccount)).value
  pure (some (app.multiTxn view tx.account { sequence, balance := balance - potentialTotalSpend }))

def checkSequence (live : List (SeqProxy × MaybeTx)) (replaced : Option MaybeTx) :
    Except Stop (Option V) :=
  let acctSeqProx := SeqProxy.sequence sleAccount.sequence
  match q.byAccount.find tx.account, live with
  | some txQAcct, _ :: _ => do
    require (!(tx.seqProxy < acctSeqProx)) tefPAST_SEQ
    if 1 < live.length ∨ replaced.isNone then
      q.checkMulti app view tx flags pfResult sleAccount txQAcct live replaced
    else pure none
  | _, _ => do
    require (!(tx.seqProxy.isSeq && tx.seqProxy < acctSeqProx)) tefPAST_SEQ
    require (!(tx.seqProxy.isSeq && acctSeqProx < tx.seqProxy)) terPRE_SEQ
    pure none

def checkRules : Except Stop (Plan V) := do
  let txQAcct := q.byAccount.find tx.account
  let live := txQAcct.elim [] fun a => a.lowerBound (.sequence sleAccount.sequence)
  require (!(pfResult.consequences.isBlocker && 1 < live.length)) telCAN_NOT_QUEUE_BLOCKS
  require (!(pfResult.consequences.isBlocker && live.length = 1 && live.any fun e => tx.seqProxy ≠ e.1))
    telCAN_NOT_QUEUE_BLOCKS
  let replaced := q.find ⟨tx.account, tx.seqProxy⟩
  let feeLevelPaid := getFeeLevelPaid app view tx
  let requiredFeeLevel ← liftThrown (scaleFeeLevel q.feeMetrics.getSnapshot (app.txCount view))
  require (!(live.length = 1 && live.any fun e => e.2.consequences.isBlocker && e.1 ≠ tx.seqProxy))
    telCAN_NOT_QUEUE_BLOCKED
  require (!(0 < live.length && replaced.any fun existing =>
    feeLevelPaid ≤ increase existing.feeLevel q.setup.retrySequencePercent)) telCAN_NOT_QUEUE_FEE
  let multiTxn ← q.checkSequence app view tx flags pfResult sleAccount live replaced
  let pcresult := app.preclaim pfResult (multiTxn.getD view)
  require pcresult.2 pcresult.1
  pure { live, replaced, feeLevelPaid, requiredFeeLevel, multiTxn }

def triedTx (ter : TER) (c : MaybeTx) : MaybeTx :=
  { c with retriesRemaining := c.retriesRemaining - 1, lastResult := some ter }

/-- Apply the queued candidates of a range; the result of the one that did not apply. -/
def clearLoop (app : App V) (account : AccountID) : List SeqProxy → V → TxQ → Except Fault (Option TER × V × TxQ)
  | [], view, q => .ok (none, view, q)
  | seqProx :: range, view, q => do
    let h := Handle.mk account seqProx
    let candidate ← q.deref h
    let ((ter, applied), view, candidate) := candidate.apply app view
    let q := q.updateTx h fun _ => triedTx ter candidate
    if ter = tefNO_TICKET ∨ applied then clearLoop app account range view q else .ok (some ter, view, q)

/-- Apply the candidates of a range and then the transaction; if all are applied, the candidates go. -/
def clearUpThruTx (q : TxQ) (app : App V) (view : V) (tx : STTx) (range : List SeqProxy) (pfResult : PreflightResult) :
    Except Fault (Reply × V × TxQ) := do
  match ← clearLoop app tx.account range view q with
  | (some ter, view, q) => pure (.result ter false, view, q)
  | (none, view, q) =>
    let ((ter, applied), view) := app.doApply pfResult (app.preclaim pfResult view) view
    if applied then do
      let q ← eraseRange tx.account range q
      -- the candidate that the transaction replaces goes too
      let q ← eraseRange tx.account (if (q.find ⟨tx.account, tx.seqProxy⟩).isSome then [tx.seqProxy] else []) q
      pure (.result ter applied, view, q)
    else pure (.result ter applied, view, q)

/-- Clear the queue of the account if the fees are enough; the required level may have overflowed. -/
def clearIfPaid (q : TxQ) (app : App V) (view : V) (tx : STTx) (range : List SeqProxy) (totalFeeLevelPaid : ℕ)
    (pfResult : PreflightResult) : Except Thrown (Option ℕ) → Except Fault (Reply × V × TxQ)
  | .error what => .ok (.thrown what, view, q)
  | .ok none => .ok (.result telINSUF_FEE_P false, view, q)
  | .ok (some requiredTotalFeeLevel) =>
    if totalFeeLevelPaid < requiredTotalFeeLevel then .ok (.result telINSUF_FEE_P false, view, q)
    else q.clearUpThruTx app view tx range pfResult

/-- `tryClearAccountQueueUpThruTx`, for a view that is a sandbox. -/
def tryClearAccountQueueUpThruTx (q : TxQ) (app : App V) (view : V) (tx : STTx) (live : List (SeqProxy × MaybeTx))
    (feeLevelPaid : ℕ) (pfResult : PreflightResult) (txExtraCount : ℕ) : Except Fault (Reply × V × TxQ) :=
  let range := live.filter fun e => e.1 < tx.seqProxy
  let totalFeeLevelPaid := range.foldl (fun total e => uint64 (total + e.2.feeLevel)) feeLevelPaid
  q.clearIfPaid app view tx (range.map Prod.fst) totalFeeLevelPaid pfResult
    (escalatedSeriesFeeLevel q.feeMetrics.getSnapshot (app.txCount view) txExtraCount (range.length + 1))

def lastOther (q : TxQ) (account : AccountID) : List Handle → Except Fault (Option Handle)
  | [] => .ok none
  | h :: rest => do
    let candidate ← q.deref h
    if candidate.account = account then q.lastOther account rest else pure (some h)

/-- The fee level that a transaction has to beat: that of the last candidate, or the average of its account. -/
def endEffectiveFeeLevel (last : MaybeTx) (endAccount : TxQAccount) (feeLevelPaid : ℕ) : ℕ :=
  let size := endAccount.transactions.size
  if feeLevelPaid < last.feeLevel ∨ size = 1 then last.feeLevel
  else
    let total := endAccount.transactions.entries.foldl (fun total e =>
      let next := e.2.feeLevel / size
      let mod := e.2.feeLevel % size
      if kMuldivMax - next ≤ total.1 ∨ kMuldivMax - mod ≤ total.2 then (kMuldivMax, 0)
      else (total.1 + next, total.2 + mod)) (0, 0)
    uint64 (total.1 + total.2 / size)

/-- Make room in a full queue: drop the last candidate of another account, or refuse the transaction. -/
def makeRoom (q : TxQ) (account : AccountID) (feeLevelPaid : ℕ) : Except Fault (Except TER TxQ) := do
  match ← q.lastOther account q.byFee.reverse with
  | none => pure (.error telCAN_NOT_QUEUE_FULL)
  | some lastR =>
    let last ← q.deref lastR
    let endAccount ← q.accountAt last.account
    if endEffectiveFeeLevel last endAccount feeLevelPaid < feeLevelPaid then
      match endAccount.transactions.entries.getLast? with
      | none => .error .dangling
      | some drop => do
        let (_, q) ← q.erase ⟨last.account, drop.1⟩
        pure (.ok q)
    else pure (.error telCAN_NOT_QUEUE_FULL)

def roomFor (q : TxQ) (account : AccountID) (plan : Plan V) : Except Fault (Except TER TxQ) :=
  if plan.replaced.isNone && q.isFull 100 then q.makeRoom account plan.feeLevelPaid else .ok (.ok q)

def ensureAccount (q : TxQ) (account : AccountID) : TxQ :=
  { q with byAccount := q.byAccount.emplace account { account } }

def addTx (q : TxQ) (candidate : MaybeTx) : TxQ :=
  q.updateAccount candidate.account fun a =>
    { a with transactions := a.transactions.emplace candidate.seqProxy candidate }

def hold (feeLevelPaid : ℕ) (replaced : Option MaybeTx) : Except Fault TxQ := do
  let h := Handle.mk tx.account tx.seqProxy
  let q ← q.removeFromByFee (replaced.map fun _ => h)
  let q := q.ensureAccount tx.account
  let candidate := MaybeTx.make tx feeLevelPaid (flags &&& ~~~TapRetry) pfResult
  pure ((q.addTx candidate).link h)

def enqueue (plan : Plan V) : Except Fault (Reply × V × TxQ) :=
  let held := if plan.multiTxn.isSome then tesSUCCESS
    else q.canBeHeld app tx flags view sleAccount plan.replaced
  if !isTesSuccess held then .ok (.result held false, view, q)
  else do
    match ← q.roomFor tx.account plan with
    | .error ter => pure (.result ter false, view, q)
    | .ok q => do
      let q ← q.hold tx flags pfResult plan.feeLevelPaid plan.replaced
      pure (.result terQUEUED false, view, q)

/-- Whether it is worth the effort to try to clear the queue of the account. -/
def mayClear (tx : STTx) (plan : Plan V) : Bool :=
  tx.seqProxy.isSeq && plan.multiTxn.isSome &&
    (plan.live.head?.any fun e => e.2.retriesRemaining = kRetriesAllowed) &&
    plan.requiredFeeLevel < plan.feeLevelPaid && kBaseLevel < plan.requiredFeeLevel

def queueTx (plan : Plan V) : Except Fault (Reply × V × TxQ) :=
  if mayClear tx plan then do
    match ← q.tryClearAccountQueueUpThruTx app (app.sandbox view) tx plan.live plan.feeLevelPaid pfResult
        (app.txCount view) with
    | (.result ter true, sandbox, q) => pure (.result ter true, app.merge sandbox view, q)
    | (.thrown what, _, q) => pure (.thrown what, view, q)
    | (.result _ false, _, q) => q.enqueue app view tx flags pfResult sleAccount plan
  else q.enqueue app view tx flags pfResult sleAccount plan

/-- `apply` after the transaction could not go into the ledger at once. -/
def applyQueued :
    Except Fault (Reply × V × TxQ) :=
  if flags &&& TapDryRun ≠ 0 then .ok (.result telCAN_NOT_QUEUE false, view, q)
  else
    match app.read view tx.account with
    | none => .ok (.result terNO_ACCOUNT false, view, q)
    | some sleAccount =>
      if tx.seqProxy.isTicket ∧ ¬ app.hasTicket view tx.account tx.seqProxy.value then
        .ok (.result (if tx.seqProxy.value < sleAccount.sequence then tefNO_TICKET else terPRE_TICKET) false, view, q)
      else
        match q.checkRules app view tx flags pfResult sleAccount with
        | .error stop => .ok (stop.reply, view, q)
        | .ok plan => q.queueTx app view tx flags pfResult sleAccount plan

end

def apply (q : TxQ) (app : App V) (view : V) (tx : STTx) (flags : ApplyFlags) : Except Fault (Reply × V × TxQ) :=
  let pfResult := app.preflight (app.rules view) tx flags
  if !isTesSuccess pfResult.ter then .ok (.result pfResult.ter false, view, q)
  else do
    match ← q.tryDirectApply app view tx flags with
    | some directApplied => pure directApplied
    | none => q.applyQueued app view tx flags pfResult

end Xrpl.TxQ

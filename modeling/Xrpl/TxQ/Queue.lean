import Xrpl.Lib.Yields
import Xrpl.TxQ.FeeMetrics

/-!
# The two indexes of the queue

The candidates are owned by the maps of their accounts (`byAccount`); `byFee` links the same candidates in the order
of their fees.  A link is the place of the candidate in the maps (`Handle`), and an iterator over `byFee` is a link, or
none at the end.  Reading or erasing through a link whose candidate is not there is a `Fault`.
-/

namespace Xrpl.TxQ

/-- The place of a candidate: an account and a key of its map. -/
structure Handle where
  account : AccountID
  seqProxy : SeqProxy
deriving DecidableEq, Repr

inductive Fault
  /-- `byAccount_.at` of an account that is not there. -/
  | outOfRange
  /-- An iterator to an erased candidate, or behind the end. -/
  | dangling
  /-- A loop that does not end. -/
  | endless
deriving DecidableEq, Repr

end Xrpl.TxQ

open Xrpl.TxQ in
/-- The queue, with the hash of the parent ledger for the order of `byFee`. -/
structure Xrpl.TxQ where
  setup : Setup
  feeMetrics : FeeMetrics
  byFee : List Handle
  byAccount : OrderedMap AccountID TxQAccount
  maxSize : Option ℕ
  parentHashComp : Uint256

namespace Xrpl.TxQ

/-- The constructor; `parentHashComp` is static, so it may have any value. -/
def make (setup : Setup) (parentHashComp : Uint256) : TxQ where
  setup := setup
  feeMetrics := .make setup
  byFee := []
  byAccount := .empty
  maxSize := none
  parentHashComp := parentHashComp

section

variable (q : TxQ)

def find (h : Handle) : Option MaybeTx :=
  (q.byAccount.find h.account).bind fun account => account.transactions.find h.seqProxy

def deref (h : Handle) : Except Fault MaybeTx :=
  match q.find h with
  | some candidate => .ok candidate
  | none => .error .dangling

def accountAt (account : AccountID) : Except Fault TxQAccount :=
  match q.byAccount.find account with
  | some txQAccount => .ok txQAccount
  | none => .error .outOfRange

def next (h : Handle) : Except Fault (Option Handle) :=
  if h ∈ q.byFee then .ok (q.byFee.follower h) else .error .dangling

/-- `byFee_.value_comp()` of two linked candidates. -/
def before (h h' : Handle) : Bool :=
  match q.find h, q.find h' with
  | some lhs, some rhs => orderCandidates q.parentHashComp lhs rhs
  | _, _ => false

def isFull (fillPercentage : ℕ) : Bool :=
  q.maxSize.any fun maxSize => uint64 (maxSize * fillPercentage) / 100 ≤ q.byFee.length

def updateAccount (account : AccountID) (f : TxQAccount → TxQAccount) : TxQ :=
  { q with byAccount := q.byAccount.modify account f }

def updateTx (h : Handle) (f : MaybeTx → MaybeTx) : TxQ :=
  q.updateAccount h.account fun a => { a with transactions := a.transactions.modify h.seqProxy f }

def removeTx (h : Handle) : TxQ :=
  q.updateAccount h.account fun a => { a with transactions := a.transactions.erase h.seqProxy }

def unlink (h : Handle) : Except Fault (Option Handle × TxQ) :=
  if h ∈ q.byFee then .ok (q.byFee.follower h, { q with byFee := q.byFee.erase h }) else .error .dangling

def link (h : Handle) : TxQ := { q with byFee := q.byFee.orderedInsert (fun a b => q.before a b) h }

def erase (candidateIter : Handle) : Except Fault (Option Handle × TxQ) := do
  let candidate ← q.deref candidateIter
  let _ ← q.accountAt candidate.account
  let (newCandidateIter, q) ← q.unlink candidateIter
  pure (newCandidateIter, q.removeTx ⟨candidate.account, candidate.seqProxy⟩)

/-- Whether `eraseAndAdvance` goes on with the next candidate of the account. -/
def useAccountNext (candidate : MaybeTx) (accountNext : Option (SeqProxy × MaybeTx))
    (feeNext : Option Handle) : Except Fault Bool :=
  match accountNext, feeNext with
  | none, _ => .ok false
  | some (seqProx, _), none => .ok (candidate.seqProxy < seqProx)
  | some (seqProx, next), some feeNext => do
    let feeNext ← q.deref feeNext
    pure (candidate.seqProxy < seqProx && orderCandidates q.parentHashComp next feeNext)

def eraseAndAdvance (candidateIter : Handle) : Except Fault (Option Handle × TxQ) := do
  let candidate ← q.deref candidateIter
  let txQAccount ← q.accountAt candidate.account
  let accountNext := txQAccount.transactions.next candidate.seqProxy
  let feeNext ← q.next candidateIter
  let jump ← q.useAccountNext candidate accountNext feeNext
  let (candidateNext, q) ← q.unlink candidateIter
  let q := q.removeTx ⟨candidate.account, candidate.seqProxy⟩
  pure (if jump then accountNext.map fun e => ⟨candidate.account, e.1⟩ else candidateNext, q)

end

def eraseRange (account : AccountID) : List SeqProxy → TxQ → Except Fault TxQ
  | [], q => .ok q
  | seqProx :: range, q => do
    let (_, q) ← q.unlink ⟨account, seqProx⟩
    eraseRange account range (q.removeTx ⟨account, seqProx⟩)

end Xrpl.TxQ

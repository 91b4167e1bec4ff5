import Xrpl.Basics.BaseUint
import Xrpl.Lib.OrderedMap

/-!
# The transaction queue: transactions, candidates and what the queue asks of the ledger

* `SeqProxy`, a sequence number or a ticket; sequences come before tickets;
* `TxConsequences`, `PreflightResult`: what is known of a transaction before it is applied;
* `MaybeTx`, a queued candidate, and `TxQAccount`, the candidates of one account;
* `App`, the views of the ledger and the transactors.  They are arbitrary functions.
-/

namespace Xrpl.TxQ

abbrev AccountID := BitVec 160

scoped instance accountOrder : LinearOrder AccountID where
  le_refl := BitVec.le_refl
  le_trans _ _ _ := BitVec.le_trans
  le_antisymm _ _ := BitVec.le_antisymm
  le_total := BitVec.le_total
  lt_iff_le_not_ge a b := by
    rw [BitVec.lt_def, BitVec.le_def, BitVec.le_def]
    omega
  toDecidableLE := inferInstance
  toDecidableLT := inferInstance
  toDecidableEq := inferInstance

abbrev TER := ℤ

def telINSUF_FEE_P : TER := -394
def telCAN_NOT_QUEUE : TER := -392
def telCAN_NOT_QUEUE_BALANCE : TER := -391
def telCAN_NOT_QUEUE_BLOCKS : TER := -390
def telCAN_NOT_QUEUE_BLOCKED : TER := -389
def telCAN_NOT_QUEUE_FEE : TER := -388
def telCAN_NOT_QUEUE_FULL : TER := -387
def temMALFORMED : TER := -299
def tefFAILURE : TER := -199
def tefEXCEPTION : TER := -193
def tefPAST_SEQ : TER := -190
def tefNO_TICKET : TER := -180
def terRETRY : TER := -99
def terNO_ACCOUNT : TER := -96
def terPRE_SEQ : TER := -92
def terQUEUED : TER := -89
def terPRE_TICKET : TER := -88
def tesSUCCESS : TER := 0

def isTesSuccess (x : TER) : Bool := x = tesSUCCESS

def isTemMalformed (x : TER) : Bool := temMALFORMED ≤ x && x < tefFAILURE

def isTefFailure (x : TER) : Bool := tefFAILURE ≤ x && x < terRETRY

/-- What the division of `boost::multiprecision` throws. -/
inductive Thrown
  | divisionByZero
deriving DecidableEq, Repr

inductive SeqProxy
  | sequence (value : UInt32)
  | ticket (value : UInt32)
deriving DecidableEq, Repr

namespace SeqProxy

def value : SeqProxy → UInt32
  | sequence v => v
  | ticket v => v

def isSeq : SeqProxy → Bool
  | sequence _ => true
  | ticket _ => false

def isTicket (s : SeqProxy) : Bool := !s.isSeq

def advanceBy : SeqProxy → UInt32 → SeqProxy
  | sequence v, amount => sequence (v + amount)
  | ticket v, amount => ticket (v + amount)

def rank : SeqProxy → ℕ
  | sequence v => v.toNat
  | ticket v => 2 ^ 32 + v.toNat

lemma rank_injective : Function.Injective rank := by
  intro a b h
  cases a with
  | sequence v =>
    cases b with
    | sequence w => exact congrArg sequence (UInt32.toNat_inj.1 h)
    | ticket w =>
      have := v.toNat_lt
      simp only [rank] at h
      omega
  | ticket v =>
    cases b with
    | sequence w =>
      have := w.toNat_lt
      simp only [rank] at h
      omega
    | ticket w => exact congrArg ticket (UInt32.toNat_inj.1 (Nat.add_left_cancel h))

instance linearOrder : LinearOrder SeqProxy where
  le a b := a.rank ≤ b.rank
  lt a b := a.rank < b.rank
  le_refl a := le_refl a.rank
  le_trans _ _ _ := Nat.le_trans
  le_antisymm _ _ hab hba := rank_injective (Nat.le_antisymm hab hba)
  lt_iff_le_not_ge _ _ := Nat.lt_iff_le_and_not_ge
  le_total a b := Nat.le_total a.rank b.rank
  toDecidableLE a b := Nat.decLe a.rank b.rank
  toDecidableLT a b := Nat.decLt a.rank b.rank
  toDecidableEq := inferInstance

@[simp] lemma sequence_le {v w : UInt32} : sequence v ≤ sequence w ↔ v.toNat ≤ w.toNat := Iff.rfl

lemma isSeq_of_le {a b : SeqProxy} (hb : b.isSeq) (h : a ≤ b) : a.isSeq := by
  cases a with
  | sequence v => rfl
  | ticket v =>
    cases b with
    | sequence w =>
      have := w.toNat_lt
      change rank _ ≤ rank _ at h
      rw [rank, rank] at h
      omega
    | ticket w => cases hb

end SeqProxy

abbrev ApplyFlags := BitVec 32

def TapFailHard : ApplyFlags := 0x10
def TapRetry : ApplyFlags := 0x20
def TapDryRun : ApplyFlags := 0x1000

abbrev Rules := ℕ

structure STTx where
  account : AccountID
  seqProxy : SeqProxy
  transactionID : Uint256
  fee : ℤ
  lastLedgerSequence : Option UInt32 := none
  /-- Whether sfPreviousTxnID or sfAccountTxnID is present. -/
  hasTxnID : Bool := false
deriving DecidableEq

structure TxConsequences where
  isBlocker : Bool
  fee : ℤ
  potentialSpend : ℤ
  seqProx : SeqProxy
  sequencesConsumed : UInt32
deriving DecidableEq

namespace TxConsequences

def ofFailure : TxConsequences := ⟨false, 0, 0, .sequence 0, 0⟩

def ofTx (tx : STTx) : TxConsequences :=
  ⟨false, if 0 ≤ tx.fee then tx.fee else 0, 0, tx.seqProxy, if tx.seqProxy.isSeq then 1 else 0⟩

def followingSeq (c : TxConsequences) : SeqProxy := c.seqProx.advanceBy c.sequencesConsumed

end TxConsequences

inductive ConsequencesFactory
  | normal
  | blocker
  | spends (potentialSpend : ℤ)
  | consumes (sequencesConsumed : UInt32)
deriving DecidableEq

def consequencesHelper (tx : STTx) : ConsequencesFactory → TxConsequences
  | .normal => .ofTx tx
  | .blocker => { TxConsequences.ofTx tx with isBlocker := true }
  | .spends amount => { TxConsequences.ofTx tx with potentialSpend := amount }
  | .consumes n => { TxConsequences.ofTx tx with sequencesConsumed := n }

inductive Verdict
  | passes (factory : ConsequencesFactory)
  | fails (ter : TER)
  | throws
deriving DecidableEq

structure PreflightResult where
  tx : STTx
  rules : Rules
  consequences : TxConsequences
  flags : ApplyFlags
  ter : TER
deriving DecidableEq

def PreflightResult.ofVerdict (rules : Rules) (tx : STTx) (flags : ApplyFlags) : Verdict → PreflightResult
  | .passes factory => ⟨tx, rules, consequencesHelper tx factory, flags, tesSUCCESS⟩
  | .fails ter => ⟨tx, rules, .ofFailure, flags, ter⟩
  | .throws => ⟨tx, rules, .ofTx tx, flags, tefEXCEPTION⟩

structure AccountRoot where
  sequence : UInt32
  balance : ℤ
deriving DecidableEq

/-- The views of the ledger, of which nothing is known, and the transactors. -/
structure App (V : Type) where
  txCount : V → ℕ
  seq : V → UInt32
  parentHash : V → Uint256
  rules : V → Rules
  reserve : V → ℤ
  base : V → ℤ
  read : V → AccountID → Option AccountRoot
  hasTicket : V → AccountID → UInt32 → Bool
  txs : V → List STTx
  calculateBaseFee : V → STTx → ℤ
  calculateDefaultBaseFee : V → STTx → ℤ
  verdict : Rules → STTx → ApplyFlags → Verdict
  /-- The result and whether the transaction is likely to claim a fee. -/
  preclaim : PreflightResult → V → TER × Bool
  doApply : PreflightResult → TER × Bool → V → (TER × Bool) × V
  apply : STTx → ApplyFlags → V → (TER × Bool) × V
  /-- The view of `MultiTxn`, with a changed account root. -/
  multiTxn : V → AccountID → AccountRoot → V
  sandbox : V → V
  /-- `sandbox.apply(view)`. -/
  merge : V → V → V
  /-- What is read behind the end of an empty buffer. -/
  pastEnd : ℕ

variable {V : Type}

def App.preflight (app : App V) (rules : Rules) (tx : STTx) (flags : ApplyFlags) : PreflightResult :=
  .ofVerdict rules tx flags (app.verdict rules tx flags)

def kRetriesAllowed : ℤ := 10

structure MaybeTx where
  feeLevel : ℕ
  txID : Uint256
  account : AccountID
  lastValid : Option UInt32
  seqProxy : SeqProxy
  retriesRemaining : ℤ := kRetriesAllowed
  flags : ApplyFlags
  lastResult : Option TER := none
  pfResult : PreflightResult

namespace MaybeTx

def make (tx : STTx) (feeLevel : ℕ) (flags : ApplyFlags) (pfResult : PreflightResult) : MaybeTx where
  feeLevel := feeLevel
  txID := tx.transactionID
  account := tx.account
  lastValid := tx.lastLedgerSequence
  seqProxy := tx.seqProxy
  flags := flags
  pfResult := pfResult

def consequences (c : MaybeTx) : TxConsequences := c.pfResult.consequences

/-- The candidate after `MaybeTx::apply` has run preflight again, if the rules or the flags are others. -/
def refresh (app : App V) (view : V) (c : MaybeTx) : MaybeTx :=
  if c.pfResult.rules ≠ app.rules view ∨ c.pfResult.flags ≠ c.flags then
    { c with pfResult := app.preflight (app.rules view) c.pfResult.tx c.flags }
  else c

/-- `MaybeTx::apply`: the result, the view and the candidate afterwards. -/
def apply (app : App V) (view : V) (c : MaybeTx) : (TER × Bool) × V × MaybeTx :=
  let c := c.refresh app view
  let (result, view) := app.doApply c.pfResult (app.preclaim c.pfResult view) view
  (result, view, c)

end MaybeTx

/-- `OrderCandidates`: by the fee level, then by the transaction ID under the hash of the parent ledger. -/
def orderCandidates (parentHashComp : Uint256) (lhs rhs : MaybeTx) : Bool :=
  if lhs.feeLevel = rhs.feeLevel then lhs.txID ^^^ parentHashComp < rhs.txID ^^^ parentHashComp
  else rhs.feeLevel < lhs.feeLevel

structure TxQAccount where
  account : AccountID
  transactions : OrderedMap SeqProxy MaybeTx := .empty
  retryPenalty : Bool := false
  dropPenalty : Bool := false

namespace TxQAccount

def getTxnCount (a : TxQAccount) : ℕ := a.transactions.size

/-- `getPrevTx`: the entry before `seqProx`, or else the first one. -/
def getPrevTx (a : TxQAccount) (seqProx : SeqProxy) : Option (SeqProxy × MaybeTx) :=
  ((a.transactions.entries.filter fun e => e.1 < seqProx).getLast?).or a.transactions.entries.head?

def lowerBound (a : TxQAccount) (seqProx : SeqProxy) : List (SeqProxy × MaybeTx) :=
  a.transactions.entries.filter fun e => seqProx ≤ e.1

end TxQAccount

def kBaseLevel : ℕ := 256

structure Setup where
  ledgersInQueue : ℕ := 20
  queueSizeMin : ℕ := 2000
  retrySequencePercent : ℕ := 25
  minimumEscalationMultiplier : ℕ := kBaseLevel * 500
  minimumTxnInLedger : ℕ := 32
  minimumTxnInLedgerSA : ℕ := 1000
  targetTxnInLedger : ℕ := 256
  maximumTxnInLedger : Option ℕ := none
  normalConsensusIncreasePercent : ℕ := 20
  slowConsensusDecreasePercent : ℕ := 50
  maximumTxnPerAccount : ℕ := 10
  minimumLastLedgerBuffer : UInt32 := 2
  standAlone : Bool := false

end Xrpl.TxQ

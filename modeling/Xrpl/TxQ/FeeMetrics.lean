import Xrpl.TxQ.Types

/-!
# Fee levels and their escalation

Fee levels are `uint64_t`; sums and products of them wrap around where the source does not use `mulDiv`.
-/

namespace Xrpl.TxQ

def kMuldivMax : ℕ := 2 ^ 64 - 1

def uint64 (n : ℕ) : ℕ := n % 2 ^ 64

def mulDiv (value mul div : ℕ) : Option ℕ := if value * mul / div ≤ kMuldivMax then some (value * mul / div) else none

/-- `mulDivU`; where the divisor is 0 the two shortcuts are taken before the division throws. -/
def mulDivU (value mul div : ℕ) : Except Thrown (Option ℕ) :=
  if value = div then .ok (some mul)
  else if mul = div then .ok (some value)
  else if div = 0 then .error .divisionByZero
  else .ok (mulDiv value mul div)

variable {V : Type}

def getFeeLevelPaid (app : App V) (view : V) (tx : STTx) : ℕ :=
  let baseFee := app.calculateBaseFee view tx
  let mod : ℤ :=
    if 0 < baseFee then 0
    else
      let base := app.calculateDefaultBaseFee view tx
      if base = 0 then 1 else base
  let effectiveFeePaid := tx.fee + mod
  let baseFee := baseFee + mod
  if effectiveFeePaid ≤ 0 ∨ baseFee ≤ 0 then 0
  else
    match mulDivU effectiveFeePaid.toNat kBaseLevel baseFee.toNat with
    | .ok (some level) => level
    | _ => kMuldivMax

def increase (level increasePercent : ℕ) : ℕ :=
  match mulDivU ((100 + increasePercent) % 2 ^ 32) level 100 with
  | .ok (some level) => level
  | _ => kMuldivMax

structure Snapshot where
  txnsExpected : ℕ
  escalationMultiplier : ℕ

structure FeeMetrics where
  minimumTxnCount : ℕ
  targetTxnCount : ℕ
  maximumTxnCount : Option ℕ
  txnsExpected : ℕ
  recentTxnCounts : List ℕ
  escalationMultiplier : ℕ

namespace FeeMetrics

def make (setup : Setup) : FeeMetrics :=
  let minimumTxnCount := if setup.standAlone then setup.minimumTxnInLedgerSA else setup.minimumTxnInLedger
  let targetTxnCount := if setup.targetTxnInLedger < minimumTxnCount then minimumTxnCount else setup.targetTxnInLedger
  { minimumTxnCount, targetTxnCount
    maximumTxnCount := setup.maximumTxnInLedger.map fun n => if n < targetTxnCount then targetTxnCount else n
    txnsExpected := minimumTxnCount
    recentTxnCounts := []
    escalationMultiplier := setup.minimumEscalationMultiplier }

def getSnapshot (f : FeeMetrics) : Snapshot := ⟨f.txnsExpected, f.escalationMultiplier⟩

def pushBack (capacity : ℕ) (l : List ℕ) (n : ℕ) : List ℕ := (l ++ [n]).drop ((l ++ [n]).length - capacity)

def updateExpected (setup : Setup) (pastEnd : ℕ) (timeLeap : Bool) (size : ℕ) (f : FeeMetrics) : FeeMetrics :=
  if timeLeap then
    let cutPct := (100 + 2 ^ 32 - setup.slowConsensusDecreasePercent % 2 ^ 32) % 2 ^ 32
    let upperLimit := max ((mulDiv f.txnsExpected cutPct 100).getD kMuldivMax) f.minimumTxnCount
    { f with
      txnsExpected := min (max ((mulDiv size cutPct 100).getD kMuldivMax) f.minimumTxnCount) upperLimit
      recentTxnCounts := [] }
  else if f.txnsExpected < size ∨ f.targetTxnCount < size then
    let increased := (mulDiv size ((100 + setup.normalConsensusIncreasePercent) % 2 ^ 32) 100).getD kMuldivMax
    let recent := pushBack setup.ledgersInQueue f.recentTxnCounts increased
    let largest := recent.max?.getD pastEnd
    let next := if f.txnsExpected ≤ largest then largest else uint64 (f.txnsExpected * 9 + largest) / 10
    { f with txnsExpected := min next (f.maximumTxnCount.getD next), recentTxnCounts := recent }
  else f

def update (setup : Setup) (app : App V) (view : V) (timeLeap : Bool) (f : FeeMetrics) : FeeMetrics :=
  let feeLevels := ((app.txs view).map (getFeeLevelPaid app view)).insertionSort (· ≤ ·)
  let size := feeLevels.length
  let median := uint64 (feeLevels.getD (size / 2) 0 + feeLevels.getD ((size - 1) / 2) 0 + 1) / 2
  { f.updateExpected setup app.pastEnd timeLeap size with
    escalationMultiplier :=
      if size = 0 then setup.minimumEscalationMultiplier else max median setup.minimumEscalationMultiplier }

end FeeMetrics

/-- `scaleFeeLevel` for a ledger with `current` transactions. -/
def scaleFeeLevel (snapshot : Snapshot) (current : ℕ) : Except Thrown ℕ :=
  let target := snapshot.txnsExpected
  if target < current then
    (·.getD kMuldivMax) <$>
      mulDivU (uint64 (current * current)) snapshot.escalationMultiplier (uint64 (target * target))
  else .ok kBaseLevel

def sumOfFirstSquares (x : ℕ) : Bool × ℕ :=
  if 2 ^ 21 ≤ x then (false, kMuldivMax) else (true, x * (x + 1) * (2 * x + 1) / 6)

/-- `escalatedSeriesFeeLevel`, where `txCount` is that of the view; no value if it overflows. -/
@[irreducible] def escalatedSeriesFeeLevel (snapshot : Snapshot) (txCount extraCount seriesSize : ℕ) : Except Thrown (Option ℕ) :=
  let current := uint64 (txCount + extraCount)
  let last := uint64 (current + seriesSize + 2 ^ 64 - 1)
  let target := snapshot.txnsExpected
  let sumNlast := sumOfFirstSquares last
  let sumNcurrent := sumOfFirstSquares (uint64 (current + 2 ^ 64 - 1))
  if !sumNlast.1 then .ok none
  else
    mulDivU (uint64 (sumNlast.2 + 2 ^ 64 - sumNcurrent.2)) snapshot.escalationMultiplier (uint64 (target * target))

end Xrpl.TxQ

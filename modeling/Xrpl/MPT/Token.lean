import Xrpl.Lib.HashMap
import Xrpl.MPT.Amount

/-!
# Multi-purpose tokens: the model of transfers and escrow

The ledger holds an issuance object for each MPT and a token object for each holder.  A transfer between two holders
is two moves through the issuer, and the difference between them is the transfer fee.  An escrow locks a part of a
holder's balance.

The functions take the way in which a field of 64 bits is written as an argument: `uint64` is what the ledger objects
do, and `checked` refuses a value that would wrap around.
-/

namespace Xrpl.MPT

/-- How a field takes the result of an operation on integers. -/
abbrev Storage := ℤ → Except Stop ℕ

def uint64 : Storage := fun z => pure (z % 2 ^ 64).toNat

def checked : Storage := fun z => if 0 ≤ z ∧ z < 2 ^ 64 then pure z.toNat else throw .wrapped

structure MPToken where
  mptAmount : ℕ := 0
  lockedAmount : Option ℕ := none
  deriving DecidableEq

/-- An `MPTokenIssuance`.  The maximum amount was checked when the object was created. -/
structure MPTokenIssuance where
  outstandingAmount : ℕ := 0
  lockedAmount : Option ℕ := none
  maximumAmount : Option MPTAmount := none
  transferFee : Option UInt16 := none
  deriving DecidableEq

structure View (A : Type) where
  issuances : HashMap (MPTID A) MPTokenIssuance
  mptokens : HashMap (MPTID A × A) MPToken

variable {A : Type} [DecidableEq A]

namespace View

section

variable (view : View A) (mptID : MPTID A)

def updateIssuance (issuance : MPTokenIssuance) : View A :=
  { view with issuances := view.issuances.insert mptID issuance }

def updateToken (holder : A) (token : MPToken) : View A :=
  { view with mptokens := view.mptokens.insert (mptID, holder) token }

def peekIssuance (code : TER) : Except Stop MPTokenIssuance :=
  match view.issuances.lookup mptID with
  | some issuance => pure issuance
  | none => throw (.ter code)

def peekToken (holder : A) (code : TER) : Except Stop MPToken :=
  match view.mptokens.lookup (mptID, holder) with
  | some token => pure token
  | none => throw (.ter code)

end

end View

def require (condition : Bool) (code : TER) : Except Stop Unit :=
  if condition then pure () else throw (.ter code)

inductive AllowMPTOverflow where
  | no
  | yes
  deriving DecidableEq

inductive WaiveTransferFee where
  | no
  | yes
  deriving DecidableEq

def maxMPTAmount (issuance : MPTokenIssuance) : ℕ := (issuance.maximumAmount.map (·.1)).getD kMaxMpTokenAmount

/-- `availableMPTAmount`: a difference of 64 bits, read as an `int64_t`. -/
def availableMPTAmount (issuance : MPTokenIssuance) : ℤ :=
  ((maxMPTAmount issuance : ℤ) - issuance.outstandingAmount).bmod (2 ^ 64)

def isMPTOverflow (sendAmount outstandingAmount maximumAmount : ℕ) (allowOverflow : AllowMPTOverflow) : Bool :=
  let limit := if allowOverflow = .yes then 2 ^ 64 - 1 else maximumAmount
  maximumAmount < sendAmount || limit - sendAmount < outstandingAmount

def transferRate (issuance : MPTokenIssuance) : ℕ :=
  match issuance.transferFee with
  | some fee => 1000000000 + 10000 * fee.toNat
  | none => kParityRate

structure CreditHook (A : Type) where
  sender : A
  receiver : A
  amount : STAmount A
  preCreditBalanceHolder : ℕ
  preCreditBalanceIssuer : ℤ

section

variable (store : Storage) (mptokensV2 : Bool) (view : View A)

/-- The first half of `directSendNoFeeMPT`: the sender's side. -/
def debitSender (issuance : MPTokenIssuance) (sender receiver : A)
    (amount : STAmount A) : Except Stop (View A × List (CreditHook A)) :=
  let outstanding := issuance.outstandingAmount
  let amt := amount.mpt.1
  if sender = amount.mptID.account then do
    require (!(mptokensV2 && isMPTOverflow amt outstanding (maxMPTAmount issuance) .yes)) .tecPATH_DRY
    let outstanding ← store (outstanding + amt)
    pure (view.updateIssuance amount.mptID { issuance with outstandingAmount := outstanding }, [])
  else do
    let token ← view.peekToken amount.mptID sender .tecNO_AUTH
    let senderBalance := token.mptAmount
    require (amt ≤ senderBalance) .tecINSUFFICIENT_FUNDS
    let hook := ⟨sender, receiver, amount, senderBalance, availableMPTAmount issuance⟩
    let balance ← store (senderBalance - amt)
    pure (view.updateToken amount.mptID sender { token with mptAmount := balance }, [hook])

/-- The second half of `directSendNoFeeMPT`: the receiver's side.  The issuance is the one read at the start. -/
def creditReceiver (issuance : MPTokenIssuance)
    (sender receiver : A) (amount : STAmount A) : Except Stop (View A × List (CreditHook A)) :=
  let outstanding := issuance.outstandingAmount
  let amt := amount.mpt.1
  if receiver = amount.mptID.account then do
    require (amt ≤ outstanding) .tecINTERNAL
    let outstanding ← store (outstanding - amt)
    pure (view.updateIssuance amount.mptID { issuance with outstandingAmount := outstanding }, [])
  else do
    let token ← view.peekToken amount.mptID receiver .tecNO_AUTH
    require (!(mptokensV2 && 2 ^ 64 - 1 - amt < token.mptAmount)) .tecINTERNAL
    let hook := ⟨sender, receiver, amount, token.mptAmount, availableMPTAmount issuance⟩
    let balance ← store (token.mptAmount + amt)
    pure (view.updateToken amount.mptID receiver { token with mptAmount := balance }, [hook])

/-- `directSendNoFeeMPT`: the view after the move, and the calls of the credit hook. -/
def directSendNoFeeMPT (sender receiver : A)
    (amount : STAmount A) : Except Stop (View A × List (CreditHook A)) := do
  let issuance ← view.peekIssuance amount.mptID .tecOBJECT_NOT_FOUND
  let (view, hooks) ← debitSender store mptokensV2 view issuance sender receiver amount
  let (view, hooks') ← creditReceiver store mptokensV2 view issuance sender receiver amount
  pure (view, hooks ++ hooks')

end

def actualCost (ar : Arithmetic) (issuance : MPTokenIssuance) (amount : MPTAmount) (waiveFee : WaiveTransferFee) :
    Except Stop MPTAmount :=
  if waiveFee = .yes then pure amount else multiply ar amount (transferRate issuance)

variable (store : Storage)

def directSendNoLimitMPT (mptokensV2 : Bool) (ar : Arithmetic) (view : View A) (sender receiver : A)
    (amount : STAmount A) (waiveFee : WaiveTransferFee) (allowOverflow : AllowMPTOverflow) :
    Except Stop (View A × List (CreditHook A)) := do
  let issuer := amount.mptID.account
  let issuance ← view.peekIssuance amount.mptID .tecOBJECT_NOT_FOUND
  if sender = issuer ∨ receiver = issuer then
    let allowOverflow := if allowOverflow = .yes ∧ mptokensV2 then .yes else .no
    require (!(sender = issuer &&
      isMPTOverflow amount.mpt.1 issuance.outstandingAmount (maxMPTAmount issuance) allowOverflow)) .tecPATH_DRY
    directSendNoFeeMPT store mptokensV2 view sender receiver amount
  else
    let actual ← actualCost ar issuance amount.mpt waiveFee
    let (view, hooks) ← directSendNoFeeMPT store mptokensV2 view issuer receiver amount
    let (view, hooks') ← directSendNoFeeMPT store mptokensV2 view sender issuer { amount with mpt := actual }
    pure (view, hooks ++ hooks')

def accountSendMPT (mptokensV2 : Bool) (ar : Arithmetic) (view : View A) (sender receiver : A)
    (amount : STAmount A) (waiveFee : WaiveTransferFee) (allowOverflow : AllowMPTOverflow) :
    Except Stop (View A × List (CreditHook A)) :=
  if amount.mpt.1 = 0 ∨ sender = receiver then pure (view, [])
  else directSendNoLimitMPT store mptokensV2 ar view sender receiver amount waiveFee allowOverflow

variable (ar : Arithmetic)

def lockMore (lockedAmount : Option ℕ) (pay : MPTAmount) :
    Except Stop (Option ℕ) := do
  let locked := lockedAmount.getD 0
  require (← canAdd ar locked pay.1) .tecINTERNAL
  some <$> store (locked + pay.1)

/-- A locked amount that must be present, decreased.  It becomes absent when nothing is left. -/
def lockLess (lockedAmount : Option ℕ) (redeem : MPTAmount) :
    Except Stop (Option ℕ) := do
  match lockedAmount with
  | none => throw (.ter .tecINTERNAL)
  | some locked =>
    require (← canSubtract ar locked redeem.1) .tecINTERNAL
    let newLocked ← store (locked - redeem.1)
    pure (if newLocked = 0 then none else some newLocked)

def lockEscrowMPT (view : View A) (sender : A) (amount : STAmount A) :
    Except Stop (View A) := do
  let issuance ← view.peekIssuance amount.mptID .tecOBJECT_NOT_FOUND
  require (amount.mptID.account ≠ sender) .tecINTERNAL
  let token ← view.peekToken amount.mptID sender .tecOBJECT_NOT_FOUND
  let amt := token.mptAmount
  require (← canSubtract ar amt amount.mpt.1) .tecINTERNAL
  let balance ← store (amt - amount.mpt.1)
  let locked ← lockMore store ar token.lockedAmount amount.mpt
  let view := view.updateToken amount.mptID sender { mptAmount := balance, lockedAmount := locked }
  let issuanceLocked ← lockMore store ar issuance.lockedAmount amount.mpt
  pure (view.updateIssuance amount.mptID { issuance with lockedAmount := issuanceLocked })

/-- The middle of `unlockEscrowMPT`: the receiver gets the net amount, or the supply shrinks by it. -/
def payReceiver (view : View A) (mptID : MPTID A) (issuance : MPTokenIssuance)
    (receiver : A) (netAmount : MPTAmount) : Except Stop (View A × MPTokenIssuance) :=
  if mptID.account ≠ receiver then do
    let token ← view.peekToken mptID receiver .tecOBJECT_NOT_FOUND
    require (← canAdd ar token.mptAmount netAmount.1) .tecINTERNAL
    let balance ← store (token.mptAmount + netAmount.1)
    pure (view.updateToken mptID receiver { token with mptAmount := balance }, issuance)
  else do
    let outstanding := issuance.outstandingAmount
    require (← canSubtract ar outstanding netAmount.1) .tecINTERNAL
    let outstanding ← store (outstanding - netAmount.1)
    let issuance := { issuance with outstandingAmount := outstanding }
    pure (view.updateIssuance mptID issuance, issuance)

/-- The end of `unlockEscrowMPT`: the difference of the amounts is the transfer fee, which leaves the supply. -/
def burnFee (view : View A) (mptID : MPTID A) (issuance : MPTokenIssuance)
    (diff : ℕ) : Except Stop (View A) :=
  if diff ≠ 0 then do
    let outstanding := issuance.outstandingAmount
    require (← canSubtract ar outstanding diff) .tecINTERNAL
    let outstanding ← store (outstanding - diff)
    pure (view.updateIssuance mptID { issuance with outstandingAmount := outstanding })
  else pure view

/-- `unlockEscrowMPT`, for a net amount that is at most the gross amount. -/
def unlockEscrowMPT (view : View A) (sender receiver : A) (netAmount : STAmount A)
    (grossAmount : MPTAmount) : Except Stop (View A) := do
  let mptID := netAmount.mptID
  let issuance ← view.peekIssuance mptID .tecOBJECT_NOT_FOUND
  let issuanceLocked ← lockLess store ar issuance.lockedAmount grossAmount
  let issuance := { issuance with lockedAmount := issuanceLocked }
  let view := view.updateIssuance mptID issuance
  let (view, issuance) ← payReceiver store ar view mptID issuance receiver netAmount.mpt
  require (mptID.account ≠ sender) .tecINTERNAL
  let token ← view.peekToken mptID sender .tecOBJECT_NOT_FOUND
  let locked ← lockLess store ar token.lockedAmount grossAmount
  let view := view.updateToken mptID sender { token with lockedAmount := locked }
  burnFee store ar view mptID issuance (grossAmount.1 - netAmount.mpt.1)

end Xrpl.MPT

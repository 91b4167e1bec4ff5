import Xrpl.MPT.Token

/-!
# Payment sandboxes: the model for multi-purpose tokens

A payment runs in a stack of sandboxes.  Each of them has its view of the ledger and a table of the credits it has seen
(`DeferredCredits`), from which `balanceHookMPT` computes what an account could spend before the payment began.  A
sandbox is created on top of another one, and its changes and its table are applied to the parent or discarded.
-/

namespace Xrpl.MPT

variable {A : Type} [DecidableEq A]

def toInt64 (z : ℤ) : ℤ := z.bmod (2 ^ 64)

structure HolderValueMPT where
  debit : ℕ := 0
  origBalance : ℕ := 0

structure IssuerValueMPT (A : Type) where
  holders : HashMap A HolderValueMPT
  credit : ℕ := 0
  origBalance : ℤ := 0
  selfDebit : ℕ := 0

abbrev DeferredCredits (A : Type) := HashMap (MPTID A) (IssuerValueMPT A)

namespace IssuerValueMPT

/-- `creditMPT` for an issuance that has no entry. -/
def first (hook : CreditHook A) : IssuerValueMPT A :=
  let amt := hook.amount.mpt.1
  if hook.sender = hook.amount.mptID.account then
    { credit := amt
      holders := AList.singleton hook.receiver { origBalance := hook.preCreditBalanceHolder }
      origBalance := hook.preCreditBalanceIssuer }
  else
    { holders := AList.singleton hook.sender { debit := amt, origBalance := hook.preCreditBalanceHolder }
      origBalance := hook.preCreditBalanceIssuer }

/-- `creditMPT` for an issuance that has an entry: balances are only recorded the first time. -/
def more (v : IssuerValueMPT A) (hook : CreditHook A) : IssuerValueMPT A :=
  let amt := hook.amount.mpt.1
  if hook.sender = hook.amount.mptID.account then
    { v with
      credit := (v.credit + amt) % 2 ^ 64
      holders := HashMap.emplace v.holders hook.receiver { origBalance := hook.preCreditBalanceHolder } }
  else
    { v with
      holders :=
        match v.holders.lookup hook.sender with
        | none => v.holders.insert hook.sender { debit := amt, origBalance := hook.preCreditBalanceHolder }
        | some h => v.holders.insert hook.sender { h with debit := (h.debit + amt) % 2 ^ 64 } }

end IssuerValueMPT

namespace DeferredCredits

def creditMPT (tab : DeferredCredits A) (hook : CreditHook A) : DeferredCredits A :=
  match tab.lookup hook.amount.mptID with
  | none => tab.insert hook.amount.mptID (.first hook)
  | some v => tab.insert hook.amount.mptID (v.more hook)

def applyHolder (holders : HashMap A HolderValueMPT) (e : Σ _ : A, HolderValueMPT) : HashMap A HolderValueMPT :=
  match holders.lookup e.1 with
  | none => holders.insert e.1 e.2
  | some h => holders.insert e.1 { h with debit := (h.debit + e.2.debit) % 2 ^ 64 }

def applyEntry (toTab : DeferredCredits A) (e : Σ _ : MPTID A, IssuerValueMPT A) : DeferredCredits A :=
  match toTab.lookup e.1 with
  | none => toTab.insert e.1 e.2
  | some toVal =>
    toTab.insert e.1
      { toVal with
        credit := (toVal.credit + e.2.credit) % 2 ^ 64
        selfDebit := (toVal.selfDebit + e.2.selfDebit) % 2 ^ 64
        holders := e.2.holders.entries.foldl applyHolder toVal.holders }

def apply (tab toTab : DeferredCredits A) : DeferredCredits A := tab.entries.foldl applyEntry toTab

/-- What `balanceHookMPT` reads from a table: nothing, no entry for the account, or its debit and its balance before. -/
def adjustment (tab : DeferredCredits A) (account : A) (mptID : MPTID A) : Option (Option (ℕ × ℤ)) :=
  (tab.lookup mptID).map fun adj =>
    if account ≠ mptID.account then (adj.holders.lookup account).map fun h => (h.debit, toInt64 h.origBalance)
    else some (adj.credit, adj.origBalance)

end DeferredCredits

structure PaymentSandbox (A : Type) where
  view : View A
  tab : DeferredCredits A

structure HookState where
  delta : ℤ
  lastBal : ℤ
  minBal : ℤ

def HookState.visit (s : HookState) : Option (Option (ℕ × ℤ)) → HookState
  | none => s
  | some none => { s with minBal := min s.lastBal s.minBal }
  | some (some (debit, origBalance)) =>
    { delta := toInt64 (s.delta + debit), lastBal := origBalance, minBal := min origBalance s.minBal }

/-- `balanceHookMPT`, called on the innermost of the sandboxes, which stands first. -/
def balanceHookMPT (layers : List (PaymentSandbox A)) (account : A) (mptID : MPTID A) (amount : ℤ) : ℤ :=
  let s := layers.foldl (fun (s : HookState) layer => s.visit (layer.tab.adjustment account mptID)) ⟨0, amount, amount⟩
  let adjustedAmt := min amount (min (toInt64 (s.lastBal - s.delta)) s.minBal)
  if 0 < adjustedAmt then adjustedAmt else 0

inductive SandboxCall (A : Type)
  /-- A move between the issuer and a holder. -/
  | send (sender receiver : A) (amount : STAmount A)
      (side : sender = amount.mptID.account ↔ receiver ≠ amount.mptID.account)
  /-- A sandbox is constructed on top of the innermost one. -/
  | create
  /-- The innermost sandbox is applied to its parent. -/
  | apply
  /-- The innermost sandbox, which has a parent, is discarded. -/
  | discard

def sandboxStep (mptokensV2 : Bool) : List (PaymentSandbox A) → SandboxCall A → Except Stop (List (PaymentSandbox A))
  | top :: layers, .send sender receiver amount _ => do
    let r ← directSendNoFeeMPT uint64 mptokensV2 top.view sender receiver amount
    pure ({ view := r.1, tab := r.2.foldl DeferredCredits.creditMPT top.tab } :: layers)
  | top :: layers, .create => pure ({ view := top.view, tab := ∅ } :: top :: layers)
  | child :: parent :: layers, .apply =>
    pure ({ view := child.view, tab := DeferredCredits.apply child.tab parent.tab } :: layers)
  | _ :: parent :: layers, .discard => pure (parent :: layers)
  | _, _ => throw (.thrown "")

end Xrpl.MPT

import Xrpl.Lib.Yields
import Xrpl.MPT.Token

/-!
# What a move between the issuer and a holder does

`directSendNoFeeMPT` is used with the issuer on one side.  A move from the issuer to a holder (`issue_spec`) raises the
supply and the holder's balance; a move from a holder to the issuer (`redeem_spec`) lowers both.
-/

namespace Xrpl.MPT

open Except

variable {z : ℤ} {code : TER}

lemma checked_of_mem (h0 : 0 ≤ z) (h : z < 2 ^ 64) : checked z = .ok z.toNat := by
  rw [checked, if_pos ⟨h0, h⟩]
  rfl

lemma uint64_of_mem (h0 : 0 ≤ z) (h : z < 2 ^ 64) : uint64 z = .ok z.toNat := by
  rw [uint64, Int.emod_eq_of_lt h0 h]
  rfl

lemma of_checked {n : ℕ} (h : checked z = .ok n) : (n : ℤ) = z ∧ n < 2 ^ 64 := by
  rw [checked] at h
  split at h
  · have h := ok.inj h
    omega
  · cases h

lemma store_agrees (h0 : 0 ≤ z) (h : z < 2 ^ 64) : Agrees (uint64 z) (checked z) := by
  rw [uint64_of_mem h0 h, checked_of_mem h0 h]
  exact Agrees.refl _

lemma of_require {condition : Bool} {u : Unit} (h : require condition code = .ok u) : condition = true := by
  cases condition with
  | true => rfl
  | false => cases h

lemma of_require_not_and {b failed : Bool} {u : Unit} (h : require (!(b && failed)) code = .ok u)
    (hb : b = true) : failed = false := by
  subst hb
  simpa using of_require h

variable {A : Type} [DecidableEq A] {store : Storage} {mptokensV2 : Bool} {view view' : View A}
  {issuance : MPTokenIssuance} {sender receiver : A} {amount : STAmount A} {x : View A × List (CreditHook A)}
  {hooks : List (CreditHook A)} {mptID : MPTID A}

lemma of_peekIssuance (h : view.peekIssuance mptID code = .ok issuance) :
    view.issuances.lookup mptID = some issuance := by
  rw [View.peekIssuance] at h
  split at h
  case h_1 hlk =>
    obtain rfl := ok.inj h
    exact hlk
  case h_2 => cases h

lemma of_peekToken {holder : A} {token : MPToken}
    (h : view.peekToken mptID holder code = .ok token) : view.mptokens.lookup (mptID, holder) = some token := by
  rw [View.peekToken] at h
  split at h
  case h_1 hlk =>
    obtain rfl := ok.inj h
    exact hlk
  case h_2 => cases h

lemma maxMPTAmount_le (issuance : MPTokenIssuance) : maxMPTAmount issuance ≤ kMaxMpTokenAmount := by
  rw [maxMPTAmount]
  cases h : issuance.maximumAmount with
  | none => exact le_rfl
  | some m => exact m.2

lemma le_of_not_overflow_yes {sendAmount outstanding maximum : ℕ}
    (h : isMPTOverflow sendAmount outstanding maximum .yes = false) (hmax : sendAmount < 2 ^ 64) :
    outstanding + sendAmount < 2 ^ 64 := by
  simp only [isMPTOverflow, if_true, Bool.or_eq_false_iff, decide_eq_false_iff_not] at h
  omega

lemma debitSender_issuer
    (h : debitSender store mptokensV2 view issuance amount.mptID.account receiver amount = .ok x) :
    (mptokensV2 = true → issuance.outstandingAmount + amount.mpt.1 < 2 ^ 64) ∧
      ∃ o, store (issuance.outstandingAmount + amount.mpt.1) = .ok o ∧
        x = (view.updateIssuance amount.mptID { issuance with outstandingAmount := o }, []) := by
  rw [debitSender, if_pos rfl] at h
  obtain ⟨_, hc, h⟩ := of_bind_eq_ok h
  obtain ⟨o, ho, h⟩ := of_bind_eq_ok h
  refine ⟨fun hv2 => ?_, o, ho, (ok.inj h).symm⟩
  exact le_of_not_overflow_yes (of_require_not_and hc hv2) (lt_of_le_of_lt amount.mpt.2 (by decide))

lemma issue_spec (hne : receiver ≠ amount.mptID.account)
    (h : directSendNoFeeMPT store mptokensV2 view amount.mptID.account receiver amount = .ok (view', hooks)) :
    ∃ issuance token o b, view.issuances.lookup amount.mptID = some issuance ∧
      view.mptokens.lookup (amount.mptID, receiver) = some token ∧
      (mptokensV2 = true → issuance.outstandingAmount + amount.mpt.1 < 2 ^ 64) ∧
      store (issuance.outstandingAmount + amount.mpt.1) = .ok o ∧ store (token.mptAmount + amount.mpt.1) = .ok b ∧
      view' = (view.updateIssuance amount.mptID { issuance with outstandingAmount := o }).updateToken amount.mptID
        receiver { token with mptAmount := b } ∧
      hooks = [⟨amount.mptID.account, receiver, amount, token.mptAmount, availableMPTAmount issuance⟩] := by
  obtain ⟨issuance, hi, h⟩ := of_bind_eq_ok h
  obtain ⟨_, hd, h⟩ := of_bind_eq_ok h
  obtain ⟨hchk, o, ho, rfl⟩ := debitSender_issuer hd
  obtain ⟨_, hc, h⟩ := of_bind_eq_ok h
  rw [creditReceiver, if_neg hne] at hc
  obtain ⟨token, ht, hc⟩ := of_bind_eq_ok hc
  obtain ⟨_, -, hc⟩ := of_bind_eq_ok hc
  obtain ⟨b, hb, hc⟩ := of_bind_eq_ok hc
  obtain rfl := ok.inj hc
  have h := Prod.ext_iff.1 (ok.inj h)
  exact ⟨issuance, token, o, b, of_peekIssuance hi, of_peekToken ht, hchk, ho, hb, h.1.symm, h.2.symm⟩

lemma redeem_spec (hne : sender ≠ amount.mptID.account)
    (h : directSendNoFeeMPT store mptokensV2 view sender amount.mptID.account amount = .ok (view', hooks)) :
    ∃ issuance token o b, view.issuances.lookup amount.mptID = some issuance ∧
      view.mptokens.lookup (amount.mptID, sender) = some token ∧ amount.mpt.1 ≤ token.mptAmount ∧
      amount.mpt.1 ≤ issuance.outstandingAmount ∧
      store (token.mptAmount - amount.mpt.1) = .ok b ∧ store (issuance.outstandingAmount - amount.mpt.1) = .ok o ∧
      view' = (view.updateToken amount.mptID sender { token with mptAmount := b }).updateIssuance amount.mptID
        { issuance with outstandingAmount := o } ∧
      hooks = [⟨sender, amount.mptID.account, amount, token.mptAmount, availableMPTAmount issuance⟩] := by
  obtain ⟨issuance, hi, h⟩ := of_bind_eq_ok h
  obtain ⟨_, hd, h⟩ := of_bind_eq_ok h
  rw [debitSender, if_neg hne] at hd
  obtain ⟨token, ht, hd⟩ := of_bind_eq_ok hd
  obtain ⟨_, hle, hd⟩ := of_bind_eq_ok hd
  obtain ⟨b, hb, hd⟩ := of_bind_eq_ok hd
  obtain rfl := ok.inj hd
  obtain ⟨_, hc, h⟩ := of_bind_eq_ok h
  rw [creditReceiver, if_pos rfl] at hc
  obtain ⟨_, hle', hc⟩ := of_bind_eq_ok hc
  obtain ⟨o, ho, hc⟩ := of_bind_eq_ok hc
  obtain rfl := ok.inj hc
  have h := Prod.ext_iff.1 (ok.inj h)
  exact ⟨issuance, token, o, b, of_peekIssuance hi, of_peekToken ht, by simpa using of_require hle,
    by simpa using of_require hle', hb, ho, h.1.symm, h.2.symm⟩

end Xrpl.MPT

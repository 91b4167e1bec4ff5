import Xrpl.MPT.AmountBounds
import Xrpl.MPT.Moves

/-!
# Conservation of the supply of a multi-purpose token

The outstanding amount of an issuance is the sum of what its holders have, locked amounts included, and the locked amount
of the issuance is the sum of what its holders have locked.  Every operation changes both sides alike (`Posted`), and no
stored amount wraps around: the operations on fields of 64 bits agree with those on checked fields.

* `Balanced`: the amounts of an issuance are the sums over its holders;
* `issue_posted`, `redeem_posted`: what a send from or to the issuer does to the sums;
* `issue_agrees`, `redeem_agrees`: it does the same on fields of 64 bits.
-/

namespace Xrpl.MPT

open Agrees View

def MPToken.locked (token : MPToken) : ℕ := token.lockedAmount.getD 0

def MPTokenIssuance.locked (issuance : MPTokenIssuance) : ℕ := issuance.lockedAmount.getD 0

variable {A : Type} [DecidableEq A]

namespace View

def total (w : MPToken → ℕ) (view : View A) (mptID : MPTID A) : ℕ :=
  view.mptokens.sumOf fun key token => if key.1 = mptID then w token else 0

def spendable (view : View A) (mptID : MPTID A) : ℕ := view.total MPToken.mptAmount mptID

def escrowed (view : View A) (mptID : MPTID A) : ℕ := view.total MPToken.locked mptID

def held (view : View A) (mptID : MPTID A) : ℕ := view.total (fun token => token.mptAmount + token.locked) mptID

lemma held_eq (view : View A) (mptID : MPTID A) : view.held mptID = view.spendable mptID + view.escrowed mptID := by
  simp only [held, spendable, escrowed, total, HashMap.sumOf]
  rw [← List.sum_map_add]
  congr 2
  funext e
  split <;> rfl

variable {view : View A} {mptID : MPTID A} {holder : A} {token : MPToken}

section

variable (w : MPToken → ℕ) (h : view.mptokens.lookup (mptID, holder) = some token)

include w h

private lemma total_updateToken (token' : MPToken) :
    (view.updateToken mptID holder token').total w mptID + w token = view.total w mptID + w token' := by
  have hs := HashMap.sumOf_replace (fun key token => if key.1 = mptID then w token else 0) h token'
  rw [if_pos rfl, if_pos rfl] at hs
  exact hs

private lemma total_updateToken_of_ne (token' : MPToken) {other : MPTID A} (hne : other ≠ mptID) :
    (view.updateToken mptID holder token').total w other = view.total w other := by
  have hs := HashMap.sumOf_replace (fun key token => if key.1 = other then w token else 0) h token'
  rw [if_neg hne.symm, if_neg hne.symm] at hs
  exact hs

lemma le_total : w token ≤ view.total w mptID := by
  have hs := HashMap.sumOf_of_lookup (fun key token => if key.1 = mptID then w token else 0) h
  rw [if_pos rfl] at hs
  rw [total, hs]
  exact Nat.le_add_left _ _

end

variable (h : view.mptokens.lookup (mptID, holder) = some token) (token' : MPToken)

include h token'

lemma spendable_updateToken : (view.updateToken mptID holder token').spendable mptID + token.mptAmount =
      view.spendable mptID + token'.mptAmount := total_updateToken _ h token'

lemma escrowed_updateToken :
    (view.updateToken mptID holder token').escrowed mptID + token.locked = view.escrowed mptID + token'.locked :=
  total_updateToken _ h token'

end View

/-- Nothing has changed about other issuances. -/
structure Elsewhere (mptID : MPTID A) (view view' : View A) : Prop where
  issuance : ∀ j ≠ mptID, view'.issuances.lookup j = view.issuances.lookup j
  spendable : ∀ j ≠ mptID, view'.spendable j = view.spendable j
  escrowed : ∀ j ≠ mptID, view'.escrowed j = view.escrowed j

namespace Elsewhere

variable {mptID : MPTID A} {view view' view'' : View A}

lemma trans (h : Elsewhere mptID view view') (h' : Elsewhere mptID view' view'') : Elsewhere mptID view view'' :=
  ⟨fun j hj => (h'.issuance j hj).trans (h.issuance j hj), fun j hj => (h'.spendable j hj).trans (h.spendable j hj),
    fun j hj => (h'.escrowed j hj).trans (h.escrowed j hj)⟩

lemma updateIssuance (view : View A) (issuance : MPTokenIssuance) :
    Elsewhere mptID view (view.updateIssuance mptID issuance) :=
  ⟨fun _ hj => AList.lookup_insert_ne hj, fun _ _ => rfl, fun _ _ => rfl⟩

lemma updateToken {holder : A} {token : MPToken} (h : view.mptokens.lookup (mptID, holder) = some token)
    (token' : MPToken) : Elsewhere mptID view (view.updateToken mptID holder token') :=
  ⟨fun _ _ => rfl, fun _ hj => total_updateToken_of_ne _ h token' hj, fun _ hj => total_updateToken_of_ne _ h token' hj⟩

end Elsewhere

/-- The operation has changed what the holders can spend and what they have locked by the given amounts, and the
issuance accordingly. -/
structure Posted (mptID : MPTID A) (view view' : View A) (spendable escrowed : ℤ) : Prop where
  issuance : ∃ issuance issuance', view.issuances.lookup mptID = some issuance ∧
    view'.issuances.lookup mptID = some issuance' ∧ maxMPTAmount issuance' = maxMPTAmount issuance ∧
    (issuance'.outstandingAmount : ℤ) = issuance.outstandingAmount + spendable + escrowed ∧
    (issuance'.locked : ℤ) = issuance.locked + escrowed
  spendable : (view'.spendable mptID : ℤ) = view.spendable mptID + spendable
  escrowed : (view'.escrowed mptID : ℤ) = view.escrowed mptID + escrowed
  elsewhere : Elsewhere mptID view view'

variable {mptID : MPTID A} {view view' : View A} {s e : ℤ}

lemma Posted.trans {view'' : View A} {s' e' : ℤ} (h : Posted mptID view view' s e)
    (h' : Posted mptID view' view'' s' e') : Posted mptID view view'' (s + s') (e + e') := by
  obtain ⟨⟨i1, i2, hi1, hi2, hmax, ho, hl⟩, hs, he, hel⟩ := h
  obtain ⟨⟨i2', i3, hi2', hi3, hmax', ho', hl'⟩, hs', he', hel'⟩ := h'
  obtain rfl : i2 = i2' := Option.some.inj (hi2.symm.trans hi2')
  exact ⟨⟨i1, i3, hi1, hi3, hmax'.trans hmax, by omega, by omega⟩, by omega, by omega, hel.trans hel'⟩

structure Balanced (view : View A) (mptID : MPTID A) (issuance : MPTokenIssuance) : Prop where
  outstanding : issuance.outstandingAmount = view.held mptID
  locked : issuance.locked = view.escrowed mptID
  lt : issuance.outstandingAmount < 2 ^ 64

lemma Balanced.le_outstanding {issuance : MPTokenIssuance}
    (h : Balanced view mptID issuance) {holder : A} {token : MPToken}
    (ht : view.mptokens.lookup (mptID, holder) = some token) :
    token.mptAmount + issuance.locked ≤ issuance.outstandingAmount := by
  have hle : token.mptAmount ≤ view.spendable mptID := le_total MPToken.mptAmount ht
  rw [h.outstanding, h.locked, held_eq]
  omega

lemma Posted.balanced (h : Posted mptID view view' s e)
    (hbal : ∀ issuance, view.issuances.lookup mptID = some issuance → Balanced view mptID issuance)
    (hlt : ∀ issuance', view'.issuances.lookup mptID = some issuance' → issuance'.outstandingAmount < 2 ^ 64)
    {issuance' : MPTokenIssuance} (hiss' : view'.issuances.lookup mptID = some issuance') :
    Balanced view' mptID issuance' := by
  obtain ⟨⟨issuance, issuance'', hi, hiss'', -, hout, hlok⟩, hs, he, -⟩ := h
  obtain rfl : issuance'' = issuance' := Option.some.inj (hiss''.symm.trans hiss')
  have hb := hbal issuance hi
  have ho := hb.outstanding
  have hl := hb.locked
  rw [held_eq] at ho
  refine ⟨?_, by omega, hlt _ hiss'⟩
  rw [held_eq]
  omega

section Moves

variable {mptokensV2 : Bool} {sender receiver : A} {amount : STAmount A} {hooks : List (CreditHook A)}

/-- The issuance and one of its tokens are written with what an operation has changed. -/
lemma posted_update {mptID : MPTID A} {holder : A} {issuance issuance' : MPTokenIssuance} {token token' : MPToken}
    {s e : ℤ} (hi : view.issuances.lookup mptID = some issuance)
    (ht : view.mptokens.lookup (mptID, holder) = some token) (hmax : issuance'.maximumAmount = issuance.maximumAmount)
    (ho : (issuance'.outstandingAmount : ℤ) = issuance.outstandingAmount + s + e)
    (hl : (issuance'.locked : ℤ) = issuance.locked + e) (hs : (token'.mptAmount : ℤ) = token.mptAmount + s)
    (he : (token'.locked : ℤ) = token.locked + e) :
    Posted mptID view ((view.updateToken mptID holder token').updateIssuance mptID issuance') s e := by
  have hsp := spendable_updateToken ht token'
  have hes := escrowed_updateToken ht token'
  refine ⟨⟨issuance, issuance', hi, AList.lookup_insert _, ?_, ho, hl⟩, ?_, ?_, ?_⟩
  · rw [maxMPTAmount, maxMPTAmount, hmax]
  · change ((view.updateToken _ _ _).spendable mptID : ℤ) = _
    omega
  · change ((view.updateToken _ _ _).escrowed mptID : ℤ) = _
    omega
  · exact (Elsewhere.updateToken ht _).trans (Elsewhere.updateIssuance _ _)

lemma issue_posted (hne : receiver ≠ amount.mptID.account)
    (h : directSendNoFeeMPT checked mptokensV2 view amount.mptID.account receiver amount = .ok (view', hooks)) :
    Posted amount.mptID view view' amount.mpt.1 0 := by
  obtain ⟨issuance, token, o, b, hi, ht, -, ho, hb, rfl, -⟩ := issue_spec hne h
  have ho := (of_checked ho).1
  exact posted_update hi ht rfl (by dsimp only; omega) (add_zero _).symm (of_checked hb).1 (add_zero _).symm

lemma redeem_posted (amount : STAmount A) (hne : sender ≠ amount.mptID.account)
    (h : directSendNoFeeMPT checked mptokensV2 view sender amount.mptID.account amount = .ok (view', hooks)) :
    Posted amount.mptID view view' (-amount.mpt.1) 0 := by
  obtain ⟨issuance, token, o, b, hi, ht, -, -, hb, ho, rfl, -⟩ := redeem_spec hne h
  have ho := (of_checked ho).1
  exact posted_update hi ht rfl (by dsimp only; omega) (add_zero _).symm (of_checked hb).1 (add_zero _).symm

lemma issue_agrees (hne : receiver ≠ amount.mptID.account)
    (hb : ∀ issuance, view.issuances.lookup amount.mptID = some issuance → Balanced view amount.mptID issuance)
    (hf : mptokensV2 = false → ∀ issuance, view.issuances.lookup amount.mptID = some issuance →
      issuance.outstandingAmount + amount.mpt.1 < 2 ^ 64) :
    Agrees (directSendNoFeeMPT uint64 mptokensV2 view amount.mptID.account receiver amount)
      (directSendNoFeeMPT checked mptokensV2 view amount.mptID.account receiver amount) := by
  refine bind_left _ fun issuance hi => ?_
  have hlk := of_peekIssuance hi
  have hd : ∀ x, debitSender uint64 mptokensV2 view issuance amount.mptID.account receiver amount = .ok x →
      issuance.outstandingAmount + amount.mpt.1 < 2 ^ 64 := by
    intro x hx
    cases hv2 : mptokensV2 with
    | true => exact (debitSender_issuer hx).1 hv2
    | false => exact hf hv2 issuance hlk
  refine Agrees.bind ?_ fun x hx => Agrees.bind ?_ fun _ _ => Agrees.refl _
  · intro x hx
    have hlt := hd x hx
    revert x
    rw [debitSender, debitSender, if_pos rfl, if_pos rfl]
    exact bind_left _ fun _ _ => Agrees.bind (store_agrees (by omega) (by omega)) fun _ _ => Agrees.refl _
  · have hlt := hd x hx
    obtain ⟨-, o, -, rfl⟩ := debitSender_issuer hx
    rw [creditReceiver, creditReceiver, if_neg hne, if_neg hne]
    refine bind_left _ fun token ht => bind_left _ fun _ _ => ?_
    have hle := (hb issuance hlk).le_outstanding (of_peekToken ht)
    exact Agrees.bind (store_agrees (by omega) (by omega)) fun _ _ => Agrees.refl _

lemma redeem_agrees (amount : STAmount A) (hne : sender ≠ amount.mptID.account)
    (hbal : ∀ issuance, view.issuances.lookup amount.mptID = some issuance → Balanced view amount.mptID issuance) :
    Agrees (directSendNoFeeMPT uint64 mptokensV2 view sender amount.mptID.account amount)
      (directSendNoFeeMPT checked mptokensV2 view sender amount.mptID.account amount) := by
  refine bind_left _ fun issuance hi => ?_
  have hb := hbal issuance (of_peekIssuance hi)
  have hlt := hb.lt
  refine Agrees.bind ?_ fun x hx => Agrees.bind ?_ fun _ _ => Agrees.refl _
  · rw [debitSender, debitSender, if_neg hne, if_neg hne]
    refine bind_left _ fun token ht => bind_left _ fun _ hc => ?_
    have hle := hb.le_outstanding (of_peekToken ht)
    have hc : amount.mpt.1 ≤ token.mptAmount := by simpa using of_require hc
    exact Agrees.bind (store_agrees (by omega) (by omega)) fun _ _ => Agrees.refl _
  · rw [creditReceiver, creditReceiver, if_pos rfl, if_pos rfl]
    refine bind_left _ fun _ hc => ?_
    have hc : amount.mpt.1 ≤ issuance.outstandingAmount := by simpa using of_require hc
    exact Agrees.bind (store_agrees (by omega) (by omega)) fun _ _ => Agrees.refl _

end Moves

end Xrpl.MPT

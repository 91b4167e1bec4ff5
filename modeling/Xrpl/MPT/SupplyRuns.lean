import Xrpl.MPT.Conservation

/-!
# The supply of a multi-purpose token over whole runs

A run is made of transfers, escrows and their releases, each of which succeeds; at some point the amendment
MPTokensV2 may become enabled, and it stays so.

* `run_conserved`: what a whole run keeps.
-/

namespace Xrpl.MPT

open Option Except AList Agrees View

variable {A : Type} [DecidableEq A]

private lemma isRate_transferRate (issuance : MPTokenIssuance) : IsRate (transferRate issuance) := by
  rw [transferRate]
  have hp : kParityRate = 1000000000 := rfl
  cases issuance.transferFee with
  | none => exact ⟨.inl rfl, by dsimp only; omega⟩
  | some fee =>
    have := fee.toNat_lt
    refine ⟨?_, by dsimp only; omega⟩
    dsimp only
    omega

/-- What holds of an issuance between two operations. -/
structure Sound (mptokensV2 : Bool) (view : View A) (mptID : MPTID A) (issuance : MPTokenIssuance) : Prop
    extends Balanced view mptID issuance where
  capped : mptokensV2 = false → issuance.outstandingAmount ≤ maxMPTAmount issuance

section Transfers

variable {mptokensV2 : Bool} {ar : Arithmetic} {view view' : View A} {sender receiver : A} {amount : STAmount A}
  {waiveFee : WaiveTransferFee} {allowOverflow : AllowMPTOverflow} {hooks : List (CreditHook A)}

/-- What a transfer does to the supply. -/
inductive Sent (mptokensV2 : Bool) (ar : Arithmetic) (view view' : View A) (sender receiver : A) (amount : STAmount A)
    (waiveFee : WaiveTransferFee) (allowOverflow : AllowMPTOverflow) : Prop
  | nothing (h : view' = view)
  | issued (h : Posted amount.mptID view view' amount.mpt.1 0) {issuance : MPTokenIssuance}
      (hissuance : view.issuances.lookup amount.mptID = some issuance)
      (hlt : issuance.outstandingAmount + amount.mpt.1 < 2 ^ 64)
      (hmax : (allowOverflow = .no ∨ mptokensV2 = false) →
        issuance.outstandingAmount + amount.mpt.1 ≤ maxMPTAmount issuance)
  | redeemed (h : Posted amount.mptID view view' (-amount.mpt.1) 0)
  | transferred {cost : MPTAmount} (h : Posted amount.mptID view view' (amount.mpt.1 - cost.1) 0)
      {issuance : MPTokenIssuance} (hissuance : view.issuances.lookup amount.mptID = some issuance)
      (hbetween : ¬ (sender = amount.mptID.account ∨ receiver = amount.mptID.account))
      (hcost : actualCost ar issuance amount.mpt waiveFee = .ok cost)

omit [DecidableEq A] in
private lemma fits_of_check {issuance : MPTokenIssuance}
    (hc : isMPTOverflow amount.mpt.1 issuance.outstandingAmount (maxMPTAmount issuance)
      (if allowOverflow = .yes ∧ mptokensV2 = true then .yes else .no) = false) :
    issuance.outstandingAmount + amount.mpt.1 < 2 ^ 64 ∧ ((allowOverflow = .no ∨ mptokensV2 = false) →
      issuance.outstandingAmount + amount.mpt.1 ≤ maxMPTAmount issuance) := by
  have hmax := maxMPTAmount_le issuance
  have hk : kMaxMpTokenAmount < 2 ^ 64 := by decide
  by_cases ha : allowOverflow = .yes ∧ mptokensV2 = true
  · rw [if_pos ha] at hc
    refine ⟨le_of_not_overflow_yes hc (lt_of_le_of_lt amount.mpt.2 hk), ?_⟩
    rintro (h | h)
    · rw [ha.1] at h
      cases h
    · rw [ha.2] at h
      cases h
  · rw [if_neg ha] at hc
    simp only [isMPTOverflow, Bool.or_eq_false_iff, decide_eq_false_iff_not] at hc
    rw [if_neg (by decide)] at hc
    exact ⟨by omega, fun _ => by omega⟩

private lemma accountSend_sent
    (h : accountSendMPT checked mptokensV2 ar view sender receiver amount waiveFee allowOverflow = .ok (view', hooks)) :
    Sent mptokensV2 ar view view' sender receiver amount waiveFee allowOverflow := by
  rw [accountSendMPT] at h
  split at h
  · exact .nothing (Prod.ext_iff.1 (ok.inj h)).1.symm
  case isFalse hne =>
  rw [not_or] at hne
  obtain ⟨issuance, hi, h⟩ := of_bind_eq_ok h
  have hi := of_peekIssuance hi
  split at h
  case isTrue hsi =>
    obtain ⟨_, hchk, h⟩ := of_bind_eq_ok h
    by_cases hs : sender = amount.mptID.account
    · subst hs
      obtain ⟨hlt, hmax⟩ := fits_of_check (of_require_not_and hchk (by simp))
      exact .issued (issue_posted (Ne.symm hne.2) h) hi hlt hmax
    · obtain rfl := hsi.resolve_left hs
      exact .redeemed (redeem_posted amount hs h)
  case isFalse hb =>
    have hsi := not_or.1 hb
    obtain ⟨cost, hc, h⟩ := of_bind_eq_ok h
    obtain ⟨⟨view1, hooks1⟩, his, h⟩ := of_bind_eq_ok h
    obtain ⟨⟨view2, hooks2⟩, hr, h⟩ := of_bind_eq_ok h
    obtain rfl := (Prod.ext_iff.1 (ok.inj h)).1
    have hp := (issue_posted hsi.2 his).trans (redeem_posted { amount with mpt := cost } hsi.1 hr)
    exact .transferred (by simpa [sub_eq_add_neg] using hp) hi hb hc

private lemma accountSend_agrees (hs : ∀ issuance, view.issuances.lookup amount.mptID = some issuance →
      Sound mptokensV2 view amount.mptID issuance) :
    Agrees (accountSendMPT uint64 mptokensV2 ar view sender receiver amount waiveFee allowOverflow)
      (accountSendMPT checked mptokensV2 ar view sender receiver amount waiveFee allowOverflow) := by
  have hb := fun issuance hi => (hs issuance hi).toBalanced
  have hf : mptokensV2 = false → ∀ issuance, view.issuances.lookup amount.mptID = some issuance →
      issuance.outstandingAmount + amount.mpt.1 < 2 ^ 64 := by
    intro hv2 issuance hi
    have := (hs issuance hi).capped hv2
    have := maxMPTAmount_le issuance
    have := amount.mpt.2
    have : kMaxMpTokenAmount = 9223372036854775807 := rfl
    omega
  rw [accountSendMPT, accountSendMPT]
  split
  · exact Agrees.refl _
  case isFalse hne =>
  rw [not_or] at hne
  refine bind_left _ fun issuance his => ?_
  split
  case isTrue hsi =>
    refine bind_left _ fun _ _ => ?_
    by_cases hse : sender = amount.mptID.account
    · subst hse
      exact issue_agrees (Ne.symm hne.2) hb hf
    · obtain rfl := hsi.resolve_left hse
      exact redeem_agrees amount hse hb
  case isFalse hsi =>
    rw [not_or] at hsi
    refine bind_left _ fun cost _ => Agrees.bind (issue_agrees hsi.2 hb hf) fun x hx => ?_
    obtain ⟨view1, hooks1⟩ := x
    have hc := issue_agrees hsi.2 hb hf _ hx
    have hp := issue_posted hsi.2 hc
    -- between the two moves the supply may be above its maximum, but it is still balanced
    have hlt : ∀ issuance', view1.issuances.lookup amount.mptID = some issuance' →
        issuance'.outstandingAmount < 2 ^ 64 := by
      intro issuance' hi'
      obtain ⟨i, t, o, b, -, -, -, ho, -, rfl, -⟩ := issue_spec hsi.2 hc
      obtain rfl := some.inj ((lookup_insert _).symm.trans hi')
      exact (of_checked ho).2
    refine Agrees.bind ?_ fun _ _ => Agrees.refl _
    exact redeem_agrees { amount with mpt := cost } hsi.1 fun issuance' hi' =>
      hp.balanced hb hlt hi'

end Transfers

/-! ### Escrow -/

section Escrow

variable {store : Storage} {ar : Arithmetic} {view view' : View A} {sender receiver : A}
  {lockedAmount : Option ℕ} {mptID : MPTID A} {issuance : MPTokenIssuance}
  {locked' : Option ℕ} {pay redeem grossAmount : MPTAmount}

private lemma of_lockMore (h : lockMore store ar lockedAmount pay = .ok locked') :
    ∃ n, store (lockedAmount.getD 0 + pay.1) = .ok n ∧ locked' = some n := by
  obtain ⟨_, -, h⟩ := of_bind_eq_ok h
  obtain ⟨_, -, h⟩ := of_bind_eq_ok h
  cases hn : store (lockedAmount.getD 0 + pay.1) with
  | error e =>
    rw [hn] at h
    cases h
  | ok n =>
    rw [hn] at h
    exact ⟨n, rfl, (ok.inj h).symm⟩

private lemma lockMore_agrees (hlt : lockedAmount.getD 0 + pay.1 < 2 ^ 64) :
    Agrees (lockMore uint64 ar lockedAmount pay) (lockMore checked ar lockedAmount pay) := by
  refine bind_left _ fun _ _ => bind_left _ fun _ _ => ?_
  rw [uint64_of_mem (by omega) (by omega), checked_of_mem (by omega) (by omega)]
  exact Agrees.refl _

private lemma of_lockLess (h : lockLess store ar lockedAmount redeem = .ok locked') :
    ∃ n, redeem.1 ≤ lockedAmount.getD 0 ∧ store (lockedAmount.getD 0 - redeem.1 : ℤ) = .ok n ∧ locked'.getD 0 = n := by
  cases lockedAmount with
  | none => cases h
  | some locked =>
    obtain ⟨b, hb, h⟩ := of_bind_eq_ok h
    obtain ⟨_, hc, h⟩ := of_bind_eq_ok h
    obtain ⟨n, hn, h⟩ := of_bind_eq_ok h
    rw [of_require hc] at hb
    refine ⟨n, le_of_canSubtract hb, hn, ?_⟩
    rw [← ok.inj h]
    split
    case isTrue hz => exact hz.symm
    case isFalse => rfl

private lemma lockLess_agrees (hlt : lockedAmount.getD 0 < 2 ^ 64) :
    Agrees (lockLess uint64 ar lockedAmount redeem) (lockLess checked ar lockedAmount redeem) := by
  cases lockedAmount with
  | none => exact Agrees.refl _
  | some locked =>
    refine bind_left _ fun b hb => bind_left _ fun _ hc => ?_
    rw [of_require hc] at hb
    have hle := le_of_canSubtract hb
    change locked < 2 ^ 64 at hlt
    exact Agrees.bind (store_agrees (by omega) (by omega)) fun _ _ => Agrees.refl _

variable {amount : STAmount A} {netAmount : STAmount A}

private lemma lockEscrow_posted (h : lockEscrowMPT checked ar view sender amount = .ok view') :
    Posted amount.mptID view view' (-amount.mpt.1) amount.mpt.1 := by
  obtain ⟨issuance, hi, h⟩ := of_bind_eq_ok h
  obtain ⟨_, -, h⟩ := of_bind_eq_ok h
  obtain ⟨token, ht, h⟩ := of_bind_eq_ok h
  obtain ⟨_, -, h⟩ := of_bind_eq_ok h
  obtain ⟨_, -, h⟩ := of_bind_eq_ok h
  obtain ⟨b, hb, h⟩ := of_bind_eq_ok h
  obtain ⟨l, hl, h⟩ := of_bind_eq_ok h
  obtain ⟨il, hil, h⟩ := of_bind_eq_ok h
  obtain ⟨n, hn, rfl⟩ := of_lockMore hl
  obtain ⟨m, hm, rfl⟩ := of_lockMore hil
  obtain rfl := ok.inj h
  exact posted_update (of_peekIssuance hi) (of_peekToken ht) rfl (by dsimp only; omega) (of_checked hm).1
    (of_checked hb).1 (of_checked hn).1

private lemma lockEscrow_agrees
    (hbal : ∀ issuance, view.issuances.lookup amount.mptID = some issuance → Balanced view amount.mptID issuance) :
    Agrees (lockEscrowMPT uint64 ar view sender amount) (lockEscrowMPT checked ar view sender amount) := by
  refine bind_left _ fun issuance hi => bind_left _ fun _ _ => ?_
  refine bind_left _ fun token ht => bind_left _ fun ok hok => bind_left _ fun _ hc => ?_
  rw [of_require hc] at hok
  have hp := le_of_canSubtract hok
  have ht := of_peekToken ht
  have hb := hbal issuance (of_peekIssuance hi)
  have hlt := hb.lt
  have hle := hb.le_outstanding ht
  have hl : token.locked ≤ issuance.locked := by
    rw [hb.locked]
    exact le_total _ ht
  refine Agrees.bind (store_agrees (by omega) (by omega)) fun _ _ => ?_
  refine Agrees.bind (lockMore_agrees ?_) fun _ _ => Agrees.bind (lockMore_agrees ?_) fun _ _ => Agrees.refl _
  · change token.locked + _ < _
    omega
  · change issuance.locked + _ < _
    omega

def delivered (netAmount : STAmount A) (receiver : A) : ℕ :=
  if netAmount.mptID.account = receiver then 0 else netAmount.mpt.1

private lemma delivered_le (netAmount : STAmount A) (receiver : A) :
    delivered netAmount receiver ≤ netAmount.mpt.1 := by
  rw [delivered]
  split
  · exact Nat.zero_le _
  · exact le_rfl

private lemma payReceiver_spec {netAmount : MPTAmount}
    {x : View A × MPTokenIssuance} (hi : view.issuances.lookup mptID = some issuance)
    (h : payReceiver checked ar view mptID issuance receiver netAmount = .ok x) :
    x.1.issuances.lookup mptID = some x.2 ∧ Elsewhere mptID view x.1 ∧
      x.2.lockedAmount = issuance.lockedAmount ∧ x.2.maximumAmount = issuance.maximumAmount ∧
      (x.1.escrowed mptID = view.escrowed mptID) ∧
      (x.1.spendable mptID : ℤ) = view.spendable mptID + delivered ⟨mptID, netAmount⟩ receiver ∧
      (x.2.outstandingAmount : ℤ) =
        issuance.outstandingAmount - netAmount.1 + delivered ⟨mptID, netAmount⟩ receiver := by
  rw [payReceiver] at h
  split at h
  case isTrue hne =>
    obtain ⟨token, ht, h⟩ := of_bind_eq_ok h
    obtain ⟨_, -, h⟩ := of_bind_eq_ok h
    obtain ⟨_, -, h⟩ := of_bind_eq_ok h
    obtain ⟨b, hb, h⟩ := of_bind_eq_ok h
    rw [← ok.inj h]
    have ht := of_peekToken ht
    have hb := (of_checked hb).1
    have hs := spendable_updateToken ht { token with mptAmount := b }
    have he := escrowed_updateToken ht { token with mptAmount := b }
    have hd : delivered ⟨mptID, netAmount⟩ receiver = netAmount.1 := if_neg hne
    refine ⟨hi, Elsewhere.updateToken ht _, rfl, rfl, ?_, ?_, ?_⟩
    · dsimp only [MPToken.locked] at he ⊢
      omega
    · dsimp only at hs ⊢
      omega
    · dsimp only
      omega
  case isFalse heq =>
    obtain ⟨_, -, h⟩ := of_bind_eq_ok h
    obtain ⟨_, -, h⟩ := of_bind_eq_ok h
    obtain ⟨o, ho, h⟩ := of_bind_eq_ok h
    rw [← ok.inj h]
    have ho := (of_checked ho).1
    have hd : delivered ⟨mptID, netAmount⟩ receiver = 0 := if_pos (not_not.1 heq)
    refine ⟨lookup_insert _, Elsewhere.updateIssuance _ _, rfl, rfl, rfl, ?_, ?_⟩
    · rw [hd]
      rfl
    · dsimp only
      omega

private lemma burnFee_spec {diff : ℕ} (hi : view.issuances.lookup mptID = some issuance)
    (h : burnFee checked ar view mptID issuance diff = .ok view') :
    ∃ issuance', view'.issuances.lookup mptID = some issuance' ∧ view'.mptokens = view.mptokens ∧
      Elsewhere mptID view view' ∧ issuance'.lockedAmount = issuance.lockedAmount ∧
      issuance'.maximumAmount = issuance.maximumAmount ∧
      (issuance'.outstandingAmount : ℤ) = issuance.outstandingAmount - diff := by
  rw [burnFee] at h
  split at h
  case isTrue =>
    obtain ⟨_, -, h⟩ := of_bind_eq_ok h
    obtain ⟨_, -, h⟩ := of_bind_eq_ok h
    obtain ⟨o, ho, h⟩ := of_bind_eq_ok h
    rw [← ok.inj h]
    exact ⟨_, lookup_insert _, rfl, Elsewhere.updateIssuance _ _, rfl, rfl, (of_checked ho).1⟩
  case isFalse hz =>
    rw [← ok.inj h]
    exact ⟨issuance, hi, rfl, ⟨fun _ _ => rfl, fun _ _ => rfl, fun _ _ => rfl⟩, rfl, rfl, by omega⟩

private lemma unlockEscrow_posted (hle : netAmount.mpt.1 ≤ grossAmount.1)
    (h : unlockEscrowMPT checked ar view sender receiver netAmount grossAmount = .ok view') :
    Posted netAmount.mptID view view' (delivered netAmount receiver) (-grossAmount.1) := by
  obtain ⟨issuance, his, h⟩ := of_bind_eq_ok h
  obtain ⟨il, hil, h⟩ := of_bind_eq_ok h
  obtain ⟨⟨view1, issuance1⟩, hp, h⟩ := of_bind_eq_ok h
  obtain ⟨_, -, h⟩ := of_bind_eq_ok h
  obtain ⟨token, htok, h⟩ := of_bind_eq_ok h
  obtain ⟨l, hl, h⟩ := of_bind_eq_ok h
  have his := of_peekIssuance his
  have htok := of_peekToken htok
  obtain ⟨n, -, hn, hil⟩ := of_lockLess hil
  obtain ⟨m, -, hm, hl⟩ := of_lockLess hl
  have hn := (of_checked hn).1
  have hm := (of_checked hm).1
  obtain ⟨hlk, hel, hlok, hmax, hesc, hsp, ho⟩ := payReceiver_spec (lookup_insert _) hp
  have hs := spendable_updateToken htok { token with lockedAmount := l }
  have he := escrowed_updateToken htok { token with lockedAmount := l }
  have hlk1 : (view1.updateToken netAmount.mptID sender { token with lockedAmount := l }).issuances.lookup
      netAmount.mptID = some issuance1 := hlk
  obtain ⟨issuance', hi', ht, hel', hlok', hmax', ho'⟩ := burnFee_spec hlk1 h
  have hsp' : view'.spendable netAmount.mptID = (view1.updateToken netAmount.mptID sender
      { token with lockedAmount := l }).spendable netAmount.mptID := by
    rw [spendable, total, ht]
    rfl
  have hesc' : view'.escrowed netAmount.mptID = (view1.updateToken netAmount.mptID sender
      { token with lockedAmount := l }).escrowed netAmount.mptID := by
    rw [escrowed, total, ht]
    rfl
  change _ = view.escrowed netAmount.mptID at hesc
  change (_ : ℤ) = view.spendable netAmount.mptID + delivered netAmount receiver at hsp
  change (_ : ℤ) = issuance.outstandingAmount - netAmount.mpt.1 + delivered netAmount receiver at ho
  dsimp only [MPToken.locked] at *
  refine ⟨⟨issuance, issuance', his, hi', ?_, ?_, ?_⟩, by omega, by omega, ?_⟩
  · rw [maxMPTAmount, maxMPTAmount, hmax', hmax]
  · omega
  · rw [MPTokenIssuance.locked, MPTokenIssuance.locked, hlok', hlok]
    omega
  · exact (Elsewhere.updateIssuance view _).trans (hel.trans ((Elsewhere.updateToken htok _).trans hel'))

private lemma payReceiver_agrees {netAmount : MPTAmount} (hlt : issuance.outstandingAmount < 2 ^ 64)
    (hf : ∀ token, view.mptokens.lookup (mptID, receiver) = some token → token.mptAmount + netAmount.1 < 2 ^ 64) :
    Agrees (payReceiver uint64 ar view mptID issuance receiver netAmount)
      (payReceiver checked ar view mptID issuance receiver netAmount) := by
  rw [payReceiver, payReceiver]
  split
  case isTrue =>
    refine bind_left _ fun token ht => bind_left _ fun _ _ => bind_left _ fun _ _ => ?_
    have := hf token (of_peekToken ht)
    exact Agrees.bind (store_agrees (by omega) (by omega)) fun _ _ => Agrees.refl _
  case isFalse =>
    refine bind_left _ fun ok hok => bind_left _ fun _ hc => ?_
    rw [of_require hc] at hok
    have := le_of_canSubtract hok
    exact Agrees.bind (store_agrees (by omega) (by omega)) fun _ _ => Agrees.refl _

private lemma burnFee_agrees (diff : MPTAmount) (hlt : issuance.outstandingAmount < 2 ^ 64) :
    Agrees (burnFee uint64 ar view mptID issuance diff.1) (burnFee checked ar view mptID issuance diff.1) := by
  rw [burnFee, burnFee]
  split
  case isTrue =>
    refine bind_left _ fun ok hok => bind_left _ fun _ hc => ?_
    rw [of_require hc] at hok
    have := le_of_canSubtract hok
    exact Agrees.bind (store_agrees (by omega) (by omega)) fun _ _ => Agrees.refl _
  case isFalse => exact Agrees.refl _

private lemma unlockEscrow_agrees (hle : netAmount.mpt.1 ≤ grossAmount.1)
    (hbal : ∀ issuance, view.issuances.lookup netAmount.mptID = some issuance →
      Balanced view netAmount.mptID issuance) :
    Agrees (unlockEscrowMPT uint64 ar view sender receiver netAmount grossAmount)
      (unlockEscrowMPT checked ar view sender receiver netAmount grossAmount) := by
  refine bind_left _ fun issuance hi => ?_
  have hb := hbal issuance (of_peekIssuance hi)
  have hlt := hb.lt
  have hlok : issuance.locked ≤ issuance.outstandingAmount := by
    rw [hb.locked, hb.outstanding, held_eq]
    exact Nat.le_add_left _ _
  have hl : Agrees (lockLess uint64 ar issuance.lockedAmount grossAmount)
      (lockLess checked ar issuance.lockedAmount grossAmount) := lockLess_agrees (lt_of_le_of_lt hlok hlt)
  refine Agrees.bind hl fun il hil => ?_
  obtain ⟨_, hg, -, -⟩ := of_lockLess hil
  change grossAmount.1 ≤ issuance.locked at hg
  have hp : Agrees (payReceiver uint64 ar (view.updateIssuance netAmount.mptID { issuance with lockedAmount := il })
      netAmount.mptID { issuance with lockedAmount := il } receiver netAmount.mpt)
      (payReceiver checked ar (view.updateIssuance netAmount.mptID { issuance with lockedAmount := il })
      netAmount.mptID { issuance with lockedAmount := il } receiver netAmount.mpt) := by
    refine payReceiver_agrees hlt fun token htok => ?_
    have := hb.le_outstanding htok
    omega
  refine Agrees.bind hp fun x hx => bind_left _ fun _ _ => bind_left _ fun token htok => ?_
  obtain ⟨view1, issuance1⟩ := x
  obtain ⟨-, -, -, -, he, -, ho⟩ := payReceiver_spec (lookup_insert _) (hp _ hx)
  change _ = view.escrowed netAmount.mptID at he
  have ht : token.locked ≤ view1.escrowed netAmount.mptID := le_total _ (of_peekToken htok)
  have hlok1 := hb.locked
  change (_ : ℤ) = issuance.outstandingAmount - netAmount.mpt.1 + delivered netAmount receiver at ho
  have hd := delivered_le netAmount receiver
  have hlt1 : issuance1.outstandingAmount < 2 ^ 64 := by
    dsimp only at ho
    omega
  have hl1 : Agrees (lockLess uint64 ar token.lockedAmount grossAmount)
      (lockLess checked ar token.lockedAmount grossAmount) := by
    refine lockLess_agrees ?_
    change token.locked < 2 ^ 64
    dsimp only at he
    omega
  refine Agrees.bind hl1 fun _ _ => ?_
  exact burnFee_agrees ⟨grossAmount.1 - netAmount.mpt.1, (Nat.sub_le _ _).trans grossAmount.2⟩ hlt1

end Escrow

/-! ### Runs -/

structure Ledger (A : Type) where
  mptokensV2 : Bool
  view : View A

inductive Call (A : Type)
  | accountSend (ar : Arithmetic) (sender receiver : A) (amount : STAmount A) (waiveFee : WaiveTransferFee)
      (allowOverflow : AllowMPTOverflow)
  | lockEscrow (ar : Arithmetic) (sender : A) (amount : STAmount A)
  | unlockEscrow (ar : Arithmetic) (sender receiver : A) (netAmount : STAmount A) (grossAmount : MPTAmount)
      (le : netAmount.mpt.1 ≤ grossAmount.1)
  | enableMPTokensV2

def step (store : Storage) (s : Ledger A) : Call A → Except Stop (Ledger A)
  | .accountSend ar sender receiver amount waiveFee allowOverflow => do
    let r ← accountSendMPT store s.mptokensV2 ar s.view sender receiver amount waiveFee allowOverflow
    pure { s with view := r.1 }
  | .lockEscrow ar sender amount => do
    let view ← lockEscrowMPT store ar s.view sender amount
    pure { s with view }
  | .unlockEscrow ar sender receiver netAmount grossAmount _ => do
    let view ← unlockEscrowMPT store ar s.view sender receiver netAmount grossAmount
    pure { s with view }
  | .enableMPTokensV2 => pure { s with mptokensV2 := true }

def Ledger.Sound (s : Ledger A) : Prop :=
  ∀ mptID issuance, s.view.issuances.lookup mptID = some issuance → MPT.Sound s.mptokensV2 s.view mptID issuance

def Ledger.Capped (s : Ledger A) (mptID : MPTID A) : Prop :=
  ∀ issuance, s.view.issuances.lookup mptID = some issuance → issuance.outstandingAmount ≤ maxMPTAmount issuance

/-- If the fee of a transfer between holders wraps around, the supply has room for what is not charged. -/
def Charged (s : Ledger A) : Call A → Prop
  | .accountSend ar sender receiver amount waiveFee _ => ar.switchover = true ∨ waiveFee = .yes ∨
      (sender = amount.mptID.account ∨ receiver = amount.mptID.account) ∨
      ∀ issuance, s.view.issuances.lookup amount.mptID = some issuance → FeeWraps amount.mpt.1 (transferRate issuance) →
        issuance.outstandingAmount + amount.mpt.1 ≤ maxMPTAmount issuance
  | _ => True

/-- The call does not allow the supply of the issuance to go beyond its maximum. -/
def Call.KeepsMaximum (mptID : MPTID A) : Call A → Prop
  | .accountSend _ _ _ amount _ allowOverflow => amount.mptID = mptID → allowOverflow = .no
  | _ => True

variable {s : Ledger A} {view' : View A} {sp e : ℤ} {mptID : MPTID A}

private lemma Posted.sound (hs : s.Sound) (h : Posted mptID s.view view' sp e)
    (hbd : ∀ issuance, s.view.issuances.lookup mptID = some issuance → issuance.outstandingAmount + sp + e < 2 ^ 64 ∧
      (s.mptokensV2 = false → issuance.outstandingAmount + sp + e ≤ maxMPTAmount issuance)) :
    Ledger.Sound { s with view := view' } := by
  intro j issuance' hj
  by_cases hne : j = mptID
  · subst hne
    obtain ⟨issuance, issuance'', hi, hi', hmax, ho, -⟩ := id h.issuance
    obtain rfl := some.inj (hi'.symm.trans hj)
    obtain ⟨hlt, hc⟩ := hbd issuance hi
    refine ⟨h.balanced (fun i hi => (hs j i hi).toBalanced) (fun i hi => ?_) hi', fun hv2 => ?_⟩
    · obtain rfl := some.inj (hi.symm.trans hi')
      omega
    · have := hc hv2
      omega
  · have hj' : s.view.issuances.lookup j = some issuance' := (h.elsewhere.issuance j hne).symm.trans hj
    have hsnd := hs j issuance' hj'
    refine ⟨⟨?_, ?_, hsnd.lt⟩, hsnd.capped⟩
    · rw [held_eq, h.elsewhere.spendable j hne, h.elsewhere.escrowed j hne, ← held_eq]
      exact hsnd.outstanding
    · rw [h.elsewhere.escrowed j hne]
      exact hsnd.locked

private lemma Posted.capped {j : MPTID A} (hs : s.Capped j) (h : Posted mptID s.view view' sp e)
    (hbd : mptID = j → ∀ issuance, s.view.issuances.lookup mptID = some issuance →
      issuance.outstandingAmount + sp + e ≤ maxMPTAmount issuance) :
    Ledger.Capped { s with view := view' } j := by
  intro issuance' hj
  by_cases hne : j = mptID
  · subst hne
    obtain ⟨issuance, issuance'', hi, hi', hmax, ho, -⟩ := id h.issuance
    obtain rfl := some.inj (hi'.symm.trans hj)
    have := hbd rfl issuance hi
    omega
  · exact hs issuance' ((h.elsewhere.issuance j hne).symm.trans hj)

private lemma Posted.of_nonpos (hs : s.Sound) (h : Posted mptID s.view view' sp e) (hle : sp + e ≤ 0) :
    Ledger.Sound { s with view := view' } ∧ ∀ j, s.Capped j → Ledger.Capped { s with view := view' } j := by
  refine ⟨Posted.sound hs h fun issuance hi => ?_, fun j hj => Posted.capped hj h fun heq issuance hi => ?_⟩
  · have := (hs mptID issuance hi).lt
    refine ⟨by omega, fun hv2 => ?_⟩
    have := (hs mptID issuance hi).capped hv2
    omega
  · subst heq
    have := hj issuance hi
    omega

private lemma Sent.sound {ar : Arithmetic} {sender receiver : A} {amount : STAmount A}
    {waiveFee : WaiveTransferFee} {allowOverflow : AllowMPTOverflow} (hs : s.Sound)
    (hchg : Charged s (.accountSend ar sender receiver amount waiveFee allowOverflow))
    (h : Sent s.mptokensV2 ar s.view view' sender receiver amount waiveFee allowOverflow) :
    Ledger.Sound { s with view := view' } ∧ ∀ j, (amount.mptID = j → allowOverflow = .no) → s.Capped j →
      Ledger.Capped { s with view := view' } j := by
  cases h with
  | nothing h =>
    subst h
    exact ⟨hs, fun _ _ hj => hj⟩
  | issued h his hlt hmax =>
    refine ⟨Posted.sound hs h fun issuance hi => ?_, fun j hno hj => Posted.capped hj h fun heq issuance hi => ?_⟩
    · obtain rfl := some.inj (his.symm.trans hi)
      refine ⟨by omega, fun hv2 => ?_⟩
      have := hmax (.inr hv2)
      omega
    · obtain rfl := some.inj (his.symm.trans hi)
      have := hmax (.inl (hno heq))
      omega
  | redeemed h =>
    obtain ⟨hsnd, hcap⟩ := Posted.of_nonpos hs h (by omega)
    exact ⟨hsnd, fun j _ hj => hcap j hj⟩
  | @transferred cost h issuance his hbe hc =>
    -- the sender pays at least what the receiver gets, or there is room for it
    have hle : amount.mpt.1 ≤ cost.1 ∨ issuance.outstandingAmount + amount.mpt.1 ≤ maxMPTAmount issuance := by
      rw [actualCost] at hc
      split at hc
      · rw [← ok.inj hc]
        exact .inl le_rfl
      case isFalse hf =>
        rcases hchg with hsw | hwa | his' | hroom
        · exact .inl (le_of_multiply (isRate_transferRate issuance) (.inl hsw) hc)
        · exact absurd hwa hf
        · exact absurd his' hbe
        · by_cases hw : FeeWraps amount.mpt.1 (transferRate issuance)
          · exact .inr (hroom issuance his hw)
          · exact .inl (le_of_multiply (isRate_transferRate issuance) (.inr hw) hc)
    rcases hle with hle | hle
    · obtain ⟨hsnd, hcap⟩ := Posted.of_nonpos hs h (by omega)
      exact ⟨hsnd, fun j _ hj => hcap j hj⟩
    · have hmax := maxMPTAmount_le issuance
      have hk : kMaxMpTokenAmount < 2 ^ 64 := by decide
      refine ⟨Posted.sound hs h fun issuance' hi => ?_, fun j _ hj => Posted.capped hj h fun _ issuance' hi => ?_⟩
      · obtain rfl := some.inj (his.symm.trans hi)
        exact ⟨by omega, fun _ => by omega⟩
      · obtain rfl := some.inj (his.symm.trans hi)
        omega

private lemma step_sound {s' : Ledger A} {c : Call A} (hs : s.Sound) (hc : Charged s c) (h : step uint64 s c = .ok s') :
    step checked s c = .ok s' ∧ s'.Sound ∧ ∀ mptID, c.KeepsMaximum mptID → s.Capped mptID → s'.Capped mptID := by
  have hb := fun mptID issuance hi => (hs mptID issuance hi).toBalanced
  cases c with
  | accountSend ar sender receiver amount waiveFee allowOverflow =>
    obtain ⟨⟨view', hooks⟩, hse, h⟩ := of_bind_eq_ok h
    obtain rfl := ok.inj h
    have hchk := accountSend_agrees (hs amount.mptID) _ hse
    refine ⟨?_, (accountSend_sent hchk).sound hs hc⟩
    rw [step, hchk]
    rfl
  | lockEscrow ar sender amount =>
    obtain ⟨view', hl, h⟩ := of_bind_eq_ok h
    obtain rfl := ok.inj h
    have hchk := lockEscrow_agrees (hb amount.mptID) _ hl
    obtain ⟨hsnd, hcap⟩ := Posted.of_nonpos hs (lockEscrow_posted hchk) (by omega)
    refine ⟨?_, hsnd, fun j _ hj => hcap j hj⟩
    rw [step, hchk]
    rfl
  | unlockEscrow ar sender receiver netAmount grossAmount hle =>
    obtain ⟨view', hu, h⟩ := of_bind_eq_ok h
    obtain rfl := ok.inj h
    have hchk := unlockEscrow_agrees hle (hb netAmount.mptID) _ hu
    have hd := delivered_le netAmount receiver
    obtain ⟨hsnd, hcap⟩ := Posted.of_nonpos hs (unlockEscrow_posted hle hchk) (by omega)
    refine ⟨?_, hsnd, fun j _ hj => hcap j hj⟩
    rw [step, hchk]
    rfl
  | enableMPTokensV2 =>
    obtain rfl := ok.inj h
    refine ⟨rfl, fun mptID issuance hi => ⟨hb mptID issuance hi, fun hv2 => ?_⟩, fun _ _ hj => hj⟩
    cases hv2

/-- The supply is conserved over every run, and no stored amount wraps around. -/
theorem run_conserved {s s' : Ledger A} {calls : List (Call A)} (hs : s.Sound)
    (hcharged : Along (step uint64) Charged s calls) (hrun : calls.foldlM (step uint64) s = .ok s') :
    (∀ mptID issuance, s'.view.issuances.lookup mptID = some issuance →
      issuance.outstandingAmount = s'.view.held mptID ∧ issuance.locked = s'.view.escrowed mptID) ∧
    calls.foldlM (step checked) s = .ok s' ∧
    ∀ mptID, (∀ c ∈ calls, c.KeepsMaximum mptID) → s.Capped mptID → s'.Capped mptID := by
  induction calls generalizing s with
  | nil =>
    obtain rfl := ok.inj hrun
    exact ⟨fun mptID issuance hi => ⟨(hs mptID issuance hi).outstanding, (hs mptID issuance hi).locked⟩, rfl,
      fun _ _ hj => hj⟩
  | cons c calls ih =>
    obtain ⟨s1, hst, hrun⟩ := of_bind_eq_ok hrun
    obtain ⟨hc, hr⟩ := hcharged
    rw [hst] at hr
    obtain ⟨hchk, hs1, hcap⟩ := step_sound hs hc hst
    obtain ⟨hcns, hru, hca⟩ := ih hs1 hr hrun
    refine ⟨hcns, ?_, fun mptID hkp hj => ?_⟩
    · rw [List.foldlM_cons, hchk]
      exact hru
    · exact hca mptID (fun c' hc' => hkp c' (List.mem_cons_of_mem _ hc')) (hcap mptID (hkp c List.mem_cons_self) hj)

def single (mptID : MPTID ℕ) (issuance : MPTokenIssuance) (mptokens : HashMap (MPTID ℕ × ℕ) MPToken) : Ledger ℕ where
  mptokensV2 := false
  view := { issuances := singleton mptID issuance, mptokens }

variable {issuance : MPTokenIssuance} {mptokens : HashMap (MPTID ℕ × ℕ) MPToken}

private lemma single_sound {mptID : MPTID ℕ}
    (h : MPT.Sound false (single mptID issuance mptokens).view mptID issuance) :
    (single mptID issuance mptokens).Sound := by
  intro j issuance' hj
  obtain ⟨rfl, rfl⟩ : j = mptID ∧ issuance' = issuance := by simpa [single] using mem_lookup_iff.1 (mem_def.2 hj)
  exact h

def sampleID : MPTID ℕ := ⟨3, 0⟩

def freshLedger : Ledger ℕ :=
  single sampleID { maximumAmount := some ⟨1000, by decide⟩, transferFee := some 10000 }
    (insert (sampleID, 1) {} (singleton (sampleID, 2) {}))

def present : Arithmetic := ⟨true, .large, .toNearest⟩

/-- The issuer pays, a payment with a fee, an escrow that is released with a fee, and a redemption. -/
def sampleCalls : List (Call ℕ) :=
  [.accountSend present 0 1 ⟨sampleID, 900, by decide⟩ .no .no,
    .accountSend present 1 2 ⟨sampleID, 300, by decide⟩ .no .no,
    .lockEscrow present 2 ⟨sampleID, 110, by decide⟩,
    .unlockEscrow present 2 1 ⟨sampleID, 100, by decide⟩ ⟨110, by decide⟩ (by decide),
    .enableMPTokensV2,
    .accountSend present 1 0 ⟨sampleID, 60, by decide⟩ .no .yes]

theorem run_conserved_sample : ∃ s', sampleCalls.foldlM (step uint64) freshLedger = .ok s' ∧
    sampleCalls.foldlM (step checked) freshLedger = .ok s' ∧ ∀ mptID issuance,
      s'.view.issuances.lookup mptID = some issuance → issuance.outstandingAmount = s'.view.held mptID := by
  have hso : (sampleCalls.foldlM (step uint64) freshLedger).toOption.isSome = true := by decide +kernel
  obtain ⟨s', hs'⟩ := isSome_iff_exists.1 hso
  have hr := of_toOption_eq_some hs'
  have hsnd : freshLedger.Sound := single_sound ⟨⟨by decide +kernel, by decide +kernel, by decide⟩, by decide⟩
  have hchg : Along (step uint64) Charged freshLedger sampleCalls := by
    refine Along.of_forall fun s c hc => ?_
    simp only [sampleCalls, List.mem_cons, List.not_mem_nil, or_false] at hc
    rcases hc with rfl | rfl | rfl | rfl | rfl | rfl <;> first | exact .inl rfl | trivial
  obtain ⟨hcns, hchk, -⟩ := run_conserved hsnd hchg hr
  exact ⟨s', hr, hchk, fun mptID issuance hi => (hcns mptID issuance hi).1⟩

/-- The whole supply is held by account 1, and the fee is 50 percent. -/
def fullLedger : Ledger ℕ :=
  single sampleID
    { outstandingAmount := 1229782938247303441, maximumAmount := some ⟨1229782938247303441, by decide⟩,
      transferFee := some 50000 }
    (insert (sampleID, 1) { mptAmount := 1229782938247303441 } (singleton (sampleID, 2) {}))

/-- Before fixUniversalNumber, account 1 pays everything to account 2. -/
def payAll : Call ℕ :=
  .accountSend ⟨false, .small, .toNearest⟩ 1 2 ⟨sampleID, 1229782938247303441, by decide⟩ .no .no

/-- The product of the amount and the rate is 2^64 - 1, so that rounding gives 0: account 1 keeps what account 2
receives, and the supply is twice its maximum. -/
theorem run_above_maximum : fullLedger.Sound ∧ fullLedger.Capped sampleID ∧ payAll.KeepsMaximum sampleID ∧
    ∃ s', [payAll].foldlM (step uint64) fullLedger = .ok s' ∧ ¬ s'.Capped sampleID := by
  have hsnd : fullLedger.Sound := single_sound ⟨⟨by decide +kernel, by decide +kernel, by decide⟩, by decide⟩
  have hr : ([payAll].foldlM (step uint64) fullLedger).toOption.any (fun s' =>
      (s'.view.issuances.lookup sampleID).any fun issuance =>
        maxMPTAmount issuance < issuance.outstandingAmount) = true := by decide +kernel
  refine ⟨hsnd, fun issuance hi => (hsnd _ _ hi).capped rfl, fun _ => rfl, ?_⟩
  obtain ⟨s', hs', ha⟩ := (any_eq_true _ _).1 hr
  obtain ⟨issuance, hi, hlt⟩ := (any_eq_true _ _).1 ha
  refine ⟨s', of_toOption_eq_some hs', fun hc => ?_⟩
  have := hc issuance hi
  simp only [decide_eq_true_eq] at hlt
  omega

end Xrpl.MPT

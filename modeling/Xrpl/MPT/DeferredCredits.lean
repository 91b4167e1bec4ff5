import Xrpl.MPT.Moves
import Xrpl.MPT.PaymentSandbox

/-!
# Credits received inside a payment cannot be spent

Beside the sandboxes we keep the moves that each of them has made (a trail).  The table of a sandbox summarises its
moves (`Summarises`): for every account with a move it has the total that was debited, and the funds of the account
when the sandbox was created.  The loop of the hook goes from the innermost sandbox outwards and adds up the debits; the
balance it has read last is the one at the start of the sandbox it has reached (`hook_spec`).

* `SendSpec`: what a move does to the funds of the two accounts;
* `entry_creditMPT`, `entry_apply`: what a credit and an application do to the table.
-/

namespace Xrpl.MPT

open List Option HashMap View CreditHook

variable {A : Type} [DecidableEq A]

namespace View

/-- What the hook is called with: the amount that the issuer may still issue, or the balance of a holder. -/
def funds (view : View A) (mptID : MPTID A) (account : A) : ℤ :=
  if account = mptID.account then ((view.issuances.lookup mptID).map availableMPTAmount).getD 0
  else ((view.mptokens.lookup (mptID, account)).map fun token => (token.mptAmount : ℤ)).getD 0

structure Valid (view : View A) : Prop where
  outstanding : ∀ mptID issuance, view.issuances.lookup mptID = some issuance →
    issuance.outstandingAmount ≤ maxMPTAmount issuance + 2 ^ 63
  balance : ∀ key token, view.mptokens.lookup key = some token → token.mptAmount ≤ kMaxMpTokenAmount

variable {view : View A} {mptID : MPTID A} {account : A}

variable {issuance : MPTokenIssuance} {holder : A}

private lemma availableMPTAmount_eq (h : issuance.outstandingAmount ≤ maxMPTAmount issuance + 2 ^ 63) :
    availableMPTAmount issuance = maxMPTAmount issuance - issuance.outstandingAmount := by
  have hmax := maxMPTAmount_le issuance
  have hk : kMaxMpTokenAmount = 9223372036854775807 := rfl
  rw [availableMPTAmount, Int.bmod_eq_of_le] <;> omega

lemma Valid.funds_mem (h : view.Valid) (mptID : MPTID A) (account : A) :
    -2 ^ 63 ≤ view.funds mptID account ∧ view.funds mptID account < 2 ^ 63 := by
  have hk : kMaxMpTokenAmount = 9223372036854775807 := rfl
  rw [funds]
  split
  · cases hi : view.issuances.lookup mptID with
    | none => decide
    | some issuance =>
      have ho := h.outstanding mptID issuance hi
      have hmax := maxMPTAmount_le issuance
      rw [map_some, getD_some, availableMPTAmount_eq ho]
      omega
  · cases ht : view.mptokens.lookup (mptID, account) with
    | none => decide
    | some token =>
      have hb := h.balance _ token ht
      rw [map_some, getD_some]
      omega

def Capped (view : View A) : Prop :=
  ∀ mptID issuance, view.issuances.lookup mptID = some issuance → issuance.outstandingAmount ≤ maxMPTAmount issuance

lemma Valid.funds_nonneg (h : view.Valid) (hc : view.Capped) (mptID : MPTID A) (account : A) :
    0 ≤ view.funds mptID account := by
  rw [funds]
  split
  · cases hi : view.issuances.lookup mptID with
    | none => exact le_rfl
    | some issuance =>
      have := hc mptID issuance hi
      rw [map_some, getD_some, availableMPTAmount_eq (h.outstanding mptID issuance hi)]
      omega
  · cases view.mptokens.lookup (mptID, account) with
    | none => exact le_rfl
    | some token => exact Int.natCast_nonneg _

private lemma funds_updateIssuance (view : View A) (mptID : MPTID A) (issuance : MPTokenIssuance) (j : MPTID A)
    (a : A) :
    (view.updateIssuance mptID issuance).funds j a =
      if j = mptID ∧ a = mptID.account then availableMPTAmount issuance else view.funds j a := by
  by_cases hj : j = mptID
  · subst hj
    by_cases ha : a = j.account
    · simp [funds, updateIssuance, ha]
    · simp [funds, updateIssuance, ha]
  · simp [funds, updateIssuance, hj]

private lemma funds_updateToken (view : View A) (hne : holder ≠ mptID.account) (token : MPToken) (j : MPTID A) (a : A) :
    (view.updateToken mptID holder token).funds j a =
      if j = mptID ∧ a = holder then (token.mptAmount : ℤ) else view.funds j a := by
  by_cases hk : j = mptID ∧ a = holder
  · obtain ⟨rfl, rfl⟩ := hk
    simp [funds, updateToken, hne]
  · have hk' : (j, a) ≠ (mptID, holder) := by simpa using hk
    simp [funds, updateToken, hk]

private lemma Valid.updateIssuance (h : view.Valid)
    (ho : issuance.outstandingAmount ≤ maxMPTAmount issuance + 2 ^ 63) : (view.updateIssuance mptID issuance).Valid := by
  refine ⟨fun j issuance' hj => ?_, h.balance⟩
  rcases of_lookup_insert hj with ⟨-, rfl⟩ | ⟨-, hj⟩
  · exact ho
  · exact h.outstanding j issuance' hj

private lemma Valid.updateToken (h : view.Valid) {token : MPToken}
    (hb : token.mptAmount ≤ kMaxMpTokenAmount) : (view.updateToken mptID holder token).Valid := by
  refine ⟨h.outstanding, fun key token' hk => ?_⟩
  rcases of_lookup_insert hk with ⟨-, rfl⟩ | ⟨-, hk⟩
  · exact hb
  · exact h.balance key token' hk

end View

lemma toInt64_of_mem {z : ℤ} (h : -2 ^ 63 ≤ z) (h' : z < 2 ^ 63) : toInt64 z = z := by
  rw [toInt64, Int.bmod_eq_of_le] <;> omega

/-! ### Moves -/

structure Move (A : Type) where
  sender : A
  receiver : A
  amount : STAmount A

def debited (moves : List (Move A)) (mptID : MPTID A) (account : A) : ℕ :=
  (moves.map fun m => if m.amount.mptID = mptID ∧ m.sender = account then m.amount.mpt.1 else 0).sum

def credited (moves : List (Move A)) (mptID : MPTID A) (account : A) : ℕ :=
  (moves.map fun m => if m.amount.mptID = mptID ∧ m.receiver = account then m.amount.mpt.1 else 0).sum

section Totals

variable (m : Move A) (moves moves' : List (Move A)) (mptID : MPTID A) (account : A)

lemma debited_cons : debited (m :: moves) mptID account =
    (if m.amount.mptID = mptID ∧ m.sender = account then m.amount.mpt.1 else 0) + debited moves mptID account := by
  rw [debited, map_cons, sum_cons, debited]

lemma credited_cons : credited (m :: moves) mptID account =
    (if m.amount.mptID = mptID ∧ m.receiver = account then m.amount.mpt.1 else 0) + credited moves mptID account := by
  rw [credited, map_cons, sum_cons, credited]

lemma debited_append : debited (moves ++ moves') mptID account =
    debited moves mptID account + debited moves' mptID account := by
  rw [debited, map_append, sum_append, debited, debited]

lemma credited_append : credited (moves ++ moves') mptID account =
    credited moves mptID account + credited moves' mptID account := by
  rw [credited, map_append, sum_append, credited, credited]

end Totals

/-- The move keeps the balance of the receiver within the amounts of MPTs. -/
def Fits (view : View A) (receiver : A) (amount : STAmount A) : Prop :=
  ∀ token ∈ view.mptokens.lookup (amount.mptID, receiver), token.mptAmount + amount.mpt.1 ≤ kMaxMpTokenAmount

instance (view : View A) (receiver : A) (amount : STAmount A) : Decidable (Fits view receiver amount) :=
  inferInstanceAs (Decidable (∀ token ∈ _, _))

def CreditHook.before (hook : CreditHook A) (account : A) : ℤ :=
  if account = hook.amount.mptID.account then hook.preCreditBalanceIssuer else toInt64 hook.preCreditBalanceHolder

/-- The view after a move, and the credit that is recorded. -/
structure SendSpec (view view' : View A) (m : Move A) (hooks : List (CreditHook A)) : Prop where
  valid : view'.Valid
  funds : ∀ i a, view'.funds i a = view.funds i a - debited [m] i a + credited [m] i a
  hook : ∃ hook : CreditHook A, hooks = [hook] ∧ hook.sender = m.sender ∧ hook.receiver = m.receiver ∧
    hook.amount = m.amount ∧ ∀ a, a = m.sender ∨ a = m.receiver → hook.before a = view.funds m.amount.mptID a

lemma debited_single (m : Move A) (i : MPTID A) (a : A) :
    debited [m] i a = if m.amount.mptID = i ∧ m.sender = a then m.amount.mpt.1 else 0 := by
  simp [debited]

lemma credited_single (m : Move A) (i : MPTID A) (a : A) :
    credited [m] i a = if m.amount.mptID = i ∧ m.receiver = a then m.amount.mpt.1 else 0 := by
  simp [credited]

/-- It is enough to know the funds at the two ends of a move, and that nothing else has changed. -/
private lemma funds_of_ends {view view' : View A} {m : Move A} (hne : m.sender ≠ m.receiver)
    (hse : view'.funds m.amount.mptID m.sender = view.funds m.amount.mptID m.sender - m.amount.mpt.1)
    (hre : view'.funds m.amount.mptID m.receiver = view.funds m.amount.mptID m.receiver + m.amount.mpt.1)
    (hrs : ∀ i a, ¬ (i = m.amount.mptID ∧ (a = m.sender ∨ a = m.receiver)) → view'.funds i a = view.funds i a)
    (i : MPTID A) (a : A) : view'.funds i a = view.funds i a - debited [m] i a + credited [m] i a := by
  rw [debited_single, credited_single]
  by_cases hi : i = m.amount.mptID
  · subst hi
    by_cases hs : a = m.sender
    · subst hs
      rw [if_pos ⟨rfl, rfl⟩, if_neg (fun h => hne h.2.symm)]
      omega
    by_cases hr : a = m.receiver
    · subst hr
      rw [if_neg (fun h => hs h.2.symm), if_pos ⟨rfl, rfl⟩]
      omega
    · rw [if_neg (fun h => hs h.2.symm), if_neg (fun h => hr h.2.symm), hrs _ _ (by tauto)]
      omega
  · rw [if_neg (fun h => hi h.1.symm), if_neg (fun h => hi h.1.symm), hrs _ _ (fun h => hi h.1)]
    omega

section Send

variable {mptokensV2 : Bool} {view view' : View A} {amount : STAmount A} {hooks : List (CreditHook A)}

private lemma eq_of_uint64 {z : ℤ} {n : ℕ} (h : uint64 z = .ok n) (h0 : 0 ≤ z) (hlt : z < 2 ^ 64) : (n : ℤ) = z := by
  have := Except.ok.inj h
  omega

variable {issuance : MPTokenIssuance} {mptID : MPTID A} {token : MPToken} {holder sender receiver : A}

private lemma funds_issuer_of_lookup (h : view.issuances.lookup mptID = some issuance) :
    view.funds mptID mptID.account = availableMPTAmount issuance := by
  rw [View.funds, if_pos rfl, h]
  rfl

private lemma funds_holder_of_lookup (hne : holder ≠ mptID.account)
    (h : view.mptokens.lookup (mptID, holder) = some token) : view.funds mptID holder = token.mptAmount := by
  rw [View.funds, if_neg hne, h]
  rfl

private lemma before_eq_funds (hv : view.Valid)
    (hne : holder ≠ amount.mptID.account) (hi : view.issuances.lookup amount.mptID = some issuance)
    (ht : view.mptokens.lookup (amount.mptID, holder) = some token) {a : A}
    (ha : a = holder ∨ a = amount.mptID.account) :
    before ⟨sender, receiver, amount, token.mptAmount, availableMPTAmount issuance⟩ a = view.funds amount.mptID a := by
  have hk : kMaxMpTokenAmount = 9223372036854775807 := rfl
  have hbd := hv.balance _ token ht
  rcases ha with rfl | rfl
  · rw [before, if_neg hne, funds_holder_of_lookup hne ht]
    exact toInt64_of_mem (by dsimp only; omega) (by dsimp only; omega)
  · rw [before, if_pos rfl, funds_issuer_of_lookup hi]

lemma issue_sendSpec (hv : view.Valid) (hne : receiver ≠ amount.mptID.account) (hf : Fits view receiver amount)
    (hfunds : -2 ^ 63 ≤ view.funds amount.mptID amount.mptID.account - amount.mpt.1)
    (h : directSendNoFeeMPT uint64 mptokensV2 view amount.mptID.account receiver amount = .ok (view', hooks)) :
    SendSpec view view' ⟨amount.mptID.account, receiver, amount⟩ hooks := by
  obtain ⟨issuance, token, o, b, hi, ht, -, ho, hb, rfl, rfl⟩ := issue_spec hne h
  have hk : kMaxMpTokenAmount = 9223372036854775807 := rfl
  have hmax := maxMPTAmount_le issuance
  have hbal := hf token ht
  have hout : issuance.outstandingAmount + amount.mpt.1 ≤ maxMPTAmount issuance + 2 ^ 63 := by
    rw [funds_issuer_of_lookup hi, availableMPTAmount_eq (hv.outstanding _ issuance hi)] at hfunds
    omega
  replace ho := eq_of_uint64 ho (by omega) (by omega)
  replace hb := eq_of_uint64 hb (by omega) (by omega)
  refine ⟨(hv.updateIssuance (by dsimp only [maxMPTAmount] at hout ⊢; omega)).updateToken (by dsimp only; omega),
    funds_of_ends hne.symm ?_ ?_ ?_, ⟨_, rfl, rfl, rfl, rfl, fun a ha => before_eq_funds hv hne hi ht ha.symm⟩⟩
  · rw [funds_updateToken _ hne, if_neg (fun h => hne h.2.symm), funds_updateIssuance, if_pos ⟨rfl, rfl⟩,
      funds_issuer_of_lookup hi, availableMPTAmount_eq (by dsimp only [maxMPTAmount] at hout ⊢; omega),
      availableMPTAmount_eq (by omega)]
    dsimp only [maxMPTAmount]
    omega
  · rw [funds_updateToken _ hne, if_pos ⟨rfl, rfl⟩, funds_holder_of_lookup hne ht]
    omega
  · intro i a hr
    rw [funds_updateToken _ hne, if_neg (by tauto), funds_updateIssuance, if_neg (by tauto)]

lemma redeem_sendSpec (hv : view.Valid) (hne : sender ≠ amount.mptID.account)
    (h : directSendNoFeeMPT uint64 mptokensV2 view sender amount.mptID.account amount = .ok (view', hooks)) :
    SendSpec view view' ⟨sender, amount.mptID.account, amount⟩ hooks := by
  obtain ⟨issuance, token, o, b, hi, ht, hle, hle', hb, ho, rfl, rfl⟩ := redeem_spec hne h
  have hk : kMaxMpTokenAmount = 9223372036854775807 := rfl
  have hmax := maxMPTAmount_le issuance
  have hout := hv.outstanding _ issuance hi
  have hbal := hv.balance _ token ht
  replace ho := eq_of_uint64 ho (by omega) (by omega)
  replace hb := eq_of_uint64 hb (by omega) (by omega)
  refine ⟨(hv.updateToken (by dsimp only; omega)).updateIssuance (by dsimp only [maxMPTAmount] at hout ⊢; omega),
    funds_of_ends hne ?_ ?_ ?_, ⟨_, rfl, rfl, rfl, rfl, fun a ha => before_eq_funds hv hne hi ht ha⟩⟩
  · rw [funds_updateIssuance, if_neg (fun h => hne h.2), funds_updateToken _ hne, if_pos ⟨rfl, rfl⟩,
      funds_holder_of_lookup hne ht]
    omega
  · rw [funds_updateIssuance, if_pos ⟨rfl, rfl⟩, funds_issuer_of_lookup hi,
      availableMPTAmount_eq (by dsimp only [maxMPTAmount] at hout ⊢; omega), availableMPTAmount_eq (by omega)]
    dsimp only [maxMPTAmount]
    omega
  · intro i a hr
    rw [funds_updateIssuance, if_neg (by tauto), funds_updateToken _ hne, if_neg (by tauto)]

end Send

namespace DeferredCredits

def entry (tab : DeferredCredits A) (account : A) (mptID : MPTID A) : Option (ℕ × ℤ) :=
  (tab.adjustment account mptID).join

def entryOf (mptID : MPTID A) (v : IssuerValueMPT A) (account : A) : Option (ℕ × ℤ) :=
  if account ≠ mptID.account then (v.holders.lookup account).map fun h => (h.debit, toInt64 h.origBalance)
  else some (v.credit, v.origBalance)

private lemma entry_eq (tab : DeferredCredits A) (account : A) (mptID : MPTID A) :
    tab.entry account mptID = (tab.lookup mptID).bind fun v => entryOf mptID v account := by
  rw [entry, adjustment]
  cases tab.lookup mptID <;> rfl

private lemma entry_insert (tab : DeferredCredits A) (i : MPTID A) (v : IssuerValueMPT A) (account : A)
    (mptID : MPTID A) :
    entry (AList.insert i v tab) account mptID =
      if mptID = i then entryOf mptID v account else tab.entry account mptID := by
  rw [entry_eq, entry_eq]
  split
  case isTrue h =>
    subst h
    rw [AList.lookup_insert, bind_some]
  case isFalse h => rw [AList.lookup_insert_ne h]

def note (hook : CreditHook A) (account : A) (e : Option (ℕ × ℤ)) : Option (ℕ × ℤ) :=
  if account = hook.sender then
    match e with
    | none => some (hook.amount.mpt.1, hook.before account)
    | some (d, b) => some ((d + hook.amount.mpt.1) % 2 ^ 64, b)
  else if account = hook.receiver then some (e.getD (0, hook.before account))
  else e

variable {hook : CreditHook A}

section

variable (side : hook.sender = hook.amount.mptID.account ↔ hook.receiver ≠ hook.amount.mptID.account)

include side

private lemma entryOf_first (account : A) :
    entryOf hook.amount.mptID (.first hook) account = note hook account none := by
  by_cases hs : hook.sender = hook.amount.mptID.account
  · have hr := side.1 hs
    simp only [entryOf, IssuerValueMPT.first, if_pos hs, note, before, HashMap.lookup_singleton]
    by_cases ha : account = hook.amount.mptID.account
    · simp [ha, hs]
    · by_cases har : account = hook.receiver
      · simp [har, hr, hs]
      · simp [ha, hs]
  · have hr : hook.receiver = hook.amount.mptID.account := by
      by_contra h
      exact hs (side.2 h)
    simp only [entryOf, IssuerValueMPT.first, if_neg hs, note, before, HashMap.lookup_singleton]
    by_cases ha : account = hook.amount.mptID.account
    · simp [ha, Ne.symm hs, hr]
    · by_cases has : account = hook.sender
      · simp [has, hs]
      · simp [ha, hr]

private lemma entryOf_more (v : IssuerValueMPT A) (account : A) :
    entryOf hook.amount.mptID (v.more hook) account = note hook account (entryOf hook.amount.mptID v account) := by
  by_cases hs : hook.sender = hook.amount.mptID.account
  · have hr := side.1 hs
    simp only [entryOf, IssuerValueMPT.more, if_pos hs, note, before]
    by_cases ha : account = hook.amount.mptID.account
    · simp [ha, hs]
    rw [lookup_emplace]
    by_cases har : account = hook.receiver
    · subst har
      cases hlk : v.holders.lookup hook.receiver <;> simp [hr, hs]
    · simp [ha, har, hs]
  · have hr : hook.receiver = hook.amount.mptID.account := by
      by_contra h
      exact hs (side.2 h)
    simp only [entryOf, IssuerValueMPT.more, if_neg hs, note, before]
    by_cases ha : account = hook.amount.mptID.account
    · simp [ha, Ne.symm hs]
    by_cases has : account = hook.sender
    · subst has
      cases hlk : v.holders.lookup hook.sender <;> simp [hs]
    · cases hlk : v.holders.lookup hook.sender <;> simp [ha, has, hr]

end

lemma entry_creditMPT (tab : DeferredCredits A)
    (side : hook.sender = hook.amount.mptID.account ↔ hook.receiver ≠ hook.amount.mptID.account) (account : A)
    (mptID : MPTID A) :
    (tab.creditMPT hook).entry account mptID =
      if mptID = hook.amount.mptID then note hook account (tab.entry account mptID) else tab.entry account mptID := by
  rw [creditMPT]
  cases hlk : tab.lookup hook.amount.mptID with
  | none =>
    rw [entry_insert]
    split
    case isTrue h =>
      subst h
      rw [entryOf_first side, entry_eq tab, hlk]
      rfl
    case isFalse => rfl
  | some v =>
    rw [entry_insert]
    split
    case isTrue h =>
      subst h
      rw [entryOf_more side, entry_eq tab, hlk]
      rfl
    case isFalse => rfl

/-- The entry of an account in a parent after a child was applied to it. -/
def combine : Option (ℕ × ℤ) → Option (ℕ × ℤ) → Option (ℕ × ℤ)
  | none, e => e
  | some e, none => some e
  | some (d, b), some (d', _) => some ((d + d') % 2 ^ 64, b)

def mergeHolder : Option HolderValueMPT → HolderValueMPT → HolderValueMPT
  | none, v => v
  | some h, v => { h with debit := (h.debit + v.debit) % 2 ^ 64 }

def mergeValue : Option (IssuerValueMPT A) → IssuerValueMPT A → IssuerValueMPT A
  | none, v => v
  | some toVal, v =>
    { toVal with
      credit := (toVal.credit + v.credit) % 2 ^ 64
      selfDebit := (toVal.selfDebit + v.selfDebit) % 2 ^ 64
      holders := v.holders.entries.foldl applyHolder toVal.holders }

private lemma entryOf_mergeValue (mptID : MPTID A) (toVal v : IssuerValueMPT A) (account : A) :
    entryOf mptID (mergeValue (some toVal) v) account = combine (entryOf mptID toVal account) (entryOf mptID v account) := by
  simp only [entryOf, mergeValue]
  split
  case isTrue =>
    have hs : ∀ (holders : HashMap A HolderValueMPT) e k, (applyHolder holders e).lookup k =
        if k = e.1 then some (mergeHolder (holders.lookup k) e.2) else holders.lookup k := by
      intro holders e k
      by_cases hk : k = e.1
      · subst hk
        cases hlk : holders.lookup e.1 <;> simp [applyHolder, mergeHolder, hlk]
      · cases hlk : holders.lookup e.1 <;> simp [applyHolder, hlk, hk]
    rw [lookup_foldl_entries hs]
    cases v.holders.lookup account with
    | none | some h => cases toVal.holders.lookup account <;> rfl
  case isFalse => rfl

lemma entry_apply (tab toTab : DeferredCredits A) (account : A) (mptID : MPTID A) :
    (tab.apply toTab).entry account mptID = combine (toTab.entry account mptID) (tab.entry account mptID) := by
  have hs : ∀ (toTab : DeferredCredits A) e k, (applyEntry toTab e).lookup k =
      if k = e.1 then some (mergeValue (toTab.lookup k) e.2) else toTab.lookup k := by
    intro toTab e k
    by_cases hk : k = e.1
    · subst hk
      cases hlk : toTab.lookup e.1 <;> simp [applyEntry, mergeValue, hlk]
    · cases hlk : toTab.lookup e.1 <;> simp [applyEntry, hlk, hk]
  rw [entry_eq, entry_eq, entry_eq, apply, lookup_foldl_entries hs]
  cases ht : tab.lookup mptID with
  | none =>
    cases toTab.lookup mptID with
    | none => rfl
    | some toVal =>
      change entryOf mptID toVal account = combine (entryOf mptID toVal account) none
      cases entryOf mptID toVal account <;> rfl
  | some v =>
    cases toTab.lookup mptID with
    | none => rfl
    | some toVal => exact entryOf_mergeValue mptID toVal v account

end DeferredCredits

end Xrpl.MPT

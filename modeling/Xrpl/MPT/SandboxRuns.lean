import Xrpl.MPT.DeferredCredits

/-!
# The balance hook over runs of nested sandboxes

* `Summarises`: the table of a sandbox and the moves made in it;
* `Tracks`: the stack of sandboxes, each on the view of the next one;
* `run_balanceHook`: the value of the hook after every run in which no total outgrows an `int64_t`.
-/

namespace Xrpl.MPT

open List Option Except DeferredCredits

variable {A : Type} [DecidableEq A]

/-- The entry of an account that had the given funds at the start, and the totals of its moves. -/
def Records (e : Option (ℕ × ℤ)) (start : ℤ) (out inn : ℕ) : Prop :=
  match e with
  | none => out = 0 ∧ inn = 0
  | some (d, b) => d = out ∧ b = start

/-- A sandbox with the given table has made the moves, and they lead from one view to the other. -/
structure Summarises (tab : DeferredCredits A) (start view : View A) (moves : List (Move A)) : Prop where
  records : ∀ i a, Records (tab.entry a i) (start.funds i a) (debited moves i a) (credited moves i a)
  funds : ∀ i a, view.funds i a = start.funds i a - debited moves i a + credited moves i a

private lemma Summarises.new (view : View A) : Summarises ∅ view view [] where
  records _ _ := ⟨rfl, rfl⟩
  funds _ _ := by simp [debited, credited]

variable {moves : List (Move A)} {i : MPTID A} {a : A} {tab : DeferredCredits A} {base : View A}
  {layers : List (PaymentSandbox A)} {trail : List (List (Move A))}

private lemma Summarises.funds_of_none {start view : View A}
    (h : Summarises tab start view moves) (he : tab.entry a i = none) :
    debited moves i a = 0 ∧ credited moves i a = 0 ∧ view.funds i a = start.funds i a := by
  have hr := h.records i a
  rw [he] at hr
  obtain ⟨ho, hin⟩ := hr
  refine ⟨ho, hin, ?_⟩
  rw [h.funds, ho, hin]
  simp

private lemma Summarises.send {start view view' : View A} {m : Move A}
    {hooks : List (CreditHook A)} (h : Summarises tab start view moves)
    (side : m.sender = m.amount.mptID.account ↔ m.receiver ≠ m.amount.mptID.account)
    (hse : SendSpec view view' m hooks) (hlt : debited moves m.amount.mptID m.sender + m.amount.mpt.1 < 2 ^ 64) :
    Summarises (hooks.foldl creditMPT tab) start view' (m :: moves) := by
  obtain ⟨-, hf, hook, rfl, hs, hr, hamt, hbef⟩ := hse
  rw [← hs, ← hr, ← hamt] at side
  refine ⟨fun i a => ?_, fun i a => ?_⟩
  · rw [foldl_cons, foldl_nil, entry_creditMPT tab side, debited_cons, credited_cons, hamt]
    have hrec := h.records i a
    by_cases hi : i = m.amount.mptID
    · subst hi
      unfold note
      rw [if_pos rfl, hs, hr, hamt]
      by_cases ha : a = m.sender
      · subst ha
        have hne : ¬ (m.amount.mptID = m.amount.mptID ∧ m.receiver = m.sender) := by
          rw [hs, hr] at side
          rintro ⟨-, h⟩
          rw [h] at side
          tauto
        rw [if_pos rfl, if_pos ⟨rfl, rfl⟩]
        cases he : tab.entry m.sender m.amount.mptID with
        | none =>
          obtain ⟨ho, -, hsa⟩ := h.funds_of_none he
          exact ⟨by omega, by rw [hbef _ (.inl rfl), hsa]⟩
        | some e =>
          rw [he] at hrec
          obtain ⟨hd, hb⟩ := hrec
          refine ⟨?_, hb⟩
          rw [hd, Nat.mod_eq_of_lt hlt, Nat.add_comm]
      · have hns : ¬ (m.amount.mptID = m.amount.mptID ∧ m.sender = a) := fun h => ha h.2.symm
        rw [if_neg ha, if_neg hns, Nat.zero_add]
        by_cases har : a = m.receiver
        · subst har
          rw [if_pos rfl]
          cases he : tab.entry m.receiver m.amount.mptID with
          | none =>
            obtain ⟨ho, -, hsa⟩ := h.funds_of_none he
            exact ⟨ho.symm, by rw [hbef _ (.inr rfl), hsa]⟩
          | some e =>
            rw [he] at hrec
            exact hrec
        · have hnr : ¬ (m.amount.mptID = m.amount.mptID ∧ m.receiver = a) := fun h => har h.2.symm
          rw [if_neg har, if_neg hnr, Nat.zero_add]
          exact hrec
    · rw [if_neg hi, if_neg (fun h => hi h.1.symm), if_neg (fun h => hi h.1.symm), Nat.zero_add, Nat.zero_add]
      exact hrec
  · rw [hf, debited_single, credited_single, h.funds, debited_cons, credited_cons]
    push_cast
    ring

private lemma Summarises.apply {toTab : DeferredCredits A} {start middle view : View A} {moves' : List (Move A)}
    (h : Summarises toTab start middle moves) (h' : Summarises tab middle view moves')
    (hlt : ∀ i a, debited (moves' ++ moves) i a < 2 ^ 64) :
    Summarises (tab.apply toTab) start view (moves' ++ moves) := by
  refine ⟨fun i a => ?_, fun i a => ?_⟩
  · rw [entry_apply, debited_append, credited_append]
    have hr := h.records i a
    have hr' := h'.records i a
    have hbd := hlt i a
    rw [debited_append] at hbd
    cases he : toTab.entry a i with
    | none =>
      obtain ⟨ho, hin, hs⟩ := h.funds_of_none he
      rw [ho, hin, ← hs]
      exact hr'
    | some e =>
      rw [he] at hr
      obtain ⟨hd, hb⟩ := hr
      cases he' : tab.entry a i with
      | none =>
        rw [he'] at hr'
        exact ⟨by rw [hd, hr'.1, Nat.zero_add], hb⟩
      | some e' =>
        rw [he'] at hr'
        refine ⟨?_, hb⟩
        rw [hd, hr'.1, Nat.add_comm, Nat.mod_eq_of_lt hbd]
  · rw [h'.funds, h.funds, debited_append, credited_append]
    push_cast
    ring

def viewOf (base : View A) : List (PaymentSandbox A) → View A
  | [] => base
  | top :: _ => top.view

/-- The sandboxes have made the moves of the trail, each on the view of the next one. -/
inductive Tracks (base : View A) : List (PaymentSandbox A) → List (List (Move A)) → Prop
  | nil : Tracks base [] []
  | cons {layers : List (PaymentSandbox A)} {trail : List (List (Move A))} {layer : PaymentSandbox A}
      {moves : List (Move A)} (h : Tracks base layers trail) (hvalid : layer.view.Valid)
      (hsum : Summarises layer.tab (viewOf base layers) layer.view moves) :
      Tracks base (layer :: layers) (moves :: trail)

private lemma Tracks.funds (h : Tracks base layers trail) (i : MPTID A) (a : A) : (viewOf base layers).funds i a =
    base.funds i a - debited trail.flatten i a + credited trail.flatten i a := by
  induction h with
  | nil => simp [debited, credited, viewOf]
  | cons h hv hsum ih =>
    rw [flatten_cons, debited_append, credited_append, viewOf, hsum.funds, ih]
    push_cast
    ring

/-- What the loop of the hook has computed when it reaches a sandbox above the given view. -/
structure HookState.At (s : HookState) (amount funds : ℤ) : Prop where
  lastBal : s.lastBal = funds
  minBal : s.lastBal - s.delta ≤ s.minBal
  amount : s.lastBal - s.delta ≤ amount
  nonneg : 0 ≤ s.delta

private lemma HookState.At.visit {s : HookState} {amount : ℤ} {start view : View A} (hs : s.At amount (view.funds i a))
    (h : Summarises tab start view moves) (hlt : s.delta + debited moves i a < 2 ^ 63) :
    (s.visit (tab.adjustment a i)).At amount (start.funds i a) ∧
      (s.visit (tab.adjustment a i)).delta = s.delta + debited moves i a := by
  obtain ⟨hl, hmin, ha, hnn⟩ := hs
  cases he : tab.entry a i with
  | none =>
    obtain ⟨ho, -, hsa⟩ := h.funds_of_none he
    rw [entry] at he
    cases hadj : tab.adjustment a i with
    | none => exact ⟨⟨hl.trans hsa, hmin, ha, hnn⟩, by rw [ho]; simp [HookState.visit]⟩
    | some e =>
      rw [hadj] at he
      obtain rfl : e = none := he
      refine ⟨⟨hl.trans hsa, ?_, ha, hnn⟩, by rw [ho]; simp [HookState.visit]⟩
      dsimp only [HookState.visit]
      omega
  | some e =>
    obtain ⟨d, b⟩ := e
    have hr := h.records i a
    have hf := h.funds i a
    rw [he] at hr
    obtain ⟨rfl, rfl⟩ := hr
    rw [entry] at he
    cases hadj : tab.adjustment a i with
    | none =>
      rw [hadj] at he
      cases he
    | some e =>
      rw [hadj] at he
      obtain rfl : e = some (debited moves i a, start.funds i a) := he
      have hd : toInt64 (s.delta + debited moves i a) = s.delta + debited moves i a := toInt64_of_mem (by omega) hlt
      simp only [HookState.visit, hd]
      refine ⟨⟨rfl, ?_, ?_, ?_⟩, trivial⟩ <;> dsimp only <;> omega

private lemma hook_spec (h : Tracks base layers trail) {s : HookState} {amount : ℤ}
    (hs : s.At amount ((viewOf base layers).funds i a)) (hlt : s.delta + debited trail.flatten i a < 2 ^ 63) :
    (layers.foldl (fun (s : HookState) layer => s.visit (layer.tab.adjustment a i)) s).At amount (base.funds i a) ∧
      (layers.foldl (fun (s : HookState) layer => s.visit (layer.tab.adjustment a i)) s).delta =
        s.delta + debited trail.flatten i a := by
  induction h generalizing s with
  | nil => exact ⟨hs, by simp [debited]⟩
  | cons h hv hsum ih =>
    rw [flatten_cons, debited_append] at hlt ⊢
    obtain ⟨hvi, hd⟩ := hs.visit hsum (by omega)
    obtain ⟨hr, hre⟩ := ih hvi (by omega)
    exact ⟨hr, hre.trans (by rw [hd]; push_cast; ring)⟩

/-- The value of the hook, as long as no total outgrows an `int64_t`. -/
private lemma balanceHookMPT_eq (hb : base.Valid) (hc : base.Capped) (h : Tracks base layers trail)
    (hlt : debited trail.flatten i a < 2 ^ 63) :
    balanceHookMPT layers a i ((viewOf base layers).funds i a) =
      max 0 (base.funds i a - debited trail.flatten i a) := by
  have hst : HookState.At ⟨0, (viewOf base layers).funds i a, (viewOf base layers).funds i a⟩
      ((viewOf base layers).funds i a) ((viewOf base layers).funds i a) :=
    ⟨rfl, by dsimp only; omega, by dsimp only; omega, le_rfl⟩
  obtain ⟨⟨hl, hmin, ha, -⟩, hd⟩ := hook_spec h hst (by dsimp only; omega)
  rw [balanceHookMPT]
  have hf := hb.funds_mem i a
  have hnn := hb.funds_nonneg hc i a
  dsimp only at *
  rw [toInt64_of_mem (by omega) (by omega)]
  split <;> omega

/-! ### Runs -/

/-- The sandboxes of a payment, and the moves that were made in each of them. -/
structure Session (A : Type) where
  layers : List (PaymentSandbox A)
  trail : List (List (Move A))

def trailStep : List (List (Move A)) → SandboxCall A → List (List (Move A))
  | moves :: trail, .send sender receiver amount _ => (⟨sender, receiver, amount⟩ :: moves) :: trail
  | trail, .create => [] :: trail
  | child :: parent :: trail, .apply => (child ++ parent) :: trail
  | _ :: trail, .discard => trail
  | trail, _ => trail

def sessionStep (mptokensV2 : Bool) (s : Session A) (c : SandboxCall A) : Except Stop (Session A) := do
  let layers ← sandboxStep mptokensV2 s.layers c
  pure { layers, trail := trailStep s.trail c }

def start (base : View A) : Session A := { layers := [{ view := base, tab := ∅ }], trail := [[]] }

/-- A move keeps the total that is debited from its sender, and the balance of a holder who gets it from the issuer,
within the amounts of MPTs.  Beyond that `lastBal - delta` and the balance outgrow an `int64_t`. -/
def Within (s : Session A) : SandboxCall A → Prop
  | .send sender receiver amount _ =>
    debited s.trail.flatten amount.mptID sender + amount.mpt.1 ≤ kMaxMpTokenAmount ∧
    (sender = amount.mptID.account → ∀ top ∈ s.layers.head?, Fits top.view receiver amount)
  | _ => True

instance (s : Session A) : ∀ c, Decidable (Within s c)
  | .send _ _ _ _ => inferInstanceAs (Decidable (_ ∧ _))
  | .create | .apply | .discard => inferInstanceAs (Decidable True)

/-- What holds between two calls. -/
structure Session.Inv (base : View A) (s : Session A) : Prop where
  tracks : Tracks base s.layers s.trail
  le : ∀ i a, debited s.trail.flatten i a ≤ kMaxMpTokenAmount

private lemma sessionStep_inv (hnn : ∀ i a, 0 ≤ base.funds i a) {mptokensV2 : Bool} {s s' : Session A}
    {c : SandboxCall A}
    (hs : s.Inv base) (hc : Within s c) (h : sessionStep mptokensV2 s c = .ok s') : s'.Inv base := by
  obtain ⟨layers, trail⟩ := s
  obtain ⟨ht, hle⟩ := hs
  obtain ⟨layers', hst, h⟩ := of_bind_eq_ok h
  obtain rfl := ok.inj h
  have hk : kMaxMpTokenAmount = 9223372036854775807 := rfl
  cases ht with
  | nil => cases c <;> cases hst
  | @cons layers trail top moves hre hv hsum =>
    cases c with
    | send sender receiver amount side =>
      obtain ⟨⟨view', hooks⟩, hse, hst⟩ := of_bind_eq_ok hst
      obtain rfl := ok.inj hst
      obtain ⟨htot, hf⟩ := hc
      have hsp : SendSpec top.view view' ⟨sender, receiver, amount⟩ hooks := by
        by_cases hs : sender = amount.mptID.account
        · subst hs
          refine issue_sendSpec hv (side.1 rfl) (hf rfl top rfl) ?_ hse
          have hfun := (Tracks.cons hre hv hsum).funds amount.mptID amount.mptID.account
          have := hnn amount.mptID amount.mptID.account
          dsimp only [viewOf] at hfun htot
          omega
        obtain rfl : receiver = amount.mptID.account := by
          by_contra hr
          exact hs (side.2 hr)
        exact redeem_sendSpec hv hs hse
      rw [flatten_cons, debited_append] at htot
      refine ⟨.cons hre hsp.valid (hsum.send side hsp (by dsimp only; omega)), fun i a => ?_⟩
      have := hle i a
      rw [flatten_cons, debited_append] at this
      rw [trailStep, flatten_cons, debited_append, debited_cons]
      dsimp only
      split
      case isTrue hsa =>
        obtain ⟨rfl, rfl⟩ := hsa
        omega
      case isFalse => omega
    | create =>
      obtain rfl := ok.inj hst
      exact ⟨.cons (.cons hre hv hsum) hv (Summarises.new _), hle⟩
    | apply =>
      cases hre with
      | nil => cases hst
      | @cons layers trail parent moves' hre hval' hsum' =>
        obtain rfl := ok.inj hst
        have hfl : ((moves ++ moves') :: trail).flatten = (moves :: moves' :: trail).flatten := by simp
        refine ⟨.cons hre hv (hsum'.apply hsum fun i a => ?_), fun i a => ?_⟩
        · have := hle i a
          rw [← hfl, flatten_cons, debited_append] at this
          omega
        · rw [trailStep, hfl]
          exact hle i a
    | discard =>
      cases hre with
      | nil => cases hst
      | @cons layers trail parent moves' hre hval' hsum' =>
        obtain rfl := ok.inj hst
        refine ⟨.cons hre hval' hsum', fun i a => ?_⟩
        have := hle i a
        rw [flatten_cons, debited_append] at this
        change debited (moves' :: trail).flatten i a ≤ _
        omega

/-- After every run the hook gives what an account could spend before the payment, less what was debited from it; and
applying a sandbox to its parent does not change that. -/
theorem run_balanceHook {base : View A} (hbase : base.Valid) (hcapped : base.Capped) {mptokensV2 : Bool}
    {calls : List (SandboxCall A)} {s : Session A} (hwithin : Along (sessionStep mptokensV2) Within (start base) calls)
    (hrun : calls.foldlM (sessionStep mptokensV2) (start base) = .ok s) (mptID : MPTID A) (account : A) :
    balanceHookMPT s.layers account mptID ((viewOf base s.layers).funds mptID account) =
      max 0 (base.funds mptID account - debited s.trail.flatten mptID account) ∧
    ∀ s', sessionStep mptokensV2 s .apply = .ok s' →
      balanceHookMPT s'.layers account mptID ((viewOf base s'.layers).funds mptID account) =
        balanceHookMPT s.layers account mptID ((viewOf base s.layers).funds mptID account) := by
  have hnn := hbase.funds_nonneg hcapped
  have hinv : s.Inv base := Along.foldlM_of_ok (fun _ _ _ => sessionStep_inv hnn)
    ⟨.cons .nil hbase (Summarises.new base), fun _ _ => Nat.zero_le _⟩ hwithin hrun
  have hvl : ∀ {s : Session A}, s.Inv base →
      balanceHookMPT s.layers account mptID ((viewOf base s.layers).funds mptID account) =
        max 0 (base.funds mptID account - debited s.trail.flatten mptID account) := fun hinv =>
    balanceHookMPT_eq hbase hcapped hinv.tracks (lt_of_le_of_lt (hinv.le mptID account) (by decide))
  refine ⟨hvl hinv, fun s' hs' => ?_⟩
  have hinv' : s'.Inv base := sessionStep_inv (c := .apply) hnn hinv trivial hs'
  rw [hvl hinv, hvl hinv']
  -- the moves of the child are moves of the parent now
  obtain ⟨layers, trail⟩ := s
  obtain ⟨layers', hst, h⟩ := of_bind_eq_ok hs'
  obtain rfl := ok.inj h
  obtain ⟨ht, -⟩ := hinv
  cases ht with
  | nil => cases hst
  | cons hr hv hsum =>
    cases hr with
    | nil => cases hst
    | cons => simp [trailStep]

def onlyHolder (outstanding : ℕ) : View ℕ where
  issuances := AList.singleton ⟨1, 0⟩ { outstandingAmount := outstanding }
  mptokens := AList.singleton (⟨1, 0⟩, 1) { mptAmount := outstanding }

private lemma onlyHolder_valid {outstanding : ℕ} (h : outstanding ≤ kMaxMpTokenAmount) :
    (onlyHolder outstanding).Valid ∧ (onlyHolder outstanding).Capped := by
  refine ⟨⟨fun i issuance hi => ?_, fun key token hk => ?_⟩, fun i issuance hi => ?_⟩
  · obtain rfl := HashMap.eq_of_lookup_singleton hi
    exact h.trans (Nat.le_add_right _ _)
  · obtain rfl := HashMap.eq_of_lookup_singleton hk
    exact h
  · obtain rfl := HashMap.eq_of_lookup_singleton hi
    exact h

def redeemCall (amount : MPTAmount) : SandboxCall ℕ := .send 1 0 ⟨⟨1, 0⟩, amount⟩ (by simp)

def issueCall (amount : MPTAmount) : SandboxCall ℕ := .send 0 1 ⟨⟨1, 0⟩, amount⟩ (by simp)

/-- Moves in a sandbox and in two children, of which the first is applied and the second discarded. -/
def nestedCalls : List (SandboxCall ℕ) :=
  [redeemCall ⟨50, by decide⟩, .create, issueCall ⟨500, by decide⟩, redeemCall ⟨120, by decide⟩, .apply, .create,
    redeemCall ⟨200, by decide⟩, .discard]

theorem run_balanceHook_nested : ∃ s, nestedCalls.foldlM (sessionStep false) (start (onlyHolder 300)) = .ok s ∧
    balanceHookMPT s.layers 1 ⟨1, 0⟩ ((viewOf (onlyHolder 300) s.layers).funds ⟨1, 0⟩ 1) =
      max 0 ((onlyHolder 300).funds ⟨1, 0⟩ 1 - debited s.trail.flatten ⟨1, 0⟩ 1) := by
  obtain ⟨hv, hc⟩ := onlyHolder_valid (show 300 ≤ kMaxMpTokenAmount by decide)
  have hso : (nestedCalls.foldlM (sessionStep false) (start (onlyHolder 300))).toOption.isSome = true := by
    decide +kernel
  obtain ⟨s, hs⟩ := isSome_iff_exists.1 hso
  have hr := of_toOption_eq_some hs
  exact ⟨s, hr, (run_balanceHook hv hc (by decide +kernel) hr ⟨1, 0⟩ 1).1⟩

def backAndForth : List (SandboxCall ℕ) :=
  (List.replicate 4 [redeemCall ⟨2 ^ 62, by decide⟩, issueCall ⟨2 ^ 62, by decide⟩]).flatten

/-- The total that was debited is 2^64, so that the table has 0: the hook gives 2^62 and not 0. -/
theorem run_debit_wraps : (onlyHolder (2 ^ 62)).Valid ∧ (onlyHolder (2 ^ 62)).Capped ∧
    ∃ s, backAndForth.foldlM (sessionStep false) (start (onlyHolder (2 ^ 62))) = .ok s ∧
      balanceHookMPT s.layers 1 ⟨1, 0⟩ ((viewOf (onlyHolder (2 ^ 62)) s.layers).funds ⟨1, 0⟩ 1) ≠
        max 0 ((onlyHolder (2 ^ 62)).funds ⟨1, 0⟩ 1 - debited s.trail.flatten ⟨1, 0⟩ 1) := by
  obtain ⟨hv, hc⟩ := onlyHolder_valid (show 2 ^ 62 ≤ kMaxMpTokenAmount by decide)
  have hr : (backAndForth.foldlM (sessionStep false) (start (onlyHolder (2 ^ 62)))).toOption.any (fun s =>
      balanceHookMPT s.layers 1 ⟨1, 0⟩ ((viewOf (onlyHolder (2 ^ 62)) s.layers).funds ⟨1, 0⟩ 1) ≠
        max 0 ((onlyHolder (2 ^ 62)).funds ⟨1, 0⟩ 1 - debited s.trail.flatten ⟨1, 0⟩ 1)) = true := by decide +kernel
  obtain ⟨s, hs, hne⟩ := (any_eq_true _ _).1 hr
  exact ⟨hv, hc, s, of_toOption_eq_some hs, by simpa using hne⟩

end Xrpl.MPT

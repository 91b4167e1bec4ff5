import Xrpl.TxQ.Greedy

/-!
# A blocker is alone in the queue of its account

`Alone q a s` says so of the candidates of the account `a` from the sequence `s` on.  The rules of `apply` look at these
candidates for the sequence of the ledger, and the sequences of an account do not fall, so that what was checked for one
ledger holds in the later ones.
-/

namespace Xrpl.TxQ

open List Option

variable {V : Type} {app : App V} {q q' m : TxQ} {a : AccountID} {s : UInt32}

/-- A blocker from the sequence `s` on is the only candidate there. -/
def Alone (q : TxQ) (a : AccountID) (s : UInt32) : Prop :=
  ∀ h c, q.find h = some c → h.account = a → .sequence s ≤ h.seqProxy → c.consequences.isBlocker →
    ∀ h', (q.find h').isSome → h'.account = a → .sequence s ≤ h'.seqProxy → h' = h

private lemma Alone.mono (ha : Alone q a s) {s' : UInt32} (hs : s ≤ s') : Alone q a s' := by
  have hle : ∀ p : SeqProxy, .sequence s' ≤ p → .sequence s ≤ p := fun p =>
    le_trans (SeqProxy.sequence_le.2 (UInt32.le_iff_toNat_le.1 hs))
  intro h c hc hac hseq hb h' hh' hac' hseq'
  exact ha h c hc hac (hle _ hseq) hb h' hh' hac' (hle _ hseq')

/-- Preflight says the same of the queued candidates when it runs again. -/
def KeepsBlockers (q : TxQ) (call : Call V) : Prop :=
  ∀ h c, q.find h = some c → ∀ rules,
    (call.app.preflight rules c.pfResult.tx c.flags).consequences.isBlocker = c.consequences.isBlocker

private lemma MaybeTx.Aged.isBlocker {c c' : MaybeTx} (ha : c.Aged app c')
    (hkp : ∀ rules, (app.preflight rules c.pfResult.tx c.flags).consequences.isBlocker = c.consequences.isBlocker) :
    c'.consequences.isBlocker = c.consequences.isBlocker := by
  rcases ha.pfResult with heq | ⟨rules, heq⟩
  · rw [consequences, heq]
    rfl
  · rw [consequences, heq, hkp]

private lemma Alone.aged (ha : Alone q a s)
    (hag : ∀ h c', q'.find h = some c' → h.account = a → ∃ c, q.find h = some c ∧
      c'.consequences.isBlocker = c.consequences.isBlocker) : Alone q' a s := by
  intro h c' hc' hac hseq hb h' hh' hac' hseq'
  obtain ⟨c, hc, hs⟩ := hag h c' hc' hac
  obtain ⟨d', hd'⟩ := isSome_iff_exists.1 hh'
  obtain ⟨d, hd, -⟩ := hag h' d' hd' hac'
  exact ha h c hc hac hseq (hs ▸ hb) h' (by rw [hd]; rfl) hac' hseq'

variable {view : V} {tx : STTx} {flags : ApplyFlags} {sleAccount : AccountRoot} {plan : Plan V}

lemma Held.find (hh : Held app view tx flags q sleAccount plan m q') (h : Handle) :
    q'.find h = if h = ⟨tx.account, tx.seqProxy⟩ then some (newTx app view tx flags) else m.find h := by
  rw [hh.new]
  exact find_insertTx hh.absent h

def live (q : TxQ) (a : AccountID) (r : UInt32) : List (SeqProxy × MaybeTx) :=
  (q.byAccount.find a).elim [] fun acct => acct.lowerBound (.sequence r)

lemma mem_live {r : UInt32} {e : SeqProxy × MaybeTx} :
    e ∈ q.live a r ↔ q.find ⟨a, e.1⟩ = some e.2 ∧ .sequence r ≤ e.1 := by
  rw [live, TxQ.find]
  cases q.byAccount.find a with
  | none => simp
  | some acct =>
    rw [elim_some, TxQAccount.lowerBound, mem_filter, decide_eq_true_iff, bind_some, OrderedMap.find_eq_some]

lemma live_sorted (q : TxQ) (a : AccountID) (r : UInt32) : (q.live a r).Pairwise fun e e' => e.1 < e'.1 := by
  rw [live]
  cases q.byAccount.find a with
  | none => exact .nil
  | some acct => exact acct.transactions.sorted.filter _

private lemma Held.alone
    (hhe : Held app view tx flags q sleAccount plan m q') (hkp : KeepsBlockers q (.apply app view tx flags))
    (ha : Alone q tx.account sleAccount.sequence) : Alone q' tx.account sleAccount.sequence := by
  have hold : ∀ h c', m.find h = some c' → ∃ c, q.find h = some c ∧
      c'.consequences.isBlocker = c.consequences.isBlocker := by
    intro h c' hc'
    obtain ⟨c, hc, hag⟩ := hhe.thinned.aged h c' hc'
    exact ⟨c, hc, hag.isBlocker (hkp h c hc)⟩
  have hlive_eq : plan.live = q.live tx.account sleAccount.sequence := hhe.admitted.live
  have hmem : ∀ {e}, e ∈ plan.live ↔ q.find ⟨tx.account, e.1⟩ = some e.2 ∧ .sequence sleAccount.sequence ≤ e.1 := by
    rw [hlive_eq]
    exact mem_live
  intro h c' hc' hac hseq hb h' hh' hac' hseq'
  rw [hhe.find] at hc' hh'
  by_contra hne
  split_ifs at hc' with hnew
  · -- the new candidate is a blocker, so that there is no other one
    rw [if_neg fun heq => hne (heq.trans hnew.symm)] at hh'
    obtain ⟨d', hd'⟩ := isSome_iff_exists.1 hh'
    obtain ⟨d, hd, -⟩ := hold h' d' hd'
    obtain rfl := some.inj hc'
    have hl : (h'.seqProxy, d) ∈ plan.live := hmem.2 ⟨by rw [← hac']; exact hd, hseq'⟩
    have heq := (hhe.admitted.blocks hb).2 _ hl
    obtain ⟨_, _⟩ := h'
    obtain rfl := hac'
    obtain rfl := heq
    exact hne hnew.symm
  · -- a queued blocker was alone, so that the new candidate replaces it
    obtain ⟨c, hc, hs⟩ := hold h c' hc'
    rw [hs] at hb
    have hl : (h.seqProxy, c) ∈ plan.live := hmem.2 ⟨by rw [← hac]; exact hc, hseq⟩
    have hall : ∀ e ∈ plan.live, e.1 = h.seqProxy := by
      intro e he
      obtain ⟨hf, hle⟩ := hmem.1 he
      exact congrArg Handle.seqProxy (ha h c hc hac hseq hb ⟨tx.account, e.1⟩ (by rw [hf]; rfl) rfl hle)
    have ho : plan.live.length = 1 := by
      have hle : (plan.live.map Prod.fst).length ≤ [h.seqProxy].length := by
        have hn : (plan.live.map Prod.fst).Nodup := by
          rw [hlive_eq]
          exact pairwise_map.2 ((live_sorted ..).imp ne_of_lt)
        refine (subperm_of_subset hn ?_).length_le
        intro p hp
        obtain ⟨e, he, rfl⟩ := mem_map.1 hp
        exact mem_singleton.2 (hall e he)
      rw [length_map] at hle
      exact Nat.le_antisymm hle (length_pos_of_mem hl)
    have heq := hhe.admitted.blocked ho _ hl hb
    refine hnew ?_
    rw [Handle.mk.injEq]
    exact ⟨hac, heq⟩

/-! ### Runs -/

/-- A call keeps blockers alone from a sequence on that is not below the one in its ledger. -/
private lemma CallEffect.alone {call : Call V} (he : CallEffect q call q') (hkp : KeepsBlockers q call)
    (ha : Alone q a s) (hr : ∀ r, call.read a = some r → r.sequence ≤ s ∧ Alone q a r.sequence) :
    Alone q' a s := by
  cases he with
  | fewer hf =>
    refine ha.aged fun h c' hc' _ => ?_
    obtain ⟨c, hc, hag⟩ := hf.aged h c' hc'
    exact ⟨c, hc, hag.isBlocker (hkp h c hc)⟩
  | @held app view tx flags sleAccount plan m q' hhe =>
    by_cases hac : tx.account = a
    · subst hac
      obtain ⟨hle, hal⟩ := hr sleAccount hhe.read
      exact (hhe.alone hkp hal).mono hle
    refine ha.aged fun h c' hc' hh => ?_
    rw [hhe.find, if_neg fun heq => hac (by rw [← hh, heq])] at hc'
    obtain ⟨c, hc, hag⟩ := hhe.thinned.aged h c' hc'
    exact ⟨c, hc, hag.isBlocker (hkp h c hc)⟩

/-- The sequences of the accounts do not fall from call to call. -/
def Ascending (calls : List (Call V)) : Prop :=
  calls.Pairwise fun earlier later => ∀ a r r', earlier.read a = some r → later.read a = some r' →
    r.sequence ≤ r'.sequence

private lemma foldlM_step_alone {calls : List (Call V)} (hasc : Ascending calls) (hq : Indexed q)
    (hkp : Along step KeepsBlockers q calls) (floor : AccountID → UInt32)
    (ha : ∀ a s, floor a ≤ s → Alone q a s)
    (hf : ∀ call ∈ calls, ∀ a r, call.read a = some r → floor a ≤ r.sequence) :
    Succeeds (calls.foldlM step q) fun q' => ∀ a s, floor a ≤ s →
      (∀ call ∈ calls, ∀ r, call.read a = some r → r.sequence ≤ s) → Alone q' a s := by
  induction calls generalizing q floor with
  | nil => exact .pure fun a s hs _ => ha a s hs
  | cons call calls ih =>
    rw [Ascending, pairwise_cons] at hasc
    rw [forall_mem_cons] at hf
    obtain ⟨hc, hcs⟩ := hkp
    obtain ⟨q1, hst, he⟩ := step_effect hq call
    -- the floor rises to the sequences in the ledger of the call
    let floor1 : AccountID → UInt32 := fun a => ((call.read a).map AccountRoot.sequence).getD (floor a)
    have hre : ∀ a r, call.read a = some r → floor1 a = r.sequence := fun a r hr => by simp [floor1, hr]
    have hn : ∀ a, call.read a = none → floor1 a = floor a := fun a hr => by simp [floor1, hr]
    have hup : ∀ a, floor a ≤ floor1 a := by
      intro a
      cases hr : call.read a with
      | none =>
        rw [hn a hr]
        exact UInt32.le_refl _
      | some r =>
        rw [hre a r hr]
        exact hf.1 a r hr
    have ha1 : ∀ a s, floor1 a ≤ s → Alone q1 a s := by
      intro a s hs
      refine he.alone hc (ha a s (UInt32.le_trans (hup a) hs)) ?_
      intro r hr
      exact ⟨hre a r hr ▸ hs, ha a _ (hf.1 a r hr)⟩
    have hf1 : ∀ later ∈ calls, ∀ a r, later.read a = some r → floor1 a ≤ r.sequence := by
      intro later hl a r hr
      cases hr0 : call.read a with
      | none =>
        rw [hn a hr0]
        exact hf.2 later hl a r hr
      | some r0 =>
        rw [hre a r0 hr0]
        exact hasc.1 later hl a r0 r hr0 hr
    rw [hst] at hcs
    rw [foldlM_cons, hst]
    refine .ok_bind ((ih hasc.2 he.indexed hcs floor1 ha1 hf1).mono ?_)
    intro q' hq' a s hs hle
    rw [forall_mem_cons] at hle
    refine hq' a s ?_ hle.2
    cases hr : call.read a with
    | none => rwa [hn a hr]
    | some r =>
      rw [hre a r hr]
      exact hle.1 r hr

/-- In every run in which the sequences of the accounts do not fall and preflight does not change its mind about
blockers, a blocker is the only candidate of its account from the current sequence of the account on. -/
theorem blocker_alone (setup : Setup) (hash : Uint256) (calls : List (Call V)) (hasc : Ascending calls)
    (hkeeps : Along step KeepsBlockers (make setup hash) calls) :
    Succeeds (calls.foldlM step (make setup hash)) fun q => ∀ a s,
      (∀ call ∈ calls, ∀ r, call.read a = some r → r.sequence ≤ s) → Alone q a s := by
  have he : ∀ a s, Alone (make setup hash) a s := by
    intro a s h c hc
    cases hc
  refine (foldlM_step_alone hasc (.make setup hash) hkeeps (fun _ => 0) (fun a s _ => he a s) ?_).mono ?_
  · intro _ _ _ _ _
    exact UInt32.zero_le
  · intro q hq a s
    exact hq a s UInt32.zero_le

/-- The ledgers of `quietApp`, with a blocker for the id 1. -/
def blockApp : App UInt32 :=
  { quietApp with verdict := fun _ tx _ => .passes (if tx.transactionID = 1 then .blocker else .normal) }

def quietTx (n : UInt32) (id : Uint256) (lastLedgerSequence : Option UInt32) : STTx :=
  { account := 7, seqProxy := .sequence n, transactionID := id, fee := 10, lastLedgerSequence }

private lemma keepsBlockers_first (hq : CallEffect (make {} 0) (.apply blockApp 5 (quietTx 1 1 none) 0) q)
    (call : Call UInt32) (ha : call.app = blockApp) : KeepsBlockers q call := by
  intro h c hc rules
  rw [ha]
  cases hq with
  | fewer hf =>
    obtain ⟨d, hd, -⟩ := hf.aged h c hc
    cases hd
  | held hh =>
    rw [hh.find] at hc
    split_ifs at hc
    · obtain rfl := some.inj hc
      rfl
    · obtain ⟨d, hd, -⟩ := hh.thinned.aged h c hc
      cases hd

/-- A blocker comes, and then another transaction of the account. -/
theorem blocker_alone_quiet :
    let calls : List (Call UInt32) := [.apply blockApp 5 (quietTx 1 1 none) 0, .apply blockApp 5 (quietTx 2 2 none) 0]
    Ascending calls ∧ Along step KeepsBlockers (make {} 0) calls ∧
      Succeeds (calls.foldlM step (make {} 0)) fun q => Alone q 7 1 := by
  intro calls
  have ha : Ascending calls := by
    refine .cons ?_ (.cons (by simp) .nil)
    intro later hl a r r' hr hr'
    obtain rfl := mem_singleton.1 hl
    cases hr
    cases hr'
    exact UInt32.le_refl _
  have hkp : Along step KeepsBlockers (make {} 0) calls := by
    refine ⟨fun h c (hc : none = some c) => (nomatch hc), ?_⟩
    obtain ⟨q1, hs, he⟩ := step_effect (.make {} 0) (Call.apply blockApp 5 (quietTx 1 1 none) 0)
    rw [hs]
    refine ⟨keepsBlockers_first he _ rfl, ?_⟩
    split <;> trivial
  refine ⟨ha, hkp, (blocker_alone {} 0 calls ha hkp).mono ?_⟩
  intro q hq
  refine hq 7 1 ?_
  intro call hca r hr
  rcases mem_cons.1 hca with rfl | hca
  · cases hr
    exact UInt32.le_refl _
  · obtain rfl := mem_singleton.1 hca
    cases hr
    exact UInt32.le_refl _

end Xrpl.TxQ

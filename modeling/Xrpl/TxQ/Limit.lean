import Mathlib.Data.Set.Card
import Xrpl.TxQ.Blockers

/-!
# The number of candidates of an account

`canBeHeld` lets an account have `maximumTxnPerAccount` candidates, and more of them where they fill the first hole
before a queued sequence.  A sequence is in use while a queued candidate of the account would use it (`InUse`), so
the holes are sequences that were in use and no longer are (`lost`).

* `Bounded`: the candidates without those at lost sequences keep to the limit;
* `txnCount_le`: the bound for every run, and `four_candidates`, a run in which one candidate expires and three come in
  its place.
-/

namespace Xrpl.TxQ

open List SeqProxy

open Option hiding mem_map

variable {V : Type} {app : App V} {q q' m : TxQ} {a : AccountID} {r : UInt32}

instance finite_seqProxy : Finite SeqProxy := by
  have hlt : ∀ s : SeqProxy, s.rank < 2 ^ 33 := by
    intro s
    cases s with
    | sequence v | ticket v =>
      have := v.toNat_lt
      rw [rank]
      omega
  exact Finite.of_injective (fun s => (⟨s.rank, hlt s⟩ : Fin (2 ^ 33))) fun s t h =>
    rank_injective (congrArg Fin.val h)

instance finite_uint32 : Finite UInt32 := Finite.of_injective UInt32.toFin fun _ _ h => UInt32.toFin_inj.1 h

def txnCount (q : TxQ) (a : AccountID) : ℕ := (q.byAccount.find a).elim 0 TxQAccount.getTxnCount

def queued (q : TxQ) (a : AccountID) : Set SeqProxy := {s | (q.find ⟨a, s⟩).isSome}

private lemma ncard_queued (q : TxQ) (a : AccountID) : (q.queued a).ncard = q.txnCount a := by
  cases ha : q.byAccount.find a with
  | none =>
    have : q.queued a = ∅ := by
      ext s
      simp [queued, find, ha]
    rw [this, Set.ncard_empty, txnCount, ha, elim_none]
  | some acct =>
    have hk : q.queued a = ↑(acct.transactions.entries.map Prod.fst).toFinset := by
      ext s
      rw [queued, Set.mem_ofPred_eq, find, ha, bind_some, isSome_iff_exists, coe_toFinset]
      simp only [OrderedMap.find_eq_some, Set.mem_ofPred_eq, mem_map, Prod.exists, exists_and_right, exists_eq_right]
    have hn : (acct.transactions.entries.map Prod.fst).Nodup := pairwise_map.2 (acct.transactions.sorted.imp ne_of_lt)
    rw [hk, Set.ncard_coe_finset, toFinset_card_of_nodup hn, length_map, txnCount, ha]
    rfl

/-- The last candidate up to a sequence would use it. -/
def UsedBy (l : List (SeqProxy × MaybeTx)) (x : SeqProxy) : Prop :=
  ∃ e ∈ l, e.1 ≤ x ∧ x < e.2.consequences.followingSeq ∧ ∀ e' ∈ l, e'.1 ≤ x → e'.1 ≤ e.1

/-- A sequence is used, or a candidate from the sequence `r` of the account on would use it. -/
def InUse (q : TxQ) (a : AccountID) (r n : UInt32) : Prop :=
  sequence n < .sequence r ∨ UsedBy (q.live a r) (.sequence n)

/-- The consequences of a transaction with a sequence lead to a later one, or to none. -/
def Onward (s : SeqProxy) (c : TxConsequences) : Prop :=
  s.isSeq → c.followingSeq = .sequence 0 ∨ s ≤ c.followingSeq ∧ c.followingSeq.isSeq

section nextOpening

variable {e : SeqProxy × MaybeTx} {rest : List (SeqProxy × MaybeTx)}

variable (hsrt : (e :: rest).Pairwise fun e e' => e.1 < e'.1)

include hsrt

private lemma usedBy_of_lt_nextOpening {x : SeqProxy}
    (hx : e.1 ≤ x) (hlt : x < nextOpening e.2.consequences.followingSeq rest) : UsedBy (e :: rest) x := by
  induction rest generalizing e with
  | nil =>
    refine ⟨e, mem_cons_self .., hx, hlt, ?_⟩
    intro e' he' _
    rw [mem_singleton.1 he']
  | cons e1 rest ih =>
    obtain ⟨hf, hr⟩ := pairwise_cons.1 hsrt
    have hlat : ∀ e' ∈ e1 :: rest, e1.1 ≤ e'.1 :=
      forall_mem_cons.2 ⟨le_rfl, fun e' he' => (rel_of_pairwise_cons hr he').le⟩
    -- before the second candidate the first one is the last
    have ho : x < e1.1 → x < e.2.consequences.followingSeq → UsedBy (e :: e1 :: rest) x := by
      intro hx1 hfol
      refine ⟨e, mem_cons_self .., hx, hfol, ?_⟩
      intro e' he' hle
      rcases mem_cons.1 he' with rfl | he'
      · exact le_rfl
      · exact absurd (hx1.trans_le (hlat e' he')) (not_lt.2 hle)
    rw [nextOpening] at hlt
    split_ifs at hlt with hg
    · exact ho (hlt.trans hg) hlt
    by_cases hx1 : x < e1.1
    · exact ho hx1 (hx1.trans_le (not_lt.1 hg))
    obtain ⟨e2, he2, hle, hfol, hl⟩ := ih hr (not_lt.1 hx1) hlt
    refine ⟨e2, mem_cons_of_mem _ he2, hle, hfol, ?_⟩
    intro e' he' hle'
    rcases mem_cons.1 he' with rfl | he'
    · exact (hf e2 he2).le
    · exact hl e' he' hle'

private lemma nextOpening_unused (ho : ∀ e' ∈ e :: rest, Onward e'.1 e'.2.consequences) (hs : e.1.isSeq) :
    nextOpening e.2.consequences.followingSeq rest = .sequence 0 ∨
      e.1 ≤ nextOpening e.2.consequences.followingSeq rest ∧
        ¬ UsedBy (e :: rest) (nextOpening e.2.consequences.followingSeq rest) := by
  induction rest generalizing e with
  | nil =>
    refine (ho e mem_cons_self hs).imp_right fun h => ⟨h.1, ?_⟩
    rintro ⟨e', he', -, hlt, -⟩
    rw [mem_singleton.1 he'] at hlt
    exact lt_irrefl _ hlt
  | cons e1 rest ih =>
    obtain ⟨hf, hr⟩ := pairwise_cons.1 hsrt
    have hlat : ∀ e' ∈ e1 :: rest, e1.1 ≤ e'.1 :=
      forall_mem_cons.2 ⟨le_rfl, fun e' he' => (rel_of_pairwise_cons hr he').le⟩
    have hn := ho e mem_cons_self hs
    rw [nextOpening]
    split_ifs with hg
    · refine hn.imp_right fun h => ⟨h.1, ?_⟩
      rintro ⟨e', he', hle, hlt, -⟩
      rcases mem_cons.1 he' with rfl | he'
      · exact lt_irrefl _ hlt
      · exact absurd (hg.trans_le (hlat e' he')) (not_lt.2 hle)
    · -- the loop goes on with a sequence, for no sequence comes after a ticket
      have hs1 : e1.1.isSeq := by
        refine isSeq_of_le ?_ (not_lt.1 hg)
        rcases hn with heq | h
        · rw [heq]
          rfl
        · exact h.2
      refine (ih hr (fun e' he' => ho e' (mem_cons_of_mem _ he')) hs1).imp_right ?_
      rintro ⟨hle1, hnot⟩
      refine ⟨(hf e1 mem_cons_self).le.trans hle1, ?_⟩
      rintro ⟨e', he', hle, hlt, hl⟩
      rcases mem_cons.1 he' with rfl | he'
      · exact not_lt_of_ge (hl e1 (mem_cons_of_mem _ mem_cons_self) hle1) (hf e1 mem_cons_self)
      · exact hnot ⟨e', he', hle, hlt, fun e2 he2 => hl e2 (mem_cons_of_mem _ he2)⟩

end nextOpening

private lemma nextQueuableSeqImpl_eq (q : TxQ) (a : AccountID) (root : AccountRoot) :
    q.nextQueuableSeqImpl a (some root) =
      match q.live a root.sequence with
      | [] => .sequence root.sequence
      | e :: rest => if e.1 ≠ .sequence root.sequence then .sequence root.sequence
        else nextOpening e.2.consequences.followingSeq rest := by
  rw [nextQueuableSeqImpl, live]
  cases q.byAccount.find a <;> rfl

variable {root : AccountRoot}

private lemma usedBy_of_lt_nextQueuable {x : SeqProxy} (hx : .sequence root.sequence ≤ x)
    (hlt : x < q.nextQueuableSeqImpl a (some root)) : UsedBy (q.live a root.sequence) x := by
  have hsrt := live_sorted q a root.sequence
  rw [nextQueuableSeqImpl_eq] at hlt
  cases hl : q.live a root.sequence with
  | nil =>
    rw [hl] at hlt
    exact absurd hlt (not_lt.2 hx)
  | cons e rest =>
    rw [hl] at hlt hsrt
    dsimp only at hlt
    split_ifs at hlt with he
    · exact absurd hlt (not_lt.2 hx)
    · rw [not_not] at he
      exact usedBy_of_lt_nextOpening hsrt (he ▸ hx) hlt

private lemma nextQueuable_unused (ho : ∀ s c, q.find ⟨a, s⟩ = some c → Onward s c.consequences)
    (hle : .sequence root.sequence ≤ q.nextQueuableSeqImpl a (some root))
    (hf : q.find ⟨a, q.nextQueuableSeqImpl a (some root)⟩ = none) :
    ¬ UsedBy (q.live a root.sequence) (q.nextQueuableSeqImpl a (some root)) := by
  -- nothing is used by a candidate up to the sequence of the account, if there is none at it
  have hr : q.nextQueuableSeqImpl a (some root) = .sequence root.sequence →
      ¬ UsedBy (q.live a root.sequence) (q.nextQueuableSeqImpl a (some root)) := by
    rintro heq ⟨e, he, hle', -, -⟩
    obtain ⟨hfi, hge⟩ := mem_live.1 he
    rw [heq] at hle' hf
    rw [le_antisymm hle' hge, hf] at hfi
    cases hfi
  have hsrt := live_sorted q a root.sequence
  have hop := nextQueuableSeqImpl_eq q a root
  cases hl : q.live a root.sequence with
  | nil =>
    rintro ⟨e, he, -⟩
    cases he
  | cons e rest =>
    rw [hl] at hop hsrt
    dsimp only at hop
    split_ifs at hop with he
    · rw [← hl]
      exact hr hop
    rw [not_not] at he
    have hmem : ∀ e' ∈ e :: rest, q.find ⟨a, e'.1⟩ = some e'.2 := fun e' he' => (mem_live.1 (hl ▸ he')).1
    rw [hop]
    rcases nextOpening_unused hsrt (fun e' he' => ho e'.1 e'.2 (hmem e' he')) (by rw [he]; rfl) with
      hz | ⟨-, hn⟩
    · -- the sequence 0 is not after the sequence of the account unless it is the first candidate
      rw [hop, hz] at hle hf
      have hfst := hmem e mem_cons_self
      have hle0 : root.sequence.toNat ≤ 0 := sequence_le.1 hle
      have h0 : root.sequence = 0 := UInt32.toNat_inj.1 (by simpa using hle0)
      rw [he, h0, hf] at hfst
      cases hfst
    · exact hn

/-- No transaction uses sequences beyond the last one. -/
def Fits (app : App V) : Prop :=
  ∀ rules tx flags k, app.verdict rules tx flags = .passes (.consumes k) → tx.seqProxy.isSeq →
    tx.seqProxy.value.toNat + k.toNat ≤ 2 ^ 32

private lemma onward_add {v k : UInt32} (h : v.toNat + k.toNat ≤ 2 ^ 32) :
    sequence (v + k) = .sequence 0 ∨ sequence v ≤ .sequence (v + k) := by
  rcases h.lt_or_eq with hlt | heq
  · refine .inr (sequence_le.2 ?_)
    rw [UInt32.toNat_add, Nat.mod_eq_of_lt hlt]
    exact Nat.le_add_right ..
  · refine .inl (congrArg sequence (UInt32.toNat_inj.1 ?_))
    rw [UInt32.toNat_add, heq]
    rfl

private lemma onward_preflight (hf : Fits app) (rules : Rules) (tx : STTx) (flags : ApplyFlags) :
    Onward tx.seqProxy (app.preflight rules tx flags).consequences := by
  intro hs
  rw [App.preflight]
  obtain ⟨account, seqProxy, id, fee, last, hasTxnID⟩ := tx
  cases seqProxy with
  | ticket v => cases hs
  | sequence v =>
    have ho : v.toNat + (1 : UInt32).toNat ≤ 2 ^ 32 := v.toNat_lt
    cases hvd : app.verdict rules ⟨account, .sequence v, id, fee, last, hasTxnID⟩ flags with
    | fails ter => exact .inl rfl
    | throws => exact (onward_add ho).imp_right fun h => ⟨h, rfl⟩
    | passes factory =>
      cases factory with
      | normal | blocker | spends amount => exact (onward_add ho).imp_right fun h => ⟨h, rfl⟩
      | consumes k => exact (onward_add (hf _ _ _ k hvd rfl)).imp_right fun h => ⟨h, rfl⟩

private lemma MaybeTx.Aged.onward {c c' : MaybeTx} {s : SeqProxy} (ha : c.Aged app c') (hf : Fits app)
    (htx : c.pfResult.tx.seqProxy = s) (ho : Onward s c.consequences) : Onward s c'.consequences := by
  rcases ha.pfResult with heq | ⟨rules, heq⟩
  · rw [consequences, heq]
    exact ho
  · rw [consequences, heq, ← htx]
    exact onward_preflight hf rules _ _

variable {tx : STTx} {flags : ApplyFlags} {view : V} {limit : ℕ}

/-- A new candidate is the first one, or one below the limit, or it fills the first opening before a queued sequence. -/
private lemma canBeHeld_cases (h : q.canBeHeld app tx flags view root none = tesSUCCESS) :
    q.byAccount.find tx.account = none ∨ q.txnCount tx.account < q.setup.maximumTxnPerAccount ∨
      tx.seqProxy.isSeq ∧ tx.seqProxy = q.nextQueuableSeqImpl tx.account (some root) ∧
        ∃ y, tx.seqProxy < .sequence y ∧ (q.find ⟨tx.account, .sequence y⟩).isSome := by
  have hq : telCAN_NOT_QUEUE ≠ tesSUCCESS := by decide
  have hf : telCAN_NOT_QUEUE_FULL ≠ tesSUCCESS := by decide
  rw [canBeHeld] at h
  split at h
  · exact absurd h hq
  split at h
  · exact absurd h hq
  cases ha : q.byAccount.find tx.account with
  | none => exact .inl rfl
  | some acct =>
    rw [ha] at h
    simp only [isSome_none, Bool.false_eq_true, if_false] at h
    split_ifs at h with hc ht hn haft
    · refine .inr (.inl ?_)
      rw [txnCount, ha]
      exact hc
    · exact absurd h hf
    · exact absurd h hf
    · refine .inr (.inr ⟨by simpa [isTicket] using ht, not_not.1 hn, ?_⟩)
      obtain ⟨⟨s, c⟩, he, hs⟩ := (any_eq_true _ _).1 haft
      cases s with
      | ticket v => cases hs
      | sequence y =>
        refine ⟨y, not_not.1 hn ▸ OrderedMap.lt_of_next he, ?_⟩
        rw [find, ha]
        exact isSome_iff_exists.2 ⟨c, OrderedMap.find_eq_some.2 (OrderedMap.mem_of_next he)⟩
    · exact absurd h hf

private lemma Held.place {plan : Plan V}
    (hh : Held app view tx flags q root plan m q') (hn : plan.replaced = none) (hs : tx.seqProxy.isSeq) :
    .sequence root.sequence ≤ tx.seqProxy ∧
      tx.seqProxy ≤ q.nextQueuableSeqImpl tx.account (some root) ⊔ .sequence root.sequence := by
  have hc := sequenceChecked_of hh.admitted.sequence
  rw [hn] at hc
  cases hm : plan.multiTxn with
  | none =>
    rw [hm] at hc
    cases hc with
    | lone le replaces => cases replaces
    | first empty eq =>
      rw [eq hs]
      exact ⟨le_rfl, le_sup_right⟩
  | some v =>
    rw [hm] at hc
    cases hc with
    | multi acct _ account le held place =>
      refine ⟨le, ?_⟩
      rw [checkPlace] at place
      split_ifs at place
      · obtain ⟨_, -, place⟩ := Except.of_bind_eq_ok place
        have hnot := of_require place
        simp only [hs, Bool.true_and, Bool.not_eq_true', decide_eq_false_iff_not, not_lt] at hnot
        exact hnot.trans le_sup_right
      · have heq := of_require place
        simp only [hs, isNone_none, Bool.true_and, Bool.not_eq_true', decide_eq_false_iff_not, not_not] at heq
        rw [heq]
        exact le_sup_left

/-! ### The bound -/

private lemma ncard_queued_insert {s0 : SeqProxy} (hs : q'.queued a ⊆ insert s0 (q.queued a))
    (hr : q.byAccount.find a = none ∨ q.txnCount a < limit) (lost : Set UInt32) :
    (q'.queued a \ Set.image sequence lost).ncard ≤ max 1 limit := by
  have hle : (q'.queued a \ Set.image sequence lost).ncard ≤ q.txnCount a + 1 := by
    rw [← ncard_queued]
    exact (Set.ncard_le_ncard (Set.sdiff_subset.trans hs)).trans (Set.ncard_insert_le ..)
  rcases hr with hn | hlt
  · rw [txnCount, hn, elim_none] at hle
    omega
  · omega

/-- The candidates of an account: those at sequences that were not lost keep to the limit, and every sequence before a
queued one is in use or it was lost. -/
structure Bounded (q : TxQ) (a : AccountID) (r : UInt32) (limit : ℕ) (lost : Set UInt32) : Prop where
  limit_eq : q.setup.maximumTxnPerAccount = limit
  tx : ∀ s c, q.find ⟨a, s⟩ = some c → c.pfResult.tx.seqProxy = s
  onward : ∀ s c, q.find ⟨a, s⟩ = some c → Onward s c.consequences
  few : (q.queued a \ Set.image sequence lost).ncard ≤ max 1 limit
  holes : ∀ n y, ¬ InUse q a r n → sequence n < .sequence y → (q.find ⟨a, .sequence y⟩).isSome → n ∈ lost

namespace Bounded

variable {lost : Set UInt32} {plan : Plan V}

section

variable (hb : Bounded q a r limit lost)

include hb

private lemma changed (r' : UInt32) : Bounded q a r' limit (lost ∪ {n | InUse q a r n ∧ ¬ InUse q a r' n}) := by
  refine ⟨hb.limit_eq, hb.tx, hb.onward, ?_, ?_⟩
  · refine (Set.ncard_le_ncard ?_).trans hb.few
    exact Set.sdiff_subset_sdiff_right (Set.image_mono Set.subset_union_left)
  intro n y hn hlt hy
  by_cases hu : InUse q a r n
  · exact .inr ⟨hu, hn⟩
  · exact .inl (hb.holes n y hu hlt hy)

private lemma few_mono {lost' : Set UInt32} (hl : lost ⊆ lost')
    (hsub : ∀ s ∈ q'.queued a, s ∈ q.queued a ∨ s ∈ Set.image sequence lost) :
    (q'.queued a \ Set.image sequence lost').ncard ≤ max 1 limit := by
  refine (Set.ncard_le_ncard ?_).trans hb.few
  rintro s ⟨hs, hn⟩
  have hn' : s ∉ Set.image sequence lost := fun hmem => hn (Set.image_mono hl hmem)
  exact ⟨(hsub s hs).resolve_right hn', hn'⟩

private lemma fewer (hf : Fits app) (hse : q'.setup = q.setup)
    (ha : ∀ s c', q'.find ⟨a, s⟩ = some c' → ∃ c, q.find ⟨a, s⟩ = some c ∧ c.Aged app c') (r' : UInt32) :
    Bounded q' a r' limit (lost ∪ {n | InUse q a r n ∧ ¬ InUse q' a r' n}) := by
  have hold : ∀ s, (q'.find ⟨a, s⟩).isSome → (q.find ⟨a, s⟩).isSome := by
    intro s hs
    obtain ⟨c', hc'⟩ := isSome_iff_exists.1 hs
    obtain ⟨c, hc, -⟩ := ha s c' hc'
    rw [hc]
    rfl
  refine ⟨hse ▸ hb.limit_eq, ?_, ?_, hb.few_mono Set.subset_union_left fun s hs => .inl (hold s hs), ?_⟩
  · intro s c' hc'
    obtain ⟨c, hc, hage⟩ := ha s c' hc'
    rw [hage.tx, hb.tx s c hc]
  · intro s c' hc'
    obtain ⟨c, hc, hage⟩ := ha s c' hc'
    exact hage.onward hf (hb.tx s c hc) (hb.onward s c hc)
  intro n y hn hlt hy
  by_cases hu : InUse q a r n
  · exact .inr ⟨hu, hn⟩
  · exact .inl (hb.holes n y hu hlt (hold _ hy))

end

section

variable (hb : Bounded q tx.account root.sequence limit lost) {r' : UInt32}

include hb

private lemma held_few (hh : Held app view tx flags q root plan m q') : (q'.queued tx.account \ Set.image sequence
      (lost ∪ {n | InUse q tx.account root.sequence n ∧ ¬ InUse q' tx.account r' n})).ncard ≤ max 1 limit := by
  have hsub : ∀ s ∈ q'.queued tx.account, s = tx.seqProxy ∨ s ∈ q.queued tx.account := by
    intro s hs
    rw [queued, Set.mem_ofPred_eq, hh.find] at hs
    split_ifs at hs with heq
    · exact .inl (congrArg Handle.seqProxy heq)
    · exact .inr (hh.thinned.isSome hs)
  cases hr : plan.replaced with
  | some c =>
    refine hb.few_mono Set.subset_union_left fun s hs => .inl ?_
    rcases hsub s hs with rfl | hs
    · rw [queued, Set.mem_ofPred_eq, ← hh.admitted.replaced, hr]
      rfl
    · exact hs
  | none =>
    have hc := hh.canBeHeld
    rw [hr] at hc
    rcases canBeHeld_cases hc with hn | hlt | ⟨hseq, hne, y, hlt, hy⟩
    · exact ncard_queued_insert hsub (.inl hn) _
    · exact ncard_queued_insert hsub (.inr (hb.limit_eq ▸ hlt)) _
    -- the first opening before a queued sequence is a hole
    have hf : q.find ⟨tx.account, tx.seqProxy⟩ = none := by rw [← hh.admitted.replaced, hr]
    obtain ⟨hle, -⟩ := hh.place hr hseq
    have hu : ¬ UsedBy (q.live tx.account root.sequence) tx.seqProxy := by
      rw [hne] at hle hf ⊢
      exact nextQueuable_unused hb.onward hle hf
    refine hb.few_mono Set.subset_union_left ?_
    intro s hs
    rcases hsub s hs with rfl | hs
    · cases hk : tx.seqProxy with
      | ticket v =>
        rw [hk] at hseq
        cases hseq
      | sequence n =>
        rw [hk] at hle hlt hu
        refine .inr ⟨n, hb.holes n y ?_ hlt hy, rfl⟩
        rintro (hbel | hus)
        · exact not_lt_of_ge hle hbel
        · exact hu hus
    · exact .inl hs

private lemma held_holes (hh : Held app view tx flags q root plan m q') (n y : UInt32) (hn : ¬ InUse q' tx.account r' n)
    (hlt : sequence n < .sequence y) (hy : (q'.find ⟨tx.account, .sequence y⟩).isSome) :
    n ∈ lost ∪ {n | InUse q tx.account root.sequence n ∧ ¬ InUse q' tx.account r' n} := by
  by_cases hu : InUse q tx.account root.sequence n
  · exact .inr ⟨hu, hn⟩
  refine .inl (hb.holes n y hu hlt ?_)
  rw [hh.find] at hy
  split_ifs at hy with heq
  · have hk : sequence y = tx.seqProxy := congrArg Handle.seqProxy heq
    rw [hk, ← hh.admitted.replaced]
    by_contra hno
    -- all before the place of the new sequence is in use
    obtain ⟨-, hp⟩ := hh.place (by simpa using hno) (by rw [← hk]; rfl)
    have hge : sequence root.sequence ≤ .sequence n := not_lt.1 fun hbel => hu (.inl hbel)
    rcases le_sup_iff.1 hp with hle | hle
    · exact hu (.inr (usedBy_of_lt_nextQueuable hge (hlt.trans_le (hk ▸ hle))))
    · exact not_lt_of_ge hge (hlt.trans_le (hk ▸ hle))
  · exact hh.thinned.isSome hy

private lemma held (hf : Fits app) (hh : Held app view tx flags q root plan m q') : Bounded q' tx.account r' limit
      (lost ∪ {n | InUse q tx.account root.sequence n ∧ ¬ InUse q' tx.account r' n}) := by
  have hon : ∀ s c', q'.find ⟨tx.account, s⟩ = some c' →
      c'.pfResult.tx.seqProxy = s ∧ Onward s c'.consequences := by
    intro s c' hc'
    rw [hh.find] at hc'
    split_ifs at hc' with heq
    · obtain rfl := some.inj hc'
      obtain rfl : s = tx.seqProxy := congrArg Handle.seqProxy heq
      exact ⟨congrArg STTx.seqProxy (preflight_tx ..), onward_preflight hf (app.rules view) tx flags⟩
    · obtain ⟨c, hc, ha⟩ := hh.thinned.aged _ c' hc'
      exact ⟨by rw [ha.tx, hb.tx s c hc], ha.onward hf (hb.tx s c hc) (hb.onward s c hc)⟩
  refine ⟨?_, fun s c' hc' => (hon s c' hc').1, fun s c' hc' => (hon s c' hc').2, hb.held_few hh, hb.held_holes hh⟩
  rw [hh.new]
  exact (congrArg Setup.maximumTxnPerAccount hh.thinned.setup).trans hb.limit_eq

end

private lemma call {call : Call V} (hb : Bounded q a r limit lost) (hf : Fits call.app) (he : CallEffect q call q')
    (hr : ∀ root, call.read a = some root → root.sequence = r) (r' : UInt32) :
    Bounded q' a r' limit (lost ∪ {n | InUse q a r n ∧ ¬ InUse q' a r' n}) := by
  cases he with
  | fewer hfew => exact hb.fewer hf hfew.setup (fun s => hfew.aged _) r'
  | @held app view tx flags root plan m q' hh =>
    by_cases ha : tx.account = a
    · subst ha
      obtain rfl := hr root hh.read
      exact hb.held hf hh
    have hs : q'.setup = q.setup := by
      rw [hh.new]
      exact hh.thinned.setup
    refine hb.fewer hf hs (fun s c' hc' => ?_) r'
    rw [hh.find, if_neg fun heq => ha (congrArg Handle.account heq).symm] at hc'
    exact hh.thinned.aged _ c' hc'

end Bounded

/-- The sequence of an account in the ledger of a call, or as it was. -/
def Call.sequence (call : Call V) (a : AccountID) (r : UInt32) : UInt32 :=
  ((call.read a).map AccountRoot.sequence).getD r

/-- The ledger that a call leaves. -/
def Call.left (q : TxQ) : Call V → V
  | .apply app view tx flags => ((q.apply app view tx flags).toOption.map fun r => r.2.1).getD view
  | .accept app view => ((q.accept app view).toOption.map fun r => r.2.1).getD view
  | .processClosedLedger _ view _ => view

/-- The sequence of an account in the ledger that a call leaves, or as it was. -/
def Call.nextSequence (call : Call V) (q : TxQ) (a : AccountID) (r : UInt32) : UInt32 :=
  ((call.app.read (call.left q) a).map AccountRoot.sequence).getD (call.sequence a r)

/-- The sequences of an account that were in use and then no longer, as the ledger or the queue changed. -/
def lost (a : AccountID) : UInt32 → TxQ → List (Call V) → Set UInt32
  | _, _, [] => ∅
  | r, q, call :: calls =>
    {n | InUse q a r n ∧ ¬ InUse q a (call.sequence a r) n} ∪
      match q.step call with
      | .ok q' => {n | InUse q a (call.sequence a r) n ∧ ¬ InUse q' a (call.nextSequence q a r) n} ∪
          lost a (call.nextSequence q a r) q' calls
      | .error _ => ∅

private lemma foldlM_step_bounded {calls : List (Call V)} (hf : ∀ call ∈ calls, Fits call.app) (hq : Indexed q)
    {gone : Set UInt32} (hb : Bounded q a r limit gone) :
    Succeeds (calls.foldlM step q) fun q' => ∃ r', Bounded q' a r' limit (gone ∪ lost a r q calls) := by
  induction calls generalizing q r gone with
  | nil =>
    rw [lost, Set.union_empty]
    exact .pure ⟨r, hb⟩
  | cons call calls ih =>
    rw [forall_mem_cons] at hf
    obtain ⟨q1, hs, he⟩ := step_effect hq call
    have hr : ∀ root, call.read a = some root → root.sequence = call.sequence a r := by
      intro root hro
      rw [Call.sequence, hro]
      rfl
    have hb1 := (hb.changed (call.sequence a r)).call hf.1 he hr (call.nextSequence q a r)
    rw [foldlM_cons, lost, hs]
    refine .ok_bind ((ih hf.2 he.indexed hb1).mono ?_)
    simp only [Set.union_assoc]
    exact fun _ h => h

/-- The number of candidates of an account exceeds the limit (or one) at most by the number of the sequences that were
in use and then no longer: by a candidate that left, a replacement or another preflight result that uses fewer, or a
change of the ledger. -/
theorem txnCount_le (setup : Setup) (hash : Uint256) (calls : List (Call V)) (hfits : ∀ call ∈ calls, Fits call.app)
    (a : AccountID) :
    Succeeds (calls.foldlM step (make setup hash)) fun q =>
      q.txnCount a ≤ max 1 setup.maximumTxnPerAccount + (lost a 0 (make setup hash) calls).ncard := by
  have he : Bounded (make setup hash) a 0 setup.maximumTxnPerAccount ∅ := by
    refine ⟨rfl, fun s c (hc : none = some c) => (nomatch hc), fun s c (hc : none = some c) => (nomatch hc), ?_,
      fun n y _ _ (hy : none.isSome) => (nomatch hy)⟩
    have : (make setup hash).queued a = ∅ := Set.eq_empty_iff_forall_notMem.2 fun s (hs : none.isSome) => (nomatch hs)
    rw [this, Set.empty_sdiff, Set.ncard_empty]
    exact Nat.zero_le _
  refine (foldlM_step_bounded hfits (.make setup hash) he).mono ?_
  rintro q ⟨r', hb⟩
  rw [Set.empty_union] at hb
  have hf := hb.few
  have hi : (Set.image sequence (lost a 0 (make setup hash) calls)).ncard ≤
      (lost a 0 (make setup hash) calls).ncard := Set.ncard_image_le
  have hspl := Set.ncard_le_ncard_sdiff_add_ncard (q.queued a) (Set.image sequence (lost a 0 (make setup hash) calls))
  rw [← ncard_queued]
  omega

/-- How many candidates of an account with sequences have left the queue. -/
def departures (a : AccountID) : TxQ → List (Call V) → ℕ
  | _, [] => 0
  | q, call :: calls =>
    match q.step call with
    | .ok q' =>
      (q.handles.filter fun h => h.account = a && h.seqProxy.isSeq && (q'.find h).isNone).length + departures a q' calls
    | .error _ => 0

/-- One candidate that would use the sequences 1 to 3 expires, and three others come in its place. -/
def refillCalls : List (Call UInt32) :=
  [.apply quietApp 5 (quietTx 1 1 (some 10)) 0, .apply quietApp 5 (quietTx 4 4 none) 0,
    .processClosedLedger quietApp 10 false, .apply quietApp 11 (quietTx 1 11 none) 0,
    .apply quietApp 11 (quietTx 2 2 none) 0, .apply quietApp 11 (quietTx 3 3 none) 0]

/-- With a limit of two candidates and one that has left, there are four. -/
theorem four_candidates : departures 7 (make { maximumTxnPerAccount := 2 } 0) refillCalls = 1 ∧
      (refillCalls.foldlM step (make { maximumTxnPerAccount := 2 } 0)).toOption.any fun q => q.txnCount 7 = 4 := by
  decide +kernel

private lemma fits_quietApp : Fits quietApp := by
  intro rules tx flags k hvd _
  have hf : (if tx.transactionID = 1 ∧ tx.seqProxy = .sequence 1 then ConsequencesFactory.consumes 3
      else .normal) = .consumes k := Verdict.passes.inj hvd
  split_ifs at hf with htx
  · obtain rfl := ConsequencesFactory.consumes.inj hf
    rw [htx.2]
    decide

theorem txnCount_le_refill : Succeeds (refillCalls.foldlM step (make { maximumTxnPerAccount := 2 } 0)) fun q =>
    q.txnCount 7 ≤ 2 + (lost 7 0 (make { maximumTxnPerAccount := 2 } 0) refillCalls).ncard := by
  have hf : ∀ call ∈ refillCalls, Fits call.app := by
    simp [refillCalls, Call.app, fits_quietApp]
  exact txnCount_le { maximumTxnPerAccount := 2 } 0 refillCalls hf 7

end Xrpl.TxQ

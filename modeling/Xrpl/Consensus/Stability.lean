import Xrpl.Consensus.TrieQueries

/-!
# How stable the branch that `getPreferred` takes is

The margin of the best child exceeds the uncommitted support, so that validators that have yet to speak up cannot turn
the choice around.  A unit of support that leaves the chosen branch for another one counts twice, though: it makes the
one smaller and the other larger.

* `run_preferredTurn_stable`: the choice stands as long as the moved units, with those that leave the chosen branch
  counted twice, are no more than the uncommitted support;
* `run_preferredTurn_unstable`: one unit that leaves the chosen branch can turn the choice around;
* `run_getPreferred_majority`: no ledger that conflicts with one that has more than half of the support is preferred.
-/

namespace Xrpl.Consensus

open OwnedTree.Tree List Option Multiset

section

variable {ID : Type} [LinearOrder ID] {M : Multiset (List ID)} {p : List ID} {c : ID} {others : List ID} {x : ID}

private lemma mem_ranked : x ∈ ranked M p ↔ x ∈ nextIDs M p := Finset.mem_sort _

private lemma branch_pos_of_mem_ranked (h : x ∈ ranked M p) : 0 < branch M (p ++ [x]) :=
  branch_pos_iff.2 (mem_nextIDs.1 (mem_ranked.1 h))

section

variable (h : ranked M p = c :: others)

include h

private lemma rank_le_of_ranked : ∀ x ∈ others, rank M p x ≤ rank M p c := by
  have hs : (ranked M p).Pairwise (Ahead M p) := Finset.pairwise_sort _ _
  rw [h] at hs
  exact fun x hx => rel_of_pairwise_cons hs hx

private lemma lead_bounds : 0 < lead M p (c :: others) ∧ lead M p (c :: others) ≤ branch M (p ++ [c]) := by
  have hc : 0 < branch M (p ++ [c]) := branch_pos_of_mem_ranked (by simp [h])
  cases others with
  | nil => exact ⟨hc, le_rfl⟩
  | cons d others =>
    have hd : 0 < branch M (p ++ [d]) := branch_pos_of_mem_ranked (by simp [h])
    have hn : (ranked M p).Nodup := Finset.sort_nodup _ _
    have hne : d ≠ c := by
      rintro rfl
      rw [h] at hn
      simp at hn
    have hr := rank_le_of_ranked h d (by simp)
    rw [rank, rank, Prod.Lex.toLex_le_toLex] at hr
    rw [lead]
    rcases hr with hlt | ⟨heq, hle⟩
    · split <;> omega
    · rw [if_pos (lt_of_le_of_ne hle hne)]
      omega

private lemma lt_of_lt_lead {k : Nat} (hk : k < lead M p (c :: others))
    (hx : x ≠ c) : toLex (branch M (p ++ [x]) + k, x) < toLex (branch M (p ++ [c]), c) := by
  rw [Prod.Lex.toLex_lt_toLex]
  by_cases hmem : x ∈ ranked M p
  · rw [h] at hmem
    have ho := (mem_cons.1 hmem).resolve_left hx
    cases others with
    | nil => simp at ho
    | cons d others =>
      -- the second best is the hardest to keep down
      have hr : rank M p x ≤ rank M p d := by
        have hs : (ranked M p).Pairwise (Ahead M p) := Finset.pairwise_sort _ _
        rw [h] at hs
        rcases mem_cons.1 ho with rfl | hx'
        · exact le_rfl
        · exact rel_of_pairwise_cons hs.of_cons hx'
      have hb := rank_le_of_ranked h d (by simp)
      rw [rank, rank, Prod.Lex.toLex_le_toLex] at hr hb
      rw [lead] at hk
      split at hk
      · rename_i hdc
        rcases hr with hlt | ⟨heq, hle⟩
        · left
          omega
        · rcases Nat.lt_or_ge (branch M (p ++ [x]) + k) (branch M (p ++ [c])) with hlt | hge
          · exact .inl hlt
          · exact .inr ⟨by omega, hle.trans_lt hdc⟩
      · left
        omega
  · have hz : branch M (p ++ [x]) = 0 := by
      refine Nat.eq_zero_of_not_pos fun hpos => hmem ?_
      exact mem_ranked.2 (mem_nextIDs.2 (branch_pos_iff.1 hpos))
    have := (lead_bounds h).2
    left
    omega

end

private lemma branch_add (M N : Multiset (List ID)) (q : List ID) : branch (M + N) q = branch M q + branch N q :=
  countP_add _ _ _

private lemma branch_le_card (M : Multiset (List ID)) (q : List ID) : branch M q ≤ M.card := countP_le_card _ _

private lemma branch_move [DecidableEq ID] {X : Multiset (List ID)} (hX : X ≤ M) (Y : Multiset (List ID))
    (q : List ID) :
    branch (M - X + Y) q + branch X q = branch M q + branch Y q := by
  have hs := branch_add (M - X) X q
  rw [tsub_add_cancel_of_le hX] at hs
  rw [branch_add]
  omega

/-- The branch through `c` is strictly ahead of every other branch from `p`. -/
def StrictlyBest (M : Multiset (List ID)) (p : List ID) (c : ID) : Prop := ∀ x, x ≠ c → rank M p x < rank M p c

/-- The choice stands when the units `X` are moved, with those from the chosen branch counted twice. -/
private lemma preferredChild_stable [DecidableEq ID] {L : Nat} (h : preferredChild M L p = some c)
    {X Y : Multiset (List ID)} (hX : X ≤ M) (hc : Y.card = X.card)
    (hm : X.card + branch X (p ++ [c]) ≤ below M (max p.length L)) :
    StrictlyBest (M - X + Y) p c := by
  unfold preferredChild at h
  rcases hr : ranked M p with _ | ⟨y, others⟩
  · simp [hr] at h
  rw [hr] at h
  simp only at h
  split at h
  · rename_i hco
    obtain rfl := some.inj h
    have hpos := (lead_bounds hr).1
    intro x hx
    have hlt := lt_of_lt_lead hr (k := X.card + branch X (p ++ [y])) (by omega) hx
    have hb := branch_move hX Y (p ++ [y])
    have ho := branch_move hX Y (p ++ [x])
    have hg := branch_le_card Y (p ++ [x])
    rw [Prod.Lex.toLex_lt_toLex] at hlt
    rw [rank, rank, Prod.Lex.toLex_lt_toLex]
    rcases hlt with hlt | ⟨heq, hid⟩
    · left
      omega
    · rcases Nat.lt_or_ge (branch (M - X + Y) (p ++ [x])) (branch (M - X + Y) (p ++ [y])) with hlt | hge
      · exact .inl hlt
      · exact .inr ⟨by omega, hid⟩
  · simp at h

private lemma branch_le_countP {q : List ID} {P : List ID → Prop} [DecidablePred P] (h : ∀ s, q <+: s → P s) :
    branch M q ≤ M.countP P := by
  rw [branch, countP_eq_card_filter, countP_eq_card_filter]
  exact card_le_card (monotone_filter_right M h)

/-- Where one branch has more than half of the support no other one is chosen. -/
private lemma preferredChild_majority {q : List ID} {L : Nat} (hm : M.card < 2 * branch M q) (hq : p ++ [x] <+: q)
    (h : preferredChild M L p = some c) : c = x := by
  by_contra hne
  have hlt := preferredChild_stable h (zero_le M) rfl (by simp [branch]) x (Ne.symm hne)
  rw [Multiset.sub_zero, add_zero] at hlt
  have hle : branch M (p ++ [x]) ≤ branch M (p ++ [c]) := Prod.Lex.monotone_fst _ _ hlt.le
  have hdis : branch M (p ++ [c]) ≤ M.countP fun s => ¬ p ++ [x] <+: s := branch_le_countP fun s hc hx => by
    rw [append_singleton_isPrefix_iff] at hc hx
    exact hne (some.inj (hc.2.symm.trans hx.2))
  have hbr : branch M q ≤ M.countP (p ++ [x] <+: ·) := branch_le_countP fun s => hq.trans
  have hcard := card_eq_countP_add_countP (p ++ [x] <+: ·) M
  unfold branch at hm hle hdis hbr
  omega

private lemma WalksTo.majority {q r : List ID} {L : Nat} (h : WalksTo M L p r) (hm : M.card < 2 * branch M q)
    (hp : p <+: q ∨ q <+: p) : r <+: q ∨ q <+: r := by
  induction h with
  | stop => exact hp
  | step hc _ ih =>
    apply ih
    -- a step towards `q` is forced, and below `q` any will do
    rcases hp with ⟨_ | ⟨x, rest⟩, rfl⟩ | hp
    · simp
    · simp [preferredChild_majority (x := x) hm (by simp) hc]
    · exact .inr (hp.trans (prefix_append _ _))

end

/-! ### Every step of `getPreferred` -/

namespace LedgerTrie

variable {Ledger ID : Type} [LedgerType Ledger ID] [LinearOrder ID] {L : Nat}

/-- The states that the loop of `getPreferred` passes through. -/
def PreferredState.Reached (t : LedgerTrie Ledger) (L : Nat) : PreferredState Ledger → Prop :=
  Relation.ReflTransGen (fun s s' => preferredTurn L s = some (.inr s')) t.preferredInit

private lemma PreferredState.At.descends {s s' : PreferredState Ledger} {M : Multiset (List ID)}
    {ctx : List (Frame (NodeData Ledger))} {n : Node Ledger} (h : s.At M L ctx n)
    (ht : preferredTurn L s = some (.inr s')) : ∃ ctx' c, Descends M L n s' ctx' c := by
  rcases preferredTurn_spec h with he | hn
  · obtain ⟨result, q, he, -⟩ := he
    rw [he] at ht
    simp at ht
  obtain ⟨s'', ctx', c, hn, hd⟩ := hn
  rw [hn] at ht
  obtain rfl := Sum.inr.inj (some.inj ht)
  exact ⟨ctx', c, hd⟩

private lemma PreferredState.Reached.at {t : LedgerTrie Ledger} (h : t.Inv) {s : PreferredState Ledger}
    (hs : PreferredState.Reached t L s) : ∃ ctx n, s.At (held t.root.nodes) L ctx n := by
  induction hs with
  | refl => exact ⟨[], t.root, at_preferredInit h L⟩
  | tail _ ht ih =>
    obtain ⟨ctx, n, hat⟩ := ih
    obtain ⟨ctx', c, hd⟩ := hat.descends ht
    exact ⟨ctx', c, hd.at_child⟩

private lemma branch_eq_zero_of_length_le {X : Multiset (List ID)} {q : List ID} {b : Nat} (hX : ∀ l ∈ X, l.length ≤ b)
    (hb : b < q.length) : branch X q = 0 := by
  refine Nat.eq_zero_of_not_pos fun hpos => ?_
  obtain ⟨l, hl, hp⟩ := branch_pos_iff.1 hpos
  have h1 := hX l hl
  have h2 := hp.length_le
  omega

/-- Whenever `getPreferred` steps from the node `n` to the child `c`, uncommitted units of support may move to any
ledgers as long as there are, with those below `c` counted twice, no more of them than uncommitted ones, and they may
all move when no ledger past the node has been issued.  The branch of `c` stays strictly ahead of all others, in the
support and in the answers of every trie that holds it. -/
theorem run_preferredTurn_stable [DecidableEq ID] {ops : List (TrieOp Ledger)} (h : Admissible ops)
    {t : LedgerTrie Ledger} (hrun : run ops = some t) {L : Nat} {s s' : PreferredState Ledger}
    (hs : PreferredState.Reached t L s) (hturn : preferredTurn L s = some (.inr s')) :
    ∃ n c, s.trie.get s.curr = some n ∧ s'.trie.get s'.curr = some c ∧
      s'.uncommitted = below (supported ops) (max n.val.span.end_ L) ∧
      ∀ X Y : Multiset (List ID), X ≤ supported ops → (∀ l ∈ X, l.length ≤ max n.val.span.end_ L) →
        Y.card = X.card → X.card + branch X c.val.span.startPath ≤ s'.uncommitted ∨ L ≤ n.val.span.end_ →
        StrictlyBest (supported ops - X + Y) n.val.span.label c.val.span.startID ∧
        ∀ ops' : List (TrieOp Ledger), Admissible ops' → supported ops' = supported ops - X + Y →
          ∃ t', run ops' = some t' ∧ ∀ best other : Ledger, history best = c.val.span.startPath →
            history other = n.val.span.label ++ [ledgerID other] → ledgerID other ≠ ledgerID best →
            toLex (t'.branchSupport other, ledgerID other) < toLex (t'.branchSupport best, ledgerID best) := by
  obtain ⟨t0, hrun0, hinv, hh⟩ := run_spec h
  obtain rfl := some.inj (hrun.symm.trans hrun0)
  obtain ⟨ctx, n, hat⟩ := PreferredState.Reached.at hinv hs
  obtain ⟨ctx', c, hd⟩ := hat.descends hturn
  rw [hh] at hd
  refine ⟨n, c, hat.get_eq, hd.at_child.get_eq, hd.uncommitted_eq, fun X Y hX hlen hc hm => ?_⟩
  have hbel : X.card ≤ s'.uncommitted := by
    rw [hd.uncommitted_eq, ← countP_eq_card.2 hlen]
    exact countP_le_of_le _ hX
  have hm' : X.card + branch X c.val.span.startPath ≤ s'.uncommitted := by
    rcases hm with hm | hi
    · exact hm
    · rw [max_eq_left hi] at hlen
      rw [branch_eq_zero_of_length_le hlen (by rw [hd.startPath_eq]; simp)]
      exact hbel
  rw [hd.uncommitted_eq, hd.startPath_eq] at hm'
  have hbe : StrictlyBest (supported ops - X + Y) n.val.span.label c.val.span.startID :=
    preferredChild_stable hd.chosen hX hc (by simpa using hm')
  refine ⟨hbe, fun ops' h' hsu => ?_⟩
  obtain ⟨t', hrun', hinv', hh'⟩ := run_spec h'
  refine ⟨t', hrun', fun best other hb ho hne => ?_⟩
  have hid : ledgerID best = c.val.span.startID := by
    have hl := congrArg (·.getLastD (ledgerID best)) (hb.trans hd.startPath_eq)
    simp only [getLastD_concat] at hl
    rw [history, trace_getLastD _ (Nat.succ_pos _)] at hl
    exact hl
  rw [branchSupport_spec hinv', branchSupport_spec hinv', hh', hsu, ho, hb, hd.startPath_eq, hid]
  exact hbe _ (hid ▸ hne)

/-- The first step of the loop after a run: the uncommitted support, the string of the root and the id chosen. -/
def firstStep [DecidableEq ID] (L : Nat) (ops : List (TrieOp Ledger)) : Option (Nat × List ID × ID) :=
  (run ops).bind fun t => (preferredTurn L t.preferredInit).bind fun r =>
    match r with
    | .inl _ => none
    | .inr s' => (t.get t.preferredInit.curr).bind fun n => (s'.trie.get s'.curr).map fun c =>
        (s'.uncommitted, n.val.span.label, c.val.span.startID)

private lemma of_firstStep [DecidableEq ID] {ops : List (TrieOp Ledger)} {u : Nat} {p : List ID} {x : ID}
    (h : firstStep L ops = some (u, p, x)) :
    ∃ t s' n c, run ops = some t ∧ preferredTurn L t.preferredInit = some (.inr s') ∧
      t.get t.preferredInit.curr = some n ∧ s'.trie.get s'.curr = some c ∧ s'.uncommitted = u ∧
      n.val.span.label = p ∧ c.val.span.startID = x := by
  obtain ⟨t, hr, h⟩ := bind_eq_some_iff.1 h
  obtain ⟨r, ht, h⟩ := bind_eq_some_iff.1 h
  cases r with
  | inl result => simp at h
  | inr s' =>
    obtain ⟨n, hn, h⟩ := bind_eq_some_iff.1 h
    obtain ⟨c, hc, heq⟩ := map_eq_some_iff.1 h
    simp only [Prod.mk.injEq] at heq
    exact ⟨t, s', n, c, hr, ht, hn, hc, heq⟩

/-- The one validator that is still behind may go to the branch of the ledger `[1]`. -/
theorem run_preferredTurn_stable_fork :
    let ops : List (TrieOp PathLedger) := [.insert ⟨[]⟩ 1, .insert ⟨[2]⟩ 3, .insert ⟨[1]⟩ 1]
    Admissible ops ∧ StrictlyBest (supported ops - {[[]]} + {[[], [1]]}) [[]] [2] := by
  have h : Admissible ([.insert ⟨[]⟩ 1, .insert ⟨[2]⟩ 3, .insert ⟨[1]⟩ 1] : List (TrieOp PathLedger)) :=
    admissible_of_sum (by decide) (by decide)
  have hf : firstStep 0 ([.insert ⟨[]⟩ 1, .insert ⟨[2]⟩ 3, .insert ⟨[1]⟩ 1] : List (TrieOp PathLedger)) =
      some (1, [[]], [2]) := by
    decide +kernel
  obtain ⟨t, s', n', c', hr, ht, hn', hc', -, hl, hid⟩ := of_firstStep hf
  obtain ⟨n, c, hn, hc, -, hs⟩ := run_preferredTurn_stable h hr Relation.ReflTransGen.refl ht
  obtain rfl := some.inj (hn.symm.trans hn')
  obtain rfl := some.inj (hc.symm.trans hc')
  have he : n.val.span.end_ = 1 := by rw [← Span.length_label, hl, length_singleton]
  have := (hs {[[]]} {[[], [1]]} (by decide) (by simp [he]) rfl (.inr (Nat.zero_le _))).1
  rw [hl, hid] at this
  exact ⟨h, this⟩

/-- Of the three validators one is behind, on the branch that is chosen.  When it moves to the other branch, that one
has more support. -/
theorem run_preferredTurn_unstable :
    let ops : List (TrieOp PathLedger) := [.insert ⟨[2]⟩ 1, .insert ⟨[2, 0]⟩ 1, .insert ⟨[1, 0]⟩ 1]
    Admissible ops ∧ ∃ t s' n c, run ops = some t ∧ preferredTurn 2 t.preferredInit = some (.inr s') ∧
      t.get t.preferredInit.curr = some n ∧ s'.trie.get s'.curr = some c ∧ s'.uncommitted = 1 ∧
      ∃ X Y : Multiset (List (List Nat)), X ≤ supported ops ∧ (∀ l ∈ X, l.length ≤ max n.val.span.end_ 2) ∧
        X.card = s'.uncommitted ∧ Y.card = X.card ∧
        ¬ StrictlyBest (supported ops - X + Y) n.val.span.label c.val.span.startID := by
  have h : Admissible ([.insert ⟨[2]⟩ 1, .insert ⟨[2, 0]⟩ 1, .insert ⟨[1, 0]⟩ 1] : List (TrieOp PathLedger)) :=
    admissible_of_sum (by decide) (by decide)
  have hf : firstStep 2 ([.insert ⟨[2]⟩ 1, .insert ⟨[2, 0]⟩ 1, .insert ⟨[1, 0]⟩ 1] :
      List (TrieOp PathLedger)) = some (1, [[]], [2]) := by
    decide +kernel
  obtain ⟨t, s', n, c, hr, ht, hn, hc, hu, hl, hid⟩ := of_firstStep hf
  refine ⟨h, t, s', n, c, hr, ht, hn, hc, hu, {[[], [2]]}, {[[], [1]]}, by decide, by simp, ?_, rfl, ?_⟩
  · rw [hu]
    rfl
  · rw [hl, hid]
    intro hb
    exact absurd (hb [1] (by decide)) (by decide +kernel)

omit [LinearOrder ID] in
private lemma ancestor_eq_of_isPrefix {a b : Ledger} {m n p : Nat} (h : trace a m <+: trace b n) (hp : p < m) :
    ancestor a p = ancestor b p := by
  have hget := h.getElem (i := p) (by simpa using hp)
  simpa [trace] using hget

/-- After every run, if the branch of a ledger has more than half of the support, there is a preferred ledger, and it is
an ancestor of that one or one of its descendants. -/
theorem run_getPreferred_majority [DecidableEq ID] {ops : List (TrieOp Ledger)} (h : Admissible ops) (L : Nat) :
    ∃ t, run ops = some t ∧ ∀ ledger : Ledger, t.root.val.branchSupport < 2 * t.branchSupport ledger →
      ∃ tip t', t.getPreferred L = some (some tip, t') ∧ tip.seq ≤ seq tip.ledger_ ∧
        tip.id = ancestor tip.ledger_ tip.seq ∧ (tip.seq ≤ seq ledger ∧ ancestor ledger tip.seq = tip.id ∨
          seq ledger < tip.seq ∧ ancestor tip.ledger_ (seq ledger) = ledgerID ledger) := by
  obtain ⟨t, hr, hinv, -⟩ := run_spec h
  refine ⟨t, hr, fun ledger hm => ?_⟩
  obtain ⟨result, q, hl, hw, he⟩ := preferredLoop_spec (at_preferredInit hinv L) le_rfl
  rw [branchSupport_spec hinv, ← card_held hinv.nodes] at hm
  have hne : t.root.val.branchSupport ≠ 0 := by
    have hle := branch_le_card (held t.root.nodes) (history ledger)
    rw [← card_held hinv.nodes]
    omega
  have hroot : t.root.val.span.startPath <+: history ledger := by
    rw [startPath_root hinv]
    simp [history, trace, range_succ_eq_map, ledgerID, LedgerType.seq_genesis, LedgerType.ancestor_zero ledger]
  obtain ⟨s, hs, rfl⟩ := he.span
  have hpos := s.start_lt_end
  have hle := s.end_le
  refine ⟨s.tip, result.2, by simp [getPreferred, empty, hne, hl, hs], ?_, rfl, ?_⟩
  · show s.end_ - 1 ≤ seq s.ledger_
    omega
  show s.end_ - 1 ≤ seq ledger ∧ _ ∨ seq ledger < s.end_ - 1 ∧ _
  rcases hw.majority hm (.inl hroot) with hq | hq
  · have hlen := hq.length_le
    rw [Span.length_label, length_history] at hlen
    exact .inl ⟨by omega, (ancestor_eq_of_isPrefix (p := s.end_ - 1) hq (by omega)).symm⟩
  · have hlen := hq.length_le
    rw [Span.length_label, length_history] at hlen
    have hid := ancestor_eq_of_isPrefix hq (Nat.lt_succ_self (seq ledger))
    rcases Nat.lt_or_ge (seq ledger) (s.end_ - 1) with hlt | hge
    · exact .inr ⟨hlt, hid.symm⟩
    · rw [show seq ledger = s.end_ - 1 by omega] at hid
      exact .inl ⟨hge, hid⟩

/-- Four of five validators are past the ledger `[1]`, and the preferred ledger is past it too. -/
theorem run_getPreferred_majority_fork :
    let ops : List (TrieOp PathLedger) := [.insert ⟨[1, 5]⟩ 3, .insert ⟨[1, 6]⟩ 1, .insert ⟨[2]⟩ 1]
    Admissible ops ∧ ∃ t, run ops = some t ∧ t.root.val.branchSupport < 2 * t.branchSupport (⟨[1]⟩ : PathLedger) ∧
      ∃ tip t', t.getPreferred 0 = some (some tip, t') ∧ 1 < tip.seq ∧ ancestor tip.ledger_ 1 = [1] := by
  intro ops
  have hops : Admissible ops := admissible_of_sum rfl (by decide)
  obtain ⟨t, hr, ht⟩ := run_getPreferred_majority hops 0
  have hm : (run ops).any fun t => t.root.val.branchSupport < 2 * t.branchSupport (⟨[1]⟩ : PathLedger) := by
    decide +kernel
  have hseq : ((run ops).bind (·.getPreferred 0)).any fun r => r.1.any fun tip => 1 < tip.seq := by decide +kernel
  rw [hr] at hm hseq
  obtain ⟨tip, t', hg, -, -, hor⟩ := ht ⟨[1]⟩ (of_decide_eq_true hm)
  rw [bind_some, hg] at hseq
  have hlt : 1 < tip.seq := of_decide_eq_true hseq
  refine ⟨hops, t, hr, of_decide_eq_true hm, tip, t', hg, hlt, ?_⟩
  rcases hor with hor | hor
  · exact absurd hor.1 (not_le.2 hlt)
  · exact hor.2

end LedgerTrie

end Xrpl.Consensus

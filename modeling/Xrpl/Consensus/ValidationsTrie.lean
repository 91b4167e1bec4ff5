import Xrpl.Lib.Yields
import Xrpl.Consensus.TrieQueries
import Xrpl.Consensus.Validations

/-!
# The trie of the validations and `lastLedger_` stay in step

`Inv` says that the trie holds the last ledger of every node in `lastLedger_` once, and nothing else.  Every function
that moves support keeps it, so every run of calls does, however the ledgers are acquired and in whatever order the
containers are iterated.

* `run_spec`: every run has a result that satisfies the invariant;
* `run_tipSupport`: the tip support of a ledger is the number of nodes whose last ledger it is.
-/

namespace Xrpl.Consensus

open List AList Multiset HashMap LedgerTrie

variable {NodeID Ledger ID : Type} [LedgerType Ledger ID]

private lemma history_eq_iff {a b : Ledger} : history a = history b ↔ ledgerID a = ledgerID b := by
  constructor
  · intro h
    have hlen := congrArg length h
    rw [length_history, length_history] at hlen
    have hs : seq a = seq b := by omega
    rw [ledgerID, hs]
    rw [history, hs] at h
    exact trace_eq_iff.1 h _ (Nat.lt_succ_self _)
  · intro h
    have hs := (LedgerType.unique_history a b _ _ le_rfl le_rfl h).1
    rw [history, history, ← hs]
    exact trace_eq_of_ancestor le_rfl (by omega) (by rw [ledgerID, ledgerID, ← hs] at h; exact h)

namespace Validations

variable [LinearOrder ID] {S : Finset NodeID} {a : Adaptor Ledger} {v : Validations NodeID Ledger}

def Waits (v : Validations NodeID Ledger) (key : Nat × ID) (n : NodeID) : Prop :=
  ∃ nodes, v.acquiring_.lookup key = some nodes ∧ n ∈ nodes

/-- The trie holds what is in `lastLedger_`, and only the nodes in `S` have ever been heard of. -/
structure Inv (S : Finset NodeID) (v : Validations NodeID Ledger) : Prop where
  trie : v.trie_.Inv
  held_eq : held v.trie_.root.nodes = v.lastLedger_.values.map history
  last_mem : ∀ n ∈ v.lastLedger_, n ∈ S
  current_mem : ∀ n ∈ v.current_, n ∈ S
  waiting_mem : ∀ key n, v.Waits key n → n ∈ S

private lemma Inv.expire (h : v.Inv S) (clock : Int) : (v.expire a clock).Inv S := by
  unfold Validations.expire
  split
  · split <;> exact { h with }
  · exact { h with }

private lemma Inv.ask (h : v.Inv S) : v.ask.Inv S := { h with }

variable {key key' : Nat × ID} {n : NodeID} {m : NodeID}

lemma waits_erase (h : Waits { v with acquiring_ := v.acquiring_.erase key } key' m) : v.Waits key' m := by
  obtain ⟨nodes, hl, hm⟩ := h
  by_cases hk : key' = key
  · subst hk
    simp at hl
  · rw [lookup_erase_ne hk] at hl
    exact ⟨nodes, hl, hm⟩

variable [DecidableEq NodeID]

lemma stopAcquiring_frame (v : Validations NodeID Ledger) (key : Nat × ID) (n : NodeID) :
    (v.stopAcquiring key n).current_ = v.current_ ∧ (v.stopAcquiring key n).lastLedger_ = v.lastLedger_ ∧
      (v.stopAcquiring key n).trie_ = v.trie_ ∧ (v.stopAcquiring key n).parms_ = v.parms_ := by
  unfold stopAcquiring
  split <;> exact ⟨rfl, rfl, rfl, rfl⟩

lemma waits_stopAcquiring (h : (v.stopAcquiring key n).Waits key' m) : v.Waits key' m ∧ ¬ (key' = key ∧ m = n) := by
  obtain ⟨nodes', hl', hm⟩ := h
  unfold stopAcquiring at hl'
  split at hl'
  · rename_i hl
    refine ⟨⟨nodes', hl', hm⟩, fun heq => ?_⟩
    rw [heq.1, hl] at hl'
    simp at hl'
  · rename_i nodes hl
    dsimp only at hl'
    by_cases hk : key' = key
    · subst hk
      split at hl'
      · simp at hl'
      rw [lookup_insert, Option.some.injEq] at hl'
      subst hl'
      obtain ⟨hne, hmem⟩ := mem_erase.1 hm
      exact ⟨⟨nodes, hl, hmem⟩, fun heq => hne heq.2⟩
    · refine ⟨⟨nodes', ?_, hm⟩, fun heq => hk heq.1⟩
      split at hl'
      · rwa [lookup_erase_ne hk] at hl'
      · rwa [lookup_insert_ne hk] at hl'

lemma waits_startAcquiring (h : (v.startAcquiring key n).Waits key' m) : key' = key ∧ m = n ∨ v.Waits key' m := by
  obtain ⟨nodes', hl', hm⟩ := h
  rcases of_lookup_insert hl' with ⟨rfl, rfl⟩ | ⟨-, hl'⟩
  · rcases (mem_insert _).1 hm with rfl | hm
    · exact .inl ⟨rfl, rfl⟩
    right
    cases hl : v.acquiring_.lookup key' with
    | none =>
      rw [hl] at hm
      exact absurd hm (notMem_empty m)
    | some nodes =>
      rw [hl] at hm
      exact ⟨nodes, hl, hm⟩
  · exact .inr ⟨nodes', hl', hm⟩

private lemma Inv.remove_last (h : v.Inv S) {ledger : Ledger} (hn : v.lastLedger_.lookup n = some ledger) :
    Yields (v.trie_.remove ledger 1) fun r =>
      r.2.Inv ∧ held r.2.root.nodes = (values (v.lastLedger_.erase n)).map history := by
  obtain ⟨t, hr, hinv, hh⟩ := remove_spec h.trie ledger 1
  refine ⟨_, hr, hinv, ?_⟩
  rw [hh, h.held_eq, values_of_lookup hn, Multiset.map_cons, Multiset.replicate_one,
    Multiset.sub_singleton, Multiset.erase_cons_head]

private lemma card_values_le {m : HashMap NodeID Ledger} (h : ∀ n ∈ m, n ∈ S) : m.values.card ≤ S.card := by
  have hlen : m.values.card = m.keys.length := by simp [values, AList.keys, List.keys]
  rw [hlen, ← toFinset_card_of_nodup m.keys_nodup]
  refine Finset.card_le_card fun n hn => h n ?_
  exact List.mem_toFinset.1 hn

section

variable (h : v.Inv S)

include h

private lemma Inv.trieWithout (n : NodeID) : Yields (v.trieWithout n) fun t =>
      t.Inv ∧ held t.root.nodes = (values (v.lastLedger_.erase n)).map history := by
  unfold Validations.trieWithout
  cases hl : v.lastLedger_.lookup n with
  | none =>
    refine .pure ⟨h.trie, ?_⟩
    rw [erase_of_lookup_eq_none hl]
    exact h.held_eq
  | some prior => exact (h.remove_last hl).map fun r hr => hr

private lemma Inv.updateTrieLedger (hS : S.card < 2 ^ 32) (hn : n ∈ S) (ledger : Ledger) :
    Yields (v.updateTrieLedger n ledger) (Inv S) := by
  have hmem : ∀ m ∈ v.lastLedger_.insert n ledger, m ∈ S := by
    intro m hm
    rcases (mem_insert _).1 hm with rfl | hm
    · exact hn
    · exact h.last_mem m hm
  have hc := card_values_le hmem
  rw [values_insert, card_cons] at hc
  refine (h.trieWithout n).bind fun t ht => ?_
  have hf : (held t.root.nodes).card + 1 < 2 ^ 32 := by
    rw [ht.2, card_map]
    omega
  have hi : Yields (t.insert ledger 1) fun t' => t'.Inv ∧
      held t'.root.nodes = held t.root.nodes + Multiset.replicate 1 (history ledger) :=
    insert_spec ht.1 ledger (le_refl 1) hf
  refine hi.bind fun t' ht' => .pure ⟨ht'.1, ?_, hmem, h.current_mem, h.waiting_mem⟩
  rw [ht'.2, ht.2, values_insert, Multiset.map_cons, Multiset.replicate_one, Multiset.add_comm, singleton_add]

private lemma Inv.stopAcquiring (key : Nat × ID) (n : NodeID) : (v.stopAcquiring key n).Inv S := by
  have hw : ∀ key' m, (v.stopAcquiring key n).Waits key' m → m ∈ S := fun key' m hm =>
    h.waiting_mem key' m (waits_stopAcquiring hm).1
  obtain ⟨hc, hl, ht, -⟩ := stopAcquiring_frame v key n
  exact ⟨ht ▸ h.trie, by rw [ht, hl]; exact h.held_eq, hl ▸ h.last_mem, hc ▸ h.current_mem, hw⟩

private lemma Inv.startAcquiring (key : Nat × ID) (hn : n ∈ S) : (v.startAcquiring key n).Inv S := by
  refine ⟨h.trie, h.held_eq, h.last_mem, h.current_mem, fun key' m hm => ?_⟩
  rcases waits_startAcquiring hm with hm | hm
  · rw [hm.2]
    exact hn
  · exact h.waiting_mem key' m hm

private lemma Inv.removeTrie (n : NodeID) (val : Validation ID) : Yields (v.removeTrie n val) (Inv S) := by
  have hs := h.stopAcquiring (val.seq, val.ledgerID) n
  unfold Validations.removeTrie
  dsimp only
  split
  · exact .pure hs
  rename_i ledger hl
  split
  · refine (hs.remove_last hl).bind fun r hr => .pure ⟨hr.1, hr.2, ?_, hs.current_mem, hs.waiting_mem⟩
    intro m hm
    exact hs.last_mem m (mem_erase.1 hm).2
  · exact .pure hs

private lemma Inv.checkOne (hS : S.card < 2 ^ 32) (key : Nat × ID) {nodes : HashSet NodeID}
    (hns : ∀ n ∈ nodes, n ∈ S) : Yields (v.checkOne a key nodes) (Inv S) := by
  unfold Validations.checkOne
  split
  · exact .pure h.ask
  rename_i ledger _
  refine Yields.bind (Yields.foldlM (I := Inv S) ?_ h.ask) fun w hw => .pure ⟨hw.trie, hw.held_eq, hw.last_mem,
    hw.current_mem, ?_⟩
  · intro n hn w hw
    exact hw.updateTrieLedger hS (hns n ((a.order_perm _ _).mem_iff.1 hn)) ledger
  · intro key' m hm
    exact hw.waiting_mem key' m (waits_erase hm)

private lemma Inv.checkAcquired (hS : S.card < 2 ^ 32) : Yields (v.checkAcquired a) (Inv S) := by
  refine Yields.foldlM (fun e he w hw => ?_) h.ask
  refine hw.checkOne hS _ fun n hn => h.waiting_mem e.1 n ⟨e.2, ?_, hn⟩
  exact lookup_of_mem_entries ((a.order_perm _ _).mem_iff.1 he)

private lemma Inv.updateTrie (hS : S.card < 2 ^ 32) (hn : n ∈ S) (val : Validation ID)
    (prior : Option (Nat × ID)) : Yields (v.updateTrie a n val prior) (Inv S) := by
  have hp : (prior.elim v fun key => v.stopAcquiring key n).Inv S := by
    cases prior with
    | none => exact h
    | some key => exact h.stopAcquiring key n
  refine (hp.checkAcquired hS).bind fun w hw => ?_
  dsimp only
  split
  · exact .pure (hw.startAcquiring _ hn)
  · split
    · exact hw.ask.updateTrieLedger hS hn _
    · exact .pure (hw.ask.startAcquiring _ hn)

private lemma Inv.flushStale (now : Int) (n : NodeID) (val : Validation ID) : Yields (v.flushStale now n val)
    (Inv S) := by
  unfold Validations.flushStale
  split
  · exact .pure h
  · refine (h.removeTrie n val).bind fun _ hw => .pure ⟨hw.trie, hw.held_eq, hw.last_mem, ?_, hw.waiting_mem⟩
    intro m hm
    exact hw.current_mem m (mem_erase.1 hm).2

private lemma Inv.current (now : Int) : Yields (v.current a now) fun r => r.2.Inv S :=
  Yields.bind (Yields.foldlM (fun e _ _ hw => hw.flushStale now e.1 e.2) h.ask) fun _ hw => .pure hw

private lemma Inv.withTrie (hS : S.card < 2 ^ 32) (now : Int) : Yields (v.withTrie a now) (Inv S) :=
  (h.current now).bind fun _ hr => hr.checkAcquired hS

private lemma Inv.set_current (hn : n ∈ S) (val : Validation ID) :
    Inv S { v with current_ := v.current_.insert n val } := by
  refine ⟨h.trie, h.held_eq, h.last_mem, fun m hm => ?_, h.waiting_mem⟩
  rcases (mem_insert _).1 hm with rfl | hm
  · exact hn
  · exact h.current_mem m hm

section

variable (hS : S.card < 2 ^ 32)

include hS

private lemma Inv.makeCurrent (hn : n ∈ S) (val : Validation ID)
    (prior : Option (Nat × ID)) : Yields (v.makeCurrent a n val prior) (Inv S) := by
  unfold Validations.makeCurrent
  split
  · exact (h.set_current hn val).updateTrie hS hn val prior
  · exact .pure (h.set_current hn val)

private lemma Inv.addCurrent (hn : n ∈ S) (val : Validation ID) : Yields (v.addCurrent a n val) fun r => r.2.Inv S := by
  unfold Validations.addCurrent
  split
  · split
    · exact (h.makeCurrent hS hn val _).map fun _ hw => hw
    · exact .pure h
  · exact (h.makeCurrent hS hn val _).map fun _ hw => hw

private lemma Inv.add (now clock : Int) (hn : n ∈ S)
    (val : Validation ID) : Yields (v.add a now clock n val) fun r => r.2.Inv S := by
  unfold Validations.add
  split
  · exact .pure h
  dsimp only
  split
  · exact .pure { h with }
  · refine Inv.addCurrent ?_ hS hn val
    exact { h with }

private lemma Inv.changeTrust (added removed : List NodeID) (hn : n ∈ S)
    (val : Validation ID) : Yields (v.changeTrust a added removed n val) (Inv S) := by
  unfold Validations.changeTrust
  split
  · exact (h.set_current hn _).updateTrie hS hn _ _
  · split
    · exact (h.set_current hn _).removeTrie n _
    · exact .pure h

private lemma Inv.trustChanged (added removed : List NodeID) : Yields (v.trustChanged a added removed) (Inv S) := by
  refine Yields.bind (Yields.foldlM (I := Inv S) (fun e he w hw => ?_) h.ask) fun _ hw =>
    .pure { hw with }
  refine hw.changeTrust hS added removed (h.current_mem _ ?_) e.2
  exact mem_keys_of_mem ((a.order_perm _ _).mem_iff.1 he)

private lemma Inv.getPreferred (now : Int) (curr : Ledger) : Yields (v.getPreferred a now curr) fun r => r.2.Inv S := by
  refine (h.withTrie hS now).bind fun w hw => ?_
  obtain ⟨tip, t, hg, -, hinv, hh⟩ := getPreferred_spec hw.trie w.localSeqEnforcer_.largest
  have hs : Inv S { w with trie_ := t } := ⟨hinv, hh.trans hw.held_eq, hw.last_mem, hw.current_mem, hw.waiting_mem⟩
  refine Yields.bind ⟨_, hg, rfl⟩ fun r hr => ?_
  subst hr
  cases tip with
  | none => exact .pure hs.ask
  | some tip => exact .pure hs

private lemma Inv.getNodesAfter (now : Int) (ledger : Ledger) (id : ID) :
    Yields (v.getNodesAfter a now ledger id) fun r => r.2.Inv S := by
  unfold Validations.getNodesAfter
  split
  · exact (h.withTrie hS now).bind fun w hw => .pure hw
  · exact .pure h

end

private lemma Inv.currentTrusted (now : Int) : Yields (v.currentTrusted a now) fun r => r.2.Inv S :=
  (h.current now).bind fun _ hr => .pure hr

end

private lemma Inv.step (h : v.Inv S) (hS : S.card < 2 ^ 32) (call : Call NodeID Ledger) (hc : senders [call] ⊆ S) :
    Yields (call.step a v) (Inv S) := by
  cases call with
  | add now clock n val =>
    have hn : n ∈ S := hc (by simp [senders])
    exact (h.add hS now clock hn val).map fun _ hr => hr
  | trustChanged added removed => exact h.trustChanged hS added removed
  | expire clock => exact .pure (h.expire clock)
  | setSeqToKeep low high => exact .pure { h with }
  | flush => exact .pure ⟨h.trie, h.held_eq, h.last_mem, by simp [flush], h.waiting_mem⟩
  | getPreferred now curr => exact (h.getPreferred hS now curr).map fun _ hr => hr
  | getNodesAfter now ledger id => exact (h.getNodesAfter hS now ledger id).map fun _ hr => hr
  | currentTrusted now => exact (h.currentTrusted now).map fun _ hr => hr
  | canValidateSeq clock s => exact .pure { h with }

lemma run_spec (a : Adaptor Ledger) (parms : ValidationParms) {calls : List (Call NodeID Ledger)}
    (hS : (senders calls).card < 2 ^ 32) : Yields (run a parms calls) (Inv (senders calls)) := by
  refine Yields.foldlM (fun call hc w hw => hw.step hS call ?_)
    ⟨LedgerTrie.inv_init, rfl, by simp, by simp, by simp [Waits]⟩
  intro n hn
  simp only [senders, List.mem_toFinset, List.mem_filterMap, List.mem_singleton] at hn ⊢
  obtain ⟨_, rfl, hn⟩ := hn
  exact ⟨_, hc, hn⟩

/-- After every run the tip support of a ledger is the number of nodes whose last ledger has its id. -/
theorem run_tipSupport [DecidableEq ID] (a : Adaptor Ledger) (parms : ValidationParms)
    {calls : List (Call NodeID Ledger)} (hS : (senders calls).card < 2 ^ 32) :
    ∃ v, run a parms calls = some v ∧ ∀ ledger : Ledger,
      v.trie_.tipSupport ledger = v.lastLedger_.entries.countP fun e => ledgerID e.2 = ledgerID ledger := by
  obtain ⟨v, hr, hinv⟩ := run_spec a parms hS
  refine ⟨v, hr, fun ledger => ?_⟩
  rw [tipSupport_spec hinv.trie, hinv.held_eq, count_map, ← countP_eq_card_filter, values, coe_countP, List.countP_map]
  refine countP_congr fun e _ => ?_
  simp only [Function.comp_apply, decide_eq_true_eq, history_eq_iff]
  exact eq_comm

def promptAdaptor : Adaptor PathLedger where
  acquire _ id := some ⟨id⟩
  order _ _ l := l
  acquire_id h := by
    obtain rfl := Option.some.inj h
    exact take_length
  order_perm _ _ l := .refl l

/-- Two nodes validate a ledger, and one of them moves on. -/
theorem run_tipSupport_twoNodes :
    let val (id : List Nat) (signTime : Int) : Validation (List Nat) := ⟨id, id.length, signTime, 0, true, true, 0⟩
    let calls : List (Call Nat PathLedger) :=
      [.add 1000 0 7 (val [1] 1000), .add 1000 0 8 (val [1] 1000), .add 1000 0 7 (val [1, 2] 1001)]
    (senders calls).card < 2 ^ 32 ∧ ∃ v, run promptAdaptor {} calls = some v ∧
      v.trie_.tipSupport ⟨[1]⟩ = v.lastLedger_.entries.countP fun e => ledgerID e.2 = ledgerID (⟨[1]⟩ : PathLedger) := by
  intro val calls
  have hS : (senders calls).card < 2 ^ 32 := by decide
  obtain ⟨v, hr, ht⟩ := run_tipSupport promptAdaptor {} hS
  exact ⟨hS, v, hr, ht ⟨[1]⟩⟩

private lemma ledgerID_rcl (l : RCLValidatedLedger) : ledgerID l = l.ledgerID_ := by
  show l.ancestorAt l.ledgerSeq_ = _
  simp [RCLValidatedLedger.ancestorAt, RCLValidatedLedger.minSeq]

/-- The ledgers of one chain, where the hash of a ledger is its sequence number and all the skip lists are full. -/
def chainAdaptor : Adaptor RCLValidatedLedger where
  acquire _ id := some ⟨id, id, range' (id - 256) 256⟩
  order _ _ l := l
  acquire_id h := by
    obtain rfl := Option.some.inj h
    exact ledgerID_rcl _
  order_perm _ _ l := .refl l

/-- Ledger 1300 does not know ledger 1000, so the two are on different branches and 1150 is on both.  When the children
of the root have changed places, the support for 1150 goes to two nodes of the trie. -/
theorem run_tipSupport_skipList :
    let val (id : Nat) : Validation Nat := ⟨id, id, 1000, 0, true, true, 0⟩
    let calls : List (Call Nat RCLValidatedLedger) :=
      [.add 1000 0 1 (val 1000), .add 1000 0 2 (val 1300), .add 1000 0 3 (val 1300), .add 1000 0 4 (val 1300),
        .add 1000 0 5 (val 1150), .getPreferred 1000 ⟨1000, 1000, range' 744 256⟩, .add 1000 0 6 (val 1150)]
    (run chainAdaptor {} calls).map (fun v =>
      let ledger : RCLValidatedLedger := ⟨1150, 1150, range' 894 256⟩
      (v.trie_.tipSupport ledger, v.lastLedger_.entries.countP fun e => ledgerID e.2 = ledgerID ledger)) =
      some (1, 2) := by
  decide +kernel

end Validations

end Xrpl.Consensus

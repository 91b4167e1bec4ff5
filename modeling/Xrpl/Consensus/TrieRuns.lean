import Xrpl.Consensus.TrieRemove

/-!
# Runs of the ancestry trie

The abstract trie is a multiset of ledgers, as strings.  `insert` adds a ledger `count` times and `remove` takes it
away up to `count` times; every sequence of calls whose total support fits the counters does the same to the trie.

* `run_spec`: the run lemma, from `insert_spec` and `remove_spec`;
* `run_checkInvariants`: after every run the invariants the source checks hold, every child continues the span of its
  parent and siblings start with different ids.
-/

namespace Xrpl.Consensus

open OwnedTree.Tree List

inductive TrieOp (Ledger : Type) where
  | insert (ledger : Ledger) (count : Nat)
  | remove (ledger : Ledger) (count : Nat)

section

variable {Ledger ID : Type} [LedgerType Ledger ID] [DecidableEq ID]

def TrieOp.apply (M : Multiset (List ID)) : TrieOp Ledger → Multiset (List ID)
  | .insert ledger count => M + Multiset.replicate count (history ledger)
  | .remove ledger count => M - Multiset.replicate count (history ledger)

def TrieOp.added : TrieOp Ledger → Nat
  | .insert _ count => count
  | .remove _ _ => 0

def TrieOp.positive : TrieOp Ledger → Bool
  | .insert _ count => 1 ≤ count
  | .remove _ _ => true

def TrieOp.step (t : LedgerTrie Ledger) : TrieOp Ledger → Option (LedgerTrie Ledger)
  | .insert ledger count => t.insert ledger count
  | .remove ledger count => (t.remove ledger count).map Prod.snd

namespace LedgerTrie

def supported (ops : List (TrieOp Ledger)) : Multiset (List ID) := ops.foldl TrieOp.apply 0

def run (ops : List (TrieOp Ledger)) : Option (LedgerTrie Ledger) := ops.foldlM TrieOp.step init

/-- Every insertion adds something, and the total support always fits the counters. -/
structure Admissible (ops : List (TrieOp Ledger)) : Prop where
  count_pos : ∀ ledger count, .insert ledger count ∈ ops → 1 ≤ count
  total : ∀ calls, calls <+: ops → (supported calls).card < 2 ^ 32

variable {ops : List (TrieOp Ledger)}

lemma admissible_of_sum (hpos : ops.all TrieOp.positive = true) (hs : (ops.map TrieOp.added).sum < 2 ^ 32) :
    Admissible ops := by
  have hc : ∀ calls : List (TrieOp Ledger), (supported calls).card ≤ (calls.map TrieOp.added).sum := by
    intro calls
    induction calls using reverseRecOn with
    | nil => exact le_rfl
    | append_singleton calls op ih =>
      have hl : (op.apply (supported calls)).card ≤ (supported calls).card + op.added := by
        cases op with
        | insert ledger count => simp [TrieOp.apply, TrieOp.added]
        | remove ledger count => exact Multiset.card_le_card (Multiset.sub_le_self _ _)
      have heq : supported (calls ++ [op]) = op.apply (supported calls) := by simp [supported]
      rw [heq, map_append, sum_append, map_singleton, sum_singleton]
      omega
  refine ⟨fun ledger count hmem => of_decide_eq_true (all_eq_true.1 hpos _ hmem), fun calls hcs => ?_⟩
  obtain ⟨rest, rfl⟩ := hcs
  rw [map_append, sum_append] at hs
  have := hc calls
  omega

lemma run_spec (h : Admissible ops) : ∃ t, run ops = some t ∧ t.Inv ∧ held t.root.nodes = supported ops := by
  induction ops using reverseRecOn with
  | nil => exact ⟨init, rfl, inv_init, rfl⟩
  | append_singleton ops op ih =>
    obtain ⟨t, hr, hinv, hh⟩ := ih ⟨fun ledger count hmem => h.count_pos ledger count (by simp [hmem]),
      fun calls hcs => h.total calls (hcs.trans (prefix_append _ _))⟩
    have hr' : run (ops ++ [op]) = op.step t := by
      rw [run, foldlM_append]
      show (run ops >>= _) = _
      rw [hr]
      simp
    have hs : supported (ops ++ [op]) = op.apply (held t.root.nodes) := by
      rw [supported, foldl_append, hh]
      rfl
    have ht := h.total _ (prefix_refl _)
    rw [hs] at ht ⊢
    rw [hr']
    cases op with
    | insert ledger count =>
      rw [TrieOp.apply, Multiset.card_add, Multiset.card_replicate] at ht
      exact insert_spec hinv ledger (h.count_pos ledger count (by simp)) ht
    | remove ledger count =>
      obtain ⟨t', hrem, hinv', hh'⟩ := remove_spec hinv ledger count
      exact ⟨t', by rw [TrieOp.step, hrem]; rfl, hinv', hh'⟩

/-- What a run leaves behind passes the check of the source; besides, each child continues the span of its parent,
and siblings start with different ids. -/
theorem run_checkInvariants {ops : List (TrieOp Ledger)} (h : Admissible ops) :
    ∃ t, run ops = some t ∧ t.checkInvariants = true ∧ ∀ ctx v children, t.root = plug ctx (node v children) →
        (∀ child ∈ children, child.val.span.start_ = v.span.end_) ∧
        (children.map fun child => child.val.span.startID).Nodup := by
  obtain ⟨t, hrun, hinv, -⟩ := run_spec h
  refine ⟨t, hrun, hinv.checkInvariants, ?_⟩
  intro ctx v children hr
  have hns := hinv.nodes
  rw [hr] at hns
  obtain ⟨⟨hok, -⟩, hb⟩ := local_node.1 (local_plug_iff.1 hns).1
  constructor
  · intro child hch
    exact (hb child hch).here.1.start v rfl
  · have := hok.siblings
    rwa [map_map] at this

end LedgerTrie

end

/-- A ledger given by the choice made after each of its ancestors; its id is that whole path. -/
structure PathLedger where
  path : List Nat

def commonLength : List Nat → List Nat → Nat
  | a :: as, b :: bs => if a = b then commonLength as bs + 1 else 0
  | _, _ => 0

private lemma commonLength_spec (a b : List Nat) : commonLength a b ≤ a.length ∧ commonLength a b ≤ b.length ∧
      (∀ p, p ≤ commonLength a b → a.take p = b.take p) ∧
      (commonLength a b + 1 ≤ a.length → commonLength a b + 1 ≤ b.length →
        a.take (commonLength a b + 1) ≠ b.take (commonLength a b + 1)) := by
  induction a generalizing b with
  | nil => simp [commonLength]
  | cons x a ih =>
    cases b with
    | nil => simp [commonLength]
    | cons y b =>
      by_cases hxy : x = y
      · subst hxy
        obtain ⟨h1, h2, h3, h4⟩ := ih b
        simp only [commonLength, ↓reduceIte, length_cons]
        refine ⟨by omega, by omega, ?_, ?_⟩
        · intro p hp
          cases p with
          | zero => rfl
          | succ p => simp [h3 p (by omega)]
        · intro ha hb
          simpa using h4 (by omega) (by omega)
      · simp [commonLength, hxy]

instance : LedgerType PathLedger (List Nat) where
  genesis := ⟨[]⟩
  seq l := l.path.length
  ancestor l s := l.path.take s
  mismatch a b := commonLength a.path b.path + 1
  seq_genesis := rfl
  ancestor_zero _ := rfl
  unique_history a b s t hs ht h := by
    have hst : s = t := by
      have := congrArg length h
      simp only [length_take] at this
      omega
    subst hst
    refine ⟨rfl, fun p hp => ?_⟩
    have := congrArg (take p) h
    simpa [take_take, Nat.min_eq_left hp] using this
  agree_of_lt_mismatch a b p hp := by
    have h := commonLength_spec a.path b.path
    exact ⟨by omega, by omega, h.2.2.1 p (by omega)⟩
  differ_at_mismatch a b ha hb := (commonLength_spec a.path b.path).2.2.2 ha hb

namespace LedgerTrie

/-- Two forks are inserted and one of them is removed again. -/
theorem run_checkInvariants_fork :
    let ops : List (TrieOp PathLedger) := [.insert ⟨[1, 2, 3]⟩ 2, .insert ⟨[1, 4]⟩ 1, .remove ⟨[1, 2, 3]⟩ 5]
    Admissible ops ∧ ∃ t, run ops = some t ∧ t.checkInvariants = true := by
  have h : Admissible ([.insert ⟨[1, 2, 3]⟩ 2, .insert ⟨[1, 4]⟩ 1, .remove ⟨[1, 2, 3]⟩ 5] : List (TrieOp PathLedger)) :=
    admissible_of_sum (by decide) (by decide)
  obtain ⟨t, hr, hc, -⟩ := run_checkInvariants h
  exact ⟨h, t, hr, hc⟩

end LedgerTrie

end Xrpl.Consensus

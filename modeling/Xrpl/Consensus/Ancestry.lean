import Mathlib.Tactic.Abel
import Mathlib.Algebra.BigOperators.Group.Multiset.Basic
import Xrpl.Consensus.LedgerTrie

/-!
# Ledgers as strings of ancestor ids

What the trie is for: it keeps a multiset of ledgers, each of them the string of the ids of its ancestors.

* `trace`, `history`, `Span.label`: the strings of a ledger, and of the tip of a span;
* `label_eq_history_iff`: by unique history a tip has the id of a ledger when the two strings are the same;
* `Span.diff_spec`: what the first difference between a span and a ledger says about the strings.
-/

namespace Xrpl.Consensus

open LedgerType

section

variable {Ledger ID : Type} [LedgerType Ledger ID]

def trace (l : Ledger) (n : Nat) : List ID := (List.range n).map (ancestor l)

def history (l : Ledger) : List ID := trace l (seq l + 1)

def Span.label (s : Span Ledger) : List ID := trace s.ledger_ s.end_

@[simp] lemma length_trace (l : Ledger) (n : Nat) : (trace l n).length = n := by simp [trace]

@[simp] lemma length_history (l : Ledger) : (history l).length = seq l + 1 := length_trace _ _

@[simp] lemma Span.length_label (s : Span Ledger) : s.label.length = s.end_ := length_trace _ _

variable {a b : Ledger} {n : Nat}

lemma trace_eq_iff : trace a n = trace b n ↔ ∀ p, p < n → ancestor a p = ancestor b p := by
  simp [trace]

lemma trace_eq_of_le {m : Nat} (h : trace a n = trace b n) (hmn : m ≤ n) : trace a m = trace b m :=
  trace_eq_iff.2 fun p hp => trace_eq_iff.1 h p (hp.trans_le hmn)

lemma trace_eq_of_ancestor {s : Nat} (ha : s ≤ seq a) (hb : s ≤ seq b)
    (h : ancestor a s = ancestor b s) : trace a (s + 1) = trace b (s + 1) := by
  rw [trace_eq_iff]
  intro p hp
  exact (unique_history a b s s ha hb h).2 p (by omega)

lemma label_eq_history_iff (s : Span Ledger) (l : Ledger) : s.label = history l ↔ ledgerID l = s.tip.id := by
  have hpos := s.start_lt_end
  have hle := s.end_le
  constructor
  · intro h
    have hlen : s.end_ = seq l + 1 := by simpa using congrArg List.length h
    have htr : trace s.ledger_ (seq l + 1) = trace l (seq l + 1) := by
      rw [← hlen]
      exact h.trans (by rw [history, hlen])
    show ancestor l (seq l) = ancestor s.ledger_ (s.end_ - 1)
    rw [hlen]
    exact (trace_eq_iff.1 htr _ (Nat.lt_succ_self _)).symm
  · intro h
    obtain ⟨hs, ha⟩ := unique_history l s.ledger_ (seq l) (s.end_ - 1) le_rfl (by omega) h
    have hlen : s.end_ = seq l + 1 := by omega
    show trace s.ledger_ s.end_ = trace l (seq l + 1)
    rw [hlen, trace_eq_iff]
    intro p hp
    exact (ha p (by omega)).symm

private lemma mismatch_le (a b : Ledger) : mismatch a b ≤ seq a + 1 ∧ mismatch a b ≤ seq b + 1 := by
  have hpos : mismatch a b ≠ 0 := by
    intro h0
    apply differ_at_mismatch a b (by omega) (by omega)
    rw [h0, ancestor_zero a, ancestor_zero b]
  have h := agree_of_lt_mismatch a b (mismatch a b - 1) (by omega)
  omega

private lemma lt_mismatch_iff (ha : n ≤ seq a) (hb : n ≤ seq b) : n < mismatch a b ↔ ancestor a n = ancestor b n := by
  constructor
  · intro h
    exact (agree_of_lt_mismatch a b n h).2.2
  intro h
  by_contra hlt
  have htr := trace_eq_of_ancestor ha hb h
  exact differ_at_mismatch a b (by omega) (by omega) (trace_eq_iff.1 htr _ (by omega))

lemma Span.diff_spec (s : Span Ledger) {l : Ledger} (hst : s.start_ ≤ seq l + 1)
    (ha : trace s.ledger_ s.start_ = trace l s.start_) :
    s.start_ ≤ s.diff l ∧ s.diff l ≤ s.end_ ∧ s.diff l ≤ seq l + 1 ∧ trace s.ledger_ (s.diff l) = trace l (s.diff l) ∧
      (s.start_ < s.diff l ↔ s.start_ ≤ seq l ∧ s.startID = ancestor l s.start_) ∧
      (s.diff l < s.end_ → s.diff l ≤ seq l → ancestor s.ledger_ (s.diff l) ≠ ancestor l (s.diff l)) := by
  have hpos := s.start_lt_end
  have he := s.end_le
  have hm := mismatch_le s.ledger_ l
  have hd : s.diff l = min (max s.start_ (mismatch s.ledger_ l)) s.end_ := rfl
  refine ⟨by omega, by omega, by omega, ?_, ?_, ?_⟩
  · by_cases hms : s.start_ ≤ mismatch s.ledger_ l
    · rw [trace_eq_iff]
      intro p hp
      exact (agree_of_lt_mismatch _ _ p (by omega)).2.2
    · rwa [show s.diff l = s.start_ by omega]
  · constructor
    · intro h
      have hlt : s.start_ < mismatch s.ledger_ l := by omega
      have := agree_of_lt_mismatch _ _ _ hlt
      exact ⟨this.2.1, this.2.2⟩
    · intro h
      have := (lt_mismatch_iff (by omega) h.1).2 h.2
      omega
  · intro h1 h2 heq
    have hlt := (lt_mismatch_iff (by omega) h2).2 heq
    omega

end

end Xrpl.Consensus

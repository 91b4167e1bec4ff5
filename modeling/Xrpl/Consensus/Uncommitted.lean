import Xrpl.Consensus.TrieInvariant
import Xrpl.Consensus.PreferredSpec

/-!
# The uncommitted support along a walk

`getPreferred` walks over the entries of `seqSupport_` with an iterator that it never sets back, and adds them to the
uncommitted support.  `Remaining` is what the iterator has ahead of it.

* `addEarlier_spec`, `advance_spec`: the two loops that move the iterator leave the support below a sequence number,
  and the entries from there on.
-/

namespace Xrpl.Consensus

open List LedgerTrie

variable {ID : Type} {M : Multiset (List ID)}

/-- The entries of `seqSupport_` from sequence number `b` on. -/
structure Remaining (M : Multiset (List ID)) (b : Nat) (it : List (Nat × Nat)) : Prop where
  sorted : it.Pairwise (·.1 < ·.1)
  mem_iff : ∀ s k, (s, k) ∈ it ↔ b ≤ s ∧ countAt M s = k ∧ k ≠ 0

private lemma below_succ (M : Multiset (List ID)) (b : Nat) : below M (b + 1) = below M b + countAt M b := by
  unfold below countAt
  induction M using Multiset.induction with
  | empty => rfl
  | cons h M ih =>
    simp only [Multiset.countP_cons, ih]
    by_cases h1 : h.length ≤ b
    · simp [show h.length ≤ b + 1 by omega, h1, show h.length ≠ b + 1 by omega]
      omega
    by_cases h2 : h.length = b + 1
    · simp [h2]
      omega
    · simp [show ¬ h.length ≤ b + 1 by omega, h1, h2]

variable {b b' : Nat} {it : List (Nat × Nat)}

private lemma below_eq_of_countAt (hb : b ≤ b') (h : ∀ s, b ≤ s → s < b' → countAt M s = 0) :
    below M b' = below M b := by
  induction b', hb using Nat.le_induction with
  | base => rfl
  | succ b' hb ih => rw [below_succ, h b' hb (by omega), ih fun s h1 h2 => h s h1 (by omega), add_zero]

private lemma below_le_card (M : Multiset (List ID)) (b : Nat) : below M b ≤ M.card := Multiset.countP_le_card _ _

private lemma below_mono (h : b ≤ b') : below M b ≤ below M b' := by
  induction b', h using Nat.le_induction with
  | base => exact le_rfl
  | succ b' _ ih =>
    rw [below_succ]
    omega

private lemma Remaining.mono (h : Remaining M b it) (hb : b ≤ b')
    (hit : ∀ e ∈ it, b' ≤ e.1) : Remaining M b' it ∧ below M b' = below M b := by
  refine ⟨⟨h.sorted, fun s k => ⟨fun hmem => ⟨hit _ hmem, ((h.mem_iff s k).1 hmem).2⟩,
    fun hs => (h.mem_iff s k).2 ⟨by omega, hs.2⟩⟩⟩, below_eq_of_countAt hb fun s h1 h2 => ?_⟩
  by_contra h0
  have := hit _ ((h.mem_iff s _).2 ⟨h1, rfl, h0⟩)
  omega

private lemma Remaining.tail {s k : Nat} (h : Remaining M b ((s, k) :: it)) :
    b ≤ s ∧ below M s = below M b ∧ below M (s + 1) = below M b + k ∧ (∀ e ∈ (s, k) :: it, s ≤ e.1) ∧
      Remaining M (s + 1) it := by
  obtain ⟨hb, hk, -⟩ := (h.mem_iff s k).1 mem_cons_self
  have hlt : ∀ {e}, e ∈ it → s < e.1 := rel_of_pairwise_cons h.sorted
  have hle : ∀ e ∈ (s, k) :: it, s ≤ e.1 := by
    intro e he
    rcases mem_cons.1 he with rfl | he
    · exact le_rfl
    · exact (hlt he).le
  have hs := (h.mono hb hle).2
  refine ⟨hb, hs, by rw [below_succ, hs, hk], hle, h.sorted.of_cons, fun s' k' => ?_⟩
  constructor
  · intro hmem
    exact ⟨hlt hmem, ((h.mem_iff s' k').1 (mem_cons_of_mem _ hmem)).2⟩
  intro hs'
  rcases mem_cons.1 ((h.mem_iff s' k').2 ⟨by omega, hs'.2⟩) with heq | hmem
  · simp only [Prod.mk.injEq] at heq
    omega
  · exact hmem

lemma remaining_toList {m : Std.ExtTreeMap Nat Nat} (h : Counts m M) : Remaining M 0 m.toList where
  sorted := by
    refine (Std.ExtTreeMap.ordered_keys_toList (t := m)).imp fun {a b} hab => ?_
    exact Nat.compare_eq_lt.1 hab
  mem_iff s k := by
    rw [Std.ExtTreeMap.mem_toList_iff_getElem?_eq_some, h s]
    constructor
    · intro hs
      split at hs
      · simp at hs
      · obtain rfl := Option.some.inj hs
        exact ⟨Nat.zero_le _, rfl, by assumption⟩
    · intro hs
      obtain ⟨-, rfl, hk⟩ := hs
      rw [if_neg hk]

/-- After the first loop the support below `bound` is uncommitted. -/
lemma addEarlier_spec (hM : M.card < 2 ^ 32) {bound : Nat} (hb : b ≤ bound) (h : Remaining M b it) :
    (addEarlier bound (below M b) it).1 = below M bound ∧ Remaining M bound (addEarlier bound (below M b) it).2 := by
  induction it generalizing b with
  | nil =>
    obtain ⟨h1, h2⟩ := h.mono hb (by simp)
    exact ⟨h2.symm, h1⟩
  | cons e it ih =>
    obtain ⟨s, k⟩ := e
    obtain ⟨hbs, hs, hs', hge, ht⟩ := h.tail
    rw [addEarlier]
    by_cases hlt : s < bound
    · have hle := below_le_card M (s + 1)
      rw [if_pos hlt, uint32_of_lt (by omega), ← hs']
      exact ih hlt ht
    rw [if_neg hlt]
    obtain ⟨h1, h2⟩ := h.mono hb fun e he => (not_lt.1 hlt).trans (hge e he)
    exact ⟨h2.symm, h1⟩

/-- The second loop stops at the first sequence number where the branch support does not exceed the uncommitted
support, or at the end of the span. -/
lemma advance_spec (hM : M.card < 2 ^ 32) (support : Nat) {stop L next : Nat} (hn : next ≤ stop)
    (h : Remaining M (max next L) it) :
    ∃ k u it', advance stop support next (below M (max next L)) it = (k, u, it') ∧ next ≤ k ∧ k ≤ stop ∧
      (∀ j, next ≤ j → j < k → below M (max j L) < support) ∧
      (k < stop → support ≤ below M (max k L)) ∧
      (k = stop → u = below M (max stop L) ∧ Remaining M (max stop L) it') := by
  -- nothing is left before the end of the span, so the whole rest has the same uncommitted support
  have jump : ∀ {next it}, next < stop → Remaining M (max next L) it → below M (max next L) < support →
      (∀ e ∈ it, stop ≤ e.1) → (∀ j, next ≤ j → j < stop → below M (max j L) < support) ∧
        below M (max next L) = below M (max stop L) ∧ Remaining M (max stop L) it := by
    intro next it hlt hr hsup ha
    have ha' : ∀ e ∈ it, max stop L ≤ e.1 := by
      intro e he
      have h1 := ha e he
      have h2 := (hr.mem_iff e.1 e.2).1 he
      omega
    obtain ⟨h1, h2⟩ := hr.mono (by omega) ha'
    refine ⟨fun j hj1 hj2 => ?_, h2.symm, h1⟩
    have := below_mono (M := M) (show max j L ≤ max stop L by omega)
    omega
  induction it generalizing next with
  | nil =>
    rw [advance]
    by_cases hc : next < stop ∧ support > below M (max next L)
    · obtain ⟨h1, h2, h3⟩ := jump hc.1 h hc.2 (by simp)
      rw [if_pos hc]
      exact ⟨stop, _, [], rfl, hn, le_rfl, h1, fun hlt => absurd hlt (lt_irrefl _), fun _ => ⟨h2, h3⟩⟩
    rw [if_neg hc]
    refine ⟨next, _, [], rfl, le_rfl, hn, fun j h1 h2 => by omega, fun hlt => ?_, fun heq => ?_⟩
    · by_contra hsup
      exact hc ⟨hlt, by omega⟩
    · exact ⟨by rw [heq], heq ▸ h⟩
  | cons e it ih =>
    obtain ⟨s, k⟩ := e
    rw [advance]
    by_cases hc : next < stop ∧ support > below M (max next L)
    · rw [if_pos hc]
      obtain ⟨hbs, hs, hs', hge, ht⟩ := h.tail
      by_cases hlt : s < stop
      · have hle := below_le_card M (s + 1)
        have hmax : max (s + 1) L = s + 1 := by omega
        rw [if_pos hlt, uint32_of_lt (by omega), ← hs']
        obtain ⟨k', u, it', hrun, h1, h2, h3, h4, h5⟩ := ih hlt (show Remaining M (max (s + 1) L) it by rwa [hmax])
        rw [hmax] at hrun
        refine ⟨k', u, it', hrun, by omega, h2, fun j hj1 hj2 => ?_, h4, h5⟩
        by_cases hjs : s + 1 ≤ j
        · exact h3 j hjs hj2
        · have := below_mono (M := M) (show max j L ≤ s by omega)
          omega
      · rw [if_neg hlt]
        obtain ⟨h1, h2, h3⟩ := jump hc.1 h hc.2 fun e he => (not_lt.1 hlt).trans (hge e he)
        exact ⟨stop, _, _, rfl, hn, le_rfl, h1, fun hlt => absurd hlt (lt_irrefl _), fun _ => ⟨h2, h3⟩⟩
    · rw [if_neg hc]
      refine ⟨next, _, _, rfl, le_rfl, hn, fun j h1 h2 => by omega, fun hlt => ?_, fun heq => ?_⟩
      · by_contra hsup
        exact hc ⟨hlt, by omega⟩
      · exact ⟨by rw [heq], heq ▸ h⟩

end Xrpl.Consensus

import Mathlib.Algebra.Order.BigOperators.Group.List
import Mathlib.Algebra.Order.Ring.Nat
import Xrpl.Lib.RadixUpdate

/-!
# Walking a radix tree

The entries of a radix tree in the order of its branches, the subtrees below its root, and the number of its nodes,
which bounds every walk that keeps the nodes still to be visited on a stack.

* `mem_entries`: the listed entries are those held by a leaf;
* `entries_eq_branches`: empty branches contribute nothing, so a walk may skip them;
* `entriesFrom`, `entriesBelow`: the entries on one side of a branch, as a walk along the branches meets them;
* `Canonical.pairwise_entries`: the entries of a canonical tree are listed in the order of their keys.
-/

namespace RadixTree.Tree

open List

variable {n : Nat} {α β K : Type}

def size : Tree n α β → Nat
  | null => 1
  | leaf _ => 1
  | inner _ c => ((finRange n).map fun i => size (c i)).sum + 1

def entries : Tree n α β → List α
  | null => []
  | leaf a => [a]
  | inner _ c => (finRange n).flatMap fun i => entries (c i)

def subtrees : Tree n α β → List (Tree n α β)
  | null => [null]
  | leaf a => [leaf a]
  | inner tag c => inner tag c :: (finRange n).flatMap fun i => subtrees (c i)

variable {t : Tree n α β} {a : α} {c : Fin n → Tree n α β} {m : Nat}

lemma isNull_eq_false_iff : t.isNull = false ↔ t ≠ null := by
  cases t <;> simp [isNull]

lemma mem_entries : a ∈ t.entries ↔ Mem a t := by
  induction t with
  | null => simp [entries]
  | leaf b => simp [entries]
  | inner tag c ih => simp [entries, mem_inner, ih]

lemma self_mem_subtrees (t : Tree n α β) : t ∈ t.subtrees := by
  cases t <;> simp [subtrees]

lemma subtrees_child {tag : β} {i : Fin n} (h : t ∈ (c i).subtrees) : t ∈ (inner tag c).subtrees := by
  rw [subtrees, mem_cons, mem_flatMap]
  exact .inr ⟨i, mem_finRange i, h⟩

lemma subtrees_trans {s u : Tree n α β} (hst : s ∈ t.subtrees) (htu : t ∈ u.subtrees) : s ∈ u.subtrees := by
  induction u with
  | null | leaf a =>
    rw [subtrees, mem_singleton] at htu
    rwa [← htu]
  | inner tag c ih =>
    rw [subtrees, mem_cons, mem_flatMap] at htu
    rcases htu with rfl | ⟨i, -, hi⟩
    · exact hst
    · exact subtrees_child (ih i hi)

lemma sum_size_le_of_sublist (c : Fin n → Tree n α β) {l : List (Fin n)} (hs : l.Sublist (finRange n)) :
    (l.map fun i => (c i).size).sum ≤ ((finRange n).map fun i => (c i).size).sum :=
  (hs.map fun i => (c i).size).sum_le_sum fun _ _ => Nat.zero_le _

lemma size_child_lt (tag : β) (c : Fin n → Tree n α β) (i : Fin n) : (c i).size < (inner tag c).size := by
  have h := sum_size_le_of_sublist c (singleton_sublist.2 (mem_finRange i))
  exact Nat.lt_succ_of_le h

lemma flatMap_filter {γ : Type} (l : List (Fin n)) (P : Fin n → Bool) (f : Fin n → List γ) :
    (l.filter P).flatMap f = l.flatMap fun i => if P i then f i else [] := by
  induction l with
  | nil => rfl
  | cons i l ih =>
    rw [flatMap_cons, ← ih, filter_cons]
    split
    · rw [flatMap_cons]
    · rfl

lemma entries_eq_branches (tag : β) (c : Fin n → Tree n α β) :
    (inner tag c).entries = (branches c).flatMap fun i => (c i).entries := by
  rw [entries, branches, flatMap_filter]
  congr 1
  funext i
  cases c i <;> simp [isNull, entries]

def entriesFrom (c : Fin n → Tree n α β) (m : Nat) : List α := ((finRange n).drop m).flatMap fun i => (c i).entries

def entriesBelow (c : Fin n → Tree n α β) (m : Nat) : List α := ((finRange n).take m).flatMap fun i => (c i).entries

lemma entriesFrom_zero (tag : β) (c : Fin n → Tree n α β) : entriesFrom c 0 = (inner tag c).entries := rfl

section

variable (c : Fin n → Tree n α β)

lemma entriesFrom_cons (i : Fin n) : entriesFrom c i = (c i).entries ++ entriesFrom c (i + 1) := by
  have hi : (i : Nat) < (finRange n).length := by simp
  rw [entriesFrom, drop_eq_getElem_cons hi, getElem_finRange]
  rfl

lemma entriesFrom_of_le (h : n ≤ m) : entriesFrom c m = [] := by
  rw [entriesFrom, drop_eq_nil_of_le (by simpa using h)]
  rfl

lemma entriesBelow_succ (i : Fin n) : entriesBelow c (i + 1) = entriesBelow c i ++ (c i).entries := by
  have hi : (i : Nat) < (finRange n).length := by simp
  rw [entriesBelow, take_succ_eq_append_getElem hi, flatMap_append, getElem_finRange, flatMap_singleton]
  rfl

end

lemma entries_split (tag : β) (c : Fin n → Tree n α β) (i : Fin n) :
    (inner tag c).entries = entriesBelow c i ++ ((c i).entries ++ entriesFrom c (i + 1)) := by
  rw [← entriesFrom_cons, entriesBelow, entriesFrom, ← flatMap_append, take_append_drop, entries]

lemma mem_entriesFrom (h : a ∈ entriesFrom c m) : ∃ i : Fin n, m ≤ i ∧ Mem a (c i) := by
  obtain ⟨i, hi, ha⟩ := mem_flatMap.1 h
  obtain ⟨j, hj, rfl⟩ := mem_iff_getElem.1 hi
  refine ⟨_, ?_, mem_entries.1 ha⟩
  simp

lemma mem_entriesBelow (h : a ∈ entriesBelow c m) : ∃ i : Fin n, i < m ∧ Mem a (c i) := by
  obtain ⟨i, hi, ha⟩ := mem_flatMap.1 h
  obtain ⟨j, hj, rfl⟩ := mem_iff_getElem.1 hi
  refine ⟨_, ?_, mem_entries.1 ha⟩
  rw [length_take] at hj
  simp
  omega

section Canonical

variable {digit : K → Nat → Fin n} {key : α → K} {dirty : β} {R : K → K → Prop} {p : List (Fin n)}

lemma Canonical.entries_ne_nil (h : Canonical digit key dirty p t) (hn : t ≠ null) : t.entries ≠ [] := by
  cases t with
  | null => exact absurd rfl hn
  | leaf a => simp [entries]
  | inner tag c =>
    obtain ⟨-, ⟨a, _, _, ha, -⟩, -⟩ := h
    exact ne_nil_of_mem (mem_entries.2 ha)

variable (hR : ∀ k k' d, (∀ e, e < d → digit k e = digit k' e) → digit k d < digit k' d → R k k')

include hR

private lemma pairwise_branches {tag : β} (h : ∀ i, Canonical digit key dirty (p ++ [i]) (c i))
    (ih : ∀ i, (c i).entries.Pairwise fun a b => R (key a) (key b)) :
    (inner tag c).entries.Pairwise fun a b => R (key a) (key b) := by
  rw [entries, pairwise_flatMap]
  refine ⟨fun i _ => ih i, (pairwise_lt_finRange n).imp ?_⟩
  intro i j hij a ha b hb
  obtain ⟨ua, hi⟩ := (under_concat digit).1 ((h i).under (mem_entries.1 ha))
  obtain ⟨ub, hj⟩ := (under_concat digit).1 ((h j).under (mem_entries.1 hb))
  exact hR _ _ p.length ((pre_eq_iff digit).1 (ua.trans ub.symm)) (by rwa [hi, hj])

/-- The entries are listed in any order of the keys that compares them at the first digit in which they differ. -/
lemma Canonical.pairwise_entries (h : Canonical digit key dirty p t) :
    t.entries.Pairwise fun a b => R (key a) (key b) := by
  induction t generalizing p with
  | null => exact List.Pairwise.nil
  | leaf a => exact pairwise_singleton _ _
  | inner tag c ih => exact pairwise_branches hR h.2.2 fun i => ih i (h.2.2 i)

lemma CanonicalRoot.pairwise_entries (h : CanonicalRoot digit key dirty t) :
    t.entries.Pairwise fun a b => R (key a) (key b) := by
  obtain ⟨c, rfl, hc⟩ := h
  exact pairwise_branches (p := []) hR hc fun i => (hc i).pairwise_entries hR

/-- The entries below an inner node, compared with a key that starts with the prefix of the node. -/
lemma order_of_branch (h : ∀ i, Canonical digit key dirty (p ++ [i]) (c i)) {k : K}
    (hk : Under digit p k) {i : Fin n} (ha : Mem a (c i)) :
    (digit k p.length < i → R k (key a)) ∧ (i < digit k p.length → R (key a) k) := by
  obtain ⟨ua, hi⟩ := (under_concat digit).1 ((h i).under ha)
  rw [← hi]
  exact ⟨hR _ _ _ ((pre_eq_iff digit).1 (hk.trans ua.symm)), hR _ _ _ ((pre_eq_iff digit).1 (ua.trans hk.symm))⟩

end Canonical

end RadixTree.Tree

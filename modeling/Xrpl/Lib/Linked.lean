import Mathlib.Data.List.Chain
import Mathlib.Data.List.Nodup

/-!
# Doubly linked lists

The nodes of a doubly linked list are spread over a store; `next` and `prev` read their links.  `Linked next prev l` says
that the links run through `l` in both directions.  The list may come back to its first node, so that a ring with root `r`
is `Linked next prev (l ++ [r])`.

* `Linked.congr`: the links that matter are the `next` of all nodes but the last and the `prev` of all but the first;
* `Linked.splice`: replace a part of the list, and keep the rest;
* `Linked.link`, `Linked.unlink`: put a node between two others, and take it out;
* `DoublyLinked`: the links of a list with two ends, where the first and the last node have one link;
* `DoublyLinked.splice`, `DoublyLinked.link`, `DoublyLinked.unlink`: the same for such a list.
-/

variable {α : Type}

lemma List.IsChain.imp_of_mem {R S : α → α → Prop} {l : List α} (h : l.IsChain R)
    (hRS : ∀ a ∈ l.dropLast, ∀ b ∈ l.tail, R a b → S a b) : l.IsChain S := by
  induction l with
  | nil => exact .nil
  | cons a l ih =>
    cases l with
    | nil => exact .singleton a
    | cons b l =>
      obtain ⟨hab, hl⟩ := isChain_cons_cons.1 h
      refine isChain_cons_cons.2 ⟨hRS a (by simp) b (by simp) hab, ih hl fun x hx y hy => ?_⟩
      exact hRS x (by simpa using .inr hx) y (by simpa using .inr hy)

/-- The links run through the list in both directions. -/
def Linked (next prev : α → Option α) (l : List α) : Prop := l.IsChain fun a b => next a = some b ∧ prev b = some a

namespace Linked

open List Function

variable {next prev next' prev' : α → Option α}

private lemma congr {l : List α} (h : Linked next prev l) (hn : ∀ a ∈ l.dropLast, next' a = next a)
    (hp : ∀ b ∈ l.tail, prev' b = prev b) : Linked next' prev' l :=
  List.IsChain.imp_of_mem h fun a ha b hb hab => ⟨(hn a ha).trans hab.1, (hp b hb).trans hab.2⟩

lemma split {l1 l2 : List α} {a : α} : Linked next prev (l1 ++ a :: l2) ↔
    Linked next prev (l1 ++ [a]) ∧ Linked next prev (a :: l2) := isChain_split

private lemma splice {l1 l2 m m' : List α} {a b : α} (h : Linked next prev (l1 ++ a :: (m ++ b :: l2)))
    (hm' : Linked next' prev' (a :: (m' ++ [b]))) (hn : ∀ x ∈ l1 ++ (b :: l2).dropLast, next' x = next x)
    (hp : ∀ x ∈ (l1 ++ [a]).tail ++ l2, prev' x = prev x) : Linked next' prev' (l1 ++ a :: (m' ++ b :: l2)) := by
  obtain ⟨h1, hr⟩ := split.1 h
  have h2 : Linked next prev (b :: l2) := by
    rw [← cons_append] at hr
    exact (split.1 hr).2
  refine split.2 ⟨h1.congr ?_ ?_, ?_⟩
  · intro x hx
    rw [dropLast_concat] at hx
    exact hn x (by simp [hx])
  · exact fun x hx => hp x (by simp [hx])
  rw [← cons_append]
  refine split.2 ⟨hm', h2.congr ?_ ?_⟩
  · exact fun x hx => hn x (by simp [hx])
  · exact fun x hx => hp x (mem_append_right _ hx)

section

variable {l1 l2 : List α} {a b n : α}

private lemma mem_of_mem_dropLast {x : α} (hx : x ∈ l1 ++ (b :: l2).dropLast) : x ∈ l1 ++ a :: b :: l2 := by
  rcases mem_append.1 hx with hx | hx
  · exact mem_append_left _ hx
  · exact mem_append_right _ (mem_cons_of_mem _ (dropLast_subset _ hx))

private lemma mem_of_mem_tail {x : α} (hx : x ∈ (l1 ++ [a]).tail ++ l2) : x ∈ l1 ++ a :: b :: l2 := by
  rcases mem_append.1 hx with hx | hx
  · rw [append_cons]
    exact List.mem_append_left _ (List.mem_of_mem_tail hx)
  · exact mem_append_right _ (mem_cons_of_mem _ (mem_cons_of_mem _ hx))

variable [DecidableEq α] (ha : a ∉ l1 ++ (b :: l2).dropLast) (hb : b ∉ (l1 ++ [a]).tail ++ l2)
  (hn : n ∉ l1 ++ a :: b :: l2)

include ha hb hn

private lemma splice_update {m k : List α} {x y z w : Option α} (h : Linked next prev (l1 ++ a :: (m ++ b :: l2)))
    (hm : Linked (update (update next a x) n y) (update (update prev b z) n w) (a :: (k ++ [b]))) :
    Linked (update (update next a x) n y) (update (update prev b z) n w) (l1 ++ a :: (k ++ b :: l2)) := by
  refine splice h hm ?_ ?_
  · intro x hx
    rw [update_of_ne (ne_of_mem_of_not_mem (mem_of_mem_dropLast hx) hn), update_of_ne (ne_of_mem_of_not_mem hx ha)]
  · intro x hx
    rw [update_of_ne (ne_of_mem_of_not_mem (mem_of_mem_tail hx) hn), update_of_ne (ne_of_mem_of_not_mem hx hb)]

lemma link (h : Linked next prev (l1 ++ a :: b :: l2)) :
    Linked (update (update next a (some n)) n (some b))
      (update (update prev b (some n)) n (some a)) (l1 ++ a :: n :: b :: l2) := by
  have hna : a ≠ n := fun heq => hn (by simp [heq])
  have hnb : b ≠ n := fun heq => hn (by simp [heq])
  refine splice_update (b := b) (m := []) (k := [n]) ha hb hn h ?_
  refine .cons_cons ⟨?_, ?_⟩ (.cons_cons ⟨?_, ?_⟩ (.singleton _)) <;> simp [hna, hnb]

lemma unlink (h : Linked next prev (l1 ++ a :: n :: b :: l2)) :
    Linked (update (update next a (some b)) n none) (update (update prev b (some a)) n none) (l1 ++ a :: b :: l2) := by
  have hna : a ≠ n := fun heq => hn (by simp [heq])
  have hnb : b ≠ n := fun heq => hn (by simp [heq])
  refine splice_update (m := [n]) (k := []) ha hb hn h ?_
  exact .cons_cons ⟨by simp [hna], by simp [hnb]⟩ (.singleton _)

end

end Linked

/-! ### Lists with two ends -/

/-- Every node of the list is there, with a link to the next node and one to the previous node, if there is one. -/
def DoublyLinked (next prev : α → Option (Option α)) (l : List α) : Prop :=
  ∀ l₁ a l₂, l = l₁ ++ a :: l₂ → next a = some l₂.head? ∧ prev a = some l₁.getLast?

namespace DoublyLinked

open List

variable {next prev next' prev' : α → Option (Option α)} {l1 l2 m m' : List α} {a : α}

lemma nil : DoublyLinked next prev [] := fun l1 a l2 h => by simp at h

lemma next_eq (h : DoublyLinked next prev (l1 ++ a :: l2)) : next a = some l2.head? := (h l1 a l2 rfl).1

lemma prev_eq (h : DoublyLinked next prev (l1 ++ a :: l2)) : prev a = some l1.getLast? := (h l1 a l2 rfl).2

private lemma place_append {k1 k2 : List α} (h : l1 ++ l2 = k1 ++ a :: k2) :
    (∃ c, l1 = k1 ++ a :: c ∧ k2 = c ++ l2) ∨ ∃ c, l2 = c ++ a :: k2 ∧ k1 = l1 ++ c := by
  rcases append_eq_append_iff.1 h with ⟨c, hk, hl⟩ | ⟨c, hl, hk⟩
  · exact .inr ⟨c, hl, hk⟩
  cases c with
  | nil => exact .inr ⟨[], by simpa using hk.symm, by simpa using hl.symm⟩
  | cons b c =>
    obtain ⟨rfl, rfl⟩ := cons.inj hk
    exact .inl ⟨c, hl, rfl⟩

/-- Replace what stands between `l1` and `l2`: the last node before it and the first one after it get new links, and so do
the new nodes. -/
private lemma splice (h : DoublyLinked next prev (l1 ++ (m ++ l2)))
    (hl : ∀ a, l1.getLast? = some a → next' a = some (m' ++ l2).head?) (hn : ∀ a ∈ l1.dropLast ++ l2, next' a = next a)
    (hh : ∀ a, l2.head? = some a → prev' a = some (l1 ++ m').getLast?) (hp : ∀ a ∈ l1 ++ l2.tail, prev' a = prev a)
    (hnew : ∀ c a c', m' = c ++ a :: c' → next' a = some (c' ++ l2).head? ∧ prev' a = some (l1 ++ c).getLast?) :
    DoublyLinked next' prev' (l1 ++ (m' ++ l2)) := by
  intro k1 a k2 hk
  rcases place_append hk with ⟨c, rfl, rfl⟩ | ⟨c, hc, rfl⟩
  · have hold := h k1 a (c ++ (m ++ l2)) (by simp)
    refine ⟨?_, (hp a (by simp)).trans hold.2⟩
    cases c with
    | nil => exact hl a (by simp)
    | cons b c =>
      refine (hn a ?_).trans hold.1
      simp [dropLast_append_of_ne_nil]
  · rcases place_append hc with ⟨c', rfl, rfl⟩ | ⟨c', rfl, rfl⟩
    · exact hnew c a c' rfl
    have hold := h (l1 ++ (m ++ c')) a k2 (by simp)
    refine ⟨(hn a (by simp)).trans hold.1, ?_⟩
    cases c' with
    | nil => simpa using hh a (by simp)
    | cons b c' =>
      refine (hp a (by simp)).trans (hold.2.trans ?_)
      simp [getLast?_cons]

private lemma getLast?_ne_of_dropLast_append (h : (l1 ++ l2).Nodup) (ha : a ∈ l1.dropLast ++ l2) :
    l1.getLast? ≠ some a := by
  obtain ⟨h1, -, hd⟩ := nodup_append.1 h
  rcases mem_append.1 ha with ha | ha
  · intro hl
    obtain ⟨l, rfl⟩ := getLast?_eq_some_iff.1 hl
    rw [dropLast_concat] at ha
    exact disjoint_of_nodup_append h1 ha (mem_singleton_self a)
  · exact fun hl => hd a (mem_of_getLast? hl) a ha rfl

private lemma head?_ne_of_append_tail (h : (l1 ++ l2).Nodup) (ha : a ∈ l1 ++ l2.tail) : l2.head? ≠ some a := by
  obtain ⟨-, h2, hd⟩ := nodup_append.1 h
  rcases mem_append.1 ha with ha | ha
  · exact fun hh => hd a ha a (mem_of_head? hh) rfl
  · intro hh
    obtain ⟨l, rfl⟩ := head?_eq_some_iff.1 hh
    exact (nodup_cons.1 h2).1 ha

variable [DecidableEq α] {n : α}

lemma link (h : DoublyLinked next prev (l1 ++ l2)) (hno : (l1 ++ l2).Nodup) (hn : n ∉ l1 ++ l2)
    (hnx : ∀ a, next' a = if a = n then some l2.head? else if l1.getLast? = some a then some (some n) else next a)
    (hp : ∀ a, prev' a = if a = n then some l1.getLast? else if l2.head? = some a then some (some n) else prev a) :
    DoublyLinked next' prev' (l1 ++ n :: l2) := by
  have hne : ∀ a ∈ l1 ++ l2, a ≠ n := fun a ha heq => hn (heq ▸ ha)
  have hnew : DoublyLinked next' prev' (l1 ++ ([n] ++ l2)) := by
    refine splice (m := []) h (fun a ha => ?_) (fun a ha => ?_) (fun a ha => ?_) (fun a ha => ?_) fun c a c' hc => ?_
    · rw [hnx, if_neg (hne a (mem_append_left _ (mem_of_getLast? ha))), if_pos ha]
      rfl
    · have hmem : a ∈ l1 ++ l2 := (dropLast_sublist l1).append_right l2 |>.subset ha
      rw [hnx, if_neg (hne a hmem), if_neg (getLast?_ne_of_dropLast_append hno ha)]
    · rw [hp, if_neg (hne a (mem_append_right _ (mem_of_head? ha))), if_pos ha]
      simp
    · have hmem : a ∈ l1 ++ l2 := (tail_sublist l2).append_left l1 |>.subset ha
      rw [hp, if_neg (hne a hmem), if_neg (head?_ne_of_append_tail hno ha)]
    obtain ⟨rfl, rfl, rfl⟩ : c = [] ∧ a = n ∧ c' = [] := by
      cases c <;> simp at hc
      exact ⟨rfl, hc.1.symm, hc.2⟩
    rw [hnx, hp]
    simp
  exact hnew

lemma unlink (h : DoublyLinked next prev (l1 ++ n :: l2)) (hn : (l1 ++ l2).Nodup)
    (hne : ∀ a ∈ l1 ++ l2, next' a = if l1.getLast? = some a then some l2.head? else next a)
    (hp : ∀ a ∈ l1 ++ l2, prev' a = if l2.head? = some a then some l1.getLast? else prev a) :
    DoublyLinked next' prev' (l1 ++ l2) := by
  have hnew : DoublyLinked next' prev' (l1 ++ ([] ++ l2)) := by
    refine splice (m := [n]) h (fun a ha => ?_) (fun a ha => ?_) (fun a ha => ?_) (fun a ha => ?_)
      fun c a c' hc => by simp at hc
    · rw [hne a (mem_append_left _ (mem_of_getLast? ha)), if_pos ha]
      rfl
    · have hmem : a ∈ l1 ++ l2 := (dropLast_sublist l1).append_right l2 |>.subset ha
      rw [hne a hmem, if_neg (getLast?_ne_of_dropLast_append hn ha)]
    · rw [hp a (mem_append_right _ (mem_of_head? ha)), if_pos ha, append_nil]
    · have hmem : a ∈ l1 ++ l2 := (tail_sublist l2).append_left l1 |>.subset ha
      rw [hp a hmem, if_neg (head?_ne_of_append_tail hn ha)]
  exact hnew

end DoublyLinked

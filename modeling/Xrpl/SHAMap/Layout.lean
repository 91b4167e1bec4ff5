import Xrpl.Lib.RadixWalk
import Xrpl.SHAMap.SharedMap

/-!
# Trees laid out in the store

`Holds s P p ptr t` says that the tree `t` of the value model lies in the store `s`, from the cell `ptr` on and with
its root at the path `p`: the cells hold the items and the links of the tree, a node that is clean or whose hash is not
reset has right hashes and clean children only, and every dirty node satisfies the claim `P`, which speaks of its path, its
cell and its `cowid_`.

* `Holds.unique`: a cell holds one tree;
* `Holds.frame`: a tree stays where it is when neither a clean cell nor one of its dirty cells changes;
* `Settles`: what flushing does to a store; trees stay where they are, and their dirty nodes can only get fewer.
-/

namespace Xrpl.SHAMap

open RadixTree.Tree CellStore

/-- What is known of a dirty node at a path, in a cell, with a `cowid_`. -/
abbrev Claim := List (Fin kBranchFactor) → NodePtr → Nat → Prop

def Claim.never : Claim := fun _ _ _ => False

def Claim.any : Claim := fun _ _ _ => True

section Layout

variable [Sha512Half]

/-- What a cell with an inner node has to satisfy, its children apart. -/
structure HoldsInner (s : NodeStore) (P : Claim) (p : List (Fin kBranchFactor)) (ptr : NodePtr)
    (c : Fin kBranchFactor → SHAMapTreeNode) (w : Nat) (h : Uint256) (hashes : Fin kBranchFactor → Uint256)
    (children : Fin kBranchFactor → Option NodePtr) : Prop where
  lt : ptr < s.next
  depth : p.length < kLeafDepth
  cell : s.cell ptr = ⟨w, h, .inner hashes children⟩
  /-- The hash of the node and those it has for its children are right. -/
  fresh : h ≠ 0 ∨ w = 0 → h = updateHashDeep (inner 0 c) ∧
    ∀ i q, children i = some q → (s.cell q).cowid = 0 ∧ hashes i = updateHashDeep (c i)
  dirty : w ≠ 0 → P p ptr w

/-- The tree lies in the store from the given cell on. -/
def Holds (s : NodeStore) (P : Claim) : List (Fin kBranchFactor) → Option NodePtr → SHAMapTreeNode → Prop
  | _, none, .null => True
  | p, some ptr, .leaf l =>
    ptr < s.next ∧ l.hash = leafHash l.type l.item ∧
      ∃ w, s.cell ptr = ⟨w, l.hash, .leaf l.type l.item⟩ ∧ (w ≠ 0 → P p ptr w)
  | p, some ptr, .inner tag c =>
    tag = 0 ∧ ∃ w h hashes children, HoldsInner s P p ptr c w h hashes children ∧
      ∀ i, Holds s P (p ++ [i]) (children i) (c i)
  | _, _, _ => False

variable {s s' s'' : NodeStore} {P Q : Claim} {p p' : List (Fin kBranchFactor)} {ptr : NodePtr}
  {o : Option NodePtr} {t t' : SHAMapTreeNode}

namespace Holds

private lemma eq_none (h : Holds s P p o null) : o = none := by
  cases o with
  | none => rfl
  | some ptr => exact h.elim

lemma eq_null (h : Holds s P p none t) : t = null := by
  cases t with
  | null => rfl
  | leaf l => exact h.elim
  | inner tag c => exact h.elim

lemma exists_ptr (h : Holds s P p o t) (ht : t ≠ null) : ∃ ptr, o = some ptr := by
  cases o with
  | none => exact absurd h.eq_null ht
  | some ptr => exact ⟨ptr, rfl⟩

/-- What the cell of a tree satisfies, be it a leaf or an inner node. -/
lemma node (h : Holds s P p (some ptr) t) : ptr < s.next ∧
    ((s.cell ptr).cowid = 0 → (s.cell ptr).hash = updateHashDeep t) ∧
      ((s.cell ptr).cowid ≠ 0 → P p ptr (s.cell ptr).cowid) := by
  cases t with
  | null => exact h.elim
  | leaf l =>
    obtain ⟨hlt, hh, w, hc, hd⟩ := h
    rw [hc]
    exact ⟨hlt, fun _ => hh, hd⟩
  | inner tag c =>
    obtain ⟨rfl, w, hash, hashes, children, hin, -⟩ := h
    rw [hin.cell]
    exact ⟨hin.lt, fun hw => (hin.fresh (.inr hw)).1, hin.dirty⟩

lemma lt (h : Holds s P p (some ptr) t) : ptr < s.next := h.node.1

lemma unique (h : Holds s P p o t) (h' : Holds s Q p' o t') : t = t' := by
  induction t generalizing t' p p' o with
  | null =>
    rw [h.eq_none] at h'
    exact h'.eq_null.symm
  | leaf l =>
    obtain ⟨ptr, rfl⟩ := h.exists_ptr (by simp)
    obtain ⟨-, -, w, hc, -⟩ := h
    cases t' with
    | null => exact h'.elim
    | leaf l' =>
      obtain ⟨-, -, w', hc', -⟩ := h'
      cases l
      cases l'
      simp_all
    | inner tag c =>
      obtain ⟨-, w', hash, hashes, children, hin, -⟩ := h'
      have := hc.symm.trans hin.cell
      simp at this
  | inner tag c ih =>
    obtain ⟨ptr, rfl⟩ := h.exists_ptr (by simp)
    obtain ⟨rfl, w, hash, hashes, children, hin, hch⟩ := h
    cases t' with
    | null => exact h'.elim
    | leaf l =>
      obtain ⟨-, -, w', hc, -⟩ := h'
      have := hc.symm.trans hin.cell
      simp at this
    | inner tag' c' =>
      obtain ⟨rfl, w', hash', hashes', children', hin', hch'⟩ := h'
      have hc := hin.cell.symm.trans hin'.cell
      obtain ⟨-, -, -, rfl⟩ := hc
      congr 1
      funext i
      exact ih i (hch i) (hch' i)

lemma of_clean (h : Holds s P p (some ptr) t) (hcln : (s.cell ptr).cowid = 0) : Holds s Q p (some ptr) t := by
  induction t generalizing p ptr with
  | null => exact h.elim
  | leaf l =>
    obtain ⟨hlt, hh, w, hc, -⟩ := h
    rw [hc] at hcln
    exact ⟨hlt, hh, w, hc, fun hw => absurd hcln hw⟩
  | inner tag c ih =>
    obtain ⟨rfl, w, hash, hashes, children, hin, hch⟩ := h
    rw [hin.cell] at hcln
    refine ⟨rfl, w, hash, hashes, children, { hin with dirty := fun hw => absurd hcln hw }, fun i => ?_⟩
    rcases hi : children i with _ | q
    · have := hch i
      rw [hi] at this
      rw [this.eq_null]
      trivial
    · have hq := hch i
      rw [hi] at hq
      exact ih i hq ((hin.fresh (.inr hcln)).2 i q hi).1

/-- A tree stays where it is when neither a clean cell nor one of its dirty cells changes. -/
lemma frame (h : Holds s P p o t) (hn : s.next ≤ s'.next)
    (hcln : ∀ q, q < s.next → (s.cell q).cowid = 0 → s'.cell q = s.cell q)
    (hd : ∀ p' q, p <+: p' → q < s.next → (s.cell q).cowid ≠ 0 → P p' q (s.cell q).cowid →
      s'.cell q = s.cell q ∧ Q p' q (s.cell q).cowid) : Holds s' Q p o t := by
  have hk {p ptr t} (h : Holds s P p (some ptr) t) (hd : ∀ p' q, p <+: p' → q < s.next → (s.cell q).cowid ≠ 0 →
      P p' q (s.cell q).cowid → s'.cell q = s.cell q ∧ Q p' q (s.cell q).cowid) :
      s'.cell ptr = s.cell ptr ∧ ((s.cell ptr).cowid ≠ 0 → Q p ptr (s.cell ptr).cowid) := by
    by_cases hw : (s.cell ptr).cowid = 0
    · exact ⟨hcln ptr h.lt hw, fun hne => absurd hw hne⟩
    · obtain ⟨heq, hQ⟩ := hd p ptr (List.prefix_refl p) h.lt hw (h.node.2.2 hw)
      exact ⟨heq, fun _ => hQ⟩
  induction t generalizing p o with
  | null =>
    rw [h.eq_none]
    trivial
  | leaf l =>
    obtain ⟨ptr, rfl⟩ := h.exists_ptr (by simp)
    obtain ⟨heq, hQ⟩ := hk h hd
    obtain ⟨hlt, hh, w, hc, -⟩ := h
    rw [hc] at heq hQ
    exact ⟨lt_of_lt_of_le hlt hn, hh, w, heq, hQ⟩
  | inner tag c ih =>
    obtain ⟨ptr, rfl⟩ := h.exists_ptr (by simp)
    obtain ⟨heq, hQ⟩ := hk h hd
    obtain ⟨rfl, w, hash, hashes, children, hin, hch⟩ := h
    rw [hin.cell] at heq hQ
    refine ⟨rfl, w, hash, hashes, children,
      { lt := lt_of_lt_of_le hin.lt hn, depth := hin.depth, cell := heq,
        fresh := fun hf => ⟨(hin.fresh hf).1, fun i q hq => ?_⟩, dirty := hQ },
      fun i => ih i (hch i) fun p' q hp => hd p' q ((List.prefix_append _ _).trans hp)⟩
    have hi := hch i
    rw [hq] at hi
    have hq' := (hin.fresh hf).2 i q hq
    rwa [hcln q hi.lt hq'.1]

lemma mono (h : Holds s P p o t) (hPQ : ∀ q ptr w, ptr < s.next → P q ptr w → Q q ptr w) : Holds s Q p o t :=
  h.frame le_rfl (fun _ _ _ => rfl) fun p' q _ hq _ hP => ⟨rfl, hPQ p' q _ hq hP⟩

lemma alloc (h : Holds s P p o t) (n : StoredNode) : Holds (s.alloc n).2 P p o t :=
  h.frame (Nat.le_succ _) (fun _ hq _ => cell_alloc_of_lt hq) fun _ _ _ hq _ hP => ⟨cell_alloc_of_lt hq, hP⟩

end Holds

/-- Trees stay where they are; a node keeps its `cowid_` or becomes clean. -/
structure Settles (s s' : NodeStore) : Prop where
  next_le : s.next ≤ s'.next
  cowid : ∀ q, q < s.next → (s'.cell q).cowid = (s.cell q).cowid ∨ (s'.cell q).cowid = 0
  holds : ∀ P p o t, Holds s P p o t → Holds s' P p o t

namespace Settles

lemma refl (s : NodeStore) : Settles s s := ⟨le_refl _, fun _ _ => .inl rfl, fun _ _ _ _ h => h⟩

lemma trans (h : Settles s s') (h' : Settles s' s'') : Settles s s'' where
  next_le := le_trans h.next_le h'.next_le
  cowid q hq := by
    rcases h'.cowid q (lt_of_lt_of_le hq h.next_le) with heq | hz
    · rw [heq]
      exact h.cowid q hq
    · exact .inr hz
  holds P p o t ht := h'.holds P p o t (h.holds P p o t ht)

lemma alloc (s : NodeStore) (n : StoredNode) : Settles s (s.alloc n).2 :=
  ⟨Nat.le_succ _, fun _ hq => .inl (by rw [cell_alloc_of_lt hq]), fun _ _ _ _ h => h.alloc n⟩

/-- Writing a node settles the store if the tree that starts there stays, its subtrees staying where they are. -/
lemma write {n : StoredNode} (h0 : Holds s P p (some ptr) t) (hc : n.cowid = (s.cell ptr).cowid ∨ n.cowid = 0)
    (hn : ∀ Q p', Holds s Q p' (some ptr) t →
      (∀ tag c, t = inner tag c → ∀ i p' o, Holds s Q p' o (c i) → Holds (s.write ptr n) Q p' o (c i)) →
      Holds (s.write ptr n) Q p' (some ptr) t) : Settles s (s.write ptr n) := by
  have hcow : ∀ q, ((s.write ptr n).cell q).cowid = (s.cell q).cowid ∨ ((s.write ptr n).cell q).cowid = 0 := by
    intro q
    by_cases hq : q = ptr
    · rw [hq, cell_write]
      exact hc
    · rw [cell_write_of_ne hq]
      exact .inl rfl
  refine ⟨le_refl _, fun q _ => hcow q, ?_⟩
  intro Q p' o t'
  induction t' generalizing p' o with
  | null =>
    intro h
    rw [h.eq_none]
    trivial
  | leaf l =>
    intro h
    obtain ⟨q, rfl⟩ := h.exists_ptr (by simp)
    by_cases hq : q = ptr
    · subst hq
      obtain rfl := h.unique h0
      exact hn Q p' h fun tag c ht => by cases ht
    · obtain ⟨hlt, hh, w, hce, hd⟩ := h
      exact ⟨hlt, hh, w, (cell_write_of_ne hq).trans hce, hd⟩
  | inner tag c ih =>
    intro h
    obtain ⟨q, rfl⟩ := h.exists_ptr (by simp)
    by_cases hq : q = ptr
    · subst hq
      obtain rfl := h.unique h0
      exact hn Q p' h fun tag c ht => by cases ht; exact ih
    obtain ⟨rfl, w, hash, hashes, children, hin, hch⟩ := h
    refine ⟨rfl, w, hash, hashes, children, { hin with
        cell := (cell_write_of_ne hq).trans hin.cell
        fresh := fun hf => ⟨(hin.fresh hf).1, fun i r hr => ⟨?_, ((hin.fresh hf).2 i r hr).2⟩⟩ }, fun i => ih i _ _ (hch i)⟩
    rcases hcow r with heq | hz
    · rw [heq]
      exact ((hin.fresh hf).2 i r hr).1
    · exact hz

end Settles

end Layout

end Xrpl.SHAMap

import Xrpl.Lib.RadixWalk
import Xrpl.SHAMap.History

/-!
# What a node hash commits to

The hash of a node covers the type and the item of a leaf and the hashes of the children of an inner node (`content`).  Two trees
are `CollisionFree` when no two of their nodes share a hash without sharing that content; then equal hashes of two
subtrees mean equal items below them (`CollisionFree.stored_eq`), which is what lets the code skip such subtrees.

`stored t d` is what a tree at depth `d` stores, read off by walking towards the key.
-/

namespace Xrpl.SHAMap

open RadixTree.Tree

def stored (t : SHAMapTreeNode) (d : Nat) : Contents := fun k =>
  ((t.walk (nibble k) d).map fun l => l.item).filter fun item => item.key = k

@[simp] lemma stored_null (d : Nat) (k : Uint256) : stored null d k = none := rfl

lemma stored_leaf (l : SHAMapLeafNode) (d : Nat) (k : Uint256) :
    stored (leaf l) d k = if l.item.key = k then some l.item else none := by
  simp [stored, walk, Option.filter]

variable {t : SHAMapTreeNode} {d : Nat} {k : Uint256} {item : SHAMapItem}

lemma key_of_stored (h : stored t d k = some item) : item.key = k := by
  have := (Option.filter_eq_some_iff.1 h).2
  simpa using this

lemma mem_of_stored (h : stored t d k = some item) : ∃ l, Mem l t ∧ l.item = item := by
  obtain ⟨l, hl, rfl⟩ := Option.map_eq_some_iff.1 (Option.filter_eq_some_iff.1 h).1
  exact ⟨l, mem_of_walk hl, rfl⟩

variable {l : SHAMapLeafNode} {p : List (Fin kBranchFactor)}

lemma stored_of_walk (h : t.walk (nibble l.item.key) d = some l) : stored t d l.item.key = some l.item := by
  simp [stored, h]

abbrev CanonicalAt (p : List (Fin kBranchFactor)) (t : SHAMapTreeNode) : Prop := Canonical nibble leafKey 0 p t

lemma CanonicalAt.under_of_stored (h : CanonicalAt p t) (hk : stored t d k = some item) : Under nibble p k := by
  obtain ⟨l, hl, rfl⟩ := mem_of_stored hk
  rw [← key_of_stored hk]
  exact h.under hl

lemma Represents.stored_eq [Sha512Half] {type : SHAMapNodeType} {m : SHAMap} {f : Contents}
    (h : Represents type m f) (k : Uint256) : stored m.root 0 k = f k := by
  rcases hf : f k with _ | item
  · rcases hs : stored m.root 0 k with _ | item
    · rfl
    · obtain ⟨l, hl, rfl⟩ := mem_of_stored hs
      exact absurd (key_of_stored hs) (h.absent hf l hl)
  · have hk := h.key_eq _ _ hf
    have hw := h.canonical.walk_of_mem (h.mem_of_some hf)
    have := stored_of_walk hw
    rwa [← hk]

/-- What the hash of a node covers. -/
inductive NodeContent where
  | empty
  | leaf (type : SHAMapNodeType) (item : SHAMapItem)
  | inner (hashes : Fin kBranchFactor → Uint256)

-- the derived instance casts along an equality of functions, on which evaluation gets stuck
instance : DecidableEq NodeContent
  | .empty, .empty => isTrue rfl
  | .leaf type item, .leaf type' item' => decidable_of_iff (type = type' ∧ item = item') (by simp)
  | .inner hashes, .inner hashes' => decidable_of_iff (∀ i, hashes i = hashes' i) (by simp [funext_iff])
  | .empty, .leaf _ _ => isFalse (by simp)
  | .empty, .inner _ => isFalse (by simp)
  | .leaf _ _, .empty => isFalse (by simp)
  | .leaf _ _, .inner _ => isFalse (by simp)
  | .inner _, .empty => isFalse (by simp)
  | .inner _, .leaf _ _ => isFalse (by simp)

section Hashing

variable [Sha512Half]

/-- A node without branches and an empty branch have the hash zero in common. -/
def content : SHAMapTreeNode → NodeContent
  | .null => .empty
  | .leaf l => .leaf l.type l.item
  | .inner _ c =>
    if (List.finRange kBranchFactor).all fun i => (c i).isNull then .empty else .inner fun i => updateHashDeep (c i)

/-- No node of `t` has the hash of a node of `u` with another content. -/
def CollisionFree (t u : SHAMapTreeNode) : Prop :=
  ∀ a ∈ t.subtrees, ∀ b ∈ u.subtrees, updateHashDeep a = updateHashDeep b → content a = content b

instance (t u : SHAMapTreeNode) : Decidable (CollisionFree t u) :=
  inferInstanceAs (Decidable (∀ a ∈ t.subtrees, ∀ b ∈ u.subtrees, _ → _))

lemma IsCanonical.getHash_eq {m : SHAMap} (hm : IsCanonical m.root) : getHash m = updateHashDeep m.root := by
  obtain ⟨c, hr, -⟩ := hm
  rw [getHash, hr]
  rfl

lemma content_inner_cases (tag : Uint256) (c : Fin kBranchFactor → SHAMapTreeNode) :
    ((∀ i, c i = null) ∧ content (inner tag c) = .empty) ∨
      content (inner tag c) = .inner fun i => updateHashDeep (c i) := by
  by_cases h : (List.finRange kBranchFactor).all (fun i => (c i).isNull) = true
  · refine .inl ⟨fun i => isNull_iff.1 ?_, if_pos h⟩
    exact List.all_eq_true.1 h i (List.mem_finRange i)
  · exact .inr (if_neg h)

private lemma stored_of_content_empty (h : content t = .empty) (d : Nat) (k : Uint256) : stored t d k = none := by
  cases t with
  | null => rfl
  | leaf l => cases h
  | inner tag c =>
    rcases content_inner_cases tag c with ⟨hn, -⟩ | hi
    · change stored (c _) _ _ = _
      rw [hn, stored_null]
    · rw [hi] at h
      cases h

lemma eq_leaf_of_content {type : SHAMapNodeType}
    (h : content t = .leaf type item) : ∃ l, t = leaf l ∧ l.type = type ∧ l.item = item := by
  cases t with
  | null => cases h
  | leaf l =>
    injection h with ht hi
    exact ⟨l, rfl, ht, hi⟩
  | inner tag c =>
    rcases content_inner_cases tag c with ⟨-, he⟩ | hinn
    · rw [he] at h
      cases h
    · rw [hinn] at h
      cases h

lemma eq_inner_of_content {hashes : Fin kBranchFactor → Uint256}
    (h : content t = .inner hashes) : ∃ tag c, t = inner tag c ∧ ∀ i, updateHashDeep (c i) = hashes i := by
  cases t with
  | null => cases h
  | leaf l => cases h
  | inner tag c =>
    rcases content_inner_cases tag c with ⟨-, he⟩ | hi
    · rw [he] at h
      cases h
    · rw [hi] at h
      injection h with h
      exact ⟨tag, c, rfl, congrFun h⟩

namespace CollisionFree

variable {u : SHAMapTreeNode}

lemma child {tag tag' : Uint256} {c c' : Fin kBranchFactor → SHAMapTreeNode}
    (h : CollisionFree (inner tag c) (inner tag' c')) (i : Fin kBranchFactor) : CollisionFree (c i) (c' i) :=
  fun a ha b hb => h a (subtrees_child ha) b (subtrees_child hb)

variable (h : CollisionFree t u) (hh : updateHashDeep t = updateHashDeep u)

include h hh

private lemma content_eq : content t = content u := h t (self_mem_subtrees t) u (self_mem_subtrees u) hh

lemma stored_eq (d : Nat) (k : Uint256) : stored t d k = stored u d k := by
  induction t generalizing u d with
  | null => rw [stored_null, stored_of_content_empty (h.content_eq hh).symm]
  | leaf l =>
    obtain ⟨l', rfl, -, hi⟩ := eq_leaf_of_content (h.content_eq hh).symm
    rw [stored_leaf, stored_leaf, hi]
  | inner tag c ih =>
    rcases content_inner_cases tag c with ⟨-, he⟩ | hinn
    · rw [stored_of_content_empty he, stored_of_content_empty ((h.content_eq hh).symm.trans he)]
    · obtain ⟨tag', c', rfl, hch⟩ := eq_inner_of_content ((h.content_eq hh).symm.trans hinn)
      exact ih _ (h.child _) (hch _).symm (d + 1)

end CollisionFree

end Hashing

end Xrpl.SHAMap

import Xrpl.SHAMap.Flush

/-!
# Changing a tree on the way up

The nodes of a map that is being modified are clean, and then shared with whoever, or they belong to that map alone.
Ownership is bookkeeping of the proof: `own` gives for every cell the map and the path it was made for, and `Mine`
asks of a dirty node that it is the map's own one at its path.  Two places of a tree, and two maps, therefore never
have a dirty cell in common.

* `Grows`: what a change made to the map `i` does to the store; no clean cell and no cell of another map is touched,
  and within the map only cells at paths in `R`;
* `Frame`, `Stacked`: the nodes on the stack, with everything beside the path that was walked in place;
* `dirtyUp_spec`: hanging a changed child in, all the way up to the root.
-/

namespace Xrpl.SHAMap

open RadixTree RadixTree.Tree Function CellStore SHAMapNodeID

/-- The map and the path a cell was made for. -/
abbrev Owners := NodePtr → Nat × List (Fin kBranchFactor)

/-- A dirty node belongs to the map `i`, at its path. -/
def Mine (own : Owners) (i w : Nat) : Claim := fun p ptr w' => own ptr = (i, p) ∧ w' = w

/-- A cell that the map `i` may change in place, at a path in `R`. -/
def InPlace (own : Owners) (i : Nat) (R : List (Fin kBranchFactor) → Prop) (s : NodeStore) (q : NodePtr) : Prop :=
  (s.cell q).cowid ≠ 0 ∧ (own q).1 = i ∧ R (own q).2

/-- Only own cells at paths in `R` were changed; the cells that were allocated have owners. -/
structure Grows (i : Nat) (R : List (Fin kBranchFactor) → Prop) (own own' : Owners) (s s' : NodeStore) : Prop where
  within : CellStore.Within (InPlace own i R s) s s'
  own_eq : ∀ q, q < s.next → own' q = own q

namespace Grows

variable {i : Nat} {R R' : List (Fin kBranchFactor) → Prop} {own own' own'' : Owners} {s s' s'' : NodeStore}

lemma refl (i : Nat) (R : List (Fin kBranchFactor) → Prop) (own : Owners) (s : NodeStore) : Grows i R own own s s :=
  ⟨CellStore.Within.refl _ s, fun _ _ => rfl⟩

lemma mono (h : Grows i R own own' s s') (hR : ∀ p, R p → R' p) : Grows i R' own own' s s' :=
  ⟨h.within.mono fun _ _ hq => ⟨hq.1, hq.2.1, hR _ hq.2.2⟩, h.own_eq⟩

lemma trans (h : Grows i R own own' s s') (h' : Grows i R own' own'' s' s'') : Grows i R own own'' s s'' where
  within := by
    refine h.within.trans (h'.within.mono fun q _ hq => hq) fun q hq hin => ?_
    by_contra ho
    -- a cell that the first change left alone is judged in the same way by the second one
    rw [InPlace, h.within.cell_eq q hq ho, h.own_eq q hq] at hin
    exact ho hin
  own_eq q hq := by rw [h'.own_eq q (lt_of_lt_of_le hq h.within.next_le), h.own_eq q hq]

lemma alloc (R : List (Fin kBranchFactor) → Prop) (own : Owners) (s : NodeStore) (n : StoredNode)
    (p : List (Fin kBranchFactor)) : Grows i R own (update own s.next (i, p)) s (s.alloc n).2 :=
  ⟨within_alloc _ s n, fun _ hq => update_of_ne (ne_of_lt hq) _ _⟩

lemma write {ptr : NodePtr} {p : List (Fin kBranchFactor)} (n : StoredNode) (ho : own ptr = (i, p))
    (hd : (s.cell ptr).cowid ≠ 0) (hR : R p) : Grows i R own own s (s.write ptr n) :=
  ⟨within_write s n ⟨hd, by rw [ho], by rwa [ho]⟩, fun _ _ => rfl⟩

end Grows

lemma branch_unique {p p' : List (Fin kBranchFactor)} {j b : Fin kBranchFactor} (hj : p ++ [j] <+: p')
    (hb : p ++ [b] <+: p') : j = b := by
  have hp := List.prefix_of_prefix_length_le hj hb (by simp)
  have heq := hp.eq_of_length (by simp)
  simpa using heq

section Unsharing

variable {s : NodeStore} {own own' : Owners} {i : Nat} {p : List (Fin kBranchFactor)} {ptr : NodePtr} {m : SharedMap}

/-- The result of `unshareNode`: the node, now the map's own one, in a store that has at most grown. -/
structure UnsharedNode (own : Owners) (i : Nat) (s : NodeStore) (m : SharedMap) (p : List (Fin kBranchFactor))
    (ptr : NodePtr) (own' : Owners) (r : NodePtr × NodeStore × SharedMap) : Prop where
  grows : Grows i (fun _ => False) own own' s r.2.1
  map : r.2.2 = { m with root := r.2.2.root }
  root : p = [] → m.root = ptr → r.2.2.root = r.1
  below : p ≠ [] → r.2.2 = m
  cowid : (r.2.1.cell r.1).cowid = m.cowid

lemma UnsharedNode.cowid_eq {r : NodePtr × NodeStore × SharedMap} (h : UnsharedNode own i s m p ptr own' r) :
    r.2.2.cowid = m.cowid := by
  rw [h.map]

lemma isRoot_iff : isRoot ⟨p⟩ = true ↔ p = [] := by
  simp [isRoot, getDepth]

lemma unshareNode_clone (own : Owners) (i : Nat) (p : List (Fin kBranchFactor)) (hc : (s.cell ptr).cowid ≠ m.cowid) :
    (Shared.unshareNode s m ptr ⟨p⟩).1 = s.next ∧
      (Shared.unshareNode s m ptr ⟨p⟩).2.1 = (s.alloc ((s.cell ptr).clone m.cowid)).2 ∧
      UnsharedNode own i s m p ptr (update own s.next (i, p)) (Shared.unshareNode s m ptr ⟨p⟩) := by
  simp only [Shared.unshareNode]
  rw [if_pos hc]
  refine ⟨rfl, rfl, Grows.alloc _ own s _ p, ?_, ?_, ?_, ?_⟩
  · split <;> rfl
  · intro hp _
    rw [if_pos (isRoot_iff.2 hp)]
  · intro hp
    rw [if_neg (fun h => hp (isRoot_iff.1 h))]
  · rw [alloc_fst, cell_alloc_next]
    rfl

lemma unshareNode_own (own : Owners) (i : Nat) (p : List (Fin kBranchFactor)) (hc : (s.cell ptr).cowid = m.cowid) :
    Shared.unshareNode s m ptr ⟨p⟩ = (ptr, s, m) ∧
      UnsharedNode own i s m p ptr own (Shared.unshareNode s m ptr ⟨p⟩) := by
  have heq : Shared.unshareNode s m ptr ⟨p⟩ = (ptr, s, m) := by
    simp only [Shared.unshareNode, ne_eq, hc, not_true_eq_false, ↓reduceIte]
  rw [heq]
  exact ⟨rfl, Grows.refl _ _ _ _, rfl, fun _ h => h, fun _ => rfl, hc⟩

end Unsharing

section CopyOnWrite

variable [Sha512Half] {s s' : NodeStore} {own own' : Owners} {i w : Nat} {R : List (Fin kBranchFactor) → Prop}
  {p : List (Fin kBranchFactor)} {ptr q root : NodePtr} {o : Option NodePtr} {t : SHAMapTreeNode}
  {c : Fin kBranchFactor → SHAMapTreeNode} {b : Fin kBranchFactor} {k : Uint256} {m : SharedMap}

/-- A tree of the map is not touched by changes at paths that do not lie below its root. -/
lemma Holds.grow (h : Holds s (Mine own i w) p o t) (hg : Grows i R own own' s s')
    (hR : ∀ p', p <+: p' → ¬ R p') : Holds s' (Mine own' i w) p o t := by
  refine h.frame hg.within.next_le ?_ ?_
  · intro q hq hc
    exact hg.within.cell_eq q hq fun hin => hin.1 hc
  intro p' q hp' hq _ hm
  have ho : own' q = (i, p') := (hg.own_eq q hq).trans hm.1
  refine ⟨hg.within.cell_eq q hq fun hin => hR p' hp' ?_, ho, hm.2⟩
  have := hin.2.2
  rwa [hm.1] at this

lemma holds_alloc_leaf (own : Owners) (i w : Nat) (s : NodeStore) (p : List (Fin kBranchFactor))
    (type : SHAMapNodeType) (item : SHAMapItem) :
    Holds (s.alloc ⟨w, leafHash type item, .leaf type item⟩).2 (Mine (update own s.next (i, p)) i w) p
      (some s.next) (leaf (typedLeaf type item)) :=
  ⟨Nat.lt_succ_self _, rfl, w, cell_alloc_next, fun _ => ⟨update_self .., rfl⟩⟩

/-- An inner node of the map, in which everything but the branch `b` is in place. -/
structure Frame (P : Claim) (s : NodeStore) (p : List (Fin kBranchFactor)) (ptr : NodePtr)
    (c : Fin kBranchFactor → SHAMapTreeNode) (b : Fin kBranchFactor) : Prop where
  lt : ptr < s.next
  depth : p.length < kLeafDepth
  node : ∃ w' hash hashes children, s.cell ptr = ⟨w', hash, .inner hashes children⟩ ∧
    (w' ≠ 0 → P p ptr w') ∧ ∀ j, j ≠ b → Holds s P (p ++ [j]) (children j) (c j)

variable {P : Claim} {own1 : Owners}

lemma Holds.toFrame (h : Holds s P p (some ptr) (inner 0 c)) (b : Fin kBranchFactor) :
    Frame P s p ptr c b := by
  obtain ⟨-, w', hash, hashes, children, hin, hch⟩ := h
  exact ⟨hin.lt, hin.depth, w', hash, hashes, children, hin.cell, hin.dirty, fun j _ => hch j⟩

lemma Frame.grow (h : Frame (Mine own i w) s p ptr c b) (hg : Grows i R own own' s s')
    (hR : ∀ p', R p' → p ++ [b] <+: p') : Frame (Mine own' i w) s' p ptr c b := by
  obtain ⟨hlt, hd, w', hash, hashes, children, hc, hdir, hch⟩ := h
  refine ⟨lt_of_lt_of_le hlt hg.within.next_le, hd, w', hash, hashes, children, ?_, ?_, ?_⟩
  · rw [hg.within.cell_eq ptr hlt ?_, hc]
    intro hin
    have hw : w' ≠ 0 := by
      have := hin.1
      rwa [hc] at this
    have hp := hR p (by have := hin.2.2; rwa [(hdir hw).1] at this)
    have hlen := hp.length_le
    simp at hlen
  · exact fun hw => ⟨(hg.own_eq ptr hlt).trans (hdir hw).1, (hdir hw).2⟩
  · intro j hj
    exact (hch j hj).grow hg fun p' hp' hRp => hj (branch_unique hp' (hR p' hRp))

lemma Frame.setChild (h : Frame (Mine own i w) s p ptr c b) (hw : w ≠ 0) (hcow : (s.cell ptr).cowid = w)
    (ht : Holds s (Mine own i w) (p ++ [b]) o t) :
    Grows i (· = p) own own s (s.write ptr ((s.cell ptr).setChild b o)) ∧
      Holds (s.write ptr ((s.cell ptr).setChild b o)) (Mine own i w) p (some ptr) (inner 0 (update c b t)) ∧
      ((s.write ptr ((s.cell ptr).setChild b o)).cell ptr).cowid = w := by
  obtain ⟨hlt, hd, w', hash, hashes, children, hc, hdir, hch⟩ := h
  obtain rfl : w' = w := by rwa [hc] at hcow
  have ho := (hdir hw).1
  have hn : (s.cell ptr).setChild b o = ⟨w', 0, .inner (update hashes b 0) (update children b o)⟩ := by
    rw [hc]
    rfl
  have hg : Grows i (· = p) own own s (s.write ptr ((s.cell ptr).setChild b o)) :=
    Grows.write _ ho (by rw [hcow]; exact hw) rfl
  have hb : ∀ j p', p ++ [j] <+: p' → ¬ p' = p := by
    intro j p' hp' hp
    have := hp'.length_le
    rw [hp] at this
    simp at this
  have hin : HoldsInner (s.write ptr ((s.cell ptr).setChild b o)) (Mine own i w') p ptr (update c b t) w' 0
      (update hashes b 0) (update children b o) :=
    ⟨hlt, hd, cell_write.trans hn, fun h => absurd rfl (h.resolve_right hw), fun _ => ⟨ho, rfl⟩⟩
  refine ⟨hg, ⟨rfl, w', 0, _, _, hin, fun j => ?_⟩, ?_⟩
  · by_cases hj : j = b
    · subst hj
      rw [update_self, update_self]
      exact ht.grow hg (hb j)
    · rw [update_of_ne hj, update_of_ne hj]
      exact (hch j hj).grow hg (hb j)
  · rw [cell_write, hn]

lemma Frame.unshareNode (h : Frame (Mine own i m.cowid) s p ptr c b) :
    ∃ own', UnsharedNode own i s m p ptr own' (Shared.unshareNode s m ptr ⟨p⟩) ∧
      Frame (Mine own' i m.cowid) (Shared.unshareNode s m ptr ⟨p⟩).2.1 p (Shared.unshareNode s m ptr ⟨p⟩).1 c b := by
  by_cases hcow : (s.cell ptr).cowid = m.cowid
  · obtain ⟨heq, hun⟩ := unshareNode_own own i p hcow
    refine ⟨own, hun, ?_⟩
    rw [heq]
    exact h
  · obtain ⟨hp, hs, hun⟩ := unshareNode_clone own i p hcow
    refine ⟨_, hun, ?_⟩
    have hg := hun.grows
    rw [hs] at hg
    rw [hp, hs]
    obtain ⟨hlt, hd, w', hash, hashes, children, hc, -, hch⟩ := h
    refine ⟨Nat.lt_succ_self _, hd, m.cowid, hash, hashes, children, ?_,
      fun _ => ⟨update_self .., rfl⟩, fun j hj => (hch j hj).grow hg fun _ _ hF => hF⟩
    rw [cell_alloc_next, hc]
    rfl

lemma Holds.unshareNode (h : Holds s (Mine own i m.cowid) p (some ptr) t) (hw : m.cowid ≠ 0) :
    ∃ own', UnsharedNode own i s m p ptr own' (Shared.unshareNode s m ptr ⟨p⟩) ∧
      Holds (Shared.unshareNode s m ptr ⟨p⟩).2.1 (Mine own' i m.cowid) p
        (some (Shared.unshareNode s m ptr ⟨p⟩).1) t := by
  by_cases hc : (s.cell ptr).cowid = m.cowid
  · obtain ⟨heq, hun⟩ := unshareNode_own own i p hc
    refine ⟨own, hun, ?_⟩
    rw [heq]
    exact h
  · obtain ⟨hp, hs, hun⟩ := unshareNode_clone own i p hc
    refine ⟨_, hun, ?_⟩
    rw [hp, hs]
    refine Holds.clone (h.mono fun p' q w' hq hm => ?_) hw ⟨update_self .., rfl⟩
    exact ⟨(hun.grows.own_eq q hq).trans hm.1, hm.2⟩

/-- The nodes on the stack, in the store and in the value model, with the path that the next node down has. -/
def Stacked (P : Claim) (s : NodeStore) (root : NodePtr) (k : Uint256) :
    List (Fin kBranchFactor) → PtrStack → NodeStack → Prop
  | p, [], [] => p = []
  | p, (ptr, id) :: ps, (node, id') :: vs => ∃ p₀ c, p = p₀ ++ [nibble k p₀.length] ∧ id = ⟨p₀⟩ ∧ id' = ⟨p₀⟩ ∧
      node = inner 0 c ∧ (p₀ = [] → root = ptr) ∧ Frame P s p₀ ptr c (nibble k p₀.length) ∧
      Stacked P s root k p₀ ps vs
  | _, _, _ => False

variable {ps : PtrStack} {vs : NodeStack}

lemma Stacked.nil_iff (h : Stacked P s root k p ps vs) : p = [] ↔ ps = [] ∧ vs = [] := by
  match ps, vs, h with
  | [], [], h => exact ⟨fun _ => ⟨rfl, rfl⟩, fun _ => h⟩
  | (ptr, id) :: ps, (node, id') :: vs, h =>
    obtain ⟨p0, c, rfl, -⟩ := h
    simp

lemma Stacked.length_le (h : Stacked P s root k p ps vs) : p.length ≤ kLeafDepth := by
  match ps, vs, h with
  | [], [], h =>
    obtain rfl : p = [] := h
    exact Nat.zero_le _
  | (ptr, id) :: ps, (node, id') :: vs, h =>
    obtain ⟨p0, c, rfl, -, -, -, -, hf, -⟩ := h
    rw [List.length_append]
    exact hf.depth

lemma Stacked.grow (h : Stacked (Mine own i w) s root k p ps vs) (hg : Grows i R own own' s s')
    (hR : ∀ p', R p' → p <+: p') : Stacked (Mine own' i w) s' root k p ps vs := by
  induction ps generalizing p vs with
  | nil =>
    cases vs with
    | nil => exact h
    | cons v vs => exact h.elim
  | cons e ps ih =>
    cases vs with
    | nil => exact h.elim
    | cons v vs =>
      obtain ⟨p0, c, rfl, hid, hid', hn, hr, hf, hre⟩ := h
      exact ⟨p0, c, rfl, hid, hid', hn, hr, hf.grow hg hR,
        ih hre fun p' hp' => (List.prefix_append _ _).trans (hR p' hp')⟩

/-- A change of the map `i` has been made: only own cells were changed, and the map now has the tree `t`. -/
structure Changed (own : Owners) (i : Nat) (s : NodeStore) (m : SharedMap) (t : SHAMapTreeNode) (own' : Owners)
    (r : NodeStore × SharedMap) : Prop where
  grows : Grows i (fun _ => True) own own' s r.1
  map : r.2 = { m with root := r.2.root }
  holds : Holds r.1 (Mine own' i m.cowid) [] (some r.2.root) t

variable {r : NodeStore × SharedMap}

lemma Changed.state_eq (h : Changed own i s m t own' r) : r.2.state = m.state := by
  rw [h.map]

lemma Changed.after {m' : SharedMap} {s1 : NodeStore}
    (h : Changed own1 i s1 m' t own' r) (hg : Grows i (fun _ => True) own own1 s s1)
    (hm : m' = { m with root := m'.root }) : Changed own i s m t own' r where
  grows := hg.trans h.grows
  map := by
    rw [h.map, hm]
  holds := by
    have hc : m'.cowid = m.cowid := by rw [hm]
    rw [← hc]
    exact h.holds

/-- The node on top of the stack is made the map's own, and a new child is hung into it. -/
lemma Frame.hang (h : Frame (Mine own i m.cowid) s p ptr c b) (hw : m.cowid ≠ 0)
    (ht : Holds s (Mine own i m.cowid) (p ++ [b]) o t) :
    ∃ own', UnsharedNode own i s m p ptr own' (Shared.unshareNode s m ptr ⟨p⟩) ∧
      let r := Shared.unshareNode s m ptr ⟨p⟩
      let s' := r.2.1.write r.1 ((r.2.1.cell r.1).setChild b o)
      Grows i (· = p) own own' s s' ∧ (s'.cell r.1).cowid = m.cowid ∧
        Holds s' (Mine own' i m.cowid) p (some r.1) (inner 0 (update c b t)) := by
  obtain ⟨own', hun, hf⟩ := h.unshareNode
  obtain ⟨hg, hh, hc⟩ := hf.setChild hw hun.cowid (ht.grow hun.grows fun _ _ hF => hF)
  exact ⟨own', hun, (hun.grows.mono fun _ hF => hF.elim).trans hg, hc, hh⟩

lemma Stacked.rest {r : NodePtr × NodeStore × SharedMap}
    (h : Stacked (Mine own i m.cowid) s m.root k p ps vs) (hun : UnsharedNode own i s m p ptr own1 r)
    (hg : Grows i (· = p) own own' s s') : Stacked (Mine own' i r.2.2.cowid) s' r.2.2.root k p ps vs := by
  rw [hun.cowid_eq]
  have hgr := h.grow hg fun p' hp' => hp' ▸ List.prefix_refl p'
  by_cases hp : p = []
  · obtain ⟨rfl, rfl⟩ := hgr.nil_iff.1 hp
    exact hgr
  · rwa [hun.below hp]

lemma dirtyUp_spec (hw : m.cowid ≠ 0) (hst : Stacked (Mine own i m.cowid) s m.root k p ps vs)
    (hr : p = [] → m.root = q) (hq : Holds s (Mine own i m.cowid) p (some q) t) :
    ∃ own', Changed own i s m (dirtyUp k vs t) own' (Shared.dirtyUp k s m ps q) := by
  induction ps generalizing p vs s own m q t with
  | nil =>
    cases vs with
    | nil =>
      obtain rfl : p = [] := hst
      refine ⟨own, Grows.refl _ _ _ _, rfl, ?_⟩
      show Holds s _ [] (some m.root) t
      rwa [hr rfl]
    | cons v vs => exact hst.elim
  | cons e ps ih =>
    cases vs with
    | nil => exact hst.elim
    | cons v vs =>
      obtain ⟨ptr, id⟩ := e
      obtain ⟨node, id'⟩ := v
      obtain ⟨p0, c, rfl, rfl, rfl, rfl, hptr, hf, hre⟩ := hst
      obtain ⟨own1, hun, hg, -, hh⟩ := hf.hang hw hq
      have hc := hun.cowid_eq
      rw [← hc] at hh
      obtain ⟨own2, hchg⟩ := ih (by rw [hc]; exact hw) (hre.rest hun hg) (fun hp => hun.root hp (hptr hp)) hh
      refine ⟨own2, ?_⟩
      rw [dirtyUp, Shared.dirtyUp]
      simp only [selectBranch_eq_nibble]
      exact hchg.after (hg.mono fun _ _ => trivial) hun.map

/-- Where a walk towards a key ends: at a leaf, or at an inner node that has nothing in the branch. -/
def IsEnd (k : Uint256) (p : List (Fin kBranchFactor)) (t : SHAMapTreeNode) : Prop :=
  (∃ l, t = leaf l) ∨ ∃ c, t = inner 0 c ∧ c (nibble k p.length) = null

def endLeaf : SHAMapTreeNode → Option SHAMapLeafNode
  | .leaf l => some l
  | _ => none

lemma walkTowardsKey_spec {levels : Nat} (h : Holds s P p (some ptr) t)
    (hst : Stacked P s root k p ps vs) (hro : p = [] → root = ptr)
    (hlv : p.length + levels = kLeafDepth) :
    ∃ p' ptr' t' ps' vs', Shared.walkTowardsKey s k levels ptr ⟨p⟩ ps = .ok ((ptr', ⟨p'⟩) :: ps') ∧
      walkTowardsKey k t ⟨p⟩ vs = .ok (endLeaf t', (t', ⟨p'⟩) :: vs') ∧ Stacked P s root k p' ps' vs' ∧
      Holds s P p' (some ptr') t' ∧ (p' = [] → root = ptr') ∧ IsEnd k p' t' ∧
      p.length ≤ p'.length ∧ (p'.length = p.length → t' = t) ∧ ∀ l, t' = leaf l → Mem l t := by
  induction t generalizing p ptr ps vs levels with
  | null => exact h.elim
  | leaf l =>
    refine ⟨p, ptr, leaf l, ps, vs, ?_, rfl, hst, h, hro, .inl ⟨l, rfl⟩, le_refl _,
      fun _ => rfl, fun l' hl' => (Tree.leaf.inj hl').symm⟩
    obtain ⟨-, -, w', hc, -⟩ := h
    unfold Shared.walkTowardsKey
    rw [hc]
    rfl
  | inner tag c ih =>
    have hh := h
    obtain ⟨rfl, w', hash, hashes, children, hin, hch⟩ := h
    have hci := hch (nibble k p.length)
    have hg : (s.cell ptr).getChild (nibble k p.length) = children (nibble k p.length) := by
      rw [hin.cell]
      rfl
    have hd := hin.depth
    obtain ⟨levels, rfl⟩ : ∃ n, levels = n + 1 := ⟨levels - 1, by omega⟩
    unfold Shared.walkTowardsKey walkTowardsKey
    simp only [selectBranch_eq_nibble, getDepth, hg, hh.isInner_eq_true, hci.isNull_eq]
    rcases hb : children (nibble k p.length) with _ | q
    · rw [hb] at hci
      exact ⟨p, ptr, inner 0 c, ps, vs, rfl, rfl, hst, hh, hro,
        .inr ⟨c, rfl, hci.eq_null⟩, le_refl _, fun _ => rfl, fun l hl => by cases hl⟩
    rw [hb] at hci
    have hst' : Stacked P s root k (p ++ [nibble k p.length]) ((ptr, ⟨p⟩) :: ps) ((inner 0 c, ⟨p⟩) :: vs) :=
      ⟨p, c, rfl, rfl, rfl, rfl, hro, hh.toFrame _, hst⟩
    have hlen : (p ++ [nibble k p.length]).length = p.length + 1 := by simp
    have hlv' : (p ++ [nibble k p.length]).length + levels = kLeafDepth := by omega
    obtain ⟨p', ptr', t', ps', vs', hw1, hw2, hst'', hhol, hr, he, hle, -, hmem⟩ :=
      ih (nibble k p.length) hci hst' (by simp) hlv'
    have hid : getChildNodeID ⟨p⟩ (nibble k p.length) = .ok ⟨p ++ [nibble k p.length]⟩ := getChildNodeID_of_lt hd _
    refine ⟨p', ptr', t', ps', vs', ?_, ?_, hst'', hhol, hr, he, by omega, fun _ => by omega,
      fun l hl => ⟨_, hmem l hl⟩⟩
    · rw [hid]
      exact hw1
    · rw [hid]
      exact hw2

end CopyOnWrite

end Xrpl.SHAMap

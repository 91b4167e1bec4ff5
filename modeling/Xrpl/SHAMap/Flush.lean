import Xrpl.Lib.Yields
import Xrpl.SHAMap.Layout

/-!
# Flushing a map

`walkSubTree` brings the hashes of the dirty nodes of a map up to date and marks them clean, the children before
their parent; a node of another owner is cloned first.  Whatever it changes in place stays a node of the same tree:
the store `Settles`, and the tree of the map that is flushed is clean afterwards (`walkSubTree_spec`).

The induction is over the tree.  While the branches of a node are worked off, the node itself must not be changed by
the flushing of a child; it is not, because that only reaches nodes with smaller trees.
-/

namespace Xrpl.SHAMap

open RadixTree.Tree Function CellStore Claim Shared

section Flush

variable [Sha512Half] {s s' : NodeStore} {P Q : Claim} {p p' : List (Fin kBranchFactor)} {ptr q : NodePtr}
  {o : Option NodePtr} {t t' : SHAMapTreeNode} {c : Fin kBranchFactor → SHAMapTreeNode} {w : Nat}

lemma Holds.isNull_eq (h : Holds s P p o t) : t.isNull = o.isNone := by
  cases o with
  | none =>
    rw [h.eq_null]
    rfl
  | some ptr =>
    cases t with
    | null => exact h.elim
    | leaf l => rfl
    | inner tag c => rfl

lemma Holds.hash_of_clean (h : Holds s P p (some ptr) t) (hc : (s.cell ptr).cowid = 0) :
    (s.cell ptr).hash = updateHashDeep t := h.node.2.1 hc

lemma Holds.clean (h : Holds s never p (some ptr) t) : (s.cell ptr).cowid = 0 := by
  by_contra hne
  exact h.node.2.2 hne

lemma Holds.isInner_eq_true (h : Holds s P p (some ptr) (inner 0 c)) : (s.cell ptr).isInner = true := by
  obtain ⟨-, w, hash, hashes, children, hin, -⟩ := h
  rw [hin.cell]
  rfl

private lemma Holds.null_of_branches (h : Holds s P p (some ptr) (inner 0 c)) (he : (s.cell ptr).branches = []) :
    ∀ i, c i = null := by
  intro i
  obtain ⟨-, w, hash, hashes, children, hin, hch⟩ := h
  have hi := List.filter_eq_nil_iff.1 he i (List.mem_finRange i)
  rw [hin.cell] at hi
  have hn : children i = none := by simpa [StoredNode.getChild] using hi
  have := hch i
  rw [hn] at this
  exact this.eq_null

section

variable (h : Holds s P p (some ptr) t)

include h

private lemma Holds.eq_leaf (hl : (s.cell ptr).isInner = false) : ∃ l, t = leaf l := by
  cases t with
  | null => exact h.elim
  | leaf l => exact ⟨l, rfl⟩
  | inner tag c =>
    obtain ⟨-, w, hash, hashes, children, hin, -⟩ := h
    rw [hin.cell] at hl
    cases hl

private lemma Holds.eq_inner (hi : (s.cell ptr).isInner = true) : ∃ c, t = inner 0 c := by
  cases t with
  | null => exact h.elim
  | leaf l =>
    obtain ⟨-, -, w, hc, -⟩ := h
    rw [hc] at hi
    cases hi
  | inner tag c =>
    obtain ⟨rfl, -⟩ := h
    exact ⟨c, rfl⟩

lemma Holds.clone (hw : w ≠ 0) (hP : P p s.next w) :
    Holds (s.alloc ((s.cell ptr).clone w)).2 P p (some s.next) t := by
  have hlt : s.next < (s.alloc ((s.cell ptr).clone w)).2.next := Nat.lt_succ_self _
  cases t with
  | null => exact h.elim
  | leaf l =>
    obtain ⟨-, hh, w', hc, -⟩ := h
    refine ⟨hlt, hh, w, ?_, fun _ => hP⟩
    rw [cell_alloc_next, hc]
    rfl
  | inner tag c =>
    obtain ⟨rfl, w', hash, hashes, children, hin, hch⟩ := h
    refine ⟨rfl, w, hash, hashes, children,
      { lt := hlt, depth := hin.depth, cell := ?_, fresh := fun hf => ?_,
        dirty := fun _ => hP }, fun i => (hch i).alloc _⟩
    · rw [cell_alloc_next, hin.cell]
      rfl
    · obtain ⟨heq, hq⟩ := hin.fresh (.inl (hf.resolve_right hw))
      refine ⟨heq, fun i q hi => ?_⟩
      have hlt := hch i
      rw [hi] at hlt
      rw [cell_alloc_of_lt hlt.lt]
      exact hq i q hi

end

private lemma updateHashDeep_cell (w : Nat) (hash : Uint256) (hashes : Fin kBranchFactor → Uint256)
    {children : Fin kBranchFactor → Option NodePtr} (h : ∀ i, Holds s never (p ++ [i]) (children i) (c i)) :
    ∃ hashes', (StoredNode.mk w hash (.inner hashes children)).updateHashDeep s =
        ⟨w, updateHashDeep (inner 0 c), .inner hashes' children⟩ ∧
      ∀ i q, children i = some q → hashes' i = updateHashDeep (c i) := by
  have hn : (fun i => (children i).isNone) = fun i => (c i).isNull := by
    funext i
    rw [(h i).isNull_eq]
  have hb : ∀ i, (if (children i).isSome then StoredNode.childHash s (hashes i) (children i) else 0) =
      updateHashDeep (c i) := by
    intro i
    have hi := h i
    rcases hci : children i with _ | q
    · rw [hci] at hi
      rw [hi.eq_null]
      rfl
    · rw [hci] at hi
      exact hi.hash_of_clean hi.clean
  refine ⟨fun i => StoredNode.childHash s (hashes i) (children i), ?_, fun i q hq => by simpa [hq] using hb i⟩
  simp only [StoredNode.updateHashDeep, StoredNode.updateHash, hb, hn, updateHashDeep]

/-! ### The steps of the loop -/

variable {n : StoredNode} {k : Nat} {pos : Fin kBranchFactor}

/-- The store settles, and a node whose tree has more than `k` nodes is not touched. -/
structure Flushes (k : Nat) (s s' : NodeStore) : Prop where
  settles : Settles s s'
  larger : ∀ P p q t, Holds s P p (some q) t → k < t.size → s'.cell q = s.cell q

private lemma Flushes.refl (k : Nat) (s : NodeStore) : Flushes k s s := ⟨Settles.refl s, fun _ _ _ _ _ _ => rfl⟩

private lemma Flushes.trans {k' : Nat} {s'' : NodeStore} (h : Flushes k s s') (h' : Flushes k' s' s'') (hk : k' ≤ k) :
    Flushes k s s'' where
  settles := h.settles.trans h'.settles
  larger P p q t ht hlt := by
    rw [h'.larger P p q t (h.settles.holds _ _ _ _ ht) (by omega), h.larger P p q t ht hlt]

private lemma Flushes.write (hs : Settles s (s.write ptr n))
    (h : Holds s P p (some ptr) t) (hk : t.size ≤ k) : Flushes k s (s.write ptr n) where
  settles := hs
  larger Q p' q t' ht' hlt := by
    refine cell_write_of_ne fun hq => ?_
    subst hq
    have : t' = t := ht'.unique h
    rw [this] at hlt
    omega

private lemma preFlushNode_spec (k : Nat) (h : Holds s P p (some ptr) t) (hw : w ≠ 0) :
    Flushes k s (preFlushNode w s ptr).2 ∧
      Holds (preFlushNode w s ptr).2 any p (some (preFlushNode w s ptr).1) t ∧
      ((preFlushNode w s ptr).2.cell (preFlushNode w s ptr).1).cowid = w ∧
      ∀ q, q < s.next → (preFlushNode w s ptr).2.cell q = s.cell q := by
  have ha : Holds s any p (some ptr) t := h.mono fun _ _ _ _ _ => trivial
  unfold preFlushNode
  split
  · refine ⟨⟨Settles.alloc _ _, fun _ _ q _ hq _ => cell_alloc_of_lt hq.lt⟩, ha.clone hw trivial, ?_,
      fun q hq => cell_alloc_of_lt hq⟩
    rw [alloc_fst, cell_alloc_next]
    rfl
  · rename_i hc
    exact ⟨Flushes.refl k s, ha, not_not.1 hc, fun _ _ => rfl⟩

private lemma settles_flush_leaf {l : SHAMapLeafNode} (h : Holds s P p (some ptr) (leaf l)) :
    Settles s (s.write ptr (s.cell ptr).updateHash.unshare) ∧
      Holds (s.write ptr (s.cell ptr).updateHash.unshare) never p (some ptr) (leaf l) := by
  have hh := h
  obtain ⟨hlt, hha, w, hc, -⟩ := h
  have hn : (s.cell ptr).updateHash.unshare = ⟨0, l.hash, .leaf l.type l.item⟩ := by
    rw [hc, hha]
    rfl
  have hl : ∀ Q p, Holds (s.write ptr (s.cell ptr).updateHash.unshare) Q p (some ptr) (leaf l) := fun Q p =>
    ⟨hlt, hha, 0, cell_write.trans hn, fun h => absurd rfl h⟩
  exact ⟨Settles.write hh (.inr (by rw [hn])) fun Q p' _ _ => hl Q p', hl _ _⟩

private lemma Holds.relocate (h : Holds s never p (some ptr) t) (h' : Holds s P p' o t) :
    Holds s P p' (some ptr) t := by
  induction t generalizing p p' ptr o with
  | null => exact h.elim
  | leaf l =>
    obtain ⟨hlt, hh, w, hc, hd⟩ := h
    exact ⟨hlt, hh, w, hc, fun hw => (hd hw).elim⟩
  | inner tag c ih =>
    obtain ⟨rfl, w, hash, hashes, children, hin, hch⟩ := h
    obtain ⟨r, rfl⟩ := h'.exists_ptr (by simp)
    obtain ⟨-, w', hash', hashes', children', hin', hch'⟩ := h'
    refine ⟨rfl, w, hash, hashes, children,
      { hin with depth := hin'.depth, dirty := fun hw => (hin.dirty hw).elim }, fun i => ?_⟩
    have hi := hch i
    rcases hci : children i with _ | q
    · rw [hci] at hi
      rw [hi.eq_null]
      trivial
    · rw [hci] at hi
      exact ih i hi (hch' i)

private lemma Holds.write_dirty (h : Holds s never p o t) (hd : (s.cell ptr).cowid ≠ 0) :
    Holds (s.write ptr n) never p o t := by
  refine h.frame (le_refl _) ?_ fun _ _ _ _ _ hP => hP.elim
  intro q _ hc
  exact cell_write_of_ne fun hq => hd (hq ▸ hc)

private lemma settles_shareChild (h : Holds s P p (some ptr) (inner 0 c)) (hd : (s.cell ptr).cowid ≠ 0)
    {i : Fin kBranchFactor} (hq : Holds s never (p ++ [i]) (some q) (c i)) :
    Settles s (s.write ptr ((s.cell ptr).shareChild i q)) := by
  have hh := h
  obtain ⟨-, w, hash, hashes, children, hin, -⟩ := h
  have hn : (s.cell ptr).shareChild i q = ⟨w, hash, .inner hashes (update children i (some q))⟩ := by
    rw [hin.cell]
    rfl
  have hw : w ≠ 0 := by rwa [hin.cell] at hd
  refine Settles.write hh (.inl (by rw [hn, hin.cell])) fun Q p' h' ih => ?_
  obtain ⟨-, w', hash', hashes', children', hin', hch'⟩ := h'
  have hc := hin.cell.symm.trans hin'.cell
  obtain ⟨rfl, rfl, rfl, rfl⟩ := hc
  refine ⟨rfl, w, hash, hashes, _, { hin' with cell := cell_write.trans hn, fresh := fun hf => ?_ }, fun j => ?_⟩
  · obtain ⟨heq, hr⟩ := hin'.fresh hf
    have hcln : ∀ r, (s.cell r).cowid = 0 → ((s.write ptr ((s.cell ptr).shareChild i q)).cell r).cowid = 0 := by
      intro r h0
      rw [cell_write_of_ne]
      · exact h0
      · rintro rfl
        exact hd h0
    refine ⟨heq, fun j r hj => ?_⟩
    by_cases hji : j = i
    · subst hji
      obtain ⟨q', hq'⟩ := (hch' j).exists_ptr fun hn => by rw [hn] at hq; exact hq
      rw [update_self] at hj
      exact ⟨Option.some.inj hj ▸ hcln q hq.clean, (hr j q' hq').2⟩
    · rw [update_of_ne hji] at hj
      exact ⟨hcln r (hr j r hj).1, (hr j r hj).2⟩
  have hj := ih _ _ rfl j _ _ (hch' j)
  by_cases hji : j = i
  · subst hji
    rw [update_self]
    exact (hq.write_dirty hd).relocate hj
  · rwa [update_of_ne hji]

private lemma settles_flush_inner (h : Holds s P p (some ptr) (inner 0 c))
    (hch : ∀ i, Holds s never (p ++ [i]) ((s.cell ptr).getChild i) (c i)) :
    Settles s (s.write ptr ((s.cell ptr).updateHashDeep s).unshare) ∧
      Holds (s.write ptr ((s.cell ptr).updateHashDeep s).unshare) never p (some ptr) (inner 0 c) := by
  have hh := h
  obtain ⟨-, w, hash, hashes, children, hin, -⟩ := h
  have hg : ∀ i, (s.cell ptr).getChild i = children i := by
    intro i
    rw [hin.cell]
    rfl
  simp only [hg] at hch
  obtain ⟨hashes', hd, hrec⟩ := updateHashDeep_cell w hash hashes hch
  have hn : ((s.cell ptr).updateHashDeep s).unshare = ⟨0, updateHashDeep (inner 0 c), .inner hashes' children⟩ := by
    rw [hin.cell, hd]
    rfl
  rw [hn]
  have hinn : ∀ Q p', p'.length < kLeafDepth →
      HoldsInner (s.write ptr ⟨0, updateHashDeep (inner 0 c), .inner hashes' children⟩) Q p' ptr c 0
        (updateHashDeep (inner 0 c)) hashes' children := by
    intro Q p' hde
    refine ⟨hin.lt, hde, cell_write, fun _ => ⟨rfl, fun i q hq => ⟨?_, hrec i q hq⟩⟩, fun h => absurd rfl h⟩
    by_cases hqp : q = ptr
    · rw [hqp, cell_write]
    have hi := hch i
    rw [hq] at hi
    rw [cell_write_of_ne hqp]
    exact hi.clean
  have hs : Settles s (s.write ptr ⟨0, updateHashDeep (inner 0 c), .inner hashes' children⟩) := by
    refine Settles.write hh (.inr rfl) fun Q p' h' ih => ?_
    obtain ⟨-, w', hash', hashes'', children', hin', hch'⟩ := h'
    have hc := hin.cell.symm.trans hin'.cell
    obtain ⟨-, -, -, rfl⟩ := hc
    exact ⟨rfl, _, _, _, _, hinn Q p' hin'.depth, fun i => ih _ _ rfl i _ _ (hch' i)⟩
  exact ⟨hs, rfl, _, _, _, _, hinn _ p hin.depth, fun i => hs.holds _ _ _ _ (hch i)⟩

/-! ### The loops -/

/-- What one turn of the loop does to the node whose branches are worked off: the child in the branch is clean, the
other branches are as before. -/
structure FlushedBranch (w : Nat) (ptr : NodePtr) (p : List (Fin kBranchFactor))
    (c : Fin kBranchFactor → SHAMapTreeNode) (pos : Fin kBranchFactor) (s s' : NodeStore) : Prop where
  flushes : Flushes (inner 0 c : SHAMapTreeNode).size s s'
  cowid : (s'.cell ptr).cowid = w
  clean : Holds s' never (p ++ [pos]) ((s'.cell ptr).getChild pos) (c pos)
  others : ∀ i, i ≠ pos → (s'.cell ptr).getChild i = (s.cell ptr).getChild i

private lemma flushedBranch_share {s0 : NodeStore}
    (hf : Flushes (inner 0 c : SHAMapTreeNode).size s0 s) (hs : s.cell ptr = s0.cell ptr)
    (h : Holds s P p (some ptr) (inner 0 c)) (hc : (s.cell ptr).cowid = w) (hw : w ≠ 0)
    (hq : Holds s never (p ++ [pos]) (some q) (c pos)) :
    FlushedBranch w ptr p c pos s0 (s.write ptr ((s.cell ptr).shareChild pos q)) := by
  have hd : (s.cell ptr).cowid ≠ 0 := by rwa [hc]
  have hset := settles_shareChild h hd hq
  have hfls := hf.trans (Flushes.write hset h (le_refl _)) (le_refl _)
  have hcln := hq.write_dirty (n := (s.cell ptr).shareChild pos q) hd
  obtain ⟨-, w', hash, hashes, children, hin, -⟩ := h
  have hn : (s.cell ptr).shareChild pos q = ⟨w', hash, .inner hashes (update children pos (some q))⟩ := by
    rw [hin.cell]
    rfl
  refine ⟨hfls, ?_, ?_, fun i hi => ?_⟩
  · rw [cell_write, hn, ← hc, hin.cell]
  · have hg : ((s.write ptr ((s.cell ptr).shareChild pos q)).cell ptr).getChild pos = some q := by
      rw [cell_write, hn]
      exact update_self ..
    rw [hg]
    exact hcln
  · rw [cell_write, ← hs, hin.cell]
    exact update_of_ne hi ..

private lemma flushBranch_spec {flush : NodeStore → NodePtr → Except SHAMapError NodeStore}
    (hw : w ≠ 0) (h : Holds s any p (some ptr) (inner 0 c)) (hc : (s.cell ptr).cowid = w)
    (hf : ∀ s q, Holds s any (p ++ [pos]) (some q) (c pos) → (s.cell q).cowid = w → (s.cell q).isInner = true →
        Succeeds (flush s q) fun s' => Flushes (c pos).size s s' ∧ Holds s' never (p ++ [pos]) (some q) (c pos)) :
    Succeeds (flushBranch flush w ptr s pos) (FlushedBranch w ptr p c pos s) := by
  have hh := h
  obtain ⟨-, w', hash, hashes, children, hin, hch⟩ := h
  have hpos := hch pos
  have hg : (s.cell ptr).getChild pos = children pos := by
    rw [hin.cell]
    rfl
  have hs := size_child_lt (0 : Uint256) c pos
  unfold flushBranch
  rw [hg]
  rcases hcp : children pos with _ | q
  · refine .pure ⟨Flushes.refl _ _, hc, ?_, fun _ _ => rfl⟩
    rw [hcp] at hpos
    rw [hg, hcp, hpos.eq_null]
    trivial
  · rw [hcp] at hpos
    by_cases hq : (s.cell q).cowid = 0
    · simp only [hq]
      refine .pure ⟨Flushes.refl _ _, hc, ?_, fun _ _ => rfl⟩
      rw [hg, hcp]
      exact hpos.of_clean hq
    · simp only [hq]
      obtain ⟨hp, hpre, hpr, hsa⟩ := preFlushNode_spec (inner 0 c : SHAMapTreeNode).size hpos hw
      generalize (preFlushNode w s q).1 = q' at hpre hpr ⊢
      generalize (preFlushNode w s q).2 = s1 at hpre hpr hsa hp ⊢
      have hh1 := hp.settles.holds _ _ _ _ hh
      have hptr1 := hsa ptr hin.lt
      by_cases hi : (s1.cell q').isInner = true
      · simp only [hi]
        refine (hf s1 q' hpre hpr hi).bind fun s2 h2 => .pure ?_
        have hptr2 : s2.cell ptr = s.cell ptr := (h2.1.larger _ _ _ _ hh1 hs).trans hptr1
        exact flushedBranch_share (hp.trans h2.1 (by omega)) hptr2 (h2.1.settles.holds _ _ _ _ hh1)
          (by rw [hptr2, hc]) hw h2.2
      · simp only [hi]
        obtain ⟨l, hl⟩ : ∃ l, c pos = leaf l := hpre.eq_leaf (by simpa using hi)
        rw [hl] at hpre
        obtain ⟨hset, hcln⟩ := settles_flush_leaf hpre
        have hne : ptr ≠ q' := by
          rintro rfl
          exact absurd hh1.isInner_eq_true hi
        have hptr2 := (cell_write_of_ne (a := (s1.cell q').updateHash.unshare) hne).trans hptr1
        refine .pure (flushedBranch_share (hp.trans (Flushes.write hset hpre ?_) (le_refl _)) hptr2
          (hset.holds _ _ _ _ hh1) (by rw [hptr2, hc]) hw (hl ▸ hcln))
        rw [← hl]
        exact hs.le

private lemma flushNode_spec (hw : w ≠ 0) {levels : Nat} (h : Holds s any p (some ptr) (inner 0 c))
    (hc : (s.cell ptr).cowid = w) (hl : kLeafDepth ≤ p.length + levels) :
    Succeeds (flushNode w levels s ptr) fun s' =>
      Flushes (inner 0 c : SHAMapTreeNode).size s s' ∧ Holds s' never p (some ptr) (inner 0 c) := by
  -- the induction is on the tree, so that the flushing of a child is covered whatever its clone is
  generalize ht : (inner 0 c : SHAMapTreeNode) = t at *
  induction t generalizing s p ptr c levels with
  | null => cases ht
  | leaf l => cases ht
  | inner tag c' ih =>
    obtain ⟨rfl, rfl⟩ : 0 = tag ∧ c = c' := by simpa using ht
    have hd : p.length < kLeafDepth := by
      obtain ⟨-, w', hash, hashes, children, hin, -⟩ := h
      exact hin.depth
    obtain ⟨levels, rfl⟩ : ∃ n, levels = n + 1 := ⟨levels - 1, by omega⟩
    refine Succeeds.bind (P := fun s' => Flushes (inner 0 c : SHAMapTreeNode).size s s' ∧
      ∀ i, Holds s' never (p ++ [i]) ((s'.cell ptr).getChild i) (c i)) ?_ fun s' hs' => ?_
    · refine Succeeds.mono (Succeeds.foldlM_rest (I := fun rest s' =>
        Flushes (inner 0 c : SHAMapTreeNode).size s s' ∧ (s'.cell ptr).cowid = w ∧
          ∀ i, i ∉ rest → Holds s' never (p ++ [i]) ((s'.cell ptr).getChild i) (c i)) ?_
        ⟨Flushes.refl _ _, hc, fun i hi => absurd (List.mem_finRange i) hi⟩) ?_
      · intro pos rest s1 h1
        obtain ⟨hf1, hc1, hcln1⟩ := h1
        refine (flushBranch_spec hw (hf1.settles.holds _ _ _ _ h) hc1 ?_).mono fun s2 h2 => ?_
        · intro s2 q hq hqc hqi
          obtain ⟨cq, hcq⟩ := hq.eq_inner hqi
          exact ih pos hqc (by rw [List.length_append, List.length_singleton]; omega) hcq.symm hq
        refine ⟨hf1.trans h2.flushes (le_refl _), h2.cowid, fun i hi => ?_⟩
        by_cases hip : i = pos
        · rw [hip]
          exact h2.clean
        · rw [h2.others i hip]
          exact h2.flushes.settles.holds _ _ _ _ (hcln1 i (by simp [hip, hi]))
      · intro s1 h1
        exact ⟨h1.1, fun i => h1.2.2 i (by simp)⟩
    · have hh := hs'.1.settles.holds _ _ _ _ h
      obtain ⟨hset, hcln⟩ := settles_flush_inner hh hs'.2
      exact .pure ⟨hs'.1.trans (Flushes.write hset hh (le_refl _)) (le_refl _), hcln⟩

/-- What `walkSubTree` makes of a map: the store settles, and the map has a clean root with the same tree. -/
structure Unshared (m : SharedMap) (c : Fin kBranchFactor → SHAMapTreeNode) (s : NodeStore)
    (r : NodeStore × SharedMap) : Prop where
  settles : Settles s r.1
  map : r.2 = { m with root := r.2.root }
  holds : Holds r.1 never [] (some r.2.root) (inner 0 c)

lemma walkSubTree_spec {m : SharedMap} (hw : m.cowid ≠ 0) (h : Holds s P [] (some m.root) (inner 0 c)) :
    Succeeds (walkSubTree s m) (Unshared m c s) := by
  unfold walkSubTree
  by_cases hc : (s.cell m.root).cowid = 0
  · rw [if_pos hc]
    exact .pure ⟨Settles.refl s, rfl, h.of_clean hc⟩
  rw [if_neg hc, if_pos h.isInner_eq_true]
  by_cases he : (s.cell m.root).branches = []
  · rw [if_pos he]
    refine .pure ⟨Settles.alloc _ _, rfl, ?_⟩
    have hn : ∀ i, c i = null := h.null_of_branches he
    have hz : updateHashDeep (inner 0 c) = 0 := by
      rw [updateHashDeep, if_pos (by simp [hn, isNull])]
    refine ⟨rfl, 0, 0, fun _ => 0, fun _ => none,
      { lt := Nat.lt_succ_self _, depth := by decide, cell := cell_alloc_next,
        fresh := fun _ => ⟨hz.symm, fun i q hq => by cases hq⟩, dirty := fun h => absurd rfl h }, fun i => ?_⟩
    rw [hn i]
    trivial
  · rw [if_neg he]
    obtain ⟨hp, hpre, hpr, -⟩ := preFlushNode_spec 0 h hw
    refine (flushNode_spec hw hpre hpr (by simp)).bind fun s' hs' => .pure ?_
    exact ⟨hp.settles.trans hs'.1.settles, rfl, hs'.2⟩

end Flush

end Xrpl.SHAMap

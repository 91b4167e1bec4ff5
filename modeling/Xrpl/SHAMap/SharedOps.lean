import Xrpl.SHAMap.CopyOnWrite

/-!
# The operations of a map that shares its nodes

`addGiveItem`, `delItem` and `updateGiveItem` do to the tree that a map has in the store what the operations of the
value model do to that tree, and they change nothing that another map can see (`addGiveItem_sim`, `delItem_sim`,
`updateGiveItem_sim`).  There is one exception: an update that leaves the hash of the leaf as it is changes the leaf
only where it lies, so that it is lost when the leaf had to be cloned first.
-/

namespace Xrpl.SHAMap

open RadixTree.Tree List Function Except SHAMapNodeID CellStore Grows

section Sharing

variable [Sha512Half] {s s' : NodeStore} {own own' : Owners} {i w : Nat} {R : List (Fin kBranchFactor) → Prop}
  {p : List (Fin kBranchFactor)} {ptr q root : NodePtr} {o : Option NodePtr} {t : SHAMapTreeNode}
  {c : Fin kBranchFactor → SHAMapTreeNode} {b : Fin kBranchFactor} {k : Uint256} {m : SharedMap} {v v' : SHAMap}
  {ps : PtrStack} {vs : NodeStack} {type : SHAMapNodeType} {item : SHAMapItem} {r : Bool}

/-! ### Adding -/

private lemma Shared.makeTypedLeaf_of_ne (h : type ≠ .tnInner) (item : SHAMapItem) (w : Nat) :
    Shared.makeTypedLeaf type item w = .ok ⟨w, leafHash type item, .leaf type item⟩ := by
  cases type <;> first | exact absurd rfl h | rfl

private lemma Frame.hangLeaf (h : Frame (Mine own i w) s p ptr c b) (hw : w ≠ 0) (hc : (s.cell ptr).cowid = w)
    (hty : type ≠ .tnInner) (item : SHAMapItem) :
    ∃ own' s', Shared.hangLeaf s ptr b type item w = .ok s' ∧ Grows i (· = p) own own' s s' ∧ (s'.cell ptr).cowid = w ∧
      Holds s' (Mine own' i w) p (some ptr) (inner 0 (update c b (leaf (typedLeaf type item)))) := by
  have hg := alloc (i := i) (· = p) own s ⟨w, leafHash type item, .leaf type item⟩ (p ++ [b])
  have hf := h.grow (alloc (i := i) (fun _ => False) own s ⟨w, leafHash type item, .leaf type item⟩ (p ++ [b]))
    fun _ hF => hF.elim
  have hc' := hc
  rw [← cell_alloc_of_lt (a := ⟨w, leafHash type item, .leaf type item⟩) h.lt] at hc'
  obtain ⟨hg', hh, hc''⟩ := hf.setChild hw hc' (holds_alloc_leaf own i w s (p ++ [b]) type item)
  refine ⟨_, _, ?_, hg.trans hg', hc'', hh⟩
  unfold Shared.hangLeaf
  rw [Shared.makeTypedLeaf_of_ne hty]
  rfl

structure FreshInner (own : Owners) (i w : Nat) (s : NodeStore) (p : List (Fin kBranchFactor)) (ptr : NodePtr) :
    Prop where
  lt : ptr < s.next
  own_eq : own ptr = (i, p)
  cell : s.cell ptr = Shared.makeInner w

omit [Sha512Half] in
private lemma freshInner_alloc (own : Owners) (i w : Nat) (s : NodeStore) (p : List (Fin kBranchFactor)) :
    FreshInner (update own s.next (i, p)) i w (s.alloc (Shared.makeInner w)).2 p s.next :=
  ⟨Nat.lt_succ_self _, update_self .., cell_alloc_next⟩

private lemma FreshInner.toFrame (h : FreshInner own i w s p ptr) (hd : p.length < kLeafDepth) (b : Fin kBranchFactor) :
    Frame (Mine own i w) s p ptr (fun _ => null) b :=
  ⟨h.lt, hd, w, 0, fun _ => 0, fun _ => none, h.cell, fun _ => ⟨h.own_eq, rfl⟩, fun _ _ => trivial⟩

omit [Sha512Half] in
private lemma FreshInner.grow (h : FreshInner own i w s p ptr) (hg : Grows i (fun _ => False) own own' s s') :
    FreshInner own' i w s' p ptr :=
  ⟨lt_of_lt_of_le h.lt hg.within.next_le, (hg.own_eq ptr h.lt).trans h.own_eq,
    (hg.within.cell_eq ptr h.lt fun hin => hin.2.2).trans h.cell⟩

variable {levels : Nat} {l : SHAMapLeafNode} {vs' : NodeStack} {P : Claim}

private lemma splitLoop_sim {other : Uint256} {id' : SHAMapNodeID} (hp : p ≠ [])
    (hst : Stacked (Mine own i w) s root k p ps vs) (hf : FreshInner own i w s p ptr)
    (hl : p.length + levels = kLeafDepth) (hv : splitLoop k other levels ⟨p⟩ vs = .ok (id', vs')) :
    ∃ own' s' ptr' p' ps', id' = ⟨p'⟩ ∧
      Shared.splitLoop w k other levels s ptr ⟨p⟩ ps = .ok (s', ptr', ⟨p'⟩, ps') ∧ p' ≠ [] ∧
      p'.length < kLeafDepth ∧ Grows i (fun _ => False) own own' s s' ∧ Stacked (Mine own' i w) s' root k p' ps' vs' ∧
      FreshInner own' i w s' p' ptr' ∧ nibble k p'.length ≠ nibble other p'.length := by
  induction levels generalizing p own s ptr ps vs with
  | zero => simp [splitLoop] at hv
  | succ levels ih =>
    have hd : p.length < kLeafDepth := by omega
    have hid : getChildNodeID ⟨p⟩ (nibble k p.length) = .ok ⟨p ++ [nibble k p.length]⟩ := getChildNodeID_of_lt hd _
    unfold splitLoop at hv
    unfold Shared.splitLoop
    simp only [selectBranch_eq_nibble, getDepth] at hv ⊢
    by_cases hb : nibble k p.length = nibble other p.length
    · rw [if_pos hb, hid] at hv
      rw [if_pos hb, hid]
      have hlen : (p ++ [nibble k p.length]).length = p.length + 1 := by simp
      have hg := alloc (i := i) (fun _ => False) own s (Shared.makeInner w) (p ++ [nibble k p.length])
      have hst' : Stacked (Mine (update own s.next (i, p ++ [nibble k p.length])) i w)
          (s.alloc (Shared.makeInner w)).2 root k (p ++ [nibble k p.length]) ((ptr, ⟨p⟩) :: ps)
          ((makeInner, ⟨p⟩) :: vs) :=
        ⟨p, _, rfl, rfl, rfl, rfl, fun h => absurd h hp, (hf.grow hg).toFrame hd _, hst.grow hg fun _ hF => hF.elim⟩
      obtain ⟨own', s', ptr', p', ps', hid', hs, hp', hdep', hg', hst'', hfr', hne⟩ :=
        ih (by simp) hst' (freshInner_alloc own i w s _) (by omega) hv
      exact ⟨own', s', ptr', p', ps', hid', hs, hp', hdep', hg.trans hg', hst'', hfr', hne⟩
    · rw [if_neg hb] at hv
      rw [if_neg hb]
      obtain ⟨rfl, rfl⟩ := hv
      exact ⟨own, s, ptr, p, ps, rfl, rfl, hp, hd, refl _ _ _ _, hst, hf, hb⟩

/-- Where the walk from the root of a map ends, in the store and in the value model. -/
structure Walked (own : Owners) (i : Nat) (s : NodeStore) (m : SharedMap) (v : SHAMap) (k : Uint256)
    (p : List (Fin kBranchFactor)) (ptr : NodePtr) (t : SHAMapTreeNode) (ps : PtrStack) (vs : NodeStack) : Prop where
  stacked : Stacked (Mine own i m.cowid) s m.root k p ps vs
  holds : Holds s (Mine own i m.cowid) p (some ptr) t
  root : p = [] → m.root = ptr
  isEnd : IsEnd k p t
  inner_of_nil : p = [] → ∃ c, t = inner 0 c
  mem : ∀ l, t = leaf l → Mem l v.root

private lemma walked (hro : v.root = inner 0 c) (h : Holds s (Mine own i m.cowid) [] (some m.root) v.root)
    (k : Uint256) :
    ∃ p ptr t ps vs, Shared.walkTowardsKey s k kLeafDepth m.root .root [] = .ok ((ptr, ⟨p⟩) :: ps) ∧
      walkTowardsKey k v.root .root [] = .ok (endLeaf t, (t, ⟨p⟩) :: vs) ∧ Walked own i s m v k p ptr t ps vs := by
  have hst : Stacked (Mine own i m.cowid) s m.root k [] [] [] := rfl
  obtain ⟨p, ptr, t, ps, vs, hw1, hw2, hst', hh, hr, he, -, hs, hmem⟩ :=
    walkTowardsKey_spec h hst (fun _ => rfl) (Nat.zero_add kLeafDepth)
  refine ⟨p, ptr, t, ps, vs, hw1, hw2, hst', hh, hr, he, fun hp => ⟨c, ?_⟩, hmem⟩
  rw [hs (by rw [hp]), hro]

private lemma Holds.body_leaf (h : Holds s P p (some ptr) (leaf l)) : (s.cell ptr).body = .leaf l.type l.item := by
  obtain ⟨-, -, w', hc, -⟩ := h
  rw [hc]

private lemma Holds.body_inner (h : Holds s P p (some ptr) (inner 0 c)) :
    ∃ hashes children, (s.cell ptr).body = .inner hashes children := by
  obtain ⟨-, w', hash, hashes, children, hin, -⟩ := h
  exact ⟨hashes, children, by rw [hin.cell]⟩

private lemma Walked.ne_nil (h : Walked own i s m v k p ptr (leaf l) ps vs) : p ≠ [] := by
  intro hp
  obtain ⟨c, hc⟩ := h.inner_of_nil hp
  cases hc

/-- What is done to the value model is done to the map, up to the trees `T` allows. -/
def Follows (own : Owners) (i : Nat) (s : NodeStore) (m : SharedMap) (T : Bool → SHAMap → SHAMapTreeNode → Prop)
    (x : Except SHAMapError (Bool × SHAMap)) (y : Except SHAMapError (Bool × NodeStore × SharedMap)) : Prop :=
  ∀ r v', x = .ok (r, v') → ∃ own' s' m' t, y = .ok (r, s', m') ∧ Changed own i s m t own' (s', m') ∧ T r v' t

def Exact (_ : Bool) (v' : SHAMap) (t : SHAMapTreeNode) : Prop := t = v'.root

variable {T : Bool → SHAMap → SHAMapTreeNode → Prop}

private lemma Follows.unchanged (h : Holds s (Mine own i m.cowid) [] (some m.root) v.root) (hT : T r v v.root) :
    Follows own i s m T (.ok (r, v)) (.ok (r, s, m)) := by
  rintro _ _ ⟨⟩
  exact ⟨own, s, m, v.root, rfl, ⟨refl _ _ _ _, rfl, h⟩, hT⟩

section

variable (hw : m.cowid ≠ 0) (hty : type ≠ .tnInner)

include hw hty

private lemma addOnTop_leaf_sim (hwa : Walked own i s m v item.key p ptr (leaf l) ps vs) (hk : l.item.key ≠ item.key) :
    Follows own i s m Exact (addOnTop v type item ((leaf l, ⟨p⟩) :: vs))
      (Shared.addOnTop s m type item ((ptr, ⟨p⟩) :: ps)) := by
  intro r v' hv
  have hp := hwa.ne_nil
  -- the value model
  simp only [addOnTop, if_neg hk] at hv
  obtain ⟨⟨id', vs'⟩, hs, hv⟩ := of_bind_eq_ok hv
  rw [makeTypedLeaf_of_ne hty, makeTypedLeaf_of_ne hty] at hv
  obtain ⟨rfl, rfl⟩ := hv
  -- the store
  simp only [Shared.addOnTop, hwa.holds.body_leaf, if_neg hk]
  obtain ⟨own1, hun, -⟩ := hwa.holds.unshareNode hw
  have hst1 := (hwa.stacked.grow hun.grows fun _ hF => hF.elim)
  have hm := hun.below hp
  have hc := hun.cowid
  have hg1 := hun.grows
  generalize Shared.unshareNode s m ptr ⟨p⟩ = u at *
  obtain ⟨ptr1, s1, m1⟩ := u
  obtain rfl : m1 = m := hm
  rw [hc]
  have hg2 := alloc (i := i) (fun _ => False) own1 s1 (Shared.makeInner m1.cowid) p
  have hlen := hst1.length_le
  simp only [getDepth] at hs
  obtain ⟨own3, s3, ptr3, p3, ps3, rfl, hs3, hp3, hd3, hg3, hst3, hfr3, hne⟩ :=
    splitLoop_sim hp (hst1.grow hg2 fun _ hF => hF.elim) (freshInner_alloc own1 i m1.cowid s1 p) (by omega) hs
  obtain ⟨own4, s4, hh4, hg4, hc4, hhol4⟩ :=
    (hfr3.toFrame hd3 (nibble item.key p3.length)).hangLeaf hw (by rw [hfr3.cell]; rfl) hty item
  obtain ⟨own5, s5, hh5, hg5, hc5, hhol5⟩ := (hhol4.toFrame (nibble l.item.key p3.length)).hangLeaf hw hc4 hty l.item
  have hst5 := (hst3.grow (hg4.trans hg5) fun p' hp' => hp' ▸ prefix_refl _)
  obtain ⟨own6, hchg⟩ := dirtyUp_spec hw hst5 (fun h => absurd h hp3) hhol5
  have hg : Grows i (fun _ => True) own own5 s s5 :=
    (((hg1.trans hg2).trans hg3).mono fun _ hF => hF.elim).trans ((hg4.trans hg5).mono fun _ _ => trivial)
  refine ⟨own6, (Shared.dirtyUp item.key s5 m1 ps3 ptr3).1, (Shared.dirtyUp item.key s5 m1 ps3 ptr3).2, _, ?_, ?_, rfl⟩
  · simp only [alloc_fst, getDepth, selectBranch_eq_nibble, hs3, bind, Except.bind, hh4, hh5, pure, Except.pure]
  · simpa only [selectBranch_eq_nibble, getDepth, setChild, makeInner] using hchg.after hg rfl

private lemma addOnTop_inner_sim (hwa : Walked own i s m v item.key p ptr (inner 0 c) ps vs) :
    Follows own i s m Exact (addOnTop v type item ((inner 0 c, ⟨p⟩) :: vs))
      (Shared.addOnTop s m type item ((ptr, ⟨p⟩) :: ps)) := by
  intro r v' hv
  obtain ⟨hashes, children, hb⟩ := hwa.holds.body_inner
  -- the value model
  simp only [addOnTop, makeTypedLeaf_of_ne hty] at hv
  obtain ⟨rfl, rfl⟩ := hv
  -- the store
  simp only [Shared.addOnTop, hb]
  obtain ⟨own1, hun, hf1⟩ := (hwa.holds.toFrame (nibble item.key p.length)).unshareNode
  have hc := hun.cowid_eq
  obtain ⟨own2, s2, hh, hg2, -, hhol⟩ := hf1.hangLeaf hw hun.cowid hty item
  have hg := (hun.grows.mono fun _ hF => hF.elim).trans hg2
  rw [← hc] at hhol hw hh
  obtain ⟨own3, hchg⟩ := dirtyUp_spec hw (hwa.stacked.rest hun hg) (fun hp => hun.root hp (hwa.root hp)) hhol
  refine ⟨own3, (Shared.dirtyUp item.key s2 (Shared.unshareNode s m ptr ⟨p⟩).2.2 ps
    (Shared.unshareNode s m ptr ⟨p⟩).1).1, (Shared.dirtyUp item.key s2 (Shared.unshareNode s m ptr ⟨p⟩).2.2 ps
    (Shared.unshareNode s m ptr ⟨p⟩).1).2, _, ?_, ?_, rfl⟩
  · simp only [getDepth, selectBranch_eq_nibble, hh, bind, Except.bind, pure, Except.pure]
  · simpa only [selectBranch_eq_nibble, getDepth, setChild] using hchg.after (hg.mono fun _ _ => trivial) hun.map

lemma addGiveItem_sim (hr : v.root = inner 0 c) (h : Holds s (Mine own i m.cowid) [] (some m.root) v.root) :
    Follows own i s m Exact (addGiveItem v type item) (Shared.addGiveItem s m type item) := by
  obtain ⟨p, ptr, t, ps, vs, hw1, hw2, hwa⟩ := walked hr h item.key
  unfold addGiveItem Shared.addGiveItem
  rw [hw1, hw2]
  show Follows own i s m Exact (addOnTop v type item ((t, ⟨p⟩) :: vs)) (Shared.addOnTop s m type item ((ptr, ⟨p⟩) :: ps))
  rcases hwa.isEnd with ⟨l, rfl⟩ | ⟨c', rfl, -⟩
  · by_cases hk : l.item.key = item.key
    · simp only [addOnTop, Shared.addOnTop, hwa.holds.body_leaf, if_pos hk]
      exact .unchanged h rfl
    · exact addOnTop_leaf_sim hw hty hwa hk
  · exact addOnTop_inner_sim hw hty hwa

end

/-! ### Deleting -/

private lemma Holds.branches_eq (h : Holds s P p (some ptr) (inner 0 c)) : (s.cell ptr).branches = branches c := by
  obtain ⟨-, w', hash, hashes, children, hin, hch⟩ := h
  unfold StoredNode.branches
  congr 1
  funext j
  rw [hin.cell, (hch j).isNull_eq]
  show (children j).isSome = !(children j).isNone
  cases children j <;> rfl

private lemma Holds.onlyBelow_eq (h : Holds s P p (some ptr) t)
    (hl : kLeafDepth < p.length + levels) : Shared.onlyBelow s levels ptr = onlyBelow t := by
  induction t generalizing p ptr levels with
  | null => exact h.elim
  | leaf l =>
    obtain ⟨-, -, w', hc, -⟩ := h
    unfold Shared.onlyBelow
    rw [hc]
    rfl
  | inner tag c ih =>
    have hh := h
    obtain ⟨rfl, w', hash, hashes, children, hin, hch⟩ := h
    have hd := hin.depth
    have hb : (s.cell ptr).body = .inner hashes children := by rw [hin.cell]
    obtain ⟨levels, rfl⟩ : ∃ n, levels = n + 1 := ⟨levels - 1, by omega⟩
    unfold Shared.onlyBelow onlyBelow
    simp only [hb, hh.branches_eq]
    rcases hbr : branches c with _ | ⟨j, _ | ⟨j', l⟩⟩
    · rfl
    · have hcj := hch j
      obtain ⟨q, hq⟩ := hcj.exists_ptr (mem_branches.1 (by simp [hbr]))
      rw [hq] at hcj
      have hlen : kLeafDepth < (p ++ [j]).length + levels := by
        rw [length_append, length_singleton]
        omega
      simp only [hq]
      exact ih j hcj hlen
    · rfl

private lemma ne_tnInner_of_makeTypedLeaf (h : makeTypedLeaf type item = .ok t) :
    type ≠ .tnInner ∧ t = leaf (typedLeaf type item) := by
  cases type with
  | tnInner => cases h
  | _ => exact ⟨by simp, (ok.inj h).symm⟩

private lemma pullUp_sim (h : Holds s (Mine own i w) p (some ptr) (inner 0 c)) (hcow : (s.cell ptr).cowid = w)
    (hw : w ≠ 0)
    (hv : pullUp type (inner 0 c) = .ok t) :
    ∃ own' s' o, Shared.pullUp type s ptr = .ok (o, s') ∧ Grows i (· = p) own own' s s' ∧
      Holds s' (Mine own' i w) p o t := by
  have hbr := h.branches_eq
  have ho : Shared.onlyBelow s (kLeafDepth + 1) ptr = onlyBelow (inner 0 c) := h.onlyBelow_eq (by omega)
  have hh := h
  obtain ⟨-, w', hash, hashes, children, hin, -⟩ := h
  obtain rfl : w' = w := by rw [← hcow, hin.cell]
  have hown := (hin.dirty hw).1
  unfold pullUp at hv
  unfold Shared.pullUp
  rw [hbr]
  rcases hc : branches c with _ | ⟨j, _ | ⟨j', l⟩⟩
  · simp only [getBranchCount, hc, length_nil, ↓reduceIte, ok.injEq] at hv
    subst hv
    exact ⟨own, s, none, rfl, refl _ _ _ _, trivial⟩
  · simp only [getBranchCount, hc, length_singleton, Nat.one_ne_zero, ↓reduceIte] at hv
    simp only [ho]
    rcases hit : onlyBelow (inner 0 c) with _ | item
    · rw [hit] at hv
      simp only [ok.injEq] at hv
      subst hv
      exact ⟨own, s, some ptr, rfl, refl _ _ _ _, hh⟩
    · rw [hit] at hv
      obtain ⟨hty, rfl⟩ := ne_tnInner_of_makeTypedLeaf hv
      have hg := write (R := (· = p)) ((s.cell ptr).setChild j none) hown (by rw [hcow]; exact hw) rfl
      have hcow' : ((s.write ptr ((s.cell ptr).setChild j none)).cell ptr).cowid = w' := by
        rw [cell_write, hin.cell]
        rfl
      refine ⟨_, _, some (s.write ptr ((s.cell ptr).setChild j none)).next, ?_,
        hg.trans (alloc _ own _ _ p), holds_alloc_leaf own i w' _ p type item⟩
      simp only [hcow', Shared.makeTypedLeaf_of_ne hty, bind, Except.bind, pure, Except.pure, alloc_fst]
  · simp only [getBranchCount, hc] at hv
    obtain rfl := ok.inj hv
    exact ⟨own, s, some ptr, rfl, refl _ _ _ _, hh⟩

private lemma delLoop_sim {t' root0 : SHAMapTreeNode} (hw : m.cowid ≠ 0)
    (hst : Stacked (Mine own i m.cowid) s m.root k p ps vs) (hps : p ≠ [])
    (ht : Holds s (Mine own i m.cowid) p o t) (hv : delLoop type k vs t root0 = .ok t') :
    ∃ own' s' m', Shared.delLoop type k s m ps o = .ok (s', m') ∧ Changed own i s m t' own' (s', m') := by
  induction ps generalizing p vs s own m o t root0 with
  | nil => exact absurd (hst.nil_iff.2 ⟨rfl, by cases vs with | nil => rfl | cons v vs => exact hst.elim⟩) hps
  | cons e ps ih =>
    cases vs with
    | nil => exact hst.elim
    | cons v vs =>
      obtain ⟨ptr, id⟩ := e
      obtain ⟨node, id'⟩ := v
      obtain ⟨p0, c, rfl, rfl, rfl, rfl, hptr, hf, hr⟩ := hst
      obtain ⟨own1, hun, hg, hc, hh⟩ := hf.hang hw ht
      rw [delLoop] at hv
      rw [Shared.delLoop]
      simp only [selectBranch_eq_nibble, getDepth] at hv ⊢
      by_cases hp0 : p0 = []
      · obtain ⟨rfl, rfl⟩ := hr.nil_iff.1 hp0
        subst hp0
        simp only [isRoot, getDepth, length_nil, decide_true, ↓reduceIte, delLoop, ok.injEq] at hv ⊢
        subst hv
        refine ⟨own1, _, _, rfl, hg.mono fun _ _ => trivial, hun.map, ?_⟩
        simp only [hun.root rfl (hptr rfl)]
        exact hh
      · have hnr : isRoot ⟨p0⟩ = false := by
          rw [← Bool.not_eq_true, isRoot_iff]
          exact hp0
        simp only [hnr] at hv ⊢
        obtain ⟨t1, hpu, hv⟩ := of_bind_eq_ok hv
        obtain ⟨own2, s2, o2, hpu2, hg2, hh2⟩ := pullUp_sim hh hc hw hpu
        have hm := hun.below hp0
        have hr2 := hr.grow (hg.trans hg2) fun p' hp' => hp' ▸ prefix_refl p'
        obtain ⟨own3, s3, m3, hd, hchg⟩ := ih hw hr2 hp0 hh2 hv
        refine ⟨own3, s3, m3, ?_, hchg.after ((hg.trans hg2).mono fun _ _ => trivial) rfl⟩
        rw [hpu2]
        show Shared.delLoop type k s2 (Shared.unshareNode s m ptr ⟨p0⟩).2.2 ps o2 = _
        rw [hm, hd]

lemma delItem_sim (hw : m.cowid ≠ 0) (hr : v.root = inner 0 c)
    (h : Holds s (Mine own i m.cowid) [] (some m.root) v.root) :
    Follows own i s m Exact (delItem v k) (Shared.delItem s m k) := by
  obtain ⟨p, ptr, t, ps, vs, hw1, hw2, hwa⟩ := walked hr h k
  unfold delItem Shared.delItem
  rw [hw1, hw2]
  show Follows own i s m Exact (delOnTop v k ((t, ⟨p⟩) :: vs)) (Shared.delOnTop s m k ((ptr, ⟨p⟩) :: ps))
  rcases hwa.isEnd with ⟨l, rfl⟩ | ⟨c', rfl, -⟩
  · have hb := hwa.holds.body_leaf
    by_cases hk : l.item.key = k
    · simp only [delOnTop, Shared.delOnTop, hb, ne_eq, hk]
      intro r v' hv
      obtain ⟨t', hd, hv⟩ := of_bind_eq_ok hv
      obtain ⟨rfl, rfl⟩ := hv
      have hn : Holds s (Mine own i m.cowid) p none null := trivial
      obtain ⟨own', s', m', hs, hc⟩ := delLoop_sim hw hwa.stacked hwa.ne_nil hn hd
      exact ⟨own', s', m', t', by rw [hs]; rfl, hc, rfl⟩
    · simp only [delOnTop, Shared.delOnTop, hb, ne_eq, hk]
      exact .unchanged h rfl
  · obtain ⟨hashes, children, hb⟩ := hwa.holds.body_inner
    simp only [Shared.delOnTop, hb]
    exact .unchanged h rfl

/-! ### Updating -/

/-- The hash of an inner node does not notice an exchange of subtrees with the same hash. -/
private lemma updateHashDeep_update (hn : t.isNull = (c b).isNull) (hh : updateHashDeep t = updateHashDeep (c b)) :
    updateHashDeep (inner 0 (update c b t)) = updateHashDeep (inner 0 c) := by
  have h1 : (fun j => (update c b t j).isNull) = fun j => (c j).isNull := by
    funext j
    by_cases hj : j = b
    · rw [hj, update_self, hn]
    · rw [update_of_ne hj]
  have h2 : (fun j => (updateHashDeep (update c b t j)).bytes) = fun j => (updateHashDeep (c j)).bytes := by
    funext j
    by_cases hj : j = b
    · rw [hj, update_self, hh]
    · rw [update_of_ne hj]
  rw [updateHashDeep, updateHashDeep, h1, h2]

private lemma walkTowardsKey_rehash (l' : SHAMapLeafNode) {p' : List (Fin kBranchFactor)} {ps' : PtrStack}
    {found : Option SHAMapLeafNode} (hl' : l'.hash = leafHash l'.type l'.item) (hs : l'.hash = l.hash)
    (h : Holds s (Mine own i w) p (some ptr) t)
    (hh : Shared.walkTowardsKey s k levels ptr ⟨p⟩ ps = .ok ((q, ⟨p'⟩) :: ps'))
    (hvl : walkTowardsKey k t ⟨p⟩ vs = .ok (found, (leaf l, ⟨p'⟩) :: vs'))
    (hle : p.length + levels = kLeafDepth) (hdir : (s.cell q).cowid ≠ 0) :
    ∃ t1 p1, Holds (s.write q ⟨w, l'.hash, .leaf l'.type l'.item⟩) (Mine own i w) p (some ptr) t1 ∧
      putBack k vs' (leaf l') = putBack k vs t1 ∧ updateHashDeep t1 = updateHashDeep t ∧ t1.isNull = false ∧
      (s.cell ptr).cowid ≠ 0 ∧ own q = (i, p1) ∧ p <+: p1 := by
  induction t generalizing p ptr ps vs levels with
  | null => exact h.elim
  | leaf l0 =>
    obtain ⟨hlt, hha, w', hc, hm⟩ := h
    unfold Shared.walkTowardsKey at hh
    simp only [hc, StoredNode.isInner, Bool.false_eq_true, ↓reduceIte, ok.injEq, cons.injEq, Prod.mk.injEq] at hh
    obtain ⟨⟨rfl, -⟩, -⟩ := hh
    simp only [walkTowardsKey, ok.injEq, Prod.mk.injEq, cons.injEq, leaf.injEq] at hvl
    obtain ⟨-, ⟨rfl, -⟩, rfl⟩ := hvl
    have hw' : w' ≠ 0 := by rwa [hc] at hdir
    have ho := (hm hw').1
    refine ⟨leaf l', p, ⟨hlt, hl', w, cell_write, fun _ => ⟨ho, rfl⟩⟩, rfl, ?_, rfl, hdir, ho, prefix_refl p⟩
    rw [updateHashDeep, updateHashDeep, ← hl', hs, hha]
  | inner tag c ih =>
    have hhe := h
    obtain ⟨rfl, w', hash, hashes, children, hin, hch⟩ := h
    have hci := hch (nibble k p.length)
    have hge : (s.cell ptr).getChild (nibble k p.length) = children (nibble k p.length) := by
      rw [hin.cell]
      rfl
    have hd := hin.depth
    obtain ⟨levels, rfl⟩ : ∃ n, levels = n + 1 := ⟨levels - 1, by omega⟩
    have hid : getChildNodeID ⟨p⟩ (nibble k p.length) = .ok ⟨p ++ [nibble k p.length]⟩ := getChildNodeID_of_lt hd _
    unfold Shared.walkTowardsKey at hh
    unfold walkTowardsKey at hvl
    simp only [selectBranch_eq_nibble, getDepth, hge, hhe.isInner_eq_true] at hh
    simp only [selectBranch_eq_nibble, getDepth, hci.isNull_eq] at hvl
    rcases hb : children (nibble k p.length) with _ | q1
    · simp [hb] at hvl
    rw [hb] at hci
    simp only [hb, hid] at hh
    simp only [hb, hid] at hvl
    have hlen : (p ++ [nibble k p.length]).length + levels = kLeafDepth := by
      rw [length_append, length_singleton]
      omega
    obtain ⟨t1, p1, hhol, hput, hha, hn, hdir1, ho, hp1⟩ := ih (nibble k p.length) hci hh hvl hlen
    -- a clean node would have clean children only, as would one whose hash is not reset
    have hst : ¬(hash ≠ 0 ∨ w' = 0) := fun hf => hdir1 ((hin.fresh hf).2 _ _ hb).1
    have hw' : w' ≠ 0 := fun hw' => hst (.inr hw')
    have hne : ptr ≠ q := by
      rintro rfl
      have hpp : p = p1 := congrArg Prod.snd ((hin.dirty hw').1.symm.trans ho)
      have := hp1.length_le
      rw [← hpp] at this
      simp at this
    have hg := write (R := (· = p1)) ⟨w, l'.hash, .leaf l'.type l'.item⟩ ho hdir rfl
    refine ⟨inner 0 (update c (nibble k p.length) t1), p1, ⟨rfl, w', hash, hashes, children, ?_, ?_⟩, ?_, ?_,
      rfl, ?_, ho, (prefix_append _ _).trans hp1⟩
    · exact ⟨hin.lt, hd, (cell_write_of_ne hne).trans hin.cell, fun hf => absurd hf hst, hin.dirty⟩
    · intro j
      by_cases hj : j = nibble k p.length
      · rw [hj, update_self, hb]
        exact hhol
      rw [update_of_ne hj]
      refine (hch j).grow hg fun p' hp' hpp => hj ?_
      rw [hpp] at hp'
      exact branch_unique hp' hp1
    · rw [hput, putBack, selectBranch_eq_nibble]
      rfl
    · exact updateHashDeep_update (hn.trans (by rw [hci.isNull_eq]; rfl)) hha
    · rw [hin.cell]
      exact hw'

/-- What an update leaves in the store: the updated tree, or the old one if the leaf was shared and its hash stays. -/
def UpdatedTo (type : SHAMapNodeType) (item : SHAMapItem) (v v' : SHAMap) (r : Bool) (t : SHAMapTreeNode) : Prop :=
  t = v'.root ∨ (t = v.root ∧ r = true ∧
    ∃ l, Mem l v.root ∧ l.item.key = item.key ∧ l.type = type ∧ leafHash type l.item = leafHash type item)

private lemma updateLeaf_sim (hw : m.cowid ≠ 0) (h : Holds s (Mine own i m.cowid) [] (some m.root) v.root)
    (hh : Shared.walkTowardsKey s item.key kLeafDepth m.root .root [] = .ok ((ptr, ⟨p⟩) :: ps))
    (hvl : walkTowardsKey item.key v.root .root [] = .ok (endLeaf (leaf l), (leaf l, ⟨p⟩) :: vs))
    (hwa : Walked own i s m v item.key p ptr (leaf l) ps vs) (hk : l.item.key = item.key) (hty : l.type = type) :
    Follows own i s m (fun r v' => UpdatedTo type item v v' r) (updateOnTop v type item ((leaf l, ⟨p⟩) :: vs))
      (Shared.updateOnTop s m type item ((ptr, ⟨p⟩) :: ps)) := by
  intro r v' hv
  subst hty
  obtain ⟨hlt, hha, w', hc, hmi⟩ := hwa.holds
  have hp := hwa.ne_nil
  simp only [Shared.updateOnTop, hwa.holds.body_leaf, ne_eq, hk, not_true_eq_false]
  simp only [updateOnTop, setItem, ne_eq, hk] at hv
  obtain ⟨own1, hun, hhol⟩ := hwa.holds.unshareNode hw
  have hm := hun.below hp
  have hset : StoredNode.setItem ((Shared.unshareNode s m ptr ⟨p⟩).2.1.cell (Shared.unshareNode s m ptr ⟨p⟩).1) item =
      (decide (l.hash ≠ leafHash l.type item), ⟨m.cowid, leafHash l.type item, .leaf l.type item⟩) := by
    have hcow := hun.cowid
    obtain ⟨-, -, w'', hc', -⟩ := hhol
    rw [hc'] at hcow ⊢
    rw [← hcow]
    rfl
  simp only [hset, hm, decide_not, Bool.not_eq_eq_eq_not, Bool.not_true, decide_eq_false_iff_not]
  by_cases hs : l.hash = leafHash l.type item
  · simp only [hs, not_true_eq_false, ↓reduceIte, ok.injEq, Prod.mk.injEq] at hv ⊢
    obtain ⟨rfl, rfl⟩ := hv
    by_cases hown : (s.cell ptr).cowid = m.cowid
    · -- the leaf is changed where it lies
      obtain ⟨heq, -⟩ := unshareNode_own own i p hown
      rw [heq]
      have hd : (s.cell ptr).cowid ≠ 0 := by rwa [hown]
      obtain ⟨t1, p1, hhol1, hput, -, -, -, hown1, -⟩ := walkTowardsKey_rehash
        ⟨l.type, item, leafHash l.type item⟩ rfl hs.symm h hh hvl (Nat.zero_add kLeafDepth) hd
      refine ⟨own, _, m, t1, ⟨rfl, rfl, rfl⟩, ⟨write _ hown1 hd trivial, rfl, hhol1⟩, .inl ?_⟩
      exact hput.symm
    · -- the clone of the leaf is not ho in anywhere
      obtain ⟨hptr, hstr, hun'⟩ := unshareNode_clone own i p hown
      rw [hptr, hstr]
      have hg : Grows i (fun _ => False) own (update own s.next (i, p)) s
          ((s.alloc ((s.cell ptr).clone m.cowid)).2.write s.next ⟨m.cowid, leafHash l.type item, .leaf l.type item⟩) := by
        refine ⟨⟨Nat.le_succ _, fun q hq _ => ?_⟩, fun q hq => update_of_ne (ne_of_lt hq) _ _⟩
        rw [cell_write_of_ne (ne_of_lt hq), cell_alloc_of_lt hq]
      refine ⟨_, _, m, v.root, ⟨rfl, rfl, rfl⟩, ⟨hg.mono fun _ hF => hF.elim, rfl, h.grow hg fun _ _ hF => hF⟩,
        .inr ⟨rfl, rfl, l, hwa.mem l rfl, hk, rfl, hha.symm.trans hs⟩⟩
  · simp only [hs, ↓reduceIte, ok.injEq, Prod.mk.injEq] at hv ⊢
    obtain ⟨rfl, rfl⟩ := hv
    have hcow := hun.cowid
    obtain ⟨hlt', -, w'', hc', hmi'⟩ := hhol
    have hw'' : w'' = m.cowid := by rwa [hc'] at hcow
    have hown : own1 (Shared.unshareNode s m ptr ⟨p⟩).1 = (i, p) := (hmi' (by rwa [hw''])).1
    have hg := (hun.grows.mono fun _ hF => hF.elim).trans (write (R := (· = p))
      ⟨m.cowid, leafHash l.type item, .leaf l.type item⟩ hown (by rwa [hcow]) rfl)
    have hl : Holds ((Shared.unshareNode s m ptr ⟨p⟩).2.1.write (Shared.unshareNode s m ptr ⟨p⟩).1
        ⟨m.cowid, leafHash l.type item, .leaf l.type item⟩) (Mine own1 i m.cowid) p
        (some (Shared.unshareNode s m ptr ⟨p⟩).1) (leaf ⟨l.type, item, leafHash l.type item⟩) :=
      ⟨hlt', rfl, m.cowid, cell_write, fun _ => ⟨hown, rfl⟩⟩
    obtain ⟨own2, hchg⟩ := dirtyUp_spec hw (hwa.stacked.grow hg fun p' hp' => hp' ▸ prefix_refl p')
      (fun h => absurd h hp) hl
    exact ⟨own2, _, _, _, ⟨rfl, rfl⟩, hchg.after (hg.mono fun _ _ => trivial) rfl, .inl rfl⟩

lemma updateGiveItem_sim (hw : m.cowid ≠ 0) (hr : v.root = inner 0 c)
    (h : Holds s (Mine own i m.cowid) [] (some m.root) v.root) :
    Follows own i s m (fun r v' => UpdatedTo type item v v' r) (updateGiveItem v type item)
      (Shared.updateGiveItem s m type item) := by
  obtain ⟨p, ptr, t, ps, vs, hw1, hw2, hwa⟩ := walked hr h item.key
  unfold updateGiveItem Shared.updateGiveItem
  rw [hw1, hw2]
  show Follows own i s m _ (updateOnTop v type item ((t, ⟨p⟩) :: vs)) (Shared.updateOnTop s m type item ((ptr, ⟨p⟩) :: ps))
  rcases hwa.isEnd with ⟨l, rfl⟩ | ⟨c', rfl, -⟩
  · have hb := hwa.holds.body_leaf
    by_cases hk : l.item.key = item.key
    · by_cases hty : l.type = type
      · exact updateLeaf_sim hw h hw1 hw2 hwa hk hty
      · simp only [updateOnTop, Shared.updateOnTop, hb, ne_eq, hk, hty]
        exact .unchanged h (.inl rfl)
    · simp only [updateOnTop, Shared.updateOnTop, hb, ne_eq, hk]
      exact .unchanged h (.inl rfl)
  · obtain ⟨hashes, children, hb⟩ := hwa.holds.body_inner
    simp only [Shared.updateOnTop, hb]
    exact .unchanged h (.inl rfl)

end Sharing

end Xrpl.SHAMap

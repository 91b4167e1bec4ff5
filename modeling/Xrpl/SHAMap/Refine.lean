import Xrpl.SHAMap.Map

/-!
# The stack loops are the recursive updates

`addGiveItem`, `delItem` and `updateGiveItem` work on the stack of the nodes they passed.  On a canonical tree they
compute what the recursive updates of `Xrpl.Lib.RadixUpdate` compute, and they do not throw.  Each proof is an
induction over the tree with the stack left arbitrary: walking one level down pushes a node, and the loop on the way
up pops it.
-/

namespace Xrpl.SHAMap

open RadixTree RadixTree.Tree List SHAMapNodeID

def leafKey (l : SHAMapLeafNode) : Uint256 := l.item.key

/-- The tree of a map between two operations: canonical, with every cached hash of an inner node reset. -/
abbrev IsCanonical (t : SHAMapTreeNode) : Prop := CanonicalRoot nibble leafKey 0 t

abbrev IsPlaced (p : List (Fin kBranchFactor)) (t : SHAMapTreeNode) : Prop := Placed nibble leafKey 0 kLeafDepth p t

lemma nibble_inj (k k' : Uint256) (h : ∀ e, e < kLeafDepth → nibble k e = nibble k' e) : k = k' := eq_of_nibble h

variable {t : SHAMapTreeNode} {id h : Uint256} {c : Fin kBranchFactor → SHAMapTreeNode} {p : List (Fin kBranchFactor)}

lemma IsCanonical.isPlaced (h : IsCanonical t) : IsPlaced [] t := by
  obtain ⟨c, rfl, hc⟩ := h
  exact ⟨rfl, by decide, fun i => (hc i).placed nibble_inj⟩

lemma IsCanonical.ne_null (h : IsCanonical t) : t ≠ null := by
  obtain ⟨c, rfl, -⟩ := h
  simp

private lemma selectBranch_mk (p : List (Fin kBranchFactor)) (k : Uint256) :
    selectBranch ⟨p⟩ k = nibble k p.length := selectBranch_eq_nibble _ _

private lemma walkTowardsKey_inner (hp : p.length < kLeafDepth) (hnu : c (nibble id p.length) ≠ null)
    (stack : NodeStack) :
    walkTowardsKey id (inner h c) ⟨p⟩ stack =
      walkTowardsKey id (c (nibble id p.length)) ⟨p ++ [nibble id p.length]⟩ ((inner h c, ⟨p⟩) :: stack) := by
  have hn : ¬ (c (nibble id p.length)).isNull = true := fun h => hnu (isNull_iff.1 h)
  rw [walkTowardsKey]
  simp only [selectBranch_mk]
  rw [if_neg hn, getChildNodeID_of_lt hp]
  rfl

private lemma walkTowardsKey_null (hn : c (nibble id p.length) = null) (stack : NodeStack) :
    walkTowardsKey id (inner h c) ⟨p⟩ stack = .ok (none, (inner h c, ⟨p⟩) :: stack) := by
  rw [walkTowardsKey]
  simp only [selectBranch_mk, hn, isNull, ↓reduceIte]

/-- The nodes on the way towards a key, from the top. -/
def nodesTowards (id : Uint256) : SHAMapTreeNode → Nat → List SHAMapTreeNode
  | .null, _ => []
  | .leaf l, _ => [leaf l]
  | .inner h c, d => inner h c :: nodesTowards id (c (nibble id d)) (d + 1)

private lemma walk_found (id : Uint256) (ht : IsPlaced p t) (stack : NodeStack) :
    ∃ stack', walkTowardsKey id t ⟨p⟩ stack = .ok (t.walk (nibble id) p.length, stack') ∧
      stack'.map Prod.fst = (nodesTowards id t p.length).reverse ++ stack.map Prod.fst := by
  induction t generalizing p stack with
  | null | leaf l => exact ⟨_, rfl, rfl⟩
  | inner h c ih =>
    by_cases hn : c (nibble id p.length) = null
    · rw [walkTowardsKey_null hn, Tree.walk, hn]
      exact ⟨_, rfl, by simp [nodesTowards, hn]⟩
    rw [walkTowardsKey_inner ht.2.1 hn]
    obtain ⟨stack', hw, hns⟩ := ih (nibble id p.length) (ht.2.2 _) ((inner h c, ⟨p⟩) :: stack)
    rw [length_append] at hw hns
    exact ⟨stack', hw, by simp [hns, nodesTowards]⟩

variable {m : SHAMap} {b : SHAMapLeafNode}

lemma findKey_eq (hm : IsCanonical m.root) (id : Uint256) :
    ∃ found, findKey m id = .ok found ∧ ∀ l, found = some l ↔ (Mem l m.root ∧ leafKey l = id) := by
  obtain ⟨stack, hw, -⟩ := walk_found id hm.isPlaced []
  refine ⟨(m.root.walk (nibble id) 0).filter fun l => l.item.key = id, ?_, ?_⟩
  · show (walkTowardsKey id m.root ⟨[]⟩ [] >>= _) = _
    rw [hw]
    rfl
  intro l
  rw [Option.filter_eq_some_iff]
  constructor
  · intro h
    exact ⟨mem_of_walk h.1, by simpa [leafKey] using h.2⟩
  intro h
  obtain ⟨h1, h2⟩ := h
  have := hm.walk_of_mem h1
  rw [h2] at this
  exact ⟨this, by simpa [leafKey] using h2⟩

section Add

variable [Sha512Half] {type : SHAMapNodeType} {item : SHAMapItem}

/-- The nodes pushed by `splitLoop`, put together by `dirtyUp`, are those of `split`. -/
private lemma splitLoop_eq {other : SHAMapItem} {f : Nat} (hf : f = kLeafDepth - p.length)
    (h : ∃ e, p.length ≤ e ∧ e < p.length + f ∧ nibble item.key e ≠ nibble other.key e) (stack : NodeStack) :
    ∃ q stack', splitLoop item.key other.key f ⟨p⟩ stack = .ok (⟨q⟩, stack') ∧
      dirtyUp item.key stack' (setChild (setChild makeInner (nibble item.key q.length) (leaf (typedLeaf type item)))
        (nibble other.key q.length) (leaf (typedLeaf type other))) =
      dirtyUp item.key stack (split nibble leafKey 0 (typedLeaf type item) (typedLeaf type other) f p.length) := by
  induction f generalizing p stack with
  | zero => obtain ⟨e, h1, h2, -⟩ := h; omega
  | succ f ih =>
    have hlt : getDepth ⟨p⟩ < kLeafDepth := by
      show p.length < kLeafDepth
      omega
    have hka : leafKey (typedLeaf type item) = item.key := rfl
    have hkb : leafKey (typedLeaf type other) = other.key := rfl
    unfold splitLoop split
    simp only [selectBranch_mk, hka, hkb]
    by_cases hd : nibble item.key p.length = nibble other.key p.length
    · have h' : ∃ e, (p ++ [nibble item.key p.length]).length ≤ e ∧
          e < (p ++ [nibble item.key p.length]).length + f ∧ nibble item.key e ≠ nibble other.key e := by
        rw [length_append, length_singleton]
        obtain ⟨e, h1, h2, h3⟩ := h
        rcases Nat.eq_or_lt_of_le h1 with h1 | h1
        · subst h1
          exact absurd hd h3
        · exact ⟨e, h1, by omega, h3⟩
      obtain ⟨q, stack', hs, hu⟩ := ih (by rw [length_append, length_singleton]; omega) h' ((makeInner, ⟨p⟩) :: stack)
      refine ⟨q, stack', ?_, ?_⟩
      · rw [if_pos hd, getChildNodeID_of_lt hlt]
        exact hs
      · rw [hu, if_pos hd, length_append, length_singleton]
        simp only [dirtyUp, selectBranch_mk, makeInner, setChild]
    · refine ⟨p, stack, ?_, ?_⟩
      · rw [if_neg hd]
      · rw [if_neg hd]
        simp only [makeInner, setChild]

private lemma add_walk (m : SHAMap) (htp : type ≠ .tnInner)
    (ht : IsPlaced p t) (hn : t ≠ null) (hty : ∀ l, Mem l t → l = typedLeaf type l.item)
    (hf : ∀ l, Mem l t → leafKey l ≠ item.key) (hp : Under nibble p item.key) (stack : NodeStack) :
    (walkTowardsKey item.key t ⟨p⟩ stack >>= fun r => addOnTop m type item r.2) =
      .ok (true, ⟨dirtyUp item.key stack (insertAt nibble leafKey 0 kLeafDepth (typedLeaf type item) t p.length)⟩) := by
  induction t generalizing p stack with
  | null => exact absurd rfl hn
  | leaf l =>
    have hl := hty l rfl
    have hk : l.item.key ≠ item.key := hf l rfl
    have hd := exists_digit_ne nibble_inj hk.symm hp ht
    obtain ⟨q, stack', hs, hu⟩ : ∃ q stack', splitLoop item.key l.item.key _ ⟨p⟩ stack = .ok (⟨q⟩, stack') ∧ _ :=
      splitLoop_eq rfl hd stack
    show addOnTop m type item ((leaf l, ⟨p⟩) :: stack) = _
    simp only [addOnTop]
    rw [if_neg hk]
    show (splitLoop item.key l.item.key (kLeafDepth - p.length) ⟨p⟩ stack >>= _) = _
    rw [hs, makeTypedLeaf_of_ne htp, makeTypedLeaf_of_ne htp]
    show Except.ok (true, SHAMap.mk (dirtyUp _ _ _)) = _
    rw [selectBranch_mk, selectBranch_mk, hu, ← hl]
    rfl
  | inner h c ih =>
    by_cases hb : c (nibble item.key p.length) = null
    · rw [walkTowardsKey_null hb]
      show (makeTypedLeaf type item >>= _) = _
      rw [makeTypedLeaf_of_ne htp]
      simp only [show leafKey (typedLeaf type item) = item.key from rfl, hb, insertAt]
      rw [selectBranch_mk]
      rfl
    · rw [walkTowardsKey_inner ht.2.1 hb]
      have := ih (nibble item.key p.length) (ht.2.2 _) hb (fun l hl => hty l ⟨_, hl⟩)
        (fun l hl => hf l ⟨_, hl⟩) ((under_concat nibble).2 ⟨hp, rfl⟩) ((inner h c, ⟨p⟩) :: stack)
      rw [this, dirtyUp, selectBranch_mk, length_append]
      rfl

lemma addGiveItem_fresh (hm : IsCanonical m.root) (ht : type ≠ .tnInner)
    (hty : ∀ l, Mem l m.root → l = typedLeaf type l.item) (hf : ∀ l, Mem l m.root → leafKey l ≠ item.key) :
    addGiveItem m type item = .ok (true, ⟨insertAt nibble leafKey 0 kLeafDepth (typedLeaf type item) m.root 0⟩) := by
  exact add_walk m ht hm.isPlaced hm.ne_null hty hf (under_nil nibble _) []

end Add

/-- The walk towards a key that is not stored ends on a node for which an operation `f` has nothing to do, and so
does the walk to a leaf. -/
private lemma walk_absent {R : Type} {r : R} {f : NodeStack → Except SHAMapError R}
    (hle : ∀ l nodeID stack, leafKey l ≠ id → f ((leaf l, nodeID) :: stack) = .ok r)
    (hi : ∀ h c nodeID stack, f ((inner h c, nodeID) :: stack) = .ok r)
    (ht : IsPlaced p t) (hn : t ≠ null)
    (ha : ∀ l, Mem l t → leafKey l ≠ id) (stack : NodeStack) :
    (walkTowardsKey id t ⟨p⟩ stack >>= fun w => f w.2) = .ok r := by
  induction t generalizing p stack with
  | null => exact absurd rfl hn
  | leaf l => exact hle l _ _ (ha l rfl)
  | inner h c ih =>
    by_cases hb : c (nibble id p.length) = null
    · rw [walkTowardsKey_null hb]
      exact hi h c _ _
    · rw [walkTowardsKey_inner ht.2.1 hb]
      exact ih _ (ht.2.2 _) hb (fun l hl => ha l ⟨_, hl⟩) _

private lemma mem_child_of_placed (ht : IsPlaced p (inner h c)) {l : SHAMapLeafNode}
    (hl : Mem l (inner h c)) : Mem l (c (nibble (leafKey l) p.length)) := by
  have under : ∀ {q : List (Fin kBranchFactor)} {t : SHAMapTreeNode}, IsPlaced q t → Mem l t →
      Under nibble q (leafKey l) := by
    intro q t hq hm
    induction t generalizing q with
    | null => exact absurd hm mem_null
    | leaf a => cases hm; exact hq
    | inner h c ih =>
      obtain ⟨i, hi⟩ := hm
      exact ((under_concat nibble).1 (ih i (hq.2.2 i) hi)).1
  obtain ⟨i, hi⟩ := hl
  have := ((under_concat nibble).1 (under (ht.2.2 i) hi)).2
  rwa [this]

private lemma walk_stored (ht : IsPlaced p t) (hb : Mem b t) (stack : NodeStack) :
    ∃ nodeID stack', walkTowardsKey (leafKey b) t ⟨p⟩ stack = .ok (some b, (leaf b, nodeID) :: stack') := by
  induction t generalizing p stack with
  | null => exact absurd hb mem_null
  | leaf l =>
    obtain rfl : b = l := hb
    exact ⟨_, _, rfl⟩
  | inner h c ih =>
    have hb' := mem_child_of_placed ht hb
    rw [walkTowardsKey_inner ht.2.1 (ne_null_of_mem hb')]
    exact ih _ (ht.2.2 _) hb' _

lemma addGiveItem_stored [Sha512Half] {type : SHAMapNodeType} {item : SHAMapItem}
    (hm : IsCanonical m.root) (hb : Mem b m.root) (hk : leafKey b = item.key) :
    addGiveItem m type item = .ok (false, m) := by
  obtain ⟨nodeID, stack, hw⟩ := walk_stored hm.isPlaced hb []
  rw [hk] at hw
  show (walkTowardsKey item.key m.root ⟨[]⟩ [] >>= fun r => addOnTop m type item r.2) = _
  rw [hw]
  exact if_pos hk

private lemma onlyBelow_eq (t : SHAMapTreeNode) : onlyBelow t = t.sole.map fun l => l.item := by
  induction t with
  | null => rfl
  | leaf l => rfl
  | inner h c ih =>
    unfold onlyBelow sole
    rcases branches c with _ | ⟨i, _ | ⟨j, rest⟩⟩
    · rfl
    · exact ih i
    · rfl

section Delete

variable [Sha512Half] {type : SHAMapNodeType}

/-- What `delItem` hands up is the pruned node. -/
private lemma pullUp_eq (ht : type ≠ .tnInner) (hty : ∀ l, Mem l (inner h c) → l = typedLeaf type l.item) :
    pullUp type (inner h c) = .ok (prune (inner h c)) := by
  unfold pullUp getBranchCount
  rcases hb : branches c with _ | ⟨i, _ | ⟨j, rest⟩⟩
  · simp [prune, hb]
  · rcases hs : sole (inner h c) with _ | l
    · have ho : onlyBelow (inner h c) = none := by rw [onlyBelow_eq, hs]; rfl
      simp [prune, hb, hs, ho]
    · have ho : onlyBelow (inner h c) = some l.item := by rw [onlyBelow_eq, hs]; rfl
      have hl := hty l ((mem_of_sole hs).2 rfl)
      simp [prune, hb, hs, ho, makeTypedLeaf_of_ne ht, ← hl]
  · simp [prune, hb]

private lemma del_walk (m : SHAMap) (htp : type ≠ .tnInner)
    (hp : p ≠ []) (ht : IsPlaced p t) (htyp : ∀ l, Mem l t → l = typedLeaf type l.item)
    (hb : Mem b t) (stack : NodeStack) :
    (walkTowardsKey (leafKey b) t ⟨p⟩ stack >>= fun r => delOnTop m (leafKey b) r.2) =
      (delLoop type (leafKey b) stack (eraseAt nibble 0 (leafKey b) t p.length) m.root >>=
        fun root => .ok (true, ⟨root⟩)) := by
  induction t generalizing p stack with
  | null => exact absurd hb mem_null
  | leaf l =>
    obtain rfl : b = l := hb
    have hty : b.type = type := by rw [htyp b rfl]; rfl
    show delOnTop m (leafKey b) ((leaf b, ⟨p⟩) :: stack) = _
    simp only [delOnTop, leafKey, ne_eq, hty]
    rfl
  | inner h c ih =>
    have hb' := mem_child_of_placed ht hb
    have hr : isRoot ⟨p⟩ = false := by
      simpa [isRoot, getDepth] using hp
    have hlen : p.length ≠ 0 := fun h0 => hp (eq_nil_of_length_eq_zero h0)
    rw [walkTowardsKey_inner ht.2.1 (ne_null_of_mem hb'),
      ih _ (by simp) (ht.2.2 _) (fun l hl => htyp l ⟨_, hl⟩) hb' ((inner h c, ⟨p⟩) :: stack)]
    rw [length_append, delLoop]
    simp only [hr, selectBranch_mk, setChild]
    rw [pullUp_eq htp]
    · simp only [eraseAt, hlen]
      rfl
    intro l hl
    apply htyp
    rcases mem_inner_update.1 hl with h1 | h1
    · exact ⟨_, mem_of_mem_eraseAt h1⟩
    · obtain ⟨j, -, hj⟩ := h1
      exact ⟨j, hj⟩

lemma delItem_stored (hm : IsCanonical m.root) (ht : type ≠ .tnInner)
    (hty : ∀ l, Mem l m.root → l = typedLeaf type l.item) (hb : Mem b m.root) :
    delItem m (leafKey b) = .ok (true, ⟨eraseAt nibble 0 (leafKey b) m.root 0⟩) := by
  have hpl := hm.isPlaced
  obtain ⟨c, hc, -⟩ := hm
  rw [hc] at hpl hty hb
  have hb' := mem_child_of_placed hpl hb
  show (walkTowardsKey (leafKey b) m.root ⟨[]⟩ [] >>= fun r => delOnTop m (leafKey b) r.2) = _
  rw [hc, walkTowardsKey_inner (p := []) (by decide) (ne_null_of_mem hb')]
  rw [del_walk m ht (by simp) (hpl.2.2 _) (fun l hl => hty l ⟨_, hl⟩) hb']
  rfl

lemma delItem_absent (hm : IsCanonical m.root)
    (ha : ∀ l, Mem l m.root → leafKey l ≠ id) : delItem m id = .ok (false, m) := by
  refine walk_absent (f := delOnTop m id) ?_ ?_ hm.isPlaced hm.ne_null ha []
  · intro l nodeID stack hl
    exact if_pos hl
  · intro h c nodeID stack
    rfl

end Delete

/-- On a stack of nodes without a cached hash it does not matter whether the hashes are reset. -/
private lemma putBack_eq_dirtyUp {target : Uint256} {stack : NodeStack}
    (h : ∀ e ∈ stack, ∃ c, e.1 = inner 0 c) (child : SHAMapTreeNode) :
    putBack target stack child = dirtyUp target stack child := by
  induction stack generalizing child with
  | nil => rfl
  | cons e stack ih =>
    obtain ⟨node, nodeID⟩ := e
    obtain ⟨c, hc⟩ := h _ mem_cons_self
    obtain rfl : node = inner 0 c := hc
    exact ih (fun e he => h e (mem_cons_of_mem _ he)) _

section Update

variable [Sha512Half] {type : SHAMapNodeType} {item : SHAMapItem}

private lemma update_walk (m : SHAMap) (ht : IsPlaced p t)
    (htp : ∀ l, Mem l t → l = typedLeaf type l.item) (hb : Mem b t)
    (hk : leafKey b = item.key) (stack : NodeStack) (hs : ∀ e ∈ stack, ∃ c, e.1 = inner 0 c) :
    (walkTowardsKey item.key t ⟨p⟩ stack >>= fun r => updateOnTop m type item r.2) =
      .ok (true, ⟨dirtyUp item.key stack (replaceAt nibble leafKey 0 (typedLeaf type item) t p.length)⟩) := by
  induction t generalizing p stack with
  | null => exact absurd hb mem_null
  | leaf l =>
    obtain rfl : b = l := hb
    have hty : b.type = type := by rw [htp b rfl]; rfl
    have hkey : b.item.key = item.key := hk
    have hset : setItem b item = (decide (b.hash ≠ leafHash type item), typedLeaf type item) := by
      simp only [setItem, hty, typedLeaf]
    show updateOnTop m type item ((leaf b, ⟨p⟩) :: stack) = _
    simp only [updateOnTop, hkey, hty, hset, ne_eq, not_true_eq_false, ↓reduceIte, replaceAt]
    rw [putBack_eq_dirtyUp hs, ite_self]
  | inner h c ih =>
    have hb' := mem_child_of_placed ht hb
    rw [hk] at hb'
    obtain rfl : h = 0 := ht.1
    have hstk' : ∀ e ∈ ((inner 0 c, ⟨p⟩) :: stack : NodeStack), ∃ c, e.1 = inner 0 c := by
      intro e he
      rcases mem_cons.1 he with rfl | he
      · exact ⟨c, rfl⟩
      · exact hs e he
    rw [walkTowardsKey_inner ht.2.1 (ne_null_of_mem hb'),
      ih _ (ht.2.2 _) (fun l hl => htp l ⟨_, hl⟩) hb' _ hstk']
    rw [dirtyUp, selectBranch_mk, length_append]
    rfl

lemma updateGiveItem_stored (hm : IsCanonical m.root)
    (hty : ∀ l, Mem l m.root → l = typedLeaf type l.item) (hb : Mem b m.root)
    (hk : leafKey b = item.key) :
    updateGiveItem m type item = .ok (true, ⟨replaceAt nibble leafKey 0 (typedLeaf type item) m.root 0⟩) :=
  update_walk m hm.isPlaced hty hb hk [] fun _ he => absurd he not_mem_nil

lemma updateGiveItem_absent (hm : IsCanonical m.root)
    (ha : ∀ l, Mem l m.root → leafKey l ≠ item.key) : updateGiveItem m type item = .ok (false, m) := by
  refine walk_absent (f := updateOnTop m type item) ?_ ?_ hm.isPlaced hm.ne_null ha []
  · intro l nodeID stack hl
    exact if_pos hl
  · intro h c nodeID stack
    rfl

end Update

end Xrpl.SHAMap

import Xrpl.Lib.HashMap
import Xrpl.SHAMap.NodeHash

/-!
# The differences of two SHAMaps

`compare` walks two maps side by side, pair by pair, and skips the branches whose hashes agree; `walkBranch` lists
one subtree against an empty branch or a single item of the other map.  Both write into one table of differences and
give up when the table has `maxCount` entries.

The two walks are analysed in two steps.  Whatever the shapes of the subtrees, a walk notes the entries of one list,
one after the other, until the limit is reached (`walkBranch_eq`, `compareLoop_eq`).  That list holds each key on
which the two subtrees differ once, with the items of both sides (`IsDifference`).
-/

namespace Xrpl.SHAMap

open RadixTree.Tree List

/-- The item of the first map and the item of the second; a null pointer is `none`. -/
abbrev DeltaItem := Option SHAMapItem × Option SHAMapItem

/-- The table of differences; `insert` keeps the entry a key already has. -/
abbrev Delta := HashMap Uint256 DeltaItem

/-- The variables that the two walks share. -/
structure Progress where
  differences : Delta
  maxCount : Int

/-- Why a walk ends early: the limit is reached (`return false`), or an exception. -/
inductive Halt where
  | limit (differences : Delta)
  | thrown (error : SHAMapError)

/-- `differences.insert(…); if (--maxCount <= 0) return false;` -/
def note (p : Progress) (key : Uint256) (d : DeltaItem) : Except Halt Progress :=
  let differences := p.differences.emplace key d
  let maxCount := p.maxCount - 1
  if maxCount ≤ 0 then .error (.limit differences) else .ok ⟨differences, maxCount⟩

/-- The items of the walked map and of the other one, put on their sides. -/
def sided (isFirstMap : Bool) (item other : Option SHAMapItem) : DeltaItem :=
  if isFirstMap then (item, other) else (other, item)

/-- The stack after the non-empty branches of a node have been pushed in order. -/
def pushBranches (c : Fin kBranchFactor → SHAMapTreeNode) (nodeStack : List SHAMapTreeNode) : List SHAMapTreeNode :=
  ((branches c).map c).reverse ++ nodeStack

/-- The loop of `walkBranch` and what follows it, with the nodes on the stack still to be visited. -/
def walkBranchLoop (otherMapItem : Option SHAMapItem) (isFirstMap : Bool) :
    List SHAMapTreeNode → Bool → Progress → Except Halt Progress
  | [], emptyBranch, p =>
    match emptyBranch, otherMapItem with
    | false, some other => note p other.key (sided isFirstMap none (some other))
    | _, _ => .ok p
  | .inner _ c :: nodeStack, emptyBranch, p =>
    walkBranchLoop otherMapItem isFirstMap (pushBranches c nodeStack) emptyBranch p
  | .leaf l :: nodeStack, emptyBranch, p =>
    match if emptyBranch then none else otherMapItem with
    | none => do
      let p ← note p l.item.key (sided isFirstMap (some l.item) none)
      walkBranchLoop otherMapItem isFirstMap nodeStack emptyBranch p
    | some other =>
      if l.item.key ≠ other.key then do
        let p ← note p l.item.key (sided isFirstMap (some l.item) none)
        walkBranchLoop otherMapItem isFirstMap nodeStack emptyBranch p
      else if l.item.data ≠ other.data then do
        let p ← note p l.item.key (sided isFirstMap (some l.item) (some other))
        walkBranchLoop otherMapItem isFirstMap nodeStack true p
      else walkBranchLoop otherMapItem isFirstMap nodeStack true p
  | .null :: nodeStack, emptyBranch, p => walkBranchLoop otherMapItem isFirstMap nodeStack emptyBranch p
termination_by nodeStack => (nodeStack.map size).sum
decreasing_by
  · have : ((branches c).map fun i => (c i).size).sum ≤ _ := sum_size_le_of_sublist c filter_sublist
    simp [pushBranches, Function.comp_def, size]
    omega
  all_goals
    simp only [map_cons, sum_cons, size]
    omega

/-- List a subtree that is matched by an empty branch or a single item in the other map. -/
def walkBranch (node : SHAMapTreeNode) (otherMapItem : Option SHAMapItem) (isFirstMap : Bool) (p : Progress) :
    Except Halt Progress :=
  walkBranchLoop otherMapItem isFirstMap [node] otherMapItem.isNone p

def compareLeaves (ours other : SHAMapItem) (p : Progress) : Except Halt Progress :=
  if ours.key = other.key then
    if ours.data ≠ other.data then note p ours.key (some ours, some other) else .ok p
  else do
    let p ← note p ours.key (some ours, none)
    note p other.key (none, some other)

section Hashing

variable [Sha512Half]

/-- One branch of two inner nodes whose hashes differ, unless both are non-empty. -/
def compareBranch (c c' : Fin kBranchFactor → SHAMapTreeNode) (p : Progress) (i : Fin kBranchFactor) :
    Except Halt Progress :=
  if updateHashDeep (c i) ≠ updateHashDeep (c' i) then
    if (c' i).isNull then walkBranch (c i) none true p
    else if (c i).isNull then walkBranch (c' i) none false p
    else .ok p
  else .ok p

/-- Whether two inner nodes both have the branch `i`, with different hashes. -/
def differ (c c' : Fin kBranchFactor → SHAMapTreeNode) (i : Fin kBranchFactor) : Bool :=
  updateHashDeep (c i) ≠ updateHashDeep (c' i) && !(c' i).isNull && !(c i).isNull

lemma differ_iff {c c' : Fin kBranchFactor → SHAMapTreeNode} {i : Fin kBranchFactor} :
    differ c c' i = true ↔ updateHashDeep (c i) ≠ updateHashDeep (c' i) ∧ c' i ≠ null ∧ c i ≠ null := by
  simp [differ, isNull_eq_false_iff, and_assoc]

/-- The branches for which `compare` pushes a pair. -/
def differing (c c' : Fin kBranchFactor → SHAMapTreeNode) : List (Fin kBranchFactor) :=
  (finRange kBranchFactor).filter (differ c c')

/-- The loop of `compare`.  What the loop over the branches pushes does not depend on what it notes, so the pairs are
collected apart.  The hash of a child is up to date in both parents: `getHash` has been called on both maps. -/
def compareLoop : List (SHAMapTreeNode × SHAMapTreeNode) → Progress → Except Halt Progress
  | [], p => .ok p
  | (.leaf ours, .leaf other) :: nodeStack, p => do
    let p ← compareLeaves ours.item other.item p
    compareLoop nodeStack p
  | (.inner h c, .leaf other) :: nodeStack, p => do
    let p ← walkBranch (inner h c) (some other.item) true p
    compareLoop nodeStack p
  | (.leaf ours, .inner h c) :: nodeStack, p => do
    let p ← walkBranch (inner h c) (some ours.item) false p
    compareLoop nodeStack p
  | (.inner _ c, .inner _ c') :: nodeStack, p => do
    let p ← (finRange kBranchFactor).foldlM (compareBranch c c') p
    compareLoop (((differing c c').map fun i => (c i, c' i)).reverse ++ nodeStack) p
  | (.null, _) :: _, _ => .error (.thrown (.missingNode 0))
  | (_, .null) :: _, _ => .error (.thrown (.missingNode 0))
termination_by nodeStack => (nodeStack.map fun pair => pair.1.size).sum
decreasing_by
  all_goals simp only [map_cons, sum_cons, map_append, sum_append, size]
  · omega
  · omega
  · omega
  have : ((differing c c').map fun i => (c i).size).sum ≤ _ := sum_size_le_of_sublist c filter_sublist
  rw [map_reverse, sum_reverse, map_map]
  simp only [Function.comp_def]
  omega

/-- What `compare` returns and leaves in the table at the end of its loop. -/
def report : Except Halt Progress → Except SHAMapError (Bool × Delta)
  | .ok p => .ok (true, p.differences)
  | .error (.limit differences) => .ok (false, differences)
  | .error (.thrown e) => .error e

def compare (m otherMap : SHAMap) (differences : Delta) (maxCount : Int) : Except SHAMapError (Bool × Delta) :=
  if getHash m = getHash otherMap then .ok (true, differences)
  else report (compareLoop [(m.root, otherMap.root)] ⟨differences, maxCount⟩)

end Hashing

/-! ### A walk notes one list -/

def noteAll (l : List (Uint256 × DeltaItem)) (p : Progress) : Except Halt Progress :=
  l.foldlM (fun p e => note p e.1 e.2) p

lemma noteAll_cons (e : Uint256 × DeltaItem) (l : List (Uint256 × DeltaItem)) (p : Progress) :
    noteAll (e :: l) p = note p e.1 e.2 >>= noteAll l := foldlM_cons

private lemma noteAll_singleton (e : Uint256 × DeltaItem) (p : Progress) : noteAll [e] p = note p e.1 e.2 := bind_pure _

private lemma noteAll_append (l l' : List (Uint256 × DeltaItem)) (p : Progress) :
    noteAll (l ++ l') p = noteAll l p >>= noteAll l' := foldlM_append

/-- The items of a subtree in the order of the walk: the last branch is on top of the stack. -/
def visited (t : SHAMapTreeNode) : List SHAMapItem := (t.entries.map fun l => l.item).reverse

/-- What `walkBranch` notes for the visited items; `other` is the item still to be matched. -/
def branchDiff (isFirstMap : Bool) : Option SHAMapItem → List SHAMapItem → List (Uint256 × DeltaItem)
  | none, [] => []
  | some other, [] => [(other.key, sided isFirstMap none (some other))]
  | none, item :: items => (item.key, sided isFirstMap (some item) none) :: branchDiff isFirstMap none items
  | some other, item :: items =>
    if item.key ≠ other.key then
      (item.key, sided isFirstMap (some item) none) :: branchDiff isFirstMap (some other) items
    else if item.data ≠ other.data then
      (item.key, sided isFirstMap (some item) (some other)) :: branchDiff isFirstMap none items
    else branchDiff isFirstMap none items

private lemma flatMap_visited_pushBranches (h : Uint256) (c : Fin kBranchFactor → SHAMapTreeNode)
    (nodeStack : List SHAMapTreeNode) :
    (pushBranches c nodeStack).flatMap visited = visited (inner h c) ++ nodeStack.flatMap visited := by
  rw [pushBranches, flatMap_append]
  congr 1
  rw [visited, entries_eq_branches]
  induction branches c with
  | nil => rfl
  | cons i l ih => simp [ih, visited]

private lemma walkBranchLoop_eq (otherMapItem : Option SHAMapItem) (isFirstMap : Bool) (nodeStack : List SHAMapTreeNode)
    (emptyBranch : Bool) (p : Progress) :
    walkBranchLoop otherMapItem isFirstMap nodeStack emptyBranch p =
      noteAll (branchDiff isFirstMap (if emptyBranch then none else otherMapItem) (nodeStack.flatMap visited)) p := by
  fun_induction walkBranchLoop otherMapItem isFirstMap nodeStack emptyBranch p with
  | case1 p other ho =>
    subst ho
    exact (noteAll_singleton (_, _) p).symm
  | case2 emptyBranch p hm =>
    have hn : (if emptyBranch = true then none else otherMapItem) = none := by
      cases emptyBranch with
      | true => rfl
      | false => exact Option.eq_none_iff_forall_ne_some.2 fun other => hm other rfl
    rw [hn]
    rfl
  | case3 h c nodeStack emptyBranch p ih =>
    rw [ih, flatMap_visited_pushBranches h, flatMap_cons]
  | case4 l nodeStack emptyBranch p ho ih =>
    rw [dite_eq_ite] at ho
    rw [ho]
    simp only [ho] at ih
    simp only [ih]
    rfl
  | case5 l nodeStack emptyBranch p other ho hk ih =>
    rw [dite_eq_ite] at ho
    rw [flatMap_cons, ho]
    simp only [ho] at ih
    simp only [ih]
    show _ = noteAll (branchDiff isFirstMap (some other) (l.item :: _)) p
    rw [branchDiff, if_pos hk]
    rfl
  | case6 l nodeStack emptyBranch p other ho hk hd ih =>
    rw [dite_eq_ite] at ho
    rw [flatMap_cons, ho]
    simp only [ih]
    show _ = noteAll (branchDiff isFirstMap (some other) (l.item :: _)) p
    rw [branchDiff, if_neg hk, if_pos hd]
    rfl
  | case7 l nodeStack emptyBranch p other ho hk hd ih =>
    rw [dite_eq_ite] at ho
    rw [ho, ih]
    show _ = noteAll (branchDiff isFirstMap (some other) (l.item :: _)) p
    rw [branchDiff, if_neg hk, if_neg hd]
    rfl
  | case8 nodeStack emptyBranch p ih => exact ih

private lemma walkBranch_eq (node : SHAMapTreeNode) (otherMapItem : Option SHAMapItem) (isFirstMap : Bool)
    (p : Progress) :
    walkBranch node otherMapItem isFirstMap p = noteAll (branchDiff isFirstMap otherMapItem (visited node)) p := by
  rw [walkBranch, walkBranchLoop_eq]
  cases otherMapItem <;> simp

private lemma compareLeaves_eq (ours other : SHAMapItem) (p : Progress) :
    compareLeaves ours other p = noteAll (branchDiff true (some other) [ours]) p := by
  rw [compareLeaves, branchDiff]
  by_cases hk : ours.key = other.key
  · rw [if_pos hk, if_neg (not_not_intro hk)]
    split
    · exact (noteAll_singleton (_, _) p).symm
    · rfl
  · rw [if_neg hk, if_pos hk]
    congr 1
    funext p
    exact (noteAll_singleton (_, _) p).symm

section Hashing

variable [Sha512Half]

/-- What `compare` notes for the branch `i` of two inner nodes if one of them does not have it. -/
def oneSided (c c' : Fin kBranchFactor → SHAMapTreeNode) (i : Fin kBranchFactor) : List (Uint256 × DeltaItem) :=
  if updateHashDeep (c i) ≠ updateHashDeep (c' i) then
    if (c' i).isNull then branchDiff true none (visited (c i))
    else if (c i).isNull then branchDiff false none (visited (c' i))
    else []
  else []

/-- What `compare` notes for one pair of nodes, the pairs pushed for it included. -/
def treeDiff : SHAMapTreeNode → SHAMapTreeNode → List (Uint256 × DeltaItem)
  | .leaf ours, .leaf other => branchDiff true (some other.item) [ours.item]
  | .inner h c, .leaf other => branchDiff true (some other.item) (visited (inner h c))
  | .leaf ours, .inner h c => branchDiff false (some ours.item) (visited (inner h c))
  | .inner _ c, .inner _ c' =>
    (finRange kBranchFactor).flatMap (oneSided c c') ++
      (differing c c').reverse.flatMap fun i => treeDiff (c i) (c' i)
  | _, _ => []

private lemma foldlM_compareBranch (c c' : Fin kBranchFactor → SHAMapTreeNode) (l : List (Fin kBranchFactor))
    (p : Progress) :
    l.foldlM (compareBranch c c') p = noteAll (l.flatMap (oneSided c c')) p := by
  induction l generalizing p with
  | nil => rfl
  | cons i l ih =>
    rw [foldlM_cons, flatMap_cons, noteAll_append]
    congr 1
    · rw [compareBranch, oneSided]
      split_ifs
      · exact walkBranch_eq _ _ _ _
      · exact walkBranch_eq _ _ _ _
      · rfl
      · rfl
    · funext p
      exact ih p

lemma compareLoop_eq (nodeStack : List (SHAMapTreeNode × SHAMapTreeNode)) (p : Progress)
    (hns : ∀ pair ∈ nodeStack, pair.1 ≠ null ∧ pair.2 ≠ null) :
    compareLoop nodeStack p = noteAll (nodeStack.flatMap fun pair => treeDiff pair.1 pair.2) p := by
  fun_induction compareLoop nodeStack p with
  | case1 p => rfl
  | case2 ours other nodeStack p ih =>
    rw [compareLeaves_eq, flatMap_cons, noteAll_append]
    congr 1
    funext p
    exact ih p fun pair hp => hns pair (mem_cons_of_mem _ hp)
  | case3 h c other nodeStack p ih | case4 ours h c nodeStack p ih =>
    rw [walkBranch_eq, flatMap_cons, noteAll_append]
    congr 1
    funext p
    exact ih p fun pair hp => hns pair (mem_cons_of_mem _ hp)
  | case5 h c h' c' nodeStack p ih =>
    rw [foldlM_compareBranch, flatMap_cons, noteAll_append, treeDiff, noteAll_append, bind_assoc]
    congr 1
    funext p
    have hpu : ∀ pair ∈ ((differing c c').map fun i => (c i, c' i)).reverse ++ nodeStack,
        pair.1 ≠ null ∧ pair.2 ≠ null := by
      intro pair hp
      rcases mem_append.1 hp with hp | hp
      · obtain ⟨i, hi, rfl⟩ := mem_map.1 (mem_reverse.1 hp)
        obtain ⟨-, hn', hn⟩ := differ_iff.1 (mem_filter.1 hi).2
        exact ⟨hn, hn'⟩
      · exact hns pair (mem_cons_of_mem _ hp)
    rw [ih p hpu, flatMap_append, noteAll_append, ← map_reverse, flatMap_map]
  | case6 other nodeStack p => exact absurd rfl (hns _ mem_cons_self).1
  | case7 ours nodeStack p => exact absurd rfl (hns _ mem_cons_self).2

end Hashing

end Xrpl.SHAMap

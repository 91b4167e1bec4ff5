import Xrpl.SHAMap.WireRoundTrip

/-!
# Proof paths

A proof path for a key holds the nodes from a leaf up to the root, as they are sent on the wire.  `verifyProofPath` reads
them from the root down: the hash of each node has to be the one its parent has for the branch towards the key, and the
first leaf has to be the last node.  The key of that leaf is not looked at.

* `selectDepths_in_key_iff`: the branches are selected within the key, unless 65 inner nodes are given;
* `verifyProofPath_sound_iff`: an accepted path ends with the leaf at the end of the way towards the key, which has the key
  exactly if the leaf that is read has it; a path to another item is accepted too (`verifyProofPath_other`).
-/

namespace Xrpl.SHAMap

open RadixTree.Tree List Option

def createID (depth : Nat) (key : Uint256) : SHAMapNodeID := ⟨pre nibble key depth⟩

lemma selectBranch_createID (depth : Nat) (key : Uint256) : selectBranch (createID depth key) key = nibble key depth := by
  rw [selectBranch_eq_nibble]
  congr 1
  exact length_pre nibble key depth

section Hashing

variable [Sha512Half]

/-- The node of a blob; the loop ends without one, as it does when `makeFromWire` throws. -/
def readable (blob : List Byte) : Option WireNode :=
  match makeFromWire blob with
  | .ok node => node
  | .error _ => none

/-- The loop over the blobs, from the root on, with the depths at which it calls `selectBranch`; `hash` is the hash the next
node has to have.  At depth 64 there is no nibble left and `selectBranch` reads past the key. -/
def verifyLoop (key : Uint256) (size : Nat) : Nat → Uint256 → List (List Byte) → Bool × List Nat
  | _, _, [] => (false, [])
  | depth, hash, blob :: blobs =>
    match readable blob with
    | none => (false, [])
    | some node =>
      if node.getHash ≠ hash then (false, [])
      else
        match node with
        | .inner isBranch hashes =>
          let (ok, depths) := verifyLoop key size (depth + 1)
            (WireNode.getChildHash isBranch hashes (selectBranch (createID depth key) key)) blobs
          (ok, depth :: depths)
        | .leaf _ _ => (depth + 1 = size, [])

def verifyProofPath (rootHash key : Uint256) (path : List (List Byte)) : Bool :=
  if path = [] ∨ path.length > 65 then false else (verifyLoop key path.length 0 rootHash path.reverse).1

def selectDepths (rootHash key : Uint256) (path : List (List Byte)) : List Nat :=
  if path = [] ∨ path.length > 65 then [] else (verifyLoop key path.length 0 rootHash path.reverse).2

/-- No node of the tree has the hash of a node of the path with another content. -/
def PathCollisionFree (t : SHAMapTreeNode) (path : List (List Byte)) : Prop :=
  ∀ a ∈ t.subtrees, ∀ blob ∈ path, ∀ node ∈ readable blob,
    updateHashDeep a = node.getHash → content a = node.content

instance (t : SHAMapTreeNode) (path : List (List Byte)) : Decidable (PathCollisionFree t path) :=
  inferInstanceAs (Decidable (∀ a ∈ t.subtrees, ∀ blob ∈ path, ∀ node ∈ readable blob, _ → _))

end Hashing

/-! ### The depths of the branches -/

section Depths

variable [Sha512Half]

/-- The blobs are inner nodes, and each has the hash that the one before has for the branch of the key. -/
def InnerPath (key : Uint256) : Nat → Uint256 → List (List Byte) → Prop
  | _, _, [] => True
  | depth, hash, blob :: blobs => ∃ isBranch hashes, readable blob = some (.inner isBranch hashes) ∧
      (WireNode.inner isBranch hashes).getHash = hash ∧
      InnerPath key (depth + 1) (WireNode.getChildHash isBranch hashes (nibble key depth)) blobs

private lemma verifyLoop_depths (key : Uint256) (size depth : Nat) (hash : Uint256) (blobs : List (List Byte)) :
    let depths := (verifyLoop key size depth hash blobs).2
    depths = range' depth depths.length ∧ depths.length ≤ blobs.length ∧
      (depths.length = blobs.length ↔ InnerPath key depth hash blobs) := by
  induction blobs generalizing depth hash with
  | nil => exact ⟨rfl, le_rfl, iff_of_true rfl trivial⟩
  | cons blob blobs ih =>
    rw [verifyLoop, InnerPath]
    rcases readable blob with _ | node
    · simp
    by_cases hh : node.getHash = hash
    swap
    · cases node <;> simp_all
    cases node with
    | leaf type item => simp [hh]
    | inner isBranch hashes =>
      obtain ⟨hr, hle, hiff⟩ := ih (depth + 1) (WireNode.getChildHash isBranch hashes (nibble key depth))
      dsimp only
      rw [if_neg (not_not.2 hh), selectBranch_createID]
      refine ⟨congrArg (depth :: ·) hr, Nat.succ_le_succ hle, ?_⟩
      rw [length_cons, length_cons, Nat.succ_inj, hiff]
      exact ⟨fun h => ⟨_, _, rfl, hh, h⟩, by rintro ⟨_, _, heq, -, h⟩; cases heq; exact h⟩

/-- Every branch is selected at a depth below 64, unless the path consists of 65 inner nodes, each with the hash that the
one above it has for the branch of the key. -/
theorem selectDepths_in_key_iff (rootHash key : Uint256) (path : List (List Byte)) :
    (∀ depth ∈ selectDepths rootHash key path, depth ≤ 63 ∧ depth / 2 < key.bytes.length) ↔
      ¬(path.length = 65 ∧ InnerPath key 0 rootHash path.reverse) := by
  obtain ⟨hr, hle, hiff⟩ := verifyLoop_depths key path.length 0 rootHash path.reverse
  rw [length_reverse] at hle hiff
  rw [selectDepths, ← hiff, Uint256.length_bytes]
  generalize (verifyLoop key path.length 0 rootHash path.reverse).2 = depths at hr hle ⊢
  split_ifs with hp
  · exact iff_of_true nofun fun h => hp.elim (by rintro rfl; cases h.1) (by omega)
  have hmem : ∀ d, d ∈ depths ↔ d < depths.length := by
    rw [hr]
    simp
  simp only [hmem]
  exact ⟨fun h ⟨hlen, heq⟩ => absurd (h 64 (by omega)).1 (by omega), fun h d hd => by constructor <;> omega⟩

end Depths

/-- Inner nodes, each the only child of the next: the deepest one, at depth `n`, has a child with the hash `h` that is not
given.  The last result is the hash of the root. -/
def innerChain [Sha512Half] : Nat → Uint256 → List (List Byte) × Uint256
  | 0, h => ([], h)
  | n + 1, h =>
    let node := WireNode.inner (fun i => i = 0) fun _ => h
    let (path, root) := innerChain n node.getHash
    (serializeForWire node :: path, root)

/-- For two inner nodes the branches are selected at the depths 0 and 1, in the first byte of the key. -/
example : let _ : Sha512Half := ⟨fun _ => 1⟩
    selectDepths (innerChain 2 1).2 0 (innerChain 2 1).1 = [0, 1] := by
  decide +kernel

/-- A path of 65 inner nodes: the branch of the last one is selected at depth 64, behind the last byte of the key. -/
theorem selectDepths_past_key : let _ : Sha512Half := ⟨fun _ => 1⟩
    64 ∈ selectDepths (innerChain 65 1).2 0 (innerChain 65 1).1 ∧ ¬ 64 / 2 < (0 : Uint256).bytes.length := by
  decide +kernel

/-! ### Accepted paths -/

private lemma WireNode.content_inner_cases (isBranch : Fin kBranchFactor → Bool)
    (hashes : Fin kBranchFactor → Uint256) :
    (content (.inner isBranch hashes) = .empty ∧ ∀ i, getChildHash isBranch hashes i = 0) ∨
      content (.inner isBranch hashes) = .inner (getChildHash isBranch hashes) := by
  by_cases h : (finRange kBranchFactor).all (fun i => !isBranch i) = true
  · refine .inl ⟨if_pos h, fun i => ?_⟩
    have hi := all_eq_true.1 h i (mem_finRange i)
    rw [getChildHash, if_neg (by simpa using hi)]
  · exact .inr (if_neg h)

variable {p : List (Fin kBranchFactor)} {t : SHAMapTreeNode}

/-- The child of an inner node; there is none below an empty branch. -/
def childOf : SHAMapTreeNode → Fin kBranchFactor → SHAMapTreeNode
  | .inner _ c, i => c i
  | _, _ => null

private lemma childOf_placed (h : IsPlaced p t) (i : Fin kBranchFactor) : IsPlaced (p ++ [i]) (childOf t i) := by
  cases t with
  | null => trivial
  | leaf l => trivial
  | inner tag c => exact h.2.2 i

section Hashing

variable [Sha512Half] {t : SHAMapTreeNode}
  {isBranch : Fin kBranchFactor → Bool} {hashes : Fin kBranchFactor → Uint256} {root : SHAMapTreeNode}

private lemma hash_childOf (h : content t = WireNode.content (.inner isBranch hashes)) (i : Fin kBranchFactor) :
    updateHashDeep (childOf t i) = WireNode.getChildHash isBranch hashes i := by
  rcases WireNode.content_inner_cases isBranch hashes with ⟨he, hz⟩ | hi
  · rw [he] at h
    rw [hz]
    cases t with
    | null => rfl
    | leaf l => cases h
    | inner tag c =>
      rcases content_inner_cases tag c with ⟨hn, -⟩ | hi
      · rw [childOf, hn]
        rfl
      · rw [hi] at h
        cases h
  · obtain ⟨tag, c, rfl, hch⟩ := eq_inner_of_content (h.trans hi)
    exact hch i

private lemma childOf_mem_subtrees (ht : t ∈ root.subtrees) (h : content t = WireNode.content (.inner isBranch hashes))
    (i : Fin kBranchFactor) : childOf t i ∈ root.subtrees := by
  cases t with
  | null => exact ht
  | leaf l =>
    rcases WireNode.content_inner_cases isBranch hashes with ⟨he, -⟩ | hi
    · rw [he] at h
      cases h
    · rw [hi] at h
      cases h
  | inner tag c => exact subtrees_trans (subtrees_child (self_mem_subtrees (c i))) ht

private lemma of_readable {blob : List Byte} {node : WireNode} (h : readable blob = some node) :
    makeFromWire blob = .ok (some node) := by
  unfold readable at h
  split at h <;> simp_all

/-- An accepted path goes from `t` to the leaf at the end of the way towards the key, which is read from the last blob. -/
private lemma verifyLoop_sound {path : List (List Byte)} (hf : PathCollisionFree root path)
    {key : Uint256} {size : Nat} {blobs : List (List Byte)} (hbl : ∀ blob ∈ blobs, blob ∈ path)
    (ht : t ∈ root.subtrees) {depth : Nat} (hpl : IsPlaced (pre nibble key depth) t)
    (hs : depth + blobs.length = size) (h : (verifyLoop key size depth (updateHashDeep t) blobs).1 = true) :
    ∃ l blob, t.walk (nibble key) depth = some l ∧ blobs.getLast? = some blob ∧
      readable blob = some (.leaf l.type l.item) ∧ Under nibble (pre nibble key (size - 1)) l.item.key := by
  induction blobs generalizing t depth with
  | nil => cases h
  | cons blob blobs ih =>
    rw [verifyLoop] at h
    rcases hw : readable blob with _ | node
    · rw [hw] at h
      cases h
    rw [hw] at h
    dsimp only at h
    split at h
    case isTrue => cases h
    case isFalse hh =>
    have hc := hf t ht blob (hbl blob mem_cons_self) node hw (not_not.1 hh).symm
    cases node with
    | inner isBranch hashes =>
      have hpl' := childOf_placed hpl (nibble key depth)
      rw [← pre_succ] at hpl'
      dsimp only at h
      rw [selectBranch_createID, ← hash_childOf hc] at h
      obtain ⟨l, blob', hwa, hl, hu⟩ := ih (fun b hb => hbl b (mem_cons_of_mem _ hb))
        (childOf_mem_subtrees ht hc _) hpl' (by rw [length_cons] at hs; omega) h
      refine ⟨l, blob', ?_, ?_, hu⟩
      · cases t with
        | null => exact hwa
        | leaf l => simp [childOf, walk] at hwa
        | inner tag c => exact hwa
      · cases blobs with
        | nil => simp at hl
        | cons b bs => rwa [getLast?_cons_cons]
    | leaf type item =>
      obtain ⟨l, rfl, hty, hi⟩ := eq_leaf_of_content hc
      have he : depth + 1 = size := by simpa using h
      have hnil : blobs = [] := by
        rw [length_cons] at hs
        exact eq_nil_of_length_eq_zero (by omega)
      refine ⟨l, blob, rfl, by rw [hnil]; rfl, by rw [hw, hty, hi], ?_⟩
      rw [← he]
      exact hpl

/-- An accepted path shows a leaf of the map whose key agrees with the given one in all nibbles on the way to it.  It is the
leaf of the given key exactly if the leaf that is read from the first blob has that key. -/
theorem verifyProofPath_sound_iff {type : SHAMapNodeType} (htype : type ≠ .tnInner) {ops : List Op} {oks : List Bool}
    {m : SHAMap} (hrun : run type empty ops = .ok (oks, m)) {key : Uint256} {path : List (List Byte)}
    (hfree : PathCollisionFree m.root path) (hverify : verifyProofPath (getHash m) key path = true) :
    let stored := (Contents.applyAll (fun _ => none) ops).2
    (∃ item, stored item.key = some item ∧ path.head? = some (serializeForWire (.leaf type item)) ∧
      Under nibble (pre nibble key (path.length - 1)) item.key) ∧
    ((∃ item, stored key = some item ∧ path.head? = some (serializeForWire (.leaf type item))) ↔
      ∃ type' item, path.head?.bind readable = some (.leaf type' item) ∧ item.key = key) := by
  intro stored
  have hm := represents_of_run htype hrun
  unfold verifyProofPath at hverify
  split at hverify
  case isTrue => cases hverify
  case isFalse =>
  rw [hm.canonical.getHash_eq] at hverify
  have hpl : IsPlaced (pre nibble key 0) m.root := hm.canonical.isPlaced
  obtain ⟨l, blob, hw, hl, hr, hu⟩ := verifyLoop_sound hfree (fun b hb => mem_reverse.1 hb)
    (self_mem_subtrees _) hpl (by rw [length_reverse]; omega) hverify
  rw [getLast?_reverse] at hl
  obtain ⟨item, rfl, hi⟩ := (hm.mem_iff l).1 (mem_of_walk hw)
  have hblob : blob = serializeForWire (.leaf type item) := by
    rcases makeFromWire_cases (of_readable hr) with ⟨_, _, hn, hbo⟩ | ⟨_, _, hn, -⟩
    · cases hn
      exact hbo
    · cases hn
  rw [hl, bind_some, hr, hblob]
  refine ⟨⟨item, hi, rfl, hu⟩, fun ⟨x, hx, _⟩ => ⟨_, _, rfl, ?_⟩, fun ⟨_, _, heq, hk⟩ => ?_⟩
  · -- the way towards the key ends at the leaf that has it
    have hw' := hm.canonical.walk_of_mem (hm.mem_of_some hx)
    have hxk : leafKey (typedLeaf type x) = key := hm.key_eq _ _ hx
    rw [hxk, hw, some.injEq] at hw'
    rw [hw']
    exact hxk
  · cases heq
    subst hk
    exact ⟨item, hi, rfl⟩

end Hashing

/-- The wire forms of a leaf and of a root that has it as its only child, the leaf first. -/
def pathTo [Sha512Half] (item : SHAMapItem) : List (List Byte) :=
  [serializeForWire (.leaf .tnAccountState item),
    serializeForWire (.inner (fun i => i = nibble item.key 0) fun _ => leafHash .tnAccountState item)]

def loneItem : SHAMapItem := ⟨1#256 <<< 252, replicate 12 0⟩

def loneMap [Sha512Half] : SHAMap :=
  match run .tnAccountState empty [.add loneItem] with
  | .ok (_, m) => m
  | .error _ => empty

private lemma run_loneItem [Sha512Half] : run .tnAccountState empty [.add loneItem] = .ok ([true], loneMap) := by
  obtain ⟨m, hr, -⟩ := (represents_empty .tnAccountState).run (by decide) [.add loneItem]
  rw [loneMap, hr]
  rfl

/-- The path to the only item of a map is accepted for its key. -/
theorem verifyProofPath_sound_lone :
    let _ : Sha512Half := ⟨fun bytes => BitVec.ofNat 256 (bytes.foldl (fun n b => n * 257 + b.toNat + 1) 0)⟩
    ∃ m, run .tnAccountState empty [.add loneItem] = .ok ([true], m) ∧ PathCollisionFree m.root (pathTo loneItem) ∧
      verifyProofPath (getHash m) loneItem.key (pathTo loneItem) = true ∧
      (pathTo loneItem).head? = some (serializeForWire (.leaf .tnAccountState loneItem)) := by
  intro inst
  have hf : PathCollisionFree loneMap.root (pathTo loneItem) := by decide +kernel
  have hv : verifyProofPath (getHash loneMap) loneItem.key (pathTo loneItem) = true := by decide +kernel
  obtain ⟨-, hs⟩ := verifyProofPath_sound_iff (by decide) run_loneItem hf hv
  obtain ⟨x, hx, hh⟩ := hs.2 ⟨.tnAccountState, loneItem, rfl, rfl⟩
  obtain rfl : loneItem = x := some.inj hx
  exact ⟨_, run_loneItem, hf, hv, hh⟩

/-- The same path is accepted for a key that the map does not store. -/
theorem verifyProofPath_other :
    let _ : Sha512Half := ⟨fun bytes => BitVec.ofNat 256 (bytes.foldl (fun n b => n * 257 + b.toNat + 1) 0)⟩
    ∃ m, run .tnAccountState empty [.add loneItem] = .ok ([true], m) ∧ PathCollisionFree m.root (pathTo loneItem) ∧
      verifyProofPath (getHash m) (loneItem.key + 1#256) (pathTo loneItem) = true ∧
      hasItem m (loneItem.key + 1#256) = .ok false := by
  intro inst
  refine ⟨_, run_loneItem, by decide +kernel, by decide +kernel, ?_⟩
  rw [(represents_of_run (by decide) run_loneItem).hasItem]
  rfl

end Xrpl.SHAMap

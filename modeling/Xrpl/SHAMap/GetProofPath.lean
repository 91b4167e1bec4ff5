import Xrpl.SHAMap.ProofPath
import Xrpl.SHAMap.Snapshot

/-!
# The proof paths that a map gives

`getProofPath` writes the nodes as they lie in the store, with the hashes that they record for their children.  `setChild`
resets such a hash and `getHash` brings it up to date, so a path that is taken before is refused (`probe_refused`).

* `run_getProofPath`: after `getHash` a map gives a path for exactly the keys that it stores, and it says when the path is
  accepted.
-/

namespace Xrpl.SHAMap

open RadixTree.Tree List Option

/-- What is sent of a node; a branch that is not there has no hash. -/
def StoredNode.toWireNode (n : StoredNode) : WireNode :=
  match n.body with
  | .leaf type item => .leaf type item
  | .inner hashes children => .inner (fun i => (children i).isSome) fun i => if (children i).isSome then hashes i else 0

/-- The nodes from the leaf of the key up to the root. -/
def Shared.getProofPath (s : NodeStore) (m : SharedMap) (key : Uint256) :
    Except SHAMapError (Option (List (List Byte))) := do
  let stack ← walkTowardsKey s key kLeafDepth m.root .root []
  match stack.map fun node => (s.cell node.1).toWireNode with
  | .leaf type item :: rest =>
    if item.key ≠ key then return none else return some ((.leaf type item :: rest).map serializeForWire)
  | _ => return none

private lemma splitTag_append (what : String) (data : List Byte) (key : Uint256) :
    splitTag what (data ++ key.bytes) = .ok (key, data) := by
  have hlen : (data ++ key.bytes).length - kBytes = data.length := by simp [kBytes]
  rw [splitTag, if_neg (by simp [kBytes]), hlen, drop_left, take_left, Uint256.ofBytes_bytes]

variable {p : List (Fin kBranchFactor)} {t : SHAMapTreeNode}

private lemma length_nodesTowards (ht : IsPlaced p t) (hp : p.length ≤ 64) (key : Uint256) :
    p.length + (nodesTowards key t p.length).length ≤ 65 := by
  induction t generalizing p with
  | null => exact hp.trans (by decide)
  | leaf l => exact Nat.succ_le_succ hp
  | inner tag c ih =>
    have hr := ih (nibble key p.length) (ht.2.2 _) (by rw [length_append]; exact ht.2.1)
    rw [length_append, length_singleton] at hr
    rw [nodesTowards, length_cons]
    omega

private lemma getLast?_nodesTowards (t : SHAMapTreeNode) (key : Uint256) (depth : Nat) (l : SHAMapLeafNode) :
    (nodesTowards key t depth).getLast? = some (leaf l) ↔ t.walk (nibble key) depth = some l := by
  induction t generalizing depth with
  | null | leaf l' => simp [nodesTowards, walk]
  | inner tag c ih =>
    have hr := ih (nibble key depth) (depth + 1)
    rw [nodesTowards, walk, ← hr]
    cases nodesTowards key (c (nibble key depth)) (depth + 1) with
    | nil => simp
    | cons node nodes => rw [getLast?_cons_cons]

/-! ### Leaves and inner nodes that are read -/

section Hashing

variable [Sha512Half]

/-- A leaf that a peer accepts: it has enough data, and an account state does not have the key zero. -/
def Sendable (type : SHAMapNodeType) (item : SHAMapItem) : Prop :=
  kMinShaMapItemBytes ≤ item.data.length ∧ (type = .tnAccountState → item.key ≠ 0)

private lemma readable_eq {blob : List Byte} {x : Except WireError WireNode} (h : makeFromWire blob = some <$> x) :
    readable blob = x.toOption := by
  rw [readable, h]
  cases x <;> rfl

private lemma readable_leaf {type : SHAMapNodeType} (item : SHAMapItem) (ht : type ≠ .tnInner) :
    (Sendable type item ∧ ∃ item', readable (serializeForWire (.leaf type item)) = some (.leaf type item') ∧
      leafHash type item' = leafHash type item) ∨
    ¬Sendable type item ∧ readable (serializeForWire (.leaf type item)) = none := by
  cases type with
  | tnInner => exact absurd rfl ht
  | tnTransactionNm =>
    have hr : makeFromWire (serializeForWire (.leaf .tnTransactionNm item)) = some <$> makeTransaction item.data := by
      rw [serializeForWire, makeFromWire, getLast?_concat, dropLast_concat]
      rfl
    rw [readable_eq hr, makeTransaction, checkItemSize]
    split_ifs with hs
    · exact .inr ⟨fun h => absurd h.1 (Nat.not_le.2 hs), rfl⟩
    · exact .inl ⟨⟨Nat.not_lt.1 hs, by simp⟩, _, rfl, rfl⟩
  | tnTransactionMd =>
    have hr : makeFromWire (serializeForWire (.leaf .tnTransactionMd item)) =
        some <$> makeTransactionWithMeta (item.data ++ item.key.bytes) := by
      rw [serializeForWire, makeFromWire, getLast?_concat, dropLast_concat]
      · rfl
      · simp
    rw [readable_eq hr, makeTransactionWithMeta, splitTag_append]
    simp only [checkItemSize, bind, Except.bind]
    split_ifs with hs
    · exact .inr ⟨fun h => absurd h.1 (Nat.not_le.2 hs), rfl⟩
    · exact .inl ⟨⟨Nat.not_lt.1 hs, by simp⟩, _, rfl, rfl⟩
  | tnAccountState =>
    have hr : makeFromWire (serializeForWire (.leaf .tnAccountState item)) =
        some <$> makeAccountState (item.data ++ item.key.bytes) := by
      rw [serializeForWire, makeFromWire, getLast?_concat, dropLast_concat]
      · rfl
      · simp
    rw [readable_eq hr, makeAccountState, splitTag_append]
    simp only [checkItemSize, bind, Except.bind]
    split_ifs with hk hs hs
    · exact .inr ⟨fun h => h.2 rfl hk, rfl⟩
    · exact .inr ⟨fun h => h.2 rfl hk, rfl⟩
    · exact .inr ⟨fun h => absurd h.1 (Nat.not_le.2 hs), rfl⟩
    · exact .inl ⟨⟨Nat.not_lt.1 hs, fun _ => hk⟩, _, rfl, rfl⟩

/-- The node of the value model with right hashes for its children. -/
def wireNode : SHAMapTreeNode → WireNode
  | .leaf l => .leaf l.type l.item
  | .inner _ c => .inner (fun i => !(c i).isNull) fun i => updateHashDeep (c i)
  | .null => .inner (fun _ => false) fun _ => 0

/-- A branch with the hash zero is none for the reader, who then gets another hash if the node has no other branch. -/
def Visible : SHAMapTreeNode → Prop
  | .inner tag c => (∃ i, updateHashDeep (c i) ≠ 0) ∨ updateHashDeep (.inner tag c) = 0
  | _ => True

variable {key : Uint256} {depth size : Nat} {l : SHAMapLeafNode}

private lemma getChildHash_children (c : Fin kBranchFactor → SHAMapTreeNode) (i : Fin kBranchFactor) :
    WireNode.getChildHash (fun i => !(c i).isNull) (fun i => updateHashDeep (c i)) i = updateHashDeep (c i) := by
  rw [WireNode.getChildHash]
  cases c i <;> rfl

/-- The nodes on the way to a leaf are accepted for the hash of the first one exactly if all of them can be read. -/
private lemma verifyLoop_nodesTowards (ht : l.type ≠ .tnInner) (hw : t.walk (nibble key) depth = some l)
    (hsi : depth + (nodesTowards key t depth).length = size) :
    (verifyLoop key size depth (updateHashDeep t)
      ((nodesTowards key t depth).map fun node => serializeForWire (wireNode node))).1 = true ↔
        Sendable l.type l.item ∧ ∀ node ∈ nodesTowards key t depth, Visible node := by
  induction t generalizing depth with
  | null => cases hw
  | leaf l' =>
    obtain rfl := some.inj hw
    rw [nodesTowards, map_cons, wireNode, verifyLoop, forall_mem_singleton]
    obtain ⟨hs, item', hr, hh⟩ | ⟨hs, hr⟩ := readable_leaf l'.item ht
    · rw [hr]
      dsimp only
      rw [WireNode.getHash, updateHashDeep, if_neg (not_not.2 hh)]
      simpa [nodesTowards, hs, Visible] using hsi
    · simp [hr, hs]
  | inner tag c ih =>
    have hu : (WireNode.inner (fun i => !(c i).isNull) fun i => updateHashDeep (c i)).getHash =
        updateHashDeep (inner tag c) := by
      rw [WireNode.getHash, updateHashDeep]
      simp only [Bool.not_not, getChildHash_children]
    have hh : (decoded (fun i => !(c i).isNull) fun i => updateHashDeep (c i)).getHash =
        (WireNode.inner (fun i => !(c i).isNull) fun i => updateHashDeep (c i)).getHash ↔ _ := getHash_decoded
    have hr : readable (serializeForWire (.inner (fun i => !(c i).isNull) fun i => updateHashDeep (c i))) =
        some (decoded (fun i => !(c i).isNull) fun i => updateHashDeep (c i)) := by
      rw [readable, makeFromWire_inner]
    simp only [getChildHash_children, hu] at hh
    rw [nodesTowards, length_cons] at hsi
    rw [nodesTowards, map_cons, wireNode, verifyLoop, hr, forall_mem_cons, Visible, ← hh]
    dsimp only
    split_ifs with hne
    · simp [hne]
    · rw [not_not] at hne
      rw [and_iff_right hne, decoded]
      dsimp only
      rw [selectBranch_createID, getChildHash_decoded, getChildHash_children]
      exact ih _ hw (by omega)

/-! ### The path of a map -/

variable {s : NodeStore} {P : Claim} {ptr : NodePtr} {m : SharedMap} {type : SHAMapNodeType} {v : SHAMap} {f : Contents}

private lemma Holds.toWireNode (h : Holds s P p (some ptr) t) (hf : (s.cell ptr).hash ≠ 0 ∨ (s.cell ptr).cowid = 0) :
    (s.cell ptr).toWireNode = wireNode t := by
  cases t with
  | null => exact h.elim
  | leaf l =>
    obtain ⟨-, -, w, hc, -⟩ := h
    rw [hc]
    rfl
  | inner tag c =>
    obtain ⟨-, w, hash, hashes, children, hin, hch⟩ := h
    rw [hin.cell] at hf ⊢
    refine congrArg₂ WireNode.inner (funext fun i => ?_) (funext fun i => ?_)
    · rw [(hch i).isNull_eq]
      cases children i <;> rfl
    · have hi := hch i
      cases hq : children i with
      | none =>
        rw [hq] at hi
        rw [hi.eq_null]
        rfl
      | some q => exact ((hin.fresh hf).2 i q hq).2

private lemma Holds.walkTowardsKey (h : Holds s P p (some ptr) t) (hf : (s.cell ptr).hash ≠ 0 ∨ (s.cell ptr).cowid = 0)
    {levels : Nat} (hle : p.length + levels = kLeafDepth) (stack : PtrStack) :
    ∃ stack', Shared.walkTowardsKey s key levels ptr ⟨p⟩ stack = .ok stack' ∧
      stack'.map (fun node => (s.cell node.1).toWireNode) =
        ((nodesTowards key t p.length).map wireNode).reverse ++ stack.map fun node => (s.cell node.1).toWireNode := by
  induction t generalizing p ptr stack levels with
  | null => exact h.elim
  | leaf l =>
    refine ⟨(ptr, ⟨p⟩) :: stack, ?_, by simp [nodesTowards, h.toWireNode hf]⟩
    obtain ⟨-, -, w, hc, -⟩ := h
    unfold Shared.walkTowardsKey
    rw [hc]
    rfl
  | inner tag c ih =>
    have hh := h
    obtain ⟨rfl, w, hash, hashes, children, hin, hch⟩ := h
    have hci := hch (nibble key p.length)
    have hg : (s.cell ptr).getChild (nibble key p.length) = children (nibble key p.length) := by
      rw [hin.cell]
      rfl
    have hd := hin.depth
    obtain ⟨levels, rfl⟩ : ∃ n, levels = n + 1 := ⟨levels - 1, by omega⟩
    unfold Shared.walkTowardsKey
    simp only [selectBranch_eq_nibble, SHAMapNodeID.getDepth, hg, hh.isInner_eq_true]
    rcases hb : children (nibble key p.length) with _ | q
    · rw [hb] at hci
      refine ⟨(ptr, ⟨p⟩) :: stack, rfl, ?_⟩
      rw [map_cons, hh.toWireNode hf, nodesTowards, hci.eq_null]
      rfl
    rw [hb] at hci
    rw [hin.cell] at hf
    have hq := ((hin.fresh hf).2 _ q hb).1
    have hlen : (p ++ [nibble key p.length]).length + levels = kLeafDepth := by
      rw [length_append, length_singleton]
      omega
    obtain ⟨stack', hw, hs⟩ := ih _ hci (.inr hq) hlen ((ptr, ⟨p⟩) :: stack)
    refine ⟨stack', ?_, ?_⟩
    · rw [SHAMapNodeID.getChildNodeID_of_lt hd]
      exact hw
    · rw [hs, length_append, length_singleton, nodesTowards, map_cons, map_cons, reverse_cons, append_assoc,
        hh.toWireNode (by rwa [hin.cell])]
      rfl

/-- The blobs on the way towards the key, from the root down. -/
def blobsTowards (key : Uint256) (t : SHAMapTreeNode) : List (List Byte) :=
  (nodesTowards key t 0).map fun node => serializeForWire (wireNode node)

section

variable (hv : Represents type v f) (hh : Holds s P [] (some m.root) v.root)
  (hf : (s.cell m.root).hash ≠ 0 ∨ (s.cell m.root).cowid = 0)

include hv hh hf

private lemma getProofPath_of_none (hk : f key = none) : Shared.getProofPath s m key = .ok none := by
  obtain ⟨stack, hw, hns⟩ := hh.walkTowardsKey hf (Nat.zero_add kLeafDepth) []
  rw [map_nil, append_nil, length_nil] at hns
  rw [Shared.getProofPath, SHAMapNodeID.root, hw]
  dsimp only [bind, Except.bind]
  rw [hns]
  split
  case h_2 => rfl
  case h_1 type' item' rest heq =>
    -- a leaf at the end of the way is stored under its own key
    obtain ⟨nodes, node, hn⟩ : ∃ L b, nodesTowards key v.root 0 = L ++ [b] :=
      (eq_nil_or_concat' _).resolve_left fun hn => by rw [hn] at heq; cases heq
    rw [hn, map_append, reverse_append] at heq
    obtain ⟨hleaf, -⟩ := cons.inj heq
    cases node with
    | null | inner => cases hleaf
    | leaf l =>
      cases hleaf
      have hl := (getLast?_nodesTowards v.root key 0 l).1 (by rw [hn, getLast?_concat])
      obtain ⟨item, rfl, hi⟩ := (hv.mem_iff l).1 (mem_of_walk hl)
      rw [if_pos]
      · rfl
      · rintro rfl
        cases hk.symm.trans hi

private lemma getProofPath_of_some {item : SHAMapItem} (hk : f key = some item)
    (hl : v.root.walk (nibble key) 0 = some (typedLeaf type item)) :
    Shared.getProofPath s m key = .ok (some (blobsTowards key v.root).reverse) := by
  obtain ⟨stack, hw, hns⟩ := hh.walkTowardsKey hf (Nat.zero_add kLeafDepth) []
  rw [map_nil, append_nil, length_nil] at hns
  obtain ⟨nodes, hn⟩ := getLast?_eq_some_iff.1 ((getLast?_nodesTowards v.root key 0 _).2 hl)
  have hpath : ((nodesTowards key v.root 0).map wireNode).reverse =
      .leaf type item :: (nodes.map wireNode).reverse := by
    rw [hn, map_append, reverse_append]
    rfl
  have hb : (blobsTowards key v.root).reverse =
      (((nodesTowards key v.root 0).map wireNode).reverse).map serializeForWire := by
    rw [map_reverse, List.map_map]
    rfl
  rw [Shared.getProofPath, SHAMapNodeID.root, hw]
  dsimp only [bind, Except.bind]
  rw [hns, hb, hpath]
  exact if_neg (not_not.2 (hv.key_eq _ _ hk))

end

private lemma verifyProofPath_blobsTowards (ht : l.type ≠ .tnInner) (hv : Represents type v f)
    (hl : v.root.walk (nibble key) 0 = some l) :
    verifyProofPath (getHash v) key (blobsTowards key v.root).reverse = true ↔
      Sendable l.type l.item ∧ ∀ node ∈ nodesTowards key v.root 0, Visible node := by
  have hlen := length_nodesTowards hv.canonical.isPlaced (Nat.zero_le _) key
  have hne : nodesTowards key v.root 0 ≠ [] := by
    intro hn
    have hla := (getLast?_nodesTowards v.root key 0 l).2 hl
    rw [hn] at hla
    cases hla
  rw [verifyProofPath, if_neg, hv.canonical.getHash_eq, reverse_reverse]
  · exact verifyLoop_nodesTowards ht hl (by simp [blobsTowards])
  · simpa [blobsTowards, hne] using hlen

private lemma getProofPath_spec (ht : type ≠ .tnInner) (hv : Represents type v f)
    (hh : Holds s P [] (some m.root) v.root)
    (hf : (s.cell m.root).hash ≠ 0 ∨ (s.cell m.root).cowid = 0) (key : Uint256) :
    ∃ path, Shared.getProofPath s m key = .ok path ∧ (path.isSome ↔ (f key).isSome) ∧
      ∀ item ∈ f key, ∀ path' ∈ path, (verifyProofPath (getHash v) key path' = true ↔
        Sendable type item ∧ ∀ node ∈ nodesTowards key v.root 0, Visible node) := by
  rcases hk : f key with _ | item
  · exact ⟨none, getProofPath_of_none hv hh hf hk, by simp, by simp⟩
  · have hl := hv.canonical.walk_of_mem (hv.mem_of_some hk)
    have hkey : leafKey (typedLeaf type item) = key := hv.key_eq _ _ hk
    rw [hkey] at hl
    refine ⟨_, getProofPath_of_some hv hh hf hk hl, by simp, fun item' hi path hp => ?_⟩
    cases hi
    cases hp
    exact verifyProofPath_blobsTowards ht hv hl

end Hashing

namespace Family

/-- After every run of legal calls in which no `cowid_` wraps around, a map whose hash is asked for gives a path for exactly
the keys that it stores, and the path is accepted for that hash exactly if its leaf can be sent and no inner node on it has
only branches with the hash zero. -/
theorem run_getProofPath [Sha512Half] {type : SHAMapNodeType} (htype : type ≠ .tnInner) (calls : List FamilyOp)
    (hlegal : Along (step type) (fun fam call => fam.Legal call ∧ fam.Fits call) init calls) :
    ∃ fam F, init.run type calls = .ok fam ∧ Copies type fam.trace F ∧ fam.maps.length = F.length ∧
      ∀ (i : Nat) m f, fam.maps[i]? = some m → F[i]? = some f → ∃ v h s m', Represents type v f ∧
        Shared.getHash fam.store m = .ok (h, s, m') ∧ ∀ key, ∃ path, Shared.getProofPath s m' key = .ok path ∧
          (path.isSome ↔ (f key).isSome) ∧ ∀ item ∈ f key, ∀ path' ∈ path, (verifyProofPath h key path' = true ↔
            Sendable type item ∧ ∀ node ∈ nodesTowards key v.root 0, Visible node) := by
  obtain ⟨fam, hrun, own, F, hc, ha⟩ := run_ok htype hlegal
  refine ⟨fam, F, hrun, hc, ha.length, fun i m f hm hf => ?_⟩
  obtain ⟨⟨h, s, m'⟩, hr, ⟨v, P, hv, rfl, hh, hfr⟩, -⟩ := getHash_isolated ha hm hf
  exact ⟨v, _, s, m', hv, hr, getProofPath_spec htype hv hh hfr⟩

/-- Whether the path that the first map gives for a key after some calls is accepted for the hash that it then has. -/
def probe [Sha512Half] (calls : List FamilyOp) (key : Uint256) : Except SHAMapError (Option Bool) := do
  let fam ← init.run .tnAccountState calls
  let m ← fam.map 0
  let path ← Shared.getProofPath fam.store m key
  let (h, _) ← Shared.getHash fam.store m
  return path.map (verifyProofPath h key)

/-- The path of an account state with the key zero is refused, and so is one that is taken before the hash. -/
theorem probe_refused :
    let _ : Sha512Half := ⟨fun bytes => BitVec.ofNat 256 (bytes.foldl (fun n b => n * 257 + b.toNat + 1) 0)⟩
    probe [.create, .mutate 0 (.add ⟨0, replicate 12 0⟩), .getHash 0] 0 = .ok (some false) ∧
      probe [.create, .mutate 0 (.add loneItem)] loneItem.key = .ok (some false) := by
  decide +kernel

/-- Three items, two of which share their first two nibbles. -/
def threeItems : List FamilyOp :=
  [.create, .mutate 0 (.add loneItem), .mutate 0 (.add ⟨0x10a#256 <<< 244, replicate 12 1⟩),
    .mutate 0 (.add ⟨0x7#256 <<< 252, replicate 12 2⟩)]

theorem run_getProofPath_three : let _ : Sha512Half := ⟨fun _ => 1⟩
    Along (step .tnAccountState) (fun fam call => fam.Legal call ∧ fam.Fits call) init threeItems ∧
      ∃ fam m r path f item, init.run .tnAccountState threeItems = .ok fam ∧ fam.maps[0]? = some m ∧
        Shared.getHash fam.store m = .ok r ∧ Shared.getProofPath r.2.1 r.2.2 loneItem.key = .ok (some path) ∧
        path.length = 4 ∧ verifyProofPath r.1 loneItem.key path = true ∧
        (∃ v, Represents .tnAccountState v f) ∧ f loneItem.key = some item ∧ Sendable .tnAccountState item := by
  intro inst
  have hl : Along (step .tnAccountState) (fun fam call => fam.Legal call ∧ fam.Fits call) init threeItems := by
    decide +kernel
  have he : (init.run .tnAccountState threeItems).toOption.any (fun fam => fam.maps[0]?.any fun m =>
      (Shared.getHash fam.store m).toOption.any fun r =>
        (Shared.getProofPath r.2.1 r.2.2 loneItem.key).toOption.any fun path => path.any fun path =>
          decide (path.length = 4) && verifyProofPath r.1 loneItem.key path) = true := by
    decide +kernel
  simp only [Option.any_eq_true, Bool.and_eq_true, decide_eq_true_eq] at he
  obtain ⟨fam, hrun, m, hm, r, hr, _, hp, path, rfl, hlen, hver⟩ := he
  have hrun := Except.of_toOption_eq_some hrun
  have hr := Except.of_toOption_eq_some hr
  have hp := Except.of_toOption_eq_some hp
  obtain ⟨fam', F, hrun', -, hF, hall⟩ := run_getProofPath (by decide) threeItems hl
  obtain rfl := Except.ok.inj (hrun'.symm.trans hrun)
  have hlt : 0 < F.length := hF ▸ (List.getElem?_eq_some_iff.1 hm).1
  obtain ⟨v, h, s, m', hv, hr', hkey⟩ := hall 0 m F[0] hm (getElem?_eq_getElem hlt)
  obtain rfl := Except.ok.inj (hr'.symm.trans hr)
  obtain ⟨path', hp', hs, hi⟩ := hkey loneItem.key
  obtain rfl := Except.ok.inj (hp'.symm.trans hp)
  obtain ⟨item, hf⟩ := isSome_iff_exists.1 (hs.1 rfl)
  exact ⟨hl, fam', m, _, path, F[0], item, hrun, hm, hr, hp, hlen, hver, ⟨v, hv⟩, hf, ((hi item hf path rfl).1 hver).1⟩

end Family

end Xrpl.SHAMap

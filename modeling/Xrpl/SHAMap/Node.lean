import Xrpl.Lib.RadixTree
import Xrpl.Basics.BaseUint

/-!
# SHAMap nodes

The nodes of a `SHAMap` and what the map reads off them.  A node of the tree is an empty branch (a null pointer), a
leaf with an item, or an inner node with sixteen branches; it is an instance of the radix trees of
`Xrpl.Lib.RadixTree`, tagged with the cached `hash_` of an inner node.  A node id stands for the nibbles on the way
from the root: the source keeps the same nibbles in the leading bits of `id_` and their number in `depth_`.

`cowid_` is not modelled: the nodes of a map that has never been shared all carry the map's own id, so `unshareNode`
hands the node back and every mutation happens in place.
-/

namespace Xrpl

open Uint256

/-- SHA-512, cut to its first 256 bits. -/
class Sha512Half where
  sha512Half : List Byte → Uint256

export Sha512Half (sha512Half)

namespace SHAMap

abbrev kBranchFactor : Nat := 16

instance : NeZero kBranchFactor := ⟨by decide⟩

def kLeafDepth : Nat := 64

inductive SHAMapNodeType where
  | tnInner
  | tnTransactionNm
  | tnTransactionMd
  | tnAccountState
  deriving DecidableEq, Repr

/-- An item stored in a map: `tag_` and the data behind it. -/
structure SHAMapItem where
  key : Uint256
  data : List Byte
  deriving DecidableEq, Repr

/-- The three leaf classes, told apart by `getType()`. -/
structure SHAMapLeafNode where
  type : SHAMapNodeType
  item : SHAMapItem
  hash : Uint256
  deriving DecidableEq, Repr

abbrev SHAMapTreeNode := RadixTree.Tree kBranchFactor SHAMapLeafNode Uint256

open RadixTree.Tree (null leaf inner)

inductive SHAMapError where
  | logicError (what : String)
  | missingNode (id : Uint256)
  deriving DecidableEq, Repr

/-- The nibbles on the way from the root. -/
structure SHAMapNodeID where
  path : List (Fin kBranchFactor)
  deriving DecidableEq, Repr

namespace SHAMapNodeID

def root : SHAMapNodeID := ⟨[]⟩

def getDepth (id : SHAMapNodeID) : Nat := id.path.length

def isRoot (id : SHAMapNodeID) : Bool := id.getDepth = 0

def getChildNodeID (id : SHAMapNodeID) (m : Fin kBranchFactor) : Except SHAMapError SHAMapNodeID :=
  if kLeafDepth ≤ id.getDepth then .error (.logicError "Request for child node ID of")
  else .ok ⟨id.path ++ [m]⟩

lemma getChildNodeID_of_lt {id : SHAMapNodeID} (h : id.getDepth < kLeafDepth) (m : Fin kBranchFactor) :
    id.getChildNodeID m = .ok ⟨id.path ++ [m]⟩ := by
  simp [getChildNodeID, Nat.not_le.2 h]

end SHAMapNodeID

private lemma high_nibble_lt (b : Byte) : (b >>> 4).toNat < kBranchFactor := by
  simp only [BitVec.toNat_ushiftRight, kBranchFactor]
  omega

private lemma low_nibble_lt (b : Byte) : (b &&& 0xf).toNat < kBranchFactor := by
  have : (b &&& 0xf).toNat = b.toNat % 16 := by
    exact Nat.and_two_pow_sub_one_eq_mod b.toNat 4
  rw [this]
  exact Nat.mod_lt _ (by decide)

def selectBranch (id : SHAMapNodeID) (hash : Uint256) : Fin kBranchFactor :=
  let branch := hash.byte (id.getDepth / 2)
  if id.getDepth % 2 ≠ 0 then ⟨(branch &&& 0xf).toNat, low_nibble_lt branch⟩
  else ⟨(branch >>> 4).toNat, high_nibble_lt branch⟩

def nibble (hash : Uint256) (d : Nat) : Fin kBranchFactor := selectBranch ⟨List.replicate d 0⟩ hash

lemma selectBranch_eq_nibble (id : SHAMapNodeID) (hash : Uint256) :
    selectBranch id hash = nibble hash id.getDepth := by
  simp [selectBranch, nibble, SHAMapNodeID.getDepth]

private lemma nibble_val (hash : Uint256) {d : Nat} (hd : d < kLeafDepth) : (nibble hash d).val = hash.hexDigit d := by
  have hdep : SHAMapNodeID.getDepth ⟨List.replicate d 0⟩ = d := by simp [SHAMapNodeID.getDepth]
  unfold nibble selectBranch
  rw [hdep]
  split
  · rename_i h
    rw [← byte_mod hash hd h]
    exact Nat.and_two_pow_sub_one_eq_mod _ 4
  · rename_i h
    rw [← byte_div hash hd (by omega)]
    simp [Nat.shiftRight_eq_div_pow]

lemma eq_of_nibble {k k' : Uint256} (h : ∀ d, d < kLeafDepth → nibble k d = nibble k' d) : k = k' := by
  apply eq_of_hexDigit
  intro d hd
  rw [← nibble_val k hd, ← nibble_val k' hd, h d hd]

lemma lt_of_nibble (k k' : Uint256) (d : Nat) (h : ∀ e, e < d → nibble k e = nibble k' e)
    (hlt : nibble k d < nibble k' d) : k < k' := by
  by_cases hd : d < kLeafDepth
  · refine lt_of_hexDigit hd (fun e he => ?_) ?_
    · rw [← nibble_val k (by omega), ← nibble_val k' (by omega), h e he]
    · rwa [← nibble_val k hd, ← nibble_val k' hd]
  -- all nibbles agree, so there is none in which the keys differ
  have heq : k = k' := eq_of_nibble fun e he => h e (by omega)
  rw [heq] at hlt
  exact absurd hlt (lt_irrefl _)

section Hashing

variable [Sha512Half]

/-- `makeHashPrefix`, as it enters a hash: three letters and a zero byte. -/
def hashPrefix (a b c : Char) : List Byte :=
  [BitVec.ofNat 8 a.toNat, BitVec.ofNat 8 b.toNat, BitVec.ofNat 8 c.toNat, 0]

/-- `updateHash` of the leaf classes; the hash of a transaction without metadata does not cover the key. -/
def leafHash (type : SHAMapNodeType) (item : SHAMapItem) : Uint256 :=
  match type with
  | .tnTransactionNm => sha512Half (hashPrefix 'T' 'X' 'N' ++ item.data)
  | .tnTransactionMd => sha512Half (hashPrefix 'S' 'N' 'D' ++ item.data ++ item.key.bytes)
  | .tnAccountState => sha512Half (hashPrefix 'M' 'L' 'N' ++ item.data ++ item.key.bytes)
  | .tnInner => 0

def typedLeaf (type : SHAMapNodeType) (item : SHAMapItem) : SHAMapLeafNode := ⟨type, item, leafHash type item⟩

def makeTypedLeaf (type : SHAMapNodeType) (item : SHAMapItem) : Except SHAMapError SHAMapTreeNode :=
  match type with
  | .tnInner => .error (.logicError "Attempt to create leaf node of unknown type ")
  | type => .ok (leaf (typedLeaf type item))

lemma makeTypedLeaf_of_ne {type : SHAMapNodeType} (h : type ≠ .tnInner) (item : SHAMapItem) :
    makeTypedLeaf type item = .ok (leaf (typedLeaf type item)) := by
  cases type <;> first | exact absurd rfl h | rfl

/-- Give a leaf another item; the flag tells whether its hash changed. -/
def setItem (node : SHAMapLeafNode) (item : SHAMapItem) : Bool × SHAMapLeafNode :=
  let hash := leafHash node.type item
  (node.hash ≠ hash, { node with item := item, hash := hash })

/-- The hash of a subtree whose cached hashes are all out of date: `walkSubTree` updates the children first and then
the node (`updateHashDeep`).  A node without branches has the hash zero. -/
def updateHashDeep : SHAMapTreeNode → Uint256
  | .null => 0
  | .leaf l => leafHash l.type l.item
  | .inner _ c =>
    if (List.finRange kBranchFactor).all fun i => (c i).isNull then 0
    else
      sha512Half (hashPrefix 'M' 'I' 'N' ++
        (List.finRange kBranchFactor).flatMap fun i => (updateHashDeep (c i)).bytes)

end Hashing

def makeInner : SHAMapTreeNode := inner 0 fun _ => null

def setChild (node : SHAMapTreeNode) (m : Fin kBranchFactor) (child : SHAMapTreeNode) : SHAMapTreeNode :=
  match node with
  | .inner _ c => inner 0 (Function.update c m child)
  | node => node

end SHAMap

end Xrpl

import Xrpl.Lib.RadixUpdate
import Xrpl.SHAMap.Node

/-!
# The operations of a SHAMap

`addGiveItem`, `delItem` and `updateGiveItem` walk from the root towards a key and keep the nodes they pass on a
stack; they change the node on top of it and then repair the nodes above, popping one after the other.  A map is a
value here, so a node that is changed in place is put back into its parent on the way up.
-/

namespace Xrpl

/-- A map that is being modified and was never shared with another one. -/
structure SHAMap where
  root : SHAMap.SHAMapTreeNode

namespace SHAMap

open RadixTree.Tree (null leaf inner branches)

abbrev NodeStack := List (SHAMapTreeNode × SHAMapNodeID)

def empty : SHAMap := ⟨makeInner⟩

/-- Follow the branches of `id` down to a leaf or an empty branch; the result is the leaf, if any, and the nodes
passed. -/
def walkTowardsKey (id : Uint256) :
    SHAMapTreeNode → SHAMapNodeID → NodeStack → Except SHAMapError (Option SHAMapLeafNode × NodeStack)
  | .inner h c, nodeID, stack =>
    let branch := selectBranch nodeID id
    if (c branch).isNull then .ok (none, (inner h c, nodeID) :: stack)
    else do
      let childID ← nodeID.getChildNodeID branch
      walkTowardsKey id (c branch) childID ((inner h c, nodeID) :: stack)
  | .leaf l, nodeID, stack => .ok (some l, (leaf l, nodeID) :: stack)
  | .null, _, stack => .ok (none, stack)

def findKey (m : SHAMap) (id : Uint256) : Except SHAMapError (Option SHAMapLeafNode) := do
  let (found, _) ← walkTowardsKey id m.root .root []
  return found.filter fun l => l.item.key = id

def hasItem (m : SHAMap) (id : Uint256) : Except SHAMapError Bool := do
  return (← findKey m id).isSome

/-- Hang `child` into the node on top of the stack, that node into the one below it, and so on; the last node is the
root. -/
def dirtyUp (target : Uint256) : NodeStack → SHAMapTreeNode → SHAMapTreeNode
  | [], child => child
  | (node, nodeID) :: stack, child => dirtyUp target stack (setChild node (selectBranch nodeID target) child)

/-- A leaf that was changed in place while the nodes above it keep their hashes. -/
def putBack (target : Uint256) : NodeStack → SHAMapTreeNode → SHAMapTreeNode
  | [], child => child
  | (.inner h c, nodeID) :: stack, child =>
    putBack target stack (.inner h (Function.update c (selectBranch nodeID target) child))
  | (_, _) :: stack, child => putBack target stack child

/-- The loop of `addGiveItem` that pushes a new inner node for every nibble the two keys share.  The first argument
counts the levels left: below depth 64 there is no branch to select. -/
def splitLoop (tag other : Uint256) : Nat → SHAMapNodeID → NodeStack → Except SHAMapError (SHAMapNodeID × NodeStack)
  | 0, _, _ => .error (.logicError "Request for child node ID of")
  | levels + 1, nodeID, stack =>
    if selectBranch nodeID tag = selectBranch nodeID other then do
      let childID ← nodeID.getChildNodeID (selectBranch nodeID tag)
      splitLoop tag other levels childID ((makeInner, nodeID) :: stack)
    else .ok (nodeID, stack)

def onlyBelow : SHAMapTreeNode → Option SHAMapItem
  | .leaf l => some l.item
  | .inner _ c =>
    match branches c with
    | [i] => onlyBelow (c i)
    | _ => none
  | .null => none

def getBranchCount : SHAMapTreeNode → Nat
  | .inner _ c => (branches c).length
  | _ => 0

section Operations

variable [Sha512Half]

section

variable (m : SHAMap) (type : SHAMapNodeType)

def addOnTop (item : SHAMapItem) :
    NodeStack → Except SHAMapError (Bool × SHAMap)
  | [] => .error (.missingNode item.key)
  | (leaf l, nodeID) :: stack =>
    if l.item.key = item.key then .ok (false, m)
    else do
      -- the leaf has to be made an inner node holding two items
      let (nodeID, stack) ← splitLoop item.key l.item.key (kLeafDepth - nodeID.getDepth) nodeID stack
      let node := setChild makeInner (selectBranch nodeID item.key) (← makeTypedLeaf type item)
      let node := setChild node (selectBranch nodeID l.item.key) (← makeTypedLeaf type l.item)
      return (true, ⟨dirtyUp item.key stack node⟩)
  | (node, nodeID) :: stack => do
    let node := setChild node (selectBranch nodeID item.key) (← makeTypedLeaf type item)
    return (true, ⟨dirtyUp item.key stack node⟩)

def addGiveItem (item : SHAMapItem) : Except SHAMapError (Bool × SHAMap) := do
  let (_, stack) ← walkTowardsKey item.key m.root .root []
  addOnTop m type item stack

/-- What `delItem` hands up from a node that has lost a child: nothing, a leaf with the only item left below it, or
the node. -/
def pullUp (type : SHAMapNodeType) (node : SHAMapTreeNode) : Except SHAMapError SHAMapTreeNode :=
  if getBranchCount node = 0 then .ok null
  else if getBranchCount node = 1 then
    match onlyBelow node with
    | some item => makeTypedLeaf type item
    | none => .ok node
  else .ok node

/-- The loop of `delItem`: hang what is left below into the node on top of the stack.  The root stays an inner
node. -/
def delLoop (type : SHAMapNodeType) (id : Uint256) :
    NodeStack → SHAMapTreeNode → SHAMapTreeNode → Except SHAMapError SHAMapTreeNode
  | [], _, root => .ok root
  | (node, nodeID) :: stack, prevNode, root =>
    let node := setChild node (selectBranch nodeID id) prevNode
    if nodeID.isRoot then delLoop type id stack null node
    else do
      let prevNode ← pullUp type node
      delLoop type id stack prevNode root

def delOnTop (m : SHAMap) (id : Uint256) : NodeStack → Except SHAMapError (Bool × SHAMap)
  | [] => .error (.missingNode id)
  | (leaf l, _) :: stack =>
    if l.item.key ≠ id then .ok (false, m)
    else do return (true, ⟨← delLoop l.type id stack null m.root⟩)
  | _ :: _ => .ok (false, m)

def delItem (m : SHAMap) (id : Uint256) : Except SHAMapError (Bool × SHAMap) := do
  let (_, stack) ← walkTowardsKey id m.root .root []
  delOnTop m id stack

/-- `updateGiveItem` once the nodes towards the item are on the stack.  The tag of an item cannot be changed, but its
hash can; a change of type is refused. -/
def updateOnTop (item : SHAMapItem) :
    NodeStack → Except SHAMapError (Bool × SHAMap)
  | [] => .error (.missingNode item.key)
  | (leaf l, _) :: stack =>
    if l.item.key ≠ item.key then .ok (false, m)
    else if l.type ≠ type then .ok (false, m)
    else
      let (changed, l') := setItem l item
      if changed then .ok (true, ⟨dirtyUp item.key stack (leaf l')⟩)
      else .ok (true, ⟨putBack item.key stack (leaf l')⟩)
  | _ :: _ => .ok (false, m)

def updateGiveItem (item : SHAMapItem) :
    Except SHAMapError (Bool × SHAMap) := do
  let (_, stack) ← walkTowardsKey item.key m.root .root []
  updateOnTop m type item stack

end

/-- The root hash; a hash of zero means that the cached hashes have to be brought up to date. -/
def getHash (m : SHAMap) : Uint256 :=
  match m.root with
  | .inner h c => if h = 0 then updateHashDeep (inner h c) else h
  | root => updateHashDeep root

end Operations

end SHAMap

end Xrpl

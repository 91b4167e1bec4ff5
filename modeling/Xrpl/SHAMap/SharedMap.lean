import Xrpl.Lib.CellStore
import Xrpl.SHAMap.History

/-!
# Maps that share their nodes

Snapshots of a `SHAMap` share nodes with the map they were taken of.  Here a node lies in a cell of a store and its
children are pointers to other cells; the operations follow the code in deciding, by comparing the `cowid_` of a node
with the one of the map, whether the node may be changed in place.  A node with `cowid_` zero is clean: its hash is
up to date, and it may belong to any number of maps.

`cowid_` is a 32-bit number that a snapshot takes over, increased by one, from the map it was taken of.
-/

namespace Xrpl.SHAMap

abbrev NodePtr := Nat

/-- What the classes derived from `SHAMapTreeNode` add to it.  A branch without a child is an empty one. -/
inductive NodeBody where
  | leaf (type : SHAMapNodeType) (item : SHAMapItem)
  | inner (hashes : Fin kBranchFactor → Uint256) (children : Fin kBranchFactor → Option NodePtr)

structure StoredNode where
  cowid : Nat
  hash : Uint256
  body : NodeBody

abbrev NodeStore := CellStore StoredNode

inductive SHAMapState where
  | modifying
  | immutable
  | synching
  | invalid
  deriving DecidableEq, Repr

/-- The members of a `SHAMap` that decide what it shares. -/
structure SharedMap where
  cowid : Nat
  root : NodePtr
  state : SHAMapState
  deriving DecidableEq, Repr

abbrev PtrStack := List (NodePtr × SHAMapNodeID)

namespace StoredNode

section

variable (n : StoredNode)

def isInner : Bool :=
  match n.body with
  | .inner _ _ => true
  | .leaf _ _ => false

def getChild (branch : Fin kBranchFactor) : Option NodePtr :=
  match n.body with
  | .inner _ children => children branch
  | .leaf _ _ => none

def branches : List (Fin kBranchFactor) :=
  (List.finRange kBranchFactor).filter fun i => (n.getChild i).isSome

def clone (cowid : Nat) : StoredNode := { n with cowid := cowid }

def unshare : StoredNode := { n with cowid := 0 }

def setChild (m : Fin kBranchFactor) (child : Option NodePtr) : StoredNode :=
  match n.body with
  | .inner hashes children =>
    { n with hash := 0, body := .inner (Function.update hashes m 0) (Function.update children m child) }
  | .leaf _ _ => n

def shareChild (m : Fin kBranchFactor) (child : NodePtr) : StoredNode :=
  match n.body with
  | .inner hashes children => { n with body := .inner hashes (Function.update children m (some child)) }
  | .leaf _ _ => n

end

section Hashing

variable [Sha512Half]

/-- `updateHash` of a leaf; the hash of an inner node is the one of the hashes it records. -/
def updateHash (n : StoredNode) : StoredNode :=
  match n.body with
  | .leaf type item => { n with hash := leafHash type item }
  | .inner hashes children =>
    { n with hash :=
        if (List.finRange kBranchFactor).all fun i => (children i).isNone then 0
        else
          sha512Half (hashPrefix 'M' 'I' 'N' ++
            (List.finRange kBranchFactor).flatMap fun i => (if (children i).isSome then hashes i else 0).bytes) }

/-- The hash to record for a branch: the one of the child if it is linked. -/
def childHash (s : NodeStore) (recorded : Uint256) : Option NodePtr → Uint256
  | some child => (s.cell child).hash
  | none => recorded

def updateHashDeep (n : StoredNode) (s : NodeStore) : StoredNode :=
  match n.body with
  | .leaf _ _ => n
  | .inner hashes children =>
    updateHash { n with body := .inner (fun i => childHash s (hashes i) (children i)) children }

def setItem (n : StoredNode) (item : SHAMapItem) : Bool × StoredNode :=
  match n.body with
  | .leaf type _ =>
    let n' := updateHash { n with body := .leaf type item }
    (n.hash ≠ n'.hash, n')
  | .inner _ _ => (false, n)

end Hashing

end StoredNode

namespace Shared

def makeInner (cowid : Nat) : StoredNode := ⟨cowid, 0, .inner (fun _ => 0) fun _ => none⟩

def makeTypedLeaf [Sha512Half] (type : SHAMapNodeType) (item : SHAMapItem) (cowid : Nat) : Except SHAMapError StoredNode :=
  match type with
  | .tnInner => .error (.logicError "Attempt to create leaf node of unknown type ")
  | type => .ok ⟨cowid, leafHash type item, .leaf type item⟩

/-- Follow the branches of `id` down to a leaf or an empty branch, pushing the nodes passed.  The first argument
counts the levels left: nodes at depth 64 have no children. -/
def walkTowardsKey (s : NodeStore) (id : Uint256) :
    Nat → NodePtr → SHAMapNodeID → PtrStack → Except SHAMapError PtrStack
  | levels, node, nodeID, stack =>
    if (s.cell node).isInner then
      match (s.cell node).getChild (selectBranch nodeID id), levels with
      | none, _ => .ok ((node, nodeID) :: stack)
      | some _, 0 => .error (.logicError "Request for child node ID of")
      | some child, levels + 1 => do
        let childID ← nodeID.getChildNodeID (selectBranch nodeID id)
        walkTowardsKey s id levels child childID ((node, nodeID) :: stack)
    else .ok ((node, nodeID) :: stack)

def findKey (s : NodeStore) (m : SharedMap) (id : Uint256) :
    Except SHAMapError (Option (SHAMapNodeType × SHAMapItem)) := do
  match ← walkTowardsKey s id kLeafDepth m.root .root [] with
  | [] => return none
  | (node, _) :: _ =>
    match (s.cell node).body with
    | .leaf type item => return if item.key = id then some (type, item) else none
    | .inner _ _ => return none

/-! ### Changing a map -/

/-- Make sure that a node may be changed: a node of another owner is cloned. -/
def unshareNode (s : NodeStore) (m : SharedMap) (node : NodePtr) (nodeID : SHAMapNodeID) :
    NodePtr × NodeStore × SharedMap :=
  if (s.cell node).cowid ≠ m.cowid then
    let (node, s) := s.alloc ((s.cell node).clone m.cowid)
    (node, s, if nodeID.isRoot then { m with root := node } else m)
  else (node, s, m)

def dirtyUp (target : Uint256) : NodeStore → SharedMap → PtrStack → NodePtr → NodeStore × SharedMap
  | s, m, [], _ => (s, m)
  | s, m, (node, nodeID) :: stack, child =>
    let (node, s, m) := unshareNode s m node nodeID
    let s := s.write node ((s.cell node).setChild (selectBranch nodeID target) (some child))
    dirtyUp target s m stack node

/-- The loop of `addGiveItem` that pushes `node` and makes another one for every nibble the two keys share. -/
def splitLoop (cowid : Nat) (tag other : Uint256) :
    Nat → NodeStore → NodePtr → SHAMapNodeID → PtrStack →
      Except SHAMapError (NodeStore × NodePtr × SHAMapNodeID × PtrStack)
  | 0, _, _, _, _ => .error (.logicError "Request for child node ID of")
  | levels + 1, s, node, nodeID, stack =>
    if selectBranch nodeID tag = selectBranch nodeID other then do
      let childID ← nodeID.getChildNodeID (selectBranch nodeID tag)
      let (child, s) := s.alloc (makeInner cowid)
      splitLoop cowid tag other levels s child childID ((node, nodeID) :: stack)
    else .ok (s, node, nodeID, stack)

def onlyBelow (s : NodeStore) : Nat → NodePtr → Option SHAMapItem
  | levels, node =>
    match (s.cell node).body, levels with
    | .leaf _ item, _ => some item
    | .inner _ _, 0 => none
    | .inner _ children, levels + 1 =>
      match (s.cell node).branches with
      | [i] => (children i).bind (onlyBelow s levels)
      | _ => none

section Operations

variable [Sha512Half]

def hangLeaf (s : NodeStore) (node : NodePtr) (branch : Fin kBranchFactor) (type : SHAMapNodeType)
    (item : SHAMapItem) (cowid : Nat) : Except SHAMapError NodeStore := do
  let (child, s) := s.alloc (← makeTypedLeaf type item cowid)
  return s.write node ((s.cell node).setChild branch (some child))

def addOnTop (s : NodeStore) (m : SharedMap) (type : SHAMapNodeType) (item : SHAMapItem) :
    PtrStack → Except SHAMapError (Bool × NodeStore × SharedMap)
  | [] => .error (.missingNode item.key)
  | (node, nodeID) :: stack =>
    match (s.cell node).body with
    | .leaf _ otherItem =>
      if otherItem.key = item.key then .ok (false, s, m)
      else do
        let (node, s, m) := unshareNode s m node nodeID
        -- the leaf has to be made an inner node holding two items
        let (node, s) := s.alloc (makeInner (s.cell node).cowid)
        let (s, node, nodeID, stack) ←
          splitLoop m.cowid item.key otherItem.key (kLeafDepth - nodeID.getDepth) s node nodeID stack
        let s ← hangLeaf s node (selectBranch nodeID item.key) type item m.cowid
        let s ← hangLeaf s node (selectBranch nodeID otherItem.key) type otherItem m.cowid
        return (true, dirtyUp item.key s m stack node)
    | .inner _ _ => do
      let (node, s, m) := unshareNode s m node nodeID
      let s ← hangLeaf s node (selectBranch nodeID item.key) type item m.cowid
      return (true, dirtyUp item.key s m stack node)

def addGiveItem (s : NodeStore) (m : SharedMap) (type : SHAMapNodeType) (item : SHAMapItem) :
    Except SHAMapError (Bool × NodeStore × SharedMap) := do
  let stack ← walkTowardsKey s item.key kLeafDepth m.root .root []
  addOnTop s m type item stack

/-- What `delItem` hands up from a node that has lost a child: nothing, a leaf with the only item left below it, or
the node.  The node that is given up loses its child. -/
def pullUp (type : SHAMapNodeType) (s : NodeStore) (node : NodePtr) : Except SHAMapError (Option NodePtr × NodeStore) :=
  match (s.cell node).branches with
  | [] => .ok (none, s)
  | [i] =>
    match onlyBelow s (kLeafDepth + 1) node with
    | some item => do
      let s := s.write node ((s.cell node).setChild i none)
      let (child, s) := s.alloc (← makeTypedLeaf type item (s.cell node).cowid)
      return (some child, s)
    | none => .ok (some node, s)
  | _ => .ok (some node, s)

/-- The loop of `delItem`: hang what is left below into the node on top of the stack. -/
def delLoop (type : SHAMapNodeType) (id : Uint256) :
    NodeStore → SharedMap → PtrStack → Option NodePtr → Except SHAMapError (NodeStore × SharedMap)
  | s, m, [], _ => .ok (s, m)
  | s, m, (node, nodeID) :: stack, prevNode =>
    let (node, s, m) := unshareNode s m node nodeID
    let s := s.write node ((s.cell node).setChild (selectBranch nodeID id) prevNode)
    if nodeID.isRoot then delLoop type id s m stack none
    else do
      let (prevNode, s) ← pullUp type s node
      delLoop type id s m stack prevNode

def delOnTop (s : NodeStore) (m : SharedMap) (id : Uint256) :
    PtrStack → Except SHAMapError (Bool × NodeStore × SharedMap)
  | [] => .error (.missingNode id)
  | (node, _) :: stack =>
    match (s.cell node).body with
    | .leaf type item =>
      if item.key ≠ id then .ok (false, s, m)
      else do return (true, ← delLoop type id s m stack none)
    | .inner _ _ => .ok (false, s, m)

def delItem (s : NodeStore) (m : SharedMap) (id : Uint256) : Except SHAMapError (Bool × NodeStore × SharedMap) := do
  let stack ← walkTowardsKey s id kLeafDepth m.root .root []
  delOnTop s m id stack

def updateOnTop (s : NodeStore) (m : SharedMap) (type : SHAMapNodeType) (item : SHAMapItem) :
    PtrStack → Except SHAMapError (Bool × NodeStore × SharedMap)
  | [] => .error (.missingNode item.key)
  | (node, nodeID) :: stack =>
    match (s.cell node).body with
    | .leaf otherType otherItem =>
      if otherItem.key ≠ item.key then .ok (false, s, m)
      else if otherType ≠ type then .ok (false, s, m)
      else
        let (node, s, m) := unshareNode s m node nodeID
        let (changed, n) := (s.cell node).setItem item
        let s := s.write node n
        .ok (true, if changed then dirtyUp item.key s m stack node else (s, m))
    | .inner _ _ => .ok (false, s, m)

def updateGiveItem (s : NodeStore) (m : SharedMap) (type : SHAMapNodeType) (item : SHAMapItem) :
    Except SHAMapError (Bool × NodeStore × SharedMap) := do
  let stack ← walkTowardsKey s item.key kLeafDepth m.root .root []
  updateOnTop s m type item stack

/-- A node somebody else might have a pointer to is cloned before it is flushed. -/
def preFlushNode (cowid : Nat) (s : NodeStore) (node : NodePtr) : NodePtr × NodeStore :=
  if (s.cell node).cowid ≠ cowid then s.alloc ((s.cell node).clone cowid) else (node, s)

/-- One turn of the inner loop of `walkSubTree`, with the way in which an inner node is flushed: bring the child in
the branch `pos` of `node` up to date and hook it in. -/
def flushBranch (flush : NodeStore → NodePtr → Except SHAMapError NodeStore) (cowid : Nat) (node : NodePtr)
    (s : NodeStore) (pos : Fin kBranchFactor) : Except SHAMapError NodeStore :=
  match (s.cell node).getChild pos with
  | none => .ok s
  | some child =>
    if (s.cell child).cowid = 0 then .ok s
    else
      let (child, s) := preFlushNode cowid s child
      if (s.cell child).isInner then do
        let s ← flush s child
        return s.write node ((s.cell node).shareChild pos child)
      else
        let s := s.write child (s.cell child).updateHash.unshare
        .ok (s.write node ((s.cell node).shareChild pos child))

/-- The loops of `walkSubTree`: an inner node is flushed after its children.  The stack of the source holds the nodes
that are being flushed; here they are the calls that have not returned. -/
def flushNode (cowid : Nat) : Nat → NodeStore → NodePtr → Except SHAMapError NodeStore
  | 0, _, _ => .error (.logicError "Request for child node ID of")
  | levels + 1, s, node => do
    let s ← (List.finRange kBranchFactor).foldlM (flushBranch (flushNode cowid levels) cowid node) s
    return s.write node ((s.cell node).updateHashDeep s).unshare

def walkSubTree (s : NodeStore) (m : SharedMap) : Except SHAMapError (NodeStore × SharedMap) :=
  if (s.cell m.root).cowid = 0 then .ok (s, m)
  else if (s.cell m.root).isInner then
    if (s.cell m.root).branches = [] then
      -- replace empty root with a new empty root
      let (root, s) := s.alloc (makeInner 0)
      .ok (s, { m with root := root })
    else do
      let (root, s) := preFlushNode m.cowid s m.root
      let s ← flushNode m.cowid kLeafDepth s root
      return (s, { m with root := root })
  else
    let (root, s) := preFlushNode m.cowid s m.root
    .ok (s.write root (s.cell root).updateHash.unshare, { m with root := root })

def unshare (s : NodeStore) (m : SharedMap) : Except SHAMapError (NodeStore × SharedMap) := walkSubTree s m

def getHash (s : NodeStore) (m : SharedMap) : Except SHAMapError (Uint256 × NodeStore × SharedMap) :=
  if (s.cell m.root).hash = 0 then do
    let (s, m) ← unshare s m
    return ((s.cell m.root).hash, s, m)
  else .ok ((s.cell m.root).hash, s, m)

/-- The constructor behind `snapShot`: if either map may change, they cannot share nodes. -/
def snapShot (s : NodeStore) (other : SharedMap) (isMutable : Bool) : Except SHAMapError (NodeStore × SharedMap) :=
  let m : SharedMap := ⟨(other.cowid + 1) % 2 ^ 32, other.root, if isMutable then .modifying else .immutable⟩
  if m.state ≠ .immutable ∨ other.state ≠ .immutable then unshare s m else .ok (s, m)

def create (s : NodeStore) : NodeStore × SharedMap :=
  let (root, s) := s.alloc (makeInner 1)
  (s, ⟨1, root, .modifying⟩)

/-- One call that changes a map all of whose items have the node type `type`. -/
def mutate (type : SHAMapNodeType) (s : NodeStore) (m : SharedMap) :
    Op → Except SHAMapError (Bool × NodeStore × SharedMap)
  | .add item => addGiveItem s m type item
  | .del id => delItem s m id
  | .update item => updateGiveItem s m type item

end Operations

end Shared

end Xrpl.SHAMap

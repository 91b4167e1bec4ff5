import Xrpl.SHAMap.NodeHash

/-!
# Nodes on the wire

A node that is sent to a peer carries its type in the last byte.  A leaf consists of its data and its key; an inner node
of the sixteen hashes of its children, or, if it has few children, of pairs of a hash and a position.
`makeFromWire` reads such a blob; what it makes of an inner node knows the hashes of the children only.
-/

namespace Xrpl.SHAMap

inductive WireError where
  | runtimeError (what : String)
  deriving DecidableEq, Repr

/-- A node without its children: `isBranch_` and the hashes of an inner node, or the item of a leaf. -/
inductive WireNode where
  | inner (isBranch : Fin kBranchFactor → Bool) (hashes : Fin kBranchFactor → Uint256)
  | leaf (type : SHAMapNodeType) (item : SHAMapItem)

def kMinShaMapItemBytes : Nat := 12

def kBytes : Nat := 32

def kWireTypeTransaction : Byte := 0
def kWireTypeAccountState : Byte := 1
def kWireTypeInner : Byte := 2
def kWireTypeCompressedInner : Byte := 3
def kWireTypeTransactionWithMeta : Byte := 4

def splitTag (what : String) (data : List Byte) : Except WireError (Uint256 × List Byte) :=
  if data.length < kBytes then
    .error (.runtimeError ("Short " ++ what ++ " node: " ++ toString data.length ++ " bytes (minimum " ++
      toString kBytes ++ " required for tag)"))
  else .ok (Uint256.ofBytes (data.drop (data.length - kBytes)), data.take (data.length - kBytes))

def checkItemSize (what removed : String) (data : List Byte) : Except WireError Unit :=
  if data.length < kMinShaMapItemBytes then
    .error (.runtimeError ("Short " ++ what ++ " node: " ++ toString data.length ++ " bytes" ++ removed ++ " (minimum " ++
      toString kMinShaMapItemBytes ++ " required)"))
  else .ok ()

def makeTransactionWithMeta (data : List Byte) : Except WireError WireNode := do
  let (tag, data) ← splitTag "TXN+MD" data
  checkItemSize "TXN+MD" " after tag removal" data
  return .leaf .tnTransactionMd ⟨tag, data⟩

def makeAccountState (data : List Byte) : Except WireError WireNode := do
  let (tag, data) ← splitTag "AS" data
  if tag = 0 then throw (.runtimeError "Invalid AS node")
  checkItemSize "AS" " after tag removal" data
  return .leaf .tnAccountState ⟨tag, data⟩

/-- Sixteen hashes, back to back; a branch is there if its hash is not zero. -/
def makeFullInner (data : List Byte) : Except WireError WireNode :=
  if data.length ≠ kBranchFactor * kBytes then .error (.runtimeError "Invalid FI node")
  else
    let hashes : Fin kBranchFactor → Uint256 := fun i => Uint256.ofBytes ((data.drop (kBytes * i)).take kBytes)
    .ok (.inner (fun i => hashes i ≠ 0) hashes)

def kChunkSize : Nat := kBytes + 1

/-- The loop of `makeCompressedInner`, once for each chunk of a hash and a position.  A hash that is read for a position a
second time replaces the first one, but a bit of `isBranch_` that has been set stays set. -/
def compressedLoop : Nat → List Byte → (Fin kBranchFactor → Bool) → (Fin kBranchFactor → Uint256) →
    Except WireError WireNode
  | 0, _, isBranch, hashes => .ok (.inner isBranch hashes)
  | chunks + 1, data, isBranch, hashes =>
    let hash := Uint256.ofBytes (data.take kBytes)
    let pos := ((data.drop kBytes).headD 0).toNat
    if h : pos < kBranchFactor then
      compressedLoop chunks (data.drop kChunkSize)
        (if hash ≠ 0 then Function.update isBranch ⟨pos, h⟩ true else isBranch)
        (Function.update hashes ⟨pos, h⟩ hash)
    else .error (.runtimeError "invalid CI node")

/-- Chunks of 33 bytes, each a hash and the position of its branch. -/
def makeCompressedInner (data : List Byte) : Except WireError WireNode :=
  if data.length % kChunkSize ≠ 0 ∨ data.length > kChunkSize * kBranchFactor then
    .error (.runtimeError "Invalid CI node")
  else compressedLoop (data.length / kChunkSize) data (fun _ => false) (fun _ => 0)

section Hashing

variable [Sha512Half]

/-- The key of a transaction without metadata is the hash of its data. -/
def makeTransaction (data : List Byte) : Except WireError WireNode := do
  checkItemSize "TXN" "" data
  return .leaf .tnTransactionNm ⟨sha512Half (hashPrefix 'T' 'X' 'N' ++ data), data⟩

def makeFromWire (rawNode : List Byte) : Except WireError (Option WireNode) :=
  match rawNode.getLast? with
  | none => .ok none
  | some type =>
    let rawNode := rawNode.dropLast
    if type = kWireTypeTransaction then some <$> makeTransaction rawNode
    else if type = kWireTypeAccountState then some <$> makeAccountState rawNode
    else if type = kWireTypeInner then some <$> makeFullInner rawNode
    else if type = kWireTypeCompressedInner then some <$> makeCompressedInner rawNode
    else if type = kWireTypeTransactionWithMeta then some <$> makeTransactionWithMeta rawNode
    else .error (.runtimeError ("wire: Unknown type (" ++ toString type.toNat ++ ")"))

namespace WireNode

def getChildHash (isBranch : Fin kBranchFactor → Bool) (hashes : Fin kBranchFactor → Uint256) (m : Fin kBranchFactor) :
    Uint256 :=
  if isBranch m then hashes m else 0

def getHash : WireNode → Uint256
  | .inner isBranch hashes =>
    if (List.finRange kBranchFactor).all fun i => !isBranch i then 0
    else
      sha512Half (hashPrefix 'M' 'I' 'N' ++
        (List.finRange kBranchFactor).flatMap fun i => (getChildHash isBranch hashes i).bytes)
  | .leaf type item => leafHash type item

def content : WireNode → NodeContent
  | .inner isBranch hashes =>
    if (List.finRange kBranchFactor).all fun i => !isBranch i then .empty else .inner (getChildHash isBranch hashes)
  | .leaf type item => .leaf type item

end WireNode

end Hashing

def wireType : SHAMapNodeType → Byte
  | .tnTransactionNm => kWireTypeTransaction
  | .tnTransactionMd => kWireTypeTransactionWithMeta
  | .tnAccountState => kWireTypeAccountState
  | .tnInner => kWireTypeInner

/-- A node with few branches is sent as pairs of a hash and a position. -/
def serializeForWire : WireNode → List Byte
  | .leaf .tnTransactionNm item => item.data ++ [wireType .tnTransactionNm]
  | .leaf type item => item.data ++ item.key.bytes ++ [wireType type]
  | .inner isBranch hashes =>
    if ((List.finRange kBranchFactor).filter isBranch).length < 12 then
      ((List.finRange kBranchFactor).filter isBranch).flatMap (fun i => (hashes i).bytes ++ [BitVec.ofNat 8 i]) ++
        [kWireTypeCompressedInner]
    else
      (List.finRange kBranchFactor).flatMap (fun i => (WireNode.getChildHash isBranch hashes i).bytes) ++ [kWireTypeInner]

end Xrpl.SHAMap

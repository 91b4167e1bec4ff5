import Xrpl.Basics.BaseUint
import Xrpl.Lib.HashMap

/-!
# Squelching slots

A server gets the messages of a validator from many peers.  The `Slot` of the validator counts them, selects some of
the peers as the source of its messages and has the other ones squelched for a while.  `Slots` keeps the slots of all
validators.

Times and durations are whole seconds, as those of the clock that `Slots` is used with.  The random numbers a call
draws are an argument of it: `choices` in the order in which they are drawn for the selection, and `draw` for the
squelch duration of a peer; a number is brought into the range that was asked for.  What a call has the handler do is
part of its result.  The number of peers over the threshold has 16 bits, as in the code; the message count of a peer,
which has 64, is a natural number.
-/

namespace Xrpl.ReduceRelay

abbrev PeerId := Nat

inductive PeerState where
  | counting
  | selected
  | squelched
  deriving DecidableEq, Repr

inductive SlotState where
  | counting
  | selected
  deriving DecidableEq, Repr

def kMinUnsquelchExpire : Int := 300
def kMaxUnsquelchExpireDefault : Int := 600
def kSquelchPerPeer : Int := 10
def kMaxUnsquelchExpirePeers : Int := 3600
def kIdled : Int := 8
def kMinMessageThreshold : Nat := 19
def kMaxMessageThreshold : Nat := 20

structure PeerInfo where
  state : PeerState
  count : Nat
  expire : Int
  lastMessage : Int
  deriving DecidableEq, Repr

/-- What a slot asks of the `SquelchHandler`, and a report through the callback. -/
inductive Notice where
  | squelch (id : PeerId) (duration : Int)
  | unsquelch (id : PeerId)
  | ignored (id : PeerId)
  deriving DecidableEq, Repr

structure Slot where
  peers : HashMap PeerId PeerInfo
  considered : HashSet PeerId
  reachedThreshold : UInt16
  lastSelected : Int
  state : SlotState
  maxSelectedPeers : UInt16

def randInt (max : Nat) : List Nat → Nat × List Nat
  | [] => (0, [])
  | r :: rest => (r % (max + 1), rest)

/-- The duration of a squelch when `npeers` peers can be squelched. -/
def getSquelchDuration (npeers draw : Nat) : Int :=
  let m := max kMaxUnsquelchExpireDefault (kSquelchPerPeer * npeers)
  let m := if m > kMaxUnsquelchExpirePeers then kMaxUnsquelchExpirePeers else m
  kMinUnsquelchExpire + (draw : Int) % (m - kMinUnsquelchExpire + 1)

namespace Slot

def new (now : Int) (maxSelectedPeers : UInt16) : Slot := ⟨∅, ∅, 0, now, .counting, maxSelectedPeers⟩

section

variable (slot : Slot)

def getSelected : List PeerId :=
  (slot.peers.entries.filter fun e => e.2.state = .selected).map Sigma.fst

def resetCounts : Slot :=
  { slot with peers := slot.peers.mapVal fun _ peer => { peer with count := 0 } }

def initCounting : Slot :=
  resetCounts { slot with state := .counting, considered := ∅, reachedThreshold := 0 }

/-- The loop of `update` that picks peers of the pool at random, other than those that have been idling.  Each turn
takes one peer out of the pool, so the first argument is the size of the pool at the start. -/
def selectLoop (peers : HashMap PeerId PeerInfo) (now : Int) (maxSelectedPeers : Nat) :
    Nat → List PeerId → List Nat → List PeerId → List PeerId
  | 0, _, _, selected => selected
  | turns + 1, considered, choices, selected =>
    if selected.length ≠ maxSelectedPeers ∧ considered ≠ [] then
      let (i, choices) := if considered.length = 1 then (0, choices) else randInt (considered.length - 1) choices
      let id := considered.getD i 0
      let considered := considered.eraseIdx i
      match peers.lookup id with
      | none => selectLoop peers now maxSelectedPeers turns considered choices selected
      | some peer =>
        selectLoop peers now maxSelectedPeers turns considered choices
          (if now - peer.lastMessage < kIdled then selected.insert id else selected)
    else selected

section

variable (now : Int)

def settlePeer (selected : List PeerId) (npeers : Nat) (draw : PeerId → Nat) (id : PeerId)
    (peer : PeerInfo) : PeerInfo :=
  if id ∈ selected then { peer with state := .selected, count := 0 }
  else if peer.state ≠ .squelched then
    { peer with state := .squelched, count := 0, expire := now + getSquelchDuration npeers (draw id) }
  else { peer with count := 0 }

/-- The peers that are not selected and not already squelched, each with its duration. -/
def squelchNotices (selected : List PeerId) (npeers : Nat) (draw : PeerId → Nat) : List Notice :=
  (slot.peers.entries.filter fun e => e.1 ∉ selected ∧ e.2.state ≠ .squelched).map fun e =>
    .squelch e.1 (getSquelchDuration npeers (draw e.1))

def npeers : Nat := slot.peers.entries.length - slot.maxSelectedPeers.toNat

def settle (selected : List PeerId) (draw : PeerId → Nat) : Slot :=
  { slot with
    peers := slot.peers.mapVal (settlePeer now selected slot.npeers draw)
    considered := ∅
    reachedThreshold := 0
    lastSelected := now
    state := .selected }

/-- The selection: pick peers of the pool and squelch the other ones; with too few peers start counting again. -/
def select (choices : List Nat) (draw : PeerId → Nat) : Slot × List Notice :=
  let pool := slot.considered.keys
  let selected := selectLoop slot.peers now slot.maxSelectedPeers.toNat pool.length pool choices []
  if selected.length ≠ slot.maxSelectedPeers.toNat then (initCounting slot, [])
  else (settle slot now selected draw, squelchNotices slot selected slot.npeers draw)

def countMessage (id : PeerId) (peer : PeerInfo) : Slot :=
  let peer := { peer with count := peer.count + 1 }
  { slot with
    peers := slot.peers.insert id peer
    considered := if peer.count > kMinMessageThreshold then slot.considered.emplace id () else slot.considered
    reachedThreshold :=
      if peer.count = kMaxMessageThreshold + 1 then slot.reachedThreshold + 1 else slot.reachedThreshold }

def update (id : PeerId) (choices : List Nat) (draw : PeerId → Nat) : Slot × List Notice :=
  match slot.peers.lookup id with
  | none => (initCounting { slot with peers := slot.peers.insert id ⟨.counting, 0, now, now⟩ }, [])
  | some peer =>
    if peer.state = .squelched ∧ now > peer.expire then
      let peer := { peer with state := .counting, lastMessage := now }
      (initCounting { slot with peers := slot.peers.insert id peer }, [])
    else
      let peer := { peer with lastMessage := now }
      let slot := { slot with peers := slot.peers.insert id peer }
      -- report a message from a squelched peer
      let notices := if peer.state = .squelched then [.ignored id] else []
      if slot.state ≠ .counting ∨ peer.state = .squelched then (slot, notices)
      else
        let slot := countMessage slot id peer
        if now - slot.lastSelected > 2 * kMaxUnsquelchExpireDefault then (initCounting slot, [])
        else if slot.reachedThreshold = slot.maxSelectedPeers then select slot now choices draw
        else (slot, [])

def resetPeer (peer : PeerInfo) : PeerInfo := { peer with state := .counting, count := 0, expire := now }

def resetSelection : Slot :=
  { slot with
    peers := slot.peers.mapVal fun _ => resetPeer now
    considered := ∅
    reachedThreshold := 0
    state := .counting }

def leavePool (id : PeerId) (peer : PeerInfo) : Slot :=
  if id ∈ slot.considered then
    { slot with
      reachedThreshold :=
        if peer.count > kMaxMessageThreshold then slot.reachedThreshold - 1 else slot.reachedThreshold
      considered := slot.considered.erase id }
  else slot

/-- The end of `deletePeer`: the peer is erased, or starts again. -/
def release (id : PeerId) (peer : PeerInfo) (erase : Bool) : Slot :=
  { slot with
    peers := if erase then slot.peers.erase id else slot.peers.insert id { peer with lastMessage := now, count := 0 } }

def squelchedPeers : List PeerId :=
  (slot.peers.entries.filter fun e => e.2.state = .squelched).map Sigma.fst

/-- The peer is gone (`erase`) or has been idling. -/
def deletePeer (id : PeerId) (erase : Bool) : Slot × List Notice :=
  match slot.peers.lookup id with
  | none => (slot, [])
  | some peer =>
    if peer.state = .selected then
      (release (resetSelection slot now) now id (resetPeer now peer) erase, slot.squelchedPeers.map .unsquelch)
    else (release (leavePool slot id peer) now id peer erase, [])

def deleteIfIdle (slot : Slot) (id : PeerId) : Slot × List Notice :=
  match slot.peers.lookup id with
  | some peer => if now - peer.lastMessage > kIdled then slot.deletePeer now id false else (slot, [])
  | none => (slot, [])

def deleteIdlePeer : Slot × List Notice :=
  slot.peers.keys.foldl (fun acc id =>
    let (slot, notices) := deleteIfIdle now acc.1 id
    (slot, acc.2 ++ notices)) (slot, [])

end

end

end Slot

structure SlotNotice (K : Type) where
  validator : K
  notice : Notice
  deriving DecidableEq, Repr

structure Slots (K : Type) where
  slots : HashMap K Slot
  maxSelectedPeers : UInt16
  /-- The peers that sent a message, by its hash. -/
  peersWithMessage : AgedMap Uint256 (HashSet PeerId)

namespace Slots

variable {K : Type} [DecidableEq K]

def new (maxSelectedPeers : UInt16) : Slots K := ⟨∅, maxSelectedPeers, ∅⟩

def addPeerMessage (s : Slots K) (now : Int) (key : Uint256) (id : PeerId) : Bool × Slots K :=
  let seen := s.peersWithMessage.expire now kIdled
  if key ≠ 0 then
    match seen.lookup key with
    | none => (true, { s with peersWithMessage := seen.insert key (now, AList.insert id () ∅) })
    | some e =>
      if id ∈ e.2 then (false, { s with peersWithMessage := seen })
      else (true, { s with peersWithMessage := seen.assign key (e.2.insert id ()) })
  else (true, { s with peersWithMessage := seen })

def about (validator : K) (notices : List Notice) : List (SlotNotice K) := notices.map fun n => ⟨validator, n⟩

def updateSlotAndSquelch (s : Slots K) (now : Int) (key : Uint256) (validator : K) (id : PeerId) (choices : List Nat)
    (draw : PeerId → Nat) : Slots K × List (SlotNotice K) :=
  let (added, s) := s.addPeerMessage now key id
  if added then
    let slot := (s.slots.lookup validator).getD (Slot.new now s.maxSelectedPeers)
    let (slot, notices) := slot.update now id choices draw
    ({ s with slots := s.slots.insert validator slot }, about validator notices)
  else (s, [])

def deletePeer (s : Slots K) (now : Int) (id : PeerId) (erase : Bool) : Slots K × List (SlotNotice K) :=
  ({ s with slots := s.slots.mapVal fun _ slot => (slot.deletePeer now id erase).1 },
    s.slots.entries.flatMap fun e => about e.1 (e.2.deletePeer now id erase).2)

/-- The slots that stopped receiving messages from the validator are dropped. -/
def deleteIdlePeers (s : Slots K) (now : Int) : Slots K × List (SlotNotice K) :=
  let slots := s.slots.mapVal fun _ slot => (slot.deleteIdlePeer now).1
  ({ s with slots := slots.filterVal fun _ slot => ¬ now - slot.lastSelected > kMaxUnsquelchExpireDefault },
    s.slots.entries.flatMap fun e => about e.1 (e.2.deleteIdlePeer now).2)

end Slots

end Xrpl.ReduceRelay

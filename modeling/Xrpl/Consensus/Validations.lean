import Xrpl.Lib.HashMap
import Xrpl.Consensus.LedgerTrie

/-!
# Current and recent validations

The class `Validations` of the consensus code.  A trusted validation counts in the ancestry trie once its ledger has
been acquired; until then the node waits in `acquiring_`, and its prior ledger in `lastLedger_` stays in the trie.

What the code asks from outside is an `Adaptor`: the answers of `acquire`, and the order in which a hash container is
iterated.  Both may differ from one call to the next.  Times are numbers of seconds.
-/

namespace Xrpl.Consensus

structure ValidationParms where
  validationCurrentWall : Int := 5 * 60
  validationCurrentLocal : Int := 3 * 60
  validationCurrentEarly : Int := 3 * 60
  validationSetExpires : Int := 10 * 60
  validationFRESHNESS : Int := 20

/-- A validation must be larger than all unexpired sequence numbers before it. -/
structure SeqEnforcer where
  seq_ : Nat := 0
  when_ : Int := 0

namespace SeqEnforcer

/-- `operator()`: try to advance the largest sequence number. -/
def advance (e : SeqEnforcer) (now : Int) (s : Nat) (p : ValidationParms) : Bool × SeqEnforcer :=
  let e := if now > e.when_ + p.validationSetExpires then { e with seq_ := 0 } else e
  if s ≤ e.seq_ then (false, e) else (true, ⟨s, now⟩)

def largest (e : SeqEnforcer) : Nat := e.seq_

end SeqEnforcer

def isCurrent (p : ValidationParms) (now signTime seenTime : Int) : Bool :=
  signTime > now - p.validationCurrentEarly && signTime < now + p.validationCurrentWall &&
    (seenTime = 0 || seenTime < now + p.validationCurrentLocal)

inductive ValStatus where
  | current
  | stale
  | badSeq
  | multiple
  | conflicting
  deriving DecidableEq

structure Validation (ID : Type) where
  ledgerID : ID
  seq : Nat
  signTime : Int
  seenTime : Int
  trusted : Bool
  full : Bool
  cookie : Nat

namespace Validation

def setTrusted {ID : Type} (val : Validation ID) : Validation ID := { val with trusted := true }

def setUntrusted {ID : Type} (val : Validation ID) : Validation ID := { val with trusted := false }

end Validation

section

variable {NodeID Ledger ID : Type} [LedgerData Ledger ID]

variable (Ledger) in
/-- What happens outside: `acquire n id` answers the request with number `n`, and `order n` is how the containers are
iterated at that point. -/
structure Adaptor where
  acquire : Nat → ID → Option Ledger
  order : Nat → {α : Type} → List α → List α
  acquire_id : ∀ {n id ledger}, acquire n id = some ledger → ledgerID ledger = id
  order_perm : ∀ n {α : Type} (l : List α), (order n l).Perm l

variable (NodeID Ledger) in
/-- The members of the class, and the number of times the adaptor has been asked. -/
structure Validations where
  current_ : HashMap NodeID (Validation ID) := ∅
  localSeqEnforcer_ : SeqEnforcer := {}
  seqEnforcers_ : HashMap NodeID SeqEnforcer := ∅
  byLedger_ : AgedMap ID (HashMap NodeID (Validation ID)) := ∅
  bySequence_ : AgedMap Nat (HashMap NodeID (Validation ID)) := ∅
  toKeep_ : Option (Nat × Nat) := none
  refreshTime : Int := 0
  trie_ : LedgerTrie Ledger := LedgerTrie.init
  lastLedger_ : HashMap NodeID Ledger := ∅
  acquiring_ : HashMap (Nat × ID) (HashSet NodeID) := ∅
  parms_ : ValidationParms := {}
  asked : Nat := 0

namespace Validations

variable [DecidableEq NodeID] [LinearOrder ID]

section

variable (v : Validations NodeID Ledger)

def ask : Validations NodeID Ledger := { v with asked := v.asked + 1 }

/-- A node no longer waits for a ledger, and the entry goes with the last one that waits. -/
def stopAcquiring (key : Nat × ID) (nodeID : NodeID) : Validations NodeID Ledger :=
  match v.acquiring_.lookup key with
  | none => v
  | some nodes =>
    let nodes := nodes.erase nodeID
    { v with acquiring_ := if nodes.entries.isEmpty then v.acquiring_.erase key else v.acquiring_.insert key nodes }

def removeTrie (nodeID : NodeID) (val : Validation ID) :
    Option (Validations NodeID Ledger) :=
  let v := v.stopAcquiring (val.seq, val.ledgerID) nodeID
  match v.lastLedger_.lookup nodeID with
  | none => some v
  | some ledger =>
    if ledgerID ledger = val.ledgerID then do
      let (_, trie) ← v.trie_.remove ledger 1
      return { v with trie_ := trie, lastLedger_ := v.lastLedger_.erase nodeID }
    else some v

def trieWithout (nodeID : NodeID) : Option (LedgerTrie Ledger) :=
  match v.lastLedger_.lookup nodeID with
  | none => some v.trie_
  | some prior => (v.trie_.remove prior 1).map Prod.snd

/-- `updateTrie` with a ledger: the ledger takes the place of the one the node validated before. -/
def updateTrieLedger (nodeID : NodeID) (ledger : Ledger) :
    Option (Validations NodeID Ledger) := do
  let trie ← v.trieWithout nodeID
  let trie ← trie.insert ledger 1
  return { v with trie_ := trie, lastLedger_ := v.lastLedger_.insert nodeID ledger }

end

section

variable (a : Adaptor Ledger)

section

variable (v : Validations NodeID Ledger)

def checkOne (key : Nat × ID) (nodes : HashSet NodeID) :
    Option (Validations NodeID Ledger) :=
  match a.acquire v.asked key.2 with
  | none => some v.ask
  | some ledger => do
    let v ← (a.order v.asked nodes.keys).foldlM (fun v nodeID => v.updateTrieLedger nodeID ledger) v.ask
    return { v with acquiring_ := v.acquiring_.erase key }

def checkAcquired : Option (Validations NodeID Ledger) :=
  (a.order v.asked v.acquiring_.entries).foldlM (fun v e => checkOne a v e.1 e.2) v.ask

def startAcquiring (key : Nat × ID) (nodeID : NodeID) : Validations NodeID Ledger :=
  { v with acquiring_ := v.acquiring_.insert key (((v.acquiring_.lookup key).getD ∅).insert nodeID ()) }

/-- `updateTrie` with a trusted validation: it counts once its ledger is acquired. -/
def updateTrie (nodeID : NodeID) (val : Validation ID)
    (prior : Option (Nat × ID)) : Option (Validations NodeID Ledger) := do
  -- clear any prior acquiring ledger for this node
  let v := prior.elim v fun key => v.stopAcquiring key nodeID
  let v ← checkAcquired a v
  let valPair := (val.seq, val.ledgerID)
  if valPair ∈ v.acquiring_ then return v.startAcquiring valPair nodeID
  else
    match a.acquire v.asked val.ledgerID with
    | some ledger => v.ask.updateTrieLedger nodeID ledger
    | none => return v.ask.startAcquiring valPair nodeID

def flushStale (now : Int) (v : Validations NodeID Ledger) (nodeID : NodeID) (val : Validation ID) :
    Option (Validations NodeID Ledger) :=
  if isCurrent v.parms_ now val.signTime val.seenTime then some v
  else do
    let v ← v.removeTrie nodeID val
    return { v with current_ := v.current_.erase nodeID }

/-- Iterate current validations, flushing any which are stale; the live ones are what the callers look at. -/
def current (now : Int) (v : Validations NodeID Ledger) :
    Option (List (Σ _ : NodeID, Validation ID) × Validations NodeID Ledger) := do
  let records := a.order v.asked v.current_.entries
  let v ← records.foldlM (fun v e => flushStale now v e.1 e.2) v.ask
  return (records.filter fun e => isCurrent v.parms_ now e.2.signTime e.2.seenTime, v)

def withTrie (now : Int) (v : Validations NodeID Ledger) :
    Option (Validations NodeID Ledger) := do
  let (_, v) ← current a now v
  checkAcquired a v

/-! ### The interface -/

/-- Whether the local node can issue a validation for the sequence number; `clock` is the present time. -/
def canValidateSeq (clock : Int) (v : Validations NodeID Ledger) (s : Nat) : Bool × Validations NodeID Ledger :=
  let (ok, e) := v.localSeqEnforcer_.advance clock s v.parms_
  (ok, { v with localSeqEnforcer_ := e })

/-- `bySequence_[val.seq()].emplace(nodeID, val)`: the validation that is tracked for the sequence number. -/
def trackSequence (clock : Int) (v : Validations NodeID Ledger) (nodeID : NodeID) (val : Validation ID) :
    Validation ID × Validations NodeID Ledger :=
  let (vals, bySequence) := v.bySequence_.getOrNew clock ∅ val.seq
  let tracked :=
    match vals.lookup nodeID with
    | none => val
    | some seqVal =>
      -- the entry we are already tracking may have been signed so long ago that it is disregarded
      let diff := max seqVal.signTime val.signTime - min seqVal.signTime val.signTime
      if diff > v.parms_.validationCurrentWall ∧ val.signTime > seqVal.signTime then val else seqVal
  (tracked, { v with bySequence_ := bySequence.assign val.seq (vals.insert nodeID tracked) })

/-- Why a validation that does not advance its node's sequence number is refused. -/
def refusal (tracked val : Validation ID) : ValStatus :=
  if tracked.seq = val.seq then
    if tracked.ledgerID ≠ val.ledgerID then .conflicting
    else if tracked.signTime ≠ val.signTime then .conflicting
    else if tracked.cookie ≠ val.cookie then .multiple
    else .badSeq
  else .badSeq

def makeCurrent (nodeID : NodeID) (val : Validation ID)
    (prior : Option (Nat × ID)) : Option (Validations NodeID Ledger) :=
  let v := { v with current_ := v.current_.insert nodeID val }
  if val.trusted then updateTrie a v nodeID val prior else some v

/-- The last part of `add`: an existing current validation is replaced only if the new one is newer. -/
def addCurrent (nodeID : NodeID) (val : Validation ID) :
    Option (ValStatus × Validations NodeID Ledger) :=
  match v.current_.lookup nodeID with
  | some oldVal =>
    if val.signTime > oldVal.signTime then
      (makeCurrent a v nodeID val (some (oldVal.seq, oldVal.ledgerID))).map (.current, ·)
    else some (.stale, v)
  | none => (makeCurrent a v nodeID val none).map (.current, ·)

/-- Add a new validation, at the network time `now` and the time `clock` of the local clock. -/
def add (now clock : Int) (v : Validations NodeID Ledger) (nodeID : NodeID)
    (val : Validation ID) : Option (ValStatus × Validations NodeID Ledger) :=
  if !isCurrent v.parms_ now val.signTime val.seenTime then some (.stale, v)
  else
    let (tracked, v) := v.trackSequence clock nodeID val
    let (ok, enf) := ((v.seqEnforcers_.lookup nodeID).getD {}).advance clock val.seq v.parms_
    let v := { v with seqEnforcers_ := v.seqEnforcers_.insert nodeID enf }
    if !ok then some (refusal tracked val, v)
    else
      let (vals, byLedger) := v.byLedger_.getOrNew clock ∅ val.ledgerID
      addCurrent a { v with byLedger_ := byLedger.assign val.ledgerID (vals.insert nodeID val) } nodeID val

def setSeqToKeep (low high : Nat) : Validations NodeID Ledger :=
  { v with toKeep_ := some (low, high) }

end

def refresh (clock : Int) (v : Validations NodeID Ledger) (low high : Nat) :
    Validations NodeID Ledger :=
  let keep (seq : Nat) : Bool := low ≤ seq && seq < high
  let ledgers := v.byLedger_.entries.filter fun e => ((a.order v.asked e.2.2.entries).head?.any fun x => keep x.2.seq)
  let seqs := v.bySequence_.entries.filter fun e => keep e.1
  { v with
    refreshTime := clock + v.parms_.validationSetExpires - v.parms_.validationFRESHNESS
    byLedger_ := (a.order v.asked ledgers).foldl (fun m e => m.touch clock e.1) v.byLedger_
    bySequence_ := (a.order v.asked seqs).foldl (fun m e => m.touch clock e.1) v.bySequence_
    asked := v.asked + 1 }

def expire (a : Adaptor Ledger) (clock : Int) (v : Validations NodeID Ledger) : Validations NodeID Ledger :=
  let v :=
    match v.toKeep_ with
    | some (low, high) => if v.refreshTime ≤ clock then v.refresh a clock low high else v
    | none => v
  { v with
    byLedger_ := v.byLedger_.expire clock v.parms_.validationSetExpires
    bySequence_ := v.bySequence_.expire clock v.parms_.validationSetExpires }

def changeTrust (added removed : List NodeID) (v : Validations NodeID Ledger) (nodeID : NodeID)
    (val : Validation ID) : Option (Validations NodeID Ledger) :=
  if nodeID ∈ added then
    updateTrie a { v with current_ := v.current_.insert nodeID val.setTrusted } nodeID val.setTrusted none
  else if nodeID ∈ removed then
    { v with current_ := v.current_.insert nodeID val.setUntrusted }.removeTrie nodeID val.setUntrusted
  else some v

def trustChanged (added removed : List NodeID) (v : Validations NodeID Ledger) :
    Option (Validations NodeID Ledger) := do
  let v ← (a.order v.asked v.current_.entries).foldlM (fun v e => changeTrust a added removed v e.1 e.2) v.ask
  let mark (nodeID : NodeID) (val : Validation ID) : Validation ID :=
    if nodeID ∈ added then val.setTrusted else if nodeID ∈ removed then val.setUntrusted else val
  return { v with byLedger_ := v.byLedger_.mapVal fun _ e => (e.1, HashMap.mapVal mark e.2) }

/-- `std::max_element` over the ledgers being acquired: most nodes first, then the greater id. -/
def dominantAcquiring (entries : List (Σ _ : Nat × ID, HashSet NodeID)) : Option (Nat × ID) :=
  let best := entries.foldl (fun best e =>
    match best with
    | none => some e
    | some b =>
      if (toLex (b.2.entries.length, b.1.2) : ℕ ×ₗ ID) < toLex (e.2.entries.length, e.1.2) then some e else some b) none
  best.map Sigma.fst

/-- The choice between the preferred ledger and the current working ledger. -/
def chooseWorking (preferred : SpanTip Ledger ID) (curr : Ledger) : Nat × ID :=
  -- if we are the parent of the preferred ledger, stick with our current ledger
  if preferred.seq = seq curr + 1 ∧ ancestor preferred.ledger_ (seq curr) = ledgerID curr then
    (seq curr, ledgerID curr)
  else if preferred.seq > seq curr then (preferred.seq, preferred.id)
  else if ancestor curr preferred.seq ≠ preferred.id then (preferred.seq, preferred.id)
  else (seq curr, ledgerID curr)

def getPreferred (a : Adaptor Ledger) (now : Int) (v : Validations NodeID Ledger) (curr : Ledger) :
    Option (Option (Nat × ID) × Validations NodeID Ledger) := do
  let v ← withTrie a now v
  let (preferred, trie) ← v.trie_.getPreferred v.localSeqEnforcer_.largest
  let v := { v with trie_ := trie }
  match preferred with
  | none => return (dominantAcquiring (a.order v.asked v.acquiring_.entries), v.ask)
  | some preferred => return (some (chooseWorking preferred curr), v)

/-- The number of current trusted validators working on a ledger after the given one. -/
def getNodesAfter (now : Int) (v : Validations NodeID Ledger) (ledger : Ledger) (id : ID) :
    Option (Nat × Validations NodeID Ledger) :=
  if ledgerID ledger = id then do
    let v ← withTrie a now v
    return (uint32Sub (v.trie_.branchSupport ledger) (v.trie_.tipSupport ledger), v)
  else
    some (v.lastLedger_.entries.countP fun e => seq e.2 > 0 ∧ ancestor e.2 (seq e.2 - 1) = id, v)

def currentTrusted (now : Int) (v : Validations NodeID Ledger) :
    Option (List (Validation ID) × Validations NodeID Ledger) := do
  let (records, v) ← current a now v
  return ((records.map Sigma.snd).filter fun val => val.trusted && val.full, v)

end

def flush (v : Validations NodeID Ledger) : Validations NodeID Ledger := { v with current_ := ∅ }

/-- A call of the interface; `now` is the network time and `clock` the time of the local clock. -/
inductive Call (NodeID Ledger : Type) {ID : Type} [LedgerData Ledger ID] where
  | add (now clock : Int) (nodeID : NodeID) (val : Validation ID)
  | trustChanged (added removed : List NodeID)
  | expire (clock : Int)
  | setSeqToKeep (low high : Nat)
  | flush
  | getPreferred (now : Int) (curr : Ledger)
  | getNodesAfter (now : Int) (ledger : Ledger) (id : ID)
  | currentTrusted (now : Int)
  | canValidateSeq (clock : Int) (s : Nat)

def Call.step (a : Adaptor Ledger) (v : Validations NodeID Ledger) :
    Call NodeID Ledger → Option (Validations NodeID Ledger)
  | .add now clock nodeID val => (v.add a now clock nodeID val).map Prod.snd
  | .trustChanged added removed => v.trustChanged a added removed
  | .expire clock => some (v.expire a clock)
  | .setSeqToKeep low high => some (v.setSeqToKeep low high)
  | .flush => some v.flush
  | .getPreferred now curr => (v.getPreferred a now curr).map Prod.snd
  | .getNodesAfter now ledger id => (v.getNodesAfter a now ledger id).map Prod.snd
  | .currentTrusted now => (v.currentTrusted a now).map Prod.snd
  | .canValidateSeq clock s => some (v.canValidateSeq clock s).2

def senders (calls : List (Call NodeID Ledger)) : Finset NodeID :=
  (calls.filterMap fun
    | .add _ _ nodeID _ => some nodeID
    | _ => none).toFinset

def run (a : Adaptor Ledger) (parms : ValidationParms) (calls : List (Call NodeID Ledger)) :
    Option (Validations NodeID Ledger) :=
  calls.foldlM (Call.step a) { parms_ := parms }

end Validations

end

/-- The ledgers of the network, whose ids are hashes.  `ancestors_` is what the skip list of the ledger has, the hashes
of at most 256 ancestors, so the history before them is not known. -/
structure RCLValidatedLedger where
  ledgerID_ : Nat
  ledgerSeq_ : Nat
  ancestors_ : List Nat

namespace RCLValidatedLedger

def minSeq (l : RCLValidatedLedger) : Nat := l.ledgerSeq_ - min l.ledgerSeq_ l.ancestors_.length

/-- `operator[]` -/
def ancestorAt (l : RCLValidatedLedger) (s : Nat) : Nat :=
  if l.minSeq ≤ s ∧ s ≤ l.ledgerSeq_ then
    if s = l.ledgerSeq_ then l.ledgerID_ else l.ancestors_.getD (l.ancestors_.length - (l.ledgerSeq_ - s)) 0
  else 0

def mismatchFrom (a b : RCLValidatedLedger) (lower : Nat) : Nat → Nat
  | 0 => 0
  | curr + 1 =>
    if a.ancestorAt (curr + 1) ≠ b.ancestorAt (curr + 1) ∧ lower ≤ curr + 1 then mismatchFrom a b lower curr
    else curr + 1

def mismatch (a b : RCLValidatedLedger) : Nat :=
  let lower := max a.minSeq b.minSeq
  let curr := mismatchFrom a b lower (min a.ledgerSeq_ b.ledgerSeq_)
  if curr < lower then 1 else curr + 1

end RCLValidatedLedger

instance : LedgerData RCLValidatedLedger Nat where
  genesis := ⟨0, 0, []⟩
  seq := RCLValidatedLedger.ledgerSeq_
  ancestor := RCLValidatedLedger.ancestorAt
  mismatch := RCLValidatedLedger.mismatch

end Xrpl.Consensus

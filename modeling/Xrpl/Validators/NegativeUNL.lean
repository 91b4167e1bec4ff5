import Xrpl.Lib.HashMap

/-!
# The negative UNL

Validators that are down are put on the negative UNL, an object of the state map.  A `ttUNL_MODIFY` transaction in a flag
ledger names a validator to disable or to re-enable (`applyUNLModify`), and the next flag ledger starts by making the
changes that are pending (`updateNegativeUNL`).  Before a flag ledger every validator votes for such transactions
(`doVoting`), on the list as it will be after the pending changes.

A hash set is a list without repetitions, in the order of its traversal.
-/

namespace Xrpl.NegativeUNL

abbrev Blob := List UInt8

abbrev LedgerIndex := UInt32

abbrev NodeID := BitVec 160

abbrev Uint256 := BitVec 256

inductive KeyType
  | secp256k1
  | ed25519
deriving DecidableEq, Repr

def publicKeyType : Blob → Option KeyType
  | [] => none
  | b :: slice =>
    if slice.length + 1 = 33 then
      if b = 0xED then some .ed25519
      else if b = 0x02 ∨ b = 0x03 then some .secp256k1
      else none
    else none

abbrev PublicKey := { slice : Blob // (publicKeyType slice).isSome }

def toPublicKey (slice : Blob) : Option PublicKey :=
  if h : (publicKeyType slice).isSome then some ⟨slice, h⟩ else none

def kFlagLedgerInterval : ℕ := 256

def isFlagLedger (seq : LedgerIndex) : Bool := seq.toNat % kFlagLedgerInterval = 0

structure DisabledValidator where
  publicKey : Option Blob
  firstLedgerSequence : LedgerIndex
deriving DecidableEq

structure NegativeUNLEntry where
  disabledValidators : Option (List DisabledValidator) := none
  validatorToDisable : Option Blob := none
  validatorToReEnable : Option Blob := none
deriving DecidableEq

namespace NegativeUNLEntry

variable (o : NegativeUNLEntry)

/-- The validators on the list; it is empty where the field is absent. -/
def listed : List DisabledValidator := o.disabledValidators.getD []

def keys : List Blob := o.listed.filterMap DisabledValidator.publicKey

def newNUnl (seq : LedgerIndex) : List DisabledValidator :=
  let kept := o.listed.filter fun v =>
    !(o.validatorToReEnable.isSome && v.publicKey.isSome && v.publicKey = o.validatorToReEnable)
  match o.validatorToDisable with
  | some validator => kept ++ [⟨some validator, seq⟩]
  | none => kept

/-- The object after the pending changes, unless the list is empty. -/
def update (seq : LedgerIndex) : Option NegativeUNLEntry :=
  if o.validatorToDisable.isNone && o.validatorToReEnable.isNone then some o
  else if (o.newNUnl seq).isEmpty then none
  else some { disabledValidators := some (o.newNUnl seq) }

end NegativeUNLEntry

structure Ledger where
  seq : LedgerIndex
  negUnl : Option NegativeUNLEntry := none
deriving DecidableEq

namespace Ledger

def negativeUNL (l : Ledger) : List PublicKey :=
  match l.negUnl with
  | some sle => (sle.listed.filterMap fun n => n.publicKey.bind toPublicKey).dedup
  | none => []

def validatorToDisable (l : Ledger) : Option PublicKey :=
  l.negUnl.bind fun sle => sle.validatorToDisable.bind toPublicKey

def validatorToReEnable (l : Ledger) : Option PublicKey :=
  l.negUnl.bind fun sle => sle.validatorToReEnable.bind toPublicKey

def updateNegativeUNL (l : Ledger) : Ledger := { l with negUnl := l.negUnl.bind fun sle => sle.update l.seq }

end Ledger

structure UNLModify where
  disabling : Option UInt8
  ledgerSequence : Option LedgerIndex
  validator : Option Blob
deriving DecidableEq

inductive TER
  | tefFAILURE
deriving DecidableEq, Repr

/-- The part of `applyUNLModify` that changes the object. -/
def NegativeUNLEntry.modify (o : NegativeUNLEntry) (disabling : Bool) (validator : Blob) :
    Except TER NegativeUNLEntry :=
  let found := o.listed.any fun v => v.publicKey = some validator
  if disabling then
    -- cannot have more than one toDisable
    if o.validatorToDisable.isSome then .error .tefFAILURE
    -- cannot be the same as toReEnable
    else if o.validatorToReEnable = some validator then .error .tefFAILURE
    -- cannot be in negative UNL already
    else if found then .error .tefFAILURE
    else .ok { o with validatorToDisable := some validator }
  else
    -- cannot have more than one toReEnable
    if o.validatorToReEnable.isSome then .error .tefFAILURE
    -- cannot be the same as toDisable
    else if o.validatorToDisable = some validator then .error .tefFAILURE
    -- must be in negative UNL
    else if !found then .error .tefFAILURE
    else .ok { o with validatorToReEnable := some validator }

def applyUNLModify (l : Ledger) (tx : UNLModify) : Except TER Ledger :=
  if !isFlagLedger l.seq then .error .tefFAILURE
  else
    match tx.disabling, tx.ledgerSequence, tx.validator with
    | some disabling, some seq, some validator =>
      if 1 < disabling then .error .tefFAILURE
      else if seq ≠ l.seq then .error .tefFAILURE
      else if (publicKeyType validator).isNone then .error .tefFAILURE
      else do
        let negUnlObject ← (l.negUnl.getD {}).modify (disabling ≠ 0) validator
        return { l with negUnl := some negUnlObject }
    | _, _, _ => .error .tefFAILURE

def apply (l : Ledger) (tx : UNLModify) : Ledger :=
  match applyUNLModify l tx with
  | .ok l' => l'
  | .error _ => l

def Ledger.child (parent : Ledger) : Ledger :=
  let built : Ledger := { parent with seq := parent.seq + 1 }
  if isFlagLedger built.seq then built.updateNegativeUNL else built

def buildLedger (parent : Ledger) (txs : List UNLModify) : Ledger := txs.foldl apply parent.child

def chain (seq : LedgerIndex) (ledgers : List (List UNLModify)) : Ledger := ledgers.foldl buildLedger { seq }

inductive NegativeUNLModify
  | toDisable
  | toReEnable
deriving DecidableEq, Repr

structure NegativeUNLVote where
  myId : NodeID
  newValidators : HashMap NodeID LedgerIndex := ∅

structure Candidates where
  toDisableCandidates : List NodeID
  toReEnableCandidates : List NodeID

namespace NegativeUNLVote

def kNegativeUnlLowWaterMark : ℕ := kFlagLedgerInterval * 50 / 100
def kNegativeUnlHighWaterMark : ℕ := kFlagLedgerInterval * 80 / 100
def kNegativeUnlMinLocalValsToVote : ℕ := kFlagLedgerInterval * 90 / 100
def kNewValidatorDisableSkip : ℕ := kFlagLedgerInterval * 2

/-- The transaction that `addTx` adds. -/
def addTx (seq : LedgerIndex) (vp : PublicKey) (modify : NegativeUNLModify) : UNLModify where
  disabling := some (if modify = .toDisable then 1 else 0)
  ledgerSequence := some seq
  validator := some vp.1

def choose (randomPadData : Uint256) (first : NodeID) (candidates : List NodeID) : NodeID :=
  let randomPad : NodeID := randomPadData.extractLsb' 96 160
  candidates.foldl (fun txNodeID c => if c ^^^ randomPad < txNodeID ^^^ randomPad then c else txNodeID) first

/-- The validations of the past 256 ledgers, by validator.  `hashes` are those in the skip list of the ledger, and
`getTrustedForLedger` gives the nodes that signed the trusted validations of a ledger. -/
def buildScoreTable (vote : NegativeUNLVote) (prevLedger : Ledger) (hashes : Option (List Uint256)) (unl : List NodeID)
    (getTrustedForLedger : Uint256 → LedgerIndex → List NodeID) : Option (HashMap NodeID UInt32) :=
  let seq := prevLedger.seq + 1
  match hashes with
  | none => none
  | some ledgerAncestors =>
    let numAncestors := ledgerAncestors.length
    if numAncestors < kFlagLedgerInterval then none
    else
      let zero : HashMap NodeID UInt32 := unl.foldl (fun table k => table.insert k 0) ∅
      let scoreTable := (List.range kFlagLedgerInterval).foldl (fun table i =>
        (getTrustedForLedger (ledgerAncestors.getD (numAncestors - 1 - i) 0) (seq - 2 - UInt32.ofNat i)).foldl
          (fun table v => table.modify v (· + 1)) table) zero
      let myValidationCount := ((scoreTable.lookup vote.myId).getD 0).toNat
      if myValidationCount < kNegativeUnlMinLocalValsToVote then none
      else if kNegativeUnlMinLocalValsToVote < myValidationCount ∧ myValidationCount ≤ kFlagLedgerInterval then
        some scoreTable
      else none

/-- A number as a `float`: 24 significant bits, rounded to the nearest, and to the even one of two. -/
def toFloat (n : ℕ) : ℕ :=
  let unit := 2 ^ (n.log2 - 23)
  let up := unit < 2 * (n % unit) ∨ unit = 2 * (n % unit) ∧ n / unit % 2 = 1
  (n / unit + if up then 1 else 0) * unit

def findAllCandidates (vote : NegativeUNLVote) (unl negUnl : List NodeID) (scoreTable : HashMap NodeID UInt32) :
    Candidates :=
  -- a quarter of the validators, which is exact in a `float`, rounded up
  let maxNegativeListed := (toFloat unl.length + 3) / 4
  let negativeListed := unl.countP fun n => n ∈ negUnl
  let canAdd := negativeListed < maxNegativeListed
  let toDisable := scoreTable.entries.filter fun e =>
    canAdd && e.2.toNat < kNegativeUnlLowWaterMark && e.1 ∉ negUnl && e.1 ∉ vote.newValidators
  let toReEnable := scoreTable.entries.filter fun e => kNegativeUnlHighWaterMark < e.2.toNat && e.1 ∈ negUnl
  { toDisableCandidates := toDisable.map Sigma.fst
    toReEnableCandidates :=
      if toReEnable.isEmpty then negUnl.filter fun n => n ∉ unl else toReEnable.map Sigma.fst }

def purgeNewValidators (vote : NegativeUNLVote) (seq : LedgerIndex) : NegativeUNLVote :=
  { vote with newValidators := vote.newValidators.filterVal fun _ added =>
      (seq - added).toNat ≤ kNewValidatorDisableSkip }

def nextNegativeUNL (prevLedger : Ledger) : List PublicKey :=
  let negUnlKeys := prevLedger.negativeUNL
  let negUnlKeys := match prevLedger.validatorToDisable with
    | some k => negUnlKeys.insert k
    | none => negUnlKeys
  match prevLedger.validatorToReEnable with
  | some k => negUnlKeys.erase k
  | none => negUnlKeys

variable (calcNodeID : PublicKey → NodeID)

def addKeys (keys : List PublicKey) (nidToKeyMap : HashMap NodeID PublicKey) : HashMap NodeID PublicKey :=
  keys.foldl (fun map k => map.emplace (calcNodeID k) k) nidToKeyMap

/-- The transaction for one of the candidates, if there are any.  There is no result where `at` would throw. -/
def modifyTx (seq : LedgerIndex) (hash : Uint256) (nidToKeyMap : HashMap NodeID PublicKey)
    (modify : NegativeUNLModify) : List NodeID → Option (List UNLModify)
  | [] => some []
  | first :: candidates => do
    let vp ← nidToKeyMap.lookup (choose hash first candidates)
    return [addTx seq vp modify]

/-- The transactions that a validator adds to the initial set.  `hash` is that of the ledger. -/
def doVoting (vote : NegativeUNLVote) (prevLedger : Ledger) (hash : Uint256) (hashes : Option (List Uint256))
    (unlKeys : List PublicKey) (getTrustedForLedger : Uint256 → LedgerIndex → List NodeID) :
    Option (NegativeUNLVote × List UNLModify) :=
  let unlNodeIDs := (unlKeys.map calcNodeID).dedup
  match vote.buildScoreTable prevLedger hashes unlNodeIDs getTrustedForLedger with
  | none => some (vote, [])
  | some scoreTable => do
    let negUnlKeys := nextNegativeUNL prevLedger
    let negUnlNodeIDs := (negUnlKeys.map calcNodeID).dedup
    let nidToKeyMap := addKeys calcNodeID negUnlKeys (addKeys calcNodeID unlKeys ∅)
    let seq := prevLedger.seq + 1
    let vote := vote.purgeNewValidators seq
    let candidates := vote.findAllCandidates unlNodeIDs negUnlNodeIDs scoreTable
    let toDisable ← modifyTx seq hash nidToKeyMap .toDisable candidates.toDisableCandidates
    let toReEnable ← modifyTx seq hash nidToKeyMap .toReEnable candidates.toReEnableCandidates
    return (vote, toDisable ++ toReEnable)

end NegativeUNLVote

end Xrpl.NegativeUNL

import Xrpl.Lib.OrderedMap
import Xrpl.Lib.Tally
import Xrpl.Validators.Manifest

/-!
# The validator list

Publishers sign lists of validator keys.  `ValidatorList` keeps for each publisher the current list and those that
become effective later (`remaining`), and it counts on how many lists a key stands (`keyListings`).

* `load` reads the configuration, `applyLists` takes signed lists, and `updateTrusted` goes on to the lists that have
  become effective, removes those that have expired and determines the trusted keys;
* `ListCall` are the calls, and `step` is one call.  What a call changed before it throws stays changed.
-/

namespace Xrpl.Validators

/-- In the order of desirability. -/
inductive ListDisposition
  | accepted
  | expired
  | pending
  | sameSequence
  | knownSequence
  | stale
  | untrusted
  | unsupportedVersion
  | invalid
deriving DecidableEq, Repr

namespace ListDisposition

def rank : ListDisposition → ℕ
  | accepted => 0
  | expired => 1
  | pending => 2
  | sameSequence => 3
  | knownSequence => 4
  | stale => 5
  | untrusted => 6
  | unsupportedVersion => 7
  | invalid => 8

def accepts (d : ListDisposition) : Bool := d = accepted || d = expired

end ListDisposition

inductive PublisherStatus
  | available
  | expired
  | unavailable
  | revoked
deriving DecidableEq, Repr

structure PublisherList where
  list : List PublicKey := []
  manifests : List RawManifest := []
  sequence : ℕ := 0
  validFrom : ℕ := 0
  validUntil : ℕ := 0

structure PublisherListCollection where
  status : PublisherStatus := .unavailable
  current : PublisherList := {}
  remaining : OrderedMap ℕ PublisherList := .empty
  maxSequence : Option ℕ := none

/-- A validator of a list: its key, if there is a string for it, with nothing in it where the string is no key. -/
structure ListEntry where
  validationPublicKey : Option (Option PublicKey)
  manifest : Option RawManifest := none

/-- The JSON of a list.  A number is missing where it is no integer; the effective time may be left out. -/
structure ListJson where
  sequence : Option ℤ
  expiration : Option ℤ
  effective : Option (Option ℤ) := none
  validators : Option (List ListEntry)

/-- A signed list: the keys under which the signature is valid, and the JSON, if there is any. -/
structure ValidatorBlobInfo where
  verifies : PublicKey → Bool
  list : Option ListJson
  manifest : Option RawManifest := none

/-- What is thrown by `asUInt` and by `std::map::at`. -/
inductive Thrown
  | negative
  | outOfRange
deriving DecidableEq, Repr

structure ListData where
  sequence : ℕ
  validFrom : ℕ
  validUntil : ℕ
  validators : List ListEntry

def asUInt (n : ℤ) : Except Thrown ℕ := if n < 0 then .error .negative else .ok n.toNat

def ListJson.data (j : ListJson) : Option (Except Thrown ListData) :=
  match j.sequence, j.expiration, j.effective.getD (some 0), j.validators with
  | some sequence, some expiration, some effective, some validators => some do
    let sequence ← asUInt sequence
    let validFrom ← asUInt effective
    let validUntil ← asUInt expiration
    pure { sequence, validFrom, validUntil, validators }
  | _, _, _, _ => none

def ListData.keys (d : ListData) : List PublicKey :=
  (d.validators.filterMap fun e => e.validationPublicKey.bind id).insertionSort (· ≤ ·)

def ListData.manifests (d : ListData) : List RawManifest :=
  d.validators.filterMap fun e => if e.validationPublicKey.isSome then e.manifest else none

structure PublisherListStats where
  dispositions : List ListDisposition := []
  publisherKey : Option PublicKey := none
  status : PublisherStatus := .unavailable
  sequence : ℕ := 0

namespace PublisherListStats

def ofDisposition (d : ListDisposition) : PublisherListStats := { dispositions := [d] }

def bestDisposition (s : PublisherListStats) : ListDisposition :=
  s.dispositions.foldl (fun best d => if d.rank < best.rank then d else best) .invalid

def merge (result stats : PublisherListStats) : PublisherListStats :=
  if stats.bestDisposition.rank < result.bestDisposition.rank ∨
      stats.bestDisposition = result.bestDisposition ∧ result.sequence < stats.sequence then
    { stats with dispositions := stats.dispositions ++ result.dispositions }
  else { result with dispositions := result.dispositions ++ stats.dispositions }

end PublisherListStats

/-- A list takes the contents of a message; the manifests of its validators are added to those that are there. -/
def PublisherList.assign (publisher : PublisherList) (d : ListData) : PublisherList where
  list := d.keys
  manifests := publisher.manifests ++ d.manifests
  sequence := d.sequence
  validFrom := d.validFrom
  validUntil := d.validUntil

namespace PublisherListCollection

section

variable (c : PublisherListCollection)

/-- A list that is not yet effective is pending if it is new, or if it is missing among those that wait. -/
def judgePending (d : ListData) : Except Thrown ListDisposition :=
  match c.maxSequence with
  | none => .ok .pending
  | some maxSequence =>
    if maxSequence < d.sequence then .ok .pending
    else if (c.remaining.find d.sequence).isSome then .ok .knownSequence
    else
      match c.remaining.find maxSequence with
      | none => .error .outOfRange
      | some last => .ok (if d.validFrom < last.validFrom then .pending else .knownSequence)

def judge (now : ℕ) (d : ListData) : Except Thrown ListDisposition :=
  if d.validUntil ≤ d.validFrom then .ok .invalid
  else if d.sequence < c.current.sequence then .ok .stale
  else if d.sequence = c.current.sequence then .ok .sameSequence
  else if d.validUntil ≤ now then .ok .expired
  else if now < d.validFrom then c.judgePending d
  else .ok .accepted

/-- A list is stored: as the current one, in which case it may have been waiting, or to wait. -/
def take (d : ListData) (disposition : ListDisposition) : PublisherListCollection :=
  let maxSequence := some (c.maxSequence.elim d.sequence (max d.sequence))
  if disposition.accepts then
    let status := if disposition = .accepted then .available else .expired
    match c.remaining.find d.sequence with
    | some publisher => { status, current := publisher, remaining := c.remaining.erase d.sequence, maxSequence }
    | none => { c with status, current := c.current.assign d, maxSequence }
  else
    { c with
      remaining := c.remaining.assign d.sequence {} (·.assign d)
      maxSequence }

def remove (reason : PublisherStatus) : PublisherListCollection :=
  { c with current := { c.current with list := [] }, status := reason }

end

/-- The pass over the waiting lists at the end of `applyLists`. -/
def cleanUpList (current : ℕ) : List (ℕ × PublisherList) → List (ℕ × PublisherList)
  | [] => []
  | iter :: rest =>
    if iter.1 ≤ current || rest.head?.any (·.2.validFrom ≤ iter.2.validFrom) then cleanUpList current rest
    else iter :: cleanUpList current rest

lemma cleanUpList_sublist (current : ℕ) (l : List (ℕ × PublisherList)) : (cleanUpList current l).Sublist l := by
  induction l with
  | nil => exact .refl _
  | cons iter rest ih =>
    rw [cleanUpList]
    split_ifs
    · exact ih.cons _
    · exact ih.cons_cons _

def cleanUp (c : PublisherListCollection) : PublisherListCollection :=
  { c with remaining := ⟨cleanUpList c.current.sequence c.remaining.entries,
      c.remaining.sorted.sublist (cleanUpList_sublist _ _)⟩ }

def candidate (c : PublisherListCollection) (closeTime : ℕ) : Option PublisherList :=
  ((c.remaining.entries.takeWhile fun e => e.2.validFrom ≤ closeTime).getLast?).map Prod.snd

def rotate (c : PublisherListCollection) (candidate : PublisherList) (closeTime : ℕ) : PublisherListCollection :=
  { c with
    status := .available
    current := if candidate.validUntil ≤ closeTime then { candidate with list := [] } else candidate
    remaining := c.remaining.dropWhile fun _ l => l.validFrom ≤ closeTime }

/-- The last `validUntil` in a chain of lists that overlap. -/
def chainedExpiration : ℕ → List PublisherList → ℕ
  | expiration, [] => expiration
  | expiration, check :: lists =>
    if check.validFrom ≤ expiration then chainedExpiration check.validUntil lists else expiration

end PublisherListCollection

structure ValidatorList where
  validatorManifests : ManifestCache := {}
  publisherManifests : ManifestCache := {}
  publisherLists : HashMap PublicKey PublisherListCollection := ∅
  keyListings : Tally PublicKey := ∅
  trustedMasterKeys : Finset PublicKey := ∅
  listThreshold : ℕ := 1
  localPubKey : Option PublicKey := none
  localPublisherList : List PublicKey := []

namespace ValidatorList

def loadPublishers : List (Option PublicKey) → ValidatorList → Bool × ValidatorList
  | [], vl => (true, vl)
  | none :: _, vl => (false, vl)
  | some id :: keys, vl =>
    let status := if vl.publisherManifests.revoked id then .revoked else .unavailable
    loadPublishers keys { vl with publisherLists := HashMap.emplace vl.publisherLists id { status } }

def loadLocalKey (vl : ValidatorList) (localSigningKey : Option PublicKey) : ValidatorList :=
  let localPubKey := (localSigningKey.map vl.validatorManifests.getMasterKey).or vl.localPubKey
  { vl with
    localPubKey
    keyListings := localPubKey.elim vl.keyListings fun key => HashMap.emplace vl.keyListings key vl.listThreshold }

def loadConfigKeys (localSigningKey : Option PublicKey) :
    List (Option PublicKey) → ValidatorList → Bool × ValidatorList
  | [], vl => (true, vl)
  | none :: _, vl => (false, vl)
  | some id :: keys, vl =>
    loadConfigKeys localSigningKey keys
      (if some id = vl.localPubKey ∨ some id = localSigningKey ∨ id ∈ vl.keyListings then vl
      else
        { vl with
          keyListings := vl.keyListings.insert id vl.listThreshold
          localPublisherList := vl.localPublisherList ++ [id] })

def load (vl : ValidatorList) (localSigningKey : Option PublicKey) (configKeys publisherKeys : List (Option PublicKey))
    (listThreshold : Option ℕ) : Bool × ValidatorList :=
  match loadPublishers publisherKeys vl with
  | (false, vl) => (false, vl)
  | (true, vl) =>
    let size := vl.publisherLists.entries.length
    let vl := { vl with listThreshold := listThreshold.getD (if size < 3 then 1 else size / 2 + 1) }
    loadConfigKeys localSigningKey configKeys (vl.loadLocalKey localSigningKey)

def modifyCollection (vl : ValidatorList) (pubKey : PublicKey) (f : PublisherListCollection → PublisherListCollection) :
    ValidatorList :=
  { vl with publisherLists := vl.publisherLists.modify pubKey f }

/-- A key is listed once more, and it is no longer counted as untrusted. -/
def addKey (vl : ValidatorList) (key : PublicKey) : ValidatorList :=
  { vl with
    keyListings := vl.keyListings.add key
    validatorManifests := vl.validatorManifests.promoteToTrusted key }

def dropKey (vl : ValidatorList) (key : PublicKey) : ValidatorList := { vl with keyListings := vl.keyListings.drop key }

/-- The loop of `updatePublisherList` over the new and the old list, of at most `fuel` rounds. -/
def updateListings : ℕ → List PublicKey → List PublicKey → ValidatorList → ValidatorList
  | 0, _, _, vl => vl
  | _ + 1, [], [], vl => vl
  | fuel + 1, new :: news, [], vl => updateListings fuel news [] (vl.addKey new)
  | fuel + 1, [], old :: olds, vl => updateListings fuel [] olds (vl.dropKey old)
  | fuel + 1, new :: news, old :: olds, vl =>
    if new < old then updateListings fuel news (old :: olds) (vl.addKey new)
    else if old < new then updateListings fuel (new :: news) olds (vl.dropKey old)
    else updateListings fuel news olds vl

def applyValidatorManifest (vl : ValidatorList) (valManifest : RawManifest) : ValidatorList :=
  match deserializeManifest valManifest with
  | none => vl
  | some m =>
    if m.masterKey ∈ vl.keyListings then
      { vl with validatorManifests := (vl.validatorManifests.applyManifest m .uncapped).2 }
    else vl

def updatePublisherList (vl : ValidatorList) (current : PublisherList) (oldList : List PublicKey) : ValidatorList :=
  current.manifests.foldl applyValidatorManifest
    (updateListings (current.list.length + oldList.length) current.list oldList vl)

def removePublisherList (vl : ValidatorList) (publisherKey : PublicKey) (reason : PublisherStatus) : ValidatorList :=
  match vl.publisherLists.lookup publisherKey with
  | none => vl
  | some collection =>
    (collection.current.list.foldl (fun vl key => if key ∈ vl.keyListings then vl.dropKey key else vl) vl).modifyCollection
      publisherKey (·.remove reason)

/-- The manifest that comes with a list; a publisher that is revoked has no lists any more. -/
def applyPublisherManifest (vl : ValidatorList) (m : Manifest) : ManifestDisposition × ValidatorList :=
  let (result, publisherManifests) := vl.publisherManifests.applyManifest m .uncapped
  let vl := { vl with publisherManifests }
  if m.revoked && result = .accepted then
    (result, (vl.removePublisherList m.masterKey .revoked).modifyCollection m.masterKey
      fun c => { c with remaining := .empty })
  else (result, vl)

/-- What `verify` finds: the publisher if it is known, and the contents of the list if they could be read. -/
structure Verdict where
  disposition : ListDisposition
  publisherKey : Option PublicKey := none
  list : Option ListData := none

section

variable (vl : ValidatorList)

def verifyList (m : Manifest) (result : ManifestDisposition) (blob : ValidatorBlobInfo) (now : ℕ) :
    Except Thrown Verdict :=
  match vl.publisherManifests.getSigningKey m.masterKey with
  | none => .ok ⟨.untrusted, m.masterKey, none⟩
  | some signingKey =>
    if m.revoked || result = .invalid then .ok ⟨.untrusted, m.masterKey, none⟩
    else if !blob.verifies signingKey then .ok ⟨.invalid, m.masterKey, none⟩
    else
      match blob.list.bind ListJson.data with
      | none => .ok ⟨.invalid, m.masterKey, none⟩
      | some (.error e) => .error e
      | some (.ok d) =>
        match ((vl.publisherLists.lookup m.masterKey).getD {}).judge now d with
        | .error e => .error e
        | .ok disposition => .ok ⟨disposition, m.masterKey, some d⟩

def verify (m : Manifest) (blob : ValidatorBlobInfo) (now : ℕ) :
    ValidatorList × Except Thrown Verdict :=
  if m.masterKey ∉ vl.publisherLists then (vl, .ok ⟨.untrusted, none, none⟩)
  else
    let (result, vl) := vl.applyPublisherManifest m
    (vl, vl.verifyList m result blob now)

/-- A publisher's list is stored, and its keys are counted if it becomes the current one. -/
def takeList (pubKey : PublicKey) (c : PublisherListCollection) (d : ListData)
    (disposition : ListDisposition) : ValidatorList :=
  let vl := vl.modifyCollection pubKey fun c => c.take d disposition
  if disposition.accepts then vl.updatePublisherList (c.take d disposition).current c.current.list else vl

def applyVerdict (v : Verdict) : ValidatorList × PublisherListStats :=
  match v.publisherKey with
  | none => (vl, .ofDisposition v.disposition)
  | some pubKey =>
    match vl.publisherLists.lookup pubKey, v.list with
    | some c, some d =>
      if ListDisposition.pending.rank < v.disposition.rank then
        match c.maxSequence with
        | some sequence =>
          if v.disposition = .sameSequence ∨ v.disposition = .knownSequence then
            (vl, ⟨[v.disposition], pubKey, c.status, sequence⟩)
          else (vl, .ofDisposition v.disposition)
        | none => (vl, .ofDisposition v.disposition)
      else
        (vl.takeList pubKey c d v.disposition,
          ⟨[v.disposition], pubKey, (c.take d v.disposition).status, (c.take d v.disposition).maxSequence.getD 0⟩)
    -- the publisher is known, and there are contents unless the disposition is worse than `pending`
    | _, _ => (vl, .ofDisposition v.disposition)

def applyList (globalManifest : RawManifest) (blob : ValidatorBlobInfo) (now : ℕ) :
    ValidatorList × Except Thrown PublisherListStats :=
  let manifest := blob.manifest.getD globalManifest
  if kMaxManifestBase64 < manifest.base64Size then (vl, .ok (.ofDisposition .invalid))
  else
    match deserializeManifest manifest with
    | none => (vl, .ok (.ofDisposition .invalid))
    | some m =>
      match vl.verify m blob now with
      | (vl, .error e) => (vl, .error e)
      | (vl, .ok verdict) =>
        let (vl, stats) := vl.applyVerdict verdict
        (vl, .ok stats)

end

/-- The loop of `applyLists` over the signed lists, each with the time at which it is verified. -/
def applyBlobs (manifest : RawManifest) :
    List (ValidatorBlobInfo × ℕ) → PublisherListStats → ValidatorList → ValidatorList × Except Thrown PublisherListStats
  | [], result, vl => (vl, .ok result)
  | (blob, now) :: blobs, result, vl =>
    match vl.applyList manifest blob now with
    | (vl, .error e) => (vl, .error e)
    | (vl, .ok stats) => applyBlobs manifest blobs (result.merge stats) vl

def cleanUp (vl : ValidatorList) (result : PublisherListStats) : ValidatorList × PublisherListStats :=
  match result.publisherKey with
  | none => (vl, result)
  | some pubKey =>
    match vl.publisherLists.lookup pubKey with
    | none => (vl, result)
    | some c =>
      (vl.modifyCollection pubKey PublisherListCollection.cleanUp,
        { result with sequence := c.maxSequence.getD result.sequence })

def kSupportedListVersions : List ℕ := [1, 2]

section

variable (vl : ValidatorList)

def applyLists (manifest : RawManifest) (version : ℕ) (blobs : List (ValidatorBlobInfo × ℕ)) :
    ValidatorList × Except Thrown PublisherListStats :=
  if kSupportedListVersions.count version ≠ 1 then (vl, .ok (.ofDisposition .unsupportedVersion))
  else
    match applyBlobs manifest blobs {} vl with
    | (vl, .error e) => (vl, .error e)
    | (vl, .ok result) =>
      let (vl, result) := vl.cleanUp result
      (vl, .ok result)

def rotateList (pubKey : PublicKey) (closeTime : ℕ) : ValidatorList :=
  match vl.publisherLists.lookup pubKey with
  | none => vl
  | some c =>
    match c.candidate closeTime with
    | none => vl
    | some candidate =>
      (vl.modifyCollection pubKey (·.rotate candidate closeTime)).updatePublisherList
        (c.rotate candidate closeTime).current c.current.list

def removeExpired (pubKey : PublicKey) (closeTime : ℕ) : ValidatorList :=
  match vl.publisherLists.lookup pubKey with
  | none => vl
  | some c =>
    if c.status = .available ∧ c.current.validUntil ≤ closeTime then vl.removePublisherList pubKey .expired else vl

def trustworthy (key : PublicKey) : Bool :=
  (vl.keyListings.lookup key).any (vl.listThreshold ≤ ·) && !vl.validatorManifests.revoked key

def updateTrustedKeys : ValidatorList :=
  { vl with
    trustedMasterKeys :=
      vl.trustedMasterKeys.filter (vl.trustworthy ·) ∪ (vl.keyListings.keys.filter vl.trustworthy).toFinset }

end

def trustTime (closeTime now : ℕ) : ℕ := if closeTime + 30 < now then now else closeTime

def updateTrusted (vl : ValidatorList) (closeTime now : ℕ) : ValidatorList :=
  (vl.publisherLists.keys.foldl (fun vl pubKey =>
    (vl.rotateList pubKey (trustTime closeTime now)).removeExpired pubKey (trustTime closeTime now)) vl).updateTrustedKeys

inductive ListCall
  | applyLists (manifest : RawManifest) (version : ℕ) (blobs : List (ValidatorBlobInfo × ℕ))
  | updateTrusted (closeTime now : ℕ)

def step (vl : ValidatorList) : ListCall → ValidatorList
  | .applyLists manifest version blobs => (vl.applyLists manifest version blobs).1
  | .updateTrusted closeTime now => vl.updateTrusted closeTime now

end ValidatorList

end Xrpl.Validators

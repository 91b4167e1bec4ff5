import Xrpl.Lib.HashMap

/-!
# Manifests

A manifest is a certificate of a master key for a signing key; the greatest sequence revokes the master key.
`ManifestCache` remembers the manifest with the greatest sequence of each master key, and the master key of each signing
key in use.

`applyManifest` checks a manifest under a read lock (`readPhase`), and again under the write lock before it stores it
(`writePhase`); other calls may come in between.
-/

namespace Xrpl.Validators

abbrev PublicKey := BitVec 264

/-- The object that a serialized manifest holds.  A key is missing where `publicKeyType` refuses it. -/
structure STManifest where
  version : ℕ := 0
  publicKey : Option PublicKey
  sequence : UInt32
  /-- Whether the domain, if there is one, is properly formed. -/
  domain : Option Bool := none
  signingPubKey : Option (Option PublicKey)
  hasSignature : Bool
  signatureValid : Bool
  masterSignatureValid : Bool

/-- A serialized manifest, with its sizes and the object, if there is one of the right form. -/
structure RawManifest where
  base64Size : ℕ
  size : ℕ
  object : Option STManifest

def kMaxManifestBytes : ℕ := 358
def kMaxManifestBase64 : ℕ := 480

def isRevocation (sequence : UInt32) : Bool := sequence = 0xFFFFFFFF

/-- A manifest as `deserializeManifest` makes it: a revocation has no signing key, any other one has, and the signing
key is not the master key. -/
structure Manifest where
  masterKey : PublicKey
  signingKey : Option PublicKey
  sequence : UInt32
  signatureValid : Bool
  masterSignatureValid : Bool
  isNone_signingKey : signingKey.isNone = isRevocation sequence
  signingKey_ne : signingKey ≠ some masterKey

namespace Manifest

def revoked (m : Manifest) : Bool := isRevocation m.sequence

def verify (m : Manifest) : Bool :=
  if !m.revoked && m.signingKey.isNone then false
  else if !m.revoked && !m.signatureValid then false
  else m.masterSignatureValid

end Manifest

def deserializeManifest (s : RawManifest) : Option Manifest :=
  if s.size = 0 ∨ kMaxManifestBytes < s.size then none
  else
    match s.object with
    | none => none
    | some st =>
      if st.version ≠ 0 then none
      else
        match st.publicKey with
        | none => none
        | some masterKey =>
          if st.domain = some false then none
          else if hrevoked : isRevocation st.sequence then
            if st.signingPubKey.isSome then none
            else if st.hasSignature then none
            else some ⟨masterKey, none, st.sequence, st.signatureValid, st.masterSignatureValid, hrevoked.symm, by simp⟩
          else
            match st.signingPubKey with
            | none => none
            | some spk =>
              if !st.hasSignature then none
              else
                match spk with
                | none => none
                | some signingKey =>
                  if hne : signingKey = masterKey then none
                  else
                    some ⟨masterKey, some signingKey, st.sequence, st.signatureValid, st.masterSignatureValid,
                      by simpa using hrevoked, by simpa using hne⟩

inductive ManifestDisposition
  | accepted
  | stale
  | badMasterKey
  | badEphemeralKey
  | invalid
  | untrustedCapacity
deriving DecidableEq, Repr

inductive ManifestRateLimitCapPolicy
  | capped
  | uncapped
deriving DecidableEq, Repr

structure ManifestCache where
  map : HashMap PublicKey Manifest := ∅
  signingToMasterKeys : HashMap PublicKey PublicKey := ∅
  untrustedKeys : Finset PublicKey := ∅

namespace ManifestCache

def kMaxUntrustedCount : ℕ := 100

section

variable (c : ManifestCache)

def getSigningKey (pk : PublicKey) : Option PublicKey :=
  match c.map.lookup pk with
  | some m => if m.revoked then some pk else m.signingKey
  | none => some pk

def getMasterKey (pk : PublicKey) : PublicKey := (c.signingToMasterKeys.lookup pk).getD pk

def revoked (pk : PublicKey) : Bool := (c.map.lookup pk).any Manifest.revoked

/-- `prewriteCheck`: what is wrong with a manifest, if anything. -/
def prewriteCheck (m : Manifest) (checkSignature : Bool) : Option ManifestDisposition :=
  if (c.map.lookup m.masterKey).any fun old => m.sequence ≤ old.sequence then some .stale
  else if checkSignature && !m.verify then some .invalid
  else if m.masterKey ∈ c.signingToMasterKeys then some .badMasterKey
  else if m.revoked then none
  else
    match m.signingKey with
    | none => some .invalid
    | some signingKey =>
      if signingKey ∈ c.signingToMasterKeys then some .badEphemeralKey
      else if signingKey ∈ c.map then some .badEphemeralKey
      else none

def atUntrustedCap (m : Manifest) (cap : ManifestRateLimitCapPolicy) : Bool :=
  (c.map.lookup m.masterKey).isNone && cap = .capped && kMaxUntrustedCount ≤ c.untrustedKeys.card

/-- The part of `applyManifest` under the read lock. -/
def readPhase (m : Manifest) (cap : ManifestRateLimitCapPolicy) : Option ManifestDisposition :=
  if c.atUntrustedCap m cap then some .untrustedCapacity else c.prewriteCheck m true

end

def addSigningKey (m : Manifest) (keys : HashMap PublicKey PublicKey) : HashMap PublicKey PublicKey :=
  match m.signingKey with
  | some signingKey => if m.revoked then keys else HashMap.emplace keys signingKey m.masterKey
  | none => keys

section

variable (c : ManifestCache) (m : Manifest) (cap : ManifestRateLimitCapPolicy)

def store : ManifestCache :=
  match c.map.lookup m.masterKey with
  | none =>
    { map := c.map.insert m.masterKey m
      signingToMasterKeys := addSigningKey m c.signingToMasterKeys
      untrustedKeys := if cap = .uncapped then c.untrustedKeys else insert m.masterKey c.untrustedKeys }
  | some old =>
    { map := c.map.insert m.masterKey m
      -- a manifest that is superseded is not revoked, so that it has a signing key
      signingToMasterKeys := addSigningKey m (old.signingKey.elim c.signingToMasterKeys c.signingToMasterKeys.erase)
      untrustedKeys := if cap = .uncapped then c.untrustedKeys.erase m.masterKey else c.untrustedKeys }

/-- The part of `applyManifest` under the write lock; the signature has been checked. -/
def writePhase :
    ManifestDisposition × ManifestCache :=
  if c.atUntrustedCap m cap then (.untrustedCapacity, c)
  else
    match c.prewriteCheck m false with
    | some d => (d, c)
    | none => (.accepted, c.store m cap)

/-- `applyManifest` with nothing in between. -/
def applyManifest :
    ManifestDisposition × ManifestCache :=
  match c.readPhase m cap with
  | some d => (d, c)
  | none => c.writePhase m cap

end

def promoteToTrusted (c : ManifestCache) (pk : PublicKey) : ManifestCache :=
  { c with untrustedKeys := c.untrustedKeys.erase pk }

end ManifestCache

/-- The cache, and the calls of `applyManifest` that wait for the write lock. -/
structure ManifestSystem where
  cache : ManifestCache := {}
  waiting : List (Manifest × ManifestRateLimitCapPolicy) := []

inductive ManifestAction
  | read (m : Manifest) (cap : ManifestRateLimitCapPolicy)
  | write (call : ℕ)
  | promoteToTrusted (pk : PublicKey)

namespace ManifestSystem

def step (s : ManifestSystem) : ManifestAction → ManifestSystem
  | .read m cap =>
    match s.cache.readPhase m cap with
    | some _ => s
    | none => { s with waiting := s.waiting ++ [(m, cap)] }
  | .write call =>
    match s.waiting[call]? with
    | none => s
    | some (m, cap) => { cache := (s.cache.writePhase m cap).2, waiting := s.waiting.eraseIdx call }
  | .promoteToTrusted pk => { s with cache := s.cache.promoteToTrusted pk }

end ManifestSystem

end Xrpl.Validators

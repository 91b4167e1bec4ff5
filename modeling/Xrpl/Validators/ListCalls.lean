import Xrpl.Lib.Yields
import Xrpl.Validators.ManifestCache
import Xrpl.Validators.ValidatorList

/-!
# What the calls of the validator list do

* `Relists`: only the counts and the validators' manifests change;
* `Offered`, `Takes`: the lists that are stored, but for their signature and with it;
* `Applied`: what `applyList` does with one signed list;
* `settle`: what `updateTrusted` does with the lists of one publisher;
* `ForEach`, `Storing`: a condition on the lists of a call, and on those that it stores;
* `Kept`: the rule for a property that every operation keeps.
-/

namespace Xrpl.Validators.ValidatorList

variable {vl vl' : ValidatorList}

/-- Only the counts and the manifests of validators differ. -/
def Relists (vl vl' : ValidatorList) : Prop :=
  ∃ keyListings validatorManifests, vl' = { vl with keyListings, validatorManifests }

namespace Relists

lemma refl (vl : ValidatorList) : Relists vl vl := ⟨vl.keyListings, vl.validatorManifests, rfl⟩

private lemma trans {vl1 vl2 vl3 : ValidatorList} (h12 : Relists vl1 vl2) (h23 : Relists vl2 vl3) :
    Relists vl1 vl3 := by
  obtain ⟨t2, c2, rfl⟩ := h12
  obtain ⟨t3, c3, rfl⟩ := h23
  exact ⟨t3, c3, rfl⟩

private lemma publisherLists (h : Relists vl vl') : vl'.publisherLists = vl.publisherLists := by
  obtain ⟨t, c, rfl⟩ := h
  rfl

lemma publisherManifests (h : Relists vl vl') : vl'.publisherManifests = vl.publisherManifests := by
  obtain ⟨t, c, rfl⟩ := h
  rfl

end Relists

private lemma relists_addKey (vl : ValidatorList) (key : PublicKey) : Relists vl (vl.addKey key) := ⟨_, _, rfl⟩

private lemma relists_dropKey (vl : ValidatorList) (key : PublicKey) : Relists vl (vl.dropKey key) := ⟨_, _, rfl⟩

private lemma relists_updateListings (fuel : ℕ) (news olds : List PublicKey) (vl : ValidatorList) :
    Relists vl (updateListings fuel news olds vl) := by
  fun_induction updateListings fuel news olds vl with
  | case1 => exact .refl _
  | case2 => exact .refl _
  | case3 fuel new news vl ih => exact (relists_addKey vl new).trans ih
  | case4 fuel old olds vl ih => exact (relists_dropKey vl old).trans ih
  | case5 fuel new news old olds vl hlt ih => exact (relists_addKey vl new).trans ih
  | case6 fuel new news old olds vl hn hlt ih => exact (relists_dropKey vl old).trans ih
  | case7 fuel new news old olds vl hn hn' ih => exact ih

section

variable (vl : ValidatorList)

private lemma applyValidatorManifest_eq (valManifest : RawManifest) :
    ∃ validatorManifests, vl.applyValidatorManifest valManifest = { vl with validatorManifests } := by
  rw [applyValidatorManifest]
  cases deserializeManifest valManifest with
  | none => exact ⟨vl.validatorManifests, rfl⟩
  | some m =>
    dsimp only
    split_ifs
    · exact ⟨_, rfl⟩
    · exact ⟨vl.validatorManifests, rfl⟩

lemma foldl_applyValidatorManifest_eq (manifests : List RawManifest) :
    ∃ validatorManifests, manifests.foldl applyValidatorManifest vl = { vl with validatorManifests } := by
  induction manifests generalizing vl with
  | nil => exact ⟨vl.validatorManifests, rfl⟩
  | cons valManifest manifests ih =>
    obtain ⟨c, hc⟩ := applyValidatorManifest_eq vl valManifest
    obtain ⟨c', hc'⟩ := ih { vl with validatorManifests := c }
    refine ⟨c', ?_⟩
    rw [List.foldl_cons, hc, hc']

lemma relists_updatePublisherList (current : PublisherList) (oldList : List PublicKey) :
    Relists vl (vl.updatePublisherList current oldList) := by
  have hl := relists_updateListings (current.list.length + oldList.length) current.list oldList vl
  obtain ⟨c, hc⟩ := foldl_applyValidatorManifest_eq
    (updateListings (current.list.length + oldList.length) current.list oldList vl) current.manifests
  exact hl.trans ⟨_, c, hc⟩

def dropKeys (keys : List PublicKey) : ValidatorList :=
  keys.foldl (fun vl key => if key ∈ vl.keyListings then vl.dropKey key else vl) vl

private lemma relists_dropKeys (keys : List PublicKey) : Relists vl (vl.dropKeys keys) := by
  induction keys generalizing vl with
  | nil => exact .refl _
  | cons key keys ih =>
    refine .trans ?_ (ih _)
    dsimp only
    split_ifs
    · exact relists_dropKey vl key
    · exact .refl _

end

/-! ### The lists -/

section Collections

variable {P : PublicKey} {f g : PublisherListCollection → PublisherListCollection}

private lemma modifyCollection_congr (h : ∀ c, vl.publisherLists.lookup P = some c → f c = g c) :
    vl.modifyCollection P f = vl.modifyCollection P g := by
  rw [modifyCollection, HashMap.modify_congr h]
  rfl

lemma modifyCollection_of_fixed (h : ∀ c, vl.publisherLists.lookup P = some c → f c = c) :
    vl.modifyCollection P f = vl := by
  rw [modifyCollection, HashMap.modify_of_fixed h]

lemma Relists.lookup (h : Relists (vl.modifyCollection P f) vl') (P' : PublicKey) : vl'.publisherLists.lookup P' =
      if P' = P then (vl.publisherLists.lookup P').map f else vl.publisherLists.lookup P' := by
  rw [h.publisherLists]
  exact HashMap.lookup_modify ..

end Collections

lemma removePublisherList_eq {P : PublicKey} {c : PublisherListCollection} (h : vl.publisherLists.lookup P = some c)
    (reason : PublisherStatus) :
    vl.removePublisherList P reason = (vl.dropKeys c.current.list).modifyCollection P (·.remove reason) := by
  rw [removePublisherList, h]
  rfl

lemma relists_removePublisherList (vl : ValidatorList) (P : PublicKey) (reason : PublisherStatus) :
    Relists (vl.modifyCollection P (·.remove reason)) (vl.removePublisherList P reason) := by
  cases h : vl.publisherLists.lookup P with
  | none =>
    rw [modifyCollection_of_fixed fun c hc => (nomatch h.symm.trans hc), removePublisherList, h]
    exact .refl vl
  | some c =>
    obtain ⟨t, cache, heq⟩ := relists_dropKeys vl c.current.list
    rw [removePublisherList_eq h, heq]
    exact ⟨t, cache, rfl⟩

lemma relists_takeList (vl : ValidatorList) (P : PublicKey) (c : PublisherListCollection) (d : ListData)
    (disposition : ListDisposition) :
    Relists (vl.modifyCollection P (·.take d disposition)) (vl.takeList P c d disposition) := by
  rw [takeList]
  split_ifs
  · exact relists_updatePublisherList _ _ _
  · exact .refl _

end Xrpl.Validators.ValidatorList

namespace Xrpl.Validators.PublisherListCollection

open Except ListDisposition

variable {c : PublisherListCollection} {d : ListData} {disposition : ListDisposition}

/-- When a list is stored. -/
inductive Judged (c : PublisherListCollection) (now : ℕ) (d : ListData) : ListDisposition → Prop
  | accepted (heffective : d.validFrom ≤ now) (hvalid : now < d.validUntil) : Judged c now d .accepted
  | expired (hexpired : d.validUntil ≤ now) : Judged c now d .expired
  | pending (hpending : now < d.validFrom) (hvalid : now < d.validUntil)
    (hmax : ∀ maxSequence, c.maxSequence = some maxSequence → maxSequence < d.sequence ∨
      c.remaining.find d.sequence = none ∧ (c.remaining.find maxSequence).isSome) : Judged c now d .pending

private lemma judgePending_cases (h : c.judgePending d = .ok disposition)
    (hr : disposition.rank ≤ pending.rank) :
    disposition = .pending ∧ ∀ maxSequence, c.maxSequence = some maxSequence → maxSequence < d.sequence ∨
      c.remaining.find d.sequence = none ∧ (c.remaining.find maxSequence).isSome := by
  rw [judgePending] at h
  cases hmax : c.maxSequence with
  | none =>
    rw [hmax] at h
    exact ⟨(ok.inj h).symm, nofun⟩
  | some maxSequence =>
    simp only [hmax] at h
    simp only [Option.some.injEq, forall_eq']
    split_ifs at h with hlt hk
    · exact ⟨(ok.inj h).symm, .inl hlt⟩
    · obtain rfl := ok.inj h
      exact absurd hr (by decide)
    cases hl : c.remaining.find maxSequence with
    | none =>
      rw [hl] at h
      cases h
    | some last =>
      simp only [hl, ok.injEq] at h
      split_ifs at h with he
      · exact ⟨h.symm, .inr ⟨by simpa using hk, rfl⟩⟩
      · subst h
        exact absurd hr (by decide)

variable {now : ℕ}

lemma judge_cases (h : c.judge now d = .ok disposition) (hr : disposition.rank ≤ pending.rank) :
    c.current.sequence < d.sequence ∧ Judged c now d disposition := by
  rw [judge] at h
  split_ifs at h with hd hstl hs he hp
  · obtain rfl := ok.inj h
    exact absurd hr (by decide)
  · obtain rfl := ok.inj h
    exact absurd hr (by decide)
  · obtain rfl := ok.inj h
    exact absurd hr (by decide)
  · obtain rfl := ok.inj h
    exact ⟨by omega, .expired he⟩
  · obtain ⟨rfl, hmax⟩ := judgePending_cases h hr
    exact ⟨by omega, .pending hp (by omega) hmax⟩
  · obtain rfl := ok.inj h
    exact ⟨by omega, .accepted (by omega) (by omega)⟩

/-- `std::map::at` throws if the greatest sequence that has been seen is not waiting. -/
lemma judge_throws {e : Thrown} (h : c.judge now d = .error e) :
    c.current.sequence < d.sequence ∧ ∃ maxSequence, c.maxSequence = some maxSequence ∧ d.sequence ≤ maxSequence ∧
      c.remaining.find maxSequence = none := by
  rw [judge] at h
  split_ifs at h with hd hstl hs he hp
  refine ⟨by omega, ?_⟩
  rw [judgePending] at h
  cases hmax : c.maxSequence with
  | none =>
    rw [hmax] at h
    cases h
  | some maxSequence =>
    simp only [hmax] at h
    split_ifs at h with hlt hk
    cases hl : c.remaining.find maxSequence with
    | none => exact ⟨maxSequence, rfl, Nat.not_lt.1 hlt, hl⟩
    | some last =>
      rw [hl] at h
      cases h

lemma take_of_accepts (ha : disposition.accepts = true) : c.take d disposition =
      { status := if disposition = .accepted then .available else .expired
        current := (c.remaining.find d.sequence).getD (c.current.assign d)
        remaining := c.remaining.erase d.sequence
        maxSequence := some (c.maxSequence.elim d.sequence (max d.sequence)) } := by
  rw [take]
  cases hf : c.remaining.find d.sequence with
  | some publisher => simp only [ha, if_true, Option.getD_some]
  | none => simp only [ha, if_true, Option.getD_none, OrderedMap.erase_of_find hf]

lemma take_of_waits (hw : disposition.accepts = false) : c.take d disposition = { c with
        remaining := c.remaining.assign d.sequence {} (·.assign d)
        maxSequence := some (c.maxSequence.elim d.sequence (max d.sequence)) } := by
  rw [take]
  simp only [hw, if_neg Bool.false_ne_true]

/-- What `updateTrusted` does with the lists of a publisher. -/
def rotated (c : PublisherListCollection) (closeTime : ℕ) : PublisherListCollection :=
  (c.candidate closeTime).elim c fun candidate => c.rotate candidate closeTime

def settle (c : PublisherListCollection) (closeTime : ℕ) : PublisherListCollection :=
  if (c.rotated closeTime).status = .available ∧ (c.rotated closeTime).current.validUntil ≤ closeTime then
    (c.rotated closeTime).remove .expired
  else c.rotated closeTime

end Xrpl.Validators.PublisherListCollection

namespace Xrpl.Validators.ValidatorList

open Option ListDisposition

variable {vl vl' : ValidatorList} {manifest : RawManifest} {blob : ValidatorBlobInfo} {now : ℕ}
  {P : PublicKey} {m : Manifest}
  {c : PublisherListCollection} {closeTime : ℕ} {disposition : ListDisposition} {d : ListData}
  {J : PublisherListCollection → Prop} {I : ValidatorList → Prop} {blobs : List (ValidatorBlobInfo × ℕ)}

section

variable (vl : ValidatorList)

lemma rotateList_cases (P : PublicKey) (closeTime : ℕ) :
    vl.rotateList P closeTime = vl ∧ (∀ c, vl.publisherLists.lookup P = some c → c.candidate closeTime = none) ∨
    ∃ c candidate, vl.publisherLists.lookup P = some c ∧ c.candidate closeTime = some candidate ∧
      vl.rotateList P closeTime = (vl.modifyCollection P (·.rotate candidate closeTime)).updatePublisherList
        (c.rotate candidate closeTime).current c.current.list := by
  rw [rotateList]
  cases hc : vl.publisherLists.lookup P with
  | none => exact .inl ⟨rfl, nofun⟩
  | some c =>
    dsimp only
    cases hca : c.candidate closeTime with
    | none => exact .inl ⟨rfl, fun c' hc' => some.inj hc' ▸ hca⟩
    | some candidate => exact .inr ⟨c, candidate, rfl, hca, rfl⟩

lemma relists_rotateList (P : PublicKey) (closeTime : ℕ) :
    Relists (vl.modifyCollection P (·.rotated closeTime)) (vl.rotateList P closeTime) := by
  rcases rotateList_cases vl P closeTime with ⟨heq, hn⟩ | ⟨c, candidate, hc, hca, heq⟩
  · rw [heq, modifyCollection_of_fixed]
    · exact .refl vl
    · intro c hc
      rw [PublisherListCollection.rotated, hn c hc, elim_none]
  · rw [heq, modifyCollection_congr (g := (·.rotate candidate closeTime))]
    · exact relists_updatePublisherList _ _ _
    · intro c' hc'
      obtain rfl := some.inj (hc.symm.trans hc')
      rw [PublisherListCollection.rotated, hca, elim_some]

lemma relists_removeExpired (P : PublicKey) (closeTime : ℕ) :
    Relists (vl.modifyCollection P fun c =>
        if c.status = .available ∧ c.current.validUntil ≤ closeTime then c.remove .expired else c)
      (vl.removeExpired P closeTime) := by
  rw [removeExpired]
  cases h : vl.publisherLists.lookup P with
  | none =>
    rw [modifyCollection_of_fixed fun c hc => (nomatch h.symm.trans hc)]
    exact .refl vl
  | some c =>
    dsimp only
    split_ifs with he
    · rw [modifyCollection_congr (g := (·.remove .expired))]
      · exact relists_removePublisherList vl P .expired
      · exact fun c' hc' => if_pos (some.inj (h.symm.trans hc') ▸ he)
    · rw [modifyCollection_of_fixed fun c' hc' => if_neg (some.inj (h.symm.trans hc') ▸ he)]
      exact .refl vl

def settleList (closeTime : ℕ) (P : PublicKey) : ValidatorList :=
  (vl.rotateList P closeTime).removeExpired P closeTime

private lemma lookup_foldl_settleList (closeTime : ℕ) {keys : List PublicKey} (hk : keys.Nodup)
    (P : PublicKey) :
    (keys.foldl (fun vl P => vl.settleList closeTime P) vl).publisherLists.lookup P =
      if P ∈ keys then (vl.publisherLists.lookup P).map (·.settle closeTime) else vl.publisherLists.lookup P := by
  induction keys generalizing vl with
  | nil => rfl
  | cons key keys ih =>
    rw [List.nodup_cons] at hk
    rw [List.foldl_cons, ih _ hk.2, settleList, (relists_removeExpired _ _ _).lookup,
      (relists_rotateList _ _ _).lookup]
    by_cases hP : P = key
    · subst hP
      simp [hk.1, Function.comp_def, PublisherListCollection.settle]
    · simp [hP]

lemma lookup_updateTrusted (closeTime now : ℕ) (P : PublicKey) :
    (vl.updateTrusted closeTime now).publisherLists.lookup P =
      (vl.publisherLists.lookup P).map (·.settle (trustTime closeTime now)) := by
  have hk : vl.publisherLists.keys.Nodup := vl.publisherLists.nodupKeys
  refine (lookup_foldl_settleList vl (trustTime closeTime now) hk P).trans ?_
  split_ifs with hP
  · rfl
  · rw [AList.lookup_eq_none.2 hP, map_none]

end

/-! ### One signed list -/

/-- The list verifies with the signing key that its publisher has once the manifest is read. -/
def SignedBy (vl : ValidatorList) (blob : ValidatorBlobInfo) (m : Manifest) : Prop :=
  ∃ signingKey, (vl.applyPublisherManifest m).2.publisherManifests.getSigningKey m.masterKey = some signingKey ∧
    blob.verifies signingKey

/-- But for its signature the list can be stored: the publisher is known, and the list is judged to be new. -/
structure Offered (vl : ValidatorList) (manifest : RawManifest) (b : ValidatorBlobInfo × ℕ) (m : Manifest)
    (c : PublisherListCollection) (d : ListData) (disposition : ListDisposition) : Prop where
  manifest : deserializeManifest (b.1.manifest.getD manifest) = some m
  revoked : m.revoked = false
  collection : (vl.applyPublisherManifest m).2.publisherLists.lookup m.masterKey = some c
  data : b.1.list.bind ListJson.data = some (.ok d)
  judge : c.judge b.2 d = .ok disposition
  rank : disposition.rank ≤ pending.rank

/-- The list is stored. -/
structure Takes (vl : ValidatorList) (manifest : RawManifest) (b : ValidatorBlobInfo × ℕ) (m : Manifest)
    (c : PublisherListCollection) (d : ListData) (disposition : ListDisposition) : Prop
    extends Offered vl manifest b m c d disposition where
  signed : vl.SignedBy b.1 m

/-- What `applyList` does: nothing; or it reads the manifest of a publisher; or it stores a list as well. -/
inductive Applied (vl : ValidatorList) (manifest : RawManifest) (blob : ValidatorBlobInfo) (now : ℕ) :
    ValidatorList → Except Thrown PublisherListStats → Prop
  | refused (disposition : ListDisposition) (hrank : pending.rank < disposition.rank) :
    Applied vl manifest blob now vl (.ok (.ofDisposition disposition))
  | noted (m : Manifest) (hm : deserializeManifest (blob.manifest.getD manifest) = some m)
    (hP : m.masterKey ∈ vl.publisherLists) (stats : PublisherListStats) (disposition : ListDisposition)
    (hstats : stats.dispositions = [disposition]) (hrank : pending.rank < disposition.rank) :
    Applied vl manifest blob now (vl.applyPublisherManifest m).2 (.ok stats)
  | threw (m : Manifest) (hm : deserializeManifest (blob.manifest.getD manifest) = some m)
    (hP : m.masterKey ∈ vl.publisherLists) (hsigned : vl.SignedBy blob m) (e : Thrown)
    (he : blob.list.bind ListJson.data = some (.error e) ∨ ∃ c d,
      (vl.applyPublisherManifest m).2.publisherLists.lookup m.masterKey = some c ∧
      blob.list.bind ListJson.data = some (.ok d) ∧ c.judge now d = .error e) :
    Applied vl manifest blob now (vl.applyPublisherManifest m).2 (.error e)
  | taken (m : Manifest) (c : PublisherListCollection) (d : ListData) (disposition : ListDisposition)
    (h : Takes vl manifest (blob, now) m c d disposition) (stats : PublisherListStats) (hstats : stats.dispositions = [disposition])
    (hkey' : stats.publisherKey = some m.masterKey) (vl₁ : ValidatorList)
    (hvl₁ : vl₁ = (vl.applyPublisherManifest m).2.takeList m.masterKey c d disposition) :
    Applied vl manifest blob now vl₁ (.ok stats)

private lemma verifyList_cases (vl : ValidatorList) (m : Manifest) (result : ManifestDisposition)
    (blob : ValidatorBlobInfo)
    (now : ℕ) (hP : m.masterKey ∈ vl.publisherLists) :
    (∃ disposition, pending.rank < disposition.rank ∧
      vl.verifyList m result blob now = .ok ⟨disposition, m.masterKey, none⟩) ∨
    (∃ e signingKey, vl.publisherManifests.getSigningKey m.masterKey = some signingKey ∧ blob.verifies signingKey ∧
      blob.list.bind ListJson.data = some (.error e) ∧ vl.verifyList m result blob now = .error e) ∨
    ∃ c d signingKey, vl.publisherLists.lookup m.masterKey = some c ∧ m.revoked = false ∧
      vl.publisherManifests.getSigningKey m.masterKey = some signingKey ∧ blob.verifies signingKey ∧
      blob.list.bind ListJson.data = some (.ok d) ∧
      vl.verifyList m result blob now = (c.judge now d).map fun disposition => ⟨disposition, m.masterKey, some d⟩ := by
  obtain ⟨c, hc⟩ := ManifestCache.mem_iff_lookup.1 hP
  rw [verifyList]
  cases hk : vl.publisherManifests.getSigningKey m.masterKey with
  | none => exact .inl ⟨.untrusted, by decide, rfl⟩
  | some signingKey =>
    dsimp only
    split_ifs with hu hs
    · exact .inl ⟨.untrusted, by decide, rfl⟩
    · exact .inl ⟨.invalid, by decide, rfl⟩
    cases hl : blob.list.bind ListJson.data with
    | none => exact .inl ⟨.invalid, by decide, rfl⟩
    | some data =>
      cases data with
      | error e => exact .inr (.inl ⟨e, signingKey, rfl, by simpa using hs, rfl, rfl⟩)
      | ok d =>
        refine .inr (.inr ⟨c, d, signingKey, hc, ?_, rfl, by simpa using hs, rfl, ?_⟩)
        · have hn : m.revoked = false ∧ result ≠ .invalid := by simpa using hu
          exact hn.1
        · dsimp only
          rw [hc, getD_some]
          cases c.judge now d <;> rfl

lemma lookup_applyPublisherManifest (vl : ValidatorList) (m : Manifest) (P : PublicKey) :
    (vl.applyPublisherManifest m).2.publisherLists.lookup P =
      if P = m.masterKey ∧ m.revoked ∧ (vl.publisherManifests.applyManifest m .uncapped).1 = .accepted then
        (vl.publisherLists.lookup P).map fun c => { c.remove .revoked with remaining := .empty }
      else vl.publisherLists.lookup P := by
  rw [applyPublisherManifest]
  dsimp only
  by_cases h : m.revoked ∧ (vl.publisherManifests.applyManifest m .uncapped).1 = .accepted
  · rw [if_pos (by simpa using h), (Relists.refl _).lookup, (relists_removePublisherList _ _ _).lookup]
    by_cases hP : P = m.masterKey
    · subst hP
      rw [if_pos rfl, if_pos rfl, if_pos ⟨rfl, h⟩, map_map]
      rfl
    · rw [if_neg hP, if_neg hP, if_neg fun h' => hP h'.1]
  · rw [if_neg (by simpa using h), if_neg fun h' => h h'.2]

private lemma mem_applyPublisherManifest :
    P ∈ (vl.applyPublisherManifest m).2.publisherLists ↔ P ∈ vl.publisherLists := by
  rw [← AList.lookup_isSome, ← AList.lookup_isSome, lookup_applyPublisherManifest]
  split_ifs
  · rw [isSome_map]
  · rfl

private lemma applyVerdict_of_lt (hr : pending.rank < disposition.rank) :
    ∃ stats, stats.dispositions = [disposition] ∧ vl.applyVerdict ⟨disposition, P, some d⟩ = (vl, stats) := by
  rw [applyVerdict]
  cases hc : vl.publisherLists.lookup P with
  | none => exact ⟨.ofDisposition disposition, rfl, by simp [hc]⟩
  | some c =>
    simp only [hc, hr, if_true]
    cases c.maxSequence with
    | none => exact ⟨.ofDisposition disposition, rfl, rfl⟩
    | some sequence =>
      split_ifs
      · exact ⟨_, rfl, rfl⟩
      · exact ⟨.ofDisposition disposition, rfl, rfl⟩

lemma applyList_applied (vl : ValidatorList) (manifest : RawManifest) (blob : ValidatorBlobInfo) (now : ℕ) :
    Applied vl manifest blob now (vl.applyList manifest blob now).1 (vl.applyList manifest blob now).2 := by
  by_cases hs : kMaxManifestBase64 < (blob.manifest.getD manifest).base64Size
  · rw [applyList]
    simp only [if_pos hs]
    exact .refused .invalid (by decide)
  cases hm : deserializeManifest (blob.manifest.getD manifest) with
  | none =>
    rw [applyList]
    simp only [if_neg hs, hm]
    exact .refused .invalid (by decide)
  | some m =>
    rw [applyList]
    simp only [if_neg hs, hm]
    by_cases hP : m.masterKey ∈ vl.publisherLists
    · rw [verify, if_neg (not_not.2 hP)]
      dsimp only
      rcases verifyList_cases (vl.applyPublisherManifest m).2 m (vl.applyPublisherManifest m).1 blob now
          (mem_applyPublisherManifest.2 hP) with
        ⟨disposition, hr, heq⟩ | ⟨e, signingKey, hk, hv, he, heq⟩ | ⟨c, d, signingKey, hc, hre, hk, hv, hd, heq⟩
      · rw [heq]
        dsimp only
        have hn : ∀ vl : ValidatorList, vl.applyVerdict ⟨disposition, some m.masterKey, none⟩ =
            (vl, .ofDisposition disposition) := fun vl => by
          cases h : vl.publisherLists.lookup m.masterKey <;> simp [applyVerdict, h]
        rw [hn]
        exact .noted m hm hP _ disposition rfl hr
      · rw [heq]
        exact .threw m hm hP ⟨signingKey, hk, hv⟩ e (.inl he)
      rw [heq]
      cases hj : c.judge now d with
      | error e => exact .threw m hm hP ⟨signingKey, hk, hv⟩ e (.inr ⟨c, d, hc, hd, hj⟩)
      | ok disposition =>
        dsimp only [Except.map]
        by_cases hr : disposition.rank ≤ pending.rank
        · rw [applyVerdict]
          simp only [hc, if_neg (Nat.not_lt.2 hr)]
          exact .taken m c d disposition ⟨⟨hm, hre, hc, hd, hj, hr⟩, signingKey, hk, hv⟩ _ rfl rfl _ rfl
        · obtain ⟨stats, hst, hap⟩ := applyVerdict_of_lt (P := m.masterKey) (d := d) (Nat.not_le.1 hr)
          rw [hap]
          exact .noted m hm hP stats disposition hst (Nat.not_le.1 hr)
    · rw [verify, if_pos hP]
      exact .refused .untrusted (by decide)

/-! ### What every operation keeps -/

/-- Each list of a call satisfies `C` in the state in which it comes, as long as none throws. -/
def ForEach (C : ValidatorList → ValidatorBlobInfo × ℕ → Prop) (manifest : RawManifest) :
    List (ValidatorBlobInfo × ℕ) → ValidatorList → Prop
  | [], _ => True
  | b :: blobs, vl => C vl b ∧
    ((vl.applyList manifest b.1 b.2).2.isOk → ForEach C manifest blobs (vl.applyList manifest b.1 b.2).1)

/-- The lists that the call stores are fair. -/
def Storing (fair : ListData → ℕ → Prop) (vl : ValidatorList) : ListCall → Prop
  | .applyLists manifest version blobs => kSupportedListVersions.count version = 1 → ForEach
    (fun vl b => ∀ m c d disposition, Takes vl manifest b m c d disposition → fair d b.2) manifest blobs vl
  | .updateTrusted _ _ => True

/-- The property `I` is kept by every operation, as long as the lists that are stored are fair. -/
structure Kept (I : ValidatorList → Prop) (fair : ListData → ℕ → Prop) : Prop where
  manifests : ∀ vl publisherManifests, I vl → I { vl with publisherManifests }
  remove : ∀ vl P reason, I vl → I (vl.removePublisherList P reason)
  clear : ∀ vl P, I vl → I (vl.modifyCollection P fun c => { c with remaining := .empty })
  take : ∀ vl P c d now disposition, I vl → vl.publisherLists.lookup P = some c → fair d now →
    c.judge now d = .ok disposition → disposition.rank ≤ pending.rank →
    I (vl.takeList P c d disposition)
  cleanUp : ∀ vl P, I vl → I (vl.modifyCollection P PublisherListCollection.cleanUp)
  rotate : ∀ vl P closeTime, I vl → I (vl.rotateList P closeTime)
  trust : ∀ vl, I vl → I vl.updateTrustedKeys

/-- The rule for one signed list. -/
lemma applyList_keeps (h : I vl)
    (hr : ∀ m, deserializeManifest (blob.manifest.getD manifest) = some m → I (vl.applyPublisherManifest m).2)
    (ht : ∀ m c d disposition, Takes vl manifest (blob, now) m c d disposition →
      I ((vl.applyPublisherManifest m).2.takeList m.masterKey c d disposition)) : I (vl.applyList manifest blob now).1 := by
  have ha := applyList_applied vl manifest blob now
  generalize vl.applyList manifest blob now = r at ha ⊢
  obtain ⟨vl1, r⟩ := r
  cases ha with
  | refused => exact h
  | noted m hm => exact hr m hm
  | threw m hm => exact hr m hm
  | taken m c d disposition htk stats hs hk vl1 hvl1 =>
    rw [hvl1]
    exact ht m c d disposition htk

lemma ForEach.of_forall {C : ValidatorList → ValidatorBlobInfo × ℕ → Prop} (h : ∀ b ∈ blobs, ∀ vl, C vl b) :
    ForEach C manifest blobs vl := by
  induction blobs generalizing vl with
  | nil => trivial
  | cons b blobs ih => exact ⟨h b List.mem_cons_self vl, fun _ => ih fun b' hb' => h b' (List.mem_cons_of_mem _ hb')⟩

/-- The rule for the lists of a call. -/
lemma applyBlobs_keeps {C : ValidatorList → ValidatorBlobInfo × ℕ → Prop} (hf : ForEach C manifest blobs vl)
    (hs : ∀ b ∈ blobs, ∀ vl, I vl → C vl b → I (vl.applyList manifest b.1 b.2).1) (result : PublisherListStats)
    (h : I vl) : I (applyBlobs manifest blobs result vl).1 := by
  induction blobs generalizing vl result with
  | nil => exact h
  | cons b blobs ih =>
    obtain ⟨blob, now⟩ := b
    obtain ⟨hc, hf⟩ := hf
    have ho := hs (blob, now) (List.mem_cons_self ..) vl h hc
    rw [applyBlobs]
    generalize vl.applyList manifest blob now = r at ho hf ⊢
    obtain ⟨vl1, r⟩ := r
    cases r with
    | error e => exact ho
    | ok stats => exact ih (hf rfl) (fun b hb => hs b (List.mem_cons_of_mem _ hb)) _ ho

lemma applyLists_keeps {version : ℕ} (h : I vl)
    (hb : kSupportedListVersions.count version = 1 → I (applyBlobs manifest blobs {} vl).1)
    (hc : ∀ vl result, I vl → I (vl.cleanUp result).1) :
    I (vl.applyLists manifest version blobs).1 := by
  rw [applyLists]
  split_ifs with hv
  · exact h
  replace hb := hb (not_not.1 hv)
  generalize applyBlobs manifest blobs {} vl = r at hb ⊢
  obtain ⟨vl1, r⟩ := r
  cases r with
  | error e => exact hb
  | ok result => exact hc vl1 result hb

namespace Kept

variable {I : ValidatorList → Prop} {fair : ListData → ℕ → Prop}

variable (h : Kept I fair)

include h

private lemma applyPublisherManifest (hI : I vl) (m : Manifest) : I (vl.applyPublisherManifest m).2 := by
  rw [ValidatorList.applyPublisherManifest]
  dsimp only
  split_ifs
  · exact h.clear _ _ (h.remove _ _ _ (h.manifests _ _ hI))
  · exact h.manifests _ _ hI

private lemma applyList (hI : I vl)
    (hf : ∀ m c d disposition, Takes vl manifest (blob, now) m c d disposition → fair d now) :
    I (vl.applyList manifest blob now).1 := by
  refine applyList_keeps hI (fun m _ => h.applyPublisherManifest hI m) ?_
  intro m c d disposition ht
  exact h.take _ _ c d now _ (h.applyPublisherManifest hI m) ht.collection (hf m c d disposition ht) ht.judge ht.rank

private lemma cleanUp_result (hI : I vl) (result : PublisherListStats) : I (vl.cleanUp result).1 := by
  rw [ValidatorList.cleanUp]
  split
  · exact hI
  · split
    · exact hI
    · exact h.cleanUp _ _ hI

private lemma settleList (hI : I vl) (closeTime : ℕ) (P : PublicKey) : I (vl.settleList closeTime P) := by
  rw [ValidatorList.settleList, removeExpired]
  split
  · exact h.rotate _ _ _ hI
  · split_ifs
    · exact h.remove _ _ _ (h.rotate _ _ _ hI)
    · exact h.rotate _ _ _ hI

lemma step (call : ListCall) (hI : I vl) (hf : Storing fair vl call) : I (vl.step call) := by
  cases call with
  | applyLists manifest version blobs =>
    refine applyLists_keeps hI (fun hv => applyBlobs_keeps (hf hv) (fun b hb vl hvl hc => ?_) {} hI)
      fun vl result hvl => ?_
    · exact h.applyList hvl hc
    · exact h.cleanUp_result hvl result
  | updateTrusted closeTime now =>
    refine h.trust _ (List.foldlRecOn _ _ hI fun vl hvl P _ => ?_)
    exact h.settleList hvl _ P

lemma run (hI : I vl) {calls : List ListCall} (hf : Throughout ValidatorList.step (Storing fair) vl calls) :
    I (calls.foldl ValidatorList.step vl) :=
  hf.foldl (fun _ call hvl hc => h.step call hvl hc) hI

end Kept

lemma storing_true (vl : ValidatorList) (call : ListCall) : Storing (fun _ _ => True) vl call := by
  cases call with
  | applyLists manifest version blobs => exact fun _ => .of_forall fun _ _ _ _ _ _ _ _ => trivial
  | updateTrusted closeTime now => trivial

def Each (J : PublisherListCollection → Prop) (vl : ValidatorList) : Prop :=
  ∀ P c, vl.publisherLists.lookup P = some c → J c

private lemma Each.of_map {f : PublisherListCollection → PublisherListCollection} (h : Each J vl)
    (hf : ∀ c, J c → J (f c))
    (hr : Relists (vl.modifyCollection P f) vl') : Each J vl' := by
  intro P' c hc
  rw [hr.lookup] at hc
  split_ifs at hc
  · obtain ⟨c', hc', rfl⟩ := map_eq_some_iff.1 hc
    exact hf c' (h P' c' hc')
  · exact h P' c hc

lemma kept_each {fair : ListData → ℕ → Prop}
    (hrem : ∀ c reason, J c → J (c.remove reason)) (hclr : ∀ c, J c → J { c with remaining := .empty })
    (ht : ∀ c d now disposition, J c → fair d now → c.judge now d = .ok disposition →
      disposition.rank ≤ pending.rank → J (c.take d disposition))
    (hcl : ∀ c, J c → J c.cleanUp) (hrot : ∀ c closeTime, J c → J (c.rotated closeTime)) :
    Kept (Each J) fair where
  manifests _ _ h := h
  remove vl P reason h := h.of_map (fun c => hrem c reason) (relists_removePublisherList vl P reason)
  clear _ _ h := h.of_map hclr (.refl _)
  take vl P c d now disposition h hc hd hj hr := by
    intro P' c' hc'
    rw [(relists_takeList ..).lookup] at hc'
    split_ifs at hc' with hP
    · subst hP
      rw [hc, map_some, some.injEq] at hc'
      subst hc'
      exact ht c d now disposition (h P' c hc) hd hj hr
    · exact h P' c' hc'
  cleanUp _ _ h := h.of_map hcl (.refl _)
  rotate vl P closeTime h := h.of_map (fun c => hrot c closeTime) (relists_rotateList vl P closeTime)
  trust _ h := h

/-- No list has come yet; the publishers that are revoked are known. -/
def Loaded (vl : ValidatorList) : Prop :=
  ∀ P c, vl.publisherLists.lookup P = some c →
    c = { status := if vl.publisherManifests.revoked P then .revoked else .unavailable }

lemma loadPublishers_eq (keys : List (Option PublicKey)) (vl : ValidatorList) :
    ∃ publisherLists, (loadPublishers keys vl).2 = { vl with publisherLists } := by
  fun_induction loadPublishers keys vl with
  | case1 vl | case2 keys vl => exact ⟨vl.publisherLists, rfl⟩
  | case3 id keys vl status ih => exact ih

lemma loaded_loadPublishers {keys : List (Option PublicKey)} (h : Loaded vl) : Loaded (loadPublishers keys vl).2 := by
  fun_induction loadPublishers keys vl with
  | case1 vl => exact h
  | case2 keys vl => exact h
  | case3 id keys vl status ih =>
    refine ih ?_
    intro P c hc
    rw [HashMap.lookup_emplace] at hc
    split_ifs at hc with hP
    · subst hP
      obtain rfl := some.inj hc
      cases hold : vl.publisherLists.lookup P with
      | none => rfl
      | some c => exact h P c hold
    · exact h P c hc

private lemma loadConfigKeys_eq (localSigningKey : Option PublicKey) (keys : List (Option PublicKey))
    (vl : ValidatorList) :
    ∃ keyListings localPublisherList,
      (loadConfigKeys localSigningKey keys vl).2 = { vl with keyListings, localPublisherList } := by
  fun_induction loadConfigKeys localSigningKey keys vl with
  | case1 vl | case2 keys vl => exact ⟨vl.keyListings, vl.localPublisherList, rfl⟩
  | case3 id keys vl ih =>
    obtain ⟨t, l, heq⟩ := ih
    refine ⟨t, l, heq.trans ?_⟩
    split_ifs <;> rfl

lemma loaded_load {validatorManifests publisherManifests : ManifestCache} {localSigningKey : Option PublicKey}
    {configKeys publisherKeys : List (Option PublicKey)} {listThreshold : Option ℕ} :
    Loaded (load { validatorManifests, publisherManifests } localSigningKey configKeys publisherKeys listThreshold).2 := by
  have hld : Loaded (loadPublishers publisherKeys { validatorManifests, publisherManifests }).2 :=
    loaded_loadPublishers nofun
  rw [load]
  split
  next heq =>
    rw [heq] at hld
    exact hld
  next heq =>
    rw [heq] at hld
    obtain ⟨t, l, heq'⟩ := loadConfigKeys_eq localSigningKey configKeys _
    rw [heq']
    exact hld

end Xrpl.Validators.ValidatorList

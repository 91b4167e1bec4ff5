import Xrpl.Validators.PendingLists

/-!
# Publishers that are revoked

* `Closed`: the publisher has the status `revoked`, no keys and no lists that wait;
* `Bars`: after a step a publisher that is revoked is closed, and one that was revoked before has not changed;
* `Guarded`: no list of a revoked publisher that could be stored is signed with the publisher's master key, which the
  manifest cache gives as the signing key of a revoked publisher;
* `revoked_stays`: in guarded calls a revoked publisher stays closed.
-/

namespace Xrpl.Validators

open Option ManifestCache

namespace PublisherListCollection

variable {c : PublisherListCollection}

structure Closed (c : PublisherListCollection) : Prop where
  status : c.status = .revoked
  list : c.current.list = []
  remaining : c.remaining.entries = []

private lemma Closed.settle (h : Closed c) (closeTime : ℕ) : c.settle closeTime = c := by
  have hr : c.rotated closeTime = c := by
    rw [rotated, candidate, h.remaining]
    rfl
  rw [PublisherListCollection.settle, hr, if_neg fun ha => by simp [h.status] at ha]

private lemma Closed.cleanUp (h : Closed c) : c.cleanUp = c := by
  obtain ⟨status, current, ⟨entries, sorted⟩, maxSequence⟩ := c
  obtain rfl : entries = [] := h.remaining
  rfl

end PublisherListCollection

namespace ValidatorList

open PublisherListCollection

variable {vl vl' : ValidatorList} {manifest : RawManifest} {blob : ValidatorBlobInfo} {now : ℕ} {P : PublicKey}

private lemma publisherManifests_applyPublisherManifest (vl : ValidatorList) (m : Manifest) :
    (vl.applyPublisherManifest m).2.publisherManifests = (vl.publisherManifests.applyManifest m .uncapped).2 := by
  rw [applyPublisherManifest]
  dsimp only
  split_ifs
  · exact (relists_removePublisherList _ _ _).publisherManifests
  · rfl

variable {c : ManifestCache} {blobs : List (ValidatorBlobInfo × ℕ)} {m : Manifest}

private lemma revoked_applyManifest_of_ne (h : P ≠ m.masterKey) :
    (c.applyManifest m .uncapped).2.revoked P = c.revoked P := by
  rcases c.applyManifest_cases m .uncapped with ⟨-, heq⟩ | ⟨-, heq, -⟩
  · rw [heq]
  · rw [heq, ManifestCache.revoked, lookup_map_store, if_neg h, ManifestCache.revoked]

private lemma applyManifest_of_revoked (h : c.revoked m.masterKey) :
    (c.applyManifest m .uncapped).1 ≠ .accepted ∧ (c.applyManifest m .uncapped).2 = c := by
  rcases c.applyManifest_cases m .uncapped with hs | ⟨-, -, hf, -⟩
  · exact hs
  · obtain ⟨old, hold, hr⟩ := (any_eq_true _ _).1 h
    rw [Manifest.revoked_eq_false_of_lt (hf.newer old hold)] at hr
    cases hr

/-- A revoked publisher is closed, and one that was revoked before has not changed. -/
structure Bars (P : PublicKey) (vl vl' : ValidatorList) : Prop where
  closed : vl'.publisherManifests.revoked P → ∀ c, vl'.publisherLists.lookup P = some c → Closed c
  stays : vl.publisherManifests.revoked P →
    vl'.publisherManifests.revoked P ∧ vl'.publisherLists.lookup P = vl.publisherLists.lookup P

/-- A revoked publisher is closed. -/
def Barred (P : PublicKey) (vl : ValidatorList) : Prop :=
  vl.publisherManifests.revoked P → ∀ c, vl.publisherLists.lookup P = some c → Closed c

private lemma Bars.refl (h : Barred P vl) : Bars P vl vl := ⟨h, fun hr => ⟨hr, rfl⟩⟩

private lemma Bars.trans {vl'' : ValidatorList} (h : Bars P vl vl') (h' : Bars P vl' vl'') : Bars P vl vl'' := by
  refine ⟨h'.closed, fun hr => ?_⟩
  obtain ⟨hrev', hlk⟩ := h.stays hr
  obtain ⟨hrev'', hlk'⟩ := h'.stays hrev'
  exact ⟨hrev'', hlk'.trans hlk⟩

private lemma Bars.of_eq (h : Barred P vl) (hr : vl'.publisherManifests.revoked P = vl.publisherManifests.revoked P)
    (hlk : vl'.publisherLists.lookup P = vl.publisherLists.lookup P) : Bars P vl vl' := by
  refine ⟨fun hrev' c hc => ?_, fun hrev' => ⟨hr.trans hrev', hlk⟩⟩
  exact h (hr.symm.trans hrev') c (hlk.symm.trans hc)

private lemma Bars.of_not_revoked (h : ¬ vl.publisherManifests.revoked P) (h' : ¬ vl'.publisherManifests.revoked P) :
    Bars P vl vl' := ⟨fun hr => absurd hr h', fun hr => absurd hr h⟩

private lemma bars_applyPublisherManifest (h : Barred P vl) (m : Manifest) :
    Bars P vl (vl.applyPublisherManifest m).2 := by
  by_cases hP : P = m.masterKey
  · subst hP
    refine ⟨fun hr c hc => ?_, fun hr => ?_⟩
    · rw [publisherManifests_applyPublisherManifest] at hr
      rw [lookup_applyPublisherManifest] at hc
      split_ifs at hc with hcl
      · obtain ⟨c', -, rfl⟩ := map_eq_some_iff.1 hc
        exact ⟨rfl, rfl, rfl⟩
      rcases vl.publisherManifests.applyManifest_cases m .uncapped with ⟨-, heq⟩ | ⟨ha, heq, -⟩
      · rw [heq] at hr
        exact h hr c hc
      · rw [heq, ManifestCache.revoked, lookup_map_store] at hr
        exact absurd ⟨rfl, by simpa using hr, ha⟩ hcl
    · obtain ⟨hn, heq⟩ := applyManifest_of_revoked hr
      rw [publisherManifests_applyPublisherManifest, heq, lookup_applyPublisherManifest, if_neg fun hand => hn hand.2.2]
      exact ⟨hr, rfl⟩
  · refine .of_eq h ?_ ?_
    · rw [publisherManifests_applyPublisherManifest, revoked_applyManifest_of_ne hP]
    · rw [lookup_applyPublisherManifest, if_neg fun hand => hP hand.1]

private lemma getSigningKey_of_revoked (h : c.revoked P) : c.getSigningKey P = some P := by
  obtain ⟨m, hm, hr⟩ := (any_eq_true _ _).1 h
  rw [ManifestCache.getSigningKey, hm]
  exact if_pos hr

/-- No list of a revoked publisher that could be stored is signed with the publisher's master key. -/
def GuardedList (manifest : RawManifest) (vl : ValidatorList) (b : ValidatorBlobInfo × ℕ) : Prop :=
  ∀ m c d disposition, Offered vl manifest b m c d disposition →
    (vl.applyPublisherManifest m).2.publisherManifests.revoked m.masterKey → b.1.verifies m.masterKey = false

private lemma bars_applyList (h : Barred P vl) (hg : GuardedList manifest vl (blob, now)) :
    Bars P vl (vl.applyList manifest blob now).1 := by
  refine applyList_keeps (.refl h) (fun m _ => bars_applyPublisherManifest h m) ?_
  intro m c d disposition ht
  have hb := bars_applyPublisherManifest h m
  refine hb.trans ?_
  by_cases hmst : P = m.masterKey
  · subst hmst
    have hn : ¬ (vl.applyPublisherManifest m).2.publisherManifests.revoked m.masterKey := by
      intro hr'
      obtain ⟨signingKey, hk, hv⟩ := ht.signed
      obtain rfl := some.inj ((getSigningKey_of_revoked hr').symm.trans hk)
      rw [hg m c d disposition ht.toOffered hr'] at hv
      cases hv
    refine .of_not_revoked hn ?_
    rw [(relists_takeList ..).publisherManifests]
    exact hn
  · refine .of_eq hb.closed ?_ ?_
    · rw [(relists_takeList ..).publisherManifests]
      rfl
    · rw [(relists_takeList ..).lookup, if_neg hmst]

/-! ### Calls -/

/-- The lists of a call are guarded when they come. -/
def Guarded (vl : ValidatorList) : ListCall → Prop
  | .applyLists manifest version blobs => kSupportedListVersions.count version = 1 →
    ForEach (GuardedList manifest) manifest blobs vl
  | .updateTrusted _ _ => True

private lemma publisherManifests_cleanUp (vl : ValidatorList) (result : PublisherListStats) :
    (vl.cleanUp result).1.publisherManifests = vl.publisherManifests := by
  rw [cleanUp_eq]
  cases result.publisherKey <;> rfl

private lemma bars_cleanUp (h : Barred P vl) (result : PublisherListStats) : Bars P vl (vl.cleanUp result).1 := by
  by_cases hr : vl.publisherManifests.revoked P
  · refine .of_eq h ?_ ?_
    · rw [publisherManifests_cleanUp]
    rw [lookup_cleanUp]
    split_ifs
    · cases hc : vl.publisherLists.lookup P with
      | none => rfl
      | some c => rw [map_some, (h hr c hc).cleanUp]
    · rfl
  · refine .of_not_revoked hr ?_
    rwa [publisherManifests_cleanUp]

private lemma publisherManifests_updateTrusted (vl : ValidatorList) (closeTime now : ℕ) :
    (vl.updateTrusted closeTime now).publisherManifests = vl.publisherManifests := by
  refine List.foldlRecOn (motive := fun vl' : ValidatorList => vl'.publisherManifests = vl.publisherManifests)
    vl.publisherLists.keys _ rfl fun vl' h key _ => ?_
  exact (relists_removeExpired ..).publisherManifests.trans ((relists_rotateList ..).publisherManifests.trans h)

private lemma bars_updateTrusted (h : Barred P vl) (closeTime now : ℕ) :
    Bars P vl (vl.updateTrusted closeTime now) := by
  by_cases hr : vl.publisherManifests.revoked P
  · refine .of_eq h ?_ ?_
    · rw [publisherManifests_updateTrusted]
    rw [lookup_updateTrusted]
    cases hc : vl.publisherLists.lookup P with
    | none => rfl
    | some c => rw [map_some, (h hr c hc).settle]
  · refine .of_not_revoked hr ?_
    rwa [publisherManifests_updateTrusted]

private lemma bars_step {call : ListCall} (h : Barred P vl) (hc : Guarded vl call) : Bars P vl (vl.step call) := by
  cases call with
  | applyLists manifest version blobs =>
    refine applyLists_keeps (.refl h) (fun hv => ?_) fun _ result hb => hb.trans (bars_cleanUp hb.closed result)
    exact applyBlobs_keeps (hc hv) (fun _ _ _ hb hg => hb.trans (bars_applyList hb.closed hg)) {} (.refl h)
  | updateTrusted closeTime now => exact bars_updateTrusted h closeTime now

private lemma bars_run {calls : List ListCall} (h : Barred P vl) (hcs : Throughout step Guarded vl calls) :
    Bars P vl (calls.foldl step vl) := by
  induction calls generalizing vl with
  | nil => exact .refl h
  | cons call calls ih =>
    have hs := bars_step h hcs.1
    exact hs.trans (ih hs.closed hcs.2)

private lemma not_stored_of_revoked {stats : PublisherListStats} (h : vl.publisherManifests.revoked P)
    (hP : publisherOf manifest blob = some P) (hv : blob.verifies P = false)
    (hs : (vl.applyList manifest blob now).2 = .ok stats) : ¬ stats.Stored := by
  have ha := applyList_applied vl manifest blob now
  generalize vl.applyList manifest blob now = r at ha hs
  obtain ⟨vl1, r⟩ := r
  cases ha with
  | refused disposition hr =>
    obtain rfl := Except.ok.inj hs
    exact PublisherListStats.not_stored rfl hr
  | noted m hm hP stats' disposition hsts' hr =>
    obtain rfl := Except.ok.inj hs
    exact PublisherListStats.not_stored hsts' hr
  | threw => cases hs
  | taken m c d disposition ht =>
    obtain ⟨signingKey, hk, hver'⟩ := ht.signed
    rw [publisherOf, ht.manifest, map_some, some.injEq] at hP
    subst hP
    rw [publisherManifests_applyPublisherManifest, (applyManifest_of_revoked h).2, getSigningKey_of_revoked h,
      some.injEq] at hk
    subst hk
    rw [hv] at hver'
    cases hver'

/-- In any guarded calls a publisher that has been revoked stays revoked: its status is `revoked`, it has no current keys
and no lists that wait, no later call changes this, and a list of it that is not signed with its master key is neither
accepted nor stored to wait. -/
theorem revoked_stays (validatorManifests publisherManifests : ManifestCache) (localSigningKey : Option PublicKey)
    (configKeys publisherKeys : List (Option PublicKey)) (listThreshold : Option ℕ) (calls later : List ListCall)
    (hcalls : Throughout step Guarded
      (load { validatorManifests, publisherManifests } localSigningKey configKeys publisherKeys listThreshold).2
      (calls ++ later)) :
    let vl := calls.foldl step
      (load { validatorManifests, publisherManifests } localSigningKey configKeys publisherKeys listThreshold).2
    let vl' := later.foldl step vl
    ∀ P, vl.publisherManifests.revoked P → vl'.publisherManifests.revoked P ∧
      vl'.publisherLists.lookup P = vl.publisherLists.lookup P ∧
      (∀ c, vl'.publisherLists.lookup P = some c →
        c.status = .revoked ∧ c.current.list = [] ∧ c.remaining.entries = []) ∧
      ∀ manifest blob now stats, publisherOf manifest blob = some P → blob.verifies P = false →
        (vl'.applyList manifest blob now).2 = .ok stats →
          ListDisposition.pending.rank < stats.bestDisposition.rank := by
  intro vl vl' P hr
  obtain ⟨hcalls, hl⟩ := hcalls.of_append
  have hb : Bars P _ vl := bars_run (fun hr c hc => by
    rw [loaded_load P c hc, if_pos hr]
    exact ⟨rfl, rfl, rfl⟩) hcalls
  have hb' : Bars P vl vl' := bars_run hb.closed hl
  obtain ⟨hrev', hlk⟩ := hb'.stays hr
  refine ⟨hrev', hlk, fun c hc => ?_, fun manifest blob now stats hP hv hs => ?_⟩
  · have hcl := hb'.closed hrev' c hc
    exact ⟨hcl.status, hcl.list, hcl.remaining⟩
  · exact Nat.not_le.1 (not_stored_of_revoked hrev' hP hv hs)

def revocation (publisher : PublicKey) : RawManifest where
  base64Size := 150
  size := 110
  object := some
    { publicKey := some publisher
      sequence := 0xFFFFFFFF
      signingPubKey := none
      hasSignature := false
      signatureValid := false
      masterSignatureValid := true }

/-- A publisher is revoked; then an old manifest comes with a list that is signed with the master key: the list is
accepted, and its validator is trusted. -/
theorem revoked_publisher_accepted :
    let vl := [.applyLists (certificate 1 11 1) 1 [(signedList 11 1 0 1000 [9], 100)],
      .applyLists (revocation 1) 1 [(signedList 11 1 0 1000 [9], 100)]].foldl step onePublisher
    let vl' := [.applyLists (certificate 1 11 1) 1 [(signedList 1 2 0 1000 [8], 100)], .updateTrusted 100 100].foldl
      step vl
    (vl.publisherLists.lookup 1).map status = some .revoked ∧ vl.publisherManifests.revoked 1 ∧
      (vl'.publisherLists.lookup 1).map (fun c => (c.status, c.current.list)) = some (.available, [8]) ∧
      8 ∈ vl'.trustedMasterKeys := by
  decide +kernel

theorem revoked_stays_old_key :
    let vl := [.applyLists (certificate 1 11 1) 1 [(signedList 11 1 0 1000 [9], 100)],
      .applyLists (revocation 1) 1 [(signedList 11 1 0 1000 [9], 100)]].foldl step onePublisher
    let vl' := [.applyLists (certificate 1 11 1) 1 [(signedList 11 2 0 1000 [8], 100)], .updateTrusted 100 100].foldl
      step vl
    vl.publisherManifests.revoked 1 ∧ vl'.publisherLists.lookup 1 = vl.publisherLists.lookup 1 ∧
      ∀ c, vl'.publisherLists.lookup 1 = some c →
        c.status = .revoked ∧ c.current.list = [] ∧ c.remaining.entries = [] := by
  have hs : ∀ manifest s validators, (deserializeManifest manifest).map Manifest.masterKey = some 1 →
      ∀ vl, Guarded vl (.applyLists manifest 1 [(signedList 11 s 0 1000 validators, 100)]) := by
    refine fun manifest s validators hm vl _ => ⟨fun m c d disposition ho _ => ?_, fun _ => trivial⟩
    rw [show deserializeManifest manifest = some m from ho.manifest, map_some, some.injEq] at hm
    rw [hm]
    have hne : decide ((1 : PublicKey) = 11) = false := by decide +kernel
    exact hne
  have hc : (deserializeManifest (certificate 1 11 1)).map Manifest.masterKey = some 1 := by decide +kernel
  have hrev : (deserializeManifest (revocation 1)).map Manifest.masterKey = some 1 := by decide +kernel
  have hcs : Throughout step Guarded onePublisher
      ([.applyLists (certificate 1 11 1) 1 [(signedList 11 1 0 1000 [9], 100)],
        .applyLists (revocation 1) 1 [(signedList 11 1 0 1000 [9], 100)]] ++
      [.applyLists (certificate 1 11 1) 1 [(signedList 11 2 0 1000 [8], 100)], .updateTrusted 100 100]) :=
    ⟨hs _ 1 [9] hc _, hs _ 1 [9] hrev _, hs _ 2 [8] hc _, trivial, trivial⟩
  intro vl vl'
  have hr : vl.publisherManifests.revoked 1 := by decide +kernel
  obtain ⟨-, hlk, hcl, -⟩ := revoked_stays {} {} none [] [some 1] none _ _ hcs 1 hr
  exact ⟨hr, hlk, hcl⟩

end ValidatorList

end Xrpl.Validators

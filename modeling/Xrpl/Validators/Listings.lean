import Xrpl.Validators.ListCalls

/-!
# The counts of listed keys

* `Counted`: the count of a key is the number of its occurrences on the current lists, and for a key of the
  configuration the threshold on top of it.  Every operation keeps this.
* `keyListings_eq_ncard`: if every list that is presented names a key at most once, the count of a key is the number of
  publishers that list it.
* `expired_list_empty`: if no list has expired when it is presented, a list that has expired is not counted after
  `updateTrusted`.
-/

namespace Xrpl.Validators

open List Option HashMap PublisherListCollection ManifestCache

namespace ValidatorList

variable {vl vl' : ValidatorList}

private lemma get_addKey (vl : ValidatorList) (key k : PublicKey) :
    (vl.addKey key).keyListings.get k = vl.keyListings.get k + if key = k then 1 else 0 := Tally.get_add ..

private lemma get_dropKey (vl : ValidatorList) (key k : PublicKey) :
    (vl.dropKey key).keyListings.get k = vl.keyListings.get k - if key = k then 1 else 0 := Tally.get_drop ..

variable {fuel : ℕ} {Q : PublicKey → Prop} {P : PublicKey} {c : PublisherListCollection}

private lemma get_updateListings (vl : ValidatorList) (news olds : List PublicKey) (k : PublicKey)
    (hf : news.length + olds.length ≤ fuel) (hle : olds.count k ≤ vl.keyListings.get k) :
    (updateListings fuel news olds vl).keyListings.get k + olds.count k = vl.keyListings.get k + news.count k := by
  fun_induction updateListings fuel news olds vl with
  | case1 news olds vl =>
    obtain ⟨rfl, rfl⟩ : news = [] ∧ olds = [] := by
      simpa [Nat.add_eq_zero_iff] using hf
    rfl
  | case2 => rfl
  | case3 fuel new news vl ih =>
    have ih := ih (by simp at hf ⊢; omega) (Nat.zero_le _)
    rw [get_addKey] at ih
    rw [count_cons]
    simp only [beq_iff_eq]
    omega
  | case4 fuel old olds vl ih =>
    rw [count_cons] at hle ⊢
    simp only [beq_iff_eq] at hle ⊢
    rw [get_dropKey] at ih
    have ih := ih (by simp at hf ⊢; omega) (by omega)
    omega
  | case5 fuel new news old olds vl hlt ih =>
    rw [get_addKey] at ih
    have ih := ih (by simp at hf ⊢; omega) (by omega)
    rw [count_cons (a := k) (b := new)]
    simp only [beq_iff_eq]
    omega
  | case6 fuel new news old olds vl hn hlt ih =>
    rw [count_cons (a := k) (b := old)] at hle ⊢
    simp only [beq_iff_eq] at hle ⊢
    rw [get_dropKey] at ih
    have ih := ih (by simp at hf ⊢; omega) (by omega)
    omega
  | case7 fuel new news old olds vl hn hn' ih =>
    obtain rfl : new = old := by
      rw [BitVec.not_lt] at hn hn'
      exact BitVec.le_antisymm hn' hn
    rw [count_cons] at hle
    have ih := ih (by simp at hf ⊢; omega) (by omega)
    rw [count_cons, count_cons]
    omega

private lemma positiveOff_updateListings {news olds : List PublicKey}
    (h : vl.keyListings.PositiveOff Q) : (updateListings fuel news olds vl).keyListings.PositiveOff Q := by
  fun_induction updateListings fuel news olds vl with
  | case1 => exact h
  | case2 => exact h
  | case3 fuel new news vl ih => exact ih (h.add new)
  | case4 fuel old olds vl ih => exact ih (h.drop old)
  | case5 fuel new news old olds vl hlt ih => exact ih (h.add new)
  | case6 fuel new news old olds vl hn hlt ih => exact ih (h.drop old)
  | case7 fuel new news old olds vl hn hn' ih => exact ih h

private lemma keyListings_updatePublisherList (vl : ValidatorList) (current : PublisherList)
    (oldList : List PublicKey) :
    (vl.updatePublisherList current oldList).keyListings =
      (updateListings (current.list.length + oldList.length) current.list oldList vl).keyListings := by
  obtain ⟨c, hc⟩ := foldl_applyValidatorManifest_eq
    (updateListings (current.list.length + oldList.length) current.list oldList vl) current.manifests
  rw [updatePublisherList, hc]

private lemma get_dropKeys (vl : ValidatorList) (keys : List PublicKey) (k : PublicKey) :
    (vl.dropKeys keys).keyListings.get k = vl.keyListings.get k - keys.count k := by
  induction keys generalizing vl with
  | nil => rfl
  | cons key keys ih =>
    refine (ih _).trans ?_
    rw [count_cons]
    simp only [beq_iff_eq]
    split_ifs with hmem hk hk
    · rw [get_dropKey, if_pos hk]
      omega
    · rw [get_dropKey, if_neg hk, Nat.sub_zero, Nat.add_zero]
    · rw [← hk, Tally.get_of_notMem hmem]
      omega
    · rfl

private lemma positiveOff_dropKeys (h : vl.keyListings.PositiveOff Q) (keys : List PublicKey) :
    (vl.dropKeys keys).keyListings.PositiveOff Q := by
  induction keys generalizing vl with
  | nil => exact h
  | cons key keys ih =>
    refine ih ?_
    dsimp only
    split_ifs
    · exact h.drop key
    · exact h

def Configured (vl : ValidatorList) (k : PublicKey) : Prop := vl.localPubKey = some k ∨ k ∈ vl.localPublisherList

instance (vl : ValidatorList) (k : PublicKey) : Decidable (vl.Configured k) :=
  inferInstanceAs (Decidable (_ ∨ _))

def listings (vl : ValidatorList) (k : PublicKey) : ℕ := vl.publisherLists.sumOf fun _ c => c.current.list.count k

structure Counted (vl : ValidatorList) : Prop where
  get_eq : ∀ k, vl.keyListings.get k = (if vl.Configured k then vl.listThreshold else 0) + vl.listings k
  positive : vl.keyListings.PositiveOff vl.Configured

namespace Counted

variable (h : Counted vl) {f : PublisherListCollection → PublisherListCollection}

include h

/-- The lists of a publisher change, and the counts with them. -/
private lemma of_relists (hc : vl.publisherLists.lookup P = some c) (hr : Relists (vl.modifyCollection P f) vl')
    (hget : ∀ k, vl'.keyListings.get k + c.current.list.count k = vl.keyListings.get k + (f c).current.list.count k)
    (hpos : vl'.keyListings.PositiveOff vl.Configured) : Counted vl' := by
  obtain ⟨t, cache, rfl⟩ := hr
  refine ⟨fun k => ?_, hpos⟩
  have hold := h.get_eq k
  have hm : (vl.modifyCollection P f).listings k + c.current.list.count k =
      vl.listings k + (f c).current.list.count k := sumOf_modify (fun _ c => c.current.list.count k) hc f
  have hget : t.get k + c.current.list.count k = vl.keyListings.get k + (f c).current.list.count k := hget k
  have hg : t.get k = (if vl.Configured k then vl.listThreshold else 0) + (vl.modifyCollection P f).listings k := by
    omega
  exact hg

private lemma modifyCollection (P : PublicKey)
    (hf : ∀ c, (f c).current.list = c.current.list) : Counted (vl.modifyCollection P f) := by
  cases hc : vl.publisherLists.lookup P with
  | none => rwa [modifyCollection_of_fixed fun c hc' => (nomatch hc.symm.trans hc')]
  | some c =>
    refine h.of_relists hc (.refl _) (fun k => ?_) h.positive
    rw [hf c]
    rfl

private lemma count_le (hc : vl.publisherLists.lookup P = some c) (k : PublicKey) :
    c.current.list.count k ≤ vl.keyListings.get k := by
  have hold := h.get_eq k
  rw [listings, sumOf_of_lookup _ hc] at hold
  omega

private lemma replace (hc : vl.publisherLists.lookup P = some c)
    (f : PublisherListCollection → PublisherListCollection) :
    Counted ((vl.modifyCollection P f).updatePublisherList (f c).current c.current.list) := by
  refine h.of_relists hc (relists_updatePublisherList _ _ _) (fun k => ?_) ?_
  · rw [keyListings_updatePublisherList]
    exact get_updateListings (vl.modifyCollection P f) _ _ k le_rfl (h.count_le hc k)
  · rw [keyListings_updatePublisherList]
    exact positiveOff_updateListings h.positive

private lemma removePublisherList (P : PublicKey) (reason : PublisherStatus) :
    Counted (vl.removePublisherList P reason) := by
  cases hc : vl.publisherLists.lookup P with
  | none =>
    rw [ValidatorList.removePublisherList, hc]
    exact h
  | some c =>
    refine h.of_relists hc (relists_removePublisherList vl P reason) (fun k => ?_) ?_
    · rw [removePublisherList_eq hc]
      show (vl.dropKeys c.current.list).keyListings.get k + _ = vl.keyListings.get k + 0
      rw [get_dropKeys, Nat.sub_add_cancel (h.count_le hc k), Nat.add_zero]
    · rw [removePublisherList_eq hc]
      exact positiveOff_dropKeys h.positive _

end Counted

end ValidatorList

namespace ValidatorList

variable {vl vl' : ValidatorList} {localSigningKey : Option PublicKey}

private lemma kept_counted : Kept Counted fun _ _ => True where
  manifests _ _ h := ⟨h.get_eq, h.positive⟩
  remove _ P reason h := h.removePublisherList P reason
  clear _ P h := h.modifyCollection P fun _ => rfl
  take vl P c d now disposition h hc _ _ _ := by
    rw [takeList]
    split_ifs with ha
    · exact h.replace hc fun c => c.take d disposition
    · refine h.modifyCollection P fun c => ?_
      rw [take_of_waits (by simpa using ha)]
  cleanUp _ P h := h.modifyCollection P fun _ => rfl
  rotate vl P closeTime h := by
    rcases rotateList_cases vl P closeTime with ⟨heq, -⟩ | ⟨c, candidate, hc, -, heq⟩
    · rwa [heq]
    · rw [heq]
      exact h.replace hc fun c => c.rotate candidate closeTime
  trust _ h := ⟨h.get_eq, h.positive⟩

structure SameConfiguration (vl vl' : ValidatorList) : Prop where
  listThreshold : vl'.listThreshold = vl.listThreshold
  localPubKey : vl'.localPubKey = vl.localPubKey
  localPublisherList : vl'.localPublisherList = vl.localPublisherList

namespace SameConfiguration

private lemma relists {vl'' : ValidatorList} {P : PublicKey} {f : PublisherListCollection → PublisherListCollection}
    (h : SameConfiguration vl vl') (h' : Relists (vl'.modifyCollection P f) vl'') : SameConfiguration vl vl'' := by
  obtain ⟨t, c, rfl⟩ := h'
  exact { h with }

private lemma configured (h : SameConfiguration vl vl') (k : PublicKey) : vl'.Configured k ↔ vl.Configured k := by
  rw [Configured, Configured, h.localPubKey, h.localPublisherList]

end SameConfiguration

private lemma kept_sameConfiguration (vl : ValidatorList) : Kept (SameConfiguration vl) fun _ _ => True where
  manifests _ _ h := { h with }
  remove _ P reason h := h.relists (relists_removePublisherList _ P reason)
  clear _ _ h := h.relists (.refl _)
  take _ P c d _ disposition h _ _ _ _ := h.relists (relists_takeList _ P c d disposition)
  cleanUp _ _ h := h.relists (.refl _)
  rotate _ P closeTime h := h.relists (relists_rotateList _ P closeTime)
  trust _ h := { h with }

structure Configures (vl : ValidatorList) : Prop extends Counted vl where
  mem : ∀ k, vl.Configured k → k ∈ vl.keyListings

private lemma listings_of_loaded (h : Loaded vl) (k : PublicKey) : vl.listings k = 0 := by
  refine sum_eq_zero fun n hn => ?_
  obtain ⟨e, he, rfl⟩ := mem_map.1 hn
  rw [h e.1 e.2 (lookup_of_mem_entries he)]
  rfl

private lemma configures_loadLocalKey (hls : Loaded vl) (hke : vl.keyListings = ∅) (hloc : vl.localPubKey = none)
    (hl : vl.localPublisherList = []) (localSigningKey : Option PublicKey) :
    Configures (vl.loadLocalKey localSigningKey) := by
  have hlis : ∀ k, (vl.loadLocalKey localSigningKey).listings k = 0 := listings_of_loaded hls
  have hc : ∀ k, (vl.loadLocalKey localSigningKey).Configured k ↔
      localSigningKey.map vl.validatorManifests.getMasterKey = some k := by
    intro k
    simp [Configured, loadLocalKey, hloc, hl]
  have hlk : ∀ k, (vl.loadLocalKey localSigningKey).keyListings.lookup k =
      if (vl.loadLocalKey localSigningKey).Configured k then some vl.listThreshold else none := by
    intro k
    simp only [hc]
    rw [loadLocalKey, hloc, hke]
    cases localSigningKey with
    | none => rfl
    | some key =>
      show (emplace ∅ (vl.validatorManifests.getMasterKey key) vl.listThreshold).lookup k = _
      rw [lookup_emplace, map_some]
      simp only [some.injEq, eq_comm (a := k)]
      rfl
  refine ⟨⟨fun k => ?_, fun k hk => ?_⟩, fun k hk => ?_⟩
  · rw [Tally.get, hlk, hlis]
    split_ifs <;> rfl
  · obtain ⟨n, hn⟩ := mem_iff_lookup.1 hk
    rw [hlk] at hn
    split_ifs at hn with hco
    exact .inl hco
  · exact mem_iff_lookup.2 ⟨vl.listThreshold, by rw [hlk, if_pos hk]⟩

private lemma Configures.insert (h : Configures vl) {id : PublicKey} (hid : id ∉ vl.keyListings) : Configures { vl with
      keyListings := vl.keyListings.insert id vl.listThreshold
      localPublisherList := vl.localPublisherList ++ [id] } := by
  have hc : ∀ k, Configured { vl with
      keyListings := vl.keyListings.insert id vl.listThreshold
      localPublisherList := vl.localPublisherList ++ [id] } k ↔ k = id ∨ vl.Configured k := by
    intro k
    simp only [Configured, mem_append, mem_singleton]
    tauto
  have hg := Tally.get_insert vl.keyListings id
  refine ⟨⟨fun k => ?_, fun k hk => ?_⟩, fun k hk => ?_⟩
  · have hold := h.get_eq k
    simp only [hc]
    rw [hg]
    by_cases hk : k = id
    · subst hk
      have hz : vl.listings k = 0 := by
        rw [Tally.get_of_notMem hid] at hold
        omega
      rw [if_pos rfl, if_pos (.inl rfl)]
      exact (congrArg (vl.listThreshold + ·) hz).symm
    · rw [hold]
      simp only [hk, false_or]
      rfl
  · rw [hc, hg]
    rcases (AList.mem_insert _).1 hk with rfl | hk
    · exact .inl (.inl rfl)
    by_cases heq : k = id
    · exact .inl (.inl heq)
    · rw [if_neg heq]
      exact (h.positive k hk).imp_left .inr
  · rw [hc] at hk
    exact (AList.mem_insert _).2 (hk.imp_right (h.mem k))

private lemma configures_loadConfigKeys {keys : List (Option PublicKey)}
    (h : Configures vl) : Configures (loadConfigKeys localSigningKey keys vl).2 := by
  fun_induction loadConfigKeys localSigningKey keys vl with
  | case1 vl => exact h
  | case2 keys vl => exact h
  | case3 id keys vl ih =>
    refine ih ?_
    split_ifs with hs
    · exact h
    · exact h.insert fun hid => hs (.inr (.inr hid))

private lemma counted_load {validatorManifests publisherManifests : ManifestCache}
    {configKeys publisherKeys : List (Option PublicKey)} {listThreshold : Option ℕ} :
    Counted
      (load { validatorManifests, publisherManifests } localSigningKey configKeys publisherKeys listThreshold).2 := by
  have hld : Loaded (loadPublishers publisherKeys { validatorManifests, publisherManifests }).2 :=
    loaded_loadPublishers nofun
  obtain ⟨lists, hls⟩ := loadPublishers_eq publisherKeys { validatorManifests, publisherManifests }
  rw [load]
  generalize loadPublishers publisherKeys { validatorManifests, publisherManifests } = r at hld hls ⊢
  obtain ⟨ok, vl⟩ := r
  subst hls
  cases ok with
  | false =>
    refine ⟨fun k => ?_, fun _ h => absurd h (AList.notMem_empty _)⟩
    rw [listings_of_loaded hld]
    rfl
  | true =>
    refine (configures_loadConfigKeys (configures_loadLocalKey ?_ rfl rfl rfl localSigningKey)).toCounted
    exact hld

variable {k : PublicKey}

private lemma threshold_le_of_mem {closeTime now : ℕ} (hk : k ∈ (vl.updateTrusted closeTime now).trustedMasterKeys) :
    k ∈ (vl.updateTrusted closeTime now).keyListings ∧
      (vl.updateTrusted closeTime now).listThreshold ≤ (vl.updateTrusted closeTime now).keyListings.get k := by
  have htr : (vl.updateTrusted closeTime now).trustworthy k := by
    simp only [updateTrusted, updateTrustedKeys, Finset.mem_union, Finset.mem_filter, List.mem_toFinset,
      List.mem_filter] at hk
    exact hk.elim And.right And.right
  rw [trustworthy, Bool.and_eq_true] at htr
  obtain ⟨n, hn, hle⟩ := (any_eq_true _ _).1 htr.1
  refine ⟨mem_iff_lookup.2 ⟨n, hn⟩, ?_⟩
  rw [Tally.get, hn]
  simpa using hle

/-! ### Lists without repetitions -/

def Lists (vl : ValidatorList) (P k : PublicKey) : Prop :=
  ∃ c, vl.publisherLists.lookup P = some c ∧ k ∈ c.current.list

end ValidatorList

def ListData.Distinct (d : ListData) : Prop := (d.validators.filterMap fun e => e.validationPublicKey.bind id).Nodup

private lemma ListData.Distinct.nodup_keys {d : ListData} (h : d.Distinct) : d.keys.Nodup :=
  (perm_insertionSort _ _).nodup_iff.2 h

namespace PublisherListCollection

structure Distinct (c : PublisherListCollection) : Prop where
  current : c.current.list.Nodup
  remaining : ∀ e ∈ c.remaining.entries, e.2.list.Nodup

namespace Distinct

variable {c : PublisherListCollection}

private lemma take (h : Distinct c) {d : ListData} (hd : d.Distinct) (disposition : ListDisposition) :
    Distinct (c.take d disposition) := by
  cases ha : disposition.accepts with
  | true =>
    rw [take_of_accepts ha]
    refine ⟨?_, fun e he => h.remaining e (mem_of_mem_filter he)⟩
    cases hf : c.remaining.find d.sequence with
    | some publisher => exact h.remaining _ (OrderedMap.find_eq_some.1 hf)
    | none => exact hd.nodup_keys
  | false =>
    rw [take_of_waits ha]
    refine ⟨h.current, fun e he => ?_⟩
    rcases OrderedMap.mem_assign he with ⟨-, u, heq⟩ | ⟨-, hold⟩
    · rw [heq]
      exact hd.nodup_keys
    · exact h.remaining _ hold

private lemma rotated (h : Distinct c) (closeTime : ℕ) : Distinct (c.rotated closeTime) := by
  rw [PublisherListCollection.rotated]
  cases hc : c.candidate closeTime with
  | none => exact h
  | some candidate =>
    obtain ⟨e, he, rfl⟩ := map_eq_some_iff.1 hc
    refine ⟨?_, fun e' he' => h.remaining e' ((dropWhile_sublist _).subset he')⟩
    rw [elim_some, rotate]
    split_ifs
    · exact nodup_nil
    · exact h.remaining e ((takeWhile_sublist _).subset (mem_of_getLast? he))

end Distinct

end PublisherListCollection

namespace ValidatorList

variable {vl : ValidatorList}

private lemma kept_distinct : Kept (Each PublisherListCollection.Distinct) fun d _ => d.Distinct :=
  kept_each (fun _ _ h => ⟨nodup_nil, h.remaining⟩) (fun _ h => ⟨h.current, nofun⟩)
    (fun _ _ _ disposition h hd _ _ => h.take hd disposition)
    (fun _ h => ⟨h.current, fun e he => h.remaining e ((cleanUpList_sublist _ _).subset he)⟩)
    fun _ closeTime h => h.rotated closeTime

private lemma distinct_of_loaded (h : Loaded vl) : Each PublisherListCollection.Distinct vl := by
  intro P c hc
  rw [h P c hc]
  exact ⟨nodup_nil, nofun⟩

private lemma Counted.get_eq_ncard (h : Counted vl) (hd : Each PublisherListCollection.Distinct vl) {k : PublicKey}
    (hk : ¬ vl.Configured k) : vl.keyListings.get k = {P | vl.Lists P k}.ncard := by
  have hc : vl.listings k = vl.publisherLists.count fun _ c => k ∈ c.current.list := by
    rw [← sumOf_eq_count]
    refine sumOf_congr fun e he => ?_
    have hn := (hd e.1 e.2 (lookup_of_mem_entries he)).current
    by_cases hk : k ∈ e.2.current.list
    · rw [count_eq_one_of_mem hn hk, decide_eq_true hk]
      rfl
    · rw [count_eq_zero_of_not_mem hk, decide_eq_false hk]
      rfl
  rw [h.get_eq, if_neg hk, Nat.zero_add, hc, count_eq_ncard]
  simp only [Lists, decide_eq_true_eq]

/-- After any calls that store only lists without repetitions, the count of a key that is not configured is the number
of publishers whose current list has the key; so the key is trusted only if enough publishers list it. -/
theorem keyListings_eq_ncard (validatorManifests publisherManifests : ManifestCache) (localSigningKey : Option PublicKey)
    (configKeys publisherKeys : List (Option PublicKey)) (listThreshold : Option ℕ) (calls : List ListCall)
    (hcalls : Throughout step (Storing fun d _ => d.Distinct)
      (load { validatorManifests, publisherManifests } localSigningKey configKeys publisherKeys listThreshold).2 calls) :
    let vl := calls.foldl step
      (load { validatorManifests, publisherManifests } localSigningKey configKeys publisherKeys listThreshold).2
    (∀ k, ¬ vl.Configured k → vl.keyListings.get k = {P | vl.Lists P k}.ncard) ∧
    ∀ closeTime now k, ¬ vl.Configured k → k ∈ (vl.updateTrusted closeTime now).trustedMasterKeys →
      vl.listThreshold ≤ {P | (vl.updateTrusted closeTime now).Lists P k}.ncard := by
  intro vl
  have hc : Counted vl := kept_counted.run counted_load (.of_forall storing_true)
  have hd : Each PublisherListCollection.Distinct vl := kept_distinct.run (distinct_of_loaded loaded_load) hcalls
  refine ⟨fun k => hc.get_eq_ncard hd, ?_⟩
  intro closeTime now k hk htr
  have hc' : Counted (vl.updateTrusted closeTime now) :=
    kept_counted.step (.updateTrusted closeTime now) hc trivial
  have hd' : Each PublisherListCollection.Distinct (vl.updateTrusted closeTime now) :=
    kept_distinct.step (.updateTrusted closeTime now) hd trivial
  have hs := (kept_sameConfiguration vl).step (.updateTrusted closeTime now) ⟨rfl, rfl, rfl⟩ trivial
  rw [← hc'.get_eq_ncard hd' fun h => hk ((hs.configured k).1 h), ← hs.listThreshold]
  exact (threshold_le_of_mem htr).2

def certificate (publisher signingKey : PublicKey) (sequence : UInt32) : RawManifest where
  base64Size := 200
  size := 150
  object := some
    { publicKey := some publisher
      sequence
      signingPubKey := some (some signingKey)
      hasSignature := true
      signatureValid := true
      masterSignatureValid := true }

def signedList (signingKey : PublicKey) (sequence effective expiration : ℕ) (validators : List PublicKey) :
    ValidatorBlobInfo where
  verifies key := key = signingKey
  list := some
    { sequence := some sequence
      expiration := some expiration
      effective := some (some effective)
      validators := some (validators.map fun key => { validationPublicKey := some (some key) }) }

variable {signingKey : PublicKey} {sequence effective expiration : ℕ} {validators : List PublicKey}

/-- A call with one signed list that is fair. -/
private lemma storing_signedList {fair : ListData → ℕ → Prop} {vl : ValidatorList} {manifest : RawManifest}
    {version time : ℕ}
    (h : fair ⟨sequence, effective, expiration, validators.map fun key => ⟨some (some key), none⟩⟩ time) :
    Storing fair vl (.applyLists manifest version
      [(signedList signingKey sequence effective expiration validators, time)]) := by
  refine fun _ => ⟨fun m c d disposition ht => ?_, fun _ => trivial⟩
  exact Except.ok.inj (some.inj ht.data) ▸ h

def twoPublishers : ValidatorList := (load {} none [] [some 1, some 2] (some 2)).2

/-- The list of one publisher names a validator twice: the validator is counted twice, and it is trusted although the
other publisher does not list it. -/
theorem listed_twice :
    let vl := [.applyLists (certificate 1 11 1) 1 [(signedList 11 1 0 1000 [9, 9], 100)], .updateTrusted 100 100].foldl
      step twoPublishers
    ¬ vl.Configured 9 ∧ vl.keyListings.get 9 = 2 ∧ 9 ∈ vl.trustedMasterKeys ∧ vl.listThreshold = 2 ∧
      ∀ P, vl.Lists P 9 → P = 1 := by
  refine ⟨by decide +kernel, by decide +kernel, by decide +kernel, by decide +kernel, ?_⟩
  intro P ⟨c, hc, h9⟩
  have ha : ∀ e ∈ ([.applyLists (certificate 1 11 1) 1 [(signedList 11 1 0 1000 [9, 9], 100)],
      .updateTrusted 100 100].foldl step twoPublishers).publisherLists.entries,
      9 ∈ e.2.current.list → e.1 = 1 := by decide +kernel
  exact ha ⟨P, c⟩ (AList.mem_lookup_iff.1 hc) h9

def bothList : List ListCall :=
  [.applyLists (certificate 1 11 1) 1 [(signedList 11 1 0 1000 [9, 8], 100)],
    .applyLists (certificate 2 12 1) 1 [(signedList 12 1 0 1000 [9], 100)]]

theorem keyListings_eq_ncard_bothList :
    let vl := bothList.foldl step twoPublishers
    9 ∈ (vl.updateTrusted 100 100).trustedMasterKeys ∧ vl.keyListings.get 9 = {P | vl.Lists P 9}.ncard ∧
      2 ≤ {P | (vl.updateTrusted 100 100).Lists P 9}.ncard := by
  have hcs : Throughout step (Storing fun d _ => d.Distinct) twoPublishers bothList := by
    refine ⟨storing_signedList ?_, storing_signedList ?_, trivial⟩
    · rw [ListData.Distinct]
      decide +kernel
    · rw [ListData.Distinct]
      decide +kernel
  have h := keyListings_eq_ncard {} {} none [] [some 1, some 2] (some 2) bothList hcs
  have hco : ¬ (bothList.foldl step twoPublishers).Configured 9 := by decide +kernel
  have ht : (bothList.foldl step twoPublishers).listThreshold = 2 := by decide +kernel
  have htr : 9 ∈ ((bothList.foldl step twoPublishers).updateTrusted 100 100).trustedMasterKeys := by decide +kernel
  have hle := h.2 100 100 9 hco htr
  have hg := h.1 9 hco
  exact ⟨htr, hg, ht.symm.le.trans hle⟩

/-! ### Lists that have expired -/

end ValidatorList

namespace PublisherListCollection

variable {c : PublisherListCollection}

/-- Only a list that is available has keys. -/
def Live (c : PublisherListCollection) : Prop := c.status = .available ∨ c.current.list = []

private lemma Live.take {d : ListData} {now : ℕ} {disposition : ListDisposition} (h : Live c) (hd : now < d.validUntil)
    (hj : Judged c now d disposition) : Live (c.take d disposition) := by
  cases ha : disposition.accepts with
  | true =>
    have hacc : disposition = .accepted := by
      cases hj with
      | accepted => rfl
      | expired he => omega
      | pending => cases ha
    rw [take_of_accepts ha]
    exact .inl (if_pos hacc)
  | false =>
    rw [take_of_waits ha]
    exact h

private lemma Live.rotated (h : Live c) (closeTime : ℕ) : Live (c.rotated closeTime) := by
  rw [PublisherListCollection.rotated]
  cases c.candidate closeTime with
  | none => exact h
  | some candidate => exact .inl rfl

/-- After `updateTrusted` a list that has expired has no keys. -/
private lemma Live.settle (h : Live c) {closeTime : ℕ} (he : (c.settle closeTime).current.validUntil ≤ closeTime) :
    (c.settle closeTime).current.list = [] := by
  rw [PublisherListCollection.settle] at he ⊢
  split_ifs at he ⊢ with hr
  · rfl
  · rcases h.rotated closeTime with hav | hl
    · exact absurd ⟨hav, he⟩ hr
    · exact hl

end PublisherListCollection

namespace ValidatorList

variable {vl : ValidatorList}

private lemma kept_live : Kept (Each PublisherListCollection.Live) fun d now => now < d.validUntil :=
  kept_each (fun _ _ _ => .inr rfl) (fun _ h => h) (fun _ _ _ _ h hd hj hr =>
    h.take hd (judge_cases hj hr).2) (fun _ h => h) fun _ closeTime h => h.rotated closeTime

private lemma live_of_loaded (h : Loaded vl) : Each PublisherListCollection.Live vl := by
  intro P c hc
  rw [h P c hc]
  exact .inr rfl

lemma le_trustTime (closeTime now : ℕ) : closeTime ≤ trustTime closeTime now := by
  rw [trustTime]
  split_ifs <;> omega

/-- After any calls that store no list that has already expired, and after `updateTrusted`, a list that has expired at
the close time has no keys; the counts are those of the configuration and of the other lists, and a trusted key is
configured or on a list that has not expired. -/
theorem expired_list_empty (validatorManifests publisherManifests : ManifestCache) (localSigningKey : Option PublicKey)
    (configKeys publisherKeys : List (Option PublicKey)) (listThreshold : Option ℕ) (calls : List ListCall)
    (hcalls : Throughout step (Storing fun d now => now < d.validUntil)
      (load { validatorManifests, publisherManifests } localSigningKey configKeys publisherKeys listThreshold).2 calls)
    (closeTime now : ℕ) :
    let vl := (calls.foldl step (load { validatorManifests, publisherManifests } localSigningKey configKeys publisherKeys
      listThreshold).2).updateTrusted closeTime now
    (∀ P c, vl.publisherLists.lookup P = some c → c.current.validUntil ≤ closeTime → c.current.list = []) ∧
    (∀ k, vl.keyListings.get k = (if vl.Configured k then vl.listThreshold else 0) +
      vl.publisherLists.sumOf fun _ c => if c.current.validUntil ≤ closeTime then 0 else c.current.list.count k) ∧
    ∀ k ∈ vl.trustedMasterKeys, vl.Configured k ∨ ∃ P c, vl.publisherLists.lookup P = some c ∧
      closeTime < c.current.validUntil ∧ k ∈ c.current.list := by
  intro vl
  have hcnt : Counted vl := kept_counted.step (.updateTrusted closeTime now)
    (kept_counted.run counted_load (.of_forall storing_true)) trivial
  have hemp : ∀ P c, vl.publisherLists.lookup P = some c → c.current.validUntil ≤ closeTime → c.current.list = [] := by
    intro P c hc hex
    rw [lookup_updateTrusted] at hc
    obtain ⟨c', hc', rfl⟩ := map_eq_some_iff.1 hc
    have hl := kept_live.run (live_of_loaded loaded_load) hcalls P c' hc'
    exact hl.settle (hex.trans (le_trustTime closeTime now))
  have hg : ∀ k, vl.keyListings.get k = (if vl.Configured k then vl.listThreshold else 0) +
      vl.publisherLists.sumOf fun _ c => if c.current.validUntil ≤ closeTime then 0 else c.current.list.count k := by
    intro k
    rw [hcnt.get_eq]
    congr 1
    refine sumOf_congr fun e he => ?_
    split_ifs with hex
    · rw [hemp e.1 e.2 (lookup_of_mem_entries he) hex, count_nil]
    · rfl
  refine ⟨hemp, hg, ?_⟩
  intro k hk
  by_cases hco : vl.Configured k
  · exact .inl hco
  -- a key that is not configured has a count only from the lists
  refine .inr ?_
  have hpos := (hcnt.positive k (threshold_le_of_mem hk).1).resolve_left hco
  rw [hg, if_neg hco, Nat.zero_add] at hpos
  obtain ⟨e, he, hwt⟩ := exists_of_sumOf_pos hpos
  split_ifs at hwt with hex
  · exact absurd hwt (lt_irrefl 0)
  · exact ⟨e.1, e.2, lookup_of_mem_entries he, Nat.not_le.1 hex, count_pos_iff.1 hwt⟩

def onePublisher : ValidatorList := (load {} none [] [some 1] none).2

/-- A list that has expired when it arrives: it is counted, `updateTrusted` does not remove it, and its validator is
trusted. -/
theorem expired_on_arrival :
    let vl := ([.applyLists (certificate 1 11 1) 1 [(signedList 11 1 0 50 [9], 100)]].foldl step
      onePublisher).updateTrusted 100 100
    (vl.publisherLists.lookup 1).map (fun c => (c.current.validUntil, c.current.list)) = some (50, [9]) ∧
      vl.keyListings.get 9 = 1 ∧ 9 ∈ vl.trustedMasterKeys := by
  decide +kernel

/-- A list is accepted, and it expires later. -/
theorem expired_list_empty_later :
    let vl := ([.applyLists (certificate 1 11 1) 1 [(signedList 11 1 0 150 [9], 100)]].foldl step
      onePublisher).updateTrusted 200 200
    (∀ P c, vl.publisherLists.lookup P = some c → c.current.validUntil ≤ 200 → c.current.list = []) ∧
      ∀ k ∈ vl.trustedMasterKeys, vl.Configured k ∨ ∃ P c, vl.publisherLists.lookup P = some c ∧
        200 < c.current.validUntil ∧ k ∈ c.current.list := by
  have hcs : Throughout step (Storing fun d now => now < d.validUntil) onePublisher
      [.applyLists (certificate 1 11 1) 1 [(signedList 11 1 0 150 [9], 100)]] :=
    ⟨storing_signedList (by decide), trivial⟩
  have h := expired_list_empty {} {} none [] [some 1] none _ hcs 200 200
  exact ⟨h.1, h.2.2⟩

end ValidatorList

end Xrpl.Validators

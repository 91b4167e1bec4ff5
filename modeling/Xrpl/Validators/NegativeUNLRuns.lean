import Xrpl.Lib.Yields
import Xrpl.Validators.NegativeUNL

/-!
# The vote agrees with the negative UNL

* `Sound`: no key is listed twice, the validator to re-enable is listed and the one to disable is not;
* `doVoting_meets_iff`: whom the vote names;
* `negativeUNL_chain`: every ledger is sound, and what is voted applies.
-/

namespace Xrpl.NegativeUNL

open NegativeUNLVote List Option NegativeUNLEntry NegativeUNL.Ledger

/-- The state of the object in every ledger. -/
structure Sound (o : NegativeUNLEntry) : Prop where
  nodup : o.keys.Nodup
  valid : ∀ k ∈ o.keys, (publicKeyType k).isSome
  toDisable : ∀ k, o.validatorToDisable = some k → k ∉ o.keys ∧ (publicKeyType k).isSome
  toReEnable : ∀ k, o.validatorToReEnable = some k → k ∈ o.keys

def Ledger.object (l : Ledger) : NegativeUNLEntry := l.negUnl.getD {}

variable {o o' : NegativeUNLEntry} {l l' : Ledger} {k : Blob}

private lemma sound_empty : Sound {} := ⟨nodup_nil, nofun, nofun, nofun⟩

private lemma keys_newNUnl (o : NegativeUNLEntry) (seq : LedgerIndex) :
    (o.newNUnl seq).filterMap DisabledValidator.publicKey =
      o.keys.filter (fun k => o.validatorToReEnable ≠ some k) ++ o.validatorToDisable.toList := by
  have hke : (o.listed.filter fun v =>
      !(o.validatorToReEnable.isSome && v.publicKey.isSome && v.publicKey = o.validatorToReEnable)).filterMap
        DisabledValidator.publicKey = o.keys.filter fun k => o.validatorToReEnable ≠ some k := by
    rw [filterMap_filter, NegativeUNLEntry.keys, filter_filterMap]
    congr 1
    funext v
    cases hv : v.publicKey with
    | none => simp
    | some k =>
      cases hr : o.validatorToReEnable with
      | none => simp [filter_some]
      | some k' =>
        by_cases hk : k = k'
        · simp [hk, filter_some]
        · simp [hk, Ne.symm hk, filter_some]
  rw [newNUnl]
  cases o.validatorToDisable with
  | none => simpa using hke
  | some k => simpa using hke

private lemma keys_update (o : NegativeUNLEntry) (seq : LedgerIndex) : ((o.update seq).getD {}).keys =
      o.keys.filter (fun k => o.validatorToReEnable ≠ some k) ++ o.validatorToDisable.toList := by
  rw [update]
  split_ifs with hn he
  · simp only [Bool.and_eq_true, isNone_iff_eq_none] at hn
    simp [hn]
  · rw [← keys_newNUnl o seq, isEmpty_iff.1 he]
    rfl
  · exact keys_newNUnl o seq

private lemma pending_update (o : NegativeUNLEntry) (seq : LedgerIndex) :
    ((o.update seq).getD {}).validatorToDisable = none ∧ ((o.update seq).getD {}).validatorToReEnable = none := by
  rw [update]
  split_ifs with hn
  · simpa using hn
  · exact ⟨rfl, rfl⟩
  · exact ⟨rfl, rfl⟩

private lemma Sound.update (h : Sound o) (seq : LedgerIndex) : Sound ((o.update seq).getD {}) := by
  obtain ⟨hd, hr⟩ := pending_update o seq
  refine ⟨?_, fun k hk => ?_, by simp [hd], by simp [hr]⟩
  · rw [keys_update, nodup_append]
    refine ⟨h.nodup.filter _, ?_, fun k hk k' hk' => ?_⟩
    · cases o.validatorToDisable <;> simp
    · rintro rfl
      exact (h.toDisable k (by simpa using hk')).1 (mem_filter.1 hk).1
  · rw [keys_update, mem_append, mem_toList] at hk
    rcases hk with hk | hk
    · exact h.valid k (mem_filter.1 hk).1
    · exact (h.toDisable k hk).2

private lemma found_iff : (o.listed.any fun v => v.publicKey = some k) = true ↔ k ∈ o.keys := by
  simp [NegativeUNLEntry.keys]

/-- What a transaction asks for, and what it does. -/
inductive Modified (o : NegativeUNLEntry) (k : Blob) : Bool → NegativeUNLEntry → Prop
  | toDisable (hnone : o.validatorToDisable = none) (hk : k ∉ o.keys) :
      Modified o k true { o with validatorToDisable := some k }
  | toReEnable (hnone : o.validatorToReEnable = none) (hk : k ∈ o.keys) :
      Modified o k false { o with validatorToReEnable := some k }

variable {disabling : Bool} {tx : UNLModify}

private lemma modified_of_modify (h : o.modify disabling k = .ok o') : Modified o k disabling o' := by
  unfold NegativeUNLEntry.modify at h
  simp only [found_iff, Bool.not_eq_true', ← Bool.not_eq_true] at h
  cases disabling with
  | true =>
    simp only [if_true] at h
    split_ifs at h with hs hsa hf
    cases h
    exact .toDisable (by simpa using hs) hf
  | false =>
    simp only [Bool.false_eq_true, if_false] at h
    split_ifs at h with hs hsa hf
    cases h
    exact .toReEnable (by simpa using hs) hf

private lemma Modified.sound (h : Modified o k disabling o') (ho : Sound o) (hk : (publicKeyType k).isSome) :
    Sound o' := by
  cases h with
  | toDisable hn hnot =>
    refine ⟨ho.nodup, ho.valid, fun k' hk' => ?_, ho.toReEnable⟩
    cases hk'
    exact ⟨hnot, hk⟩
  | toReEnable hn hmem =>
    refine ⟨ho.nodup, ho.valid, ho.toDisable, fun k' hk' => ?_⟩
    cases hk'
    exact hmem

private lemma sound_apply (h : Sound l.object) : Sound (apply l tx).object := by
  rw [apply]
  cases hap : applyUNLModify l tx with
  | error e => exact h
  | ok l' =>
    unfold applyUNLModify at hap
    split at hap
    · cases hap
    split at hap
    next disabling seq validator _ _ _ =>
      split_ifs at hap with hl hs hk
      obtain ⟨o', hm, heq⟩ := Except.of_bind_eq_ok hap
      cases heq
      exact (modified_of_modify hm).sound h (by simpa [isSome_iff_ne_none] using hk)
    next => cases hap

private lemma object_child (l : Ledger) :
    l.child.object = if isFlagLedger (l.seq + 1) then (l.object.update (l.seq + 1)).getD {} else l.object := by
  rw [child, object, object]
  split_ifs
  · cases l.negUnl <;> rfl
  · rfl

private lemma seq_child (l : Ledger) : l.child.seq = l.seq + 1 := by
  rw [child]
  split_ifs <;> rfl

private lemma sound_chain (seq : LedgerIndex) (ledgers : List (List UNLModify)) : Sound (chain seq ledgers).object := by
  unfold chain
  refine foldlRecOn ledgers buildLedger (motive := fun l => Sound l.object) ?_ fun l hl txs _ => ?_
  · exact sound_empty
  refine foldlRecOn txs apply (motive := fun l => Sound l.object) ?_ fun _ hl _ _ => sound_apply hl
  rw [object_child]
  split_ifs
  · exact hl.update _
  · exact hl

private lemma toPublicKey_eq_some {d : Blob} {k : PublicKey} : toPublicKey d = some k ↔ d = k.1 := by
  rw [toPublicKey]
  split_ifs with h
  · simp [Subtype.ext_iff]
  · simp only [false_iff]
    rintro rfl
    exact h k.2

private lemma bind_toPublicKey {d : Option Blob} {k : PublicKey} : d.bind toPublicKey = some k ↔ d = some k.1 := by
  simp [bind_eq_some_iff, toPublicKey_eq_some]

private lemma mem_negativeUNL {k : PublicKey} : k ∈ l.negativeUNL ↔ k.1 ∈ l.object.keys := by
  rw [negativeUNL, object]
  cases l.negUnl with
  | none => simp [NegativeUNLEntry.keys, NegativeUNLEntry.listed]
  | some sle => simp [NegativeUNLEntry.keys, bind_toPublicKey]

private lemma validatorToDisable_eq {k : PublicKey} :
    l.validatorToDisable = some k ↔ l.object.validatorToDisable = some k.1 := by
  rw [Ledger.validatorToDisable, Ledger.object]
  cases l.negUnl <;> simp [bind_toPublicKey]

private lemma validatorToReEnable_eq {k : PublicKey} :
    l.validatorToReEnable = some k ↔ l.object.validatorToReEnable = some k.1 := by
  rw [Ledger.validatorToReEnable, Ledger.object]
  cases l.negUnl <;> simp [bind_toPublicKey]

private lemma mem_keys_child (h : Sound l.object) (hf : isFlagLedger (l.seq + 1)) {k : PublicKey} :
    k.1 ∈ l.child.object.keys ↔ k ∈ nextNegativeUNL l := by
  have hn : l.negativeUNL.Nodup := by
    rw [negativeUNL]
    cases l.negUnl with
    | none => exact nodup_nil
    | some sle => exact nodup_dedup _
  have hi : ∃ L : List PublicKey, L.Nodup ∧ (∀ k, k ∈ L ↔ k ∈ l.negativeUNL ∨ l.validatorToDisable = some k) ∧
      nextNegativeUNL l = l.validatorToReEnable.elim L L.erase := by
    rw [nextNegativeUNL]
    cases l.validatorToDisable with
    | none => exact ⟨_, hn, by simp, by cases l.validatorToReEnable <;> rfl⟩
    | some k =>
      refine ⟨_, hn.insert, fun k' => ?_, by cases l.validatorToReEnable <;> rfl⟩
      rw [mem_insert_iff, or_comm, some.injEq, eq_comm]
  obtain ⟨L, hL, hmem, hnx⟩ := hi
  have hnx' : k ∈ nextNegativeUNL l ↔ k ∈ L ∧ l.validatorToReEnable ≠ some k := by
    rw [hnx]
    cases l.validatorToReEnable with
    | none => simp
    | some k' => simp [hL.mem_erase_iff, and_comm, eq_comm]
  rw [hnx', hmem, mem_negativeUNL, validatorToDisable_eq, Ne, validatorToReEnable_eq, object_child, if_pos hf,
    keys_update, mem_append, mem_filter, mem_toList, decide_eq_true_eq]
  constructor
  · rintro (⟨hk, hne⟩ | hk)
    · exact ⟨.inl hk, hne⟩
    · exact ⟨.inr hk, fun hre => (h.toDisable _ hk).1 (h.toReEnable _ hre)⟩
  · rintro ⟨hk | hk, hne⟩
    · exact .inl ⟨hk, hne⟩
    · exact .inr hk

/-! ### The vote -/

section Vote

variable {calcNodeID : PublicKey → NodeID} {ks : List PublicKey} {map : HashMap NodeID PublicKey} {n : NodeID}

private lemma lookup_addKeys {k : PublicKey} (h : (addKeys calcNodeID ks map).lookup n = some k) :
    map.lookup n = some k ∨ k ∈ ks ∧ calcNodeID k = n := by
  induction ks generalizing map with
  | nil => exact .inl h
  | cons k' ks ih =>
    rcases ih h with hold | ⟨hk, hn⟩
    · rw [HashMap.lookup_emplace] at hold
      split_ifs at hold with heq
      · subst heq
        cases hlk : map.lookup (calcNodeID k') with
        | none =>
          rw [hlk] at hold
          cases hold
          exact .inr ⟨mem_cons_self .., rfl⟩
        | some k'' => exact .inl (by rwa [hlk, getD_some] at hold)
      · exact .inl hold
    · exact .inr ⟨mem_cons_of_mem _ hk, hn⟩

private lemma isSome_lookup_addKeys (h : (map.lookup n).isSome ∨ n ∈ ks.map calcNodeID) :
    ((addKeys calcNodeID ks map).lookup n).isSome := by
  induction ks generalizing map with
  | nil => simpa [addKeys] using h
  | cons k' ks ih =>
    refine ih ?_
    rw [HashMap.lookup_emplace, map_cons, mem_cons] at *
    split_ifs with heq
    · exact .inl rfl
    · exact h.imp_right fun hn => hn.resolve_left heq

variable {vote : NegativeUNLVote} {unl negUnl : List NodeID} {table : HashMap NodeID UInt32} {score : NodeID → UInt32}
  {trusted : Uint256 → LedgerIndex → List NodeID} {hash : Uint256} {hashes : Option (List Uint256)} {seq : LedgerIndex}

private lemma argmin_eq_choose (hash : Uint256) (first : NodeID) (candidates : List NodeID) :
    (first :: candidates).argmin (fun c => (c ^^^ hash.extractLsb' 96 160).toNat) = choose hash first candidates := by
  induction candidates generalizing first with
  | nil => rfl
  | cons c candidates ih =>
    refine Eq.trans ?_ (ih (if c ^^^ hash.extractLsb' 96 160 < first ^^^ hash.extractLsb' 96 160 then c else first))
    rw [argmin, argmin, foldl_cons, foldl_cons, foldl_cons]
    congr 1
    exact (apply_ite some ..).symm

/-- The number of the validations of a node among the trusted ones of the last 256 ledgers. -/
def agreed (getTrustedForLedger : Uint256 → LedgerIndex → List NodeID) (hashes : List Uint256) (seq : LedgerIndex)
    (n : NodeID) : ℕ :=
  ((range kFlagLedgerInterval).flatMap fun i =>
    getTrustedForLedger (hashes.getD (hashes.length - 1 - i) 0) (seq - 2 - UInt32.ofNat i)).count n

/-- The table has the validators of the UNL with their scores. -/
def Scores {N : Type} [DecidableEq N] (unl : List N) (score : N → UInt32) (table : HashMap N UInt32) : Prop :=
  ∀ n, table.lookup n = if n ∈ unl then some (score n) else none

private lemma scores_zero (unl : List NodeID) : Scores unl (fun _ => 0)
    (unl.foldl (fun table k => table.insert k 0) ∅) := by
  have hlk : ∀ (ks : List NodeID) (t : HashMap NodeID UInt32) (n : NodeID),
      (ks.foldl (fun t k => t.insert k 0) t).lookup n = if n ∈ ks then some 0 else t.lookup n := by
    intro ks
    induction ks with
    | nil => simp
    | cons k ks ih =>
      intro t n
      rw [foldl_cons, ih, HashMap.lookup_put]
      by_cases hk : n = k <;> simp [hk]
  intro n
  simpa using hlk unl ∅ n

private lemma scores_foldl (validations vs : List NodeID)
    (h : Scores unl (fun n => UInt32.ofNat (validations.count n)) table) :
    Scores unl (fun n => UInt32.ofNat ((validations ++ vs).count n))
      (vs.foldl (fun table v => table.modify v (· + 1)) table) := by
  induction vs generalizing validations table with
  | nil => simpa using h
  | cons v vs ih =>
    rw [append_cons]
    refine ih _ fun n => ?_
    rw [HashMap.lookup_modify, h n]
    by_cases hv : n = v
    · by_cases hn : n ∈ unl <;> simp [hv ▸ hn, hv]
    · simp [hv, Ne.symm hv]

private lemma buildScoreTable_eq (vote : NegativeUNLVote) (l : Ledger) (hashes : Option (List Uint256))
    (unl : List NodeID)
    (trusted : Uint256 → LedgerIndex → List NodeID) :
    ∃ table, Scores unl (fun n => UInt32.ofNat (agreed trusted (hashes.getD []) (l.seq + 1) n)) table ∧
      vote.buildScoreTable l hashes unl trusted =
        let mine := ((table.lookup vote.myId).getD 0).toNat
        if (hashes.getD []).length < kFlagLedgerInterval ∨ mine < kNegativeUnlMinLocalValsToVote then none
        else if kNegativeUnlMinLocalValsToVote < mine ∧ mine ≤ kFlagLedgerInterval then some table
        else none := by
  refine ⟨_, scores_foldl [] _ (scores_zero unl), ?_⟩
  unfold buildScoreTable
  cases hashes with
  | none => rfl
  | some hs =>
    dsimp only
    rw [← foldl_flatMap, ite_or]
    rfl

/-- A validator that may be disabled: less of the UNL than the quota is listed, and this validator of the UNL is not
listed, is not new and has few validations. -/
structure ToDisable (quota : ℕ) (newValidators : HashMap NodeID LedgerIndex) (seq : LedgerIndex)
    (unl negUnl : List NodeID) (score : NodeID → ℕ) (n : NodeID) : Prop where
  canAdd : unl.countP (· ∈ negUnl) < quota
  trusted : n ∈ unl
  unlisted : n ∉ negUnl
  known : ∀ added, newValidators.lookup n = some added → kNewValidatorDisableSkip < (seq - added).toNat
  low : score n < kNegativeUnlLowWaterMark

/-- A listed validator that may be re-enabled: it has many validations, or none has and it is not in the UNL. -/
def ToReEnable (unl negUnl : List NodeID) (score : NodeID → ℕ) (n : NodeID) : Prop :=
  n ∈ negUnl ∧ (n ∈ unl ∧ kNegativeUnlHighWaterMark < score n ∨
    n ∉ unl ∧ ∀ m ∈ unl, m ∈ negUnl → score m ≤ kNegativeUnlHighWaterMark)

namespace Scores

variable (h : Scores unl score table)

include h

private lemma mem_filter {p : (Σ _ : NodeID, UInt32) → Bool} :
    n ∈ (table.entries.filter p).map Sigma.fst ↔ n ∈ unl ∧ p ⟨n, score n⟩ := by
  constructor
  · intro hn
    obtain ⟨⟨n, s⟩, he, rfl⟩ := mem_map.1 hn
    obtain ⟨he, hp⟩ := List.mem_filter.1 he
    have hs := HashMap.lookup_of_mem_entries he
    rw [h n] at hs
    split_ifs at hs with hu
    exact ⟨hu, some.inj hs ▸ hp⟩
  · rintro ⟨hu, hp⟩
    exact mem_map.2 ⟨_, List.mem_filter.2 ⟨AList.mem_lookup_iff.1 ((h n).trans (if_pos hu)), hp⟩, rfl⟩

private lemma mem_toDisable :
    n ∈ ((vote.purgeNewValidators seq).findAllCandidates unl negUnl table).toDisableCandidates ↔
      ToDisable ((toFloat unl.length + 3) / 4) vote.newValidators seq unl negUnl (fun n => (score n).toNat) n := by
  have hn : n ∉ (vote.purgeNewValidators seq).newValidators ↔
      ∀ added, vote.newValidators.lookup n = some added → kNewValidatorDisableSkip < (seq - added).toNat := by
    rw [← AList.lookup_eq_none, purgeNewValidators, HashMap.lookup_filterVal, filter_eq_none_iff]
    simp
  rw [findAllCandidates, h.mem_filter]
  simp only [Bool.and_eq_true, decide_eq_true_eq, hn]
  exact ⟨fun ⟨hu, ⟨⟨ha, hl⟩, hnot⟩, hk⟩ => ⟨ha, hu, hnot, hk, hl⟩,
    fun hd => ⟨hd.trusted, ⟨⟨hd.canAdd, hd.low⟩, hd.unlisted⟩, hd.known⟩⟩

private lemma mem_toReEnable : n ∈ (vote.findAllCandidates unl negUnl table).toReEnableCandidates ↔
    ToReEnable unl negUnl (fun n => (score n).toNat) n := by
  rw [findAllCandidates, ToReEnable]
  have hmem : ∀ m, m ∈ (table.entries.filter fun e =>
      kNegativeUnlHighWaterMark < e.2.toNat && e.1 ∈ negUnl).map Sigma.fst ↔
        m ∈ unl ∧ kNegativeUnlHighWaterMark < (score m).toNat ∧ m ∈ negUnl := by
    intro m
    rw [h.mem_filter, Bool.and_eq_true, decide_eq_true_eq, decide_eq_true_eq]
  generalize (table.entries.filter fun e => kNegativeUnlHighWaterMark < e.2.toNat && e.1 ∈ negUnl) = high at hmem ⊢
  split_ifs with hemp
  · obtain rfl := isEmpty_iff.1 hemp
    have hl : ∀ m ∈ unl, m ∈ negUnl → (score m).toNat ≤ kNegativeUnlHighWaterMark := by
      intro m hu hn
      by_contra hlt
      exact not_mem_nil ((hmem m).2 ⟨hu, Nat.not_le.1 hlt, hn⟩)
    rw [List.mem_filter, decide_eq_true_eq]
    refine and_congr_right fun hn => ⟨fun hu => .inr ⟨hu, hl⟩, ?_⟩
    rintro (⟨hu, hlt⟩ | ⟨hu, -⟩)
    · exact absurd hlt (hl n hu hn).not_gt
    · exact hu
  · obtain ⟨e, he⟩ := exists_mem_of_ne_nil high fun heq => hemp (isEmpty_iff.2 heq)
    obtain ⟨hu, hlt, hn⟩ := (hmem e.1).1 (mem_map_of_mem he)
    rw [hmem, ← and_assoc, and_comm]
    refine and_congr_right fun _ => ⟨.inl, ?_⟩
    rintro (hh | ⟨-, hl⟩)
    · exact hh
    · exact absurd hlt (hl e.1 hu hn).not_gt

end Scores

/-- At most one transaction of a kind, for a key with a property. -/
def AtMostOne (seq : LedgerIndex) (modify : NegativeUNLModify) (Q : PublicKey → Prop) (txs : List UNLModify) : Prop :=
  txs = [] ∨ ∃ k, Q k ∧ txs = [addTx seq k modify]

/-- The transaction for the candidate whose node ID is the least with the pad, if there is a candidate. -/
def Names (calcNodeID : PublicKey → NodeID) (seq : LedgerIndex) (hash : Uint256) (keys : List PublicKey)
    (modify : NegativeUNLModify) (C : NodeID → Prop) (txs : List UNLModify) : Prop :=
  txs = [] ∧ (∀ n, ¬ C n) ∨ ∃ k ∈ keys, txs = [addTx seq k modify] ∧ C (calcNodeID k) ∧
    ∀ n, C n → n ≠ calcNodeID k → calcNodeID k ^^^ hash.extractLsb' 96 160 < n ^^^ hash.extractLsb' 96 160

private lemma modifyTx_names {modify : NegativeUNLModify} {keys : List PublicKey} {C : NodeID → Prop}
    {candidates : List NodeID} (hm : ∀ n k, map.lookup n = some k → k ∈ keys ∧ calcNodeID k = n)
    (hC : ∀ n, n ∈ candidates ↔ C n) (hs : ∀ n, C n → (map.lookup n).isSome) :
    Yields (modifyTx seq hash map modify candidates) (Names calcNodeID seq hash keys modify C) := by
  cases candidates with
  | nil => exact .pure (.inl ⟨rfl, fun n hn => not_mem_nil ((hC n).2 hn)⟩)
  | cons first candidates =>
    have hmin := argmin_eq_choose hash first candidates
    have hmem := (hC _).1 (argmin_mem hmin)
    obtain ⟨k, hk⟩ := isSome_iff_exists.1 (hs _ hmem)
    obtain ⟨hkey, hid⟩ := hm _ k hk
    rw [modifyTx, hk]
    rw [← hid] at hmin hmem
    refine .pure (.inr ⟨k, hkey, rfl, hmem, fun n hn hne => ?_⟩)
    exact BitVec.lt_of_le_ne (le_of_mem_argmin ((hC n).2 hn) hmin) fun heq => hne ((BitVec.xor_left_inj _).1 heq).symm

/-- The transactions of a vote with some scores and a quota of the UNL. -/
def Voted (calcNodeID : PublicKey → NodeID) (vote : NegativeUNLVote) (l : Ledger) (hash : Uint256) (ks : List PublicKey)
    (quota : ℕ → ℕ) (score : NodeID → ℕ) (txs : List UNLModify) : Prop :=
  let unl := (ks.map calcNodeID).dedup
  let negUnl := ((nextNegativeUNL l).map calcNodeID).dedup
  let seq := l.seq + 1
  let named := Names calcNodeID seq hash (ks ++ nextNegativeUNL l)
  ∃ d e, txs = d ++ e ∧ named .toDisable (ToDisable (quota unl.length) vote.newValidators seq unl negUnl score) d ∧
    named .toReEnable (ToReEnable unl negUnl score) e

private lemma doVoting_names (hash : Uint256)
    (ht : vote.buildScoreTable l hashes (ks.map calcNodeID).dedup trusted = some table)
    (h : Scores (ks.map calcNodeID).dedup score table) :
    Yields (vote.doVoting calcNodeID l hash hashes ks trusted) fun r =>
      Voted calcNodeID vote l hash ks (fun size => (toFloat size + 3) / 4) (fun n => (score n).toNat) r.2 := by
  have hf : ∀ n k, (addKeys calcNodeID (nextNegativeUNL l) (addKeys calcNodeID ks ∅)).lookup n = some k →
      k ∈ ks ++ nextNegativeUNL l ∧ calcNodeID k = n := by
    intro n k hk
    rcases lookup_addKeys hk with hk | ⟨hk, hn⟩
    · rcases lookup_addKeys hk with hk | ⟨hk, hn⟩
      · simp at hk
      · exact ⟨mem_append_left _ hk, hn⟩
    · exact ⟨mem_append_right _ hk, hn⟩
  rw [doVoting, ht]
  refine (modifyTx_names hf (fun n => h.mem_toDisable) fun n hn => ?_).bind fun d hd =>
    (modifyTx_names hf (fun n => h.mem_toReEnable) fun n hn => ?_).bind fun e he => .pure ⟨d, e, rfl, hd, he⟩
  · exact isSome_lookup_addKeys (.inl (isSome_lookup_addKeys (.inr (mem_dedup.1 hn.trusted))))
  · exact isSome_lookup_addKeys (.inr (mem_dedup.1 hn.1))

/-- The validator that is to be disabled is not on the list that is predicted, the one to be re-enabled is. -/
private lemma doVoting_spec (vote : NegativeUNLVote) (hash : Uint256) (hashes : Option (List Uint256))
    (getTrustedForLedger : Uint256 → LedgerIndex → List NodeID)
    (hc : ∀ k ∈ ks, ∀ k' ∈ nextNegativeUNL l, calcNodeID k = calcNodeID k' → k = k') :
    Yields (vote.doVoting calcNodeID l hash hashes ks getTrustedForLedger) fun r => ∃ d e, r.2 = d ++ e ∧
      AtMostOne (l.seq + 1) .toDisable (· ∉ nextNegativeUNL l) d ∧
      AtMostOne (l.seq + 1) .toReEnable (· ∈ nextNegativeUNL l) e := by
  cases ht : vote.buildScoreTable l hashes (ks.map calcNodeID).dedup getTrustedForLedger with
  | none =>
    rw [doVoting, ht]
    exact .pure ⟨[], [], rfl, .inl rfl, .inl rfl⟩
  | some table =>
    have hs : ∃ score, Scores (ks.map calcNodeID).dedup score table := by
      obtain ⟨table', hs, heq⟩ := buildScoreTable_eq vote l hashes (ks.map calcNodeID).dedup getTrustedForLedger
      rw [heq] at ht
      dsimp only at ht
      split_ifs at ht
      exact ⟨_, some.inj ht ▸ hs⟩
    obtain ⟨score, hs⟩ := hs
    refine (doVoting_names hash ht hs).mono fun r ⟨d, e, heq, hd, he⟩ => ⟨d, e, heq, ?_, ?_⟩
    · rcases hd with ⟨rfl, -⟩ | ⟨k, -, rfl, hk, -⟩
      · exact .inl rfl
      · exact .inr ⟨k, fun hn => hk.unlisted (mem_dedup.2 (mem_map_of_mem hn)), rfl⟩
    · rcases he with ⟨rfl, -⟩ | ⟨k, hkey, rfl, hk, -⟩
      · exact .inl rfl
      refine .inr ⟨k, ?_, rfl⟩
      obtain ⟨k', hk', hid⟩ := mem_map.1 (mem_dedup.1 hk.1)
      exact (mem_append.1 hkey).elim (fun hu => hc k hu k' hk' hid.symm ▸ hk') id

private lemma toFloat_of_lt {n : ℕ} (h : n < 2 ^ 24) : toFloat n = n := by
  have he : n.log2 - 23 = 0 := by
    rcases Nat.eq_zero_or_pos n with rfl | hpos
    · rfl
    · exact Nat.sub_eq_zero_of_le (Nat.le_of_lt_succ ((Nat.log2_lt hpos.ne').2 h))
  rw [toFloat, he, pow_zero]
  simp [Nat.mod_one]

section

variable (calcNodeID : PublicKey → NodeID) (vote : NegativeUNLVote) (l : Ledger) (hash : Uint256) (ks : List PublicKey)
  (score : NodeID → ℕ)

/-- No validator is a candidate, with a quota of a quarter of the UNL rounded up. -/
def NoCandidate : Prop :=
  let unl := (ks.map calcNodeID).dedup
  let negUnl := ((nextNegativeUNL l).map calcNodeID).dedup
  ∀ n, ¬ ToDisable ((unl.length + 3) / 4) vote.newValidators (l.seq + 1) unl negUnl score n ∧
    ¬ ToReEnable unl negUnl score n

private lemma voted_nil_iff : Voted calcNodeID vote l hash ks (fun size => (size + 3) / 4) score [] ↔
    NoCandidate calcNodeID vote l ks score := by
  have hnil : ∀ {modify keys} {C : NodeID → Prop}, Names calcNodeID (l.seq + 1) hash keys modify C [] ↔ ∀ n, ¬ C n := by
    simp [Names]
  constructor
  · rintro ⟨d, e, heq, hd, he⟩ n
    obtain ⟨rfl, rfl⟩ := append_eq_nil_iff.1 heq.symm
    exact ⟨hnil.1 hd n, hnil.1 he n⟩
  · intro h
    exact ⟨[], [], rfl, hnil.2 fun n => (h n).1, hnil.2 fun n => (h n).2⟩

end

/-- The vote of a local node with `kNegativeUnlMinLocalValsToVote` validations or more names a validator to disable and
one to re-enable exactly if there are candidates, and these are the candidates with the least node IDs: unless it has
just that number of validations, and there is a candidate. -/
theorem doVoting_meets_iff (calcNodeID : PublicKey → NodeID) (vote : NegativeUNLVote) (l : Ledger) (hash : Uint256)
    (hs : List Uint256) (ks : List PublicKey) (getTrustedForLedger : Uint256 → LedgerIndex → List NodeID)
    (hlen : kFlagLedgerInterval ≤ hs.length) (hmy : vote.myId ∈ ks.map calcNodeID) (hks : ks.length < 2 ^ 24)
    (hfit : ∀ n, agreed getTrustedForLedger hs (l.seq + 1) n < 2 ^ 32)
    (hmin : kNegativeUnlMinLocalValsToVote ≤ agreed getTrustedForLedger hs (l.seq + 1) vote.myId)
    (hmax : agreed getTrustedForLedger hs (l.seq + 1) vote.myId ≤ kFlagLedgerInterval) :
    (∃ r, vote.doVoting calcNodeID l hash (some hs) ks getTrustedForLedger = some r ∧
      Voted calcNodeID vote l hash ks (fun size => (size + 3) / 4) (agreed getTrustedForLedger hs (l.seq + 1)) r.2) ↔
    (agreed getTrustedForLedger hs (l.seq + 1) vote.myId = kNegativeUnlMinLocalValsToVote →
      NoCandidate calcNodeID vote l ks (agreed getTrustedForLedger hs (l.seq + 1))) := by
  obtain ⟨table, hsc, heq⟩ := buildScoreTable_eq vote l (some hs) (ks.map calcNodeID).dedup getTrustedForLedger
  have hso : ∀ n, (UInt32.ofNat (agreed getTrustedForLedger hs (l.seq + 1) n)).toNat =
      agreed getTrustedForLedger hs (l.seq + 1) n := fun n => UInt32.toNat_ofNat'.trans (Nat.mod_eq_of_lt (hfit n))
  dsimp only [getD_some] at hsc heq
  rw [hsc, if_pos (mem_dedup.2 hmy), getD_some, hso, if_neg (not_or.2 ⟨Nat.not_lt.2 hlen, hmin.not_gt⟩)] at heq
  rcases hmin.lt_or_eq with hlt | hmin
  · rw [if_pos ⟨hlt, hmax⟩] at heq
    have hquota : toFloat (ks.map calcNodeID).dedup.length = (ks.map calcNodeID).dedup.length := by
      refine toFloat_of_lt (lt_of_le_of_lt ?_ hks)
      exact (dedup_sublist _).length_le.trans_eq (length_map _)
    have hv := doVoting_names hash heq hsc
    simp only [hso, Voted, hquota] at hv
    exact iff_of_true hv fun h => absurd h hlt.ne'
  · rw [if_neg fun h => h.1.ne hmin] at heq
    have hv : vote.doVoting calcNodeID l hash (some hs) ks getTrustedForLedger = some (vote, []) := by
      rw [doVoting, heq]
    rw [hv, forall_prop_of_true hmin.symm, ← voted_nil_iff calcNodeID vote l hash]
    simp

end Vote

/-! ### Applying the transactions -/

variable {K : List Blob} {seq : LedgerIndex}

/-- A transaction that disables a validator that is not listed, or re-enables one that is. -/
def FitsList (seq : LedgerIndex) (K : List Blob) (tx : UNLModify) : Prop :=
  ∃ k : PublicKey, tx = addTx seq k .toDisable ∧ k.1 ∉ K ∨ tx = addTx seq k .toReEnable ∧ k.1 ∈ K

/-- The field that a transaction sets is free. -/
def FreeFor (o : NegativeUNLEntry) (tx : UNLModify) : Prop :=
  (tx.disabling = some 1 → o.validatorToDisable = none) ∧ (tx.disabling = some 0 → o.validatorToReEnable = none)

private lemma modify_of_modified (ho : Sound o) (h : Modified o k disabling o') : o.modify disabling k = .ok o' := by
  unfold NegativeUNLEntry.modify
  cases h with
  | toDisable hn hk =>
    have hne : o.validatorToReEnable ≠ some k := fun h => hk (ho.toReEnable k h)
    simp only [found_iff]
    rw [if_pos trivial, hn, if_neg (by simp), if_neg hne, if_neg hk]
  | toReEnable hn hk =>
    have hne : o.validatorToDisable ≠ some k := fun h => (ho.toDisable k h).1 hk
    rw [if_neg (by simp), hn, if_neg (by simp), if_neg hne, found_iff.2 hk, if_neg (by simp)]

private lemma applyUNLModify_fits (hl : Sound l.object) (hs : l.seq = seq) (hf : isFlagLedger seq)
    (hke : l.object.keys = K) (htx : FitsList seq K tx) (hfr : FreeFor l.object tx) :
    Succeeds (applyUNLModify l tx) fun l' => Sound l'.object ∧ l'.seq = seq ∧ l'.object.keys = K ∧
      ∀ tx', tx'.disabling ≠ tx.disabling → FreeFor l.object tx' → FreeFor l'.object tx' := by
  have hap : ∀ (k : PublicKey) modify o', Modified l.object k.1 (modify = .toDisable) o' →
      applyUNLModify l (addTx seq k modify) = .ok { l with negUnl := some o' } := by
    intro k modify o' hm
    have hmdf := modify_of_modified hl hm
    have hkey : publicKeyType k.1 ≠ none := isSome_iff_ne_none.1 k.2
    rw [object] at hmdf
    cases modify with
    | toDisable | toReEnable => simp_all [applyUNLModify, addTx, pure, Except.pure, bind, Except.bind]
  obtain ⟨k, ⟨rfl, hk⟩ | ⟨rfl, hk⟩⟩ := htx
  · have hm := Modified.toDisable (hfr.1 rfl) (hke.symm ▸ hk)
    exact ⟨_, hap k .toDisable _ hm, hm.sound hl k.2, hs, hke, fun tx' hne h => ⟨fun h1 => absurd h1 hne, h.2⟩⟩
  · have hm := Modified.toReEnable (hfr.2 rfl) (hke.symm ▸ hk)
    exact ⟨_, hap k .toReEnable _ hm, hm.sound hl k.2, hs, hke, fun tx' hne h => ⟨h.1, fun h0 => absurd h0 hne⟩⟩

private lemma foldlM_applyUNLModify {txs : List UNLModify} (hl : Sound l.object) (hs : l.seq = seq)
    (hf : isFlagLedger seq) (hk : l.object.keys = K) (ht : ∀ tx ∈ txs, FitsList seq K tx)
    (hki : txs.Pairwise fun tx tx' => tx.disabling ≠ tx'.disabling)
    (hfr : ∀ tx ∈ txs, FreeFor l.object tx) : ∃ l', txs.foldlM applyUNLModify l = .ok l' := by
  induction txs generalizing l with
  | nil => exact ⟨l, rfl⟩
  | cons tx txs ih =>
    rw [pairwise_cons] at hki
    obtain ⟨l1, hap, hl1, hs1, hk1, hfr1⟩ := applyUNLModify_fits hl hs hf hk (ht tx (by simp)) (hfr tx (by simp))
    rw [foldlM_cons, hap]
    refine ih hl1 hs1 hk1 (fun tx' h => ht tx' (by simp [h])) hki.2 fun tx' h => ?_
    exact hfr1 tx' (hki.1 tx' h).symm (hfr tx' (by simp [h]))

/-- In every chain of ledgers the negative UNL has no key twice, the validator to re-enable is on it and the one to
disable is not; and each transaction that is voted for before a flag ledger succeeds there, in any order, unless a
validator of the UNL has the node ID of another one on the negative UNL. -/
theorem negativeUNL_chain (calcNodeID : PublicKey → NodeID) (seq : LedgerIndex) (ledgers : List (List UNLModify)) :
    (∀ o, (chain seq ledgers).negUnl = some o → o.keys.Nodup ∧ (∀ k, o.validatorToReEnable = some k → k ∈ o.keys) ∧
      (∀ k, o.validatorToDisable = some k → k ∉ o.keys) ∧
      ∀ k k', o.validatorToDisable = some k → o.validatorToReEnable = some k' → k ≠ k') ∧
    (isFlagLedger ((chain seq ledgers).seq + 1) →
      ∀ (vote : NegativeUNLVote) (hash : Uint256) (hashes : Option (List Uint256)) (unlKeys : List PublicKey)
        (getTrustedForLedger : Uint256 → LedgerIndex → List NodeID),
        (∀ k ∈ unlKeys, ∀ k' ∈ nextNegativeUNL (chain seq ledgers), calcNodeID k = calcNodeID k' → k = k') →
        ∃ vote' txs, vote.doVoting calcNodeID (chain seq ledgers) hash hashes unlKeys getTrustedForLedger =
            some (vote', txs) ∧
          ∀ txs' : List UNLModify, txs'.Subperm txs → ∃ l, txs'.foldlM applyUNLModify (chain seq ledgers).child = .ok l) := by
  have hsnd := sound_chain seq ledgers
  generalize chain seq ledgers = l at hsnd ⊢
  refine ⟨fun o ho => ?_, fun hf vote hash hashes unlKeys getTrustedForLedger hc => ?_⟩
  · rw [object, ho] at hsnd
    exact ⟨hsnd.nodup, hsnd.toReEnable, fun k hk => (hsnd.toDisable k hk).1,
      fun k k' hk hk' heq => (hsnd.toDisable k hk).1 (heq ▸ hsnd.toReEnable k' hk')⟩
  obtain ⟨⟨vote', txs⟩, hv, d, e, heq, hd, he⟩ := doVoting_spec vote hash hashes getTrustedForLedger hc
  dsimp only at heq
  refine ⟨vote', txs, hv, fun txs' hsub => ?_⟩
  have hch : l.child.object = (l.object.update (l.seq + 1)).getD {} := by rw [object_child, if_pos hf]
  obtain ⟨hn, hn'⟩ := pending_update l.object (l.seq + 1)
  have hfi : ∀ tx ∈ txs, FitsList (l.seq + 1) l.child.object.keys tx := by
    intro tx htx
    rw [heq, mem_append] at htx
    rcases htx with htx | htx
    · obtain rfl | ⟨k, hk, rfl⟩ := hd
      · cases htx
      · exact ⟨k, .inl ⟨mem_singleton.1 htx, fun h => hk ((mem_keys_child hsnd hf).1 h)⟩⟩
    · obtain rfl | ⟨k, hk, rfl⟩ := he
      · cases htx
      · exact ⟨k, .inr ⟨mem_singleton.1 htx, (mem_keys_child hsnd hf).2 hk⟩⟩
  have hki : txs.Pairwise fun tx tx' => tx.disabling ≠ tx'.disabling := by
    rw [heq]
    obtain rfl | ⟨k, hk, rfl⟩ := hd <;> obtain rfl | ⟨k', hk', rfl⟩ := he <;> simp [addTx]
  obtain ⟨txs'', hp, hs⟩ := hsub
  refine foldlM_applyUNLModify (hch ▸ hsnd.update _) (seq_child l) hf rfl
    (fun tx htx => hfi tx (hs.subset (hp.mem_iff.2 htx)))
    ((hp.pairwise_iff fun h => Ne.symm h).1 (hki.sublist hs)) fun tx _ => ?_
  rw [hch]
  exact ⟨fun _ => hn, fun _ => hn'⟩

/-- A key whose bytes are alike, and a node ID that is the last byte. -/
def sampleKey (b : UInt8) : PublicKey := ⟨0xED :: replicate 32 b, rfl⟩

def lastByte (k : PublicKey) : NodeID := BitVec.ofNat 160 (k.1.getLastD 0).toNat

/-- Of six validators one is listed and it is back, and another one has signed nothing. -/
theorem negativeUNL_chain_oneDown : let vote : NegativeUNLVote := { myId := 1 }
    let ledgers := [addTx 256 (sampleKey 3) .toDisable] :: replicate 255 []
    let result := vote.doVoting lastByte (chain 255 ledgers) 0 (some (replicate 256 0))
      ([1, 2, 3, 4, 5, 6].map sampleKey) fun _ _ => [1, 3, 4, 5, 6]
    isFlagLedger ((chain 255 ledgers).seq + 1) ∧
      result.map Prod.snd = some [addTx 512 (sampleKey 2) .toDisable, addTx 512 (sampleKey 3) .toReEnable] ∧
      ∃ vote' txs, result = some (vote', txs) ∧
        ∀ txs' : List UNLModify, txs'.Subperm txs → ∃ l, txs'.foldlM applyUNLModify (chain 255 ledgers).child = .ok l := by
  intro vote ledgers result
  have hf : isFlagLedger ((chain 255 ledgers).seq + 1) := by decide +kernel
  exact ⟨hf, by decide +kernel, (negativeUNL_chain lastByte 255 ledgers).2 hf _ _ _ _ _ (by decide +kernel)⟩

/-- Of two validators one has signed nothing. -/
theorem doVoting_meets_oneDown : let vote : NegativeUNLVote := { myId := 1 }
    let score := agreed (fun _ _ => [1]) (replicate 256 0) 256
    kNegativeUnlMinLocalValsToVote < score 1 ∧ ∃ r, vote.doVoting lastByte (chain 255 []) 0 (some (replicate 256 0))
      [sampleKey 1, sampleKey 2] (fun _ _ => [1]) = some r ∧
        Voted lastByte vote (chain 255 []) 0 [sampleKey 1, sampleKey 2] (fun size => (size + 3) / 4) score r.2 := by
  have hmin : kNegativeUnlMinLocalValsToVote < agreed (fun _ _ => [1]) (replicate 256 0) 256 1 := by decide +kernel
  have hfit : ∀ n, agreed (fun _ _ => [1]) (replicate 256 0) 256 n < 2 ^ 32 := fun n =>
    count_le_length.trans_lt (by decide +kernel)
  have h := doVoting_meets_iff lastByte { myId := 1 } (chain 255 []) 0 (replicate 256 0) [sampleKey 1, sampleKey 2]
    (fun _ _ => [1]) length_replicate.ge (by decide +kernel) (by decide) hfit (Nat.le_of_lt hmin) (by decide +kernel)
  exact ⟨hmin, h.2 fun heq => absurd heq (Nat.ne_of_gt hmin)⟩

/-- The local node has exactly the number of validations that its participation takes, and it does not vote although the
other validator has none. -/
theorem doVoting_exactly : let vote : NegativeUNLVote := { myId := 1 }
    let seen : Uint256 → LedgerIndex → List NodeID := fun _ seq => if seq < 230 then [1] else []
    agreed seen (replicate 256 0) 256 1 = kNegativeUnlMinLocalValsToVote ∧
      ToDisable 1 vote.newValidators 256 [1, 2] [] (agreed seen (replicate 256 0) 256) 2 ∧
      (vote.doVoting lastByte (chain 255 []) 0 (some (replicate 256 0)) [sampleKey 1, sampleKey 2] seen).map Prod.snd =
        some [] := by
  exact ⟨by decide +kernel, ⟨by decide, by decide, by decide, nofun, by decide +kernel⟩, by decide +kernel⟩

end Xrpl.NegativeUNL

import Xrpl.Validators.Manifest

/-!
# The manifest cache throughout a run

* `Fresh`: what the checks of a manifest leave;
* `Coherent`: the two maps of the cache are inverse to each other, no key is both a master key and a signing key in use,
  and the untrusted keys are stored and few;
* `Newer`: manifests are replaced by newer ones only, and revocations never;
* `run_coherent`: both hold however concurrent calls take turns.
-/

namespace Xrpl.Validators

open Option HashMap Finset

variable {c c' : ManifestCache} {m : Manifest} {cap : ManifestRateLimitCapPolicy}

private lemma Manifest.revoked_eq_false {s : PublicKey} (h : m.signingKey = some s) : m.revoked = false := by
  rw [revoked, ← m.isNone_signingKey, h]
  rfl

private lemma Manifest.exists_signingKey (h : m.revoked = false) : ∃ s, m.signingKey = some s := by
  rw [revoked, ← m.isNone_signingKey] at h
  exact isSome_iff_exists.1 (by simpa using h)

lemma Manifest.revoked_eq_false_of_lt {old : Manifest} (h : old.sequence < m.sequence) : old.revoked = false := by
  have hlt := m.sequence.toNat_lt
  rw [UInt32.lt_iff_toNat_lt] at h
  rw [revoked, isRevocation, decide_eq_false_iff_not]
  intro heq
  rw [heq] at h
  have : (0xFFFFFFFF : UInt32).toNat = 4294967295 := rfl
  omega

namespace ManifestCache

/-- A manifest that is newer than the stored one, with keys that have no other use. -/
structure Fresh (c : ManifestCache) (m : Manifest) : Prop where
  newer : ∀ old, c.map.lookup m.masterKey = some old → old.sequence < m.sequence
  master : m.masterKey ∉ c.signingToMasterKeys
  signing : ∀ s, m.signingKey = some s → s ∉ c.signingToMasterKeys ∧ s ∉ c.map

private lemma fresh_of_prewriteCheck {checkSignature : Bool} (h : c.prewriteCheck m checkSignature = none) :
    Fresh c m := by
  rw [prewriteCheck] at h
  split at h
  case isTrue => cases h
  case isFalse hstl =>
    have hn : ∀ old, c.map.lookup m.masterKey = some old → old.sequence < m.sequence := by
      intro old hold
      rw [hold, any_some, decide_eq_true_iff] at hstl
      exact UInt32.not_le.1 hstl
    split_ifs at h with hsig hm hr
    · refine ⟨hn, hm, ?_⟩
      intro s hs
      rw [m.revoked_eq_false hs] at hr
      cases hr
    · refine ⟨hn, hm, ?_⟩
      intro s hs
      rw [hs] at h
      dsimp only at h
      split_ifs at h with hin hmap
      exact ⟨hin, hmap⟩

private lemma writePhase_cases (c : ManifestCache) (m : Manifest) (cap : ManifestRateLimitCapPolicy) :
    (c.writePhase m cap).2 = c ∨
      (c.writePhase m cap).2 = c.store m cap ∧ Fresh c m ∧ c.atUntrustedCap m cap = false := by
  rw [writePhase]
  split_ifs with hcap
  · exact .inl rfl
  · cases hchk : c.prewriteCheck m false with
    | some d => exact .inl rfl
    | none => exact .inr ⟨rfl, fresh_of_prewriteCheck hchk, by simpa using hcap⟩

private lemma prewriteCheck_ne_accepted (c : ManifestCache) (m : Manifest) (checkSignature : Bool) :
    c.prewriteCheck m checkSignature ≠ some .accepted := by
  rw [prewriteCheck]
  split
  · simp
  split_ifs
  · simp
  · simp
  · simp
  cases m.signingKey with
  | none => simp
  | some signingKey =>
    dsimp only
    split_ifs <;> simp

private lemma verify_of_prewriteCheck (h : c.prewriteCheck m true = none) : m.verify = true := by
  rw [prewriteCheck] at h
  split at h
  · cases h
  · split_ifs at h with hv
    all_goals simpa using hv

/-- `applyManifest` does nothing, or it stores a manifest that is fresh and properly signed. -/
lemma applyManifest_cases (c : ManifestCache) (m : Manifest) (cap : ManifestRateLimitCapPolicy) :
    (c.applyManifest m cap).1 ≠ .accepted ∧ (c.applyManifest m cap).2 = c ∨
      (c.applyManifest m cap).1 = .accepted ∧ (c.applyManifest m cap).2 = c.store m cap ∧ Fresh c m ∧ m.verify := by
  rw [applyManifest, readPhase]
  split_ifs with hcap
  · exact .inl ⟨by simp, rfl⟩
  cases hchk : c.prewriteCheck m true with
  | some d => exact .inl ⟨fun h => c.prewriteCheck_ne_accepted m true (hchk.trans (congrArg some h)), rfl⟩
  | none =>
    rw [writePhase, if_neg hcap]
    cases hchk' : c.prewriteCheck m false with
    | some d => exact .inl ⟨fun h => c.prewriteCheck_ne_accepted m false (hchk'.trans (congrArg some h)), rfl⟩
    | none => exact .inr ⟨rfl, rfl, fresh_of_prewriteCheck hchk, verify_of_prewriteCheck hchk⟩

lemma lookup_map_store (c : ManifestCache) (m : Manifest) (cap : ManifestRateLimitCapPolicy) (k : PublicKey) :
    (c.store m cap).map.lookup k = if k = m.masterKey then some m else c.map.lookup k := by
  rw [store]
  cases c.map.lookup m.masterKey with
  | none => exact lookup_put ..
  | some old => exact lookup_put ..

private lemma lookup_addSigningKey {keys : HashMap PublicKey PublicKey} (h : ∀ s, m.signingKey = some s → s ∉ keys)
    (s : PublicKey) :
    (addSigningKey m keys).lookup s = if m.signingKey = some s then some m.masterKey else keys.lookup s := by
  rw [addSigningKey]
  cases hs : m.signingKey with
  | none => simp
  | some signingKey =>
    dsimp only
    rw [m.revoked_eq_false hs, if_neg Bool.false_ne_true, lookup_emplace,
      AList.lookup_eq_none.2 (h signingKey hs), getD_none]
    simp only [some.injEq, eq_comm]

private lemma lookup_signing_store (hf : Fresh c m) (cap : ManifestRateLimitCapPolicy) (s : PublicKey) :
    (c.store m cap).signingToMasterKeys.lookup s = if m.signingKey = some s then some m.masterKey
      else if (c.map.lookup m.masterKey).bind Manifest.signingKey = some s then none
      else c.signingToMasterKeys.lookup s := by
  have hn : ∀ s, m.signingKey = some s → s ∉ c.signingToMasterKeys := fun s hs => (hf.signing s hs).1
  rw [store]
  cases hold : c.map.lookup m.masterKey with
  | none => simpa using lookup_addSigningKey hn s
  | some old =>
    obtain ⟨oldKey, ho⟩ := old.exists_signingKey (Manifest.revoked_eq_false_of_lt (hf.newer old hold))
    dsimp only
    rw [ho, elim_some, lookup_addSigningKey, lookup_drop, bind_some, ho]
    · simp only [some.injEq, eq_comm]
    · intro s hs hmem
      exact hn s hs (AList.mem_erase.1 hmem).2

/-! ### The invariant -/

structure Coherent (c : ManifestCache) : Prop where
  own : ∀ k m, c.map.lookup k = some m → m.masterKey = k
  signing : ∀ s k, c.signingToMasterKeys.lookup s = some k ↔
    ∃ m, c.map.lookup k = some m ∧ m.revoked = false ∧ m.signingKey = some s
  apart : ∀ k, k ∈ c.map → k ∉ c.signingToMasterKeys
  untrusted_le : c.untrustedKeys.card ≤ kMaxUntrustedCount
  untrusted_mem : ∀ k ∈ c.untrustedKeys, k ∈ c.map

lemma mem_iff_lookup {V : Type} {h : HashMap PublicKey V} {k : PublicKey} : k ∈ h ↔ ∃ v, h.lookup k = some v := by
  rw [← AList.lookup_isSome, isSome_iff_exists]

namespace Coherent

private lemma empty : Coherent {} where
  own _ _ h := by cases h
  signing s k := by
    constructor
    · intro h
      cases h
    · rintro ⟨m, h, -⟩
      cases h
  apart _ h := by
    obtain ⟨m, hm⟩ := mem_iff_lookup.1 h
    cases hm
  untrusted_le := Nat.zero_le _
  untrusted_mem _ h := by cases h

private lemma signing_store (hc : Coherent c) (hf : Fresh c m) (cap : ManifestRateLimitCapPolicy) (s k : PublicKey) :
    (c.store m cap).signingToMasterKeys.lookup s = some k ↔
      ∃ m', (c.store m cap).map.lookup k = some m' ∧ m'.revoked = false ∧ m'.signingKey = some s := by
  simp only [lookup_signing_store hf, lookup_map_store]
  by_cases hs : m.signingKey = some s
  · rw [if_pos hs]
    constructor
    · intro h
      obtain rfl := some.inj h
      exact ⟨m, if_pos rfl, m.revoked_eq_false hs, hs⟩
    rintro ⟨m', hm', hr, hs'⟩
    split_ifs at hm' with hk
    · rw [hk]
    · exact absurd (mem_iff_lookup.2 ⟨k, (hc.signing s k).2 ⟨m', hm', hr, hs'⟩⟩) (hf.signing s hs).1
  · rw [if_neg hs]
    by_cases hold : (c.map.lookup m.masterKey).bind Manifest.signingKey = some s
    · -- the old signing key is the one of this master key only
      rw [if_pos hold]
      obtain ⟨old, hl, hkey⟩ := bind_eq_some_iff.1 hold
      have hb := (hc.signing s m.masterKey).2 ⟨old, hl, old.revoked_eq_false hkey, hkey⟩
      constructor
      · intro h
        cases h
      rintro ⟨m', hm', hr, hs'⟩
      split_ifs at hm' with hk
      · obtain rfl := some.inj hm'
        exact absurd hs' hs
      · have := (hc.signing s k).2 ⟨m', hm', hr, hs'⟩
        exact absurd (some.inj (this.symm.trans hb)) hk
    · rw [if_neg hold, hc.signing]
      refine exists_congr fun m' => ?_
      split_ifs with hk
      · subst hk
        constructor
        · rintro ⟨hm', -, hs'⟩
          exact absurd (bind_eq_some_iff.2 ⟨m', hm', hs'⟩) hold
        · rintro ⟨hm', -, hs'⟩
          obtain rfl := some.inj hm'
          exact absurd hs' hs
      · exact Iff.rfl

private lemma mem_map_store (c : ManifestCache) (m : Manifest) (cap : ManifestRateLimitCapPolicy) (k : PublicKey) :
    k ∈ (c.store m cap).map ↔ k = m.masterKey ∨ k ∈ c.map := by
  simp only [mem_iff_lookup, lookup_map_store]
  split_ifs with hk
  · simp [hk]
  · simp [hk]

variable (hc : Coherent c)

include hc

private lemma apart_store (hf : Fresh c m) (cap : ManifestRateLimitCapPolicy) (k : PublicKey)
    (hk : k ∈ (c.store m cap).map) : k ∉ (c.store m cap).signingToMasterKeys := by
  intro hmem
  obtain ⟨k', hk'⟩ := mem_iff_lookup.1 hmem
  rw [lookup_signing_store hf] at hk'
  rw [mem_map_store] at hk
  split_ifs at hk' with hs hold
  · rcases hk with rfl | hk
    · exact m.signingKey_ne hs
    · exact (hf.signing k hs).2 hk
  have hin : k ∈ c.signingToMasterKeys := mem_iff_lookup.2 ⟨k', hk'⟩
  rcases hk with rfl | hk
  · exact hf.master hin
  · exact hc.apart k hk hin

private lemma store (hf : Fresh c m) (hcap : c.atUntrustedCap m cap = false) : Coherent (c.store m cap) := by
  refine ⟨?_, hc.signing_store hf cap, hc.apart_store hf cap, ?_, ?_⟩
  · intro k m' hm'
    rw [lookup_map_store] at hm'
    split_ifs at hm' with hk
    · obtain rfl := some.inj hm'
      exact hk.symm
    · exact hc.own k m' hm'
  · rw [ManifestCache.store]
    cases hold : c.map.lookup m.masterKey with
    | none =>
      split_ifs with hu
      · exact hc.untrusted_le
      have hca : cap = .capped := by cases cap <;> simp_all
      rw [atUntrustedCap, hold, hca] at hcap
      have hlt : c.untrustedKeys.card < kMaxUntrustedCount := by simpa using hcap
      exact (card_insert_le _ _).trans hlt
    | some old =>
      split_ifs with hu
      · exact (card_erase_le).trans hc.untrusted_le
      · exact hc.untrusted_le
  · intro k hk
    rw [mem_map_store]
    rw [ManifestCache.store] at hk
    cases hold : c.map.lookup m.masterKey with
    | none =>
      rw [hold] at hk
      split_ifs at hk with hu
      · exact .inr (hc.untrusted_mem k hk)
      · exact (mem_insert.1 hk).imp_right (hc.untrusted_mem k)
    | some old =>
      rw [hold] at hk
      split_ifs at hk with hu
      · exact .inr (hc.untrusted_mem k (mem_of_mem_erase hk))
      · exact .inr (hc.untrusted_mem k hk)

private lemma promoteToTrusted (pk : PublicKey) : Coherent (c.promoteToTrusted pk) where
  own := hc.own
  signing := hc.signing
  apart := hc.apart
  untrusted_le := card_erase_le.trans hc.untrusted_le
  untrusted_mem k hk := hc.untrusted_mem k (mem_of_mem_erase hk)

private lemma getMasterKey_getSigningKey {k : PublicKey} (hm : c.map.lookup k = some m)
    (hr : m.revoked = false) : (c.getSigningKey k).map c.getMasterKey = some k := by
  obtain ⟨s, hs⟩ := m.exists_signingKey hr
  rw [getSigningKey, hm]
  dsimp only
  rw [if_neg (by simp [hr]), hs, map_some, getMasterKey, (hc.signing s k).2 ⟨m, hm, hr, hs⟩, getD_some]

end Coherent

/-- Every stored manifest is kept, or replaced by a newer one if it is not a revocation. -/
def Newer (c c' : ManifestCache) : Prop :=
  ∀ k m, c.map.lookup k = some m → ∃ m', c'.map.lookup k = some m' ∧
    (m' = m ∨ m.sequence < m'.sequence ∧ m.revoked = false)

private lemma Newer.refl (c : ManifestCache) : Newer c c := fun _ m hm => ⟨m, hm, .inl rfl⟩

private lemma Newer.trans {c1 c2 c3 : ManifestCache} (h12 : Newer c1 c2) (h23 : Newer c2 c3) : Newer c1 c3 := by
  intro k m hm
  obtain ⟨m2, hm2, h2⟩ := h12 k m hm
  obtain ⟨m3, hm3, h3⟩ := h23 k m2 hm2
  refine ⟨m3, hm3, ?_⟩
  rcases h2 with rfl | ⟨hlt, hr⟩
  · exact h3
  · rcases h3 with rfl | ⟨hlt', -⟩
    · exact .inr ⟨hlt, hr⟩
    · exact .inr ⟨UInt32.lt_trans hlt hlt', hr⟩

private lemma newer_writePhase (c : ManifestCache) (m : Manifest) (cap : ManifestRateLimitCapPolicy) :
    Newer c (c.writePhase m cap).2 := by
  rcases writePhase_cases c m cap with heq | ⟨heq, hf, -⟩
  · rw [heq]
    exact .refl c
  intro k old hold
  rw [heq, lookup_map_store]
  split_ifs with hk
  · subst hk
    have hlt := hf.newer old hold
    exact ⟨m, rfl, .inr ⟨hlt, Manifest.revoked_eq_false_of_lt hlt⟩⟩
  · exact ⟨old, hold, .inl rfl⟩

end ManifestCache

namespace ManifestSystem

open ManifestCache

private lemma step_coherent {s : ManifestSystem} (hs : Coherent s.cache) (action : ManifestAction) :
    Coherent (s.step action).cache ∧ Newer s.cache (s.step action).cache := by
  cases action with
  | read m cap =>
    rw [step]
    cases s.cache.readPhase m cap <;> exact ⟨hs, .refl _⟩
  | write call =>
    rw [step]
    cases s.waiting[call]? with
    | none => exact ⟨hs, .refl _⟩
    | some w =>
      refine ⟨?_, newer_writePhase s.cache w.1 w.2⟩
      change Coherent (s.cache.writePhase w.1 w.2).2
      rcases writePhase_cases s.cache w.1 w.2 with heq | ⟨heq, hf, hcap⟩
      · rwa [heq]
      · rw [heq]
        exact hs.store hf hcap
  | promoteToTrusted pk => exact ⟨hs.promoteToTrusted pk, .refl _⟩

private lemma foldl_step_coherent {s : ManifestSystem} (hs : Coherent s.cache) (actions : List ManifestAction) :
    Coherent (actions.foldl step s).cache ∧ Newer s.cache (actions.foldl step s).cache := by
  induction actions generalizing s with
  | nil => exact ⟨hs, .refl _⟩
  | cons action actions ih =>
    obtain ⟨hs1, hn1⟩ := step_coherent hs action
    obtain ⟨hs2, hn2⟩ := ih hs1
    exact ⟨hs2, hn1.trans hn2⟩

/-- However concurrent calls take turns: the signing keys in use are exactly those of the stored manifests that are not
revoked, and they lead back to their master keys; no key is a master key and a signing key in use; the untrusted keys
are stored and few; and what is stored is replaced by newer manifests only, a revocation never. -/
theorem run_coherent (actions later : List ManifestAction) :
    let s := actions.foldl step {}
    (∀ k mk, s.cache.signingToMasterKeys.lookup k = some mk ↔
      ∃ m, s.cache.map.lookup mk = some m ∧ m.revoked = false ∧ m.signingKey = some k) ∧
    (∀ k, k ∈ s.cache.map → k ∉ s.cache.signingToMasterKeys) ∧
    (∀ k m, s.cache.map.lookup k = some m → m.revoked = false →
      (s.cache.getSigningKey k).map s.cache.getMasterKey = some k) ∧
    s.cache.untrustedKeys.card ≤ kMaxUntrustedCount ∧ (∀ k ∈ s.cache.untrustedKeys, k ∈ s.cache.map) ∧
    Newer s.cache (later.foldl step s).cache := by
  intro s
  have hs := (foldl_step_coherent (s := {}) Coherent.empty actions).1
  exact ⟨hs.signing, hs.apart, fun k m => hs.getMasterKey_getSigningKey, hs.untrusted_le, hs.untrusted_mem,
    (foldl_step_coherent hs later).2⟩

end ManifestSystem

end Xrpl.Validators

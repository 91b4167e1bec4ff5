import Mathlib.Data.List.AList
import Mathlib.Data.List.DropRight
import Mathlib.Data.Set.Card

/-!
# Hash maps as association lists

A hash map is an association list with distinct keys.  The order of the list carries no meaning; code that iterates
over a hash map asks for an order first.  In an aged map every entry has a time stamp, and the entries stand in the
order of the time they were inserted or touched, the newest first.

* `HashMap.perm_of_lookup`: an entry and the map without it;
* `HashMap.values`: the multiset of values;
* `HashMap.count`: the number of entries that satisfy a condition;
* `HashMap.sumOf`: the sum of a weight over the entries.
-/

abbrev HashMap (K V : Type) := AList fun _ : K => V

abbrev HashSet (K : Type) := HashMap K Unit

namespace HashMap

open List Option AList

variable {K V W : Type}

def mapVal (f : K → V → W) (m : HashMap K V) : HashMap K W where
  entries := m.entries.map fun e => ⟨e.1, f e.1 e.2⟩
  nodupKeys := by
    have h : (m.entries.map fun e => (⟨e.1, f e.1 e.2⟩ : Σ _ : K, W)).keys = m.entries.keys := by
      simp [List.keys, Function.comp_def]
    rw [List.NodupKeys, h]
    exact m.nodupKeys

def filterVal (P : K → V → Bool) (m : HashMap K V) : HashMap K V where
  entries := m.entries.filter fun e => P e.1 e.2
  nodupKeys := m.nodupKeys.sublist filter_sublist

def count (P : K → V → Bool) (m : HashMap K V) : Nat := m.entries.countP fun e => P e.1 e.2

def sumOf (w : K → V → Nat) (m : HashMap K V) : Nat := (m.entries.map fun e => w e.1 e.2).sum

def values (m : HashMap K V) : Multiset V := (m.entries.map Sigma.snd : List V)

variable [DecidableEq K]

def modify (m : HashMap K V) (k : K) (f : V → V) : HashMap K V := m.mapVal fun k' v => if k' = k then f v else v

def emplace (m : HashMap K V) (k : K) (v : V) : HashMap K V := if k ∈ m then m else m.insert k v

variable {m : HashMap K V} {k : K} {v : V} {P : K → V → Bool} {f : HashMap K V → (Σ _ : K, W) → HashMap K V}
  {g : Option V → W → V}

lemma perm_of_lookup (h : m.lookup k = some v) : m.entries.Perm (⟨k, v⟩ :: (m.erase k).entries) := by
  have hmem : (⟨k, v⟩ : Σ _ : K, V) ∈ m.entries := mem_lookup_iff.1 h
  obtain ⟨v', l1, l2, -, hl, he⟩ := exists_of_kerase (mem_keys_of_mem hmem)
  have hv : v' = v := by
    have : (⟨k, v'⟩ : Σ _ : K, V) ∈ m.entries := by simp [hl]
    exact some.inj ((mem_lookup_iff.2 this).symm.trans h)
  subst hv
  show m.entries.Perm (_ :: kerase k m.entries)
  rw [he, hl]
  exact perm_middle

lemma values_of_lookup (h : m.lookup k = some v) : m.values = v ::ₘ values (m.erase k) :=
  Multiset.coe_eq_coe.2 ((perm_of_lookup h).map Sigma.snd)

lemma values_insert (m : HashMap K V) (k : K) (v : V) : values (insert k v m) = v ::ₘ values (m.erase k) := rfl

lemma erase_of_lookup_eq_none (h : m.lookup k = none) : m.erase k = m :=
  ext (kerase_of_notMem_keys (lookup_eq_none.1 h))

lemma lookup_of_mem_entries {e : Σ _ : K, V} (h : e ∈ m.entries) : m.lookup e.1 = some e.2 := mem_lookup_iff.2 h

lemma lookup_singleton (k k' : K) (v : V) :
    lookup k' (singleton k v : HashMap K V) = if k' = k then some v else none := by
  by_cases h : k' = k
  · subst h
    rw [if_pos rfl]
    exact mem_lookup_iff.2 (List.mem_singleton_self _)
  · rw [if_neg h]
    exact AList.lookup_eq_none.2 (by simpa [AList.mem_keys] using h)

lemma eq_of_lookup_singleton {k k' : K} {v v' : V} (h : lookup k' (singleton k v : HashMap K V) = some v') : v = v' := by
  rw [lookup_singleton] at h
  split_ifs at h
  exact Option.some.inj h

lemma lookup_put (m : HashMap K V) (k k' : K) (v : V) :
    lookup k' (insert k v m) = if k' = k then some v else m.lookup k' := by
  split_ifs with h
  · subst h
    exact lookup_insert m
  · exact lookup_insert_ne h

lemma of_lookup_insert {k' : K} {v' : V} (h : lookup k' (insert k v m) = some v') :
    k' = k ∧ v = v' ∨ k' ≠ k ∧ m.lookup k' = some v' := by
  rw [lookup_put] at h
  split_ifs at h with hk
  · exact .inl ⟨hk, some.inj h⟩
  · exact .inr ⟨hk, h⟩

lemma lookup_drop (m : HashMap K V) (k k' : K) : lookup k' (erase k m) = if k' = k then none else m.lookup k' := by
  split_ifs with h
  · subst h
    exact lookup_erase k' m
  · exact lookup_erase_ne h

lemma lookup_mapVal (f : K → V → W) (m : HashMap K V) (k : K) : (m.mapVal f).lookup k = (m.lookup k).map (f k) := by
  cases h : m.lookup k with
  | none =>
    have hk : k ∉ m.entries.keys := lookup_eq_none.1 h
    refine lookup_eq_none.2 fun hmem => hk ?_
    simpa [mapVal, List.keys] using hmem
  | some v => exact mem_lookup_iff.2 (mem_map_of_mem (mem_lookup_iff.1 h))

lemma mem_mapVal {f : K → V → W} : k ∈ m.mapVal f ↔ k ∈ m := by
  rw [← lookup_isSome, ← lookup_isSome, lookup_mapVal, isSome_map]

lemma lookup_modify (m : HashMap K V) (k k' : K) (f : V → V) :
    (m.modify k f).lookup k' = if k' = k then (m.lookup k').map f else m.lookup k' := by
  rw [modify, lookup_mapVal]
  split_ifs with h
  · rfl
  · exact map_id'

lemma modify_congr {f g : V → V} (h : ∀ v, m.lookup k = some v → f v = g v) : m.modify k f = m.modify k g := by
  refine ext (map_congr_left fun e he => ?_)
  dsimp only
  split_ifs with hk
  · rw [h e.2 (hk ▸ lookup_of_mem_entries he)]
  · rfl

lemma modify_of_fixed {f : V → V} (h : ∀ v, m.lookup k = some v → f v = v) : m.modify k f = m := by
  rw [modify_congr (g := id) h]
  exact ext ((map_congr_left fun e _ => by simp).trans (map_id _))

lemma lookup_emplace (m : HashMap K V) (k k' : K) (v : V) :
    (m.emplace k v).lookup k' = if k' = k then some ((m.lookup k).getD v) else m.lookup k' := by
  unfold emplace
  split_ifs with hk hk'
  · obtain ⟨w, hw⟩ := isSome_iff_exists.1 (lookup_isSome.2 hk)
    rw [hk', hw, getD_some]
  · rfl
  all_goals rw [lookup_put]
  · simp [*, lookup_eq_none.2 hk]
  · simp [*]

lemma lookup_filterVal (P : K → V → Bool) (m : HashMap K V) (k : K) :
    (m.filterVal P).lookup k = (m.lookup k).filter (P k) := by
  refine ext fun v => ?_
  rw [← mem_def, mem_lookup_iff, filter_eq_some_iff, ← mem_def, mem_lookup_iff]
  simp [filterVal]

section

variable (hf : ∀ m e k, (f m e).lookup k = if k = e.1 then some (g (m.lookup k) e.2) else m.lookup k)

include hf

lemma lookup_foldl_entries (m' : HashMap K W) (m : HashMap K V) (k : K) :
    (m'.entries.foldl f m).lookup k = ((m'.lookup k).map (g (m.lookup k))).or (m.lookup k) := by
  obtain ⟨l, hl⟩ := m'
  show (l.foldl f m).lookup k = ((l.dlookup k).map (g (m.lookup k))).or (m.lookup k)
  induction l generalizing m with
  | nil => rfl
  | cons e l ih =>
    obtain ⟨hne, hl⟩ := nodupKeys_cons.1 hl
    rw [foldl_cons, ih _ hl, hf]
    by_cases hk : k = e.1
    · subst hk
      rw [dlookup_eq_none.2 hne, dlookup_cons_eq]
      simp
    · rw [dlookup_cons_ne l e hk, if_neg hk]

end

omit [DecidableEq K] in
private lemma nodup_filter_keys (P : K → V → Bool) (m : HashMap K V) :
    ((m.entries.filter fun e => P e.1 e.2).map Sigma.fst).Nodup :=
  (filter_sublist.map Sigma.fst).nodup m.nodupKeys

private lemma mem_filter_keys :
    k ∈ (m.entries.filter fun e => P e.1 e.2).map Sigma.fst ↔ ∃ v, m.lookup k = some v ∧ P k v := by
  simp only [List.mem_map, List.mem_filter]
  constructor
  · rintro ⟨e, ⟨he, hP⟩, rfl⟩
    exact ⟨e.2, lookup_of_mem_entries he, hP⟩
  · rintro ⟨v, hv, hP⟩
    exact ⟨⟨k, v⟩, ⟨mem_lookup_iff.1 hv, hP⟩, rfl⟩

private lemma count_eq_length {l : List K} (hl : l.Nodup)
    (h : ∀ k, k ∈ l ↔ ∃ v, m.lookup k = some v ∧ P k v) : m.count P = l.length := by
  have hp : ((m.entries.filter fun e => P e.1 e.2).map Sigma.fst).Perm l :=
    (perm_ext_iff_of_nodup (nodup_filter_keys P m) hl).2 fun k => mem_filter_keys.trans (h k).symm
  rw [← hp.length_eq, length_map, count, countP_eq_length_filter]

lemma count_eq_ncard (P : K → V → Bool) (m : HashMap K V) :
    m.count P = {k | ∃ v, m.lookup k = some v ∧ P k v}.ncard := by
  have hs : {k | ∃ v, m.lookup k = some v ∧ P k v} =
      ((m.entries.filter fun e => P e.1 e.2).map Sigma.fst).toFinset := by
    ext k
    rw [Finset.mem_coe, List.mem_toFinset, mem_filter_keys]
    rfl
  rw [hs, Set.ncard_coe_finset, toFinset_card_of_nodup (nodup_filter_keys P m)]
  exact count_eq_length (nodup_filter_keys P m) fun k => mem_filter_keys

lemma count_congr {Q : K → W → Bool} {m' : HashMap K W}
    (h : ∀ k, (∃ v, m.lookup k = some v ∧ P k v) ↔ ∃ w, m'.lookup k = some w ∧ Q k w) : m.count P = m'.count Q := by
  rw [count_eq_length (nodup_filter_keys Q m') fun k => mem_filter_keys.trans (h k).symm, length_map, count,
    countP_eq_length_filter]

lemma count_eq_zero (h : ∀ k v, m.lookup k = some v → ¬ P k v) : m.count P = 0 :=
  count_eq_length nodup_nil fun k => by
    simp only [not_mem_nil, false_iff, not_exists, not_and]
    exact h k

lemma count_of_lookup (P : K → V → Bool) (h : m.lookup k = some v) :
    m.count P = count P (m.erase k) + (P k v).toNat := by
  rw [count, (perm_of_lookup h).countP_eq, countP_cons]
  cases P k v <;> rfl

lemma count_insert (P : K → V → Bool) (m : HashMap K V) (k : K) (v : V) :
    count P (insert k v m) = count P (m.erase k) + (P k v).toNat := by
  show countP _ (⟨k, v⟩ :: (m.erase k).entries) = _
  rw [countP_cons]
  cases P k v <;> rfl

lemma sumOf_of_lookup (w : K → V → Nat) (h : m.lookup k = some v) : m.sumOf w = sumOf w (m.erase k) + w k v := by
  rw [sumOf, ((perm_of_lookup h).map _).sum_eq, Nat.add_comm]
  rfl

lemma sumOf_replace (w : K → V → Nat) (h : m.lookup k = some v) (v' : V) :
    sumOf w (insert k v' m) + w k v = m.sumOf w + w k v' := by
  have hi : sumOf w (insert k v' m) = w k v' + sumOf w (m.erase k) := rfl
  rw [hi, sumOf_of_lookup w h]
  omega

omit [DecidableEq K] in
lemma sumOf_congr {w w' : K → V → Nat} (h : ∀ e ∈ m.entries, w e.1 e.2 = w' e.1 e.2) : m.sumOf w = m.sumOf w' :=
  congrArg sum (map_congr_left h)

omit [DecidableEq K] in
lemma exists_of_sumOf_pos {w : K → V → Nat} (h : 0 < m.sumOf w) : ∃ e ∈ m.entries, 0 < w e.1 e.2 := by
  by_contra hnot
  push Not at hnot
  refine h.ne' (sum_eq_zero fun n hn => ?_)
  obtain ⟨e, he, rfl⟩ := mem_map.1 hn
  exact Nat.le_zero.1 (hnot e he)

omit [DecidableEq K] in
lemma sumOf_eq_count (P : K → V → Bool) (m : HashMap K V) : (m.sumOf fun k v => (P k v).toNat) = m.count P := by
  rw [sumOf, count]
  induction m.entries with
  | nil => rfl
  | cons e l ih =>
    rw [map_cons, sum_cons, ih, countP_cons]
    cases P e.1 e.2 <;> simp [Nat.add_comm]

lemma sumOf_modify (w : K → V → Nat) (h : m.lookup k = some v) (f : V → V) :
    sumOf w (m.modify k f) + w k v = m.sumOf w + w k (f v) := by
  rw [← sumOf_replace w h (f v)]
  have hp : (m.modify k f).entries.Perm (insert k (f v) m).entries := by
    refine lookup_ext (m.modify k f).nodupKeys (insert k (f v) m).nodupKeys fun k' v' => ?_
    change v' ∈ (m.modify k f).lookup k' ↔ v' ∈ lookup k' (insert k (f v) m)
    rw [lookup_modify, lookup_put]
    split_ifs with hk
    · rw [hk, h, map_some]
    · rfl
  rw [sumOf, (hp.map _).sum_eq]
  rfl

end HashMap

abbrev AgedMap (K V : Type) := HashMap K (Int × V)

namespace AgedMap

variable {K V : Type} [DecidableEq K]

/-- `operator[]`: the value, or a new one with the present time. -/
def getOrNew (now : Int) (new : V) (m : AgedMap K V) (k : K) : V × AgedMap K V :=
  match m.lookup k with
  | some e => (e.2, m)
  | none => (new, m.insert k (now, new))

def assign (m : AgedMap K V) (k : K) (v : V) : AgedMap K V :=
  match m.lookup k with
  | some e => m.replace k (e.1, v)
  | none => m

def touch (now : Int) (m : AgedMap K V) (k : K) : AgedMap K V :=
  match m.lookup k with
  | some e => m.insert k (now, e.2)
  | none => m

/-- Drop the oldest entries, up to the first one that is younger than `age`. -/
def expire (now age : Int) (m : AgedMap K V) : AgedMap K V where
  entries := m.entries.rdropWhile fun e => e.2.1 ≤ now - age
  nodupKeys := m.nodupKeys.sublist (List.rdropWhile_prefix _ _).sublist

end AgedMap

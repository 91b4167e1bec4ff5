import Xrpl.SHAMap.Refine

/-!
# Histories of a SHAMap

What a map is for: it stores at most one item for a key.  `Contents` is that finite map, with the three operations
and the result each of them reports.

* `Represents`: a canonical tree whose leaves are the items of the contents;
* `Represents.step`, `Represents.run`: one operation, and a whole sequence of operations, takes a map that represents
  some contents to one that represents the changed contents, with the same reported results and without throwing;
* `run_empty_determined`: the tree, and with it the root hash, is a function of the final contents.
-/

namespace Xrpl.SHAMap

open RadixTree.Tree Option Function

inductive Op where
  | add (item : SHAMapItem)
  | del (id : Uint256)
  | update (item : SHAMapItem)

abbrev Contents := Uint256 → Option SHAMapItem

/-- The reported result of an operation and the contents after it. -/
def Contents.apply (f : Contents) : Op → Bool × Contents
  | .add item => if (f item.key).isSome then (false, f) else (true, update f item.key (some item))
  | .del id => if (f id).isSome then (true, update f id none) else (false, f)
  | .update item => if (f item.key).isSome then (true, update f item.key (some item)) else (false, f)

/-- The reported results of a sequence of operations and the contents after it. -/
def Contents.applyAll : Contents → List Op → List Bool × Contents
  | f, [] => ([], f)
  | f, op :: ops =>
    let (ok, f') := f.apply op
    let (oks, f'') := applyAll f' ops
    (ok :: oks, f'')

/-! ### Runs of the code -/

section Runs

variable [Sha512Half]

def step (type : SHAMapNodeType) (m : SHAMap) : Op → Except SHAMapError (Bool × SHAMap)
  | .add item => addGiveItem m type item
  | .del id => delItem m id
  | .update item => updateGiveItem m type item

def run (type : SHAMapNodeType) : SHAMap → List Op → Except SHAMapError (List Bool × SHAMap)
  | m, [] => .ok ([], m)
  | m, op :: ops => do
    let (ok, m') ← step type m op
    let (oks, m'') ← run type m' ops
    return (ok :: oks, m'')

/-- The map `m` is the canonical tree for the contents `f`. -/
structure Represents (type : SHAMapNodeType) (m : SHAMap) (f : Contents) : Prop where
  canonical : IsCanonical m.root
  mem_iff : ∀ l, Mem l m.root ↔ ∃ item, l = typedLeaf type item ∧ f item.key = some item
  key_eq : ∀ k item, f k = some item → item.key = k

variable {type : SHAMapNodeType} {m m' : SHAMap} {f : Contents}

lemma represents_empty (type : SHAMapNodeType) : Represents type empty fun _ => none where
  canonical := ⟨_, rfl, fun _ => trivial⟩
  mem_iff l := by
    constructor
    · intro h
      obtain ⟨i, hi⟩ := h
      exact absurd hi mem_null
    · intro h
      obtain ⟨item, -, hit⟩ := h
      simp at hit
  key_eq k item h := by simp at h

namespace Represents

variable (h : Represents type m f) {item : SHAMapItem}

include h

private lemma typed : ∀ l, Mem l m.root → l = typedLeaf type l.item := by
  intro l hl
  obtain ⟨item, rfl, -⟩ := (h.mem_iff l).1 hl
  rfl

lemma mem_of_some {k : Uint256} (hk : f k = some item) : Mem (typedLeaf type item) m.root := by
  have := h.key_eq k item hk
  subst this
  exact (h.mem_iff _).2 ⟨item, rfl, hk⟩

lemma absent {k : Uint256} (hk : f k = none) : ∀ l, Mem l m.root → leafKey l ≠ k := by
  intro l hl hlk
  obtain ⟨item, rfl, hi⟩ := (h.mem_iff l).1 hl
  have hkey : item.key = k := hlk
  rw [hkey, hk] at hi
  simp at hi

private lemma store (hc : IsCanonical m'.root)
    (hmem : ∀ l, Mem l m'.root ↔ l = typedLeaf type item ∨ (Mem l m.root ∧ leafKey l ≠ leafKey (typedLeaf type item))) :
    Represents type m' (update f item.key (some item)) where
  canonical := hc
  mem_iff l := by
    rw [hmem]
    constructor
    · intro hl
      rcases hl with rfl | ⟨hl, hne⟩
      · exact ⟨item, rfl, by simp⟩
      · obtain ⟨x, rfl, hx⟩ := (h.mem_iff l).1 hl
        have hne : x.key ≠ item.key := hne
        exact ⟨x, rfl, by rw [update_of_ne hne, hx]⟩
    · intro hl
      obtain ⟨x, rfl, hx⟩ := hl
      by_cases hk : x.key = item.key
      · rw [hk, update_self, some.injEq] at hx
        exact .inl (by rw [hx])
      · rw [update_of_ne hk] at hx
        exact .inr ⟨(h.mem_iff _).2 ⟨x, rfl, hx⟩, hk⟩
  key_eq k x hx := by
    by_cases hk : k = item.key
    · rw [hk, update_self, some.injEq] at hx
      rw [hk, hx]
    · rw [update_of_ne hk] at hx
      exact h.key_eq k x hx

private lemma discard {id : Uint256} (hc : IsCanonical m'.root)
    (hmem : ∀ l, Mem l m'.root ↔ Mem l m.root ∧ leafKey l ≠ id) :
    Represents type m' (update f id none) where
  canonical := hc
  mem_iff l := by
    rw [hmem, h.mem_iff]
    constructor
    · intro hl
      obtain ⟨⟨x, rfl, hx⟩, hne⟩ := hl
      have hne : x.key ≠ id := hne
      exact ⟨x, rfl, by rw [update_of_ne hne, hx]⟩
    · intro hl
      obtain ⟨x, rfl, hx⟩ := hl
      have hne : x.key ≠ id := by
        intro hk
        rw [hk, update_self] at hx
        simp at hx
      rw [update_of_ne hne] at hx
      exact ⟨⟨x, rfl, hx⟩, hne⟩
  key_eq k x hx := by
    by_cases hk : k = id
    · rw [hk, update_self] at hx
      simp at hx
    · rw [update_of_ne hk] at hx
      exact h.key_eq k x hx

lemma step (ht : type ≠ .tnInner) (op : Op) :
    ∃ m', SHAMap.step type m op = .ok ((f.apply op).1, m') ∧ Represents type m' (f.apply op).2 := by
  cases op with
  | add item =>
    rcases hf : f item.key with _ | old
    · have hfr := h.absent hf
      obtain ⟨hc, hmem⟩ := h.canonical.insertAt (a := typedLeaf type item) nibble_inj hfr
      simp only [Contents.apply, hf, isSome_none, Bool.false_eq_true, ↓reduceIte]
      exact ⟨_, addGiveItem_fresh h.canonical ht h.typed hfr, h.store hc hmem⟩
    · simp only [Contents.apply, hf, isSome_some, ↓reduceIte]
      exact ⟨m, addGiveItem_stored h.canonical (h.mem_of_some hf) (h.key_eq _ _ hf), h⟩
  | del id =>
    rcases hf : f id with _ | old
    · simp only [Contents.apply, hf, isSome_none, Bool.false_eq_true, ↓reduceIte]
      exact ⟨m, delItem_absent h.canonical (h.absent hf), h⟩
    have hold := h.mem_of_some hf
    have hk : leafKey (typedLeaf type old) = id := h.key_eq _ _ hf
    have hd := delItem_stored h.canonical ht h.typed hold
    obtain ⟨hc, hmem⟩ := h.canonical.eraseAt hold
    rw [hk] at hd hc hmem
    simp only [Contents.apply, hf, isSome_some, ↓reduceIte]
    exact ⟨_, hd, h.discard hc hmem⟩
  | update item =>
    rcases hf : f item.key with _ | old
    · simp only [Contents.apply, hf, isSome_none, Bool.false_eq_true, ↓reduceIte]
      exact ⟨m, updateGiveItem_absent h.canonical (h.absent hf), h⟩
    have hold := h.mem_of_some hf
    have hk : leafKey (typedLeaf type old) = leafKey (typedLeaf type item) := h.key_eq _ _ hf
    obtain ⟨hc, hmem⟩ := h.canonical.replaceAt hold hk
    simp only [Contents.apply, hf, isSome_some, ↓reduceIte]
    exact ⟨_, updateGiveItem_stored h.canonical h.typed hold hk, h.store hc hmem⟩

lemma run (ht : type ≠ .tnInner) (ops : List Op) :
    ∃ m', SHAMap.run type m ops = .ok ((f.applyAll ops).1, m') ∧ Represents type m' (f.applyAll ops).2 := by
  induction ops generalizing m f with
  | nil => exact ⟨m, rfl, h⟩
  | cons op ops ih =>
    obtain ⟨m1, h1, r1⟩ := h.step ht op
    obtain ⟨m2, h2, r2⟩ := ih r1
    refine ⟨m2, ?_, r2⟩
    rw [SHAMap.run, h1]
    show (SHAMap.run type m1 ops >>= _) = _
    rw [h2]
    rfl

lemma ext (h' : Represents type m' f) : m = m' := by
  have hr : m.root = m'.root := h.canonical.ext h'.canonical fun l => by rw [h.mem_iff, h'.mem_iff]
  cases m
  cases m'
  exact congrArg SHAMap.mk hr

lemma findKey (id : Uint256) : SHAMap.findKey m id = .ok ((f id).map (typedLeaf type)) := by
  obtain ⟨found, hf, hiff⟩ := findKey_eq h.canonical id
  rw [hf]
  congr 1
  ext l
  rw [hiff, h.mem_iff, map_eq_some_iff]
  constructor
  · intro hl
    obtain ⟨⟨item, rfl, hi⟩, hk⟩ := hl
    exact ⟨item, hk ▸ hi, rfl⟩
  intro hl
  obtain ⟨item, hi, rfl⟩ := hl
  have hk := h.key_eq _ _ hi
  exact ⟨⟨item, rfl, by rw [hk, hi]⟩, hk⟩

lemma hasItem (id : Uint256) : SHAMap.hasItem m id = .ok (f id).isSome := by
  unfold SHAMap.hasItem
  rw [h.findKey id]
  show Except.ok (isSome _) = _
  rw [isSome_map]

private lemma innerAt_iff {p : List (Fin kBranchFactor)} (hp : p ≠ []) : InnerAt m.root p ↔
      ∃ k k', k ≠ k' ∧ (f k).isSome ∧ (f k').isSome ∧ Under nibble p k ∧ Under nibble p k' := by
  rw [h.canonical.innerAt_iff hp]
  constructor
  · intro ht
    obtain ⟨a, b, hab, ha, hb, ua, ub⟩ := ht
    refine ⟨leafKey a, leafKey b, fun hk => hab (h.canonical.eq_of_key ha hb hk), ?_, ?_, ua, ub⟩
    · obtain ⟨item, rfl, hi⟩ := (h.mem_iff a).1 ha
      exact isSome_of_eq_some hi
    · obtain ⟨item, rfl, hi⟩ := (h.mem_iff b).1 hb
      exact isSome_of_eq_some hi
  · intro ht
    obtain ⟨k, k', hne, hk, hk', uk, uk'⟩ := ht
    obtain ⟨x, hx⟩ := isSome_iff_exists.1 hk
    obtain ⟨y, hy⟩ := isSome_iff_exists.1 hk'
    have hxk : leafKey (typedLeaf type x) = k := h.key_eq _ _ hx
    have hyk : leafKey (typedLeaf type y) = k' := h.key_eq _ _ hy
    refine ⟨typedLeaf type x, typedLeaf type y, ?_, h.mem_of_some hx, h.mem_of_some hy, ?_, ?_⟩
    · intro heq
      exact hne (by rw [← hxk, ← hyk, heq])
    · rwa [hxk]
    · rwa [hyk]

end Represents

lemma represents_of_run {ops : List Op} {oks : List Bool} (ht : type ≠ .tnInner)
    (hr : run type empty ops = .ok (oks, m)) : Represents type m (Contents.applyAll (fun _ => none) ops).2 := by
  obtain ⟨m1, hm1, hm⟩ := (represents_empty type).run ht ops
  obtain rfl : m1 = m := congrArg Prod.snd (Except.ok.inj (hm1.symm.trans hr))
  exact hm

/-- Every sequence of calls on an empty map reports the results and stores the items of the finite map, lookups agree
with it, an inner node other than the root stands at a prefix exactly when two stored keys share it, and any other
sequence that ends with the same contents ends with the same tree and the same root hash. -/
theorem run_empty_determined (type : SHAMapNodeType) (htype : type ≠ .tnInner) (ops : List Op) :
    ∃ m, run type empty ops = .ok ((Contents.applyAll (fun _ => none) ops).1, m) ∧ (∀ l, Mem l m.root ↔
        ∃ item, l = typedLeaf type item ∧ (Contents.applyAll (fun _ => none) ops).2 item.key = some item) ∧
      (∀ id, findKey m id = .ok (((Contents.applyAll (fun _ => none) ops).2 id).map (typedLeaf type))) ∧
      (∀ id, hasItem m id = .ok ((Contents.applyAll (fun _ => none) ops).2 id).isSome) ∧
      (∀ p, p ≠ [] → (InnerAt m.root p ↔ ∃ k k', k ≠ k' ∧ ((Contents.applyAll (fun _ => none) ops).2 k).isSome ∧
        ((Contents.applyAll (fun _ => none) ops).2 k').isSome ∧ Under nibble p k ∧ Under nibble p k')) ∧
      ∀ ops', (Contents.applyAll (fun _ => none) ops').2 = (Contents.applyAll (fun _ => none) ops).2 →
        ∃ m', run type empty ops' = .ok ((Contents.applyAll (fun _ => none) ops').1, m') ∧
          m'.root = m.root ∧ getHash m' = getHash m := by
  obtain ⟨m, hr, hm⟩ := (represents_empty type).run htype ops
  refine ⟨m, hr, hm.mem_iff, hm.findKey, hm.hasItem, fun p hp => hm.innerAt_iff hp, ?_⟩
  intro ops' hs
  obtain ⟨m', hr', hm'⟩ := (represents_empty type).run htype ops'
  rw [hs] at hm'
  have heq := hm'.ext hm
  exact ⟨m', hr', by rw [heq], by rw [heq]⟩

end Runs

/-- Two account entries that share their first 60 nibbles, one of them deleted again: the chain of inner nodes made
for them is gone. -/
theorem run_empty_determined_accountState : let _ : Sha512Half := ⟨fun bytes => BitVec.ofNat 256 bytes.length⟩
    SHAMapNodeType.tnAccountState ≠ .tnInner ∧
      ∃ m, run .tnAccountState empty [.add ⟨0x1111, []⟩, .add ⟨0x2222, []⟩, .del 0x1111] = .ok ([true, true, true], m) ∧
        ∃ m', run .tnAccountState empty [.add ⟨0x2222, []⟩] = .ok ([true], m') ∧ getHash m' = getHash m := by
  intro inst
  obtain ⟨m, hr, -, -, -, -, hs⟩ := run_empty_determined .tnAccountState (by decide)
    [.add ⟨0x1111, []⟩, .add ⟨0x2222, []⟩, .del 0x1111]
  obtain ⟨m', hr', -, hh⟩ := hs [.add ⟨0x2222, []⟩] (by
    funext k
    simp [Contents.applyAll, Contents.apply, update]
    grind)
  exact ⟨by decide, m, hr, m', hr', hh⟩

end Xrpl.SHAMap

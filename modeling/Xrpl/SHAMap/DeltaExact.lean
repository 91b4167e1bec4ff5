import Xrpl.SHAMap.Delta

/-!
# The differences are exact

The list that `compare` notes holds each key on which the two maps differ once (`treeDiff_isDifference`): the items of
an inner node lie in the branch of their next nibble, so the branches contribute different keys, and branches with the
same hash store the same items.  With that, `compare_exact` says when the table of differences is complete and what is
in it, and `run_getHash_eq_iff` that the root hash stands for the contents.
-/

namespace Xrpl.SHAMap

open RadixTree.Tree List Function

/-! ### Lists of differences -/

/-- The list holds each key on which `F` and `G` differ once, with both items on their sides. -/
structure IsDifference (isFirstMap : Bool) (l : List (Uint256 × DeltaItem)) (F G : Contents) : Prop where
  nodup : (l.map Prod.fst).Nodup
  mem_iff : ∀ k d, (k, d) ∈ l ↔ F k ≠ G k ∧ d = sided isFirstMap (F k) (G k)

structure Lists (items : List SHAMapItem) (F : Contents) : Prop where
  nodup : (items.map SHAMapItem.key).Nodup
  mem_iff : ∀ k item, F k = some item ↔ item ∈ items ∧ item.key = k

namespace Lists

variable {F : Contents} {items : List SHAMapItem}

private lemma eq_none (h : Lists [] F) (k : Uint256) : F k = none := by
  refine Option.eq_none_iff_forall_ne_some.2 fun item hi => ?_
  simpa using ((h.mem_iff k item).1 hi).1

variable {item : SHAMapItem}

private lemma head (h : Lists (item :: items) F) : F item.key = some item := (h.mem_iff _ _).2 ⟨mem_cons_self, rfl⟩

private lemma tail (h : Lists (item :: items) F) : Lists items (update F item.key none) := by
  obtain ⟨hi, hits⟩ := nodup_cons.1 h.nodup
  refine ⟨hits, fun k x => ?_⟩
  by_cases hk : k = item.key
  · rw [hk]
    refine ⟨fun hx => by simp at hx, fun hx => ?_⟩
    exact absurd (mem_map.2 ⟨x, hx.1, hx.2⟩) hi
  rw [update_of_ne hk, h.mem_iff, mem_cons]
  constructor
  · rintro ⟨rfl | hx, rfl⟩
    · exact absurd rfl hk
    · exact ⟨hx, rfl⟩
  · exact fun hx => ⟨.inr hx.1, hx.2⟩

private lemma update_none (h : Lists items F) {k : Uint256} (hk : F k = none) : Lists items (update F k none) := by
  rwa [update_eq_self_iff.2 hk.symm]

end Lists

namespace IsDifference

variable {isFirstMap : Bool} {l : List (Uint256 × DeltaItem)} {F G : Contents}

private lemma nil (h : ∀ k, F k = G k) : IsDifference isFirstMap [] F G where
  nodup := nodup_nil
  mem_iff k d := by simp [h k]

variable {k0 : Uint256}

section

variable (h : IsDifference isFirstMap l (update F k0 none) (update G k0 none))

include h

private lemma skip (hk0 : F k0 = G k0) : IsDifference isFirstMap l F G where
  nodup := h.nodup
  mem_iff k d := by
    rw [h.mem_iff]
    by_cases hk : k = k0
    · simp [hk, hk0]
    · rw [update_of_ne hk, update_of_ne hk]

private lemma cons (hk0 : F k0 ≠ G k0) : IsDifference isFirstMap ((k0, sided isFirstMap (F k0) (G k0)) :: l) F G where
  nodup := by
    rw [map_cons, nodup_cons]
    refine ⟨fun hmem => ?_, h.nodup⟩
    obtain ⟨⟨k, d⟩, he, rfl⟩ := mem_map.1 hmem
    simpa using ((h.mem_iff k d).1 he).1
  mem_iff k d := by
    rw [mem_cons, h.mem_iff]
    by_cases hk : k = k0
    · subst hk
      simp [hk0]
    · simp [hk]

end

private lemma perm {l' : List (Uint256 × DeltaItem)} (h : IsDifference isFirstMap l F G) (hp : l.Perm l') :
    IsDifference isFirstMap l' F G where
  nodup := (hp.map Prod.fst).nodup_iff.1 h.nodup
  mem_iff k d := by rw [← hp.mem_iff, h.mem_iff]

private lemma swap (h : IsDifference false l F G) : IsDifference true l G F where
  nodup := h.nodup
  mem_iff k d := by
    rw [h.mem_iff, ne_comm]
    rfl

private lemma finite_ncard (h : IsDifference isFirstMap l F G) :
    {k | F k ≠ G k}.Finite ∧ {k | F k ≠ G k}.ncard = l.length := by
  have hs : {k | F k ≠ G k} = ((l.map Prod.fst).toFinset : Set Uint256) := by
    ext k
    rw [Finset.mem_coe, mem_toFinset, mem_map]
    constructor
    · intro hne
      exact ⟨(k, _), (h.mem_iff k _).2 ⟨hne, rfl⟩, rfl⟩
    · rintro ⟨⟨k, d⟩, he, rfl⟩
      exact ((h.mem_iff k d).1 he).1
  rw [hs]
  refine ⟨Finset.finite_toSet _, ?_⟩
  rw [Set.ncard_coe_finset, toFinset_card_of_nodup h.nodup, length_map]

private lemma flatMap {n : Nat} {L : Fin n → List (Uint256 × DeltaItem)} {F G : Fin n → Contents}
    (branch : Uint256 → Fin n)
    (h : ∀ i, IsDifference isFirstMap (L i) (F i) (G i)) (hbr : ∀ i k, F i k ≠ G i k → branch k = i) :
    IsDifference isFirstMap ((finRange n).flatMap L) (fun k => F (branch k) k) (fun k => G (branch k) k) where
  nodup := by
    rw [map_flatMap, nodup_flatMap]
    refine ⟨fun i _ => (h i).nodup, (pairwise_lt_finRange n).imp ?_⟩
    intro i j hij k hki hkj
    have hbranch_of_mem : ∀ i, k ∈ (L i).map Prod.fst → branch k = i := by
      intro i hk
      obtain ⟨⟨k', d⟩, he, rfl⟩ := mem_map.1 hk
      exact hbr i k' (((h i).mem_iff k' d).1 he).1
    exact absurd ((hbranch_of_mem i hki).symm.trans (hbranch_of_mem j hkj)) (ne_of_lt hij)
  mem_iff k d := by
    rw [mem_flatMap]
    constructor
    · rintro ⟨i, -, hi⟩
      have hd := ((h i).mem_iff k d).1 hi
      rw [hbr i k hd.1]
      exact hd
    · intro hd
      exact ⟨branch k, mem_finRange _, ((h _).mem_iff k d).2 hd⟩

end IsDifference

private lemma branchDiff_isDifference (isFirstMap : Bool) {items : List SHAMapItem} {other : Option SHAMapItem}
    {F G : Contents} (hF : Lists items F) (hG : Lists other.toList G) :
    IsDifference isFirstMap (branchDiff isFirstMap other items) F G := by
  induction items generalizing other F G with
  | nil =>
    cases other with
    | none => exact .nil fun k => by rw [hF.eq_none, hG.eq_none]
    | some other =>
      have hh : G other.key = some other := hG.head
      have hr : IsDifference isFirstMap [] (update F other.key none) (update G other.key none) := by
        refine .nil fun k => ?_
        rw [hG.tail.eq_none, update_apply, hF.eq_none, ite_self]
      have := hr.cons (by rw [hh, hF.eq_none]; simp)
      rwa [hh, hF.eq_none] at this
  | cons item items ih =>
    have hh := hF.head
    cases other with
    | none =>
      have hn := hG.eq_none item.key
      have := (ih hF.tail (hG.update_none hn)).cons (by rw [hh, hn]; simp)
      rwa [hh, hn] at this
    | some other =>
      rw [branchDiff]
      split
      case isTrue hk =>
        have hn : G item.key = none := by
          refine Option.eq_none_iff_forall_ne_some.2 fun x hx => ?_
          obtain ⟨hx, hxk⟩ := (hG.mem_iff _ _).1 hx
          rw [Option.toList_some, mem_singleton] at hx
          exact hk (by rw [← hxk, hx])
        have := (ih hF.tail (hG.update_none hn)).cons (by rw [hh, hn]; simp)
        rwa [hh, hn] at this
      case isFalse hk =>
        have hk : item.key = other.key := not_not.1 hk
        have ho : G item.key = some other := by rw [hk]; exact hG.head
        have ht : Lists (none : Option SHAMapItem).toList (update G item.key none) := by
          rw [hk]
          exact hG.tail
        have hr := ih hF.tail ht
        split
        case isTrue hd =>
          have := hr.cons (by
            rw [hh, ho]
            exact fun heq => hd (congrArg SHAMapItem.data (Option.some.inj heq)))
          rwa [hh, ho] at this
        case isFalse hd =>
          have heq : item = other := by
            cases item
            cases other
            exact congrArg₂ SHAMapItem.mk hk (not_not.1 hd)
          exact hr.skip (by rw [hh, ho, heq])

private lemma CanonicalAt.lists_visited {p : List (Fin kBranchFactor)} {t : SHAMapTreeNode} (h : CanonicalAt p t) :
    Lists (visited t) (stored t p.length) where
  nodup := by
    have hp : t.entries.Pairwise fun a b => leafKey a ≠ leafKey b :=
      h.pairwise_entries fun k k' d _ hlt hk => by simp [hk] at hlt
    rw [visited, map_reverse, nodup_reverse, map_map, List.Nodup, pairwise_map]
    exact hp
  mem_iff k item := by
    simp only [visited, mem_reverse, mem_map, mem_entries]
    constructor
    · intro hk
      exact ⟨mem_of_stored hk, key_of_stored hk⟩
    · rintro ⟨⟨l, hl, rfl⟩, rfl⟩
      exact stored_of_walk (h.walk_of_mem hl)

private lemma lists_leaf (l : SHAMapLeafNode) (d : Nat) : Lists (some l.item).toList (stored (leaf l) d) where
  nodup := nodup_singleton _
  mem_iff k item := by
    rw [stored_leaf]
    split
    case isTrue h => simp only [Option.some.injEq]; grind
    case isFalse h => simp only [reduceCtorEq]; grind

private lemma lists_null (d : Nat) : Lists (none : Option SHAMapItem).toList (stored null d) where
  nodup := nodup_nil
  mem_iff k item := by simp

section Hashing

variable [Sha512Half]

/-- What `compare` notes for the branch `i` of two inner nodes. -/
def atBranch (c c' : Fin kBranchFactor → SHAMapTreeNode) (i : Fin kBranchFactor) : List (Uint256 × DeltaItem) :=
  oneSided c c' i ++ if differ c c' i then treeDiff (c i) (c' i) else []

variable {p : List (Fin kBranchFactor)} {c c' : Fin kBranchFactor → SHAMapTreeNode}

private lemma atBranch_isDifference
    {i : Fin kBranchFactor} (hc : CanonicalAt (p ++ [i]) (c i)) (hc' : CanonicalAt (p ++ [i]) (c' i))
    (hf : CollisionFree (c i) (c' i))
    (hp : c i ≠ null → c' i ≠ null →
      IsDifference true (treeDiff (c i) (c' i)) (stored (c i) (p.length + 1)) (stored (c' i) (p.length + 1))) :
    IsDifference true (atBranch c c' i) (stored (c i) (p.length + 1)) (stored (c' i) (p.length + 1)) := by
  have hv := hc.lists_visited
  have hv' := hc'.lists_visited
  rw [length_append] at hv hv'
  by_cases hh : updateHashDeep (c i) = updateHashDeep (c' i)
  · rw [atBranch, oneSided, if_neg (not_not_intro hh), if_neg (by simp [differ, hh])]
    exact .nil fun k => hf.stored_eq hh _ k
  rw [atBranch, oneSided, if_pos hh]
  by_cases hn' : c' i = null
  · rw [if_pos (isNull_iff.2 hn'), if_neg (by simp [differ_iff, hn']), append_nil, hn']
    exact branchDiff_isDifference true hv (lists_null _)
  rw [if_neg (isNull_iff.not.2 hn')]
  by_cases hn : c i = null
  · rw [if_pos (isNull_iff.2 hn), if_neg (by simp [differ_iff, hn]), append_nil, hn]
    exact (branchDiff_isDifference false hv' (lists_null _)).swap
  · rw [if_neg (isNull_iff.not.2 hn), if_pos (differ_iff.2 ⟨hh, hn', hn⟩)]
    exact hp hn hn'

private lemma treeDiff_inner {h h' : Uint256}
    (hc : ∀ i, CanonicalAt (p ++ [i]) (c i)) (hc' : ∀ i, CanonicalAt (p ++ [i]) (c' i))
    (hf : CollisionFree (inner h c) (inner h' c'))
    (hp : ∀ i, c i ≠ null → c' i ≠ null →
      IsDifference true (treeDiff (c i) (c' i)) (stored (c i) (p.length + 1)) (stored (c' i) (p.length + 1))) :
    IsDifference true (treeDiff (inner h c) (inner h' c')) (stored (inner h c) p.length)
      (stored (inner h' c') p.length) := by
  have hpe : ((finRange kBranchFactor).flatMap (atBranch c c')).Perm (treeDiff (inner h c) (inner h' c')) := by
    refine (flatMap_append_perm _ _ _).symm.trans (List.Perm.append_left _ ?_)
    rw [← flatMap_filter]
    exact (reverse_perm _).symm.flatMap_right _
  refine (IsDifference.flatMap (fun k => nibble k p.length)
    (fun i => atBranch_isDifference (hc i) (hc' i) (hf.child i) (hp i)) ?_).perm hpe
  intro i k hne
  have hu : Under nibble (p ++ [i]) k := by
    rcases hk : stored (c i) (p.length + 1) k with _ | item
    · rcases hk' : stored (c' i) (p.length + 1) k with _ | item
      · exact absurd (hk.trans hk'.symm) hne
      · exact (hc' i).under_of_stored hk'
    · exact (hc i).under_of_stored hk
  exact ((under_concat nibble).1 hu).2

private lemma treeDiff_isDifference {t u : SHAMapTreeNode} (ht : CanonicalAt p t)
    (hu : CanonicalAt p u) (hf : CollisionFree t u) (htn : t ≠ null) (hun : u ≠ null) :
    IsDifference true (treeDiff t u) (stored t p.length) (stored u p.length) := by
  induction t generalizing p u with
  | null => exact absurd rfl htn
  | leaf l =>
    cases u with
    | null => exact absurd rfl hun
    | leaf l' => exact branchDiff_isDifference true (lists_leaf l _) (lists_leaf l' _)
    | inner h' c' => exact (branchDiff_isDifference false hu.lists_visited (lists_leaf l _)).swap
  | inner h c ih =>
    cases u with
    | null => exact absurd rfl hun
    | leaf l' => exact branchDiff_isDifference true ht.lists_visited (lists_leaf l' _)
    | inner h' c' =>
      refine treeDiff_inner ht.2.2 hu.2.2 hf fun i hn hn' => ?_
      have := ih i (ht.2.2 i) (hu.2.2 i) (hf.child i) hn hn'
      rwa [length_append, length_singleton] at this

end Hashing

variable {k : Uint256} {p : Progress}

private lemma lookup_note (hf : p.differences.lookup k = none) (d : DeltaItem) (k' : Uint256) (d' : DeltaItem) :
    (p.differences.emplace k d).lookup k' = some d' ↔ p.differences.lookup k' = some d' ∨ (k', d') = (k, d) := by
  rw [HashMap.lookup_emplace]
  by_cases hk : k' = k
  · rw [if_pos hk, hk, hf]
    simp [eq_comm]
  · simp [hk]

private lemma keys_note (hf : p.differences.lookup k = none) (d : DeltaItem) :
    (p.differences.emplace k d).keys.length = p.differences.keys.length + 1 := by
  have hk : k ∉ p.differences := AList.lookup_eq_none.1 hf
  rw [HashMap.emplace, if_neg hk, AList.keys_insert, erase_of_not_mem hk, length_cons]

def Fresh (l : List (Uint256 × DeltaItem)) (p : Progress) : Prop :=
  (l.map Prod.fst).Nodup ∧ ∀ e ∈ l, p.differences.lookup e.1 = none

variable {l : List (Uint256 × DeltaItem)}

private lemma Fresh.tail {e : Uint256 × DeltaItem} (h : Fresh (e :: l) p)
    (n : Int) : Fresh l ⟨p.differences.emplace e.1 e.2, n⟩ := by
  obtain ⟨hn, hno⟩ := h
  obtain ⟨he, hl⟩ := nodup_cons.1 hn
  refine ⟨hl, fun x hx => ?_⟩
  have hne : x.1 ≠ e.1 := fun heq => he (heq ▸ mem_map_of_mem hx)
  rw [HashMap.lookup_emplace, if_neg hne]
  exact hno x (mem_cons_of_mem _ hx)

private lemma noteAll_ok (h : Fresh l p) (hlen : l.length < p.maxCount) : ∃ p', noteAll l p = .ok p' ∧
      ∀ k d, p'.differences.lookup k = some d ↔ p.differences.lookup k = some d ∨ (k, d) ∈ l := by
  induction l generalizing p with
  | nil => exact ⟨p, rfl, fun k d => by simp⟩
  | cons e l ih =>
    rw [length_cons] at hlen
    have hn : note p e.1 e.2 = .ok ⟨p.differences.emplace e.1 e.2, p.maxCount - 1⟩ := if_neg (by omega)
    obtain ⟨p', hp', hlk⟩ := ih (h.tail (p.maxCount - 1)) (by dsimp only; omega)
    refine ⟨p', ?_, fun k d => ?_⟩
    · rw [noteAll_cons, hn]
      exact hp'
    · rw [hlk, lookup_note (h.2 e mem_cons_self), mem_cons, or_assoc]

private lemma noteAll_limit (h : Fresh l p) (hpos : 1 ≤ p.maxCount) (hlen : p.maxCount ≤ l.length) :
    ∃ differences, noteAll l p = .error (.limit differences) ∧
      (differences.keys.length : Int) = p.differences.keys.length + p.maxCount ∧
      ∀ k d, differences.lookup k = some d → p.differences.lookup k = some d ∨ (k, d) ∈ l := by
  induction l generalizing p with
  | nil =>
    rw [length_nil] at hlen
    omega
  | cons e l ih =>
    rw [length_cons] at hlen
    have hf := h.2 e mem_cons_self
    by_cases hl : p.maxCount - 1 ≤ 0
    · have hn : note p e.1 e.2 = .error (.limit (p.differences.emplace e.1 e.2)) := if_pos hl
      refine ⟨_, by rw [noteAll_cons, hn]; rfl, ?_, fun k d hk => ?_⟩
      · rw [keys_note hf]
        omega
      · rw [lookup_note hf] at hk
        exact hk.imp_right fun heq => by rw [heq]; exact mem_cons_self
    · have hn : note p e.1 e.2 = .ok ⟨p.differences.emplace e.1 e.2, p.maxCount - 1⟩ := if_neg hl
      obtain ⟨differences, he, hke, hlk⟩ := ih (h.tail (p.maxCount - 1)) (by dsimp only; omega) (by dsimp only; omega)
      refine ⟨differences, ?_, ?_, fun k d hk => ?_⟩
      · rw [noteAll_cons, hn]
        exact he
      · rw [hke, keys_note hf]
        dsimp only
        omega
      · have := hlk k d hk
        rw [lookup_note hf, or_assoc] at this
        rwa [mem_cons]

section Compare

variable [Sha512Half]

/-- `compare` notes a list of the differences. -/
private lemma compare_eq {m otherMap : SHAMap} (hm : IsCanonical m.root) (hm' : IsCanonical otherMap.root)
    (hf : CollisionFree m.root otherMap.root) :
    ∃ l, IsDifference true l (stored m.root 0) (stored otherMap.root 0) ∧
      ∀ differences maxCount, compare m otherMap differences maxCount = report (noteAll l ⟨differences, maxCount⟩) := by
  by_cases hh : getHash m = getHash otherMap
  · refine ⟨[], .nil fun k => hf.stored_eq ?_ 0 k, fun differences maxCount => if_pos hh⟩
    rwa [← hm.getHash_eq, ← hm'.getHash_eq]
  have hd : IsDifference true (treeDiff m.root otherMap.root) (stored m.root 0) (stored otherMap.root 0) := by
    obtain ⟨c, hr, hc⟩ := hm
    obtain ⟨c', hr', hc'⟩ := hm'
    rw [hr, hr'] at hf ⊢
    exact treeDiff_inner (p := []) hc hc' hf fun i hn hn' =>
      treeDiff_isDifference (hc i) (hc' i) (hf.child i) hn hn'
  refine ⟨_, hd, fun differences maxCount => ?_⟩
  have hns : ∀ pair ∈ [(m.root, otherMap.root)], pair.1 ≠ null ∧ pair.2 ≠ null := by
    intro pair hp
    rw [mem_singleton] at hp
    rw [hp]
    exact ⟨hm.ne_null, hm'.ne_null⟩
  rw [compare, if_neg hh, compareLoop_eq _ _ hns, flatMap_singleton]

/-- Two maps that were changed by any calls, with an empty table: the flag tells whether fewer than `maxCount` keys
differ.  If so the table holds them all, and otherwise `maxCount` of them, each with the items of both maps. -/
theorem compare_exact {type type' : SHAMapNodeType} (htype : type ≠ .tnInner) (htype' : type' ≠ .tnInner)
    {ops ops' : List Op} {oks oks' : List Bool} {m otherMap : SHAMap} {maxCount : Int}
    (hrun : run type empty ops = .ok (oks, m)) (hrun' : run type' empty ops' = .ok (oks', otherMap))
    (hfree : CollisionFree m.root otherMap.root) (hmax : 1 ≤ maxCount) :
    let ours := (Contents.applyAll (fun _ => none) ops).2
    let other := (Contents.applyAll (fun _ => none) ops').2
    ∃ complete differences, compare m otherMap ∅ maxCount = .ok (complete, differences) ∧
      {k | ours k ≠ other k}.Finite ∧
      (complete = true ↔ {k | ours k ≠ other k}.ncard < maxCount) ∧
      (∀ k d, differences.lookup k = some d → ours k ≠ other k ∧ d = (ours k, other k)) ∧
      (complete = true → ∀ k, ours k ≠ other k → differences.lookup k = some (ours k, other k)) ∧
      (complete = false → (differences.keys.length : Int) = maxCount) := by
  intro ours other
  have hm := represents_of_run htype hrun
  have hm' := represents_of_run htype' hrun'
  obtain ⟨l, hl, hcmp⟩ := compare_eq hm.canonical hm'.canonical hfree
  rw [funext hm.stored_eq, funext hm'.stored_eq] at hl
  obtain ⟨hf, hc⟩ := hl.finite_ncard
  have hfr : Fresh l ⟨∅, maxCount⟩ := ⟨hl.nodup, fun e _ => AList.lookup_empty e.1⟩
  rw [hcmp, hc]
  by_cases hlen : (l.length : Int) < maxCount
  · obtain ⟨p, hp, hlk⟩ := noteAll_ok hfr hlen
    refine ⟨true, p.differences, by rw [hp]; rfl, hf, by simp [hlen], fun k d hk => ?_, fun _ k hk => ?_, by simp⟩
    · rcases (hlk k d).1 hk with hk | hk
      · simp at hk
      · exact (hl.mem_iff k d).1 hk
    · exact (hlk k _).2 (.inr ((hl.mem_iff k _).2 ⟨hk, rfl⟩))
  · obtain ⟨differences, he, hke, hlk⟩ := noteAll_limit hfr hmax (by dsimp only; omega)
    refine ⟨false, differences, by rw [he]; rfl, hf, by simp [hlen], fun k d hk => ?_, by simp, fun _ => ?_⟩
    · rcases hlk k d hk with hk | hk
      · simp at hk
      · exact (hl.mem_iff k d).1 hk
    · simpa using hke

/-- Any two sequences of calls on an empty map lead to the same root hash exactly if they lead to the same contents. -/
theorem run_getHash_eq_iff {type : SHAMapNodeType} (htype : type ≠ .tnInner) (ops ops' : List Op) :
    ∃ oks m oks' m', run type empty ops = .ok (oks, m) ∧ run type empty ops' = .ok (oks', m') ∧
      (CollisionFree m.root m'.root → (getHash m = getHash m' ↔
        (Contents.applyAll (fun _ => none) ops).2 = (Contents.applyAll (fun _ => none) ops').2)) := by
  obtain ⟨m, hr, hm⟩ := (represents_empty type).run htype ops
  obtain ⟨m', hr', hm'⟩ := (represents_empty type).run htype ops'
  refine ⟨_, m, _, m', hr, hr', fun hf => ⟨?_, fun h => ?_⟩⟩
  · rw [hm.canonical.getHash_eq, hm'.canonical.getHash_eq, ← funext hm.stored_eq, ← funext hm'.stored_eq]
    exact fun h => funext (hf.stored_eq h 0)
  · rw [h] at hm
    rw [hm.ext hm']

end Compare

/-- An account entry with other data in the second map, and one that only the second map has. -/
theorem compare_exact_accountState :
    let _ : Sha512Half := ⟨fun bytes => BitVec.ofNat 256 (bytes.foldl (fun n b => n * 257 + b.toNat + 1) 0)⟩
    ∃ m otherMap complete differences, run .tnAccountState empty [.add ⟨1#256 <<< 252, [1]⟩] = .ok ([true], m) ∧
      run .tnAccountState empty [.add ⟨1#256 <<< 252, [2]⟩, .add ⟨2#256 <<< 252, []⟩] = .ok ([true, true], otherMap) ∧
      CollisionFree m.root otherMap.root ∧ compare m otherMap ∅ 3 = .ok (complete, differences) ∧
      (complete = true →
        differences.lookup (1#256 <<< 252) = some (some ⟨1#256 <<< 252, [1]⟩, some ⟨1#256 <<< 252, [2]⟩)) := by
  intro inst
  obtain ⟨m, hr, -⟩ := (represents_empty .tnAccountState).run (by decide) [.add ⟨1#256 <<< 252, [1]⟩]
  obtain ⟨m', hr', -⟩ := (represents_empty .tnAccountState).run (by decide)
    [.add ⟨1#256 <<< 252, [2]⟩, .add ⟨2#256 <<< 252, []⟩]
  have hm : m = match run .tnAccountState empty [.add ⟨1#256 <<< 252, [1]⟩] with
      | .ok (_, m) => m
      | .error _ => empty := by rw [hr]
  have hm' : m' = match run .tnAccountState empty [.add ⟨1#256 <<< 252, [2]⟩, .add ⟨2#256 <<< 252, []⟩] with
      | .ok (_, m) => m
      | .error _ => empty := by rw [hr']
  have hf : CollisionFree m.root m'.root := by
    rw [hm, hm']
    decide +kernel
  obtain ⟨complete, differences, hcmp, -, -, -, ha, -⟩ :=
    compare_exact (by decide) (by decide) hr hr' hf (show (1 : Int) ≤ 3 by decide)
  exact ⟨m, m', complete, differences, hr, hr', hf, hcmp, fun hc => ha hc _ (by decide)⟩

def twoEntries (data : List Byte) : List Op := [.add ⟨1#256 <<< 252, [1]⟩, .add ⟨2#256 <<< 252, data⟩]

/-- The same entries, added after one that is gone. -/
def otherOrder : List Op :=
  [.add ⟨3#256 <<< 252, []⟩, .add ⟨2#256 <<< 252, [2]⟩, .del (3#256 <<< 252), .add ⟨1#256 <<< 252, [1]⟩]

/-- The hash tells two account entries from the same ones with other data, and not from the same ones in another order. -/
theorem run_getHash_eq_iff_entries :
    let _ : Sha512Half := ⟨fun bytes => BitVec.ofNat 256 (bytes.foldl (fun n b => n * 257 + b.toNat + 1) 0)⟩
    ∃ m m' m'' oks oks' oks'', run .tnAccountState empty (twoEntries [2]) = .ok (oks, m) ∧
      run .tnAccountState empty (twoEntries [3]) = .ok (oks', m') ∧
      run .tnAccountState empty otherOrder = .ok (oks'', m'') ∧
      CollisionFree m.root m'.root ∧ getHash m ≠ getHash m' ∧
      CollisionFree m.root m''.root ∧ getHash m = getHash m'' := by
  intro inst
  have ht : SHAMapNodeType.tnAccountState ≠ .tnInner := by decide
  obtain ⟨oks, m, oks', m', hr, hr', h⟩ := run_getHash_eq_iff ht (twoEntries [2]) (twoEntries [3])
  obtain ⟨_, _, oks'', m'', hr2, hr'', h'⟩ := run_getHash_eq_iff ht (twoEntries [2]) otherOrder
  cases hr.symm.trans hr2
  have hf : (run .tnAccountState empty (twoEntries [2])).toOption.all fun r =>
      ((run .tnAccountState empty (twoEntries [3])).toOption.all fun r' => CollisionFree r.2.root r'.2.root) &&
      (run .tnAccountState empty otherOrder).toOption.all fun r' => CollisionFree r.2.root r'.2.root := by
    decide +kernel
  rw [hr, hr', hr''] at hf
  obtain ⟨hf, hf'⟩ := Bool.and_eq_true_iff.1 hf
  have hf := of_decide_eq_true hf
  have hf' := of_decide_eq_true hf'
  refine ⟨m, m', m'', oks, oks', oks'', hr, hr', hr'', hf, mt (h hf).1 fun he => ?_, hf', (h' hf').2 ?_⟩
  · have hk := congrFun he (2#256 <<< 252)
    revert hk
    decide +kernel
  · funext k
    simp [twoEntries, otherOrder, Contents.applyAll, Contents.apply, update_apply]
    split_ifs <;> first | rfl | simp_all

end Xrpl.SHAMap

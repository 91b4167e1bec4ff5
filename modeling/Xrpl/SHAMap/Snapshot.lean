import Xrpl.SHAMap.NodeHash
import Xrpl.SHAMap.SharedOps

/-!
# Snapshots

A family of maps over one store of nodes: maps are created, snapshotted, made immutable, hashed and changed in any
order.  `Copies` is what they are meant to be: independent contents, where a snapshot starts as a copy and a change of
a map is a change of its own contents.  The invariant `Isolated` says that every map has the tree of its contents in
the store, that the dirty nodes of a map that may change are its own, and that the dirty nodes of an immutable one
belong to an immutable one.

* `run_isolated`: every run does what it does to independent copies;
* `run_wrapped_shared`: after 2 ^ 32 - 1 snapshots of snapshots the `cowid_` is zero, and a change of the last snapshot
  is seen in the first map.
-/

namespace Xrpl.SHAMap

open RadixTree.Tree List Option Function

open Shared (create mutate snapShot unshare)

/-- The calls on the maps of a family, which are numbered in the order of their creation. -/
inductive FamilyOp where
  | create
  | snapShot (i : Nat) (isMutable : Bool)
  | setImmutable (i : Nat)
  | unshare (i : Nat)
  | getHash (i : Nat)
  | mutate (i : Nat) (op : Op)

inductive Outcome where
  | done
  | hash (h : Uint256)
  | result (ok : Bool)
  deriving DecidableEq

/-- The nodes, the maps, and the calls made so far with what they returned, the last one first. -/
structure Family where
  store : NodeStore
  maps : List SharedMap
  trace : List (FamilyOp × Outcome)

namespace Family

def init : Family := ⟨⟨fun _ => Shared.makeInner 0, 0⟩, [], []⟩

def map (fam : Family) (i : Nat) : Except SHAMapError SharedMap :=
  match fam.maps[i]? with
  | some m => .ok m
  | none => .error (.logicError "no such map")

section Steps

variable [Sha512Half]

def step (type : SHAMapNodeType) (fam : Family) (call : FamilyOp) : Except SHAMapError Family :=
  match call with
  | .create =>
    let (s, m) := create fam.store
    .ok ⟨s, fam.maps ++ [m], (call, .done) :: fam.trace⟩
  | .snapShot i isMutable => do
    let (s, m) ← snapShot fam.store (← fam.map i) isMutable
    return ⟨s, fam.maps ++ [m], (call, .done) :: fam.trace⟩
  | .setImmutable i => do
    let m ← fam.map i
    return ⟨fam.store, fam.maps.set i { m with state := .immutable }, (call, .done) :: fam.trace⟩
  | .unshare i => do
    let (s, m) ← unshare fam.store (← fam.map i)
    return ⟨s, fam.maps.set i m, (call, .done) :: fam.trace⟩
  | .getHash i => do
    let (h, s, m) ← Shared.getHash fam.store (← fam.map i)
    return ⟨s, fam.maps.set i m, (call, .hash h) :: fam.trace⟩
  | .mutate i op => do
    let (ok, s, m) ← mutate type fam.store (← fam.map i) op
    return ⟨s, fam.maps.set i m, (call, .result ok) :: fam.trace⟩

def run (type : SHAMapNodeType) (fam : Family) (calls : List FamilyOp) : Except SHAMapError Family :=
  calls.foldlM (step type) fam

end Steps

/-- The map exists, and an immutable map is not changed. -/
def Legal (fam : Family) : FamilyOp → Prop
  | .create => True
  | .snapShot i _ | .setImmutable i | .unshare i | .getHash i => i < fam.maps.length
  | .mutate i _ => (fam.maps[i]?.map fun m => m.state ≠ .immutable).getD False

instance (fam : Family) (call : FamilyOp) : Decidable (fam.Legal call) :=
  match call with
  | .create => inferInstanceAs (Decidable True)
  | .snapShot i _ | .setImmutable i | .unshare i | .getHash i => inferInstanceAs (Decidable (i < fam.maps.length))
  | .mutate i _ =>
    match h : fam.maps[i]? with
    | some m => decidable_of_iff (m.state ≠ .immutable) (by simp [Legal, h])
    | none => .isFalse (by simp [Legal, h])

/-- The `cowid_` of a snapshot does not wrap around. -/
def Fits (fam : Family) : FamilyOp → Prop
  | .snapShot i _ => (fam.maps[i]?.map fun m => m.cowid + 1 < 2 ^ 32).getD True
  | _ => True

instance (fam : Family) (call : FamilyOp) : Decidable (fam.Fits call) :=
  match call with
  | .snapShot i _ =>
    match h : fam.maps[i]? with
    | some m => decidable_of_iff (m.cowid + 1 < 2 ^ 32) (by simp [Fits, h])
    | none => .isTrue (by simp [Fits, h])
  | .create | .setImmutable _ | .unshare _ | .getHash _ | .mutate _ _ => .isTrue trivial

end Family

section Copies

variable [Sha512Half]

/-- An update of an item by one with the same hash; nothing that the hash covers tells the two apart. -/
def SameHash (type : SHAMapNodeType) (f : Contents) : Op → Prop
  | .update item => ∃ old, f item.key = some old ∧ leafHash type old = leafHash type item
  | _ => False

/-- One call on a family of independent contents.  Only an update that leaves the hash as it is may be dropped. -/
inductive CopyStep (type : SHAMapNodeType) (F : List Contents) : FamilyOp → Outcome → List Contents → Prop where
  | create : CopyStep type F .create .done (F ++ [fun _ => none])
  | snapShot {i : Nat} {isMutable : Bool} {f : Contents} (hf : F[i]? = some f) :
      CopyStep type F (.snapShot i isMutable) .done (F ++ [f])
  | setImmutable {i : Nat} : CopyStep type F (.setImmutable i) .done F
  | unshare {i : Nat} : CopyStep type F (.unshare i) .done F
  | getHash {i : Nat} {f : Contents} {v : SHAMap} (hf : F[i]? = some f) (hv : Represents type v f) :
      CopyStep type F (.getHash i) (.hash (getHash v)) F
  | mutate {i : Nat} {op : Op} {f : Contents} (hf : F[i]? = some f) :
      CopyStep type F (.mutate i op) (.result (f.apply op).1) (F.set i (f.apply op).2)
  | dropped {i : Nat} {op : Op} {f : Contents} (hf : F[i]? = some f) (hsame : SameHash type f op) :
      CopyStep type F (.mutate i op) (.result (f.apply op).1) F

/-- The contents after some calls, the last one first. -/
inductive Copies (type : SHAMapNodeType) : List (FamilyOp × Outcome) → List Contents → Prop where
  | nil : Copies type [] []
  | cons {trace : List (FamilyOp × Outcome)} {F F' : List Contents} {call : FamilyOp} {out : Outcome}
      (h : Copies type trace F) (hstep : CopyStep type F call out F') : Copies type ((call, out) :: trace) F'

end Copies

def Frozen (maps : List SharedMap) (j : Nat) : Prop := ∃ m, maps[j]? = some m ∧ m.state = .immutable

/-- The dirty nodes of a map that may change are its own; those of an immutable one belong to an immutable one. -/
def Rightful (own : Owners) (maps : List SharedMap) (i : Nat) (m : SharedMap) : Claim :=
  if m.state = .immutable then fun _ ptr _ => Frozen maps (own ptr).1 else Mine own i m.cowid

section Isolation

variable [Sha512Half]

structure Isolated (type : SHAMapNodeType) (own : Owners) (s : NodeStore) (maps : List SharedMap) (i : Nat)
    (m : SharedMap) (f : Contents) : Prop where
  cowid : m.cowid ≠ 0
  tree : ∃ v, Represents type v f ∧ Holds s (Rightful own maps i m) [] (some m.root) v.root

/-- Every map of the family has its contents to itself. -/
structure AllIsolated (type : SHAMapNodeType) (own : Owners) (s : NodeStore) (maps : List SharedMap)
    (F : List Contents) : Prop where
  length : maps.length = F.length
  each : ∀ i m f, maps[i]? = some m → F[i]? = some f → Isolated type own s maps i m f

variable {type : SHAMapNodeType} {own own' : Owners} {s s' : NodeStore} {maps maps' : List SharedMap} {i : Nat}
  {m m' : SharedMap} {f f' : Contents} {F : List Contents}

omit [Sha512Half] in
private lemma rightful_mono {p : List (Fin kBranchFactor)} {ptr : NodePtr} {w : Nat} (h : Rightful own maps i m p ptr w)
    (hf : ∀ j, Frozen maps j → Frozen maps' j) (ho : own' ptr = own ptr) :
    Rightful own' maps' i m p ptr w := by
  unfold Rightful at h ⊢
  split
  · rename_i hi
    rw [if_pos hi] at h
    rw [ho]
    exact hf _ h
  · rename_i hi
    rw [if_neg hi] at h
    exact ⟨ho.trans h.1, h.2⟩

variable {v : SHAMap} {fam : Family}

private lemma Represents.root_eq (h : Represents type v f) : ∃ c, v.root = inner 0 c := by
  obtain ⟨c, hr, -⟩ := h.canonical
  exact ⟨c, hr⟩

private lemma Isolated.settle (h : Isolated type own s maps i m f) (hs : Settles s s')
    (hf : ∀ j, Frozen maps j → Frozen maps' j) : Isolated type own s' maps' i m f := by
  obtain ⟨hc, v, hv, hh⟩ := h
  exact ⟨hc, v, hv, (hs.holds _ _ _ _ hh).mono fun p ptr w _ hP => rightful_mono hP hf rfl⟩

private lemma isolated_of_clean (hc : m.cowid ≠ 0) (hv : Represents type v f)
    (h : Holds s Claim.never [] (some m.root) v.root) : Isolated type own s maps i m f :=
  ⟨hc, v, hv, h.mono fun _ _ _ _ hF => hF.elim⟩

omit [Sha512Half] in
private lemma frozen_append (m : SharedMap) (j : Nat) (h : Frozen maps j) : Frozen (maps ++ [m]) j := by
  obtain ⟨m', hm', hi⟩ := h
  refine ⟨m', ?_, hi⟩
  rw [List.getElem?_append_left (List.getElem?_eq_some_iff.1 hm').1, hm']

omit [Sha512Half] in
private lemma frozen_set (hm : maps[i]? = some m) (hs : m.state = .immutable → m'.state = .immutable) (j : Nat)
    (h : Frozen maps j) : Frozen (maps.set i m') j := by
  obtain ⟨m1, hm1, hi⟩ := h
  by_cases hji : i = j
  · subst hji
    have hlt := (List.getElem?_eq_some_iff.1 hm).1
    rw [hm, some.injEq] at hm1
    exact ⟨m', by rw [getElem?_set_self hlt], hs (hm1 ▸ hi)⟩
  · exact ⟨m1, by rw [getElem?_set_ne hji, hm1], hi⟩

section

variable (h : AllIsolated type own s maps F)

include h

private lemma AllIsolated.append
    (hold : ∀ j m f, Isolated type own s maps j m f → j < maps.length → Isolated type own' s' (maps ++ [m']) j m f)
    (hn : Isolated type own' s' (maps ++ [m']) maps.length m' f') :
    AllIsolated type own' s' (maps ++ [m']) (F ++ [f']) where
  length := by simp [h.length]
  each j mj fj hmj hfj := by
    rcases Nat.lt_or_ge j maps.length with hlt | hge
    · rw [getElem?_append_left hlt] at hmj
      rw [getElem?_append_left (h.length ▸ hlt)] at hfj
      exact hold j mj fj (h.each j mj fj hmj hfj) hlt
    obtain rfl : j = maps.length := by
      have := (List.getElem?_eq_some_iff.1 hmj).1
      simp at this
      omega
    have hm : m' = mj := by simpa using hmj
    have hf : f' = fj := by simpa [h.length] using hfj
    rwa [← hm, ← hf]

private lemma AllIsolated.set (hm : maps[i]? = some m)
    (hold : ∀ j mj fj, j ≠ i → Isolated type own s maps j mj fj → Isolated type own' s' (maps.set i m') j mj fj)
    (hn : Isolated type own' s' (maps.set i m') i m' f') :
    AllIsolated type own' s' (maps.set i m') (F.set i f') where
  length := by simp [h.length]
  each j mj fj hmj hfj := by
    have hlt := (List.getElem?_eq_some_iff.1 hm).1
    by_cases hji : i = j
    · subst hji
      rw [getElem?_set_self hlt, some.injEq] at hmj
      rw [getElem?_set_self (h.length ▸ hlt), some.injEq] at hfj
      rwa [← hmj, ← hfj]
    · rw [getElem?_set_ne hji] at hmj hfj
      exact hold j mj fj (Ne.symm hji) (h.each j mj fj hmj hfj)

/-- The map is changed, and its contents stay. -/
private lemma AllIsolated.keep (hm : maps[i]? = some m) (hf : F[i]? = some f)
    (hold : ∀ j mj fj, j ≠ i → Isolated type own s maps j mj fj → Isolated type own' s' (maps.set i m') j mj fj)
    (hn : Isolated type own' s' (maps.set i m') i m' f) : AllIsolated type own' s' (maps.set i m') F := by
  have hs := h.set hm hold hn
  obtain ⟨hlt, rfl⟩ := List.getElem?_eq_some_iff.1 hf
  rwa [set_getElem_self hlt] at hs

end

/-! ### The calls -/

/-- The contents of a family are told apart from nothing but the calls made so far. -/
def Family.Ok (type : SHAMapNodeType) (fam : Family) : Prop :=
  ∃ own F, Copies type fam.trace F ∧ AllIsolated type own fam.store fam.maps F

private lemma AllIsolated.lookup (h : AllIsolated type own s maps F) (hm : maps[i]? = some m) :
    ∃ f, F[i]? = some f ∧ Isolated type own s maps i m f := by
  have hlt : i < F.length := h.length ▸ (List.getElem?_eq_some_iff.1 hm).1
  have hf : F[i]? = some F[i] := getElem?_eq_getElem hlt
  exact ⟨_, hf, h.each i m _ hm hf⟩

private lemma create_isolated (h : AllIsolated type own s maps F) :
    ∃ own', AllIsolated type own' (create s).1 (maps ++ [(create s).2]) (F ++ [fun _ => none]) := by
  have hk : ∀ q, q < s.next → update own s.next (maps.length, []) q = own q := fun q hq =>
    update_of_ne (ne_of_lt hq) _ _
  refine ⟨update own s.next (maps.length, []), h.append (fun j m f hj _ => ?_) ?_⟩
  · obtain ⟨hc, v, hv, hh⟩ := hj
    refine ⟨hc, v, hv, hh.frame (Nat.le_succ _) (fun q hq _ => CellStore.cell_alloc_of_lt hq)
      fun p q _ hq _ hP => ⟨CellStore.cell_alloc_of_lt hq, rightful_mono hP (frozen_append _) (hk q hq)⟩⟩
  · refine ⟨Nat.one_ne_zero, empty, represents_empty type, rfl, 1, 0, fun _ => 0, fun _ => none,
      ⟨Nat.lt_succ_self _, by decide, CellStore.cell_alloc_next, fun h => absurd rfl (h.resolve_right Nat.one_ne_zero),
        fun _ => ⟨update_self .., rfl⟩⟩, fun _ => trivial⟩

/-- `unshare` for any map that reads a tree of the family, be it one of its maps or a snapshot in the making. -/
private lemma unshare_isolated {P : Claim} (hcow : m.cowid ≠ 0) (hv : Represents type v f)
    (hh : Holds s P [] (some m.root) v.root) :
    Succeeds (unshare s m) fun r => Settles s r.1 ∧ r.2 = { m with root := r.2.root } ∧
      Holds r.1 Claim.never [] (some r.2.root) v.root := by
  obtain ⟨c, hc⟩ := hv.root_eq
  rw [hc] at hh ⊢
  exact (walkSubTree_spec hcow hh).mono fun r hr => ⟨hr.settles, hr.map, hr.holds⟩

section

variable (h : AllIsolated type own s maps F)

include h

variable (hm : maps[i]? = some m)

include hm

private lemma snapShot_isolated (hf : F[i]? = some f) (hfi : m.cowid + 1 < 2 ^ 32) (isMutable : Bool) :
    Succeeds (snapShot s m isMutable) fun r => AllIsolated type own r.1 (maps ++ [r.2]) (F ++ [f]) := by
  obtain ⟨hc, v, hv, hh⟩ := h.each i m f hm hf
  have hc' : (m.cowid + 1) % 2 ^ 32 ≠ 0 := by
    omega
  unfold snapShot
  generalize hm0 : (⟨(m.cowid + 1) % 2 ^ 32, m.root, if isMutable then .modifying else .immutable⟩ : SharedMap) = m0
  have hro0 : m0.root = m.root := by rw [← hm0]
  have hc0 : m0.cowid ≠ 0 := by rwa [← hm0]
  rw [← hro0] at hh
  by_cases hb : m0.state = .immutable ∧ m.state = .immutable
  · rw [if_neg (by simp [hb])]
    refine .pure (h.append (fun j mj fj hj _ => hj.settle (Settles.refl s) (frozen_append _)) ?_)
    refine ⟨hc0, v, hv, hh.mono fun p ptr w _ hP => ?_⟩
    unfold Rightful at hP ⊢
    rw [if_pos hb.2] at hP
    rw [if_pos hb.1]
    exact frozen_append _ _ hP
  · rw [if_pos (by rw [← not_and_or]; exact hb)]
    refine (unshare_isolated hc0 hv hh).mono fun r hr => ?_
    obtain ⟨hs, hmap, hcln⟩ := hr
    refine h.append (fun j mj fj hj _ => hj.settle hs (frozen_append _)) (isolated_of_clean ?_ hv hcln)
    rw [hmap]
    exact hc0

private lemma setImmutable_isolated : AllIsolated type own s (maps.set i { m with state := .immutable }) F := by
  obtain ⟨f, hf, hc, v, hv, hh⟩ := h.lookup hm
  have hlt := (List.getElem?_eq_some_iff.1 hm).1
  have hfrz : ∀ j, Frozen maps j → Frozen (maps.set i { m with state := .immutable }) j := frozen_set hm fun _ => rfl
  refine h.keep hm hf (fun j mj fj _ hj => hj.settle (Settles.refl s) hfrz) ⟨hc, v, hv, ?_⟩
  refine hh.mono fun p ptr w _ hP => ?_
  unfold Rightful at hP ⊢
  rw [if_pos rfl]
  split at hP
  · exact hfrz _ hP
  · rw [hP.1]
    exact ⟨_, getElem?_set_self hlt, rfl⟩

private lemma flush_isolated (hf : F[i]? = some f)
    (hv : Represents type v f) (hs : Settles s s') (hmap : m' = { m with root := m'.root })
    (hc : Holds s' Claim.never [] (some m'.root) v.root) : AllIsolated type own s' (maps.set i m') F := by
  have hcow : m'.cowid ≠ 0 := by
    rw [hmap]
    exact (h.each i m f hm hf).cowid
  exact h.keep hm hf (fun j mj fj _ hj => hj.settle hs (frozen_set hm fun hi => by rw [hmap]; exact hi))
    (isolated_of_clean hcow hv hc)

lemma getHash_isolated (hf : F[i]? = some f) :
    Succeeds (Shared.getHash s m) fun r => (∃ v P, Represents type v f ∧ r.1 = getHash v ∧
        Holds r.2.1 P [] (some r.2.2.root) v.root ∧
        ((r.2.1.cell r.2.2.root).hash ≠ 0 ∨ (r.2.1.cell r.2.2.root).cowid = 0)) ∧
      AllIsolated type own r.2.1 (maps.set i r.2.2) F := by
  obtain ⟨hcow, v, hv, hh⟩ := h.each i m f hm hf
  unfold Shared.getHash
  by_cases hz : (s.cell m.root).hash = 0
  · rw [if_pos hz]
    refine (unshare_isolated hcow hv hh).bind fun r hr => .pure ?_
    obtain ⟨hs, hmap, hcln⟩ := hr
    refine ⟨⟨v, _, hv, ?_, hcln, .inr hcln.clean⟩, flush_isolated h hm hf hv hs hmap hcln⟩
    rw [hv.canonical.getHash_eq]
    exact hcln.hash_of_clean hcln.clean
  · rw [if_neg hz]
    have hset : maps.set i m = maps := by
      obtain ⟨hlt', rfl⟩ := List.getElem?_eq_some_iff.1 hm
      exact set_getElem_self hlt'
    refine .pure ⟨⟨v, _, hv, ?_, hh, .inl hz⟩, by rw [hset]; exact h⟩
    rw [hv.canonical.getHash_eq]
    obtain ⟨c, hc⟩ := hv.root_eq
    rw [hc] at hh ⊢
    obtain ⟨-, w, hash, hashes, children, hin, -⟩ := hh
    rw [hin.cell] at hz ⊢
    exact (hin.fresh (.inl hz)).1

end

private lemma mutate_sim (hty : type ≠ .tnInner) (hcow : m.cowid ≠ 0) (hv : Represents type v f)
    (h : Holds s (Mine own i m.cowid) [] (some m.root) v.root) (op : Op) :
    Follows own i s m (fun _ v' t => t = v'.root ∨ (t = v.root ∧ SameHash type f op)) (SHAMap.step type v op)
      (mutate type s m op) := by
  obtain ⟨c, hc⟩ := hv.root_eq
  intro r v' hs
  cases op with
  | add item =>
    obtain ⟨own', s', m', t, hsim, hchg, ht⟩ := addGiveItem_sim hcow hty hc h r v' hs
    exact ⟨own', s', m', t, hsim, hchg, .inl ht⟩
  | del id =>
    obtain ⟨own', s', m', t, hsim, hchg, ht⟩ := delItem_sim hcow hc h r v' hs
    exact ⟨own', s', m', t, hsim, hchg, .inl ht⟩
  | update item =>
    obtain ⟨own', s', m', t, hsim, hchg, ht⟩ := updateGiveItem_sim hcow hc h r v' hs
    refine ⟨own', s', m', t, hsim, hchg, ?_⟩
    rcases ht with ht | ⟨ht, -, l, hl, hk, -, hh⟩
    · exact .inl ht
    · obtain ⟨old, rfl, hold⟩ := (hv.mem_iff l).1 hl
      exact .inr ⟨ht, old, hk ▸ hold, hh⟩

private lemma Isolated.other {j : Nat} {mj : SharedMap} {t : SHAMapTreeNode} (h : Isolated type own s maps j mj f)
    (hji : j ≠ i) (hm : maps[i]? = some m) (hmut : m.state ≠ .immutable)
    (hc : Changed own i s m t own' (s', m')) : Isolated type own' s' (maps.set i m') j mj f := by
  obtain ⟨hcow, v, hv, hh⟩ := h
  have hs : m'.state = m.state := hc.state_eq
  have hg := hc.grows
  refine ⟨hcow, v, hv, hh.frame hg.within.next_le ?_ ?_⟩
  · intro q hq hcln
    exact hg.within.cell_eq q hq fun hin => hin.1 hcln
  intro p q _ hq _ hP
  refine ⟨hg.within.cell_eq q hq fun hin => ?_, rightful_mono hP (frozen_set hm fun hi => hs ▸ hi) (hg.own_eq q hq)⟩
  -- the owner of a dirty node of another map is not the map that is changed
  unfold Rightful at hP
  split at hP
  · rw [hin.2.1] at hP
    obtain ⟨m1, hm1, hi⟩ := hP
    rw [hm, some.injEq] at hm1
    exact hmut (hm1 ▸ hi)
  · have := hin.2.1
    rw [hP.1] at this
    exact hji this

private lemma mutate_isolated (hty : type ≠ .tnInner) (h : AllIsolated type own s maps F) (hm : maps[i]? = some m)
    (hf : F[i]? = some f) (hmut : m.state ≠ .immutable) (op : Op) :
    Succeeds (mutate type s m op) fun r => r.1 = (f.apply op).1 ∧
      ∃ own', AllIsolated type own' r.2.1 (maps.set i r.2.2) (F.set i (f.apply op).2) ∨
        (SameHash type f op ∧ AllIsolated type own' r.2.1 (maps.set i r.2.2) F) := by
  obtain ⟨hc, v, hv, hh⟩ := h.each i m f hm hf
  have hmi : Holds s (Mine own i m.cowid) [] (some m.root) v.root := by
    rwa [Rightful, if_neg hmut] at hh
  obtain ⟨v', hs, hv'⟩ := hv.step hty op
  obtain ⟨own', s', m', t, hsim, hchg, ht⟩ := mutate_sim hty hc hv hmi op _ v' hs
  have hsta : m'.state ≠ .immutable := fun hi => hmut (hchg.state_eq.symm.trans hi)
  have hc' : m'.cowid = m.cowid := (congrArg SharedMap.cowid hchg.map :)
  have hn : ∀ {f' v1}, Represents type v1 f' → t = v1.root → Isolated type own' s' (maps.set i m') i m' f' := by
    intro f' v1 hv1 ht1
    refine ⟨hc' ▸ hc, v1, hv1, ?_⟩
    rw [Rightful, if_neg hsta, hc', ← ht1]
    exact hchg.holds
  have hold : ∀ j mj fj, j ≠ i → Isolated type own s maps j mj fj → Isolated type own' s' (maps.set i m') j mj fj :=
    fun j mj fj hji hj => hj.other hji hm hmut hchg
  refine ⟨_, hsim, rfl, own', ?_⟩
  rcases ht with ht | ⟨ht, hsa⟩
  · exact .inl (h.set hm hold (hn hv' ht))
  · exact .inr ⟨hsa, h.keep hm hf hold (hn hv ht)⟩

omit [Sha512Half] in
private lemma Family.map_of_getElem? (hm : fam.maps[i]? = some m) : fam.map i = .ok m := by
  rw [Family.map, hm]

omit [Sha512Half] in
private lemma Family.map_succeeds (h : i < fam.maps.length) : Succeeds (fam.map i) (fam.maps[i]? = some ·) :=
  ⟨_, map_of_getElem? (getElem?_eq_getElem h), getElem?_eq_getElem h⟩

private lemma step_isolated (ht : type ≠ .tnInner) {call : FamilyOp} (h : fam.Ok type)
    (hl : fam.Legal call) (hfi : fam.Fits call) : Succeeds (fam.step type call) (Family.Ok type) := by
  obtain ⟨own, F, hc, ha⟩ := h
  cases call with
  | create =>
    obtain ⟨own', ha'⟩ := create_isolated ha
    exact .pure ⟨own', _, hc.cons .create, ha'⟩
  | snapShot i isMutable =>
    refine (Family.map_succeeds hl).bind fun m hm => ?_
    obtain ⟨f, hf, -⟩ := ha.lookup hm
    have hfi' : m.cowid + 1 < 2 ^ 32 := by simpa [Family.Fits, hm] using hfi
    refine (snapShot_isolated ha hm hf hfi' isMutable).bind fun r hr => ?_
    exact .pure ⟨own, _, hc.cons (.snapShot hf), hr⟩
  | setImmutable i =>
    refine (Family.map_succeeds hl).bind fun m hm => ?_
    exact .pure ⟨own, F, hc.cons .setImmutable, setImmutable_isolated ha hm⟩
  | unshare i =>
    refine (Family.map_succeeds hl).bind fun m hm => ?_
    obtain ⟨f, hf, hcow, v, hv, hhol⟩ := ha.lookup hm
    refine (unshare_isolated hcow hv hhol).bind fun r hr => ?_
    exact .pure ⟨own, F, hc.cons .unshare, flush_isolated ha hm hf hv hr.1 hr.2.1 hr.2.2⟩
  | getHash i =>
    refine (Family.map_succeeds hl).bind fun m hm => ?_
    obtain ⟨f, hf, -⟩ := ha.lookup hm
    refine (getHash_isolated ha hm hf).bind fun r hr => ?_
    obtain ⟨⟨v, -, hv, hh, -⟩, ha'⟩ := hr
    refine .pure ⟨own, F, ?_, ha'⟩
    rw [hh]
    exact hc.cons (.getHash hf hv)
  | mutate i op =>
    unfold Family.Legal at hl
    rcases hm : fam.maps[i]? with _ | m
    · simp [hm] at hl
    have hmut : m.state ≠ .immutable := by simpa [hm] using hl
    obtain ⟨f, hf, -⟩ := ha.lookup hm
    unfold Family.step
    simp only [Family.map_of_getElem? hm]
    refine (mutate_isolated ht ha hm hf hmut op).bind fun r hr => ?_
    obtain ⟨hok, own', ha' | ⟨hs, ha'⟩⟩ := hr <;> refine .pure ⟨own', _, ?_, ha'⟩ <;> rw [hok]
    · exact hc.cons (.mutate hf)
    · exact hc.cons (.dropped hf hs)

/-! ### Runs -/

private lemma Isolated.findKey (h : Isolated type own s maps i m f) (id : Uint256) :
    Shared.findKey s m id = .ok ((f id).map fun item => (type, item)) := by
  obtain ⟨-, v, hv, hhol⟩ := h
  have hst : Stacked (Rightful own maps i m) s m.root id [] [] [] := rfl
  obtain ⟨p, ptr, t, ps, vs, hh, hvl, -, ht, -, he, -⟩ :=
    walkTowardsKey_spec hhol hst (fun _ => rfl) (Nat.zero_add kLeafDepth)
  have hf := hv.findKey id
  unfold SHAMap.findKey at hf
  change walkTowardsKey id v.root .root [] = _ at hvl
  rw [hvl] at hf
  have hfil : (endLeaf t).filter (fun l => l.item.key = id) = (f id).map (typedLeaf type) := Except.ok.inj hf
  unfold Shared.findKey
  change Shared.walkTowardsKey s id kLeafDepth m.root .root [] = _ at hh
  rw [hh]
  rcases he with ⟨l, rfl⟩ | ⟨c, rfl, -⟩
  · obtain ⟨-, -, w, hc, -⟩ := ht
    by_cases hk : l.item.key = id
    · simp only [endLeaf, filter_some, hk] at hfil
      obtain ⟨item, hi, rfl⟩ := map_eq_some_iff.1 hfil.symm
      have hk : item.key = id := hk
      simp [bind, Except.bind, hc, hi, typedLeaf, hk, pure, Except.pure]
    · have hn : f id = none := by simpa [endLeaf, filter_some, hk] using hfil.symm
      simp [bind, Except.bind, hc, hk, hn, pure, Except.pure]
  · obtain ⟨-, w, hash, hashes, children, hin, -⟩ := ht
    have hn : f id = none := by simpa [endLeaf] using hfil.symm
    simp [bind, Except.bind, hin.cell, hn, pure, Except.pure]

end Isolation

namespace Family

variable {type : SHAMapNodeType} {fam fam' : Family} {n : Nat} {s : NodeStore} {root : NodePtr}

private lemma trace_of_step [Sha512Half] {call : FamilyOp}
    (h : fam.step type call = .ok fam') : ∃ out, fam'.trace = (call, out) :: fam.trace := by
  cases call with
  | create =>
    obtain rfl := Except.ok.inj h
    exact ⟨_, rfl⟩
  | setImmutable i =>
    obtain ⟨m, -, h⟩ := Except.of_bind_eq_ok h
    obtain rfl := Except.ok.inj h
    exact ⟨_, rfl⟩
  | _ =>
    obtain ⟨m, -, h⟩ := Except.of_bind_eq_ok h
    obtain ⟨r, -, h⟩ := Except.of_bind_eq_ok h
    obtain rfl := Except.ok.inj h
    exact ⟨_, rfl⟩

private lemma trace_of_run [Sha512Half] {calls : List FamilyOp}
    (h : fam.run type calls = .ok fam') : fam'.trace.map Prod.fst = calls.reverse ++ fam.trace.map Prod.fst := by
  induction calls generalizing fam with
  | nil =>
    obtain rfl := Except.ok.inj h
    rfl
  | cons call calls ih =>
    obtain ⟨fam1, hs, h⟩ := Except.of_bind_eq_ok h
    obtain ⟨out, ht⟩ := trace_of_step hs
    rw [ih h, ht]
    simp

lemma run_ok [Sha512Half] {type : SHAMapNodeType} (htype : type ≠ .tnInner) {calls : List FamilyOp}
    (hlegal : Along (step type) (fun fam call => fam.Legal call ∧ fam.Fits call) init calls) :
    Succeeds (init.run type calls) (Ok type) :=
  Along.foldlM (fun _ _ hok hca => step_isolated htype hok hca.1 hca.2)
    ⟨fun _ => (0, []), [], .nil, rfl, fun i m f hm _ => by simp [init] at hm⟩ hlegal

/-- Every run of legal calls in which no `cowid_` wraps around does to the maps what it does to independent copies: no
call throws, and at the end each map finds its contents and has their hash. -/
theorem run_isolated [Sha512Half] {type : SHAMapNodeType} (htype : type ≠ .tnInner) (calls : List FamilyOp)
    (hlegal : Along (step type) (fun fam call => fam.Legal call ∧ fam.Fits call) init calls) :
    ∃ fam F, init.run type calls = .ok fam ∧ fam.trace.map Prod.fst = calls.reverse ∧ Copies type fam.trace F ∧
      fam.maps.length = F.length ∧
      ∀ (i : Nat) m f, fam.maps[i]? = some m → F[i]? = some f →
        (∀ id, Shared.findKey fam.store m id = .ok ((f id).map fun item => (type, item))) ∧
        ∃ v s m', Represents type v f ∧ Shared.getHash fam.store m = .ok (getHash v, s, m') := by
  obtain ⟨fam, hrun, own, F, hc, ha⟩ := run_ok htype hlegal
  refine ⟨fam, F, hrun, ?_, hc, ha.length, fun i m f hm hf => ⟨(ha.each i m f hm hf).findKey, ?_⟩⟩
  · rw [trace_of_run hrun]
    simp [init]
  · obtain ⟨r, hr, ⟨v, -, hv, hh, -⟩, -⟩ := getHash_isolated ha hm hf
    exact ⟨v, r.2.1, r.2.2, hv, by rw [hr, ← hh]⟩

/-- A snapshot that is changed, a snapshot of it, and both maps hashed: the first map keeps its one item. -/
theorem run_isolated_snapshots :
    let _ : Sha512Half := ⟨fun bytes => BitVec.ofNat 256 (bytes.foldl (fun n b => n * 257 + b.toNat + 1) 0)⟩
    let calls : List FamilyOp := [.create, .mutate 0 (.add ⟨0x1111, [1]⟩), .snapShot 0 true,
      .mutate 1 (.add ⟨0x2222, [2]⟩), .getHash 1, .snapShot 1 false, .mutate 1 (.update ⟨0x1111, [3]⟩), .getHash 0,
      .setImmutable 0, .snapShot 0 false, .unshare 3]
    Along (step .tnAccountState) (fun fam call => fam.Legal call ∧ fam.Fits call) init calls ∧
      ∃ fam, init.run .tnAccountState calls = .ok fam ∧ fam.maps.length = 4 ∧
        (fam.maps.map fun m => (Shared.findKey fam.store m 0x1111).toOption) =
          [some (some (.tnAccountState, ⟨0x1111, [1]⟩)), some (some (.tnAccountState, ⟨0x1111, [3]⟩)),
            some (some (.tnAccountState, ⟨0x1111, [1]⟩)), some (some (.tnAccountState, ⟨0x1111, [1]⟩))] ∧
        ∀ m, fam.maps[0]? = some m → ∃ f : Contents, (∀ id, Shared.findKey fam.store m id =
          .ok ((f id).map fun item => (.tnAccountState, item))) := by
  intro inst calls
  have hl : Along (step .tnAccountState) (fun fam call => fam.Legal call ∧ fam.Fits call) init calls := by
    decide +kernel
  obtain ⟨fam, F, hr, -, -, hlen, hma⟩ := run_isolated (by decide) calls hl
  have hf : (init.run .tnAccountState calls).toOption.map (fun fam =>
      (fam.maps.length, fam.maps.map fun m => (Shared.findKey fam.store m 0x1111).toOption)) =
      some (4, [some (some (.tnAccountState, ⟨0x1111, [1]⟩)), some (some (.tnAccountState, ⟨0x1111, [3]⟩)),
        some (some (.tnAccountState, ⟨0x1111, [1]⟩)), some (some (.tnAccountState, ⟨0x1111, [1]⟩))]) := by
    decide +kernel
  rw [hr] at hf
  have hp := some.inj hf
  refine ⟨hl, fam, hr, congrArg Prod.fst hp, congrArg Prod.snd hp, fun m hm => ?_⟩
  have hlt : 0 < F.length := hlen ▸ (List.getElem?_eq_some_iff.1 hm).1
  exact ⟨F[0], (hma 0 m F[0] hm (getElem?_eq_getElem hlt)).1⟩

/-! ### The width of `cowid_` -/

/-- The maps after `n` snapshots of snapshots, all with one root. -/
def chain (root : NodePtr) (n : Nat) : List SharedMap :=
  (range (n + 1)).map fun j => ⟨(j + 1) % 2 ^ 32, root, .modifying⟩

private lemma chain_getElem? (root : NodePtr) {j : Nat} (h : j ≤ n) :
    (chain root n)[j]? = some ⟨(j + 1) % 2 ^ 32, root, .modifying⟩ := by
  rw [chain, getElem?_map, getElem?_range (Nat.lt_succ_of_le h)]
  rfl

private lemma step_chain [Sha512Half] (type : SHAMapNodeType) (n : Nat)
    (trace : List (FamilyOp × Outcome)) (hc : (s.cell root).cowid = 0) :
    step type ⟨s, chain root n, trace⟩ (.snapShot n true) =
      .ok ⟨s, chain root (n + 1), (.snapShot n true, .done) :: trace⟩ := by
  have hs : snapShot s ⟨(n + 1) % 2 ^ 32, root, .modifying⟩ true =
      .ok (s, ⟨(n + 1 + 1) % 2 ^ 32, root, .modifying⟩) := by
    unfold snapShot
    rw [Nat.mod_add_mod, if_pos (by simp), unshare, Shared.walkSubTree, if_pos hc]
    rfl
  have hmap : map ⟨s, chain root n, trace⟩ n = .ok ⟨(n + 1) % 2 ^ 32, root, .modifying⟩ :=
    map_of_getElem? (chain_getElem? root (le_refl n))
  unfold step
  simp only [hmap, bind, Except.bind, hs]
  rw [chain, chain, range_succ (n := n + 1), map_append]
  rfl

private lemma run_chain [Sha512Half] (type : SHAMapNodeType) (n : Nat)
    (trace : List (FamilyOp × Outcome)) (hc : (s.cell root).cowid = 0) :
    ∃ trace', run type ⟨s, chain root 0, trace⟩ ((range n).map fun j => .snapShot j true) =
        .ok ⟨s, chain root n, trace'⟩ ∧
      Along (step type) Legal ⟨s, chain root 0, trace⟩ ((range n).map fun j => .snapShot j true) := by
  induction n with
  | zero => exact ⟨trace, rfl, trivial⟩
  | succ n ih =>
    obtain ⟨trace', hr, hl⟩ := ih
    have hs := step_chain type n trace' hc
    refine ⟨(.snapShot n true, .done) :: trace', ?_, ?_⟩
    · rw [range_succ, map_append, run, foldlM_append]
      rw [run] at hr
      rw [hr]
      show step type ⟨s, chain root n, trace'⟩ (.snapShot n true) >>= pure = _
      rw [hs]
      rfl
    · rw [range_succ, map_append]
      refine hl.append hr ⟨?_, ?_⟩
      · show n < (chain root n).length
        simp [chain]
      · rw [hs]
        trivial

/-- A map is filled and hashed, and then `n` snapshots of snapshots are taken. -/
def snapShots (n : Nat) : List FamilyOp :=
  [.create, .mutate 0 (.add ⟨0x1111, [1]⟩), .getHash 0] ++ (range n).map fun j => .snapShot j true

/-- A hash that tells short inputs apart. -/
private abbrev weakHash : Sha512Half :=
  ⟨fun bytes => BitVec.ofNat 256 (bytes.foldl (fun n b => n * 257 + b.toNat + 1) 0)⟩

/-- The map before the snapshots: its root is clean, and a map with the `cowid_` zero changes it in place. -/
private lemma run_filled : let _ := weakHash
    ∃ s s' m' trace, init.run .tnAccountState [.create, .mutate 0 (.add ⟨0x1111, [1]⟩), .getHash 0] =
        .ok ⟨s, chain 0 0, trace⟩ ∧
      Along (step .tnAccountState) Legal init [.create, .mutate 0 (.add ⟨0x1111, [1]⟩), .getHash 0] ∧
      (s.cell 0).cowid = 0 ∧
      mutate .tnAccountState s ⟨0, 0, .modifying⟩ (.add ⟨0x2222, [2]⟩) = .ok (true, s', m') ∧
      Shared.findKey s ⟨1, 0, .modifying⟩ 0x2222 = .ok none ∧
      Shared.findKey s' ⟨1, 0, .modifying⟩ 0x2222 = .ok (some (.tnAccountState, ⟨0x2222, [2]⟩)) := by
  intro inst
  have hf : (init.run .tnAccountState [.create, .mutate 0 (.add ⟨0x1111, [1]⟩), .getHash 0]).toOption.any
      (fun fam => decide (fam.maps = [⟨1, 0, .modifying⟩]) && decide ((fam.store.cell 0).cowid = 0) &&
        decide ((Shared.findKey fam.store ⟨1, 0, .modifying⟩ 0x2222).toOption = some none) &&
        (mutate .tnAccountState fam.store ⟨0, 0, .modifying⟩ (.add ⟨0x2222, [2]⟩)).toOption.any fun r =>
          r.1 && decide ((Shared.findKey r.2.1 ⟨1, 0, .modifying⟩ 0x2222).toOption =
            some (some (.tnAccountState, ⟨0x2222, [2]⟩)))) = true := by
    decide +kernel
  have hl : Along (step .tnAccountState) Legal init [.create, .mutate 0 (.add ⟨0x1111, [1]⟩), .getHash 0] := by
    decide +kernel
  simp only [Option.any_eq_true, Bool.and_eq_true, decide_eq_true_eq] at hf
  obtain ⟨⟨s, maps, trace⟩, hrun, ⟨⟨hma, hc⟩, hn⟩, ⟨r, s', m'⟩, hmut, hr, hs⟩ := hf
  obtain rfl : maps = [⟨1, 0, .modifying⟩] := hma
  obtain rfl : r = true := hr
  exact ⟨s, s', m', trace, Except.of_toOption_eq_some hrun, hl, hc, Except.of_toOption_eq_some hmut,
    Except.of_toOption_eq_some hn, Except.of_toOption_eq_some hs⟩

/-- After 2 ^ 32 - 1 snapshots of snapshots, an item added to the last one turns up in the first map. -/
theorem run_wrapped_shared :
    let _ : Sha512Half := ⟨fun bytes => BitVec.ofNat 256 (bytes.foldl (fun n b => n * 257 + b.toNat + 1) 0)⟩
    Along (step .tnAccountState) Legal init (snapShots (2 ^ 32 - 1) ++ [.mutate (2 ^ 32 - 1) (.add ⟨0x2222, [2]⟩)]) ∧
      ∃ fam fam' m, init.run .tnAccountState (snapShots (2 ^ 32 - 1)) = .ok fam ∧
        fam.step .tnAccountState (.mutate (2 ^ 32 - 1) (.add ⟨0x2222, [2]⟩)) = .ok fam' ∧
        fam.maps[0]? = some m ∧ fam'.maps[0]? = some m ∧
        Shared.findKey fam.store m 0x2222 = .ok none ∧
        Shared.findKey fam'.store m 0x2222 = .ok (some (.tnAccountState, ⟨0x2222, [2]⟩)) := by
  -- the snapshot with the `cowid_` zero takes the clean nodes it shares with the first map for its own
  obtain ⟨n, hlt⟩ : ∃ n, n = 2 ^ 32 - 1 := ⟨_, rfl⟩
  have hn : (n + 1) % 2 ^ 32 = 0 := by omega
  have hpos : n ≠ 0 := by omega
  rw [← hlt]
  intro inst
  obtain ⟨s, s', m', trace, hf, hleg, hc, hmut, hno, hs⟩ := run_filled
  obtain ⟨trace', hchn, hleg'⟩ := run_chain .tnAccountState n trace hc
  have hl : (chain 0 n)[n]? = some ⟨0, 0, .modifying⟩ := by
    rw [chain_getElem? 0 (le_refl n), hn]
  have hz : (chain 0 n)[0]? = some ⟨1, 0, .modifying⟩ := chain_getElem? 0 (Nat.zero_le n)
  have hr : init.run .tnAccountState (snapShots n) = .ok ⟨s, chain 0 n, trace'⟩ := by
    rw [snapShots, run, foldlM_append]
    rw [run] at hf hchn
    rw [hf]
    exact hchn
  have hmap : map ⟨s, chain 0 n, trace'⟩ n = .ok ⟨0, 0, .modifying⟩ := map_of_getElem? hl
  have hst : step .tnAccountState ⟨s, chain 0 n, trace'⟩ (.mutate n (.add ⟨0x2222, [2]⟩)) =
      .ok ⟨s', (chain 0 n).set n m', (.mutate n (.add ⟨0x2222, [2]⟩), .result true) :: trace'⟩ := by
    unfold step
    simp only [hmap, bind, Except.bind, hmut, pure, Except.pure]
  refine ⟨(hleg.append hf hleg').append hr ⟨?_, ?_⟩, _, _, _, hr, hst, hz, ?_, hno, hs⟩
  · simp [Legal, hl]
  · rw [hst]
    trivial
  · rw [getElem?_set_ne hpos, hz]

end Family

end Xrpl.SHAMap

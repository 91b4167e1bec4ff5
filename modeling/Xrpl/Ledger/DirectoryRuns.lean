import Xrpl.Ledger.DirectoryRefine

/-!
# Histories of a directory

All sequences of calls for one directory, where a key that is added is not there yet.

* `Directory.step`, `Directory.run`: the calls, with the keys that have been added and not removed;
* `Directory.Tracks`: the directory represents a list of pages with these keys;
* `Directory.run_wellFormed`: the directory stays a ring of pages in increasing order, and no call throws;
* `Directory.dirRemove_of_dirAdd`: a key is found on the page that was returned when it was added;
* `Directory.run_dirDelete`: `dirDelete` deletes the pages, and says so unless the link of the last page is set to 0.
-/

namespace Xrpl.Ledger.Directory

open Except Multiset Pages

inductive Call (Key : Type) where
  | dirAdd (fixDirectoryLimit preserveOrder : Bool) (key : Key)
  | dirRemove (page : Nat) (key : Key) (keepRoot : Bool)
  | emptyDirDelete

/-- A directory with the keys that have been added and not removed. -/
structure Traced (Key : Type) where
  dir : Directory Key
  held : Multiset Key

variable {Key : Type}

def initial : Traced Key := ⟨∅, 0⟩

def Holds (d : Directory Key) (n : Nat) (x : Key) : Prop := ∃ p, d.lookup n = some p ∧ x ∈ p.indexes

/-- The links run from the root through all pages, in the order of their numbers, and back to the root. -/
def IsRing (d : Directory Key) : Prop := ∃ numbers : List Nat, (kRootPage :: numbers).Pairwise (· < ·) ∧
  (∀ n, n ∈ d ↔ n ∈ kRootPage :: numbers) ∧ Linked d.nextOf d.prevOf (kRootPage :: numbers ++ [kRootPage])

variable {d : Directory Key} {s : Traced Key} {n : Nat} {x k : Key} {p : Nat} {c : Call Key} {calls : List (Call Key)}

private lemma Represents.holds_iff {l : Pages Key} (h : Represents d l) : d.Holds n x ↔ l.Located n x := by
  constructor
  · rintro ⟨p, hp, hx⟩
    exact ⟨p.indexes, h.mem_of_lookup hp, hx⟩
  · rintro ⟨es, hes, hx⟩
    obtain ⟨p, hp, rfl⟩ := h.lookup_of_mem hes
    exact ⟨p, hp, hx⟩

variable {l : PageList Key}

private lemma Represents.isRing (h : Represents d l.pages) (hl : l.pages ≠ []) : d.IsRing := by
  obtain ⟨r, t, ht⟩ := List.exists_cons_of_ne_nil hl
  have hn : l.pages.numbers = kRootPage :: numbers t := by
    rw [ht, numbers_cons, l.valid.root r (by rw [ht]; rfl)]
  refine ⟨numbers t, hn ▸ l.valid.sorted, fun n => hn ▸ h.mem_iff, ?_⟩
  exact hn ▸ h.linked

variable [LinearOrder Key]

def step (s : Traced Key) : Call Key → Except LogicError (Traced Key)
  | .dirAdd fixDirectoryLimit preserveOrder key => do
    let (page, d) ← s.dir.dirAdd fixDirectoryLimit preserveOrder key
    return ⟨d, if page.isSome then key ::ₘ s.held else s.held⟩
  | .dirRemove page key keepRoot => do
    let (removed, d) ← s.dir.dirRemove page key keepRoot
    return ⟨d, if removed then s.held.erase key else s.held⟩
  | .emptyDirDelete => do
    let (_, d) ← s.dir.emptyDirDelete
    return ⟨d, s.held⟩

def run (calls : List (Call Key)) (s : Traced Key) : Except LogicError (Traced Key) := calls.foldlM step s

def Fresh (s : Traced Key) : Call Key → Prop
  | .dirAdd _ _ key => key ∉ s.held
  | _ => True

def Spares (k : Key) (s : Traced Key) : Call Key → Prop
  | .dirRemove page key keepRoot => key = k → (s.dir.dirRemove page key keepRoot).map Prod.fst = .ok false
  | _ => True

instance (s : Traced Key) : ∀ c, Decidable (Fresh s c)
  | .dirAdd _ _ key => inferInstanceAs (Decidable (key ∉ s.held))
  | .dirRemove _ _ _ => .isTrue trivial
  | .emptyDirDelete => .isTrue trivial

instance (k : Key) (s : Traced Key) : ∀ c, Decidable (Spares k s c)
  | .dirAdd _ _ _ => .isTrue trivial
  | .dirRemove page key keepRoot =>
    inferInstanceAs (Decidable (key = k → (s.dir.dirRemove page key keepRoot).map Prod.fst = .ok false))
  | .emptyDirDelete => .isTrue trivial

/-- The directory represents the list of pages, which has the keys. -/
structure Tracks (s : Traced Key) (l : PageList Key) : Prop where
  represents : s.dir.Represents l.pages
  keys : l.pages.keys = s.held
  nodup : s.held.Nodup

private lemma keys_of_add (hk : l.pages.keys = s.held) {key : Key} {fix order : Bool} {page : Option Nat}
    (hp : page = (l.add fix order key).1) :
    (l.add fix order key).2.pages.keys = if page.isSome then key ::ₘ s.held else s.held := by
  rw [hp, ← hk]
  exact l.valid.keys_add fix order key

private lemma keys_of_remove (hk : l.pages.keys = s.held) {page : Nat} {key : Key} {keepRoot removed : Bool}
    (hr : removed = (l.pages.remove page key keepRoot).1) :
    (l.pages.remove page key keepRoot).2.keys = if removed then s.held.erase key else s.held := by
  have hr' := l.valid.keys_remove page key keepRoot
  rw [hr, ← hk]
  split_ifs at hr' ⊢
  · rw [hr', erase_cons_head]
  · exact hr'.symm

/-- Whatever the keys are, a call that does not throw leads to a list of pages again. -/
private lemma step_represents (h : s.dir.Represents l.pages ∧ l.pages.keys = s.held) {s' : Traced Key}
    (hs' : step s c = .ok s') : ∃ l' : PageList Key, s'.dir.Represents l'.pages ∧ l'.pages.keys = s'.held := by
  cases c with
  | dirAdd fix order key =>
    obtain ⟨r, hr, hs'⟩ := of_bind_eq_ok hs'
    obtain rfl := ok.inj hs'
    obtain ⟨hp, hrep⟩ := dirAdd_ok h.1 l.valid hr
    exact ⟨_, hrep, keys_of_add h.2 hp⟩
  | dirRemove page key keepRoot =>
    obtain ⟨r, hr, hs'⟩ := of_bind_eq_ok hs'
    obtain rfl := ok.inj hs'
    obtain ⟨r', hr', hrem, hrep⟩ := dirRemove_spec h.1 l.valid page key keepRoot
    obtain rfl := ok.inj (hr.symm.trans hr')
    exact ⟨(l.remove page key keepRoot).2, hrep, keys_of_remove h.2 hrem⟩
  | emptyDirDelete =>
    obtain ⟨r, hr, hs'⟩ := of_bind_eq_ok hs'
    obtain rfl := ok.inj hs'
    obtain ⟨r', hr', -, hrep⟩ := emptyDirDelete_spec h.1 l.valid
    obtain rfl := ok.inj (hr.symm.trans hr')
    exact ⟨l.deleteEmpty.2, hrep, (keys_deleteEmpty l.pages).trans h.2⟩

section

variable (h : Tracks s l)

include h

private lemma step_dirAdd {key : Key} (hk : key ∉ s.held) (fix order : Bool) :
    Succeeds (step s (.dirAdd fix order key)) fun s' => Tracks s' (l.add fix order key).2 := by
  refine (dirAdd_spec h.represents l.valid (h.keys ▸ hk) fix order).bind fun r hr => .pure ⟨hr.2, ?_, ?_⟩
  · exact keys_of_add h.keys hr.1
  · split_ifs
    · exact nodup_cons.2 ⟨hk, h.nodup⟩
    · exact h.nodup

private lemma step_dirRemove (page : Nat) (key : Key) (keepRoot : Bool) :
    Succeeds (step s (.dirRemove page key keepRoot)) fun s' => Tracks s' (l.remove page key keepRoot).2 := by
  refine (dirRemove_spec h.represents l.valid page key keepRoot).bind fun r hr => .pure ⟨hr.2, ?_, ?_⟩
  · exact keys_of_remove h.keys hr.1
  · split_ifs
    · exact h.nodup.erase key
    · exact h.nodup

private lemma step_emptyDirDelete : Succeeds (step s .emptyDirDelete) fun s' => Tracks s' l.deleteEmpty.2 := by
  refine (emptyDirDelete_spec h.represents l.valid).bind fun r hr => .pure ⟨hr.2, ?_, h.nodup⟩
  exact (keys_deleteEmpty l.pages).trans h.keys

private lemma tracks_of_dirAdd (hk : k ∉ s.held) {fix order : Bool} (ha : s.dir.dirAdd fix order k = .ok (some p, d)) :
    Tracks ⟨d, k ::ₘ s.held⟩ (l.add fix order k).2 ∧ (l.add fix order k).2.pages.Located p k := by
  obtain ⟨s', hs', ht⟩ := step_dirAdd h hk fix order
  obtain rfl : s' = ⟨d, k ::ₘ s.held⟩ := by
    rw [step, ha] at hs'
    exact (ok.inj hs').symm
  obtain ⟨r, hr, hf, -⟩ := dirAdd_spec h.represents l.valid (h.keys ▸ hk) fix order
  obtain rfl := ok.inj (ha.symm.trans hr)
  exact ⟨ht, l.valid.located_of_add hf.symm⟩

private lemma dirRemove_of_located (hk : l.pages.Located p k) (keepRoot : Bool) :
    ∃ d', s.dir.dirRemove p k keepRoot = .ok (true, d') ∧
      s.dir.allKeys = k ::ₘ d'.allKeys ∧ (∀ n, ¬d'.Holds n k) ∧ ∀ x ≠ k, ∀ n, d'.Holds n x ↔ s.dir.Holds n x := by
  obtain ⟨⟨removed, d'⟩, hr, hf, hd'⟩ := dirRemove_spec h.represents l.valid p k keepRoot
  have ht := (l.valid.remove_fst p k keepRoot).2 hk
  obtain rfl : removed = true := hf.trans ht
  have hke : s.dir.allKeys = k ::ₘ d'.allKeys := by
    rw [h.represents.allKeys_eq l.valid.nodup, hd'.allKeys_eq (l.valid.remove p k keepRoot).nodup,
      l.valid.keys_remove p k keepRoot, if_pos ht]
  refine ⟨d', hr, hke, fun n hn => ?_, fun x hx n => ?_⟩
  · have hno := h.nodup
    rw [← h.keys, ← h.represents.allKeys_eq l.valid.nodup, hke, nodup_cons,
      hd'.allKeys_eq (l.valid.remove p k keepRoot).nodup] at hno
    exact hno.1 (mem_keys.2 ⟨n, hd'.holds_iff.1 hn⟩)
  · rw [hd'.holds_iff, h.represents.holds_iff]
    exact l.valid.located_remove p keepRoot hx

/-- Each call leads to a list of pages again, where all keys that it does not remove are on their pages. -/
private lemma step_tracks (hc : Fresh s c) : Succeeds (step s c) fun s' => ∃ l' : PageList Key, Tracks s' l' ∧
      ∀ n x, Spares x s c → l.pages.Located n x → l'.pages.Located n x := by
  cases c with
  | dirAdd fix order key =>
    refine (step_dirAdd h hc fix order).mono fun s' hs' => ⟨_, hs', fun n x _ hx => ?_⟩
    exact l.valid.located_add fix order key hx
  | dirRemove page key keepRoot =>
    refine (step_dirRemove h page key keepRoot).mono fun s' hs' => ⟨_, hs', fun n x hsp hx => ?_⟩
    by_cases hk : x = key
    · subst hk
      obtain ⟨r, hr, hfst, -⟩ := dirRemove_spec h.represents l.valid page x keepRoot
      have hf : r.1 = false := by
        have hsp := hsp rfl
        rw [hr] at hsp
        exact ok.inj hsp
      change Pages.Located (l.pages.remove page x keepRoot).2 n x
      rwa [l.valid.remove_eq_self (hfst.symm.trans hf)]
    · exact (l.valid.located_remove page keepRoot hk).2 hx
  | emptyDirDelete =>
    refine (step_emptyDirDelete h).mono fun s' hs' => ⟨_, hs', fun n x _ hx => ?_⟩
    exact (located_deleteEmpty l.pages).2 hx

private lemma step_error {e : LogicError} (he : step s c = .error e) : e = .what "dirInsert: double insertion" := by
  cases c with
  | dirAdd fix order key =>
    cases ha : s.dir.dirAdd fix order key with
    | ok r =>
      rw [step, ha] at he
      cases he
    | error e' =>
      rw [step, ha] at he
      obtain rfl : e' = e := error.inj he
      exact dirAdd_error h.represents l.valid ha
  | dirRemove page key keepRoot =>
    obtain ⟨s', hs', -⟩ := step_dirRemove h page key keepRoot
    cases hs'.symm.trans he
  | emptyDirDelete =>
    obtain ⟨s', hs', -⟩ := step_emptyDirDelete h
    cases hs'.symm.trans he

end

omit [LinearOrder Key] in
private lemma tracks_initial : Tracks (initial : Traced Key) PageList.empty := ⟨represents_empty, rfl, nodup_zero⟩

private lemma run_tracks (hs : Tracks s l)
    (h : Along step Fresh s calls) : Succeeds (run calls s) fun s' => ∃ l', Tracks s' l' := by
  refine Along.foldlM (I := fun s => ∃ l, Tracks s l) (fun s c hs hc => ?_) ⟨l, hs⟩ h
  obtain ⟨l, hl⟩ := hs
  exact (step_tracks hl hc).mono fun s' ⟨l', hl', _⟩ => ⟨l', hl'⟩

private lemma run_located (hs : Tracks s l)
    (hx : l.pages.Located n x) (h : Along step (fun s c => Fresh s c ∧ Spares x s c) s calls) :
    Succeeds (run calls s) fun s' => ∃ l', Tracks s' l' ∧ l'.pages.Located n x := by
  refine Along.foldlM (I := fun s => ∃ l, Tracks s l ∧ l.pages.Located n x) (fun s c hs hc => ?_) ⟨l, hs, hx⟩ h
  obtain ⟨l, hl, hx⟩ := hs
  exact (step_tracks hl hc.1).mono fun s' ⟨l', hl', hst⟩ => ⟨l', hl', hst n x hc.2 hx⟩

/-- From no directory, any sequence of calls runs through; there is no page, or the pages are a ring; they are not too large
and only the root can be empty; and they hold the keys that have been added and not removed. -/
theorem run_wellFormed (calls : List (Call Key)) (h : Along step Fresh initial calls) :
    ∃ s, run calls initial = .ok s ∧ ((∀ n, n ∉ s.dir) ∨ s.dir.IsRing) ∧ (∀ n p, s.dir.lookup n = some p →
        p.indexes.length ≤ kDirNodeMaxEntries ∧ (n ≠ kRootPage → p.indexes ≠ [])) ∧
      s.dir.allKeys = s.held ∧
      ∀ c e, step s c = .error e → e = .what "dirInsert: double insertion" := by
  obtain ⟨s, hr, l, hl⟩ := run_tracks tracks_initial h
  refine ⟨s, hr, ?_, fun n p hp => ?_, ?_, fun c e => step_error hl⟩
  · by_cases he : l.pages = []
    · left
      intro n hn
      have hmem := hl.represents.mem_iff.1 hn
      simp [he] at hmem
    · exact .inr (hl.represents.isRing he)
  · have hmem := hl.represents.mem_of_lookup hp
    exact ⟨l.valid.small _ hmem, l.valid.ne_nil_of_ne_root hmem⟩
  · rw [hl.represents.allKeys_eq l.valid.nodup, hl.keys]

/-- One key more than fits on the root, then one key of the root and the only one of the second page go. -/
def overflow : List (Call Nat) :=
  (List.range 33).map (.dirAdd true false) ++ [.dirRemove 0 5 false, .dirRemove 1 32 false, .emptyDirDelete]

theorem run_wellFormed_overflow : Along step Fresh initial overflow ∧ ∃ s, run overflow initial = .ok s ∧
    ((∀ n, n ∉ s.dir) ∨ s.dir.IsRing) ∧ s.dir.allKeys = s.held := by
  have hf : Along step Fresh initial overflow := by decide +kernel
  obtain ⟨s, hs, hr, -, hk, -⟩ := run_wellFormed overflow hf
  exact ⟨hf, s, hs, hr, hk⟩

/-- A key that was put on page `p` and not removed since is removed from there, and nothing else is. -/
theorem dirRemove_of_dirAdd {before after : List (Call Key)} {fix order : Bool} {k : Key} {p : Nat} {s : Traced Key}
    {d : Directory Key} (hbefore : Along step Fresh initial before) (hs : run before initial = .ok s)
    (hk : k ∉ s.held) (hadd : s.dir.dirAdd fix order k = .ok (some p, d))
    (hafter : Along step (fun s c => Fresh s c ∧ Spares k s c) ⟨d, k ::ₘ s.held⟩ after) :
    ∃ s', run after ⟨d, k ::ₘ s.held⟩ = .ok s' ∧ ∀ keepRoot, ∃ d', s'.dir.dirRemove p k keepRoot = .ok (true, d') ∧
      s'.dir.allKeys = k ::ₘ d'.allKeys ∧ (∀ n, ¬d'.Holds n k) ∧ ∀ x ≠ k, ∀ n, d'.Holds n x ↔ s'.dir.Holds n x := by
  obtain ⟨_, hs', l, hl⟩ := run_tracks tracks_initial hbefore
  obtain rfl := ok.inj (hs.symm.trans hs')
  obtain ⟨hl', hk'⟩ := tracks_of_dirAdd hl hk hadd
  obtain ⟨s', hr, l', hl', hk'⟩ := run_located hl' hk' hafter
  exact ⟨s', hr, fun keepRoot => dirRemove_of_located hl' hk' keepRoot⟩

/-- Key 2 is put on the root between two others, one of which is removed. -/
theorem dirRemove_of_dirAdd_two :
    ∃ s d, run [.dirAdd true false 1] initial = .ok s ∧ s.dir.dirAdd true false 2 = .ok (some kRootPage, d) ∧
      ∃ s', run [.dirAdd true false 3, .dirRemove 0 1 false] ⟨d, 2 ::ₘ s.held⟩ = .ok s' ∧
        ∃ d', s'.dir.dirRemove kRootPage 2 false = .ok (true, d') ∧ s'.dir.allKeys = 2 ::ₘ d'.allKeys := by
  let s : Traced Nat := ⟨AList.singleton kRootPage ⟨[1], none, none⟩, {1}⟩
  let d : Directory Nat := AList.singleton kRootPage ⟨[1, 2], none, none⟩
  have hb : Along step Fresh initial [.dirAdd true false 1] := by decide +kernel
  have ha : Along step (fun s c => Fresh s c ∧ Spares 2 s c) ⟨d, 2 ::ₘ s.held⟩
      [.dirAdd true false 3, .dirRemove 0 1 false] := by decide +kernel
  have hadd : s.dir.dirAdd true false 2 = .ok (some kRootPage, d) := rfl
  obtain ⟨s', hs', hr⟩ := dirRemove_of_dirAdd hb rfl (by decide +kernel) hadd ha
  obtain ⟨d', hd', hk, -⟩ := hr false
  exact ⟨s, d, rfl, hadd, s', hs', d', hd', hk⟩

/-- A directory is deleted with all its pages, and the callback is called once for each key; the result is `true` exactly
when no link is there that names the root. -/
theorem run_dirDelete (calls : List (Call Key)) {s : Traced Key} (hs : run calls initial = .ok s)
    (hroot : kRootPage ∈ s.dir) :
    let r := s.dir.dirDelete
    (∀ n, n ∉ r.2.2) ∧ (r.2.1 : Multiset Key) = s.held ∧
      (r.1 = true ↔ ∀ n p, s.dir.lookup n = some p → p.indexNext ≠ some kRootPage) := by
  obtain ⟨l, hrep, hk⟩ := Along.foldlM_of_ok (P := fun _ _ => True)
    (I := fun s => ∃ l : PageList Key, s.dir.Represents l.pages ∧ l.pages.keys = s.held)
    (fun s c s' ⟨l, hl⟩ _ => step_represents hl) ⟨PageList.empty, represents_empty, rfl⟩
    (.of_forall fun _ _ _ => trivial) hs
  obtain ⟨pages, hv⟩ := l
  cases pages with
  | nil => exact absurd (hrep.mem_iff.1 hroot) (by simp)
  | cons e t =>
    have hr : Runs s.dir (e :: t) := ⟨hrep.linked.imp fun _ _ h => h.1, hrep.indexes, hv.nodup⟩
    have hpi : (none : Option Nat).getD 0 = e.1 := (hv.root e rfl).symm
    obtain ⟨hc, hg, ht⟩ := hr.dirDeleteFrom_spec (fun hmem => hv.ne_root_of_mem_tail hmem rfl) hpi
    refine ⟨hg, ?_, ht⟩
    rw [← hk, dirDelete, hc]
    rfl

theorem run_dirDelete_two : ∃ s, run [.dirAdd true false 1, .dirAdd true false 2] initial = .ok s ∧
    s.dir.dirDelete.1 = true := by
  let s : Traced Nat := ⟨AList.singleton kRootPage ⟨[1, 2], none, none⟩, {2, 1}⟩
  have hs : run [.dirAdd true false 1, .dirAdd true false 2] initial = .ok s := rfl
  refine ⟨s, hs, (run_dirDelete _ hs (by decide)).2.2.2 fun n p hp => ?_⟩
  obtain rfl := HashMap.eq_of_lookup_singleton hp
  exact nofun

/-- The second page is emptied, so the root names itself as its next page. -/
theorem dirDelete_false : (run ((List.range 33).map (.dirAdd true false) ++ [.dirRemove 1 32 false]) initial).map
      (fun s => (decide (kRootPage ∈ s.dir), s.dir.dirDelete.1)) = .ok (true, false) := by
  decide +kernel

end Xrpl.Ledger.Directory

import Xrpl.Lib.Linked
import Xrpl.Lib.Yields
import Xrpl.Ledger.PageList

/-!
# Directories refine lists of pages

* `Directory.Represents`: the links of a directory run through a list of pages, and its pages are those of the list;
* `dirAdd_spec`, `dirRemove_spec`, `emptyDirDelete_spec`: on a directory that represents a list of pages, the code does
  not throw, and does what `Pages.add`, `Pages.remove` and `Pages.deleteEmpty` do.
-/

namespace Xrpl.Ledger.Directory

open List Option Function AList View Pages DirPage

variable {Key : Type}

def nextOf (d : Directory Key) (n : Nat) : Option Nat := (d.lookup n).map getIndexNext

def prevOf (d : Directory Key) (n : Nat) : Option Nat := (d.lookup n).map getIndexPrevious

def indexesOf (d : Directory Key) (n : Nat) : Option (List Key) := (d.lookup n).map indexes

def allKeys (d : Directory Key) : Multiset Key := (d.entries.flatMap fun e => e.2.indexes : List Key)

variable {d : Directory Key} {n : Nat}

private lemma indexesOf_isSome : (d.indexesOf n).isSome ↔ n ∈ d := by
  rw [indexesOf, isSome_map, lookup_isSome]

/-- All that is read of a directory: the links and the entries of the pages. -/
structure Reads (d : Directory Key) (next prev : Nat → Option Nat) (indexes : Nat → Option (List Key)) : Prop where
  next_eq : d.nextOf = next
  prev_eq : d.prevOf = prev
  indexes_eq : d.indexesOf = indexes

private lemma reads_insert (d : Directory Key) (n : Nat) (p : DirPage Key) : Reads (insert n p d)
    (update d.nextOf n (some p.getIndexNext)) (update d.prevOf n (some p.getIndexPrevious))
    (update d.indexesOf n (some p.indexes)) :=
  ⟨map_lookup_insert _ d n p, map_lookup_insert _ d n p, map_lookup_insert _ d n p⟩

private lemma exists_lookup (hn : n ∈ d) : ∃ p, d.lookup n = some p ∧
    d.nextOf n = some p.getIndexNext ∧ d.prevOf n = some p.getIndexPrevious ∧ d.indexesOf n = some p.indexes := by
  obtain ⟨p, hp⟩ := isSome_iff_exists.1 (lookup_isSome.2 hn)
  exact ⟨p, hp, by simp [nextOf, hp], by simp [prevOf, hp], by simp [indexesOf, hp]⟩

/-- A page is there when its entries can be read, so a change of links does not add or delete pages. -/
private lemma Reads.mem_iff {d' : Directory Key} {next prev : Nat → Option Nat} (h : Reads d' next prev d.indexesOf) :
    n ∈ d' ↔ n ∈ d := by
  rw [← indexesOf_isSome, h.indexes_eq, indexesOf_isSome]

private lemma insertNew_spec (hn : n ∉ d) (p : DirPage Key) : Succeeds (d.insertNew n p) fun d' =>
    Reads d' (update d.nextOf n (some p.getIndexNext)) (update d.prevOf n (some p.getIndexPrevious))
      (update d.indexesOf n (some p.indexes)) :=
  ⟨_, insertNew_eq hn, reads_insert d n p⟩

private lemma modify_setIndexNext (hn : n ∈ d) (q : Nat) : Succeeds (d.modify n (setIndexNext q)) fun d' =>
      Reads d' (update d.nextOf n (some q)) d.prevOf d.indexesOf := by
  obtain ⟨p, hp, -, hpr, hi⟩ := exists_lookup hn
  have h := reads_insert d n (p.setIndexNext q)
  refine ⟨_, modify_eq hp, h.next_eq, h.prev_eq.trans ?_, h.indexes_eq.trans ?_⟩
  · exact update_eq_self_iff.2 hpr.symm
  · exact update_eq_self_iff.2 hi.symm

private lemma modify_setIndexPrevious (hn : n ∈ d) (q : Nat) : Succeeds (d.modify n (setIndexPrevious q)) fun d' =>
      Reads d' d.nextOf (update d.prevOf n (some q)) d.indexesOf := by
  obtain ⟨p, hp, hne, -, hi⟩ := exists_lookup hn
  have h := reads_insert d n (p.setIndexPrevious q)
  refine ⟨_, modify_eq hp, h.next_eq.trans ?_, h.prev_eq, h.indexes_eq.trans ?_⟩
  · exact update_eq_self_iff.2 hne.symm
  · exact update_eq_self_iff.2 hi.symm

private lemma modify_setIndexes {p : DirPage Key} (hp : d.lookup n = some p) (es : List Key) :
    Succeeds (d.modify n (setIndexes es)) fun d' => d'.lookup n = some (p.setIndexes es) ∧
      Reads d' d.nextOf d.prevOf (update d.indexesOf n (some es)) := by
  have h := reads_insert d n (p.setIndexes es)
  refine ⟨_, modify_eq hp, lookup_insert d, h.next_eq.trans ?_, h.prev_eq.trans ?_, h.indexes_eq⟩
  · exact update_eq_self_iff.2 (by rw [nextOf, hp]; rfl)
  · exact update_eq_self_iff.2 (by rw [prevOf, hp]; rfl)

private lemma reads_erase (d : Directory Key) (n : Nat) :
    Reads (d.erase n) (update d.nextOf n none) (update d.prevOf n none) (update d.indexesOf n none) :=
  ⟨map_lookup_erase _ d n, map_lookup_erase _ d n, map_lookup_erase _ d n⟩

private lemma eraseKey_spec (hn : n ∈ d) : Succeeds (d.eraseKey n) fun d' =>
    Reads d' (update d.nextOf n none) (update d.prevOf n none) (update d.indexesOf n none) :=
  ⟨_, eraseKey_eq hn, reads_erase d n⟩

/-- The links run through the pages and back to the root, and the pages have the entries of the list. -/
structure Represents (d : Directory Key) (l : Pages Key) : Prop where
  linked : Linked d.nextOf d.prevOf (l.numbers ++ [kRootPage])
  indexes : ∀ n es, d.indexesOf n = some es ↔ (n, es) ∈ l

lemma represents_empty : Represents (∅ : Directory Key) [] := ⟨.singleton _, fun n es => by simp [indexesOf]⟩

namespace Represents

variable {l : Pages Key} {es : List Key}

lemma mem_iff (h : Represents d l) : n ∈ d ↔ n ∈ l.numbers := by
  rw [← indexesOf_isSome, isSome_iff_exists]
  simp only [h.indexes, numbers, List.mem_map, Prod.exists]
  constructor
  · rintro ⟨es, hes⟩
    exact ⟨n, es, hes, rfl⟩
  · rintro ⟨_, es, hes, rfl⟩
    exact ⟨es, hes⟩

private lemma mem_of_mem (h : Represents d l) (hes : (n, es) ∈ l) : n ∈ d := h.mem_iff.2 (mem_map_of_mem hes)

lemma allKeys_eq (h : Represents d l) (hl : l.numbers.Nodup) : d.allKeys = l.keys := by
  have hpe : (d.entries.map fun e => (e.1, e.2.indexes)).Perm l := by
    have hn : (d.entries.map fun e => (e.1, e.2.indexes)).Nodup := by
      refine List.Nodup.of_map Prod.fst ?_
      rw [List.map_map]
      exact d.nodupKeys
    refine (perm_ext_iff_of_nodup hn (List.Nodup.of_map _ hl)).2 fun ⟨n, es⟩ => ?_
    rw [← h.indexes, indexesOf, map_eq_some_iff, List.mem_map]
    constructor
    · rintro ⟨e, he, heq⟩
      obtain ⟨rfl, rfl⟩ := Prod.mk.inj heq
      exact ⟨e.2, HashMap.lookup_of_mem_entries he, rfl⟩
    · rintro ⟨p, hp, rfl⟩
      exact ⟨⟨n, p⟩, mem_lookup_iff.1 hp, rfl⟩
  have hf := hpe.flatMap_right Prod.snd
  rw [flatMap_map] at hf
  exact Multiset.coe_eq_coe.2 hf

variable {d' : Directory Key} {page : Nat}

private lemma setEntries (h : Represents d l) (hn : n ∈ l.numbers)
    (hr : Reads d' d.nextOf d.prevOf (update d.indexesOf n (some es))) :
    Represents d' (l.setEntries n es) where
  linked := by
    rw [hr.next_eq, hr.prev_eq, numbers_setEntries]
    exact h.linked
  indexes := by
    intro m es'
    rw [hr.indexes_eq, mem_setEntries hn, update_apply]
    split_ifs
    · rw [some_inj, eq_comm]
    · exact h.indexes m es'

private lemma append {es' : List Key} (h : Represents d (l ++ [(page, es)]))
    (hva : (l ++ [(page, es)]).Valid) (hn : n ∉ (l ++ [(page, es)]).numbers)
    (hr : Reads d' (update (update d.nextOf page (some n)) n (some kRootPage))
      (update (update d.prevOf kRootPage (some n)) n (some page))
      (update d.indexesOf n (some es'))) : Represents d' (l ++ [(page, es)] ++ [(n, es')]) where
  linked := by
    have hl := h.linked
    have hri := hva.notMem_ring (by simp) hn
    have he : numbers ([] : Pages Key) ++ [kRootPage] = [kRootPage] := rfl
    obtain ⟨ha, hb⟩ := hva.ring_split he
    simp only [numbers_append, append_assoc] at hl hri ⊢
    rw [hr.next_eq, hr.prev_eq]
    exact hl.link ha hb hri
  indexes := by
    intro m es''
    rw [hr.indexes_eq, update_apply, mem_append]
    by_cases hm : m = n
    · subst hm
      have hnot : (m, es'') ∉ l ++ [(page, es)] := fun hes => hn (mem_map_of_mem hes)
      simp [hnot, eq_comm]
    · rw [if_neg hm, h.indexes]
      simp [hm]

private lemma prev_root (h : Represents d l) (hl : l.getLast? = some (page, es)) : d.prevOf kRootPage = some page := by
  obtain ⟨l', rfl⟩ := getLast?_eq_some_iff.1 hl
  have hlnk := h.linked
  rw [numbers, map_append, append_assoc] at hlnk
  exact (isChain_cons_cons.1 (Linked.split.1 hlnk).2).1.2

lemma lookup_of_mem (h : Represents d l) (hes : (n, es) ∈ l) : ∃ node, d.lookup n = some node ∧ node.indexes = es :=
  map_eq_some_iff.1 ((h.indexes n es).2 hes)

lemma mem_of_lookup (h : Represents d l) {node : DirPage Key} (hn : d.lookup n = some node) : (n, node.indexes) ∈ l :=
  (h.indexes n _).1 (by rw [indexesOf, hn]; rfl)

end Represents

/-! ### Adding -/

section

variable {l : Pages Key}

private lemma createRoot_spec (h : Represents d []) (key : Key) : Succeeds (createRoot key d) fun r =>
    r.1 = some kRootPage ∧ Represents r.2 [(kRootPage, [key])] := by
  have hr : kRootPage ∉ d := fun hmem => by simpa [numbers] using h.mem_iff.1 hmem
  refine (insertNew_spec hr _).bind fun d' hre => .pure ⟨rfl, ?_, fun n es => ?_⟩
  · refine .cons_cons ⟨?_, ?_⟩ (.singleton _)
    · simp [hre.next_eq, getIndexNext, kRootPage]
    · simp [hre.prev_eq, getIndexPrevious, kRootPage]
  rw [hre.indexes_eq]
  have hno := h.indexes n es
  by_cases hn : n = kRootPage
  · simp [hn, eq_comm]
  · simpa [hn] using hno

variable {page : Nat} {es : List Key} {key : Key}

private lemma findPreviousPage_spec (h : Represents d l) {root : DirPage Key}
    (hr : d.lookup kRootPage = some root) (hl : l.getLast? = some (page, es)) :
    Succeeds (findPreviousPage d root) fun r => r.1 = page ∧ r.2.indexes = es := by
  have hp : root.getIndexPrevious = page := by
    have hp := h.prev_root hl
    rw [prevOf, hr] at hp
    exact some.inj hp
  have hmem := mem_of_getLast? hl
  obtain ⟨node, hn, hes⟩ := h.lookup_of_mem hmem
  unfold findPreviousPage
  rw [hp]
  by_cases hpa : page = 0
  · subst hpa
    obtain rfl := some.inj (hr.symm.trans hn)
    exact .pure ⟨rfl, hes⟩
  · simp only [if_pos hpa, hn]
    exact .pure ⟨rfl, hes⟩

variable {fixDirectoryLimit : Bool}

private lemma insertPage_of_limit_le (hp : page < 2 ^ 64) (hl : ¬page + 1 < limit fixDirectoryLimit) (key : Key) :
    insertPage fixDirectoryLimit d page key = .ok (none, d) := by
  unfold insertPage
  by_cases hw : (page + 1) % 2 ^ 64 = 0
  · exact if_pos hw
  have hn : (page + 1) % 2 ^ 64 = page + 1 := Nat.mod_eq_of_lt (by omega)
  rw [if_neg hw, hn]
  refine if_pos ?_
  cases fixDirectoryLimit with
  | true => exact absurd hp (by simp [limit] at hl; omega)
  | false => exact ⟨by simp, by simpa [limit] using hl⟩

private lemma insertPage_spec (h : Represents d l) (hva : l.Valid)
    (hl : l.getLast? = some (page, es)) (hlim : page + 1 < limit fixDirectoryLimit)
    (key : Key) : Succeeds (insertPage fixDirectoryLimit d page key) fun r =>
      r.1 = some (page + 1) ∧ Represents r.2 (l ++ [(page + 1, [key])]) := by
  have hmem := mem_of_getLast? hl
  have hnew : (page + 1) % 2 ^ 64 = page + 1 := Nat.mod_eq_of_lt (hlim.trans_le (limit_le _))
  have hmax : ¬(¬fixDirectoryLimit ∧ page + 1 ≥ kDirNodeMaxPages) := by
    rintro ⟨hfix, hmax⟩
    simp only [limit, hfix, Bool.false_eq_true, if_false] at hlim
    omega
  have hp : (if page + 1 ≠ 1 then some (page + 1 - 1) else none).getD 0 = page := by
    split_ifs with ho
    · rfl
    · exact (Nat.succ_injective (not_not.1 ho)).symm
  have hn : page + 1 ∉ l.numbers := fun hn => absurd (hva.le_last hl hn) (by omega)
  unfold insertPage
  rw [hnew, if_neg (Nat.succ_ne_zero page), if_neg hmax]
  refine (modify_setIndexNext (h.mem_of_mem hmem) _).bind fun d1 hr1 => ?_
  have hro : kRootPage ∈ d1 := hr1.mem_iff.2 (h.mem_iff.2 (hva.root_mem (ne_nil_of_mem hmem)))
  refine (modify_setIndexPrevious hro _).bind fun d2 hr2 => ?_
  have hf : page + 1 ∉ d2 := fun hmem2 => hn (h.mem_iff.1 (hr1.mem_iff.1 (hr2.mem_iff.1 hmem2)))
  refine (insertNew_spec hf _).bind fun d3 hr3 => .pure ⟨rfl, ?_⟩
  obtain ⟨l', rfl⟩ := getLast?_eq_some_iff.1 hl
  refine h.append hva hn ⟨?_, ?_, ?_⟩
  · rw [hr3.next_eq, hr2.next_eq, hr1.next_eq]
    rfl
  · rw [hr3.prev_eq, hr2.prev_eq, hr1.prev_eq, getIndexPrevious, hp]
  · rw [hr3.indexes_eq, hr2.indexes_eq, hr1.indexes_eq]

variable [LinearOrder Key]

private lemma insertIndex_eq (hk : key ∉ es) (preserveOrder : Bool) :
    insertIndex preserveOrder es key = .ok (place preserveOrder es key) := by
  cases preserveOrder with
  | true => exact if_neg hk
  | false =>
    unfold insertIndex
    simp only [Bool.false_eq_true, if_false]
    refine if_neg fun hpos => hk ?_
    have hmem := mem_of_mem_head? hpos
    exact (mem_insertionSort _).1 ((dropWhile_sublist _).subset hmem)

variable (h : Represents d l)

include h

private lemma insertKey_spec {node : DirPage Key} {preserveOrder : Bool} (hpa : (page, node.indexes) ∈ l)
    (hk : insertIndex preserveOrder node.indexes key = .ok (place preserveOrder node.indexes key)) :
    Succeeds (insertKey d node page preserveOrder key) fun r =>
      r.1 = some page ∧ Represents r.2 (l.setEntries page (place preserveOrder node.indexes key)) := by
  unfold insertKey
  rw [hk]
  obtain ⟨p, hp, -⟩ := h.lookup_of_mem hpa
  refine (modify_setIndexes hp _).bind fun d' hd' => .pure ⟨rfl, ?_⟩
  exact h.setEntries (mem_map_of_mem hpa) hd'.2

variable (hva : l.Valid)

include hva

private lemma dirAdd_cases (fix order : Bool) (key : Key) :
    (∃ page node, (page, node.indexes) ∈ l ∧ dirAdd fix order key d = insertKey d node page order key ∧
      l.add fix order key = (some page, l.setEntries page (place order node.indexes key))) ∨
    Succeeds (dirAdd fix order key d) fun r =>
      r.1 = (l.add fix order key).1 ∧ Represents r.2 (l.add fix order key).2 := by
  unfold dirAdd add
  cases hl : l.getLast? with
  | none =>
    obtain rfl := getLast?_eq_none_iff.1 hl
    have hro : d.lookup kRootPage = none := lookup_eq_none.2 fun hmem => by simpa [numbers] using h.mem_iff.1 hmem
    rw [hro]
    exact .inr (createRoot_spec h key)
  | some e =>
    obtain ⟨page, es⟩ := e
    have hmem := mem_of_getLast? hl
    obtain ⟨root, hro, -⟩ := exists_lookup (h.mem_iff.2 (hva.root_mem (ne_nil_of_mem hmem)))
    obtain ⟨⟨page, node⟩, hf, rfl, rfl⟩ := findPreviousPage_spec h hro hl
    rw [hro]
    dsimp only
    rw [hf]
    by_cases hlen : node.indexes.length < kDirNodeMaxEntries
    · exact .inl ⟨page, node, hmem, if_pos hlen, if_pos hlen⟩
    right
    rw [if_neg hlen]
    refine Succeeds.bind (.pure rfl) fun r hr => ?_
    subst hr
    rw [if_neg hlen]
    by_cases hlim : page + 1 < limit fix
    · rw [if_pos hlim]
      exact insertPage_spec h hva hl hlim key
    · rw [if_neg hlim, insertPage_of_limit_le (hva.bounded _ hmem) hlim]
      exact .pure ⟨rfl, h⟩

lemma dirAdd_spec (hk : key ∉ l.keys) (fix order : Bool) : Succeeds (dirAdd fix order key d) fun r =>
      r.1 = (l.add fix order key).1 ∧ Represents r.2 (l.add fix order key).2 := by
  rcases dirAdd_cases h hva fix order key with ⟨page, node, hmem, hc, ha⟩ | hs
  · rw [hc, ha]
    exact insertKey_spec h hmem (insertIndex_eq (fun hmem' => hk (mem_keys.2 ⟨page, _, hmem, hmem'⟩)) order)
  · exact hs

/-- A key that is already on another page is added as well. -/
lemma dirAdd_ok {fix order : Bool} {r : Option Nat × Directory Key}
    (hr : dirAdd fix order key d = .ok r) : r.1 = (l.add fix order key).1 ∧ Represents r.2 (l.add fix order key).2 := by
  rcases dirAdd_cases h hva fix order key with ⟨page, node, hmem, hc, ha⟩ | ⟨r', hr', hs⟩
  · rw [hc] at hr
    obtain ⟨indexes, hix, -⟩ := Except.of_bind_eq_ok hr
    obtain rfl : indexes = place order node.indexes key := by
      unfold insertIndex at hix
      cases order <;> simp only [Bool.false_eq_true, if_false] at hix <;> split_ifs at hix <;>
        exact (Except.ok.inj hix).symm
    obtain ⟨r', hr', hs⟩ := insertKey_spec h hmem hix
    obtain rfl := Except.ok.inj (hr.symm.trans hr')
    rwa [ha]
  · obtain rfl := Except.ok.inj (hr.symm.trans hr')
    exact hs

lemma dirAdd_error {fix order : Bool} {e : LogicError}
    (he : dirAdd fix order key d = .error e) : e = .what "dirInsert: double insertion" := by
  rcases dirAdd_cases h hva fix order key with ⟨page, node, hmem, hc, -⟩ | ⟨r, hok, -⟩
  · rw [hc, insertKey] at he
    cases hix : insertIndex order node.indexes key with
    | error e' =>
      rw [hix] at he
      obtain rfl : e' = e := Except.error.inj he
      unfold insertIndex at hix
      dsimp only at hix
      split_ifs at hix <;> exact (Except.error.inj hix).symm
    | ok indexes =>
      obtain ⟨p, hp, -⟩ := h.lookup_of_mem hmem
      obtain ⟨d', hd', -⟩ := modify_setIndexes hp indexes
      rw [hix] at he
      change (d.modify page (setIndexes indexes) >>= fun d => .ok (some page, d)) = .error e at he
      rw [hd'] at he
      cases he
  · cases hok.symm.trans he

end

/-! ### Deleting the root -/

section

variable {l : Pages Key} {m : Nat} {node : DirPage Key} {s t : List Nat} {root : DirPage Key}

private lemma Represents.next_of_lookup (h : Represents d l) (hn : d.lookup n = some node)
    (hl : l.numbers ++ [kRootPage] = s ++ n :: m :: t) : node.getIndexNext = m := by
  have hne := (isChain_cons_cons.1 (Linked.split.1 (hl ▸ h.linked)).2).1.1
  rwa [nextOf, hn, map_some, some_inj] at hne

private lemma Represents.prev_of_lookup (h : Represents d l) (hn : d.lookup m = some node)
    (hl : l.numbers ++ [kRootPage] = s ++ n :: m :: t) : node.getIndexPrevious = n := by
  have hp := (isChain_cons_cons.1 (Linked.split.1 (hl ▸ h.linked)).2).1.2
  rwa [prevOf, hn, map_some, some_inj] at hp

private lemma Represents.root_links (h : Represents d l) (hva : l.Valid) (hr : d.lookup kRootPage = some root) :
    (l = [(kRootPage, root.indexes)] ∧ root.getIndexNext = kRootPage ∧ root.getIndexPrevious = kRootPage) ∨
    ∃ e l', l = (kRootPage, root.indexes) :: e :: l' ∧ root.getIndexNext = e.1 ∧ root.getIndexPrevious ≠ kRootPage ∧
      (root.getIndexPrevious = e.1 ↔ l' = []) := by
  have hmem := h.mem_of_lookup hr
  cases l with
  | nil => simp at hmem
  | cons r l =>
    obtain ⟨n, es⟩ := r
    obtain rfl : n = kRootPage := hva.root _ rfl
    obtain ⟨node, hn, rfl⟩ := h.lookup_of_mem mem_cons_self
    obtain rfl := some.inj (hr.symm.trans hn)
    cases l with
    | nil => exact .inl ⟨rfl, h.next_of_lookup (s := []) hr rfl, h.prev_of_lookup (s := []) hr rfl⟩
    | cons e l =>
      obtain ⟨last, hl⟩ : ∃ last, (e :: l).getLast? = some last := ⟨_, getLast?_eq_getLast_of_ne_nil (by simp)⟩
      have hp : root.getIndexPrevious = last.1 := by
        have hp := h.prev_root (getLast?_cons_cons.trans hl)
        rwa [prevOf, hr, map_some, some_inj] at hp
      have hlt : ∀ x ∈ l, e.1 < x.1 := fun x hx =>
        (pairwise_cons.1 (pairwise_cons.1 hva.sorted).2).1 _ (mem_map_of_mem hx)
      refine .inr ⟨e, l, rfl, h.next_of_lookup (s := []) hr rfl, ?_, ?_⟩ <;> rw [hp]
      · exact hva.ne_root (mem_of_getLast? hl)
      cases l with
      | nil =>
        obtain rfl : e = last := by simpa using hl
        simp
      | cons e' l =>
        have hmem' : last ∈ e' :: l := mem_of_getLast? (getLast?_cons_cons.symm.trans hl)
        simpa using (hlt last hmem').ne'

private lemma checkRootLinks_spec (h : root.getIndexNext = kRootPage ↔ root.getIndexPrevious = kRootPage) :
    Succeeds (checkRootLinks root) fun _ => True := by
  unfold checkRootLinks
  rw [if_neg (fun hl => hl.2 (h.1 hl.1)), if_neg (fun hl => hl.2 (h.2 hl.1))]
  exact .pure trivial

private lemma eraseRoot_false (keepRoot : Bool) :
    eraseRoot d keepRoot false = .ok (true, d) := by cases keepRoot <;> rfl

private lemma Represents.eraseKey_root {es : List Key} (h : Represents d [(kRootPage, es)]) :
    Succeeds (d.eraseKey kRootPage) fun d' => Represents d' [] := by
  refine (eraseKey_spec (h.mem_iff.2 (by simp [numbers]))).mono fun d' hr => ⟨.singleton _, fun n es' => ?_⟩
  rw [hr.indexes_eq, update_apply]
  by_cases hn : n = kRootPage
  · simp [hn]
  · rw [if_neg hn, h.indexes]
    simp [hn]

section

variable [DecidableEq Key]

private lemma emptiedRoot_spec (h : Represents d l) (hva : l.Valid)
    (hr : d.lookup kRootPage = some root) (he : root.indexes = []) (keepRoot : Bool) :
    Succeeds (emptiedRoot d root keepRoot) fun r =>
      r.1 = true ∧ Represents r.2 (l.collapse keepRoot) := by
  rcases h.root_links hva hr with ⟨rfl, hn, hp⟩ | ⟨e, l', rfl, hn, hp, -⟩
  · refine (checkRootLinks_spec (by rw [hn, hp])).bind fun _ _ => ?_
    rw [hn, hp, he]
    cases keepRoot with
    | true => exact .pure ⟨rfl, he ▸ h⟩
    | false => exact h.eraseKey_root.bind fun d' hd' => .pure ⟨rfl, hd'⟩
  · have hne : e.1 ≠ kRootPage := hva.ne_root (by simp)
    have hk : collapse keepRoot ((kRootPage, root.indexes) :: e :: l') = (kRootPage, root.indexes) :: e :: l' :=
      collapse_eq_self fun _ hke => by simpa using (hva.keys_eq_zero.1 hke).1
    obtain ⟨last, hl, hi⟩ := h.lookup_of_mem (n := e.1) (mem_cons_of_mem _ mem_cons_self)
    have hf : ¬last.indexes.isEmpty := by simpa [hi] using hva.nonempty e (by simp)
    rw [hk]
    refine (checkRootLinks_spec (iff_of_false (hn ▸ hne) hp)).bind fun _ _ => ?_
    rw [hn]
    by_cases hs : e.1 = root.getIndexPrevious ∧ e.1 ≠ kRootPage
    · rw [if_pos hs, hl]
      dsimp only
      rw [if_neg hf, eraseRoot_false]
      exact .pure ⟨rfl, h⟩
    · rw [if_neg hs, decide_eq_false (fun hc => hne hc.1), eraseRoot_false]
      exact .pure ⟨rfl, h⟩

end

lemma emptyDirDelete_spec (h : Represents d l) (hva : l.Valid) : Succeeds (emptyDirDelete d) fun r =>
    r.1 = l.deleteEmpty.1 ∧ Represents r.2 l.deleteEmpty.2 := by
  unfold emptyDirDelete
  cases hr : d.lookup kRootPage with
  | none =>
    obtain rfl : l = [] := by
      by_contra hl
      exact lookup_eq_none.1 hr (h.mem_iff.2 (hva.root_mem hl))
    exact .pure ⟨rfl, h⟩
  | some root =>
    dsimp only
    cases hes : root.indexes with
    | cons x es =>
      have hdel : l.deleteEmpty = (false, l) := by
        rcases h.root_links hva hr with ⟨rfl, -⟩ | ⟨e, l', rfl, -⟩ <;> rw [hes] <;> rfl
      rw [hdel]
      exact .pure ⟨rfl, h⟩
    | nil =>
      rcases h.root_links hva hr with ⟨rfl, hn, hp⟩ | ⟨e, l', rfl, hn, hp, hs⟩ <;> rw [hes] at h ⊢
      · refine (checkRootLinks_spec (by rw [hn, hp])).bind fun _ _ => ?_
        rw [hn, hp]
        exact h.eraseKey_root.bind fun d' hd' => .pure ⟨rfl, hd'⟩
      have hne : e.1 ≠ kRootPage := hva.ne_root (by simp)
      refine (checkRootLinks_spec (iff_of_false (hn ▸ hne) hp)).bind fun _ _ => ?_
      rw [hn]
      cases l' with
      | nil =>
        obtain ⟨last, hla, hi⟩ := h.lookup_of_mem (n := e.1) (mem_cons_of_mem _ mem_cons_self)
        have hf : ¬last.indexes.isEmpty := by simpa [hi] using hva.nonempty e (by simp)
        rw [if_pos ⟨(hs.2 rfl).symm, hne⟩, hla]
        dsimp only
        rw [if_pos hf]
        exact .pure ⟨rfl, h⟩
      | cons e' l' =>
        rw [if_neg (fun hc => absurd (hs.1 hc.1.symm) (by simp)), if_neg (fun hc => hne hc.1)]
        exact .pure ⟨rfl, h⟩

end

/-! ### Removing -/

section

variable {l1 l2 : Pages Key} {a : Nat × List Key} {prevPage nextPage : Nat}

/-- The page between `a` and `b` is unlinked and deleted. -/
private lemma Represents.unlink {p : Nat × List Key} (h : Represents d (l1 ++ a :: p :: l2))
    (hva : Pages.Valid (l1 ++ a :: l2)) (hp : p.1 ∉ numbers (l1 ++ a :: l2)) {b : Nat} {rest : List Nat}
    (hb : l2.numbers ++ [kRootPage] = b :: rest) {d' : Directory Key}
    (hr : Reads d' (update (update d.nextOf a.1 (some b)) p.1 none)
      (update (update d.prevOf b (some a.1)) p.1 none) (update d.indexesOf p.1 none)) :
    Represents d' (l1 ++ a :: l2) where
  linked := by
    have hl := h.linked
    have hri := hva.notMem_ring (by simp) hp
    obtain ⟨ha, hb'⟩ := hva.ring_split hb
    simp only [numbers_append, numbers_cons, append_assoc, cons_append, hb] at hl hri ⊢
    rw [hr.next_eq, hr.prev_eq]
    exact hl.unlink ha hb' hri
  indexes := by
    intro m es
    rw [hr.indexes_eq, update_apply]
    by_cases hm : m = p.1
    · subst hm
      have hn : (p.1, es) ∉ l1 ++ a :: l2 := fun hes => hp (mem_map.2 ⟨_, hes, rfl⟩)
      simpa using hn
    · have hne : (m, es) ≠ p := fun heq => hm (congrArg Prod.fst heq)
      rw [if_neg hm, h.indexes]
      simp [hne]

private lemma dropEmptyNext_eq {next : DirPage Key} (h : nextPage ≠ kRootPage → next.indexes ≠ []) :
    dropEmptyNext d prevPage nextPage next = .ok (nextPage, d) :=
  if_neg fun hd => h hd.1 (isEmpty_iff.1 hd.2.2)

variable [DecidableEq Key]

private lemma dropEmptyRoot_spec {l : Pages Key} (h : Represents d l) (hva : l.Valid) (hl : l ≠ [])
    (ha : nextPage = kRootPage ∧ prevPage = kRootPage ↔ l.tail = []) (keepRoot : Bool) :
    Succeeds (dropEmptyRoot d prevPage nextPage keepRoot) fun r =>
      r.1 = true ∧ Represents r.2 (l.collapse keepRoot) := by
  unfold dropEmptyRoot
  by_cases hdr : ¬keepRoot ∧ nextPage = kRootPage ∧ prevPage = kRootPage
  · obtain ⟨hk, hn, rfl⟩ := hdr
    obtain ⟨es, rfl⟩ : ∃ es, l = [(kRootPage, es)] := by
      obtain ⟨r, l', rfl⟩ := exists_cons_of_ne_nil hl
      obtain rfl : l' = [] := ha.1 ⟨hn, rfl⟩
      exact ⟨r.2, by rw [← hva.root r rfl]⟩
    obtain ⟨prev, hp, rfl⟩ := h.lookup_of_mem (mem_singleton_self _)
    rw [if_pos ⟨hk, hn, rfl⟩, hp]
    dsimp only
    by_cases he : prev.indexes.isEmpty
    · rw [if_pos he]
      refine h.eraseKey_root.bind fun d' hd' => .pure ⟨rfl, ?_⟩
      rwa [Pages.collapse, if_pos ⟨hk, by simpa [Pages.keys] using he⟩]
    · rw [if_neg he, collapse_eq_self fun _ hke => he (by simpa [Pages.keys] using hke)]
      exact .pure ⟨rfl, h⟩
  · rw [if_neg hdr, collapse_eq_self fun hk hke =>
      hdr ⟨by simpa using hk, ha.2 (hva.keys_eq_zero.1 hke).1⟩]
    exact .pure ⟨rfl, h⟩

/-- A page other than the root is left empty: it goes, and the root goes too if it is left alone and empty and need not
be kept. -/
private lemma emptiedPage_spec {page : Nat} {es : List Key} (h : Represents d (l1 ++ a :: (page, es) :: l2))
    (hva : Pages.Valid (l1 ++ a :: l2)) (hp : page ∉ numbers (l1 ++ a :: l2)) {node : DirPage Key}
    (hn : d.lookup page = some node) (keepRoot : Bool) :
    Succeeds (emptiedPage d page node keepRoot) fun r =>
      r.1 = true ∧ Represents r.2 (collapse keepRoot (l1 ++ a :: l2)) := by
  obtain ⟨b, rest, hb⟩ := exists_cons_of_ne_nil (l := l2.numbers ++ [kRootPage]) (by simp)
  have hpr : node.getIndexPrevious = a.1 :=  h.prev_of_lookup (s := l1.numbers) (t := b :: rest) hn (by simp [hb])
  have hnx : node.getIndexNext = b := h.next_of_lookup (s := l1.numbers ++ [a.1]) (t := rest) hn (by simp [hb])
  have hr := hva.notMem_ring (by simp) hp
  simp only [numbers_append, numbers_cons, append_assoc, cons_append, hb] at hr
  have hne : b ≠ page ∧ a.1 ≠ page := by
    refine ⟨?_, ?_⟩ <;> rintro rfl <;> simp at hr
  have hbl : b ∈ l2.numbers ++ [kRootPage] := hb ▸ mem_cons_self
  have hbd : b ∈ d := by
    rw [h.mem_iff]
    rcases mem_append.1 hbl with hbl | hbl
    · simp [hbl]
    have hro := hva.root_mem (by simp)
    rw [← mem_singleton.1 hbl] at hro
    simp at hro ⊢
    tauto
  unfold emptiedPage
  rw [hpr, hnx, if_neg hne.1, if_neg hne.2]
  have ha : (a.1, a.2) ∈ l1 ++ a :: (page, es) :: l2 := by simp
  have hpa : (page, es) ∈ l1 ++ a :: (page, es) :: l2 := by simp
  obtain ⟨prev, hlk, -⟩ := h.lookup_of_mem ha
  rw [hlk]
  refine (modify_setIndexNext (h.mem_of_mem ha) b).bind fun d1 hre1 => ?_
  obtain ⟨next, hlk', -, -, hi⟩ := exists_lookup (hre1.mem_iff.2 hbd)
  rw [hlk']
  refine (modify_setIndexPrevious (hre1.mem_iff.2 hbd) a.1).bind fun d2 hre2 => ?_
  refine (eraseKey_spec (hre2.mem_iff.2 (hre1.mem_iff.2 (h.mem_of_mem hpa)))).bind fun d3 hre3 => ?_
  have h3 : Represents d3 (l1 ++ a :: l2) := by
    refine h.unlink hva hp hb ⟨?_, ?_, ?_⟩
    · rw [hre3.next_eq, hre2.next_eq, hre1.next_eq]
    · rw [hre3.prev_eq, hre2.prev_eq, hre1.prev_eq]
    · rw [hre3.indexes_eq, hre2.indexes_eq, hre1.indexes_eq]
  rw [dropEmptyNext_eq ?_]
  · exact dropEmptyRoot_spec h3 hva (by simp) (hva.alone_iff hb) keepRoot
  intro hbr
  obtain ⟨e, he, rfl⟩ := mem_map.1 ((mem_append.1 hbl).resolve_right (by simpa using hbr))
  rw [hre1.indexes_eq, (h.indexes e.1 e.2).2 (by simp [he])] at hi
  exact some.inj hi ▸ hva.nonempty e (by cases l1 <;> simp [he])

end

lemma dirRemove_spec [LinearOrder Key] {l : Pages Key} (h : Represents d l) (hva : l.Valid)
    (page : Nat) (key : Key) (keepRoot : Bool) : Succeeds (dirRemove page key keepRoot d) fun r =>
      r.1 = (l.remove page key keepRoot).1 ∧ Represents r.2 (l.remove page key keepRoot).2 := by
  unfold dirRemove remove
  cases hn : d.lookup page with
  | none =>
    have he : l.entries page = none := by
      rw [eq_none_iff_forall_ne_some]
      intro es hes
      exact lookup_eq_none.1 hn (h.mem_of_mem ((entries_eq_some hva.nodup).1 hes))
    rw [he]
    exact .pure ⟨rfl, h⟩
  | some node =>
    have hmem := h.mem_of_lookup hn
    rw [(entries_eq_some hva.nodup).2 hmem]
    dsimp only
    by_cases hkey : key ∈ node.indexes
    · rw [if_neg (not_not.2 hkey), if_neg (not_not.2 hkey)]
      refine (modify_setIndexes hn _).bind fun d1 hd1 => ?_
      have h1 := h.setEntries (mem_map_of_mem hmem) hd1.2
      have hv' := hva.takeOut hmem key
      by_cases hemp : node.indexes.erase key = []
      · rw [if_neg (by simp [hemp])]
        by_cases hp : page = kRootPage
        · have ht : l.takeOut page node.indexes key = l.setEntries page (node.indexes.erase key) :=
            if_neg fun hc => hc.2 hp
          rw [ht] at hv' ⊢
          subst hp
          exact emptiedRoot_spec h1 hv' hd1.1 hemp keepRoot
        · have ht : l.takeOut page node.indexes key = l.dropPage page := if_pos ⟨hemp, hp⟩
          obtain ⟨l1, a, l2, hnum, hdr, hs⟩ := hva.split_page hmem hp
          rw [ht, hdr] at hv' ⊢
          rw [if_neg hp]
          exact emptiedPage_spec (hs _ ▸ h1) hv' hnum hd1.1 keepRoot
      · have ht : l.takeOut page node.indexes key = l.setEntries page (node.indexes.erase key) :=
          if_neg fun hc => hemp hc.1
        rw [if_pos (by simpa using hemp), ht, collapse_eq_self]
        · exact .pure ⟨rfl, h1⟩
        intro _ hk
        rw [ht] at hv'
        refine hemp ((hv'.keys_eq_zero.1 hk).2 (page, node.indexes.erase key) ?_)
        exact (mem_setEntries (mem_map_of_mem hmem)).2 (by simp)
    · rw [if_pos hkey, if_pos hkey]
      exact .pure ⟨rfl, h⟩

/-! ### Deleting all pages -/

/-- The links run forward through the pages and to the root, and there are no other pages. -/
structure Runs (d : Directory Key) (l : Pages Key) : Prop where
  next : (l.numbers ++ [kRootPage]).IsChain fun a b => d.nextOf a = some b
  indexes : ∀ n es, d.indexesOf n = some es ↔ (n, es) ∈ l
  nodup : l.numbers.Nodup

namespace Runs

variable {l : Pages Key} {e : Nat × List Key} {pi : Option Nat}

private lemma erase (h : Runs d (e :: l)) : Runs (d.erase e.1) l := by
  obtain ⟨hne, hno⟩ := List.nodup_cons.1 h.nodup
  refine ⟨List.IsChain.imp_of_mem (isChain_of_isChain_cons h.next) fun a ha b _ hab => ?_, fun n es => ?_, hno⟩
  · rw [dropLast_concat] at ha
    rw [(reads_erase d e.1).next_eq, update_of_ne]
    · exact hab
    · rintro rfl
      exact hne ha
  · rw [(reads_erase d e.1).indexes_eq]
    by_cases hn : n = e.1
    · subst hn
      simpa using fun hes => hne (mem_map_of_mem (a := (e.1, es)) hes)
    · simpa [hn, Prod.ext_iff] using h.indexes n es

private lemma dirDeleteFrom_eq (h : Runs d (e :: l)) (hpi : pi.getD 0 = e.1) :
    ∃ page, d.lookup e.1 = some page ∧ dirDeleteFrom d pi = match page.indexNext with
      | none => (true, e.2, d.erase e.1)
      | some next =>
        let r := dirDeleteFrom (d.erase e.1) (some next)
        (r.1, e.2 ++ r.2.1, r.2.2) := by
  obtain ⟨page, hp, hes⟩ := map_eq_some_iff.1 ((h.indexes e.1 e.2).2 mem_cons_self)
  refine ⟨page, hp, ?_⟩
  rw [← hpi] at hp ⊢
  rw [dirDeleteFrom, ← hes]
  split
  · simp_all
  · obtain rfl := Option.some.inj (hp.symm.trans ‹_›)
    rfl

private lemma notMem_of_nil (h : Runs d []) (n : Nat) : n ∉ d := by
  intro hn
  obtain ⟨es, hes⟩ := isSome_iff_exists.1 (indexesOf_isSome.2 hn)
  simpa using (h.indexes n es).1 hes

/-- Along the links all pages are deleted; whether the result tells so depends on the link of the last one. -/
lemma dirDeleteFrom_spec (h : Runs d (e :: l)) (hr : kRootPage ∉ l.numbers) (hpi : pi.getD 0 = e.1) :
    let r := dirDeleteFrom d pi
    r.2.1 = (e :: l).flatMap Prod.snd ∧ (∀ n, n ∉ r.2.2) ∧
      (r.1 = true ↔ ∀ n p, d.lookup n = some p → p.indexNext ≠ some kRootPage) := by
  induction l generalizing d pi e with
  | nil =>
    obtain ⟨page, hpa, heq⟩ := h.dirDeleteFrom_eq hpi
    have hg := h.erase.notMem_of_nil
    have hl : page.getIndexNext = kRootPage := by
      simpa [nextOf, hpa] using (isChain_cons_cons.1 h.next).1
    rw [heq]
    cases hnx : page.indexNext with
    | none =>
      refine ⟨by simp, hg, iff_of_true rfl fun n p hp => ?_⟩
      obtain rfl | hn := eq_or_ne n e.1
      · obtain rfl := Option.some.inj (hpa.symm.trans hp)
        simp [hnx]
      · exact absurd (lookup_isSome.1 (by simp [hn, hp])) (hg n)
    | some next =>
      -- the loop looks for the root, which it has deleted
      obtain rfl : next = kRootPage := by simpa [getIndexNext, hnx] using hl
      have he : dirDeleteFrom (d.erase e.1) (some kRootPage) = (false, [], d.erase e.1) := by
        rw [dirDeleteFrom]
        split
        · rfl
        · exact absurd (lookup_isSome.1 (by simp_all)) (hg kRootPage)
      simp only [he]
      exact ⟨by simp, hg, iff_of_false Bool.false_ne_true fun hla => hla _ _ hpa hnx⟩
  | cons e' l ih =>
    obtain ⟨page, hpa, heq⟩ := h.dirDeleteFrom_eq hpi
    have hl : page.getIndexNext = e'.1 := by
      simpa [nextOf, hpa] using (isChain_cons_cons.1 h.next).1
    have hnx : page.indexNext = some e'.1 := by
      cases hnx : page.indexNext with
      | none =>
        rw [getIndexNext, hnx] at hl
        exact absurd (mem_cons.2 (.inl hl)) hr
      | some next => simpa [getIndexNext, hnx] using hl
    rw [heq, hnx]
    have hpi : (some e'.1).getD 0 = e'.1 := rfl
    obtain ⟨hc, hg, ht⟩ := ih h.erase (fun hmem => hr (by simp [hmem])) hpi
    refine ⟨by simp [hc], hg, ht.trans ⟨fun hla n p hp => ?_, fun hla n p hp => hla n p ?_⟩⟩
    · obtain rfl | hn := eq_or_ne n e.1
      · obtain rfl := Option.some.inj (hpa.symm.trans hp)
        simpa [hnx] using fun he => hr (mem_cons.2 (.inl he.symm))
      · exact hla n p (by rwa [HashMap.lookup_drop, if_neg hn])
    · rw [HashMap.lookup_drop] at hp
      split_ifs at hp
      exact hp

end Runs

end Xrpl.Ledger.Directory

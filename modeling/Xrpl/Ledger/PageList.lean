import Mathlib.Tactic.Abel
import Xrpl.Ledger.Directory

/-!
# Directories as lists of pages

What a directory is for: a list of pages with increasing numbers, where a key is added to the last page or to a new one
after it, stays on its page until it is removed, and a page goes when its last key goes.

* `Pages.add`, `Pages.remove`, `Pages.deleteEmpty`: the operations;
* `Pages.Valid`: what makes a list of pages a directory, and `PageList`: such a list;
* `Pages.Located`: a key is on a page, and what the operations do to the keys and their pages.
-/

namespace Xrpl.Ledger

open List Option Multiset

/-- The pages of a directory in their order, with their numbers and entries. -/
abbrev Pages (Key : Type) := List (Nat × List Key)

namespace Pages

variable {Key : Type}

section

variable (l : Pages Key)

def numbers : List Nat := l.map Prod.fst

def keys : Multiset Key := (l.flatMap Prod.snd : List Key)

def Located (n : Nat) (x : Key) : Prop := ∃ es, (n, es) ∈ l ∧ x ∈ es

def setEntries (n : Nat) (es : List Key) : Pages Key := l.map fun e => if e.1 = n then (e.1, es) else e

def dropPage (n : Nat) : Pages Key := l.filter fun e => e.1 ≠ n

def entries (n : Nat) : Option (List Key) := (l.find? fun e => e.1 = n).map Prod.snd

end

def limit (fixDirectoryLimit : Bool) : Nat := if fixDirectoryLimit then 2 ^ 64 else kDirNodeMaxPages

section

variable [LinearOrder Key]

/-- The key among the entries of a page, at the end or in its place. -/
def place (preserveOrder : Bool) (es : List Key) (key : Key) : List Key :=
  if preserveOrder then es ++ [key]
  else
    let es := es.insertionSort (· ≤ ·)
    es.takeWhile (· < key) ++ key :: es.dropWhile (· < key)

/-- Add a key to the last page, or to a new one when that is full; the page, unless there are no more page numbers. -/
def add (fixDirectoryLimit preserveOrder : Bool) (key : Key) (l : Pages Key) : Option Nat × Pages Key :=
  match l.getLast? with
  | none => (some kRootPage, [(kRootPage, [key])])
  | some (page, es) =>
    if es.length < kDirNodeMaxEntries then (some page, l.setEntries page (place preserveOrder es key))
    else if page + 1 < limit fixDirectoryLimit then (some (page + 1), l ++ [(page + 1, [key])])
    else (none, l)

end

section

variable [DecidableEq Key]

/-- Without the key on the page, and without the page if it is empty now and not the root. -/
def takeOut (page : Nat) (es : List Key) (key : Key) (l : Pages Key) : Pages Key :=
  if es.erase key = [] ∧ page ≠ kRootPage then l.dropPage page else l.setEntries page (es.erase key)

def collapse (keepRoot : Bool) (l : Pages Key) : Pages Key := if ¬keepRoot ∧ l.keys = 0 then [] else l

def remove (page : Nat) (key : Key) (keepRoot : Bool) (l : Pages Key) : Bool × Pages Key :=
  match l.entries page with
  | none => (false, l)
  | some es =>
    if key ∉ es then (false, l)
    else (true, (takeOut page es key l).collapse keepRoot)

end

/-- Delete the directory if it is empty.  The result tells nothing of that when the root is empty and there are more than
two pages. -/
def deleteEmpty : Pages Key → Bool × Pages Key
  | [(_, [])] => (true, [])
  | (n, []) :: e :: e' :: l => (true, (n, []) :: e :: e' :: l)
  | l => (false, l)

@[simp] lemma numbers_nil : numbers ([] : Pages Key) = [] := rfl

@[simp] lemma numbers_cons (e : Nat × List Key) (l : Pages Key) : numbers (e :: l) = e.1 :: numbers l := rfl

@[simp] lemma numbers_append (l l' : Pages Key) : numbers (l ++ l') = numbers l ++ numbers l' := map_append

variable {l : Pages Key} {x : Key} {n : Nat} {es : List Key} {l1 l2 : Pages Key} {m : Nat}

lemma mem_keys : x ∈ l.keys ↔ ∃ n, l.Located n x := by
  simp [keys, Located]

private lemma keys_append (l l' : Pages Key) : keys (l ++ l') = keys l + keys l' := by
  simp [keys]

private lemma keys_cons (e : Nat × List Key) (l : Pages Key) : keys (e :: l) = (e.2 : Multiset Key) + keys l := by
  simp [keys]

private lemma split_of_mem (hl : l.numbers.Nodup) (h : (n, es) ∈ l) :
    ∃ l1 l2 : Pages Key, l = l1 ++ (n, es) :: l2 ∧ n ∉ l1.numbers ∧ n ∉ l2.numbers := by
  obtain ⟨l1, l2, rfl⟩ := append_of_mem h
  rw [numbers, List.map_append, List.map_cons, List.nodup_middle, List.nodup_cons, List.mem_append] at hl
  exact ⟨l1, l2, rfl, fun hn => hl.1 (.inl hn), fun hn => hl.1 (.inr hn)⟩

lemma entries_eq_some (hl : l.numbers.Nodup) : l.entries n = some es ↔ (n, es) ∈ l := by
  constructor
  · intro h
    obtain ⟨e, he, rfl⟩ := map_eq_some_iff.1 h
    obtain rfl : e.1 = n := by simpa using find?_some he
    exact mem_of_find?_eq_some he
  · intro h
    obtain ⟨l1, l2, rfl, h1, -⟩ := split_of_mem hl h
    have hno : l1.find? (fun e => e.1 = n) = none := by
      rw [find?_eq_none]
      intro e he hn
      exact h1 (mem_map.2 ⟨e, he, by simpa using hn⟩)
    simp [entries, hno]

private lemma setEntries_eq_self (h : n ∉ l.numbers) (es : List Key) : l.setEntries n es = l := by
  refine (map_congr_left fun e he => if_neg ?_).trans (map_id l)
  rintro rfl
  exact h (mem_map_of_mem he)

private lemma setEntries_split (h1 : n ∉ l1.numbers) (h2 : n ∉ l2.numbers) (es es' : List Key) :
    setEntries (l1 ++ (n, es) :: l2) n es' = l1 ++ (n, es') :: l2 := by
  rw [setEntries, List.map_append, List.map_cons, if_pos rfl]
  exact congrArg₂ _ (setEntries_eq_self h1 es') (congrArg _ (setEntries_eq_self h2 es'))

private lemma dropPage_eq_self (h : n ∉ l.numbers) : l.dropPage n = l := by
  refine filter_eq_self.2 fun e he => ?_
  simp only [decide_eq_true_eq]
  rintro rfl
  exact h (mem_map_of_mem he)

private lemma dropPage_split (h1 : n ∉ l1.numbers) (h2 : n ∉ l2.numbers) (es : List Key) :
    dropPage (l1 ++ (n, es) :: l2) n = l1 ++ l2 := by
  rw [dropPage, filter_append, filter_cons_of_neg (by simp)]
  exact congrArg₂ _ (dropPage_eq_self h1) (dropPage_eq_self h2)

lemma numbers_setEntries (l : Pages Key) (n : Nat) (es : List Key) : (l.setEntries n es).numbers = l.numbers := by
  rw [numbers, setEntries, List.map_map]
  refine map_congr_left fun e _ => ?_
  dsimp only [Function.comp]
  split_ifs <;> rfl

lemma mem_setEntries {es' : List Key} (h : n ∈ l.numbers) :
    (m, es) ∈ l.setEntries n es' ↔ if m = n then es = es' else (m, es) ∈ l := by
  by_cases hm : m = n
  · subst hm
    obtain ⟨e, he, rfl⟩ := mem_map.1 h
    rw [if_pos rfl, setEntries, List.mem_map]
    constructor
    · rintro ⟨e', -, heq⟩
      by_cases he' : e'.1 = e.1
      · rw [if_pos he'] at heq
        exact (Prod.mk.inj heq).2.symm
      · rw [if_neg he'] at heq
        exact absurd (congrArg Prod.fst heq) he'
    · rintro rfl
      exact ⟨e, he, if_pos rfl⟩
  · rw [if_neg hm, setEntries, List.mem_map]
    constructor
    · rintro ⟨e', he', heq⟩
      by_cases hn : e'.1 = n
      · rw [if_pos hn] at heq
        exact absurd ((Prod.mk.inj heq).1.symm.trans hn) hm
      · rw [if_neg hn] at heq
        rwa [← heq]
    · exact fun he => ⟨(m, es), he, if_neg hm⟩

/-! ### Directories -/

/-- What makes a list of pages a directory. -/
structure Valid (l : Pages Key) : Prop where
  sorted : l.numbers.Pairwise (· < ·)
  root : ∀ e ∈ l.head?, e.1 = kRootPage
  nonempty : ∀ e ∈ l.tail, e.2 ≠ []
  small : ∀ e ∈ l, e.2.length ≤ kDirNodeMaxEntries
  bounded : ∀ e ∈ l, e.1 < 2 ^ 64

lemma Valid.nodup (h : Valid l) : l.numbers.Nodup := h.sorted.imp Nat.ne_of_lt

private lemma valid_nil : Valid ([] : Pages Key) := ⟨by simp [numbers], by simp, by simp, by simp, by simp⟩

lemma Valid.ne_root (h : Valid l) {e : Nat × List Key} (he : e ∈ l.tail) : e.1 ≠ kRootPage := by
  cases l with
  | nil => simp at he
  | cons r l =>
    have hs := h.sorted
    rw [numbers, List.map_cons, List.pairwise_cons] at hs
    exact Nat.ne_of_gt (Nat.lt_of_le_of_lt (Nat.zero_le _) (hs.1 e.1 (mem_map_of_mem he)))

lemma Valid.ne_nil_of_ne_root (h : Valid l) (hes : (n, es) ∈ l) (hn : n ≠ kRootPage) : es ≠ [] := by
  cases l with
  | nil => simp at hes
  | cons r l =>
    rcases mem_cons.1 hes with heq | hes
    · exact absurd (h.root (n, es) (by rw [heq]; rfl)) hn
    · exact h.nonempty _ hes

lemma Valid.ne_root_of_mem_tail (h : Valid l) (hn : n ∈ l.numbers.tail) : n ≠ kRootPage := by
  rw [numbers, ← map_tail] at hn
  obtain ⟨e, he, rfl⟩ := mem_map.1 hn
  exact h.ne_root he

lemma Valid.root_mem (h : Valid l) (hl : l ≠ []) : kRootPage ∈ l.numbers := by
  cases l with
  | nil => exact absurd rfl hl
  | cons r l => exact mem_map.2 ⟨r, by simp, h.root r (by simp)⟩

lemma Valid.notMem_ring (h : Valid l) (hl : l ≠ []) (hn : n ∉ l.numbers) : n ∉ l.numbers ++ [kRootPage] := by
  rw [List.mem_append, List.mem_singleton]
  rintro (hmem | rfl)
  · exact hn hmem
  · exact hn (h.root_mem hl)

variable {a : Nat × List Key} {b : Nat} {rest : List Nat} {page : Nat}

section

variable (h : Valid (l1 ++ a :: l2)) (hb : l2.numbers ++ [kRootPage] = b :: rest)

include h hb

/-- On the way around the ring, the page `a` and the page after it come once. -/
lemma Valid.ring_split : a.1 ∉ l1.numbers ++ (b :: rest).dropLast ∧ b ∉ (l1.numbers ++ [a.1]).tail ++ rest := by
  constructor
  · have hno := h.nodup
    rw [numbers, List.map_append, List.map_cons, List.nodup_middle, List.nodup_cons] at hno
    rw [← hb, dropLast_concat]
    exact hno.1
  · have hr : ((numbers (l1 ++ a :: l2)).tail ++ [kRootPage]).Nodup :=
      List.Nodup.append h.nodup.tail (List.nodup_singleton _) fun _ hn hro =>
        h.ne_root_of_mem_tail hn (List.mem_singleton.1 hro)
    have ht : (numbers (l1 ++ a :: l2)).tail ++ [kRootPage] = (l1.numbers ++ [a.1]).tail ++ b :: rest := by
      rw [← hb]
      cases l1 <;> simp [numbers]
    rw [ht, List.nodup_middle, List.nodup_cons] at hr
    exact hr.1

/-- The pages before and after one that is left out are the root when no other page is left. -/
lemma Valid.alone_iff : b = kRootPage ∧ a.1 = kRootPage ↔ (l1 ++ a :: l2).tail = [] := by
  cases l2 with
  | nil =>
    obtain rfl : kRootPage = b := (cons.inj hb).1
    cases l1 with
    | nil => simpa using h.root a rfl
    | cons r l1 => simpa using h.ne_root (e := a) (by simp)
  | cons e l2 =>
    obtain rfl : e.1 = b := (cons.inj hb).1
    have hne : e.1 ≠ kRootPage := h.ne_root (by cases l1 <;> simp)
    cases l1 <;> simp [hne]

end

section

variable (h : Valid l)

include h

private lemma Valid.setEntries (hne : es ≠ [] ∨ n = kRootPage)
    (hsm : es.length ≤ kDirNodeMaxEntries) : Valid (l.setEntries n es) where
  sorted := by
    rw [numbers_setEntries]
    exact h.sorted
  root := by
    intro e he
    rw [Pages.setEntries, head?_map] at he
    obtain ⟨e', he', rfl⟩ := map_eq_some_iff.1 he
    split_ifs <;> exact h.root e' he'
  nonempty := by
    intro e he
    rw [Pages.setEntries, ← map_tail] at he
    obtain ⟨e', he', rfl⟩ := mem_map.1 he
    by_cases hn : e'.1 = n
    · simp only [if_pos hn]
      exact hne.resolve_right fun hr => h.ne_root he' (hn.trans hr)
    · simp only [if_neg hn]
      exact h.nonempty e' he'
  small := by
    intro e he
    obtain ⟨e', he', rfl⟩ := mem_map.1 he
    split_ifs
    · exact hsm
    · exact h.small e' he'
  bounded := by
    intro e he
    obtain ⟨e', he', rfl⟩ := mem_map.1 he
    split_ifs <;> exact h.bounded e' he'

private lemma Valid.append (hl : l ≠ []) (hgt : ∀ m ∈ l.numbers, m < n)
    (hne : es ≠ []) (hsm : es.length ≤ kDirNodeMaxEntries) (hbd : n < 2 ^ 64) : Valid (l ++ [(n, es)]) where
  sorted := by
    rw [numbers, map_append, pairwise_append]
    refine ⟨h.sorted, by simp, fun m hm n' hn' => ?_⟩
    obtain rfl : n' = n := by simpa using hn'
    exact hgt m hm
  root := by
    intro e he
    rw [head?_append_of_ne_nil l hl] at he
    exact h.root e he
  nonempty := by
    intro e he
    rw [tail_append_of_ne_nil hl, mem_append] at he
    rcases he with he | he
    · exact h.nonempty e he
    · obtain rfl : e = (n, es) := by simpa using he
      exact hne
  small := by
    intro e he
    rcases mem_append.1 he with he | he
    · exact h.small e he
    · obtain rfl : e = (n, es) := by simpa using he
      exact hsm
  bounded := by
    intro e he
    rcases mem_append.1 he with he | he
    · exact h.bounded e he
    · obtain rfl : e = (n, es) := by simpa using he
      exact hbd

private lemma Valid.dropPage (hn : n ≠ kRootPage) : Valid (l.dropPage n) := by
  have hsub := h.sorted.sublist ((filter_sublist (p := fun e => e.1 ≠ n)).map _)
  cases l with
  | nil => exact h
  | cons r l =>
    have hr : r.1 = kRootPage := h.root r rfl
    refine ⟨hsub, ?_, ?_, fun e he => h.small e (mem_of_mem_filter he), fun e he => h.bounded e (mem_of_mem_filter he)⟩
    all_goals rw [Pages.dropPage, List.filter_cons_of_pos (by simpa using fun heq => hn (heq.symm.trans hr))]
    · exact h.root
    · exact fun e he => h.nonempty e (mem_of_mem_filter he)

lemma Valid.keys_eq_zero : l.keys = 0 ↔ l.tail = [] ∧ ∀ e ∈ l, e.2 = [] := by
  have hk : l.keys = 0 ↔ ∀ e ∈ l, e.2 = [] := by simp [keys]
  refine hk.trans ⟨fun ha => ⟨?_, ha⟩, And.right⟩
  refine eq_nil_iff_forall_not_mem.2 fun e he => h.nonempty e he (ha e (mem_of_mem_tail he))

lemma Valid.split_page (hes : (page, es) ∈ l)
    (hp : page ≠ kRootPage) : ∃ (l1 : Pages Key) (a : Nat × List Key) (l2 : Pages Key),
      page ∉ numbers (l1 ++ a :: l2) ∧ l.dropPage page = l1 ++ a :: l2 ∧
      ∀ es', l.setEntries page es' = l1 ++ a :: (page, es') :: l2 := by
  obtain ⟨l', l2, rfl, h1, h2⟩ := split_of_mem h.nodup hes
  rcases eq_nil_or_concat l' with rfl | ⟨l1, a, rfl⟩
  · exact absurd (h.root _ rfl) hp
  refine ⟨l1, a, l2, ?_, ?_, fun es' => ?_⟩
  · rw [concat_eq_append, numbers_append, mem_append] at h1
    simp only [numbers_append, numbers_cons, List.mem_append, List.mem_cons]
    simp only [numbers_cons, numbers_nil, List.mem_singleton] at h1
    tauto
  · rw [dropPage_split h1 h2]
    simp
  · rw [setEntries_split h1 h2]
    simp

lemma Valid.le_last (hl : l.getLast? = some (page, es)) (hm : m ∈ l.numbers) : m ≤ page := by
  obtain ⟨l', rfl⟩ := getLast?_eq_some_iff.1 hl
  have hs := h.sorted
  rw [numbers, map_append, mem_append] at hm
  rw [numbers, map_append, pairwise_append] at hs
  rcases hm with hm | hm
  · exact (hs.2.2 m hm page (by simp)).le
  · exact le_of_eq (by simpa using hm)

end

private lemma located_setEntries (h : n ∈ l.numbers) :
    (l.setEntries n es).Located m x ↔ if m = n then x ∈ es else l.Located m x := by
  simp only [Located, mem_setEntries h]
  split_ifs <;> simp

private lemma located_dropPage : (l.dropPage n).Located m x ↔ m ≠ n ∧ l.Located m x := by
  simp [Located, dropPage, and_comm, and_left_comm]

private lemma located_append : Located (l ++ [(n, es)]) m x ↔ l.Located m x ∨ m = n ∧ x ∈ es := by
  simp only [Located, List.mem_append, List.mem_singleton, Prod.mk.injEq, or_and_right, exists_or]
  refine or_congr_right ⟨?_, ?_⟩
  · rintro ⟨_, ⟨rfl, rfl⟩, hx⟩
    exact ⟨rfl, hx⟩
  · rintro ⟨rfl, hx⟩
    exact ⟨es, ⟨rfl, rfl⟩, hx⟩

section

variable (hl : l.numbers.Nodup) (h : (n, es) ∈ l)

include hl h

private lemma located_iff : l.Located n x ↔ x ∈ es := by
  constructor
  · rintro ⟨es', hes', hx⟩
    rw [← entries_eq_some hl] at h hes'
    obtain rfl := some.inj (hes'.symm.trans h)
    exact hx
  · exact fun hx => ⟨es, h, hx⟩

private lemma keys_setEntries
    (es' : List Key) : (l.setEntries n es').keys + (es : Multiset Key) = l.keys + (es' : Multiset Key) := by
  obtain ⟨l1, l2, rfl, h1, h2⟩ := split_of_mem hl h
  rw [setEntries_split h1 h2]
  simp only [keys_append, keys_cons]
  abel

private lemma keys_dropPage : (l.dropPage n).keys + (es : Multiset Key) = l.keys := by
  obtain ⟨l1, l2, rfl, h1, h2⟩ := split_of_mem hl h
  rw [dropPage_split h1 h2]
  simp only [keys_append, keys_cons]
  abel

end

lemma limit_le (fixDirectoryLimit : Bool) : limit fixDirectoryLimit ≤ 2 ^ 64 := by
  cases fixDirectoryLimit <;> decide

section

variable [LinearOrder Key]

private lemma place_perm (preserveOrder : Bool) (es : List Key) (key : Key) :
    (place preserveOrder es key).Perm (key :: es) := by
  cases preserveOrder with
  | true => exact perm_append_singleton key es
  | false =>
    refine perm_middle.trans (List.Perm.cons key ?_)
    rw [takeWhile_append_dropWhile]
    exact perm_insertionSort _ es

/-- What adding does: nothing, a first page, one more key on the last page, or one more page. -/
private lemma add_cases (fix order : Bool) (key : Key) (l : Pages Key) :
    (l = [] ∧ l.add fix order key = (some kRootPage, [(kRootPage, [key])])) ∨
    ∃ page es, l.getLast? = some (page, es) ∧
      ((es.length < kDirNodeMaxEntries ∧ l.add fix order key = (some page, l.setEntries page (place order es key))) ∨
      (page + 1 < limit fix ∧ l.add fix order key = (some (page + 1), l ++ [(page + 1, [key])])) ∨
      l.add fix order key = (none, l)) := by
  unfold add
  cases hl : l.getLast? with
  | none => exact .inl ⟨getLast?_eq_none_iff.1 hl, rfl⟩
  | some e =>
    refine .inr ⟨e.1, e.2, rfl, ?_⟩
    by_cases hlen : e.2.length < kDirNodeMaxEntries
    · exact .inl ⟨hlen, if_pos hlen⟩
    · by_cases hlim : e.1 + 1 < limit fix
      · exact .inr (.inl ⟨hlim, (if_neg hlen).trans (if_pos hlim)⟩)
      · exact .inr (.inr ((if_neg hlen).trans (if_neg hlim)))

private lemma Valid.add (h : Valid l) (fix order : Bool) (key : Key) : Valid (l.add fix order key).2 := by
  have ho : ([key] : List Key).length ≤ kDirNodeMaxEntries := by simp [kDirNodeMaxEntries]
  rcases add_cases fix order key l with ⟨-, heq⟩ | ⟨page, es, hl, ⟨hlen, heq⟩ | ⟨hlim, heq⟩ | heq⟩ <;> rw [heq]
  · exact ⟨by simp [numbers], by simp, by simp, by simpa using ho, by simp [kRootPage]⟩
  · have hp := place_perm order es key
    refine h.setEntries (.inl fun hn => ?_) (hp.length_eq.trans_le hlen)
    simp [hn] at hp
  · refine h.append (fun hn => by simp [hn] at hl) (fun m hm => ?_) (by simp) ho (hlim.trans_le (limit_le fix))
    exact Nat.lt_succ_of_le (h.le_last hl hm)
  · exact h

lemma Valid.located_add (h : Valid l) (fix order : Bool) (key : Key)
    (hx : l.Located n x) : (l.add fix order key).2.Located n x := by
  rcases add_cases fix order key l with ⟨rfl, heq⟩ | ⟨page, es, hl, ⟨hlen, heq⟩ | ⟨hlim, heq⟩ | heq⟩ <;> rw [heq]
  · obtain ⟨es, hes, -⟩ := hx
    simp at hes
  · have hmem := mem_of_getLast? hl
    rw [located_setEntries (mem_map_of_mem hmem)]
    by_cases hn : n = page
    · subst hn
      rw [if_pos rfl, (place_perm order es key).mem_iff]
      exact mem_cons_of_mem _ ((located_iff h.nodup hmem).1 hx)
    · rwa [if_neg hn]
  · exact located_append.2 (.inl hx)
  · exact hx

lemma Valid.located_of_add (h : Valid l) {fix order : Bool} {key : Key}
    (hp : (l.add fix order key).1 = some page) : (l.add fix order key).2.Located page key := by
  rcases add_cases fix order key l with ⟨rfl, heq⟩ | ⟨last, es, hl, ⟨hlen, heq⟩ | ⟨hlim, heq⟩ | heq⟩ <;>
    rw [heq] at hp ⊢
  · obtain rfl := some.inj hp
    exact ⟨[key], by simp⟩
  · obtain rfl := some.inj hp
    rw [located_setEntries (mem_map_of_mem (mem_of_getLast? hl)), if_pos rfl, (place_perm order es key).mem_iff]
    exact mem_cons_self
  · obtain rfl := some.inj hp
    exact located_append.2 (.inr (by simp))
  · cases hp

lemma Valid.keys_add (h : Valid l) (fix order : Bool) (key : Key) :
    (l.add fix order key).2.keys = if (l.add fix order key).1.isSome then key ::ₘ l.keys else l.keys := by
  rcases add_cases fix order key l with ⟨rfl, heq⟩ | ⟨page, es, hl, ⟨hlen, heq⟩ | ⟨hlim, heq⟩ | heq⟩ <;> rw [heq]
  · rfl
  · have hk := keys_setEntries h.nodup (mem_of_getLast? hl) (place order es key)
    rw [coe_eq_coe.2 (place_perm order es key), ← cons_coe, add_cons] at hk
    exact add_right_cancel hk
  · simp [keys]
  · rfl

end

section

variable [DecidableEq Key] {keepRoot : Bool} {key : Key}

lemma collapse_eq_self (h : keepRoot = false → l.keys ≠ 0) : l.collapse keepRoot = l :=
  if_neg fun hc => h (by simpa using hc.1) hc.2

private lemma Valid.collapse (h : Valid l) (keepRoot : Bool) : Valid (l.collapse keepRoot) := by
  unfold Pages.collapse
  split_ifs
  · exact valid_nil
  · exact h

private lemma keys_collapse (l : Pages Key) (keepRoot : Bool) : (l.collapse keepRoot).keys = l.keys := by
  unfold collapse
  split_ifs with hc
  · exact hc.2.symm
  · rfl

private lemma located_collapse : (l.collapse keepRoot).Located n x ↔ l.Located n x := by
  unfold collapse
  split_ifs with hc
  · have hn : ∀ l' : Pages Key, l'.keys = 0 → ¬l'.Located n x := fun l' hl' hloc => by
      have hmem := mem_keys.2 ⟨n, hloc⟩
      simp [hl'] at hmem
    exact iff_of_false (hn _ rfl) (hn _ hc.2)
  · rfl

variable (h : Valid l)

include h

/-- What removing does: nothing when the key is not on the page; else the key is taken out. -/
private lemma remove_cases (page : Nat) (key : Key) (keepRoot : Bool) :
    (¬l.Located page key ∧ l.remove page key keepRoot = (false, l)) ∨
    ∃ es, (page, es) ∈ l ∧ key ∈ es ∧
      l.remove page key keepRoot = (true, (l.takeOut page es key).collapse keepRoot) := by
  unfold remove
  cases hes : l.entries page with
  | none =>
    refine .inl ⟨?_, rfl⟩
    rintro ⟨es, hmem, -⟩
    rw [(entries_eq_some h.nodup).2 hmem] at hes
    cases hes
  | some es =>
    have hmem := (entries_eq_some h.nodup).1 hes
    by_cases hk : key ∈ es
    · exact .inr ⟨es, hmem, hk, if_neg (not_not.2 hk)⟩
    · exact .inl ⟨fun hloc => hk ((located_iff h.nodup hmem).1 hloc), if_pos hk⟩

lemma Valid.takeOut (hes : (page, es) ∈ l) (key : Key) : Valid (l.takeOut page es key) := by
  unfold Pages.takeOut
  by_cases hd : es.erase key = [] ∧ page ≠ kRootPage
  · rw [if_pos hd]
    exact h.dropPage hd.2
  · rw [if_neg hd]
    have hne : es.erase key ≠ [] ∨ page = kRootPage := by tauto
    exact h.setEntries hne (length_erase_le.trans (h.small _ hes))

private lemma keys_takeOut (hes : (page, es) ∈ l) (hkey : key ∈ es) :
    key ::ₘ (l.takeOut page es key).keys = l.keys := by
  have hc : (es : Multiset Key) = key ::ₘ ↑(es.erase key) := by
    rw [cons_coe, coe_eq_coe]
    exact perm_cons_erase hkey
  unfold Pages.takeOut
  by_cases hd : es.erase key = [] ∧ page ≠ kRootPage
  · rw [if_pos hd, ← keys_dropPage h.nodup hes, hc, hd.1]
    simp [add_comm]
  rw [if_neg hd]
  have hk := keys_setEntries h.nodup hes (es.erase key)
  rw [hc, add_cons, ← cons_add] at hk
  exact add_right_cancel hk

private lemma located_takeOut (hes : (page, es) ∈ l)
    (hx : x ≠ key) : (l.takeOut page es key).Located n x ↔ l.Located n x := by
  unfold Pages.takeOut
  by_cases hd : es.erase key = [] ∧ page ≠ kRootPage
  · rw [if_pos hd, located_dropPage]
    refine and_iff_right_of_imp fun hloc => ?_
    rintro rfl
    have hmem := (List.mem_erase_of_ne hx).2 ((located_iff h.nodup hes).1 hloc)
    simp [hd.1] at hmem
  · rw [if_neg hd, located_setEntries (mem_map_of_mem hes)]
    by_cases hn : n = page
    · subst hn
      rw [if_pos rfl, located_iff h.nodup hes, List.mem_erase_of_ne hx]
    · rw [if_neg hn]

lemma Valid.remove (page : Nat) (key : Key) (keepRoot : Bool) : Valid (l.remove page key keepRoot).2 := by
  rcases remove_cases h page key keepRoot with ⟨-, heq⟩ | ⟨es, hes, -, heq⟩ <;> rw [heq]
  · exact h
  · exact (h.takeOut hes key).collapse keepRoot

lemma Valid.remove_fst (page : Nat) (key : Key) (keepRoot : Bool) :
    (l.remove page key keepRoot).1 = true ↔ l.Located page key := by
  rcases remove_cases h page key keepRoot with ⟨hloc, heq⟩ | ⟨es, hes, hk, heq⟩ <;> rw [heq]
  · simpa using hloc
  · exact iff_of_true rfl ⟨es, hes, hk⟩

lemma Valid.remove_eq_self (hf : (l.remove page key keepRoot).1 = false) : (l.remove page key keepRoot).2 = l := by
  rcases remove_cases h page key keepRoot with ⟨-, heq⟩ | ⟨es, -, -, heq⟩ <;> rw [heq] at hf ⊢
  cases hf

lemma Valid.keys_remove (page : Nat) (key : Key) (keepRoot : Bool) :
    l.keys = if (l.remove page key keepRoot).1 then key ::ₘ (l.remove page key keepRoot).2.keys
      else (l.remove page key keepRoot).2.keys := by
  rcases remove_cases h page key keepRoot with ⟨-, heq⟩ | ⟨es, hes, hk, heq⟩ <;> rw [heq]
  · rfl
  · rw [if_pos rfl, keys_collapse, keys_takeOut h hes hk]

lemma Valid.located_remove (page : Nat) (keepRoot : Bool)
    (hx : x ≠ key) : (l.remove page key keepRoot).2.Located n x ↔ l.Located n x := by
  rcases remove_cases h page key keepRoot with ⟨-, heq⟩ | ⟨es, hes, hk, heq⟩ <;> rw [heq]
  exact located_collapse.trans (located_takeOut h hes hx)

end

private lemma deleteEmpty_cases (l : Pages Key) :
    (∃ n, l = [(n, [])] ∧ l.deleteEmpty = (true, [])) ∨ l.deleteEmpty.2 = l := by
  unfold deleteEmpty
  split
  · exact .inl ⟨_, rfl, rfl⟩
  · exact .inr rfl
  · exact .inr rfl

private lemma Valid.deleteEmpty (h : Valid l) : Valid l.deleteEmpty.2 := by
  rcases deleteEmpty_cases l with ⟨n, -, heq⟩ | heq <;> rw [heq]
  · exact valid_nil
  · exact h

lemma located_deleteEmpty (l : Pages Key) : l.deleteEmpty.2.Located n x ↔ l.Located n x := by
  rcases deleteEmpty_cases l with ⟨n, rfl, heq⟩ | heq <;> rw [heq]
  simp [Located]

lemma keys_deleteEmpty (l : Pages Key) : l.deleteEmpty.2.keys = l.keys := by
  rcases deleteEmpty_cases l with ⟨n, rfl, heq⟩ | heq <;> rw [heq]
  rfl

end Pages

structure PageList (Key : Type) where
  pages : Pages Key
  valid : pages.Valid

namespace PageList

variable {Key : Type}

def empty : PageList Key := ⟨[], Pages.valid_nil⟩

def add [LinearOrder Key] (fixDirectoryLimit preserveOrder : Bool) (key : Key) (l : PageList Key) :
    Option Nat × PageList Key :=
  let r := l.pages.add fixDirectoryLimit preserveOrder key
  (r.1, ⟨r.2, l.valid.add fixDirectoryLimit preserveOrder key⟩)

def remove [DecidableEq Key] (page : Nat) (key : Key) (keepRoot : Bool) (l : PageList Key) : Bool × PageList Key :=
  let r := l.pages.remove page key keepRoot
  (r.1, ⟨r.2, l.valid.remove page key keepRoot⟩)

def deleteEmpty (l : PageList Key) : Bool × PageList Key :=
  let r := l.pages.deleteEmpty
  (r.1, ⟨r.2, l.valid.deleteEmpty⟩)

end PageList

end Xrpl.Ledger

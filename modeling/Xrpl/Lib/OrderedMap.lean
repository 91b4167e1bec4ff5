import Mathlib.Data.List.Sort

/-!
# Maps in the order of their keys

`OrderedMap K V` keeps its entries in the order of the keys, each key once.

* `find`, `erase`, `modify`, `emplace`, `filter` and what `find` gives after each of them;
* `next`, the first entry after a key;
* `List.follower`, the element after another one, and `List.pairwise_orderedInsert`, a list in an order of which ties
  are possible.
-/

namespace List

variable {α : Type}

def follower [DecidableEq α] : List α → α → Option α
  | [], _ => none
  | b :: l, a => if b = a then l.head? else follower l a

variable {l1 l2 : List α} {a : α} {l : List α}

lemma follower_append [DecidableEq α] (h : a ∉ l1) : (l1 ++ a :: l2).follower a = l2.head? := by
  induction l1 with
  | nil => simp [follower]
  | cons b l1 ih =>
    rw [mem_cons, not_or] at h
    rw [cons_append, follower, if_neg (Ne.symm h.1), ih h.2]

lemma mem_of_follower [DecidableEq α] {b : α} (h : l.follower a = some b) : b ∈ l := by
  induction l with
  | nil => cases h
  | cons c l ih =>
    rw [follower] at h
    split_ifs at h
    · exact mem_cons_of_mem _ (mem_of_mem_head? h)
    · exact mem_cons_of_mem _ (ih h)

lemma erase_append_cons [DecidableEq α] (h : a ∉ l1) : (l1 ++ a :: l2).erase a = l1 ++ l2 := by
  rw [erase_append_right _ h, erase_cons_head]

lemma Nodup.apart (hl : (l1 ++ a :: l2).Nodup) : a ∉ l1 ∧ a ∉ l2 := by
  rw [nodup_middle, nodup_cons, mem_append, not_or] at hl
  exact hl.1

lemma Nodup.split (hl : l.Nodup) (ha : a ∈ l) : ∃ l1 l2, l = l1 ++ a :: l2 ∧ a ∉ l1 ∧ a ∉ l2 := by
  obtain ⟨l1, l2, rfl⟩ := append_of_mem ha
  exact ⟨l1, l2, rfl, hl.apart⟩

def remaining [DecidableEq α] (l : List α) : Option α → ℕ
  | none => 0
  | some a => (l.dropWhile fun b => b ≠ a).length

lemma remaining_le [DecidableEq α] (l : List α) (iter : Option α) : l.remaining iter ≤ l.length := by
  cases iter with
  | none => exact Nat.zero_le _
  | some a => exact (dropWhile_sublist _).length_le

private lemma remaining_append [DecidableEq α] (h : a ∉ l1) : (l1 ++ a :: l2).remaining (some a) = l2.length + 1 := by
  rw [remaining, dropWhile_append_of_pos]
  · simp
  · intro b hb
    simpa using ne_of_mem_of_not_mem hb h

lemma remaining_follower [DecidableEq α] (hl : l.Nodup) (ha : a ∈ l) :
    l.remaining (l.follower a) < l.remaining (some a) := by
  obtain ⟨l1, l2, rfl, ha1, -⟩ := hl.split ha
  rw [follower_append ha1, remaining_append ha1]
  cases l2 with
  | nil => exact Nat.zero_lt_one
  | cons b l2 =>
    rw [append_cons] at hl ⊢
    rw [head?_cons, remaining_append hl.apart.1]
    exact Nat.lt_succ_self _

lemma pairwise_orderedInsert {before : α → α → Prop} [DecidableRel before] (ha : ∀ b ∈ l, before a b → ¬ before b a)
    (ht : ∀ b ∈ l, ∀ c ∈ l, ¬ before b a → ¬ before c b → ¬ before c a)
    (hl : l.Pairwise fun a b => ¬ before b a) : (l.orderedInsert before a).Pairwise fun a b => ¬ before b a := by
  induction l with
  | nil => simp
  | cons b l ih =>
    rw [pairwise_cons] at hl
    rw [forall_mem_cons] at ha
    rw [orderedInsert_cons]
    split
    case isTrue hab =>
      refine .cons ?_ (.cons hl.1 hl.2)
      intro c hc
      rcases mem_cons.1 hc with rfl | hc
      · exact ha.1 hab
      · exact ht b mem_cons_self c (mem_cons_of_mem _ hc) (ha.1 hab) (hl.1 c hc)
    case isFalse hab =>
      have ht' : ∀ b ∈ l, ∀ c ∈ l, ¬ before b a → ¬ before c b → ¬ before c a :=
        fun b hb c hc => ht b (mem_cons_of_mem _ hb) c (mem_cons_of_mem _ hc)
      refine .cons ?_ (ih ha.2 ht' hl.2)
      intro c hc
      rcases (mem_orderedInsert _).1 hc with rfl | hc
      · exact hab
      · exact hl.1 c hc

end List

@[ext]
structure OrderedMap (K V : Type) [LinearOrder K] where
  entries : List (K × V)
  sorted : entries.Pairwise fun e e' => e.1 < e'.1

namespace OrderedMap

open List Option

variable {K V : Type} [LinearOrder K]

def empty : OrderedMap K V := ⟨[], .nil⟩

def size (m : OrderedMap K V) : ℕ := m.entries.length

def find (m : OrderedMap K V) (k : K) : Option V := (m.entries.find? fun e => e.1 = k).map Prod.snd

def next (m : OrderedMap K V) (k : K) : Option (K × V) := m.entries.find? fun e => k < e.1

def filter (P : K → V → Bool) (m : OrderedMap K V) : OrderedMap K V :=
  ⟨m.entries.filter fun e => P e.1 e.2, m.sorted.filter _⟩

def erase (m : OrderedMap K V) (k : K) : OrderedMap K V := m.filter fun k' _ => k' ≠ k

def dropWhile (P : K → V → Bool) (m : OrderedMap K V) : OrderedMap K V :=
  ⟨m.entries.dropWhile fun e => P e.1 e.2, m.sorted.sublist (dropWhile_sublist _)⟩

def modify (m : OrderedMap K V) (k : K) (f : V → V) : OrderedMap K V where
  entries := m.entries.map fun e => if e.1 = k then (e.1, f e.2) else e
  sorted := by
    rw [pairwise_map]
    refine m.sorted.imp fun {e e'} h => ?_
    split_ifs <;> exact h

/-- Place an entry that has a new key; an entry with the key stays as it is. -/
def place (k : K) (v : V) : List (K × V) → List (K × V)
  | [] => [(k, v)]
  | e :: l => if k < e.1 then (k, v) :: e :: l else if k = e.1 then e :: l else e :: place k v l

variable {l : List (K × V)} {e e' : K × V} {w : V}

private lemma mem_place {k : K} {v : V} (h : e ∈ place k v l) : e = (k, v) ∨ e ∈ l := by
  induction l with
  | nil => simpa [place] using h
  | cons a l ih =>
    rw [place] at h
    split_ifs at h
    · simpa using h
    · exact .inr h
    · rcases mem_cons.1 h with rfl | h
      · exact .inr mem_cons_self
      · exact (ih h).imp_right (mem_cons_of_mem _)

private lemma pairwise_place {k : K} {v : V} (hl : l.Pairwise fun e e' => e.1 < e'.1) :
    (place k v l).Pairwise fun e e' => e.1 < e'.1 := by
  induction l with
  | nil => simp [place]
  | cons a l ih =>
    rw [place]
    have hc := pairwise_cons.1 hl
    split_ifs with hlt heq
    · refine .cons ?_ hl
      intro e he
      rcases mem_cons.1 he with rfl | he
      · exact hlt
      · exact hlt.trans (hc.1 e he)
    · exact hl
    refine .cons ?_ (ih hc.2)
    intro e he
    rcases mem_place he with rfl | he
    · exact lt_of_le_of_ne (not_lt.1 hlt) (Ne.symm heq)
    · exact hc.1 e he

def emplace (m : OrderedMap K V) (k : K) (v : V) : OrderedMap K V := ⟨place k v m.entries, pairwise_place m.sorted⟩

variable {m : OrderedMap K V} {k k' : K} {v : V}

lemma find_eq_some : m.find k = some v ↔ (k, v) ∈ m.entries := by
  constructor
  · intro h
    obtain ⟨e, he, rfl⟩ := map_eq_some_iff.1 h
    have hk : e.1 = k := by simpa using find?_some he
    obtain rfl := hk
    exact mem_of_find?_eq_some he
  · intro h
    cases hf : m.entries.find? fun e => e.1 = k with
    | none =>
      have := find?_eq_none.1 hf (k, v) h
      simp at this
    | some e =>
      have hk : e.1 = k := by simpa using find?_some hf
      have hn : (m.entries.map Prod.fst).Nodup := pairwise_map.2 (m.sorted.imp ne_of_lt)
      obtain rfl := inj_on_of_nodup_map hn (mem_of_find?_eq_some hf) h hk
      rw [find, hf]
      rfl

private lemma find_eq_none : m.find k = none ↔ ∀ v, (k, v) ∉ m.entries := by
  rw [eq_none_iff_forall_ne_some]
  exact forall_congr' fun v => not_congr find_eq_some

lemma find_filter (P : K → V → Bool) (m : OrderedMap K V) (k : K) :
    (m.filter P).find k = (m.find k).filter (P k) := by
  apply ext
  intro v
  rw [find_eq_some, filter, List.mem_filter, filter_eq_some_iff, find_eq_some]

lemma find_erase (m : OrderedMap K V) (k k' : K) : (m.erase k).find k' = if k' = k then none else m.find k' := by
  rw [erase, find_filter]
  split_ifs with h
  · simp [h]
  · cases m.find k' <;> simp [h]

lemma erase_of_find (h : m.find k = none) : m.erase k = m := by
  refine OrderedMap.ext (filter_eq_self.2 fun e he => decide_eq_true ?_)
  rintro rfl
  exact find_eq_none.1 h e.2 he

private lemma mem_modify {f : V → V} :
    (k', v) ∈ (m.modify k f).entries ↔ ∃ w, (k', w) ∈ m.entries ∧ v = if k' = k then f w else w := by
  constructor
  · intro h
    obtain ⟨⟨k0, w⟩, he, heq⟩ := mem_map.1 h
    split_ifs at heq with hk
    · obtain ⟨rfl, rfl⟩ := Prod.mk.inj heq
      exact ⟨w, he, (if_pos hk).symm⟩
    · obtain ⟨rfl, rfl⟩ := Prod.mk.inj heq
      exact ⟨w, he, (if_neg hk).symm⟩
  · rintro ⟨w, he, rfl⟩
    refine mem_map.2 ⟨(k', w), he, ?_⟩
    split_ifs <;> rfl

lemma find_modify (m : OrderedMap K V) (k k' : K) (f : V → V) :
    (m.modify k f).find k' = if k' = k then (m.find k').map f else m.find k' := by
  apply ext
  intro v
  rw [find_eq_some, mem_modify]
  split_ifs with h
  · rw [map_eq_some_iff]
    exact exists_congr fun w => and_congr find_eq_some.symm eq_comm
  · simp only [find_eq_some, exists_eq_right']

private lemma place_of_mem (hl : l.Pairwise fun e e' => e.1 < e'.1) (h : (k, w) ∈ l) : place k v l = l := by
  induction l with
  | nil => cases h
  | cons a l ih =>
    have hc := pairwise_cons.1 hl
    rcases mem_cons.1 h with rfl | h
    · rw [place, if_neg (lt_irrefl _), if_pos rfl]
    · have hlt := hc.1 _ h
      rw [place, if_neg hlt.not_gt, if_neg hlt.ne', ih hc.2 h]

private lemma perm_place (h : ∀ w, (k, w) ∉ l) : (place k v l).Perm ((k, v) :: l) := by
  induction l with
  | nil => exact .refl _
  | cons a l ih =>
    have hne : k ≠ a.1 := fun heq => h a.2 (by rw [heq]; exact mem_cons_self ..)
    rw [place]
    split_ifs
    · exact .refl _
    · exact ((ih fun w hw => h w (mem_cons_of_mem _ hw)).cons a).trans (.swap ..)

lemma find_emplace (h : m.find k = none) (k' : K) :
    (m.emplace k v).find k' = if k' = k then some v else m.find k' := by
  apply ext
  intro w
  rw [find_eq_some, emplace, (perm_place (find_eq_none.1 h)).mem_iff]
  split_ifs with hk
  · subst hk
    have := find_eq_none.1 h w
    simp [this, eq_comm]
  · simp [hk, find_eq_some]

lemma emplace_of_find (h : m.find k = some w) : m.emplace k v = m :=
  OrderedMap.ext (place_of_mem m.sorted (find_eq_some.1 h))

private lemma find_emplace_isSome (m : OrderedMap K V) (k k' : K) (v : V) :
    ((m.emplace k v).find k').isSome ↔ k' = k ∨ (m.find k').isSome := by
  cases h : m.find k with
  | none =>
    rw [find_emplace h]
    split_ifs with hk
    · simp [hk]
    · simp [hk]
  | some w =>
    rw [emplace_of_find h]
    by_cases hk : k' = k
    · simp [hk, h]
    · simp [hk]

/-- `operator[]` and a change of the value: a new entry starts from `v`. -/
def assign (m : OrderedMap K V) (k : K) (v : V) (f : V → V) : OrderedMap K V := (m.emplace k v).modify k f

lemma mem_assign {f : V → V} (h : (k', w) ∈ (m.assign k v f).entries) :
    k' = k ∧ (∃ u, w = f u) ∨ k' ≠ k ∧ (k', w) ∈ m.entries := by
  obtain ⟨u, hu, rfl⟩ := mem_modify.1 h
  split_ifs with hk
  · exact .inl ⟨hk, u, rfl⟩
  · refine .inr ⟨hk, (mem_place hu).resolve_left fun heq => hk ?_⟩
    exact congrArg Prod.fst heq

lemma find_assign_isSome (m : OrderedMap K V) (k k' : K) (v : V) (f : V → V) :
    ((m.assign k v f).find k').isSome ↔ k' = k ∨ (m.find k').isSome := by
  rw [← find_emplace_isSome (v := v), assign, find_modify]
  split_ifs
  · rw [isSome_map]
  · rfl

lemma head_le (h : m.entries.head? = some e) (he : e' ∈ m.entries) : e.1 ≤ e'.1 := by
  obtain ⟨entries, sorted⟩ := m
  obtain ⟨l, rfl⟩ := head?_eq_some_iff.1 h
  rcases mem_cons.1 he with rfl | he
  · exact le_rfl
  · exact ((pairwise_cons.1 sorted).1 _ he).le

lemma le_getLast (h : m.entries.getLast? = some e) (he : e' ∈ m.entries) : e'.1 ≤ e.1 := by
  obtain ⟨entries, sorted⟩ := m
  obtain ⟨l, rfl⟩ := getLast?_eq_some_iff.1 h
  rcases mem_append.1 he with he | he
  · exact ((pairwise_append.1 sorted).2.2 _ he e (mem_singleton_self _)).le
  · rw [mem_singleton.1 he]

lemma mem_of_next (h : m.next k = some e) : e ∈ m.entries := mem_of_find?_eq_some h

lemma lt_of_next (h : m.next k = some e) : k < e.1 := by simpa using find?_some h

lemma le_of_next (h : m.next k = some e) (he : e' ∈ m.entries) (hk : k < e'.1) : e.1 ≤ e'.1 := by
  obtain ⟨-, l1, l2, hl, hn⟩ := find?_eq_some_iff_append.1 h
  obtain ⟨entries, sorted⟩ := m
  subst hl
  rcases mem_append.1 he with he | he
  · exact absurd hk (by simpa using hn e' he)
  · rcases mem_cons.1 he with rfl | he
    · exact le_rfl
    · exact ((pairwise_cons.1 (pairwise_append.1 sorted).2.1).1 _ he).le

end OrderedMap

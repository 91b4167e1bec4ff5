import Mathlib.Algebra.Order.Group.Multiset

/-!
# Items in buckets with increasing keys

Items are spread over buckets.  Every item has a position, `low x`, and goes to the first bucket whose key is above that
position; the last bucket has the greatest key and takes the items that no other bucket takes.

* `Buckets.Cut`: the items are where they should be;
* `Buckets.locate`, `Buckets.Cut.locate_eq`: find the bucket of an item from its position alone;
* `Buckets.Cut.setItems`, `insertBucket`, `dropBucket`, `merge`: the changes that keep the items where they should be.
-/

variable {K T : Type}

abbrev Buckets (K T : Type) := List (K × List T)

namespace Buckets

open List Option

def keys (l : Buckets K T) : List K := l.map Prod.fst

def items (l : Buckets K T) : Multiset T := (l.flatMap Prod.snd : List T)

@[simp] lemma keys_nil : keys ([] : Buckets K T) = [] := rfl

@[simp] lemma keys_cons (e : K × List T) (l : Buckets K T) : keys (e :: l) = e.1 :: keys l := rfl

@[simp] lemma keys_append (l l' : Buckets K T) : keys (l ++ l') = keys l ++ keys l' := map_append

@[simp] lemma keys_getLast?_concat (l : Buckets K T) (e : K × List T) : (l ++ [e] : Buckets K T).keys.getLast? = some e.1 := by
  simp

@[simp] lemma items_cons (e : K × List T) (l : Buckets K T) : items (e :: l) = (e.2 : Multiset T) + items l := by
  simp [items]

@[simp] lemma items_append (l l' : Buckets K T) : items (l ++ l') = items l + items l' := by
  simp [items]

lemma items_merge (l1 l2 : Buckets K T) (k n : K) (a b : List T) :
    (l1 ++ (n, a ++ b) :: l2 : Buckets K T).items = (l1 ++ (k, a) :: (n, b) :: l2 : Buckets K T).items := by
  rw [items_append, items_cons, ← Multiset.coe_add, add_assoc, items_append, items_cons, items_cons]

variable {l : Buckets K T} {q : K}

lemma mem_items {x : T} : x ∈ l.items ↔ ∃ e ∈ l, x ∈ e.2 := by
  simp [items]

variable [LinearOrder K] {e : K × List T}

/-- The keys increase up to `top`, and every item is below the key of its bucket, unless that is the last one, and not
below the keys of the buckets before. -/
structure Cut (low : T → K) (top : K) (l : Buckets K T) : Prop where
  ordered : l.Pairwise fun e e' => e.1 < e'.1 ∧ ∀ x ∈ e'.2, e.1 ≤ low x
  below : ∀ e ∈ l, ∀ x ∈ e.2, e.1 ≠ top → low x < e.1
  le_top : ∀ e ∈ l, e.1 ≤ top
  top_mem : l ≠ [] → ∃ e ∈ l, e.1 = top

/-- The first bucket with a key above `q`, or else the last one. -/
def locate (q : K) (l : Buckets K T) : Option (K × List T) := (l.find? fun e => q < e.1).or l.getLast?

lemma locate_split (h : locate q l = some e) :
    ∃ l1 l2, l = l1 ++ e :: l2 ∧ (∀ e' ∈ l1, e'.1 ≤ q) ∧ (q < e.1 ∨ l2 = []) := by
  unfold locate at h
  cases hf : l.find? (fun e => q < e.1) with
  | none =>
    rw [hf, none_or, getLast?_eq_some_iff] at h
    obtain ⟨l1, rfl⟩ := h
    rw [find?_eq_none] at hf
    exact ⟨l1, [], rfl, fun e' he' => by simpa using hf e' (by simp [he']), .inr rfl⟩
  | some e' =>
    rw [hf] at h
    obtain rfl : e' = e := some.inj h
    obtain ⟨hq, l1, l2, rfl, hl1⟩ := find?_eq_some_iff_append.1 hf
    exact ⟨l1, l2, rfl, fun e' he' => by simpa using hl1 e' he', .inl (by simpa using hq)⟩

lemma locate_eq_none : locate q l = none ↔ l = [] := by
  rw [locate, or_eq_none_iff, getLast?_eq_none_iff]
  exact ⟨And.right, fun h => ⟨by simp [h], h⟩⟩

lemma locate_append {l1 l2 : Buckets K T} (h1 : ∀ e' ∈ l1, e'.1 ≤ q) (h : q < e.1 ∨ l2 = []) :
    locate q (l1 ++ e :: l2) = some e := by
  have hn : l1.find? (fun e => q < e.1) = none := find?_eq_none.2 fun e' he' => by simpa using h1 e' he'
  unfold locate
  rw [find?_append, hn]
  by_cases hq : q < e.1
  · rw [find?_cons_of_pos (by simpa using hq)]
    rfl
  · obtain rfl := h.resolve_left hq
    rw [find?_cons_of_neg (by simpa using hq)]
    simp

namespace Cut

variable {low : T → K} {top : K} {l1 l2 : Buckets K T} {k n : K} {ts ts' : List T}

lemma keys_nodup (h : Cut low top l) : l.keys.Nodup := (pairwise_map.2 (h.ordered.imp And.left)).imp ne_of_lt

variable {e : K × List T}

lemma at_bucket (h : Cut low top (l1 ++ e :: l2)) :
    (∀ e' ∈ l1, e'.1 < e.1 ∧ ∀ x ∈ e.2, e'.1 ≤ low x) ∧ ∀ e' ∈ l2, e.1 < e'.1 ∧ ∀ x ∈ e'.2, e.1 ≤ low x := by
  have ho := h.ordered
  rw [pairwise_append, pairwise_cons] at ho
  exact ⟨fun e' he' => ho.2.2 e' he' e (by simp), ho.2.1.1⟩

lemma eq_top_iff (h : Cut low top (l1 ++ e :: l2)) : e.1 = top ↔ l2 = [] := by
  constructor
  · intro ht
    refine eq_nil_iff_forall_not_mem.2 fun e' he' => ?_
    exact absurd (h.le_top e' (by simp [he'])) (not_le.2 (ht ▸ (h.at_bucket.2 e' he').1))
  rintro rfl
  obtain ⟨e', he', ht⟩ := h.top_mem (by simp)
  rcases mem_append.1 he' with he' | he'
  · exact absurd (h.le_top e (by simp)) (not_le.2 (ht ▸ (h.at_bucket.1 e' he').1))
  · rwa [← mem_singleton.1 he']

lemma locate_eq (h : Cut low top l) (he : e ∈ l) {x : T} (hx : x ∈ e.2) : locate (low x) l = some e := by
  obtain ⟨l1, l2, rfl⟩ := append_of_mem he
  refine locate_append (fun e' he' => (h.at_bucket.1 e' he').2 x hx) ?_
  by_cases ht : e.1 = top
  · exact .inr (h.eq_top_iff.1 ht)
  · exact .inl (h.below e he x hx ht)

lemma setItems (h : Cut low top (l1 ++ (k, ts) :: l2))
    (hts : ∀ x ∈ ts', (∀ e ∈ l1, e.1 ≤ low x) ∧ (k ≠ top → low x < k)) : Cut low top (l1 ++ (k, ts') :: l2) where
  ordered := by
    have ho := h.ordered
    rw [pairwise_append, pairwise_cons] at ho ⊢
    obtain ⟨h1, h2, hb⟩ := ho
    refine ⟨h1, h2, fun e he e' he' => ?_⟩
    rcases mem_cons.1 he' with rfl | he'
    · exact ⟨(hb e he (k, ts) (by simp)).1, fun x hx => (hts x hx).1 e he⟩
    · exact hb e he e' (by simp [he'])
  below := by
    intro e he x hx
    rcases mem_append.1 he with he | he
    · exact h.below e (by simp [he]) x hx
    · rcases mem_cons.1 he with rfl | he
      · exact (hts x hx).2
      · exact h.below e (by simp [he]) x hx
  le_top := by
    have ht := h.le_top
    simp only [forall_mem_append, forall_mem_cons] at ht ⊢
    exact ht
  top_mem := by
    have ht := h.top_mem (by simp)
    simp only [mem_append, mem_cons, or_and_right, exists_or, exists_eq_left] at ht ⊢
    exact fun _ => ht

lemma insertBucket (h : Cut low top (l1 ++ (k, ts) :: l2)) (hn : ∀ e ∈ l1, e.1 < n) (hnk : n < k)
    (hts' : ∀ x ∈ ts', (∀ e ∈ l1, e.1 ≤ low x) ∧ low x < n) (hts : ∀ x ∈ ts, n ≤ low x) :
    Cut low top (l1 ++ (n, ts') :: (k, ts) :: l2) where
  ordered := by
    have ho := h.ordered
    rw [pairwise_append] at ho ⊢
    obtain ⟨h1, h2, hb⟩ := ho
    refine ⟨h1, pairwise_cons.2 ⟨fun e he => ?_, h2⟩, fun e he e' he' => ?_⟩
    · rcases mem_cons.1 he with rfl | he
      · exact ⟨hnk, hts⟩
      · have ha := (pairwise_cons.1 h2).1 e he
        exact ⟨hnk.trans ha.1, fun x hx => hnk.le.trans (ha.2 x hx)⟩
    · rcases mem_cons.1 he' with rfl | he'
      · exact ⟨hn e he, fun x hx => (hts' x hx).1 e he⟩
      · exact hb e he e' he'
  below := by
    intro e he x hx ht
    by_cases hnew : e = (n, ts')
    · subst hnew
      exact (hts' x hx).2
    · exact h.below e (by simpa [hnew] using he) x hx ht
  le_top := by
    intro e he
    by_cases hnew : e = (n, ts')
    · subst hnew
      exact hnk.le.trans (h.le_top (k, ts) (by simp))
    · exact h.le_top e (by simpa [hnew] using he)
  top_mem := by
    intro _
    obtain ⟨e, he, ht⟩ := h.top_mem (by simp)
    exact ⟨e, by simp at he ⊢; tauto, ht⟩

lemma dropBucket (h : Cut low top (l1 ++ e :: l2)) (hl2 : l2 ≠ []) : Cut low top (l1 ++ l2) where
  ordered := h.ordered.sublist (by simp)
  below e' he' := h.below e' (by simp at he' ⊢; tauto)
  le_top e' he' := h.le_top e' (by simp at he' ⊢; tauto)
  top_mem := by
    intro _
    obtain ⟨e', he', ht⟩ := h.top_mem (by simp)
    refine ⟨e', ?_, ht⟩
    rcases mem_append.1 he' with he' | he'
    · exact mem_append_left _ he'
    · rcases mem_cons.1 he' with rfl | he'
      · exact absurd (h.eq_top_iff.1 ht) hl2
      · exact mem_append_right _ he'

lemma merge (h : Cut low top (l1 ++ (k, ts) :: (n, ts') :: l2)) : Cut low top (l1 ++ (n, ts ++ ts') :: l2) := by
  obtain ⟨hb, ha⟩ := h.at_bucket
  refine (h.dropBucket (by simp)).setItems fun x hx => ?_
  rcases mem_append.1 hx with hx | hx
  · have hk : k ≠ top := fun ht => by simpa using h.eq_top_iff.1 ht
    exact ⟨fun e he => (hb e he).2 x hx, fun _ => (h.below (k, ts) (by simp) x hx hk).trans (ha (n, ts') (by simp)).1⟩
  · rw [append_cons] at h
    exact ⟨fun e he => (h.at_bucket.1 e (by simp [he])).2 x hx, h.below (n, ts') (by simp) x hx⟩

end Cut

end Buckets

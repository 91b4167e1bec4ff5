import Xrpl.Lib.HashMap

/-!
# Counters

A tally counts keys in a hash map; a key that is not counted has no entry.  `add` counts a key once more, `drop` once
less, and `PositiveOff` says which keys may have an entry although they do not occur.
-/

abbrev Tally (K : Type) := HashMap K ℕ

namespace Tally

open AList HashMap Option

variable {K : Type} [DecidableEq K]

def get (t : Tally K) (k : K) : ℕ := (t.lookup k).getD 0

def add (t : Tally K) (k : K) : Tally K := t.insert k (get t k + 1)

def drop (t : Tally K) (k : K) : Tally K := if get t k ≤ 1 then t.erase k else t.insert k (get t k - 1)

lemma get_add (t : Tally K) (k k' : K) : get (add t k) k' = get t k' + if k = k' then 1 else 0 := by
  rw [get, add]
  by_cases h : k = k'
  · subst h
    simp
  · simp [h, Ne.symm h, get]

lemma get_drop (t : Tally K) (k k' : K) : get (drop t k) k' = get t k' - if k = k' then 1 else 0 := by
  by_cases h : k = k'
  · subst h
    rw [drop, if_pos rfl]
    split_ifs with hle
    · rw [get, lookup_drop, if_pos rfl, getD_none]
      omega
    · rw [get, lookup_put, if_pos rfl, getD_some]
  · rw [drop, if_neg h, Nat.sub_zero]
    split_ifs with hle
    · rw [get, lookup_drop, if_neg (Ne.symm h), get]
    · rw [get, lookup_put, if_neg (Ne.symm h), get]

lemma get_of_notMem {t : Tally K} {k : K} (h : k ∉ t) : get t k = 0 := by
  rw [get, lookup_eq_none.2 h, getD_none]

lemma get_insert (t : Tally K) (k k' : K) (n : ℕ) : get (insert k n t) k' = if k' = k then n else get t k' := by
  rw [get, lookup_put]
  split_ifs
  · rfl
  · rfl

/-- Only the keys of `Q` may be counted without an occurrence. -/
def PositiveOff (Q : K → Prop) (t : Tally K) : Prop := ∀ k ∈ t, Q k ∨ 0 < get t k

namespace PositiveOff

variable {Q : K → Prop} {t : Tally K}

lemma add (h : PositiveOff Q t) (k : K) : PositiveOff Q (t.add k) := by
  intro k' hk'
  rw [get_add]
  by_cases heq : k = k'
  · exact .inr (by rw [if_pos heq]; omega)
  · rw [if_neg heq]
    exact h k' ((mem_insert _).1 hk' |>.resolve_left (Ne.symm heq))

lemma drop (h : PositiveOff Q t) (k : K) : PositiveOff Q (t.drop k) := by
  intro k' hk'
  rw [get_drop]
  rw [Tally.drop] at hk'
  split_ifs at hk' with hle
  · obtain ⟨hne, hmem⟩ := mem_erase.1 hk'
    rw [if_neg (Ne.symm hne)]
    exact h k' hmem
  by_cases heq : k = k'
  · subst heq
    exact .inr (by rw [if_pos rfl]; omega)
  · rw [if_neg heq]
    exact h k' ((mem_insert _).1 hk' |>.resolve_left (Ne.symm heq))

end PositiveOff

end Tally

import Xrpl.Lib.HashMap

/-!
# The modifiable view of a ledger

Transactions change the ledger through a view: they peek at an entry, change it, and insert, update or erase it.  The
view checks that an inserted entry is new and that an updated or erased one is there, and throws otherwise.  An entry
that has been peeked at is shared by all who hold it, so it is known by its key here.
-/

namespace Xrpl.Ledger

open List

/-- What the code throws when its data are not as they should be. -/
inductive LogicError where
  | insertExisting
  | updateMissing
  | eraseMissing
  | what (message : String)
  deriving DecidableEq

abbrev View (K V : Type) := HashMap K V

namespace View

variable {K V : Type} [DecidableEq K]

def insertNew (v : View K V) (k : K) (sle : V) : Except LogicError (View K V) :=
  if k ∈ v then .error .insertExisting else .ok (v.insert k sle)

def modify (v : View K V) (k : K) (f : V → V) : Except LogicError (View K V) :=
  match v.lookup k with
  | none => .error .updateMissing
  | some sle => .ok (v.insert k (f sle))

def eraseKey (v : View K V) (k : K) : Except LogicError (View K V) :=
  if k ∈ v then .ok (v.erase k) else .error .eraseMissing

/-- The next key after `key` that is below `last`. -/
def succ {K V : Type} [LinearOrder K] (v : View K V) (key : K) (last : Option K) : Option K :=
  match (v.keys.filter (key < ·)).min? with
  | none => none
  | some next => if ∃ k ∈ last, k ≤ next then none else some next

variable {v : View K V} {k : K} {sle : V} {α : Type}

lemma insertNew_eq (h : k ∉ v) : v.insertNew k sle = .ok (v.insert k sle) := if_neg h

lemma modify_eq {f : V → V} (h : v.lookup k = some sle) : v.modify k f = .ok (v.insert k (f sle)) := by
  rw [modify, h]

lemma eraseKey_eq (h : k ∈ v) : v.eraseKey k = .ok (v.erase k) := if_pos h

lemma map_lookup_insert (f : V → α) (v : View K V) (k : K) (sle : V) :
    (fun k' => ((AList.insert k sle v).lookup k').map f) =
      Function.update (fun k' => (v.lookup k').map f) k (some (f sle)) := by
  funext k'
  by_cases hk : k' = k
  · subst hk
    simp
  · simp [hk]

lemma map_lookup_erase (f : V → α) (v : View K V) (k : K) :
    (fun k' => ((AList.erase k v).lookup k').map f) = Function.update (fun k' => (v.lookup k').map f) k none := by
  funext k'
  by_cases hk : k' = k
  · subst hk
    simp
  · simp [hk]

end View

namespace View

variable {K V : Type} [LinearOrder K] {v : View K V} {key : K} {last : Option K}

lemma succ_eq_some {k : K} : v.succ key last = some k ↔
    k ∈ v ∧ key < k ∧ (∀ k' ∈ v, key < k' → k ≤ k') ∧ ∀ b ∈ last, k < b := by
  unfold succ
  cases hmin : (v.keys.filter (key < ·)).min? with
  | none =>
    rw [min?_eq_none_iff, filter_eq_nil_iff] at hmin
    simp only [reduceCtorEq, false_iff]
    rintro ⟨hk, hlt, -⟩
    exact hmin k (AList.mem_keys.1 hk) (by simpa using hlt)
  | some m =>
    rw [min?_eq_some_iff] at hmin
    simp only [mem_filter, decide_eq_true_eq, and_imp] at hmin
    obtain ⟨⟨hm, hlt⟩, hle⟩ := hmin
    dsimp only
    split_ifs with hl
    · simp only [false_iff]
      rintro ⟨hk, hlt', hlst, hbel⟩
      obtain ⟨b, hb, hbm⟩ := hl
      exact absurd (hbel b hb) (not_lt.2 (hbm.trans (hle k hk hlt')))
    · rw [Option.some_inj]
      constructor
      · rintro rfl
        exact ⟨hm, hlt, hle, fun b hb => not_le.1 fun hbm => hl ⟨b, hb, hbm⟩⟩
      · rintro ⟨hk, hlt', hlst, -⟩
        exact le_antisymm (hle k hk hlt') (hlst m hm hlt)

lemma succ_eq_none : v.succ key last = none ↔ ∀ k ∈ v, key < k → ∃ b ∈ last, b ≤ k := by
  unfold succ
  cases hmin : (v.keys.filter (key < ·)).min? with
  | none =>
    rw [min?_eq_none_iff, filter_eq_nil_iff] at hmin
    simp only [true_iff]
    exact fun k hk hlt => absurd (by simpa using hlt) (hmin k hk)
  | some m =>
    rw [min?_eq_some_iff] at hmin
    simp only [mem_filter, decide_eq_true_eq, and_imp] at hmin
    obtain ⟨⟨hm, hlt⟩, hle⟩ := hmin
    dsimp only
    split_ifs with hl
    · simp only [true_iff]
      obtain ⟨b, hb, hbm⟩ := hl
      exact fun k hk hlt' => ⟨b, hb, hbm.trans (hle k hk hlt')⟩
    · simp only [false_iff]
      exact fun ha => hl (ha m hm hlt)

end View

end Xrpl.Ledger

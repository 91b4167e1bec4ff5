import Mathlib.Tactic.Common

/-!
# A store of cells

Cells are addressed by numbers and allocated one after the other, so that a cell below `next` is in use and the cell
`next` is fresh.  `Within A s s'` says what a computation may have done to a store: the cells that were in use are
the ones of `s` except for those in `A`, and others may have been allocated.
-/

/-- The contents of the cells and the first one that is not in use. -/
structure CellStore (α : Type) where
  cell : Nat → α
  next : Nat

namespace CellStore

open Function

variable {α : Type} {s s' s'' : CellStore α} {A B : Nat → Prop} {p q : Nat} {a : α}

def alloc (s : CellStore α) (a : α) : Nat × CellStore α := (s.next, ⟨update s.cell s.next a, s.next + 1⟩)

def write (s : CellStore α) (p : Nat) (a : α) : CellStore α := ⟨update s.cell p a, s.next⟩

@[simp] lemma alloc_fst : (s.alloc a).1 = s.next := rfl

@[simp] lemma cell_alloc_next : (s.alloc a).2.cell s.next = a := update_self ..

@[simp] lemma cell_write : (s.write p a).cell p = a := update_self ..

lemma cell_alloc_of_lt (h : p < s.next) : (s.alloc a).2.cell p = s.cell p := update_of_ne (by omega) ..

lemma cell_write_of_ne (h : q ≠ p) : (s.write p a).cell q = s.cell q := update_of_ne h ..

/-- Only cells in `A` have changed, and cells may have been allocated. -/
structure Within (A : Nat → Prop) (s s' : CellStore α) : Prop where
  next_le : s.next ≤ s'.next
  cell_eq : ∀ p, p < s.next → ¬ A p → s'.cell p = s.cell p

namespace Within

lemma refl (A : Nat → Prop) (s : CellStore α) : Within A s s := ⟨Nat.le_refl _, fun _ _ _ => rfl⟩

lemma mono (h : Within A s s') (hAB : ∀ p, p < s.next → A p → B p) : Within B s s' :=
  ⟨h.next_le, fun p hp hB => h.cell_eq p hp fun hA => hB (hAB p hp hA)⟩

lemma trans (h : Within A s s') (h' : Within B s' s'') (hBA : ∀ p, p < s.next → B p → A p) : Within A s s'' where
  next_le := Nat.le_trans h.next_le h'.next_le
  cell_eq p hp hA := by
    rw [h'.cell_eq p (Nat.lt_of_lt_of_le hp h.next_le) fun hB => hA (hBA p hp hB), h.cell_eq p hp hA]

end Within

lemma within_alloc (A : Nat → Prop) (s : CellStore α) (a : α) : Within A s (s.alloc a).2 :=
  ⟨Nat.le_succ _, fun _ hp _ => cell_alloc_of_lt hp⟩

lemma within_write (s : CellStore α) (a : α) (hA : A p) : Within A s (s.write p a) :=
  ⟨Nat.le_refl _, fun _ _ hq => cell_write_of_ne fun hqp => hq (hqp ▸ hA)⟩

end CellStore

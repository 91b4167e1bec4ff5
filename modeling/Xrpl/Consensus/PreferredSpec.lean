import Mathlib.Data.Finset.Sort
import Mathlib.Data.Prod.Lex
import Mathlib.Order.Lattice.Nat

/-!
# The preferred ledger, one sequence number at a time

The rule behind `getPreferred`, stated over the multiset of supported ledgers alone.  A ledger is the string of the ids
of its ancestors, its own id last, so the string `p` has the sequence number `p.length - 1`.  From `p` the walk moves
on to the next id with the greatest branch support, ties broken by the greater id, as long as its lead over the second
best exceeds the support that is still uncommitted.
-/

namespace Xrpl.Consensus

open List Multiset

variable {ID : Type} {h : List ID}

lemma append_singleton_isPrefix_iff {p : List ID} {x : ID} : p ++ [x] <+: h ↔ p <+: h ∧ h[p.length]? = some x := by
  constructor
  · intro hp
    obtain ⟨r, rfl⟩ := hp
    exact ⟨⟨[x] ++ r, by simp⟩, by simp⟩
  intro hp
  obtain ⟨⟨r, rfl⟩, hx⟩ := hp
  cases r with
  | nil => simp at hx
  | cons y r =>
    obtain rfl : y = x := by simpa using hx
    exact ⟨r, by simp⟩

private lemma length_le_sup {M : Multiset (List ID)} (hh : h ∈ M) : h.length ≤ (M.map length).sup :=
  le_sup (mem_map_of_mem _ hh)

variable [LinearOrder ID]

section

variable (M : Multiset (List ID))

/-- The support for `p` or a descendant. -/
def branch (p : List ID) : Nat := M.countP (p <+: ·)

/-- The support at sequence numbers below `bound`. -/
def below (bound : Nat) : Nat := M.countP fun h => h.length ≤ bound

/-- The ids that follow `p` in a supported ledger. -/
def nextIDs (p : List ID) : Finset ID :=
  ((M.filter (p <+: ·)).filterMap fun h => h[p.length]?).toFinset

/-- Next ids are compared by branch support, and by the id itself in a tie. -/
def rank (p : List ID) (x : ID) : ℕ ×ₗ ID := toLex (branch M (p ++ [x]), x)

def Ahead (p : List ID) (x y : ID) : Prop := rank M p y ≤ rank M p x

end

instance (M : Multiset (List ID)) (p : List ID) : DecidableRel (Ahead M p) := fun x y =>
  inferInstanceAs (Decidable (rank M p y ≤ rank M p x))

instance (M : Multiset (List ID)) (p : List ID) : IsTrans ID (Ahead M p) := ⟨fun _ _ _ h h' => le_trans h' h⟩

instance (M : Multiset (List ID)) (p : List ID) : Std.Total (Ahead M p) := ⟨fun _ _ => le_total _ _⟩

private lemma rank_injective (M : Multiset (List ID)) (p : List ID) : Function.Injective (rank M p) := by
  intro x y h
  exact congrArg (fun k => (ofLex k).2) h

instance (M : Multiset (List ID)) (p : List ID) : Std.Antisymm (Ahead M p) :=
  ⟨fun _ _ h h' => rank_injective M p (le_antisymm h' h)⟩

def ranked (M : Multiset (List ID)) (p : List ID) : List ID := (nextIDs M p).sort (Ahead M p)

def lead (M : Multiset (List ID)) (p : List ID) : List ID → Nat
  | [] => 0
  | [x] => branch M (p ++ [x])
  | x :: y :: _ => branch M (p ++ [x]) - branch M (p ++ [y]) + if y < x then 1 else 0

def preferredChild (M : Multiset (List ID)) (largestIssued : Nat) (p : List ID) : Option ID :=
  match ranked M p with
  | [] => none
  | x :: others =>
    let uncommitted := below M (max p.length largestIssued)
    if lead M p (x :: others) > uncommitted ∨ uncommitted = 0 then some x else none

def naiveWalk (M : Multiset (List ID)) (largestIssued : Nat) : Nat → List ID → List ID
  | 0, p => p
  | n + 1, p =>
    match preferredChild M largestIssued p with
    | some x => naiveWalk M largestIssued n (p ++ [x])
    | none => p

/-- The sequence number and the id where the walk from `genesis` ends. -/
def naivePreferred (genesis : ID) (M : Multiset (List ID)) (largestIssued : Nat) : Option (Nat × ID) :=
  if M = 0 then none
  else
    let p := naiveWalk M largestIssued (M.map length).sup [genesis]
    some (p.length - 1, p.getLastD genesis)

section

variable {M : Multiset (List ID)} {p : List ID} {L : Nat} {x : ID} {q : List ID}

lemma mem_nextIDs : x ∈ nextIDs M p ↔ ∃ h ∈ M, p ++ [x] <+: h := by
  simp only [nextIDs, Multiset.mem_toFinset, Multiset.mem_filterMap, Multiset.mem_filter,
    append_singleton_isPrefix_iff, and_assoc]

lemma branch_pos_iff : 0 < branch M q ↔ ∃ h ∈ M, q <+: h := countP_pos

lemma ranked_eq {l : List ID} (hn : l.Nodup) (hmem : ∀ x, x ∈ l ↔ x ∈ nextIDs M p)
    (hs : l.Pairwise (Ahead M p)) : ranked M p = l := by
  have ha : ∀ a b, Ahead M p a b → Ahead M p b a → a = b := fun a b h h' =>
    rank_injective M p (le_antisymm h' h)
  refine List.Perm.eq_of_pairwise (fun a b _ _ => ha a b) (Finset.pairwise_sort _ (Ahead M p)) hs ?_
  refine (perm_ext_iff_of_nodup (Finset.sort_nodup _ _) hn).2 fun x => ?_
  rw [Finset.mem_sort, hmem]

/-- From `p` the walk ends at `q`. -/
inductive WalksTo (M : Multiset (List ID)) (L : Nat) : List ID → List ID → Prop where
  | stop {p : List ID} (h : preferredChild M L p = none) : WalksTo M L p p
  | step {p q : List ID} {x : ID} (h : preferredChild M L p = some x) (rest : WalksTo M L (p ++ [x]) q) :
      WalksTo M L p q

private lemma mem_nextIDs_of_preferredChild (h : preferredChild M L p = some x) : x ∈ nextIDs M p := by
  unfold preferredChild at h
  have hmem : ∀ y ∈ ranked M p, y ∈ nextIDs M p := fun y hy => (Finset.mem_sort _).1 hy
  rcases hr : ranked M p with _ | ⟨y, others⟩
  · simp [hr] at h
  rw [hr] at h hmem
  simp only at h
  split at h
  · obtain rfl := Option.some.inj h
    exact hmem y mem_cons_self
  · simp at h

private lemma WalksTo.length_le (h : WalksTo M L p q) (hp : p.length ≤ (M.map length).sup) :
    q.length ≤ (M.map length).sup := by
  induction h with
  | stop _ => exact hp
  | step hx _ ih =>
    apply ih
    obtain ⟨h, hh, hpre⟩ := mem_nextIDs.1 (mem_nextIDs_of_preferredChild hx)
    exact hpre.length_le.trans (length_le_sup hh)

private lemma WalksTo.naiveWalk_eq (h : WalksTo M L p q) {n : Nat} (hn : q.length ≤ p.length + n) :
    naiveWalk M L n p = q := by
  induction h generalizing n with
  | @stop p hs => cases n <;> simp [naiveWalk, hs]
  | @step p q x hx hr ih =>
    have hlen : p.length + 1 ≤ q.length := by
      have : ∀ {a b : List ID}, WalksTo M L a b → a.length ≤ b.length := by
        intro a b hab
        induction hab with
        | stop _ => exact le_rfl
        | step _ _ ih =>
          rw [length_append] at ih
          omega
      simpa using this hr
    cases n with
    | zero => omega
    | succ n =>
      rw [naiveWalk, hx]
      apply ih
      rw [length_append, length_singleton]
      omega

/-- Where the walk from `genesis` ends is the preferred ledger. -/
lemma WalksTo.naivePreferred_eq {g : ID} (h : WalksTo M L [g] q) (hM : M ≠ 0)
    (hlen : ∀ h ∈ M, h ≠ []) : naivePreferred g M L = some (q.length - 1, q.getLastD g) := by
  obtain ⟨h0, hh0⟩ := exists_mem_of_ne_zero hM
  have hpos : 1 ≤ (M.map length).sup := by
    have h1 := length_le_sup hh0
    have h2 := length_pos_iff.2 (hlen h0 hh0)
    omega
  have hle := h.length_le (by simpa using hpos)
  rw [naivePreferred, if_neg hM, h.naiveWalk_eq (by omega)]

end

end Xrpl.Consensus

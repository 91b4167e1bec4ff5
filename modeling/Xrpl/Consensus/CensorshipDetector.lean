import Mathlib.Data.List.Sort
import Mathlib.Data.Prod.Lex

/-!
# The censorship detector

The tracker holds the transactions that were proposed and not yet accepted, each with the ledger in which it was first
proposed.  Both operations walk over two sorted ranges.

* `tracked_exactly`: what the operations do to a tracker that is reached by any calls.
-/

namespace Xrpl.Consensus.RCLCensorshipDetector

open List

section Algorithms

variable {α β : Type}

/-- The comparison is given by one function for each order of its arguments. -/
def generalizedSetIntersection (action : α → β → α) (comp : α → β → Bool) (comp' : β → α → Bool) :
    List α → List β → List α
  | x :: xs, y :: ys =>
    if comp x y then x :: generalizedSetIntersection action comp comp' xs (y :: ys)
    else if comp' y x then generalizedSetIntersection action comp comp' (x :: xs) ys
    else action x y :: generalizedSetIntersection action comp comp' xs ys
  | xs, _ => xs
termination_by xs ys => xs.length + ys.length

/-- The elements before `first1` are preserved, those between `first1` and `i` have been removed. -/
def removeIfIntersectOrMatch {m : Type → Type} [Monad m] (pred : α → m Bool) (comp : α → β → Bool)
    (comp' : β → α → Bool) (range : List α) (first1 i : ℕ) (second : List β) : m (List α × ℕ) :=
  if hi : i < range.length then
    if second.head?.all (comp range[i]) then
      pred range[i] >>= fun
        | true => removeIfIntersectOrMatch pred comp comp' range first1 (i + 1) second
        | false => removeIfIntersectOrMatch pred comp comp' (if i ≠ first1 then range.set first1 range[i] else range)
          (first1 + 1) (i + 1) second
    else match second with
      | [] => pure (range, first1)
      | y :: ys => removeIfIntersectOrMatch pred comp comp' range first1 (if comp' y range[i] then i else i + 1) ys
  else pure (range, first1)
termination_by (range.length - i) + second.length
decreasing_by
  · omega
  · split_ifs <;> simp <;> omega
  · split_ifs <;> simp only [length_cons] <;> omega

end Algorithms

variable {TxID Sequence : Type} [LinearOrder TxID]

structure TxIDSeq (TxID Sequence : Type) where
  txid : TxID
  seq : Sequence

abbrev Tracker (TxID Sequence : Type) := List (TxIDSeq TxID Sequence)

abbrev Before (x y : TxIDSeq TxID Sequence) : Prop := x.txid < y.txid

/-- An entry with the sequence that the tracker has for it. -/
def resume (tracker : Tracker TxID Sequence) (x : TxIDSeq TxID Sequence) : TxIDSeq TxID Sequence :=
  { x with seq := ((tracker.find? (·.txid = x.txid)).map TxIDSeq.seq).getD x.seq }

variable {tracker proposed : Tracker TxID Sequence} {x y : TxIDSeq TxID Sequence}

private lemma resume_cons_of_ne (h : y.txid ≠ x.txid) : resume (y :: tracker) x = resume tracker x := by
  simp [resume, h]

private lemma resume_of_ne (h : ∀ y ∈ tracker, y.txid ≠ x.txid) : resume tracker x = x := by
  have hn : tracker.find? (·.txid = x.txid) = none := find?_eq_none.2 fun y hy => by simpa using h y hy
  rw [resume, hn]
  rfl

private lemma resume_eq_iff (ht : tracker.Pairwise Before) : resume tracker y = x ↔
    x.txid = y.txid ∧ (x ∈ tracker ∨ x = y ∧ ∀ z ∈ tracker, z.txid ≠ y.txid) := by
  cases hf : tracker.find? (·.txid = y.txid) with
  | none =>
    have hne : ∀ z ∈ tracker, z.txid ≠ y.txid := by simpa using hf
    rw [resume_of_ne hne]
    refine ⟨fun h => h ▸ ⟨rfl, .inr ⟨rfl, hne⟩⟩, fun h => ?_⟩
    exact h.2.elim (fun hx => absurd h.1 (hne x hx)) fun hx => hx.1.symm
  | some z =>
    have hz : z ∈ tracker := mem_of_find?_eq_some hf
    have hid : z.txid = y.txid := by simpa using find?_some hf
    have hr : resume tracker y = z := by
      rw [resume, hf, ← hid]
      rfl
    rw [hr]
    refine ⟨fun h => h ▸ ⟨hid, .inl hz⟩, fun h => ?_⟩
    have hx := h.2.resolve_right fun hn => hn.2 z hz hid
    have hi : (tracker.map TxIDSeq.txid).Nodup := pairwise_map.2 (ht.imp ne_of_lt)
    exact inj_on_of_nodup_map hi hz hx (hid.trans h.1.symm)

private lemma generalizedSetIntersection_eq (hp : proposed.Pairwise Before) (ht : tracker.Pairwise Before) :
    generalizedSetIntersection (fun x y => { x with seq := y.seq }) (fun x y => x.txid < y.txid)
      (fun y x => y.txid < x.txid) proposed tracker = proposed.map (resume tracker) := by
  fun_induction generalizedSetIntersection _ _ _ proposed tracker with
  | case1 x xs y ys hxy ih =>
    have hlt : x.txid < y.txid := by simpa using hxy
    have hf : resume (y :: ys) x = x :=
      resume_of_ne (forall_mem_cons.2 ⟨hlt.ne', fun z hz => (hlt.trans ((pairwise_cons.1 ht).1 z hz)).ne'⟩)
    rw [map_cons, hf, ih (pairwise_cons.1 hp).2 ht]
  | case2 x xs y ys hxy hyx ih =>
    -- the entry `y` of the tracker is not proposed
    have hlt : y.txid < x.txid := by simpa using hyx
    rw [ih hp (pairwise_cons.1 ht).2]
    refine map_congr_left fun z hz => (resume_cons_of_ne ?_).symm
    rcases mem_cons.1 hz with rfl | hz
    · exact hlt.ne
    · exact (hlt.trans ((pairwise_cons.1 hp).1 z hz)).ne
  | case3 x xs y ys hxy hyx ih =>
    have heq : y.txid = x.txid := le_antisymm (by simpa using hxy) (by simpa using hyx)
    have hf : resume (y :: ys) x = { x with seq := y.seq } := by simp [resume, heq]
    rw [map_cons, hf, ih (pairwise_cons.1 hp).2 (pairwise_cons.1 ht).2]
    refine congrArg _ (map_congr_left fun z hz => (resume_cons_of_ne ?_).symm)
    exact (heq.trans_lt ((pairwise_cons.1 hp).1 z hz)).ne
  | case4 xs ys hc =>
    rcases xs with _ | ⟨x, xs⟩
    · rfl
    rcases ys with _ | ⟨y, ys⟩
    · exact (map_id'' (fun z => resume_of_ne (by simp)) _).symm
    · exact (hc x xs y ys rfl rfl).elim

/-- The predicate is called for the entries that are not in the second range, in order. -/
private lemma take_removeIfIntersectOrMatch {σ : Type} (pred : TxIDSeq TxID Sequence → StateM σ Bool)
    {range : Tracker TxID Sequence} {first1 i : ℕ} {second : List TxID} (hi : first1 ≤ i)
    (hr : (range.drop i).Pairwise Before) (hs : second.Pairwise (· ≤ ·)) :
    (fun r => r.1.take r.2) <$> removeIfIntersectOrMatch pred (fun x id => x.txid < id) (fun id x => id < x.txid)
      range first1 i second = reverse <$> filterAuxM (fun x => not <$> pred x)
        ((range.drop i).filter (·.txid ∉ second)) (range.take first1).reverse := by
  fun_induction removeIfIntersectOrMatch pred _ _ range first1 i second with
  | case1 range first1 i second hlen hh ih1 ih2 =>
    have hset : (if i ≠ first1 then range.set first1 range[i] else range) = range.set first1 range[i] := by
      split_ifs with hne
      · rfl
      · obtain rfl := not_not.1 hne
        exact (set_getElem_self hlen).symm
    have hmem : range[i].txid ∉ second := by
      rcases second with _ | ⟨y, ys⟩
      · exact not_mem_nil
      have hlt : range[i].txid < y := by simpa using hh
      refine fun h => (hlt.trans_le ?_).false
      exact (mem_cons.1 h).elim ge_of_eq ((pairwise_cons.1 hs).1 _)
    have hd : (range.set first1 range[i]).drop (i + 1) = range.drop (i + 1) := drop_set_of_lt (by omega)
    have ht : (range.set first1 range[i]).take (first1 + 1) = range.take first1 ++ [range[i]] := by
      rw [take_succ_eq_append_getElem (by rw [length_set]; omega), getElem_set_self, take_set_of_le le_rfl]
    rw [drop_eq_getElem_cons hlen] at hr ⊢
    rw [filter_cons_of_pos (by simpa using hmem), filterAuxM, map_bind, map_bind, bind_map_left]
    refine bind_congr fun matched => ?_
    cases matched with
    | true => exact ih1 (by omega) (pairwise_cons.1 hr).2 hs
    | false =>
      rw [dite_eq_ite, hset, hd, ht, reverse_append] at ih2
      dsimp only
      rw [hset]
      exact ih2 (by omega) (pairwise_cons.1 hr).2 hs
  | case2 range first1 i hlen hh => exact absurd rfl hh
  | case3 range first1 i hlen y ys hh ih =>
    have hle : y ≤ range[i].txid := by simpa using hh
    obtain ⟨hf, hre⟩ := pairwise_cons.1 (drop_eq_getElem_cons hlen ▸ hr)
    have hlt : ∀ z ∈ range.drop (i + 1), y < z.txid := fun z hz => hle.trans_lt (hf z hz)
    have hg : ∀ l : Tracker TxID Sequence, (∀ z ∈ l, y < z.txid) →
        l.filter (·.txid ∉ y :: ys) = l.filter (·.txid ∉ ys) := fun l hl =>
      filter_congr fun z hz => by simp [(hl z hz).ne']
    split_ifs at ih with hyx
    · have hlt' : y < range[i].txid := by simpa using hyx
      rw [if_pos hyx, ih hi hr (pairwise_cons.1 hs).2, hg]
      rw [drop_eq_getElem_cons hlen]
      exact forall_mem_cons.2 ⟨hlt', hlt⟩
    · have heq : range[i].txid = y := le_antisymm (by simpa using hyx) hle
      rw [if_neg hyx, ih (by omega) hre (pairwise_cons.1 hs).2, drop_eq_getElem_cons hlen,
        filter_cons_of_neg (by simp [heq]), hg _ hlt]
  | case4 range first1 i second hlen =>
    rw [drop_eq_nil_of_le (by omega)]
    simp [filterAuxM]

/-- The predicate may have a state of its own. -/
def check {σ : Type} (tracker : Tracker TxID Sequence) (accepted : List TxID) (pred : TxID → Sequence → StateM σ Bool) :
    StateM σ (Tracker TxID Sequence) :=
  (fun r => r.1.take r.2) <$> removeIfIntersectOrMatch (fun x => pred x.txid x.seq) (fun x id => x.txid < id)
    (fun id x => id < x.txid) tracker 0 0 (accepted.mergeSort (· ≤ ·))

private lemma check_eq {σ : Type} (ht : tracker.Pairwise Before) (accepted : List TxID)
    (pred : TxID → Sequence → StateM σ Bool) : check tracker accepted pred =
      (tracker.filter (·.txid ∉ accepted)).filterM fun x => not <$> pred x.txid x.seq := by
  have hs : (accepted.mergeSort (· ≤ ·)).Pairwise (· ≤ ·) := pairwise_mergeSort' _ _
  rw [check, take_removeIfIntersectOrMatch _ le_rfl ht hs]
  simp [filterM, mem_mergeSort]

variable [LinearOrder Sequence]

/-- `operator<`. -/
def TxIDSeq.lt (lhs rhs : TxIDSeq TxID Sequence) : Bool :=
  if lhs.txid ≠ rhs.txid then lhs.txid < rhs.txid else lhs.seq < rhs.seq

def propose (tracker proposed : Tracker TxID Sequence) : Tracker TxID Sequence :=
  generalizedSetIntersection (fun x y => { x with seq := y.seq }) (fun x y => x.txid < y.txid)
    (fun y x => y.txid < x.txid) (proposed.mergeSort fun a b => !b.lt a) tracker

/-- The trackers that some calls lead to. -/
inductive Reachable : Tracker TxID Sequence → Prop
  | start : Reachable []
  | propose {t : Tracker TxID Sequence} (p : Tracker TxID Sequence) : Reachable t → (p.map TxIDSeq.txid).Nodup →
    Reachable (propose t p)
  | check {t : Tracker TxID Sequence} {σ : Type} (accepted : List TxID) (pred : TxID → Sequence → StateM σ Bool) (s : σ) :
    Reachable t → Reachable (check t accepted pred s).1
  | reset {t : Tracker TxID Sequence} : Reachable t → Reachable []

private lemma pairwise_sorted (hp : (proposed.map TxIDSeq.txid).Nodup) :
    (proposed.mergeSort fun a b => !b.lt a).Pairwise Before := by
  have hle : ∀ a b : TxIDSeq TxID Sequence, (!b.lt a) = true ↔ toLex (a.txid, a.seq) ≤ toLex (b.txid, b.seq) := by
    intro a b
    rw [Prod.Lex.toLex_le_toLex]
    by_cases heq : b.txid = a.txid
    · simp [TxIDSeq.lt, heq]
    · simp [TxIDSeq.lt, heq, lt_iff_le_and_ne, Ne.symm heq]
  have hn := ((mergeSort_perm proposed fun a b => !b.lt a).map TxIDSeq.txid).nodup_iff.2 hp
  have hs : (proposed.mergeSort fun a b => !b.lt a).Pairwise fun a b => (!b.lt a) = true := pairwise_mergeSort
    (fun a b c hab hbc => (hle a c).2 (((hle a b).1 hab).trans ((hle b c).1 hbc)))
    (fun a b => by simpa only [Bool.or_eq_true, hle] using le_total _ _) _
  refine (hs.and (pairwise_map.1 hn)).imp fun ⟨h, hne⟩ => ?_
  exact (Prod.Lex.toLex_le_toLex.1 ((hle _ _).1 h)).resolve_right fun h => hne h.1

private lemma propose_eq (hp : (proposed.map TxIDSeq.txid).Nodup) (ht : tracker.Pairwise Before) :
    propose tracker proposed = (proposed.mergeSort fun a b => !b.lt a).map (resume tracker) :=
  generalizedSetIntersection_eq (pairwise_sorted hp) ht

private lemma filterM_sublist {σ α : Type} (pred : α → StateM σ Bool) (l : List α) (s : σ) :
    (l.filterM pred s).1 <+ l := by
  have ha : ∀ (l acc : List α) s, ∃ l', l' <+ l ∧ (filterAuxM pred l acc s).1 = l'.reverse ++ acc := by
    intro l
    induction l with
    | nil => exact fun acc s => ⟨[], .slnil, rfl⟩
    | cons a l ih =>
      intro acc s
      obtain ⟨l', hsub, heq⟩ := ih (bif (pred a s).1 then a :: acc else acc) (pred a s).2
      have hs : (filterAuxM pred (a :: l) acc s).1 =
        (filterAuxM pred l (bif (pred a s).1 then a :: acc else acc) (pred a s).2).1 := rfl
      rw [hs, heq]
      cases (pred a s).1 with
      | true => exact ⟨a :: l', hsub.cons_cons a, by simp⟩
      | false => exact ⟨l', hsub.cons a, rfl⟩
  obtain ⟨l', hsub, heq⟩ := ha l [] s
  have hr : (l.filterM pred s).1 = (filterAuxM pred l [] s).1.reverse := rfl
  rwa [hr, heq, append_nil, reverse_reverse]

private lemma Reachable.pairwise (h : Reachable tracker) : tracker.Pairwise Before := by
  induction h with
  | start => exact .nil
  | propose proposed _ hp ih =>
    rw [propose_eq hp ih]
    exact pairwise_map.2 (pairwise_sorted hp)
  | check accepted pred s _ ih =>
    rw [check_eq ih]
    exact (ih.sublist filter_sublist).sublist (filterM_sublist _ _ s)
  | reset => exact .nil

/-- After `propose` the tracker holds what was proposed, with the sequences it had before, and `check` calls the predicate
for each entry that was not accepted. -/
theorem tracked_exactly (h : Reachable tracker) :
    (∀ proposed : Tracker TxID Sequence, (proposed.map TxIDSeq.txid).Nodup →
      (propose tracker proposed).Pairwise Before ∧ ∀ x, x ∈ propose tracker proposed ↔ ∃ p ∈ proposed, x.txid = p.txid ∧
        (x ∈ tracker ∨ x = p ∧ ∀ y ∈ tracker, y.txid ≠ p.txid)) ∧
    ∀ (σ : Type) (accepted : List TxID) (pred : TxID → Sequence → StateM σ Bool), check tracker accepted pred =
      (tracker.filter (·.txid ∉ accepted)).filterM fun x => not <$> pred x.txid x.seq := by
  refine ⟨fun proposed hp => ⟨(h.propose proposed hp).pairwise, fun x => ?_⟩, fun σ => check_eq h.pairwise⟩
  rw [propose_eq hp h.pairwise, mem_map]
  simp only [mem_mergeSort, resume_eq_iff h.pairwise]

/-- Of two proposed transactions one is proposed again, with another one, and then a third time. -/
theorem tracked_exactly_twice :
    let tracker : Tracker ℕ ℕ := propose (propose [] [⟨4, 7⟩, ⟨2, 7⟩]) [⟨5, 8⟩, ⟨2, 8⟩]
    tracker = [⟨2, 7⟩, ⟨5, 8⟩] ∧ (∀ x, x ∈ propose tracker [⟨6, 9⟩, ⟨2, 9⟩] ↔ x = ⟨2, 7⟩ ∨ x = ⟨6, 9⟩) ∧
    check tracker [5, 1] (fun txid _ => modifyGet fun asked => (false, txid :: asked)) [] = ([⟨2, 7⟩], [2]) := by
  intro tracker
  have ht : tracker = [⟨2, 7⟩, ⟨5, 8⟩] := by
    simp [tracker, propose, generalizedSetIntersection, TxIDSeq.lt, mergeSort, MergeSort.Internal.splitInTwo]
  have hr : Reachable tracker := .propose _ (.propose _ .start (by decide)) (by decide)
  obtain ⟨hp, hc⟩ := tracked_exactly hr
  refine ⟨ht, fun x => ?_, ?_⟩
  · rw [(hp _ (by decide)).2, ht]
    obtain ⟨txid, seq⟩ := x
    simp
    omega
  · rw [hc, ht]
    rfl

end Xrpl.Consensus.RCLCensorshipDetector

import Xrpl.Validators.Listings

/-!
# The lists that wait

The lists of a publisher that wait should stand in the order in which they become effective, all of them after the
current one.  `applyLists` restores this with one pass over the lists of one publisher.

* `Ordered`: the lists are in order; `Tracked`: the greatest sequence that was seen is that of a list that is there,
  unless the publisher was revoked;
* `Spaced`: of two lists with a third one between them the earlier one becomes effective earlier; then one pass is
  enough (`pairwise_cleanUpList`);
* `Orderly`: a call with the lists of one publisher only, which are spaced together with those that wait;
* `pending_ordered`: after any orderly calls the lists are in order;
* `verify_never_throws`: whatever the dates are, checking the lists of a publisher that is not revoked does not throw.
-/

/-- What is left of an increasing list after the elements up to a bound lies above the bound. -/
private lemma List.Pairwise.lt_of_mem_dropWhile {α : Type} {f : α → ℕ} {l : List α}
    (h : l.Pairwise fun a b => f a < f b)
    {t : ℕ} {a : α} (ha : a ∈ l.dropWhile fun b => f b ≤ t) : t < f a := by
  induction l with
  | nil => cases ha
  | cons b l ih =>
    rw [pairwise_cons] at h
    rw [dropWhile_cons] at ha
    split_ifs at ha with hle
    · exact ih h.2 ha
    have hlt : t < f b := by simpa using hle
    rcases mem_cons.1 ha with rfl | ha
    · exact hlt
    · exact hlt.trans (h.1 a ha)

namespace Xrpl.Validators

open List PublisherListStats ListDisposition OrderedMap

open Option hiding or_assoc all_eq_true

namespace PublisherListCollection

variable {c : PublisherListCollection} {d : ListData} {now : ℕ} {disposition : ListDisposition}

/-- Of two lists with a third one between them the earlier one becomes effective earlier. -/
def Spaced (waits : ℕ → ℕ → Prop) : Prop :=
  ∀ s₁ f₁ s₂ f₂ s₃ f₃, waits s₁ f₁ → waits s₂ f₂ → waits s₃ f₃ → s₁ < s₂ → s₂ < s₃ → f₁ < f₃

variable {l : List (ℕ × PublisherList)} {e : ℕ × PublisherList} {current : ℕ} {waits : ℕ → ℕ → Prop} {closeTime : ℕ}

private lemma lt_of_mem_cleanUpList (he : e ∈ cleanUpList current l) : current < e.1 := by
  induction l with
  | nil => cases he
  | cons iter rest ih =>
    rw [cleanUpList] at he
    split_ifs at he with hd
    · exact ih he
    rcases mem_cons.1 he with rfl | he
    · simp only [Bool.or_eq_true, decide_eq_true_eq, not_or, Nat.not_le] at hd
      exact hd.1
    · exact ih he

private lemma pairwise_cleanUpList (hs : Spaced waits) (current : ℕ) (hsrt : l.Pairwise fun e e' => e.1 < e'.1)
    (hw : ∀ e ∈ l, waits e.1 e.2.validFrom) :
    (cleanUpList current l).Pairwise fun e e' => e.2.validFrom < e'.2.validFrom := by
  induction l with
  | nil => exact .nil
  | cons iter rest ih =>
    have hsrt' := pairwise_cons.1 hsrt
    have ih := ih hsrt'.2 fun e he => hw e (mem_cons_of_mem _ he)
    rw [cleanUpList]
    split_ifs with hd
    · exact ih
    refine .cons (fun e he => ?_) ih
    have hr := (cleanUpList_sublist current rest).subset he
    cases rest with
    | nil => cases hr
    | cons next rest =>
      simp only [head?_cons, any_some, Bool.or_eq_true, decide_eq_true_eq, not_or, Nat.not_le] at hd
      rcases mem_cons.1 hr with rfl | hl
      · exact hd.2
      -- the next list stands between the two
      have hn := mem_cons_self (a := next) (l := rest)
      exact hs _ _ _ _ _ _ (hw iter mem_cons_self) (hw next (mem_cons_of_mem _ hn))
        (hw e (mem_cons_of_mem _ hr)) (hsrt'.1 next hn)
        ((pairwise_cons.1 hsrt'.2).1 e hl)

private lemma mem_cleanUpList_of_last (hs : l.Pairwise fun e e' => e.1 < e'.1) (he : e ∈ l) (hl : ∀ e' ∈ l, e'.1 ≤ e.1)
    (hc : current < e.1) : e ∈ cleanUpList current l := by
  induction l with
  | nil => cases he
  | cons iter rest ih =>
    have hs' := pairwise_cons.1 hs
    rw [cleanUpList]
    rcases mem_cons.1 he with rfl | he
    · have hr : rest = [] := by
        refine eq_nil_iff_forall_not_mem.2 fun e' he' => ?_
        have hlt := hs'.1 e' he'
        have hle := hl e' (mem_cons_of_mem _ he')
        omega
      rw [hr, if_neg (by simpa using hc)]
      exact mem_cons_self ..
    · have ih := ih hs'.2 he fun e' he' => hl e' (mem_cons_of_mem _ he')
      split_ifs
      · exact ih
      · exact mem_cons_of_mem _ ih

/-! ### The invariants -/

/-- What is known of the calls: the lists are spaced, the publisher may be revoked, and a sequence that was current. -/
structure Terms where
  timely : Prop
  revoked : Prop
  base : ℕ

variable {T : Terms}

/-- The lists that wait come after the current one, and, if they are `timely`, they become effective one after the
other. -/
structure Ordered (T : Terms) (c : PublisherListCollection) : Prop where
  above : ∀ e ∈ c.remaining.entries, c.current.sequence < e.1
  increasing : T.timely → c.remaining.entries.Pairwise fun e e' => e.2.validFrom < e'.2.validFrom

/-- The greatest sequence is that of a waiting list or of the current one, unless the publisher was `revoked` and no list
waits; the sequence of the current one is at least `base`. -/
structure Tracked (T : Terms) (c : PublisherListCollection) : Prop where
  grown : T.base ≤ c.current.sequence
  keyed : ∀ e ∈ c.remaining.entries, e.2.sequence = e.1
  le_max : ∀ e ∈ c.remaining.entries, ∃ m, c.maxSequence = some m ∧ e.1 ≤ m
  current_le : ∀ m, c.maxSequence = some m → c.current.sequence ≤ m
  last : ∀ m, c.maxSequence = some m →
    (c.remaining.find m).isSome ∨ m = c.current.sequence ∨ T.revoked ∧ c.remaining.entries = []

private lemma Ordered.of_nil (h : c.remaining.entries = []) : Ordered T c := by
  refine ⟨fun e he => ?_, fun _ => ?_⟩
  · rw [h] at he
    cases he
  · rw [h]
    exact .nil

private lemma Ordered.remove (h : Ordered T c) (reason : PublisherStatus) : Ordered T (c.remove reason) :=
  ⟨h.above, h.increasing⟩

namespace Tracked

private lemma remove (h : Tracked T c) (reason : PublisherStatus) : Tracked T (c.remove reason) := { h with }

private lemma clear (h : Tracked T c) (hr : T.revoked) : Tracked T { c with remaining := .empty } :=
  ⟨h.grown, nofun, nofun, h.current_le, fun _ _ => .inr (.inr ⟨hr, rfl⟩)⟩

/-- If the greatest sequence is not waiting although a list should come before it, no list waits. -/
private lemma entries_eq_nil_of_throws (h : Tracked T c) {e : Thrown} (hj : c.judge now d = .error e) :
    T.revoked ∧ c.remaining.entries = [] := by
  obtain ⟨hc, m, hmax, hle, hf⟩ := judge_throws hj
  rcases h.last m hmax with hs | heq | hn
  · rw [hf] at hs
    cases hs
  · omega
  · exact hn

private lemma elim_max_cases (c : PublisherListCollection) (s : ℕ) :
    (∃ m, c.maxSequence = some m ∧ s ≤ m ∧ c.maxSequence.elim s (max s) = m) ∨ c.maxSequence.elim s (max s) = s := by
  cases c.maxSequence with
  | none => exact .inr rfl
  | some m => exact (le_total s m).imp (fun hle => ⟨m, rfl, hle, max_eq_right hle⟩) max_eq_left

private lemma le_elim_max {s : ℕ} (hs : (∃ m, c.maxSequence = some m ∧ s ≤ m) ∨ s = d.sequence) :
    s ≤ c.maxSequence.elim d.sequence (max d.sequence) := by
  rcases hs with ⟨m, hmax, hle⟩ | rfl
  · rw [hmax]
    exact hle.trans (le_max_right ..)
  · cases c.maxSequence with
    | none => exact le_rfl
    | some m => exact le_max_left ..

variable (h : Tracked T c)

include h

private lemma take_accepted (hc : c.current.sequence < d.sequence) (ha : disposition.accepts = true) :
    Tracked T (c.take d disposition) := by
  have hseq : ((c.remaining.find d.sequence).getD (c.current.assign d)).sequence = d.sequence := by
    cases hf : c.remaining.find d.sequence with
    | some publisher => exact h.keyed _ (find_eq_some.1 hf)
    | none => rfl
  rw [take_of_accepts ha]
  refine ⟨?_, fun e he => h.keyed e (mem_of_mem_filter he), fun e he => ?_, fun m hm => ?_, fun m hm => ?_⟩
  · rw [hseq]
    exact h.grown.trans hc.le
  · exact ⟨_, rfl, le_elim_max (.inl (h.le_max e (mem_of_mem_filter he)))⟩
  · rw [← some.inj hm, hseq]
    exact le_elim_max (.inr rfl)
  rw [← some.inj hm, hseq]
  rcases elim_max_cases c d.sequence with ⟨m', hmax, hle, heq⟩ | heq
  · rw [heq]
    rcases h.last m' hmax with hs | hm' | ⟨hr, hn⟩
    · by_cases hm' : m' = d.sequence
      · exact .inr (.inl hm')
      · refine .inl ?_
        rwa [find_erase, if_neg hm']
    · omega
    · exact .inr (.inr ⟨hr, filter_eq_nil_iff.2 fun e he => by simp [hn] at he⟩)
  · exact .inr (.inl heq)

private lemma take_pending (hc : c.current.sequence < d.sequence) (hmax : ∀ m, c.maxSequence = some m → m < d.sequence ∨
      c.remaining.find d.sequence = none ∧ (c.remaining.find m).isSome) : Tracked T (c.take d .pending) := by
  refine ⟨h.grown, fun e he => ?_, fun e he => ?_, fun m hm => ?_, fun m hm => ?_⟩
  · rcases mem_assign he with ⟨hk, u, heq⟩ | ⟨-, hold⟩
    · rw [heq, hk]
      rfl
    · exact h.keyed e hold
  · refine ⟨_, rfl, le_elim_max ?_⟩
    rcases mem_assign he with ⟨hk, -⟩ | ⟨-, hold⟩
    · exact .inr hk
    · exact .inl (h.le_max e hold)
  · rw [← some.inj hm]
    exact hc.le.trans (le_elim_max (.inr rfl))
  rw [← some.inj hm]
  refine .inl ((find_assign_isSome ..).2 ?_)
  rcases elim_max_cases c d.sequence with ⟨m', hm', hle, heq⟩ | heq
  · rw [heq]
    rcases hmax m' hm' with hlt | hs
    · omega
    · exact .inr hs.2
  · exact .inl heq

private lemma take (hj : c.judge now d = .ok disposition)
    (hr : disposition.rank ≤ pending.rank) : Tracked T (c.take d disposition) := by
  obtain ⟨hc, hjud⟩ := judge_cases hj hr
  cases hjud with
  | accepted | expired => exact h.take_accepted hc rfl
  | pending hp hv hmax => exact h.take_pending hc hmax

private lemma cleanUp : Tracked T c.cleanUp := by
  have hsub := (cleanUpList_sublist c.current.sequence c.remaining.entries).subset
  refine ⟨h.grown, fun e he => h.keyed e (hsub he), fun e he => h.le_max e (hsub he), h.current_le, fun m hm => ?_⟩
  rcases h.last m hm with hs | heq | ⟨hr, hn⟩
  · obtain ⟨last, hl⟩ := isSome_iff_exists.1 hs
    have hmem := find_eq_some.1 hl
    rcases (h.current_le m hm).lt_or_eq with hlt | heq
    · refine .inl (isSome_iff_exists.2 ⟨last, find_eq_some.2 ?_⟩)
      refine mem_cleanUpList_of_last c.remaining.sorted hmem (fun e he => ?_) hlt
      obtain ⟨m', hm', hle⟩ := h.le_max e he
      exact hle.trans (some.inj (hm'.symm.trans hm)).le
    · exact .inr (.inl heq.symm)
  · exact .inr (.inl heq)
  refine .inr (.inr ⟨hr, eq_nil_iff_forall_not_mem.2 fun e he => ?_⟩)
  have hmem := hsub he
  rw [hn] at hmem
  cases hmem

end Tracked

section

variable (c : PublisherListCollection)

variable (closeTime : ℕ)

private lemma rotated_cases :
    c.rotated closeTime = c ∨ ∃ ready e, c.remaining.entries = ready ++ e :: (c.rotated closeTime).remaining.entries ∧
      (c.rotated closeTime).current.sequence = e.2.sequence := by
  rw [rotated]
  cases hc : c.candidate closeTime with
  | none => exact .inl rfl
  | some candidate =>
    obtain ⟨e, he, rfl⟩ := map_eq_some_iff.1 hc
    obtain ⟨ready, hr⟩ := getLast?_eq_some_iff.1 he
    refine .inr ⟨ready, e, ?_, ?_⟩
    · have hs := takeWhile_append_dropWhile (p := fun e : ℕ × PublisherList => e.2.validFrom ≤ closeTime)
        (l := c.remaining.entries)
      rw [hr, append_assoc] at hs
      exact hs.symm
    · rw [elim_some, rotate]
      split_ifs <;> rfl

private lemma remaining_rotated :
    (c.rotated closeTime).remaining.entries = c.remaining.entries.dropWhile fun e => e.2.validFrom ≤ closeTime := by
  rw [rotated]
  cases hc : c.candidate closeTime with
  | none =>
    have hn : (c.remaining.entries.takeWhile fun e => e.2.validFrom ≤ closeTime) = [] := by
      rw [candidate, map_eq_none_iff, getLast?_eq_none_iff] at hc
      exact hc
    have hs := takeWhile_append_dropWhile (p := fun e : ℕ × PublisherList => e.2.validFrom ≤ closeTime)
      (l := c.remaining.entries)
    rw [hn] at hs
    exact hs.symm
  | some candidate => rfl

private lemma maxSequence_rotated : (c.rotated closeTime).maxSequence = c.maxSequence := by
  rw [rotated]
  cases c.candidate closeTime <;> rfl

end

private lemma mem_of_mem_rotated (he : e ∈ (c.rotated closeTime).remaining.entries) : e ∈ c.remaining.entries := by
  rw [remaining_rotated] at he
  exact (dropWhile_sublist _).subset he

private lemma Ordered.rotated (h : Ordered T c) (htrk : Tracked T c) (closeTime : ℕ) :
    Ordered T (c.rotated closeTime) := by
  have hi : T.timely → (c.rotated closeTime).remaining.entries.Pairwise fun e e' => e.2.validFrom < e'.2.validFrom := by
    rw [remaining_rotated]
    exact fun ht => (h.increasing ht).sublist (dropWhile_sublist _)
  rcases rotated_cases c closeTime with heq | ⟨ready, e, hs, hseq⟩
  · rwa [heq]
  refine ⟨fun e' he' => ?_, hi⟩
  have hsrt := c.remaining.sorted
  rw [hs, pairwise_append, pairwise_cons] at hsrt
  rw [hseq, htrk.keyed e (by rw [hs]; simp)]
  exact hsrt.2.1.1 e' he'

private lemma Tracked.rotated (h : Tracked T c) (ho : Ordered T c) (closeTime : ℕ) :
    Tracked T (c.rotated closeTime) := by
  rcases rotated_cases c closeTime with heq | ⟨ready, e, hspl, hseq⟩
  · rwa [heq]
  have he : e ∈ c.remaining.entries := by
    rw [hspl]
    simp
  obtain ⟨m, hm, hle⟩ := h.le_max e he
  rw [h.keyed e he] at hseq
  have ha := ho.above e he
  refine ⟨?_, fun e' he' => h.keyed e' (mem_of_mem_rotated he'), fun e' he' => ?_, fun m' hm' => ?_, fun m' hm' => ?_⟩
  · rw [hseq]
    exact h.grown.trans ha.le
  · rw [maxSequence_rotated]
    exact h.le_max e' (mem_of_mem_rotated he')
  · rw [maxSequence_rotated, hm] at hm'
    rw [hseq, ← some.inj hm']
    exact hle
  rw [maxSequence_rotated, hm] at hm'
  obtain rfl := some.inj hm'
  have hsrt := c.remaining.sorted
  rw [hspl, pairwise_append] at hsrt
  rcases h.last m hm with hs | heq | ⟨-, hn⟩
  · -- the greatest sequence is that of the list that goes live, or it comes later
    obtain ⟨last, hl⟩ := isSome_iff_exists.1 hs
    have hmem := find_eq_some.1 hl
    rw [hspl, mem_append, mem_cons] at hmem
    rcases hmem with hr | rfl | hlat
    · have hlt : m < e.1 := hsrt.2.2 _ hr e mem_cons_self
      omega
    · exact .inr (.inl hseq.symm)
    · exact .inl (isSome_iff_exists.2 ⟨last, find_eq_some.2 hlat⟩)
  · omega
  · rw [hn] at he
    cases he

/-- After `updateTrusted` every list that waits becomes effective later. -/
private lemma Ordered.lt_of_mem_settle (h : Ordered T c) (ht : T.timely)
    (he : e ∈ (c.settle closeTime).remaining.entries) : closeTime < e.2.validFrom := by
  have he' : e ∈ (c.rotated closeTime).remaining.entries := by
    rw [settle] at he
    split_ifs at he
    · exact he
    · exact he
  rw [remaining_rotated] at he'
  exact (h.increasing ht).lt_of_mem_dropWhile he'

private lemma Ordered.settle (h : Ordered T c) (ht : Tracked T c) (closeTime : ℕ) :
    Ordered T (c.settle closeTime) ∧ Tracked T (c.settle closeTime) := by
  have ho := h.rotated ht closeTime
  have ht' := ht.rotated h closeTime
  rw [PublisherListCollection.settle]
  split_ifs
  · exact ⟨ho.remove .expired, ht'.remove .expired⟩
  · exact ⟨ho, ht'⟩

/-- `chainedExpiration` follows the lists as long as they overlap, and then none of the others is effective in time. -/
private lemma chainedExpiration_spec (current : PublisherList) {lists : List PublisherList}
    (h : lists.Pairwise fun l l' => l.validFrom < l'.validFrom) :
    ∃ chain rest, lists = chain ++ rest ∧ (current :: chain).IsChain (fun l l' => l'.validFrom ≤ l.validUntil) ∧
      (current :: chain).getLast?.map PublisherList.validUntil = some (chainedExpiration current.validUntil lists) ∧
      ∀ l ∈ rest, chainedExpiration current.validUntil lists < l.validFrom := by
  induction lists generalizing current with
  | nil => exact ⟨[], [], rfl, .singleton _, rfl, nofun⟩
  | cons check lists ih =>
    rw [pairwise_cons] at h
    rw [chainedExpiration]
    split_ifs with hov
    · obtain ⟨chain, rest, rfl, hc, hla, hr⟩ := ih check h.2
      exact ⟨check :: chain, rest, rfl, .cons_cons hov hc, by rwa [getLast?_cons_cons], hr⟩
    refine ⟨[], check :: lists, rfl, .singleton _, rfl, fun l hl => ?_⟩
    rcases mem_cons.1 hl with rfl | hl
    · exact Nat.not_le.1 hov
    · exact (Nat.not_le.1 hov).trans (h.1 l hl)

private lemma Ordered.cleanUp (h : Ordered T c) : Ordered T c.cleanUp := by
  have hs := cleanUpList_sublist c.current.sequence c.remaining.entries
  exact ⟨fun e he => h.above e (hs.subset he), fun ht => (h.increasing ht).sublist hs⟩

end PublisherListCollection

namespace PublisherListStats

variable {result stats : PublisherListStats} {P : PublicKey}

def Stored (s : PublisherListStats) : Prop := s.bestDisposition.rank ≤ pending.rank

private lemma rank_foldl_le {l : List ListDisposition} {best : ListDisposition} {r : ℕ} :
    (l.foldl (fun best d => if d.rank < best.rank then d else best) best).rank ≤ r ↔
      best.rank ≤ r ∨ ∃ d ∈ l, d.rank ≤ r := by
  induction l generalizing best with
  | nil => simp
  | cons d l ih =>
    rw [foldl_cons, ih, exists_mem_cons_iff, ← or_assoc]
    refine or_congr_left ?_
    split_ifs <;> omega

private lemma stored_iff : stats.Stored ↔ ∃ d ∈ stats.dispositions, d.rank ≤ pending.rank := by
  rw [Stored, bestDisposition, rank_foldl_le]
  exact or_iff_right (by decide)

lemma not_stored {disposition : ListDisposition} (hs : stats.dispositions = [disposition])
    (hr : pending.rank < disposition.rank) : ¬ stats.Stored := by
  rw [stored_iff, hs]
  simpa using hr

private lemma not_stored_empty : ¬ ({} : PublisherListStats).Stored := by
  rw [stored_iff]
  simp

private lemma stored_merge : (result.merge stats).Stored ↔ result.Stored ∨ stats.Stored := by
  have hp : (result.merge stats).dispositions.Perm (result.dispositions ++ stats.dispositions) := by
    rw [merge]
    split_ifs
    · exact perm_append_comm
    · exact .refl _
  simp only [stored_iff, hp.mem_iff, mem_append, or_and_right, exists_or]

private lemma publisherKey_merge (hres : result.Stored → result.publisherKey = some P)
    (hst : stats.Stored → stats.publisherKey = some P) (h : (result.merge stats).Stored) :
    (result.merge stats).publisherKey = some P := by
  rw [stored_merge] at h
  rw [merge]
  split_ifs with hb
  · refine hst (h.elim (fun hr => ?_) id)
    rw [Stored] at hr ⊢
    rcases hb with hlt | ⟨heq, -⟩
    · omega
    · rwa [heq]
  · refine hres (h.elim id fun hs => ?_)
    rw [Stored] at hs ⊢
    omega

end PublisherListStats

/-! ### Calls in order -/

structure ListJson.NonNegative (j : ListJson) : Prop where
  sequence : ∀ n, j.sequence = some n → 0 ≤ n
  expiration : ∀ n, j.expiration = some n → 0 ≤ n
  effective : ∀ n, j.effective = some (some n) → 0 ≤ n

private lemma ListJson.NonNegative.data_ne {j : ListJson} (h : j.NonNegative) (e : Thrown) :
    j.data ≠ some (.error e) := by
  have hasUInt : ∀ n : ℤ, 0 ≤ n → asUInt n = .ok n.toNat := fun n hn => if_neg (Int.not_lt.2 hn)
  have he : ∀ n, j.effective.getD (some 0) = some n → 0 ≤ n := by
    intro n hn
    cases heq : j.effective with
    | none =>
      rw [heq] at hn
      exact (some.inj hn).le
    | some f =>
      rw [heq] at hn
      exact h.effective n (heq.trans (congrArg some hn))
  rw [data]
  split
  next hs hexp heff hv =>
    rw [hasUInt _ (h.sequence _ hs), hasUInt _ (he _ heff), hasUInt _ (h.expiration _ hexp)]
    intro heq
    cases heq
  next => exact nofun

namespace ValidatorList

open PublisherListCollection

variable {vl vl' : ValidatorList} {manifest : RawManifest} {blob : ValidatorBlobInfo} {now : ℕ} {P : PublicKey} {T : Terms}

def publisherOf (manifest : RawManifest) (blob : ValidatorBlobInfo) : Option PublicKey :=
  (deserializeManifest (blob.manifest.getD manifest)).map Manifest.masterKey

/-- The lists of a call are of one publisher and have no negative numbers. -/
def OnePublisher (manifest : RawManifest) (blobs : List (ValidatorBlobInfo × ℕ)) : Prop :=
  (∀ b ∈ blobs, ∀ b' ∈ blobs, ∀ P P', publisherOf manifest b.1 = some P → publisherOf manifest b'.1 = some P' →
    P = P') ∧
  ∀ b ∈ blobs, ∀ j, b.1.list = some j → j.NonNegative

/-- The list is neither stored nor makes the check throw, unless it is of the publisher `P`; and it does not throw when it
is read. -/
structure Fits (manifest : RawManifest) (waits : ℕ → ℕ → Prop) (P : PublicKey) (vl : ValidatorList)
    (b : ValidatorBlobInfo × ℕ) : Prop where
  stored : ∀ m c d disposition, Takes vl manifest b m c d disposition →
    m.masterKey = P ∧ (b.2 < d.validFrom → waits d.sequence d.validFrom)
  readable : ∀ m e, deserializeManifest (b.1.manifest.getD manifest) = some m → vl.SignedBy b.1 m →
    b.1.list.bind ListJson.data ≠ some (.error e)
  throws : ∀ m c d e, deserializeManifest (b.1.manifest.getD manifest) = some m → vl.SignedBy b.1 m →
    (vl.applyPublisherManifest m).2.publisherLists.lookup m.masterKey = some c →
    b.1.list.bind ListJson.data = some (.ok d) → c.judge b.2 d = .error e → m.masterKey = P

/-- The lists of a call fit one publisher, and those of the publisher that wait or are stored to wait are spaced. -/
def Orderly (vl : ValidatorList) : ListCall → Prop
  | .applyLists manifest version blobs => kSupportedListVersions.count version = 1 → ∃ P waits, Spaced waits ∧
    (∀ c, vl.publisherLists.lookup P = some c → ∀ e ∈ c.remaining.entries, waits e.1 e.2.validFrom) ∧
    ForEach (Fits manifest waits P) manifest blobs vl
  | .updateTrusted _ _ => True

/-- The lists of a publisher while a call is at work. -/
structure Midway (T : Terms) (waits : ℕ → ℕ → Prop) (P : PublicKey) (result : PublisherListStats) (vl : ValidatorList) :
    Prop where
  tracked : ∀ c, vl.publisherLists.lookup P = some c → Tracked T c
  waits : ∀ c, vl.publisherLists.lookup P = some c → ∀ e ∈ c.remaining.entries, waits e.1 e.2.validFrom
  ordered : (∀ c, vl.publisherLists.lookup P = some c → Ordered T c) ∨ result.Stored
  named : result.Stored → result.publisherKey = some P

namespace Midway

variable {waits : ℕ → ℕ → Prop} {result stats : PublisherListStats}

variable (h : Midway T waits P result vl)

include h

private lemma applyPublisherManifest {m : Manifest} (hr : P = m.masterKey → m.revoked → T.revoked) :
    Midway T waits P result (vl.applyPublisherManifest m).2 := by
  have hcas : ∀ c, (vl.applyPublisherManifest m).2.publisherLists.lookup P = some c →
      vl.publisherLists.lookup P = some c ∨ T.revoked ∧
        ∃ c', vl.publisherLists.lookup P = some c' ∧ c = { c'.remove .revoked with remaining := .empty } := by
    intro c hc
    rw [lookup_applyPublisherManifest] at hc
    split_ifs at hc with ha
    · obtain ⟨c', hc', rfl⟩ := map_eq_some_iff.1 hc
      exact .inr ⟨hr ha.1 ha.2.1, c', hc', rfl⟩
    · exact .inl hc
  refine ⟨fun c hc => ?_, fun c hc => ?_, h.ordered.imp_left fun ho c hc => ?_, h.named⟩
  · rcases hcas c hc with hc | ⟨hr, c', hc', rfl⟩
    · exact h.tracked c hc
    · exact ((h.tracked c' hc').remove .revoked).clear hr
  · rcases hcas c hc with hc | ⟨-, c', hc', rfl⟩
    · exact h.waits c hc
    · exact fun e he => (nomatch he)
  · rcases hcas c hc with hc | ⟨-, c', hc', rfl⟩
    · exact ho c hc
    · exact .of_nil rfl

private lemma merge_of_not_stored (hs : ¬ stats.Stored) : Midway T waits P (result.merge stats) vl :=
  ⟨h.tracked, h.waits, h.ordered.imp_right fun hsto => stored_merge.2 (.inl hsto),
    publisherKey_merge h.named fun hsto => absurd hsto hs⟩

private lemma takeList {c : PublisherListCollection}
    (hc : vl.publisherLists.lookup P = some c) {d : ListData} {disposition : ListDisposition}
    (hj : c.judge now d = .ok disposition) (hr : disposition.rank ≤ pending.rank)
    (hw : now < d.validFrom → waits d.sequence d.validFrom) (hs : stats.dispositions = [disposition])
    (hk : stats.publisherKey = some P) :
    Midway T waits P (result.merge stats) (vl.takeList P c d disposition) := by
  have hlk : (vl.takeList P c d disposition).publisherLists.lookup P = some (c.take d disposition) := by
    rw [(relists_takeList ..).lookup, if_pos rfl, hc, map_some]
  have hsto : stats.Stored := stored_iff.2 ⟨disposition, by simp [hs], hr⟩
  have hold := h.waits c hc
  obtain ⟨-, hjud⟩ := judge_cases hj hr
  refine ⟨fun c' hc' => ?_, fun c' hc' => ?_, .inr (stored_merge.2 (.inr hsto)), publisherKey_merge h.named fun _ => hk⟩
  · obtain rfl := some.inj (hlk.symm.trans hc')
    exact (h.tracked c hc).take hj hr
  obtain rfl := some.inj (hlk.symm.trans hc')
  have ha : disposition.accepts = true → ∀ e ∈ (c.take d disposition).remaining.entries, waits e.1 e.2.validFrom := by
    intro hacc e he
    rw [take_of_accepts hacc] at he
    exact hold e (mem_of_mem_filter he)
  cases hjud with
  | accepted => exact ha rfl
  | expired => exact ha rfl
  | pending hp hv hmax =>
    intro e he
    rcases mem_assign he with ⟨hk, u, heq⟩ | ⟨-, hmem⟩
    · rw [heq, hk]
      exact hw hp
    · exact hold e hmem

end Midway

def InOrder (T : Terms) (vl : ValidatorList) (P : PublicKey) : Prop :=
  ∀ c, vl.publisherLists.lookup P = some c → Ordered T c ∧ Tracked T c

section Blobs

variable {waits : ℕ → ℕ → Prop} {result : PublisherListStats}

private lemma InOrder.midway (h : InOrder T vl P)
    (hw : ∀ c, vl.publisherLists.lookup P = some c → ∀ e ∈ c.remaining.entries, waits e.1 e.2.validFrom) :
    Midway T waits P {} vl := by
  exact ⟨fun c hc => (h c hc).2, hw, .inl fun c hc => (h c hc).1, fun hsto => absurd hsto not_stored_empty⟩

private lemma InOrder.applyPublisherManifest {m : Manifest} (h : InOrder T vl P)
    (hr : P = m.masterKey → m.revoked → T.revoked) :
    InOrder T (vl.applyPublisherManifest m).2 P := by
  have hmid : Midway T (fun _ _ => True) P {} vl := h.midway fun _ _ _ _ => trivial
  replace hmid := hmid.applyPublisherManifest hr
  exact fun c hc => ⟨hmid.ordered.resolve_right not_stored_empty c hc, hmid.tracked c hc⟩

private lemma midway_applyList (h : Midway T waits P result vl) (hf : Fits manifest waits P vl (blob, now))
    (hr : ∀ m, deserializeManifest (blob.manifest.getD manifest) = some m → P = m.masterKey → m.revoked → T.revoked) :
    Meets (fun _ => T.revoked ∧ InOrder T (vl.applyList manifest blob now).1 P) (vl.applyList manifest blob now).2
      fun stats => Midway T waits P (result.merge stats) (vl.applyList manifest blob now).1 := by
  have ha := applyList_applied vl manifest blob now
  generalize vl.applyList manifest blob now = r at ha ⊢
  obtain ⟨vl1, r⟩ := r
  cases ha with
  | refused disposition hra => exact h.merge_of_not_stored (not_stored rfl hra)
  | noted m hm hP stats disposition hs hra =>
    exact (h.applyPublisherManifest (hr m hm)).merge_of_not_stored (not_stored hs hra)
  | threw m hm hP hsig e he =>
    rcases he with he | ⟨c, d, hc, hd, hj⟩
    · exact absurd he (hf.readable m e hm hsig)
    rw [hf.throws m c d e hm hsig hc hd hj] at hc
    have ht := (h.applyPublisherManifest (hr m hm)).tracked c hc
    obtain ⟨hrev, hn⟩ := ht.entries_eq_nil_of_throws hj
    refine ⟨hrev, fun c' hc' => ?_⟩
    obtain rfl := some.inj (hc.symm.trans hc')
    exact ⟨.of_nil hn, ht⟩
  | taken m c d disposition ht stats hs hk vl1 hvl1 =>
    subst hvl1
    obtain ⟨hmst, hw⟩ := hf.stored m c d disposition ht
    have hc := ht.collection
    rw [hmst] at hc hk ⊢
    exact (h.applyPublisherManifest (hr m ht.manifest)).takeList hc ht.judge ht.rank hw hs hk

variable {blobs : List (ValidatorBlobInfo × ℕ)}

private lemma midway_applyBlobs (h : Midway T waits P result vl)
    (hf : ForEach (Fits manifest waits P) manifest blobs vl)
    (hr : ∀ b ∈ blobs, ∀ m, deserializeManifest (b.1.manifest.getD manifest) = some m → P = m.masterKey → m.revoked →
      T.revoked) :
    Meets (fun _ => T.revoked ∧ InOrder T (applyBlobs manifest blobs result vl).1 P)
      (applyBlobs manifest blobs result vl).2
      fun result' => Midway T waits P result' (applyBlobs manifest blobs result vl).1 := by
  induction blobs generalizing result vl with
  | nil => exact h
  | cons b blobs ih =>
    obtain ⟨blob, now⟩ := b
    obtain ⟨hb, hf⟩ := hf
    have hs := midway_applyList h hb (hr (blob, now) mem_cons_self)
    rw [applyBlobs]
    generalize vl.applyList manifest blob now = r at hs hf ⊢
    obtain ⟨vl1, r⟩ := r
    cases r with
    | error e => exact hs
    | ok stats => exact ih hs (hf rfl) fun b hb => hr b (mem_cons_of_mem _ hb)

end Blobs

lemma cleanUp_eq (vl : ValidatorList) (result : PublisherListStats) : (vl.cleanUp result).1 =
    result.publisherKey.elim vl fun P => vl.modifyCollection P PublisherListCollection.cleanUp := by
  rw [cleanUp]
  cases result.publisherKey with
  | none => rfl
  | some P =>
    dsimp only
    cases hc : vl.publisherLists.lookup P with
    | none =>
      refine (modifyCollection_of_fixed fun c hc' => ?_).symm
      cases hc.symm.trans hc'
    | some c => rfl

lemma lookup_cleanUp (vl : ValidatorList) (result : PublisherListStats) (P : PublicKey) :
    (vl.cleanUp result).1.publisherLists.lookup P =
      if result.publisherKey = some P then (vl.publisherLists.lookup P).map PublisherListCollection.cleanUp
      else vl.publisherLists.lookup P := by
  rw [cleanUp_eq]
  cases result.publisherKey with
  | none => rfl
  | some pubKey =>
    rw [elim_some, (Relists.refl _).lookup]
    simp only [some.injEq, eq_comm]

private lemma InOrder.cleanUp (h : InOrder T vl P) (result : PublisherListStats) :
    InOrder T (vl.cleanUp result).1 P := by
  intro c hc
  rw [lookup_cleanUp] at hc
  split_ifs at hc
  · obtain ⟨c', hc', rfl⟩ := map_eq_some_iff.1 hc
    exact ⟨(h c' hc').1.cleanUp, (h c' hc').2.cleanUp⟩
  · exact h c hc

private lemma Midway.cleanUp {waits : ℕ → ℕ → Prop} {result : PublisherListStats}
    (h : Midway T waits P result vl) (hs : T.timely → Spaced waits) :
    InOrder T (vl.cleanUp result).1 P := by
  rcases h.ordered with ho | hsto
  · exact InOrder.cleanUp (fun c hc => ⟨ho c hc, h.tracked c hc⟩) result
  intro c hc
  rw [lookup_cleanUp, if_pos (h.named hsto)] at hc
  obtain ⟨c', hc', rfl⟩ := map_eq_some_iff.1 hc
  refine ⟨⟨fun _ he => lt_of_mem_cleanUpList he, fun ht => ?_⟩, (h.tracked c' hc').cleanUp⟩
  exact pairwise_cleanUpList (hs ht) _ c'.remaining.sorted (h.waits c' hc')

variable {version : ℕ} {blobs : List (ValidatorBlobInfo × ℕ)}

section Lists

variable (h : InOrder T vl P)
  (hr : ∀ b ∈ blobs, ∀ m, deserializeManifest (b.1.manifest.getD manifest) = some m → P = m.masterKey → m.revoked →
    T.revoked)

include h hr

private lemma inOrder_applyLists (version : ℕ) {waits : ℕ → ℕ → Prop} (hs : T.timely → Spaced waits)
    (hw : ∀ c, vl.publisherLists.lookup P = some c → ∀ e ∈ c.remaining.entries, waits e.1 e.2.validFrom)
    (hf : ForEach (Fits manifest waits P) manifest blobs vl) :
    InOrder T (vl.applyLists manifest version blobs).1 P ∧
      ∀ e, (vl.applyLists manifest version blobs).2 = .error e → T.revoked := by
  have hend := midway_applyBlobs (h.midway hw) hf hr
  rw [applyLists]
  split_ifs
  · exact ⟨h, fun e he => by cases he⟩
  generalize applyBlobs manifest blobs {} vl = r at hend ⊢
  obtain ⟨vl1, r⟩ := r
  cases r with
  | error e => exact ⟨hend.2, fun _ _ => hend.1⟩
  | ok result => exact ⟨Midway.cleanUp hend hs, fun e he => by cases he⟩

/-- The lists of a publisher stay as they are while lists of other publishers are stored. -/
private lemma inOrder_applyLists_of_ne {C : ValidatorList → ValidatorBlobInfo × ℕ → Prop}
    (hf : ForEach C manifest blobs vl)
    (hne : ∀ vl b m c d disposition, C vl b → Takes vl manifest b m c d disposition → P ≠ m.masterKey) :
    InOrder T (vl.applyLists manifest version blobs).1 P := by
  refine applyLists_keeps (I := (InOrder T · P)) h (fun _ => ?_) fun _ result hvl => hvl.cleanUp result
  refine applyBlobs_keeps (I := (InOrder T · P)) hf (fun b hb vl hvl hc => ?_) {} h
  refine applyList_keeps (I := (InOrder T · P)) hvl (fun m hm => hvl.applyPublisherManifest (hr b hb m hm)) ?_
  intro m c d disposition ht c' hc'
  rw [(relists_takeList ..).lookup, if_neg (hne vl b m c d disposition hc ht)] at hc'
  exact hvl.applyPublisherManifest (hr b hb m ht.manifest) c' hc'

end Lists

private lemma inOrder_updateTrusted (h : InOrder T vl P) (closeTime now : ℕ) :
    InOrder T (vl.updateTrusted closeTime now) P := by
  intro c hc
  rw [lookup_updateTrusted] at hc
  obtain ⟨c', hc', rfl⟩ := map_eq_some_iff.1 hc
  exact (h c' hc').1.settle (h c' hc').2 _

private lemma inOrder_step {call : ListCall} (h : ∀ P, InOrder ⟨True, True, 0⟩ vl P) (hc : Orderly vl call)
    (P : PublicKey) :
    InOrder ⟨True, True, 0⟩ (vl.step call) P := by
  cases call with
  | applyLists manifest version blobs =>
    by_cases hv : kSupportedListVersions.count version = 1
    · obtain ⟨P', waits, hs, hw, hf⟩ := hc hv
      by_cases hP : P = P'
      · subst hP
        exact (inOrder_applyLists (h P) (fun _ _ _ _ _ _ => trivial) version (fun _ => hs) hw hf).1
      · refine inOrder_applyLists_of_ne (h P) (fun _ _ _ _ _ _ => trivial) hf fun vl b m c d disposition hb ht => ?_
        rwa [(hb.stored m c d disposition ht).1]
    · rw [step, applyLists, if_pos hv]
      exact h P
  | updateTrusted closeTime now => exact inOrder_updateTrusted (h P) closeTime now

private lemma inOrder_of_loaded {timely revoked : Prop} (h : Loaded vl) (P : PublicKey) :
    InOrder ⟨timely, revoked, 0⟩ vl P := by
  intro c hc
  rw [h P c hc]
  exact ⟨.of_nil rfl, Nat.zero_le _, nofun, nofun, nofun, nofun⟩

/-- After any orderly calls the lists of every publisher that wait come after the current one and become effective one
after the other; so `chainedExpiration` follows them as long as they overlap and misses none that is effective in time,
and after `updateTrusted` no list waits that is effective at the close time. -/
theorem pending_ordered (validatorManifests publisherManifests : ManifestCache) (localSigningKey : Option PublicKey)
    (configKeys publisherKeys : List (Option PublicKey)) (listThreshold : Option ℕ) (calls : List ListCall)
    (hcalls : Throughout step Orderly
      (load { validatorManifests, publisherManifests } localSigningKey configKeys publisherKeys listThreshold).2 calls) :
    let vl := calls.foldl step
      (load { validatorManifests, publisherManifests } localSigningKey configKeys publisherKeys listThreshold).2
    (∀ P c, vl.publisherLists.lookup P = some c → (∀ e ∈ c.remaining.entries, c.current.sequence < e.1) ∧
      c.remaining.entries.Pairwise (fun e e' => e.1 < e'.1 ∧ e.2.validFrom < e'.2.validFrom) ∧
      ∃ chain rest, c.remaining.entries.map Prod.snd = chain ++ rest ∧
        (c.current :: chain).IsChain (fun l l' => l'.validFrom ≤ l.validUntil) ∧
        (c.current :: chain).getLast?.map PublisherList.validUntil =
          some (chainedExpiration c.current.validUntil (c.remaining.entries.map Prod.snd)) ∧
        ∀ l ∈ rest, chainedExpiration c.current.validUntil (c.remaining.entries.map Prod.snd) < l.validFrom) ∧
    ∀ closeTime now P c, (vl.updateTrusted closeTime now).publisherLists.lookup P = some c →
      ∀ e ∈ c.remaining.entries, closeTime < e.2.validFrom := by
  intro vl
  have ho : ∀ P, InOrder ⟨True, True, 0⟩ vl P := Throughout.foldl (I := fun vl => ∀ P, InOrder ⟨True, True, 0⟩ vl P)
    (fun _ _ h hca => inOrder_step h hca) (inOrder_of_loaded loaded_load) hcalls
  refine ⟨fun P c hc => ?_, fun closeTime now P c hc e he => ?_⟩
  · have hord := (ho P c hc).1
    refine ⟨hord.above, c.remaining.sorted.and (hord.increasing trivial), chainedExpiration_spec c.current ?_⟩
    rw [pairwise_map]
    exact hord.increasing trivial
  · rw [lookup_updateTrusted] at hc
    obtain ⟨c', hc', rfl⟩ := map_eq_some_iff.1 hc
    exact (le_trustTime closeTime now).trans_lt ((ho P c' hc').1.lt_of_mem_settle trivial he)

/-- Two lists wait, and a third one comes that becomes effective before both: one pass drops the second list only, and
the first one delays the third one. -/
theorem pending_disordered :
    let vl := [.applyLists (certificate 1 11 1) 2 [(signedList 11 2 200 1000 [9], 100)],
      .applyLists (certificate 1 11 1) 2 [(signedList 11 3 300 1000 [9], 100)],
      .applyLists (certificate 1 11 1) 2 [(signedList 11 4 150 1000 [9], 100)]].foldl step onePublisher
    (vl.publisherLists.lookup 1).map (fun c => c.remaining.entries.map fun e => (e.1, e.2.validFrom)) =
      some [(2, 200), (4, 150)] ∧
    ((vl.updateTrusted 160 160).publisherLists.lookup 1).map
      (fun c => c.remaining.entries.map fun e => (e.1, e.2.validFrom)) = some [(2, 200), (4, 150)] := by
  decide +kernel

/-- Two lists wait, and a third one comes that becomes effective before the second one. -/
def supersededList : List ListCall :=
  [.applyLists (certificate 1 11 1) 2 [(signedList 11 2 200 1000 [9], 100), (signedList 11 3 300 1000 [9], 100)],
    .applyLists (certificate 1 11 1) 2 [(signedList 11 4 250 1000 [9], 100)]]

private lemma publisherOf_certificate {s f u : ℕ} {validators : List PublicKey} :
    publisherOf (certificate 1 11 1) (signedList 11 s f u validators) = some 1 := by
  have hc : (deserializeManifest (certificate 1 11 1)).map Manifest.masterKey = some 1 := by decide +kernel
  exact hc

private lemma onePublisher_signedLists (hs : ∀ b ∈ blobs, ∃ s f u validators, b.1 = signedList 11 s f u validators) :
    OnePublisher (certificate 1 11 1) blobs := by
  refine ⟨fun b hb b' hb' P P' hP hP' => ?_, fun b hb j hj => ?_⟩
  · obtain ⟨s, f, u, validators, heq⟩ := hs b hb
    obtain ⟨s', f', u', validators', heq'⟩ := hs b' hb'
    rw [heq, publisherOf_certificate] at hP
    rw [heq', publisherOf_certificate] at hP'
    exact some.inj (hP.symm.trans hP')
  · obtain ⟨s, f, u, validators, heq⟩ := hs b hb
    rw [heq] at hj
    obtain rfl := some.inj hj
    refine ⟨fun n hn => ?_, fun n hn => ?_, fun n hn => ?_⟩
    · exact (some.inj hn) ▸ Int.natCast_nonneg s
    · exact (some.inj hn) ▸ Int.natCast_nonneg u
    · exact (some.inj (some.inj hn)) ▸ Int.natCast_nonneg f

private lemma OnePublisher.fits {waits : ℕ → ℕ → Prop} (h : OnePublisher manifest blobs) {b₀ : ValidatorBlobInfo × ℕ}
    (hb₀ : b₀ ∈ blobs) (hP : publisherOf manifest b₀.1 = some P)
    (hw : ∀ b ∈ blobs, ∀ d, b.1.list.bind ListJson.data = some (.ok d) → waits d.sequence d.validFrom) :
    ForEach (Fits manifest waits P) manifest blobs vl := by
  refine .of_forall fun b hb vl => ?_
  have hone : ∀ m, deserializeManifest (b.1.manifest.getD manifest) = some m → m.masterKey = P := fun m hm =>
    h.1 b hb b₀ hb₀ _ P (by rw [publisherOf, hm, map_some]) hP
  refine ⟨fun m c d disposition ht => ⟨hone m ht.manifest, fun _ => hw b hb d ht.data⟩, fun m e _ _ he => ?_,
    fun m c d e hm _ _ _ _ => hone m hm⟩
  obtain ⟨j, hj, hda⟩ := bind_eq_some_iff.1 he
  exact (h.2 b hb j hj).data_ne e hda

/-- The sequences and dates of a call with signed lists, and of those that wait, are spaced. -/
private lemma orderly_signedLists (dates : List (ℕ × ℕ)) (hne : blobs ≠ [])
    (hs : ∀ b ∈ blobs, ∃ s f u validators, b.1 = signedList 11 s f u validators ∧ (s, f) ∈ dates)
    (hw : (vl.publisherLists.lookup 1).all fun c => c.remaining.entries.all fun e => (e.1, e.2.validFrom) ∈ dates)
    (hspc : ∀ a ∈ dates, ∀ b ∈ dates, ∀ c ∈ dates, a.1 < b.1 → b.1 < c.1 → a.2 < c.2) :
    Orderly vl (.applyLists (certificate 1 11 1) version blobs) := by
  have ho : OnePublisher (certificate 1 11 1) blobs := onePublisher_signedLists fun b hb => by
    obtain ⟨s, f, u, validators, heq, -⟩ := hs b hb
    exact ⟨s, f, u, validators, heq⟩
  obtain ⟨b₀, hb₀⟩ := exists_mem_of_ne_nil blobs hne
  have hP : publisherOf (certificate 1 11 1) b₀.1 = some 1 := by
    obtain ⟨s, f, u, validators, heq, -⟩ := hs b₀ hb₀
    rw [heq, publisherOf_certificate]
  refine fun _ => ⟨1, fun s f => (s, f) ∈ dates, ?_, fun c hc e he => ?_, ho.fits hb₀ hP fun b hb d hd => ?_⟩
  · intro s₁ f₁ s₂ f₂ s₃ f₃ h₁ h₂ h₃ h₁₂ h₂₃
    exact hspc _ h₁ _ h₂ _ h₃ h₁₂ h₂₃
  · rw [hc, all_some, all_eq_true] at hw
    simpa using hw e he
  · obtain ⟨s, f, u, validators, heq, hda⟩ := hs b hb
    rw [heq] at hd
    rwa [← Except.ok.inj (some.inj hd)]

theorem pending_ordered_supersededList :
    let vl := supersededList.foldl step onePublisher
    (vl.publisherLists.lookup 1).map (fun c => c.remaining.entries.map fun e => (e.1, e.2.validFrom)) =
      some [(2, 200), (4, 250)] ∧
    ∀ closeTime now P c, (vl.updateTrusted closeTime now).publisherLists.lookup P = some c →
      ∀ e ∈ c.remaining.entries, closeTime < e.2.validFrom := by
  have hcs : Throughout step Orderly onePublisher supersededList := by
    refine ⟨orderly_signedLists [(2, 200), (3, 300)] (cons_ne_nil _ _) ?_ (by decide +kernel) (by decide),
      orderly_signedLists [(2, 200), (3, 300), (4, 250)] (cons_ne_nil _ _) ?_ (by decide +kernel) (by decide), trivial⟩
    · intro b hb
      simp only [mem_cons, not_mem_nil, or_false] at hb
      rcases hb with rfl | rfl
      · exact ⟨2, 200, 1000, [9], rfl, by decide⟩
      · exact ⟨3, 300, 1000, [9], rfl, by decide⟩
    · intro b hb
      obtain rfl := mem_singleton.1 hb
      exact ⟨4, 250, 1000, [9], rfl, by decide⟩
  exact ⟨by decide +kernel, (pending_ordered {} {} none [] [some 1] none supersededList hcs).2⟩

/-! ### The sequences of a publisher that is not revoked -/

/-- A call with the lists of one publisher only that does not revoke `P`. -/
def Unrevoking (P : PublicKey) : ListCall → Prop
  | .applyLists manifest _ blobs => OnePublisher manifest blobs ∧
    ∀ b ∈ blobs, ∀ m, deserializeManifest (b.1.manifest.getD manifest) = some m → P = m.masterKey → m.revoked = false
  | .updateTrusted _ _ => True

private lemma unrevoking_step {call : ListCall} {base : ℕ} (h : InOrder ⟨False, False, base⟩ vl P)
    (hc : Unrevoking P call) :
    InOrder ⟨False, False, base⟩ (vl.step call) P ∧ ∀ manifest version blobs, call = .applyLists manifest version blobs →
      (∃ b ∈ blobs, publisherOf manifest b.1 = some P) → ∀ e, (vl.applyLists manifest version blobs).2 ≠ .error e := by
  cases call with
  | applyLists manifest version blobs =>
    have hr : ∀ b ∈ blobs, ∀ m, deserializeManifest (b.1.manifest.getD manifest) = some m → P = m.masterKey →
        m.revoked → False := by
      intro b hb m hm hP hr
      rw [hc.2 b hb m hm hP] at hr
      cases hr
    by_cases hP : ∃ b ∈ blobs, publisherOf manifest b.1 = some P
    · obtain ⟨b₀, hb₀, hP⟩ := hP
      have hf : ForEach (Fits manifest (fun _ _ => True) P) manifest blobs vl := hc.1.fits hb₀ hP fun _ _ _ _ => trivial
      have hall := inOrder_applyLists h hr version (fun ht => ht.elim) (fun _ _ _ _ => trivial) hf
      refine ⟨hall.1, ?_⟩
      rintro _ _ _ ⟨⟩ - e he
      exact hall.2 e he
    · refine ⟨inOrder_applyLists_of_ne (C := fun _ b => publisherOf manifest b.1 ≠ some P) h hr
        (.of_forall fun b hb _ hof => hP ⟨b, hb, hof⟩) ?_, ?_⟩
      · rintro _ b m c d disposition hne ht rfl
        exact hne (by rw [publisherOf, ht.manifest, map_some])
      · rintro _ _ _ ⟨⟩ hex
        exact absurd hex hP
  | updateTrusted closeTime now => exact ⟨inOrder_updateTrusted h closeTime now, nofun⟩

/-- As long as no call revokes the publisher, the greatest sequence is that of its current list or of a list that waits,
the sequence of the current list never decreases, and checking its lists never throws. -/
theorem verify_never_throws (validatorManifests publisherManifests : ManifestCache) (localSigningKey : Option PublicKey)
    (configKeys publisherKeys : List (Option PublicKey)) (listThreshold : Option ℕ) (P : PublicKey)
    (calls : List ListCall) (hcalls : ∀ call ∈ calls, Unrevoking P call) :
    let vl := calls.foldl step
      (load { validatorManifests, publisherManifests } localSigningKey configKeys publisherKeys listThreshold).2
    (∀ c, vl.publisherLists.lookup P = some c → ∀ m, c.maxSequence = some m →
      m = c.current.sequence ∨ (c.remaining.find m).isSome) ∧
    ∀ call, Unrevoking P call →
      (∀ c c', vl.publisherLists.lookup P = some c → (vl.step call).publisherLists.lookup P = some c' →
        c.current.sequence ≤ c'.current.sequence) ∧
      ∀ manifest version blobs, call = .applyLists manifest version blobs →
        (∃ b ∈ blobs, publisherOf manifest b.1 = some P) → ∀ e, (vl.applyLists manifest version blobs).2 ≠ .error e := by
  intro vl
  have hvl : InOrder ⟨False, False, 0⟩ vl P := foldlRecOn calls step (motive := (InOrder ⟨False, False, 0⟩ · P))
    (inOrder_of_loaded loaded_load P) fun _ h call hca => (unrevoking_step h (hcalls call hca)).1
  refine ⟨fun c hc m hm => ?_, fun call hca => ⟨fun c c' hc hc' => ?_, (unrevoking_step hvl hca).2⟩⟩
  · rcases (hvl c hc).2.last m hm with hs | heq | ⟨hr, -⟩
    · exact .inr hs
    · exact .inl heq
    · exact hr.elim
  · have hb : InOrder ⟨False, False, c.current.sequence⟩ vl P := by
      intro c1 hc1
      obtain rfl := some.inj (hc.symm.trans hc1)
      exact ⟨{ (hvl c hc).1 with }, { (hvl c hc).2 with grown := le_rfl }⟩
    exact ((unrevoking_step hb hca).1 c' hc').2.grown

/-- The list of the second publisher is the better result, so the first one keeps the superseded list that waits: it
replaces the current list later, and the greatest sequence is then found nowhere. -/
theorem verify_throws :
    let vl := [.applyLists (certificate 1 11 1) 2 [(signedList 11 5 200 1000 [9], 100)],
      .applyLists (certificate 1 11 1) 2 [(signedList 11 7 0 1000 [9], 100),
        ({ signedList 21 8 0 1000 [9] with manifest := some (certificate 2 21 1) }, 100)]].foldl step twoPublishers
    let vl' := vl.updateTrusted 200 200
    (vl.publisherLists.lookup 1).map (fun c => c.current.sequence) = some 7 ∧
    (vl'.publisherLists.lookup 1).map (fun c => (c.current.sequence, c.maxSequence, c.remaining.entries.map Prod.fst)) =
      some (5, some 7, []) ∧
    (vl'.applyLists (certificate 1 11 1) 2 [(signedList 11 6 400 1000 [9], 250)]).2.isOk = false := by
  decide +kernel

private lemma unrevoking_signedLists (hs : ∀ b ∈ blobs, ∃ s f u validators, b.1 = signedList 11 s f u validators) :
    Unrevoking 1 (.applyLists (certificate 1 11 1) version blobs) := by
  refine ⟨onePublisher_signedLists hs, fun b hb m hm _ => ?_⟩
  have hc : (deserializeManifest (certificate 1 11 1)).all fun m => !m.revoked := by decide +kernel
  obtain ⟨s, f, u, validators, heq⟩ := hs b hb
  rw [heq] at hm
  rw [show deserializeManifest (certificate 1 11 1) = some m from hm] at hc
  simpa using hc

/-- Two lists wait, and one comes whose sequence is between theirs. -/
theorem verify_never_throws_between :
    let vl := [.applyLists (certificate 1 11 1) 2 [(signedList 11 2 200 1000 [9], 100)],
      .applyLists (certificate 1 11 1) 2 [(signedList 11 4 300 1000 [9], 100)]].foldl step onePublisher
    ∀ e, (vl.applyLists (certificate 1 11 1) 2 [(signedList 11 3 250 1000 [9], 100)]).2 ≠ .error e := by
  have hs : ∀ s f, Unrevoking 1 (.applyLists (certificate 1 11 1) 2 [(signedList 11 s f 1000 [9], 100)]) :=
    fun s f => unrevoking_signedLists (by simpa using ⟨s, f, _, _, rfl⟩)
  have hc := forall_mem_cons.2 ⟨hs 2 200, forall_mem_singleton.2 (hs 4 300)⟩
  exact ((verify_never_throws {} {} none [] [some 1] none 1 _ hc).2 _ (hs 3 250)).2 _ _ _ rfl
    ⟨_, mem_singleton_self _, publisherOf_certificate⟩

end ValidatorList

end Xrpl.Validators

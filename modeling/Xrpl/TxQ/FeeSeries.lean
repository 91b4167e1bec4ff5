import Mathlib.Algebra.Order.BigOperators.Group.List
import Xrpl.TxQ.Greedy

/-!
# The fee of a series of transactions

A transaction may pay for the queue of its account: the levels of the whole series are added up in closed form and
rounded once, those of single transactions are rounded one by one.

* `series_covers`: so a series never costs less than its transactions one by one.
-/

namespace Xrpl.TxQ

open List

section Rounding

variable {m d : ℕ}

/-- The remainders of the summands lie between 0 and `d - 1`. -/
private lemma sum_div_bounds (hd : 0 < d) (l : List ℕ) : (l.map (· * m / d)).sum * d ≤ l.sum * m ∧
      l.sum * m + l.length ≤ ((l.map (· * m / d)).sum + l.length) * d := by
  induction l with
  | nil => simp
  | cons a l ih =>
    have hle := Nat.div_mul_le_self (a * m) d
    have hlt := Nat.lt_div_mul_add (a := a * m) hd
    simp only [map_cons, sum_cons, length_cons, Nat.add_mul, Nat.one_mul] at ih ⊢
    omega

end Rounding

private lemma sumOfFirstSquares_succ {x : ℕ} (hx : x + 1 < 2 ^ 21) :
    (sumOfFirstSquares (x + 1)).2 = (sumOfFirstSquares x).2 + (x + 1) * (x + 1) := by
  have hp : (x + 1) * (x + 1 + 1) * (2 * (x + 1) + 1) = x * (x + 1) * (2 * x + 1) + 6 * ((x + 1) * (x + 1)) := by ring
  rw [sumOfFirstSquares, sumOfFirstSquares, if_neg (by omega), if_neg (by omega), hp]
  exact Nat.add_mul_div_left _ _ (by decide)

private lemma sum_squares {x k : ℕ} (hx : x + k < 2 ^ 21) :
    (sumOfFirstSquares (x + k)).2 = (sumOfFirstSquares x).2 + ((range' (x + 1) k).map fun n => n * n).sum := by
  induction k with
  | zero => rfl
  | succ k ih =>
    rw [range'_concat, map_append, sum_append, ← Nat.add_assoc x k 1, sumOfFirstSquares_succ (by omega), ih (by omega)]
    simp only [map_cons, map_nil, sum_cons, sum_nil]
    ring

section Series

variable {snapshot : Snapshot} {value mul div level : ℕ}

private lemma mulDivU_eq (hd : div < value) (hv : value ≤ kMuldivMax) (hpos : 0 < div) :
    mulDivU value mul div = .ok (mulDiv value mul div) := by
  rw [mulDivU, if_neg (by omega)]
  split_ifs with hm hz
  · rw [mulDiv, hm, Nat.mul_div_cancel _ hpos, if_pos hv]
  · omega
  · rfl

/-- The levels of the ledgers with `c`, …, `c + k - 1` transactions add up to `total`. -/
def LevelsSum (snapshot : Snapshot) (c k total : ℕ) : Prop :=
  ∃ level : ℕ → ℕ, (∀ n ∈ range' c k, scaleFeeLevel snapshot n = .ok (level n)) ∧
    ((range' c k).map level).sum = total

variable {txCount extraCount k : ℕ}

private lemma sumOfFirstSquares_le {x : ℕ} (hx : x < 2 ^ 21) : (sumOfFirstSquares x).2 ≤ kMuldivMax := by
  have hp : x * (x + 1) * (2 * x + 1) ≤ 2 ^ 21 * 2 ^ 21 * 2 ^ 22 := Nat.mul_le_mul (Nat.mul_le_mul hx.le hx) (by omega)
  rw [sumOfFirstSquares, if_neg (by omega), kMuldivMax]
  omega

private lemma uint64_square {n : ℕ} (hn : n < 2 ^ 21) : n * n ≤ kMuldivMax ∧ uint64 (n * n) = n * n := by
  have hlt : n * n < 2 ^ 64 := (Nat.mul_lt_mul'' hn hn).trans (by decide)
  exact ⟨Nat.le_sub_one_of_lt hlt, Nat.mod_eq_of_lt hlt⟩

variable {b : ℕ}

/-- The numbers of transactions do not overflow, so the closed form is that of the squares from `b + 1` on. -/
private lemma escalatedSeriesFeeLevel_eq (hb : txCount + extraCount = b + 1) (hk : 1 ≤ k) (hl : b + k < 2 ^ 21)
    (ht : snapshot.txnsExpected < 2 ^ 21) : escalatedSeriesFeeLevel snapshot txCount extraCount k =
      mulDivU ((range' (b + 1) k).map fun n => n * n).sum snapshot.escalationMultiplier
        (snapshot.txnsExpected * snapshot.txnsExpected) := by
  have hs := sum_squares hl
  have hmax := sumOfFirstSquares_le hl
  have hc : uint64 (txCount + extraCount) = b + 1 := by rw [uint64]; omega
  have he : uint64 (b + 1 + k + 2 ^ 64 - 1) = b + k := by rw [uint64]; omega
  have hba : uint64 (b + 1 + 2 ^ 64 - 1) = b := by rw [uint64]; omega
  have hv : uint64 ((sumOfFirstSquares (b + k)).2 + 2 ^ 64 - (sumOfFirstSquares b).2) =
      ((range' (b + 1) k).map fun n => n * n).sum := by
    rw [uint64]
    rw [kMuldivMax] at hmax
    omega
  have hf : (sumOfFirstSquares (b + k)).1 = true := by rw [sumOfFirstSquares, if_neg (by omega)]
  unfold escalatedSeriesFeeLevel
  dsimp only
  rw [hc, he, hba, hv, hf, (uint64_square ht).2]
  exact if_neg Bool.false_ne_true

private lemma escalatedSeriesFeeLevel_spec (ht : 1 ≤ snapshot.txnsExpected)
    (hc : snapshot.txnsExpected < txCount + extraCount) (hk : 1 ≤ k) (hl : txCount + extraCount + k - 1 < 2 ^ 21)
    (h : escalatedSeriesFeeLevel snapshot txCount extraCount k = .ok (some level)) :
    ∃ total, LevelsSum snapshot (txCount + extraCount) k total ∧ total ≤ level ∧ level < total + k := by
  obtain ⟨b, hb⟩ : ∃ b, txCount + extraCount = b + 1 := ⟨_, (Nat.succ_pred_eq_of_pos (by omega)).symm⟩
  have hpos : 0 < snapshot.txnsExpected * snapshot.txnsExpected := Nat.mul_pos ht ht
  have htgt : snapshot.txnsExpected < 2 ^ 21 := by omega
  rw [escalatedSeriesFeeLevel_eq hb hk (by omega) htgt] at h
  rw [hb] at hc ⊢
  have hsq : (b + 1) * (b + 1) ∈ (range' (b + 1) k).map fun n => n * n :=
    mem_map.2 ⟨b + 1, mem_range'_1.2 (by omega), rfl⟩
  have hmax := sumOfFirstSquares_le (x := b + k) (by omega)
  rw [sum_squares (by omega)] at hmax
  rw [mulDivU_eq ((Nat.mul_lt_mul'' hc hc).trans_le (le_sum_of_mem hsq)) (by omega) hpos, mulDiv] at h
  split_ifs at h with hf <;> cases h
  obtain ⟨hle, hlt⟩ := sum_div_bounds (m := snapshot.escalationMultiplier) hpos ((range' (b + 1) k).map fun n => n * n)
  have hs := length_pos_of_mem hsq
  replace hle := (Nat.le_div_iff_mul_le hpos).2 hle
  replace hlt := (Nat.div_lt_iff_lt_mul hpos).2 ((Nat.lt_add_of_pos_right hs).trans_le hlt)
  rw [length_map, length_range'] at hlt
  refine ⟨_, ⟨_, fun n hn => ?_, rfl⟩, (map_map ▸ hle :), map_map ▸ hlt⟩
  obtain ⟨hge, hn'⟩ := mem_range'_1.1 hn
  obtain ⟨hnm, hnsq⟩ := uint64_square (n := n) (by omega)
  rw [scaleFeeLevel, if_pos (by omega), hnsq, (uint64_square htgt).2,
    mulDivU_eq (Nat.mul_lt_mul'' (by omega) (by omega)) hnm hpos, mulDiv, if_pos]
  · rfl
  · exact (le_sum_of_mem (mem_map_of_mem (mem_map_of_mem hn))).trans (hle.trans hf)

end Series

section Clear

variable {V : Type} {q q' : TxQ} {app : App V} {view view' : V}

private lemma foldl_uint64_le (l : List (SeqProxy × MaybeTx)) (paid : ℕ) :
    l.foldl (fun total e => uint64 (total + e.2.feeLevel)) paid ≤ paid + (l.map fun e => e.2.feeLevel).sum := by
  induction l generalizing paid with
  | nil => exact le_rfl
  | cons e l ih =>
    have hs := ih (uint64 (paid + e.2.feeLevel))
    rw [foldl_cons, map_cons, sum_cons]
    rw [uint64] at *
    omega

/-- Above the target a series costs at least as much as its transactions one by one, and less than one per transaction
more; so the queue of an account is cleared only if the levels that are paid cover those of the single transactions. -/
theorem series_covers {extraCount k : ℕ} (htarget : 1 ≤ q.feeMetrics.txnsExpected)
    (hc : q.feeMetrics.txnsExpected < app.txCount view + extraCount) (hk : 1 ≤ k)
    (hlast : app.txCount view + extraCount + k - 1 < 2 ^ 21) :
    (∀ level, escalatedSeriesFeeLevel q.feeMetrics.getSnapshot (app.txCount view) extraCount k = .ok (some level) →
      ∃ total, LevelsSum q.feeMetrics.getSnapshot (app.txCount view + extraCount) k total ∧
        total ≤ level ∧ level < total + k) ∧
    ∀ (tx : STTx) (live : List (SeqProxy × MaybeTx)) (feeLevelPaid : ℕ) (pfResult : PreflightResult) (ter : TER)
      (view' : V) (q' : TxQ), (live.filter fun e => e.1 < tx.seqProxy).length + 1 = k →
      q.tryClearAccountQueueUpThruTx app view tx live feeLevelPaid pfResult extraCount =
        .ok (.result ter true, view', q') →
      ∃ total, LevelsSum q.feeMetrics.getSnapshot (app.txCount view + extraCount) k total ∧
        total ≤ feeLevelPaid + ((live.filter fun e => e.1 < tx.seqProxy).map fun e => e.2.feeLevel).sum := by
  refine ⟨fun level h => escalatedSeriesFeeLevel_spec htarget hc hk hlast h,
    fun tx live feeLevelPaid pfResult ter view' q' hlen h => ?_⟩
  change q.clearIfPaid app view tx _ _ pfResult (escalatedSeriesFeeLevel _ _ _ (_ + 1)) = _ at h
  rw [hlen] at h
  rcases hl : escalatedSeriesFeeLevel _ _ _ k with what | _ | level <;> rw [hl] at h
  · cases h
  · cases h
  rw [clearIfPaid] at h
  split_ifs at h with hp
  · cases h
  obtain ⟨total, ht, hle, -⟩ := escalatedSeriesFeeLevel_spec htarget hc hk hlast hl
  exact ⟨total, ht, hle.trans ((Nat.not_lt.1 hp).trans (foldl_uint64_le ..))⟩

/-- Two transactions in a ledger with 100 that should have 32. -/
theorem series_covers_two : ∃ level, escalatedSeriesFeeLevel quietQueue.feeMetrics.getSnapshot 100 0 2 =
    .ok (some level) ∧ ∃ total, LevelsSum quietQueue.feeMetrics.getSnapshot 100 2 total ∧
      total ≤ level ∧ level < total + 2 := by
  have hl : escalatedSeriesFeeLevel quietQueue.feeMetrics.getSnapshot 100 0 2 = .ok (some 2525125) := by
    decide +kernel
  exact ⟨_, hl, (@series_covers _ quietQueue quietApp 5 0 2 (by decide) (by decide) (by decide) (by decide)).1 _ hl⟩

end Clear

end Xrpl.TxQ

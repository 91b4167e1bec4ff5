import Xrpl.TxQ.Effects

/-!
# The rounds of `accept`

`RoundEffect` says all that a round of the loop can do: it skips a candidate that is not the first sequence of its
account, it tries one that pays enough (`Attempt`) and then erases it, keeps it or drops another one (`After`), or it
leaves the loop.

* `acceptStep_effect`: a round does not fail;
* `acceptLoop_effect`: the loop ends, and an invariant of the rounds holds in its last state.
-/

namespace Xrpl.TxQ

open List OrderedMap Option

variable {V : Type} {app : App V} {q q' q₁ : TxQ} {h h' : Handle} {c : MaybeTx}

/-- The same links, to candidates that were tried. -/
structure Retouched (app : App V) (q q₁ : TxQ) : Prop where
  thinned : Thinned app q q₁
  byFee : q₁.byFee = q.byFee
  hash : q₁.parentHashComp = q.parentHashComp

namespace Retouched

private lemma trans {q2 q3 : TxQ} (h12 : Retouched app q₁ q2) (h23 : Retouched app q2 q3) : Retouched app q₁ q3 :=
  ⟨h12.thinned.trans h23.thinned, h23.byFee.trans h12.byFee, h23.hash.trans h12.hash⟩

lemma within (hr : Retouched app q q₁) : Within q q₁ := by
  intro h c' hc'
  obtain ⟨c, hc, hag⟩ := hr.thinned.aged h c' hc'
  exact ⟨c, hc, hag.same⟩

private lemma updateTx (hq : Indexed q) (hag : ∀ d, q.find h = some d → d.Aged app c) :
    Retouched app q (q.updateTx h fun _ => c) :=
  ⟨.updateTx hq hag, rfl, rfl⟩

end Retouched

/-- The object of an account has exactly the sequences and tickets of its candidates. -/
def Keys (q : TxQ) (a : AccountID) (account : TxQAccount) : Prop :=
  ∀ s, (∃ c, (s, c) ∈ account.transactions.entries) ↔ (q.find ⟨a, s⟩).isSome

variable {account : TxQAccount} {s : AcceptState V} {a : AccountID} {snapshot : Snapshot}

private lemma keys_of_find (ha : q.byAccount.find a = some account) :
    Keys q a account := by
  intro s
  rw [find, ha, isSome_iff_exists]
  exact exists_congr fun c => find_eq_some.symm

private lemma Keys.retouched (hk : Keys q a account) (hq : Indexed q) (hr : Retouched app q q₁) :
    Keys q₁ a account := by
  intro s
  rw [← hr.thinned.indexed.mem, hr.byFee, hq.mem]
  exact hk s

/-- The queue and the iterator after a candidate of `q` was tried. -/
inductive After (q : TxQ) (h : Handle) : Option Handle → TxQ → Prop
  | erased : After q h (if q.jumps h then q.accountNext h else q.byFee.follower h) (q.dropTx h)
  | kept : After q h (q.byFee.follower h) q
  | dropped (h' : Handle) (mem : h' ∈ q.byFee) (ne : h ≠ h') (account : h'.account = h.account)
      (last : ∀ h₂ ∈ q.byFee, h₂.account = h.account → h₂.seqProxy ≤ h'.seqProxy) :
      After q h ((q.dropTx h').byFee.follower h) (q.dropTx h')

lemma mem_dropTx (hq : Indexed q) : h ∈ (q.dropTx h').byFee ↔ h ≠ h' ∧ h ∈ q.byFee := hq.nodup.mem_erase_iff

section

variable (hq : Indexed q) (hc : q.find h = some c) (hk : Keys q h.account account)

include hq hc hk

private lemma dropLast_effect :
    Succeeds (q.dropLast h account c) fun q' => After q h (q'.byFee.follower h) q' ∧ h ∈ q'.byFee := by
  have hmem := hq.mem_of_find hc
  rw [dropLast]
  cases hl : account.transactions.entries.getLast? with
  | none =>
    obtain ⟨d, hd⟩ := (hk h.seqProxy).2 (by rw [hc]; rfl)
    rw [getLast?_eq_none_iff.1 hl] at hd
    cases hd
  | some drop =>
    obtain ⟨ha, -⟩ := hq.own h c hc
    have hdr : Handle.mk h.account drop.1 ∈ q.byFee := by
      rw [hq.mem]
      exact (hk drop.1).1 ⟨drop.2, mem_of_getLast? hl⟩
    dsimp only
    rw [ha]
    split_ifs with hne
    · rw [hq.erase hdr]
      refine .pure ⟨.dropped _ hdr (Ne.symm hne) rfl ?_, (mem_dropTx hq).2 ⟨Ne.symm hne, hmem⟩⟩
      intro h2 hh2 ha2
      obtain ⟨d, hd⟩ := (hk h2.seqProxy).2 (by rw [← ha2]; exact (hq.mem h2).1 hh2)
      exact le_getLast hl hd
    · exact .pure ⟨.kept, hmem⟩

private lemma leaveInQueue_effect : Succeeds (q.leaveInQueue h account c) fun r => After q h r.1 r.2 := by
  have hmem := hq.mem_of_find hc
  rw [leaveInQueue]
  split_ifs
  · rw [hq.eraseAndAdvance hmem]
    exact .pure .erased
  · refine (dropLast_effect hq hc hk).bind ?_
    rintro q' ⟨haft, hmem'⟩
    rw [next_eq hmem']
    exact .pure haft
  · rw [next_eq hmem]
    exact .pure .kept

end

private lemma settle_effect (app : App V) (hq : Indexed q) (hc : q.find h = some c)
    (hk : Keys q h.account account) (ter : TER) (didApply : Bool) :
    Succeeds (q.settle h account c ter didApply) fun r => ∃ q₁, Retouched app q q₁ ∧ After q₁ h r.1 r.2 := by
  have hmem := hq.mem_of_find hc
  rw [settle]
  split
  case isTrue =>
    rw [hq.eraseAndAdvance hmem]
    exact .pure ⟨q, ⟨.refl hq, rfl, rfl⟩, .erased⟩
  case isFalse =>
    split
    case isTrue =>
      have hr : Retouched app q (q.updateAccount c.account fun a =>
          if c.retriesRemaining ≤ 0 then { a with retryPenalty := true } else { a with dropPenalty := true }) :=
        ⟨.mark hq fun a => by split_ifs <;> rfl, rfl, rfl⟩
      rw [hr.thinned.indexed.eraseAndAdvance hmem]
      exact .pure ⟨_, hr, .erased⟩
    case isFalse =>
      have hr : Retouched app q (q.updateTx h fun _ => failedTx account ter c) := by
        refine .updateTx hq ?_
        intro d hd
        obtain rfl := some.inj (hc.symm.trans hd)
        exact .failedTx account ter c
      have hc' : (q.updateTx h fun _ => failedTx account ter c).find h = some (failedTx account ter c) := by
        rw [find_updateTx, if_pos rfl, hc]
        rfl
      exact (leaveInQueue_effect hr.thinned.indexed hc' (hk.retouched hq hr)).mono fun r hr' => ⟨_, hr, hr'⟩

structure Ready (s : AcceptState V) : Prop where
  indexed : Indexed s.queue
  iter : ∀ h, s.candidateIter = some h → h ∈ s.queue.byFee

/-- The candidate that is tried: it pays enough, and it is the first of its account if it has a sequence. -/
structure Attempt (app : App V) (snapshot : Snapshot) (s : AcceptState V) (h : Handle) (c : MaybeTx) : Prop where
  iter : s.candidateIter = some h
  find : s.queue.find h = some c
  level : ∃ required, scaleFeeLevel snapshot (app.txCount s.view) = .ok required ∧ required ≤ c.feeLevel
  first : h.seqProxy.isSeq → ∀ h' ∈ s.queue.byFee, h'.account = h.account → h.seqProxy ≤ h'.seqProxy

inductive RoundEffect (app : App V) (snapshot : Snapshot) (s : AcceptState V) : Round V → Prop
  | finished (iter : s.candidateIter = none) : RoundEffect app snapshot s .leave
  | low (h : Handle) (c : MaybeTx) (required : ℕ) (iter : s.candidateIter = some h) (find : s.queue.find h = some c)
      (level : scaleFeeLevel snapshot (app.txCount s.view) = .ok required) (low : c.feeLevel < required) :
      RoundEffect app snapshot s .leave
  | thrown (what : Thrown) (level : scaleFeeLevel snapshot (app.txCount s.view) = .error what) :
      RoundEffect app snapshot s (.thrown what)
  | skipped (h h' : Handle) (iter : s.candidateIter = some h) (isSeq : h.seqProxy.isSeq) (mem : h' ∈ s.queue.byFee)
      (account : h'.account = h.account) (lt : h'.seqProxy < h.seqProxy) :
      RoundEffect app snapshot s (.next { s with candidateIter := s.queue.byFee.follower h })
  | tried (h : Handle) (c : MaybeTx) (attempt : Attempt app snapshot s h c) (q₁ q' : TxQ) (view : V)
      (next : Option Handle) (ledgerChanged : Bool) (retouched : Retouched app s.queue q₁)
      (after : After q₁ h next q') :
      RoundEffect app snapshot s (.next
        { queue := q', view, candidateIter := next, ledgerChanged, attempts := h :: s.attempts })

lemma acceptStep_effect (app : App V) (hs : Ready s) (snapshot : Snapshot) :
    Succeeds (acceptStep app snapshot s) (RoundEffect app snapshot s) := by
  rw [acceptStep]
  cases hi : s.candidateIter with
  | none => exact .pure (.finished hi)
  | some h =>
    have hmem := hs.iter h hi
    obtain ⟨c, hc⟩ := hs.indexed.find_of_mem hmem
    obtain ⟨account, hac, hf⟩ := accountAt_of_find hc
    obtain ⟨ha, hseq⟩ := hs.indexed.own h c hc
    have hk := keys_of_find hac
    dsimp only
    rw [deref_eq hc]
    refine .ok_bind ?_
    rw [ha, accountAt_eq hac]
    refine .ok_bind ?_
    cases hb : account.transactions.entries.head? with
    | none =>
      rw [head?_eq_none_iff] at hb
      rw [find_eq_some, hb] at hf
      cases hf
    | some begin =>
      dsimp only
      rw [hseq]
      split
      case isTrue hsk =>
        rw [Bool.and_eq_true, decide_eq_true_iff] at hsk
        have hfst : Handle.mk h.account begin.1 ∈ s.queue.byFee := by
          rw [hs.indexed.mem]
          exact (hk begin.1).1 ⟨begin.2, mem_of_mem_head? hb⟩
        rw [next_eq hmem]
        exact .pure (.skipped h _ hi hsk.1 hfst rfl hsk.2)
      case isFalse hsk =>
        rw [Bool.and_eq_true, decide_eq_true_iff, not_and, not_lt] at hsk
        have hfst : h.seqProxy.isSeq → ∀ h' ∈ s.queue.byFee, h'.account = h.account → h.seqProxy ≤ h'.seqProxy := by
          intro his h' hh' ha'
          obtain ⟨d, hd⟩ := (hk h'.seqProxy).2 (by rw [← ha']; exact (hs.indexed.mem h').1 hh')
          exact (hsk his).trans (head_le hb hd)
        cases hl : scaleFeeLevel snapshot (app.txCount s.view) with
        | error what => exact .pure (.thrown what hl)
        | ok required =>
          dsimp only
          split_ifs with hp
          · obtain ⟨⟨⟨ter, didApply⟩, view, c'⟩, hap⟩ : ∃ r, c.apply app s.view = r := ⟨_, rfl⟩
            simp only [hap]
            have hr : Retouched app s.queue (s.queue.updateTx h fun _ => c') := by
              refine .updateTx hs.indexed ?_
              intro d hd
              obtain rfl := some.inj (hc.symm.trans hd)
              exact MaybeTx.aged_apply hap
            have hc' : (s.queue.updateTx h fun _ => c').find h = some c' := by
              rw [find_updateTx, if_pos rfl, hc]
              rfl
            refine (settle_effect app hr.thinned.indexed hc' (hk.retouched hs.indexed hr) ter didApply).bind ?_
            rintro ⟨next, q'⟩ ⟨q₁, hr1, haft⟩
            exact .pure (.tried h c ⟨hi, hc, ⟨required, hl, hp⟩, hfst⟩ q₁ q' view next _ (hr.trans hr1) haft)
          · exact .pure (.low h c required hi hc hl (not_le.1 hp))

/-- A bound for the rounds that are left: each candidate that goes allows one more walk through the others. -/
def AcceptState.rank (s : AcceptState V) : ℕ :=
  s.queue.byFee.length * (s.queue.byFee.length + 1) + s.queue.byFee.remaining s.candidateIter

namespace After

variable {next : Option Handle}

lemma within (ha : After q h next q') : Within q q' := by
  cases ha with
  | erased => exact within_dropTx
  | kept => exact .refl q
  | dropped => exact within_dropTx

private lemma indexed (ha : After q h next q') (hq : Indexed q) : Indexed q' := by
  cases ha with
  | erased => exact hq.dropTx h
  | kept => exact hq
  | dropped h' => exact hq.dropTx h'

lemma thinned (app : App V) (ha : After q h next q') (hq : Indexed q) : Thinned app q q' := by
  cases ha with
  | erased => exact .dropTx hq h
  | kept => exact .refl hq
  | dropped h' => exact .dropTx hq h'

variable (ha : After q h next q') (hq : Indexed q) (hh : h ∈ q.byFee)

include ha hq hh

private lemma iter : ∀ n, next = some n → n ∈ q'.byFee := by
  intro n hn
  cases ha with
  | erased =>
    rw [mem_dropTx hq]
    split_ifs at hn
    · obtain ⟨hmem, -, hlt, -⟩ := hq.of_accountNext hn
      refine ⟨?_, hmem⟩
      rintro rfl
      exact lt_irrefl _ hlt
    · obtain ⟨l1, l2, hl, hl1, hl2⟩ := hq.nodup.split hh
      have hmem := mem_of_follower hn
      rw [hl, follower_append hl1] at hn
      refine ⟨?_, hmem⟩
      rintro rfl
      exact hl2 (mem_of_mem_head? hn)
  | kept | dropped h' => exact mem_of_follower hn

private lemma rank_lt : q'.byFee.length * (q'.byFee.length + 1) + q'.byFee.remaining next <
      q.byFee.length * (q.byFee.length + 1) + q.byFee.remaining (some h) := by
  have hf : ∀ h' ∈ q.byFee, ∀ iter, (q.dropTx h').byFee.length * ((q.dropTx h').byFee.length + 1) +
      (q.dropTx h').byFee.remaining iter < q.byFee.length * (q.byFee.length + 1) + q.byFee.remaining (some h) := by
    intro h' hh' iter
    have hle := (q.dropTx h').byFee.remaining_le iter
    rw [← length_dropTx hh']
    simp only [Nat.add_mul, Nat.mul_add]
    omega
  cases ha with
  | erased => exact hf h hh _
  | kept => exact Nat.add_lt_add_left (remaining_follower hq.nodup hh) _
  | dropped h' hh' => exact hf h' hh' _

end After

lemma RoundEffect.ready {s' : AcceptState V} (hs : Ready s)
    (hr : RoundEffect app snapshot s (.next s')) : Ready s' ∧ s'.rank < s.rank := by
  cases hr with
  | skipped h h' iter =>
    refine ⟨⟨hs.indexed, fun n hn => mem_of_follower hn⟩, ?_⟩
    rw [AcceptState.rank, AcceptState.rank, iter]
    exact Nat.add_lt_add_left (remaining_follower hs.indexed.nodup (hs.iter h iter)) _
  | tried h c attempt q₁ q' view next ledgerChanged retouched after =>
    have hq1 := retouched.thinned.indexed
    have hh : h ∈ q₁.byFee := by
      rw [retouched.byFee]
      exact hs.iter h attempt.iter
    refine ⟨⟨after.indexed hq1, after.iter hq1 hh⟩, ?_⟩
    have := after.rank_lt hq1 hh
    rw [retouched.byFee] at this
    rw [AcceptState.rank, AcceptState.rank, attempt.iter]
    exact this

/-- What a loop that was left in the state `s` ended with. -/
def lastRound : Option Thrown → Round V
  | none => .leave
  | some what => .thrown what

lemma acceptLoop_effect {I : AcceptState V → Prop} (hr : ∀ s, I s → Ready s)
    (hst : ∀ s s', I s → acceptStep app snapshot s = .ok (.next s') → RoundEffect app snapshot s (.next s') → I s')
    {fuel : ℕ} (hs : I s) (hf : s.rank < fuel) :
    Succeeds (acceptLoop app snapshot fuel s) fun r => I r.1 ∧ RoundEffect app snapshot r.1 (lastRound r.2) := by
  induction fuel generalizing s with
  | zero => exact absurd hf (Nat.not_lt_zero _)
  | succ fuel ih =>
    obtain ⟨round, hrnd, he⟩ := acceptStep_effect app (hr s hs) snapshot
    rw [acceptLoop, hrnd]
    refine .ok_bind ?_
    cases round with
    | next s' =>
      have hlt := (he.ready (hr s hs)).2
      exact ih (hst s s' hs hrnd he) (by omega)
    | leave | thrown what => exact .pure ⟨hs, he⟩

lemma rank_acceptStart (q : TxQ) (view : V) :
    (q.acceptStart view).rank < (q.byFee.length + 1) * (q.byFee.length + 1) := by
  have hle := q.byFee.remaining_le q.byFee.head?
  rw [AcceptState.rank, acceptStart]
  simp only [Nat.add_mul]
  omega

end Xrpl.TxQ

import Xrpl.Basics.BaseUint
import Xrpl.Lib.HashMap

/-!
# The amendment votes of trusted validators

A server keeps the last amendment votes it saw from every validator it trusts, and drops them after 24 hours without a
validation.  `AmendmentSet` counts the votes for each amendment.  Votes are kept as the list that stood in the
validation, so that a validator that lists an amendment more than once is counted more than once.

* `TrustedVotes`, `AmendmentSet`: the code;
* `Ballots`: for every trusted validator its most recent validation;
* `votes_eq_ncard`: without repetitions the count of an amendment is a number of validators.

Times are seconds of the network clock, which has 32 bits.
-/

namespace Xrpl.Amendments

open List Option AList

abbrev NetTime := BitVec 32

variable {K : Type} [DecidableEq K]

structure UpvotesAndTimeout where
  upVotes : List Uint256
  timeout : Option NetTime
  deriving DecidableEq

/-- What is read of a validation: who signed it, and the field `sfAmendments`. -/
structure STValidation (K : Type) where
  signer : K
  amendments : Option (List Uint256)

abbrev TrustedVotes (K : Type) := HashMap K UpvotesAndTimeout

def kExpiresAfter : NetTime := 86400

namespace TrustedVotes

/-- The list of trusted validators changes: new ones start without votes. -/
def trustChanged (votes : TrustedVotes K) (allTrusted : HashSet K) : TrustedVotes K :=
  allTrusted.mapVal fun k _ => (votes.lookup k).getD ⟨[], none⟩

def recordVote (newTimeout : NetTime) (votes : TrustedVotes K) (val : STValidation K) : TrustedVotes K :=
  match votes.lookup val.signer with
  | some _ => votes.insert val.signer ⟨val.amendments.getD [], some newTimeout⟩
  | none => votes

def expireVotes (closeTime : NetTime) (votes : UpvotesAndTimeout) : UpvotesAndTimeout :=
  match votes.timeout with
  | none => votes
  | some timeout => if closeTime > timeout then ⟨[], none⟩ else votes

def recordVotes (votes : TrustedVotes K) (valSet : List (STValidation K)) (closeTime : NetTime) : TrustedVotes K :=
  (valSet.foldl (recordVote (closeTime + kExpiresAfter)) votes).mapVal fun _ => expireVotes closeTime

def addVote (ret : HashMap Uint256 Nat) (amendment : Uint256) : HashMap Uint256 Nat :=
  ret.insert amendment ((ret.lookup amendment).getD 0 + 1)

/-- The number of validators with votes that count, and the votes for each amendment. -/
def getVotes (votes : TrustedVotes K) : Nat × HashMap Uint256 Nat :=
  votes.entries.foldl (fun acc e => (if e.2.timeout.isSome then acc.1 + 1 else acc.1, e.2.upVotes.foldl addVote acc.2))
    (0, ∅)

end TrustedVotes

structure AmendmentSet where
  yesVotes : HashMap Uint256 Nat
  trustedValidations : Nat
  threshold : Nat

namespace AmendmentSet

/-- The threshold is 80 percent of the validators, and at least one. -/
def new (votes : TrustedVotes K) : AmendmentSet :=
  let (trustedCount, newVotes) := votes.getVotes
  ⟨newVotes, trustedCount, max 1 (trustedCount * 4 / 5)⟩

def passes (set : AmendmentSet) (amendment : Uint256) : Bool :=
  match set.yesVotes.lookup amendment with
  | none => false
  | some count => if set.trustedValidations = 1 then count ≥ set.threshold else count > set.threshold

def votes (set : AmendmentSet) (amendment : Uint256) : Nat := (set.yesVotes.lookup amendment).getD 0

end AmendmentSet

private lemma lookup_addVotes (amendments : List Uint256) : ∀ (ret : HashMap Uint256 Nat) (a : Uint256),
      ((amendments.foldl TrustedVotes.addVote ret).lookup a).getD 0 = (ret.lookup a).getD 0 + amendments.count a := by
  induction amendments with
  | nil => exact fun _ _ => rfl
  | cons b amendments ih =>
    intro ret a
    rw [foldl_cons, ih, TrustedVotes.addVote]
    by_cases hab : a = b
    · subst hab
      rw [lookup_insert, getD_some, count_cons_self]
      omega
    · rw [lookup_insert_ne hab, count_cons_of_ne (Ne.symm hab)]

omit [DecidableEq K] in
private lemma getVotes_eq (votes : TrustedVotes K) (a : Uint256) :
    votes.getVotes.1 = votes.count (fun _ v => v.timeout.isSome) ∧
      (votes.getVotes.2.lookup a).getD 0 = (votes.entries.map fun e => e.2.upVotes.count a).sum := by
  have hf : ∀ (entries : List (Σ _ : K, UpvotesAndTimeout)) (acc : Nat × HashMap Uint256 Nat),
      let r := entries.foldl (fun acc e => (if e.2.timeout.isSome then acc.1 + 1 else acc.1,
        e.2.upVotes.foldl TrustedVotes.addVote acc.2)) acc
      r.1 = acc.1 + entries.countP (fun e => e.2.timeout.isSome) ∧
        (r.2.lookup a).getD 0 = (acc.2.lookup a).getD 0 + (entries.map fun e => e.2.upVotes.count a).sum := by
    intro entries
    induction entries with
    | nil => exact fun _ => ⟨rfl, rfl⟩
    | cons e entries ih =>
      intro acc
      obtain ⟨hav, hc⟩ := ih (if e.2.timeout.isSome then acc.1 + 1 else acc.1,
        e.2.upVotes.foldl TrustedVotes.addVote acc.2)
      refine ⟨hav.trans ?_, hc.trans ?_⟩
      · rw [countP_cons]
        split <;> omega
      · rw [lookup_addVotes, map_cons, sum_cons]
        omega
  obtain ⟨hav, hc⟩ := hf votes.entries (0, ∅)
  refine ⟨hav.trans (Nat.zero_add _), hc.trans ?_⟩
  rw [lookup_empty, getD_none, Nat.zero_add]

private lemma votes_eq_count {votes : TrustedVotes K} (hnodup : ∀ k v, votes.lookup k = some v → v.upVotes.Nodup)
    (a : Uint256) : (AmendmentSet.new votes).votes a = votes.count fun _ v => a ∈ v.upVotes := by
  refine (getVotes_eq votes a).2.trans ?_
  rw [← HashMap.sumOf_eq_count]
  refine HashMap.sumOf_congr (m := votes) (w := fun _ v => v.upVotes.count a) fun e he => ?_
  rw [(hnodup e.1 e.2 (HashMap.lookup_of_mem_entries he)).count]
  by_cases ha : a ∈ e.2.upVotes <;> simp [ha]

/-! ### The most recent validations -/

/-- A call on the recorded votes. -/
inductive VoteCall (K : Type) where
  | trustChanged (allTrusted : HashSet K)
  | recordVotes (valSet : List (STValidation K)) (closeTime : NetTime)

def TrustedVotes.call (votes : TrustedVotes K) : VoteCall K → TrustedVotes K
  | .trustChanged allTrusted => votes.trustChanged allTrusted
  | .recordVotes valSet closeTime => votes.recordVotes valSet closeTime

/-- A recorded validation: the close time it was recorded at, and the amendments it lists. -/
structure Ballot where
  closeTime : Nat
  amendments : List Uint256

/-- For every validator that is trusted its most recent validation, if one was recorded since it is trusted, and the
close time of the last call of `recordVotes`. -/
structure Ballots (K : Type) where
  ballot : K → Option (Option Ballot)
  lastClose : Nat

namespace Ballots

def new : Ballots K := ⟨fun _ => none, 0⟩

def latest (valSet : List (STValidation K)) (k : K) : Option (STValidation K) :=
  (valSet.filter fun val => val.signer = k).getLast?

def call (ballots : Ballots K) : VoteCall K → Ballots K
  | .trustChanged allTrusted =>
    { ballots with ballot := fun k => if k ∈ allTrusted then some ((ballots.ballot k).getD none) else none }
  | .recordVotes valSet closeTime =>
    { ballot := fun k => (ballots.ballot k).map fun old =>
        match latest valSet k with
        | some val => some ⟨closeTime.toNat, val.amendments.getD []⟩
        | none => old
      lastClose := closeTime.toNat }

/-- The validator is trusted, and its most recent validation is at most 24 hours old and lists the amendment. -/
def Lists (ballots : Ballots K) (a : Uint256) (k : K) : Prop :=
  ∃ ballot, ballots.ballot k = some (some ballot) ∧ ballots.lastClose ≤ ballot.closeTime + 86400 ∧ a ∈ ballot.amendments

/-- What is recorded of a ballot at the time `now`. -/
def held (now : Nat) : Option Ballot → UpvotesAndTimeout
  | some ballot =>
    if now ≤ ballot.closeTime + 86400 then ⟨ballot.amendments, some (BitVec.ofNat 32 (ballot.closeTime + 86400))⟩
    else ⟨[], none⟩
  | none => ⟨[], none⟩

/-- The recorded votes are those of the ballots that are not too old.  The times leave room for the timeout, and no
ballot lists an amendment twice. -/
structure Holds (ballots : Ballots K) (votes : TrustedVotes K) : Prop where
  lookup : ∀ k, votes.lookup k = (ballots.ballot k).map (held ballots.lastClose)
  time : ∀ k ballot, ballots.ballot k = some (some ballot) → ballot.closeTime ≤ ballots.lastClose
  room : ballots.lastClose + 86400 < 2 ^ 32
  nodup : ∀ k ballot, ballots.ballot k = some (some ballot) → ballot.amendments.Nodup

end Ballots

private lemma lookup_recordVotes (t : NetTime) (valSet : List (STValidation K)) (k : K) :
    ∀ votes : TrustedVotes K, (valSet.foldl (TrustedVotes.recordVote t) votes).lookup k =
      (votes.lookup k).map fun old =>
        match Ballots.latest valSet k with
        | some val => ⟨val.amendments.getD [], some t⟩
        | none => old := by
  induction valSet with
  | nil => exact fun votes => map_id'.symm
  | cons val valSet ih =>
    intro votes
    rw [foldl_cons, ih]
    by_cases hk : val.signer = k
    · subst hk
      have hl : Ballots.latest (val :: valSet) val.signer = some ((Ballots.latest valSet val.signer).getD val) := by
        simp [Ballots.latest, getLast?_cons]
      unfold TrustedVotes.recordVote
      cases hv : votes.lookup val.signer with
      | none => simp [hv]
      | some old =>
        simp only [lookup_insert, hl]
        cases Ballots.latest valSet val.signer <;> rfl
    · have hl : Ballots.latest (val :: valSet) k = Ballots.latest valSet k := by
        simp [Ballots.latest, hk]
      have hs : (TrustedVotes.recordVote t votes val).lookup k = votes.lookup k := by
        unfold TrustedVotes.recordVote
        split
        · exact lookup_insert_ne (Ne.symm hk)
        · rfl
      rw [hs, hl]

namespace Ballots

/-- A ballot that was recorded at the time `closeTime` or before is dropped when it is too old. -/
private lemma expireVotes_held {now : Nat} {closeTime : NetTime} (hn : now ≤ closeTime.toNat)
    (hroom : now + 86400 < 2 ^ 32)
    {old : Option Ballot} (ht : ∀ ballot, old = some ballot → ballot.closeTime ≤ now) :
    TrustedVotes.expireVotes closeTime (held now old) = held closeTime.toNat old := by
  cases old with
  | none => rfl
  | some ballot =>
    have hle := ht ballot rfl
    unfold held
    by_cases hy : now ≤ ballot.closeTime + 86400
    · have htmo : (BitVec.ofNat 32 (ballot.closeTime + 86400)).toNat = ballot.closeTime + 86400 := by
        exact Nat.mod_eq_of_lt (by omega)
      simp only [if_pos hy, TrustedVotes.expireVotes, BitVec.lt_def, htmo]
      by_cases he : ballot.closeTime + 86400 < closeTime.toNat
      · rw [if_pos he, if_neg (by omega)]
      · rw [if_neg he, if_pos (by omega)]
    · simp only [if_neg hy, TrustedVotes.expireVotes]
      rw [if_neg (by omega)]

private lemma expireVotes_new {closeTime : NetTime} (hroom : closeTime.toNat + 86400 < 2 ^ 32)
    (amendments : List Uint256) :
    TrustedVotes.expireVotes closeTime ⟨amendments, some (closeTime + kExpiresAfter)⟩ =
      held closeTime.toNat (some ⟨closeTime.toNat, amendments⟩) := by
  have ht : (closeTime + kExpiresAfter).toNat = closeTime.toNat + 86400 := by
    exact Nat.mod_eq_of_lt hroom
  have heq : closeTime + kExpiresAfter = BitVec.ofNat 32 (closeTime.toNat + 86400) := by
    apply BitVec.eq_of_toNat_eq
    rw [ht, BitVec.toNat_ofNat, Nat.mod_eq_of_lt hroom]
  simp only [TrustedVotes.expireVotes, held, BitVec.lt_def]
  rw [if_neg (by omega), if_pos (by omega), heq]

variable {ballots : Ballots K} {votes : TrustedVotes K}

variable (h : ballots.Holds votes)

include h

private lemma Holds.trustChanged (allTrusted : HashSet K) :
    (ballots.call (.trustChanged allTrusted)).Holds (votes.trustChanged allTrusted) := by
  have hb : ∀ k ballot, (ballots.call (.trustChanged allTrusted)).ballot k = some (some ballot) →
      ballots.ballot k = some (some ballot) := by
    intro k ballot hk
    simp only [call] at hk
    split at hk
    · cases hold : ballots.ballot k with
      | none => simp [hold] at hk
      | some old => simpa [hold] using hk
    · cases hk
  refine ⟨fun k => ?_, fun k ballot hk => h.time k ballot (hb k ballot hk), h.room,
    fun k ballot hk => h.nodup k ballot (hb k ballot hk)⟩
  unfold TrustedVotes.trustChanged
  rw [HashMap.lookup_mapVal, h.lookup k]
  simp only [call]
  by_cases hk : k ∈ allTrusted
  · obtain ⟨u, hu⟩ := isSome_iff_exists.1 (lookup_isSome.2 hk)
    rw [hu, if_pos hk]
    cases ballots.ballot k <;> rfl
  · rw [lookup_eq_none.2 hk, if_neg hk]
    rfl

private lemma Holds.recordVotes
    (valSet : List (STValidation K)) (closeTime : NetTime) (hn : ballots.lastClose ≤ closeTime.toNat)
    (hroom : closeTime.toNat + 86400 < 2 ^ 32)
    (hnodup : ∀ val ∈ valSet.filter fun val => (votes.lookup val.signer).isSome, (val.amendments.getD []).Nodup) :
    (ballots.call (.recordVotes valSet closeTime)).Holds (votes.recordVotes valSet closeTime) := by
  -- a ballot after the call is a new one or one from before
  have hb : ∀ k ballot, (ballots.call (.recordVotes valSet closeTime)).ballot k = some (some ballot) →
      (ballot.closeTime = closeTime.toNat ∧ ballot.amendments.Nodup) ∨ ballots.ballot k = some (some ballot) := by
    intro k ballot hk
    obtain ⟨old, hold, heq⟩ := map_eq_some_iff.1 hk
    split at heq
    · rename_i val hv
      cases heq
      obtain ⟨hmem, hk⟩ := mem_filter.1 (mem_of_getLast? hv)
      obtain rfl := of_decide_eq_true hk
      exact .inl ⟨rfl, hnodup val (mem_filter.2 ⟨hmem, by rw [h.lookup, hold]; rfl⟩)⟩
    · exact .inr (heq ▸ hold)
  refine ⟨fun k => ?_, fun k ballot hk => ?_, hroom, fun k ballot hk => ?_⟩
  · unfold TrustedVotes.recordVotes
    rw [HashMap.lookup_mapVal, lookup_recordVotes, h.lookup k]
    simp only [call]
    cases hold : ballots.ballot k with
    | none => rfl
    | some old =>
      simp only [map_some, some.injEq]
      cases latest valSet k with
      | some val => exact expireVotes_new hroom _
      | none =>
        refine expireVotes_held hn h.room fun ballot heq => ?_
        subst heq
        exact h.time k ballot hold
  · rcases hb k ballot hk with ⟨ht, -⟩ | hold
    · exact ht.le
    · exact (h.time k ballot hold).trans hn
  · rcases hb k ballot hk with ⟨-, hnew⟩ | hold
    · exact hnew
    · exact h.nodup k ballot hold

private lemma Holds.recorded (a : Uint256) {k : K} {v : UpvotesAndTimeout} (hv : votes.lookup k = some v) :
    v.upVotes.Nodup ∧ (a ∈ v.upVotes ↔ ballots.Lists a k) ∧ (a ∈ v.upVotes → v.timeout.isSome) := by
  rw [h.lookup k] at hv
  obtain ⟨old, hold, rfl⟩ := map_eq_some_iff.1 hv
  cases old with
  | none => simp [held, Lists, hold]
  | some ballot =>
    by_cases hy : ballots.lastClose ≤ ballot.closeTime + 86400
    · simp [held, Lists, hold, hy, h.nodup k ballot hold]
    · simp [held, Lists, hold, hy]

end Ballots

section

variable (calls : List (VoteCall K))

def closeTimes : List Nat :=
  calls.filterMap fun
    | .trustChanged _ => none
    | .recordVotes _ closeTime => some closeTime.toNat

/-- The validations that are recorded: their signers are trusted. -/
def recorded : TrustedVotes K → List (VoteCall K) → List (STValidation K)
  | _, [] => []
  | votes, .trustChanged allTrusted :: calls => recorded (votes.trustChanged allTrusted) calls
  | votes, .recordVotes valSet closeTime :: calls =>
    valSet.filter (fun val => (votes.lookup val.signer).isSome) ++ recorded (votes.recordVotes valSet closeTime) calls

def TrustedVotes.run : TrustedVotes K := calls.foldl TrustedVotes.call ∅

def Ballots.run : Ballots K := calls.foldl Ballots.call Ballots.new

variable (hord : (closeTimes calls).Pairwise (· ≤ ·)) (hroom : ∀ t ∈ closeTimes calls, t + 86400 < 2 ^ 32)

include hord hroom

private lemma Ballots.holds_foldl : ∀ {ballots : Ballots K} {votes : TrustedVotes K}, ballots.Holds votes →
      (∀ t ∈ closeTimes calls, ballots.lastClose ≤ t) →
      (∀ val ∈ recorded votes calls, (val.amendments.getD []).Nodup) →
      (calls.foldl Ballots.call ballots).Holds (calls.foldl TrustedVotes.call votes) := by
  induction calls with
  | nil => exact fun h _ _ => h
  | cons c calls ih =>
    intro ballots votes h hst hnodup
    cases c with
    | trustChanged allTrusted => exact ih hord hroom (h.trustChanged allTrusted) hst hnodup
    | recordVotes valSet closeTime =>
      obtain ⟨hf, hr⟩ := pairwise_cons.1 hord
      refine ih hr (fun t ht => hroom t (mem_cons_of_mem _ ht)) ?_ hf fun val hv => hnodup val (mem_append_right _ hv)
      exact h.recordVotes valSet closeTime (hst _ mem_cons_self) (hroom _ mem_cons_self)
        fun val hv => hnodup val (mem_append_left _ hv)

private lemma Ballots.holds_run (hnodup : ∀ val ∈ recorded ∅ calls, (val.amendments.getD []).Nodup) :
    (Ballots.run calls).Holds (TrustedVotes.run calls) := by
  refine holds_foldl calls hord hroom ⟨fun k => ?_, ?_, ?_, ?_⟩ (fun t _ => Nat.zero_le t) hnodup
  · exact lookup_empty k
  · exact fun _ _ hk => by cases hk
  · show 0 + 86400 < 2 ^ 32
    decide
  · exact fun _ _ hk => by cases hk

end

/-- When no recorded validation lists an amendment twice and the network clock has room for the timeout, the votes for an
amendment are the trusted validators whose most recent validation, at most 24 hours old, lists it. -/
theorem votes_eq_ncard (calls : List (VoteCall K)) (hordered : (closeTimes calls).Pairwise (· ≤ ·))
    (hroom : ∀ t ∈ closeTimes calls, t + 86400 < 2 ^ 32)
    (hnodup : ∀ val ∈ recorded ∅ calls, (val.amendments.getD []).Nodup) (a : Uint256) :
    (AmendmentSet.new (TrustedVotes.run calls)).votes a = {k | (Ballots.run calls).Lists a k}.ncard ∧
      (AmendmentSet.new (TrustedVotes.run calls)).votes a ≤
        (AmendmentSet.new (TrustedVotes.run calls)).trustedValidations := by
  have h := Ballots.holds_run calls hordered hroom hnodup
  have hr := fun k v (hv : (TrustedVotes.run calls).lookup k = some v) => h.recorded a hv
  have hc := votes_eq_count (fun k v hv => (hr k v hv).1) a
  rw [hc]
  refine ⟨?_, ?_⟩
  · rw [HashMap.count_eq_ncard]
    congr 1
    ext k
    constructor
    · rintro ⟨v, hv, hin⟩
      exact (hr k v hv).2.1.1 (of_decide_eq_true hin)
    intro hls
    obtain ⟨ballot, hb⟩ := hls.imp fun _ h => h.1
    obtain ⟨v, hv⟩ : ∃ v, (TrustedVotes.run calls).lookup k = some v := ⟨_, by rw [h.lookup k, hb]; rfl⟩
    exact ⟨v, hv, decide_eq_true ((hr k v hv).2.1.2 hls)⟩
  · refine (countP_mono_left fun e he hin => ?_).trans_eq (getVotes_eq (TrustedVotes.run calls) a).1.symm
    exact (hr e.1 e.2 (HashMap.lookup_of_mem_entries he)).2.2 (of_decide_eq_true hin)

def keySet (keys : List Nat) : HashSet Nat := keys.foldl (fun set k => set.emplace k ()) ∅

def twoOfThree : List (VoteCall Nat) :=
  [.trustChanged (keySet [1, 2, 3]), .recordVotes [⟨1, some [7]⟩, ⟨2, some [5, 7]⟩, ⟨4, some [7, 7]⟩] 1000,
    .recordVotes [⟨3, none⟩] 2000]

theorem votes_eq_ncard_two : (AmendmentSet.new (TrustedVotes.run twoOfThree)).votes 7 = 2 ∧
    (AmendmentSet.new (TrustedVotes.run twoOfThree)).votes 7 = {k | (Ballots.run twoOfThree).Lists 7 k}.ncard :=
  ⟨by decide +kernel, (votes_eq_ncard twoOfThree (by decide) (by decide) (by decide) 7).1⟩

/-- Of five validators only the first one lists the amendment 7, and it lists it five times. -/
def fivefold : List (VoteCall Nat) :=
  [.trustChanged (keySet [1, 2, 3, 4, 5]),
    .recordVotes [⟨1, some [7, 7, 7, 7, 7]⟩, ⟨2, none⟩, ⟨3, none⟩, ⟨4, none⟩, ⟨5, none⟩] 1000]

/-- One validator alone has the amendment pass. -/
theorem votes_fivefold : (AmendmentSet.new (TrustedVotes.run fivefold)).votes 7 = 5 ∧
    (AmendmentSet.new (TrustedVotes.run fivefold)).trustedValidations = 5 ∧
    (AmendmentSet.new (TrustedVotes.run fivefold)).passes 7 = true ∧
    ∀ k, (Ballots.run fivefold).Lists 7 k → k = 1 := by
  refine ⟨by decide +kernel, by decide +kernel, by decide +kernel, ?_⟩
  rintro k ⟨ballot, hb, -, hls⟩
  obtain ⟨old, hold, heq⟩ := map_eq_some_iff.1 hb
  split at heq
  · rename_i val hv
    cases heq
    have hmem := mem_filter.1 (mem_of_getLast? hv)
    simp only [mem_cons, not_mem_nil, or_false] at hmem
    obtain ⟨rfl | rfl | rfl | rfl | rfl, hk⟩ := hmem
    · exact (of_decide_eq_true hk).symm
    all_goals cases hls
  · subst heq
    simp [Ballots.call, Ballots.new] at hold

end Xrpl.Amendments

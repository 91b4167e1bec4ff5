import Xrpl.Lib.Yields
import Xrpl.Amendments.TrustedVotes

/-!
# Amendment voting and the Amendments ledger object

The ledger lists the enabled amendments and those that have a majority, with the time they got it.  In `doVoting` a
server compares the votes it counted with the ledger and decides on an action for each amendment it knows; the actions
become pseudo-transactions, which `applyAmendment` carries out or refuses.

* `WellFormed`: no amendment is listed twice, and none is both enabled and waiting for it;
* `Refused`, `Applied`: which transactions are refused, and what the other ones do;
* `run_wellFormed_and_voting`: the object is well-formed after every history, and every action voted for succeeds.
-/

namespace Xrpl.Amendments

open List Option

inductive TER where
  | tefALREADY
  | temINVALID_FLAG
  deriving DecidableEq

def tfGotMajority : BitVec 32 := 0x00010000
def tfLostMajority : BitVec 32 := 0x00020000

def isFlag (flags f : BitVec 32) : Bool := flags &&& f = f

inductive AmendmentVote where
  | obsolete
  | up
  | down
  deriving DecidableEq

structure AmendmentState where
  vote : AmendmentVote := .down
  enabled : Bool := false
  supported : Bool := false
  deriving DecidableEq

structure AmendmentTable (K : Type) where
  amendmentMap : HashMap Uint256 AmendmentState
  previousTrustedVotes : TrustedVotes K
  /-- Seconds for which an amendment must hold a majority. -/
  majorityTime : Int
  lastVote : Option AmendmentSet := none
  unsupportedEnabled : Bool := false

variable {K : Type}

namespace AmendmentTable

def enable (table : AmendmentTable K) (amendment : Uint256) : Bool × AmendmentTable K :=
  let s := (table.amendmentMap.lookup amendment).getD {}
  if s.enabled then (false, table)
  else
    (true, { table with
      amendmentMap := table.amendmentMap.insert amendment { s with enabled := true }
      unsupportedEnabled := table.unsupportedEnabled || !s.supported })

def isSupported (table : AmendmentTable K) (amendment : Uint256) : Bool :=
  (table.amendmentMap.lookup amendment).any AmendmentState.supported

end AmendmentTable

structure Majority where
  amendment : Uint256
  closeTime : NetTime
  deriving DecidableEq

/-- The Amendments object; both fields are optional. -/
structure AmendmentsObject where
  amendments : Option (List Uint256)
  majorities : Option (List Majority)
  deriving DecidableEq

def amendmentsOf (object : Option AmendmentsObject) : List Uint256 := (object.bind AmendmentsObject.amendments).getD []

def majoritiesOf (object : Option AmendmentsObject) : List Majority := (object.bind AmendmentsObject.majorities).getD []

/-- What `applyAmendment` changes: the object in the ledger, the server's table, and whether the server is blocked. -/
structure ChangeContext (K : Type) where
  object : Option AmendmentsObject
  table : AmendmentTable K
  amendmentBlocked : Bool := false

/-- A transaction of type `ttAMENDMENT`, with the close time of the ledger's parent. -/
structure AmendmentTx where
  amendment : Uint256
  flags : BitVec 32
  parentCloseTime : NetTime

def scanMajority (amendment : Uint256) (gotMajority : Bool) (acc : Bool × List Majority) (majority : Majority) :
    Except TER (Bool × List Majority) :=
  if majority.amendment = amendment then if gotMajority then .error .tefALREADY else .ok (true, acc.2)
  else .ok (acc.1, acc.2 ++ [majority])

/-- The loop over the old majorities: whether there is one for the amendment, and the other ones. -/
def scanMajorities (amendment : Uint256) (gotMajority : Bool) (oldMajorities : List Majority) :
    Except TER (Bool × List Majority) :=
  oldMajorities.foldlM (scanMajority amendment gotMajority) (false, [])

def applyAmendment (ctx : ChangeContext K) (tx : AmendmentTx) : Except TER (ChangeContext K) := do
  let amendments := amendmentsOf ctx.object
  if tx.amendment ∈ amendments then throw .tefALREADY
  let gotMajority := isFlag tx.flags tfGotMajority
  let lostMajority := isFlag tx.flags tfLostMajority
  if gotMajority && lostMajority then throw .temINVALID_FLAG
  let (found, newMajorities) ← scanMajorities tx.amendment gotMajority (majoritiesOf ctx.object)
  if !found && lostMajority then throw .tefALREADY
  let newMajorities := if gotMajority then newMajorities ++ [⟨tx.amendment, tx.parentCloseTime⟩] else newMajorities
  let majorities := if newMajorities = [] then none else some newMajorities
  if !gotMajority && !lostMajority then
    -- no flags: enable the amendment
    let table := (ctx.table.enable tx.amendment).2
    return {
      object := some ⟨some (amendments ++ [tx.amendment]), majorities⟩
      table := table
      amendmentBlocked := ctx.amendmentBlocked || !table.isSupported tx.amendment }
  else
    return { ctx with object := some ⟨ctx.object.bind AmendmentsObject.amendments, majorities⟩ }

def getEnabledAmendments (object : Option AmendmentsObject) : Finset Uint256 :=
  (amendmentsOf object).toFinset

def getMajorityAmendments (object : Option AmendmentsObject) : HashMap Uint256 NetTime :=
  (majoritiesOf object).foldl (fun ret m => ret.insert m.amendment m.closeTime) ∅

/-- What is to be done about an amendment that is not enabled: the flags of the pseudo-transaction. -/
def votingAction (vote : AmendmentSet) (holdFor : Int) (closeTime : NetTime)
    (majorityAmendments : HashMap Uint256 NetTime) (amendment : Uint256) (state : AmendmentState) :
    Option (BitVec 32) :=
  let hasValMajority := vote.passes amendment
  let majorityTime := majorityAmendments.lookup amendment
  let hasLedgerMajority := majorityTime.isSome
  if hasValMajority && !hasLedgerMajority && state.vote = .up then some tfGotMajority
  else if !hasValMajority && hasLedgerMajority then some tfLostMajority
  else if majorityTime.any (fun t => (t.toNat : Int) + holdFor ≤ closeTime.toNat) && state.vote = .up then some 0
  else none

def addAction (vote : AmendmentSet) (holdFor : Int) (closeTime : NetTime) (enabledAmendments : Finset Uint256)
    (majorityAmendments : HashMap Uint256 NetTime) (actions : HashMap Uint256 (BitVec 32))
    (entry : Σ _ : Uint256, AmendmentState) : HashMap Uint256 (BitVec 32) :=
  if entry.1 ∈ enabledAmendments then actions
  else
    match votingAction vote holdFor closeTime majorityAmendments entry.1 entry.2 with
    | some flags => actions.insert entry.1 flags
    | none => actions

/-- The server's table after the vote, and the action for each amendment. -/
def AmendmentTable.doVoting [DecidableEq K] (table : AmendmentTable K) (closeTime : NetTime) (enabledAmendments : Finset Uint256)
    (majorityAmendments : HashMap Uint256 NetTime) (valSet : List (STValidation K)) :
    AmendmentTable K × HashMap Uint256 (BitVec 32) :=
  let previousTrustedVotes := table.previousTrustedVotes.recordVotes valSet closeTime
  let vote := AmendmentSet.new previousTrustedVotes
  let actions := table.amendmentMap.entries.foldl
    (addAction vote table.majorityTime closeTime enabledAmendments majorityAmendments) ∅
  ({ table with previousTrustedVotes := previousTrustedVotes, lastVote := some vote }, actions)

/-! ### What a transaction does -/

private lemma scanMajorities_eq (a : Uint256) (got : Bool) (l : List Majority) : scanMajorities a got l =
      if got = true ∧ ∃ m ∈ l, m.amendment = a then .error .tefALREADY
      else .ok (decide (∃ m ∈ l, m.amendment = a), l.filter fun m => m.amendment ≠ a) := by
  have hf : ∀ (found : Bool) (kept : List Majority), l.foldlM (scanMajority a got) (found, kept) =
      if got = true ∧ ∃ m ∈ l, m.amendment = a then .error .tefALREADY
      else .ok (found || decide (∃ m ∈ l, m.amendment = a), kept ++ l.filter fun m => m.amendment ≠ a) := by
    induction l with
    | nil => simp [pure, Except.pure]
    | cons m l ih =>
      intro found kept
      rw [foldlM_cons, scanMajority]
      by_cases hm : m.amendment = a
      · cases got with
        | true => simp [hm, bind, Except.bind]
        | false => simp [hm, bind, Except.bind, ih]
      · simp [hm, bind, Except.bind, ih]
  simpa [scanMajorities] using hf false []

/-- The three things a transaction can do to the object. -/
inductive Applied (object : Option AmendmentsObject) (tx : AmendmentTx) (object' : Option AmendmentsObject) : Prop
  | gotMajority (hfresh : ∀ m ∈ majoritiesOf object, m.amendment ≠ tx.amendment)
    (hamendments : amendmentsOf object' = amendmentsOf object)
    (hmajorities : majoritiesOf object' = majoritiesOf object ++ [⟨tx.amendment, tx.parentCloseTime⟩])
  | lostMajority (hamendments : amendmentsOf object' = amendmentsOf object)
    (hmajorities : majoritiesOf object' = (majoritiesOf object).filter fun m => m.amendment ≠ tx.amendment)
  | enabled (hamendments : amendmentsOf object' = amendmentsOf object ++ [tx.amendment])
    (hmajorities : majoritiesOf object' = (majoritiesOf object).filter fun m => m.amendment ≠ tx.amendment)

/-- The field `sfMajorities` for a list of majorities. -/
def majoritiesField (l : List Majority) : Option (List Majority) := if l = [] then none else some l

private lemma majoritiesOf_field (amendments : Option (List Uint256)) (l : List Majority) :
    majoritiesOf (some ⟨amendments, majoritiesField l⟩) = l := by
  unfold majoritiesField
  split
  · subst_vars
    rfl
  · rfl

/-- A transaction is refused when the amendment is enabled, when both flags are set, and when it tells of a majority
that is there or of the loss of one that is not. -/
def Refused (object : Option AmendmentsObject) (tx : AmendmentTx) : Prop :=
  tx.amendment ∈ amendmentsOf object ∨
    (isFlag tx.flags tfGotMajority = true ∧ isFlag tx.flags tfLostMajority = true) ∨
    (isFlag tx.flags tfGotMajority = true ∧ ∃ m ∈ majoritiesOf object, m.amendment = tx.amendment) ∨
    (isFlag tx.flags tfLostMajority = true ∧ ¬ ∃ m ∈ majoritiesOf object, m.amendment = tx.amendment)

variable {ctx : ChangeContext K} {tx : AmendmentTx} {object object' : Option AmendmentsObject}

private lemma applyAmendment_refused (h : Refused ctx.object tx) : ∃ e, applyAmendment ctx tx = .error e := by
  unfold applyAmendment
  by_cases hin : tx.amendment ∈ amendmentsOf ctx.object
  · exact ⟨.tefALREADY, by simp [hin, throw, throwThe, MonadExceptOf.throw, bind, Except.bind]⟩
  by_cases hb : isFlag tx.flags tfGotMajority = true ∧ isFlag tx.flags tfLostMajority = true
  · exact ⟨.temINVALID_FLAG, by simp [hin, hb, throw, throwThe, MonadExceptOf.throw, bind, Except.bind]⟩
  rcases h with h | h | ⟨hg, hold⟩ | ⟨hl, hold⟩
  · exact absurd h hin
  · exact absurd h hb
  · have hl : isFlag tx.flags tfLostMajority = false := by simpa [hg] using hb
    refine ⟨.tefALREADY, ?_⟩
    simp [hin, hg, hl, scanMajorities_eq, hold]
  · have hg : isFlag tx.flags tfGotMajority = false := by simpa [hl] using hb
    refine ⟨.tefALREADY, ?_⟩
    simp [hin, hg, hl, scanMajorities_eq, hold, bind, Except.bind, throw, throwThe, MonadExceptOf.throw]

section

variable (hin : tx.amendment ∉ amendmentsOf ctx.object)

include hin

private lemma applyAmendment_got (hg : isFlag tx.flags tfGotMajority = true)
    (hl : isFlag tx.flags tfLostMajority = false)
    (hold : ¬ ∃ m ∈ majoritiesOf ctx.object, m.amendment = tx.amendment) :
    applyAmendment ctx tx = .ok { ctx with
      object := some ⟨ctx.object.bind AmendmentsObject.amendments,
        majoritiesField ((majoritiesOf ctx.object).filter (fun m => m.amendment ≠ tx.amendment) ++
          [⟨tx.amendment, tx.parentCloseTime⟩])⟩ } := by
  unfold applyAmendment majoritiesField
  simp [hin, hg, hl, scanMajorities_eq, hold, bind, Except.bind, pure, Except.pure]

private lemma applyAmendment_lost (hg : isFlag tx.flags tfGotMajority = false)
    (hl : isFlag tx.flags tfLostMajority = true)
    (hold : ∃ m ∈ majoritiesOf ctx.object, m.amendment = tx.amendment) :
    applyAmendment ctx tx = .ok { ctx with
      object := some ⟨ctx.object.bind AmendmentsObject.amendments,
        majoritiesField ((majoritiesOf ctx.object).filter fun m => m.amendment ≠ tx.amendment)⟩ } := by
  unfold applyAmendment majoritiesField
  simp [hin, hg, hl, scanMajorities_eq, hold, bind, Except.bind, pure, Except.pure]

private lemma applyAmendment_enable (hg : isFlag tx.flags tfGotMajority = false)
    (hl : isFlag tx.flags tfLostMajority = false) :
    applyAmendment ctx tx = .ok {
      object := some ⟨some (amendmentsOf ctx.object ++ [tx.amendment]),
        majoritiesField ((majoritiesOf ctx.object).filter fun m => m.amendment ≠ tx.amendment)⟩
      table := (ctx.table.enable tx.amendment).2
      amendmentBlocked := ctx.amendmentBlocked || !(ctx.table.enable tx.amendment).2.isSupported tx.amendment } := by
  unfold applyAmendment majoritiesField
  simp [hin, hg, hl, scanMajorities_eq, bind, Except.bind, pure, Except.pure]

end

private lemma applied_of_ok {ctx' : ChangeContext K} (h : applyAmendment ctx tx = .ok ctx') :
    tx.amendment ∉ amendmentsOf ctx.object ∧ Applied ctx.object tx ctx'.object := by
  have hn : ¬ Refused ctx.object tx := by
    intro hr
    obtain ⟨e, he⟩ := applyAmendment_refused hr
    rw [h] at he
    cases he
  simp only [Refused, not_or, not_and, not_not] at hn
  obtain ⟨hin, hb, hg, hl⟩ := hn
  refine ⟨hin, ?_⟩
  cases hgot : isFlag tx.flags tfGotMajority with
  | true =>
    have hlo : isFlag tx.flags tfLostMajority = false := by simpa using hb hgot
    have hf := hg hgot
    rw [applyAmendment_got hin hgot hlo hf] at h
    cases h
    refine .gotMajority (fun m hm heq => hf ⟨m, hm, heq⟩) rfl ((majoritiesOf_field _ _).trans ?_)
    congr 1
    exact filter_eq_self.2 fun m hm => decide_eq_true fun heq => hf ⟨m, hm, heq⟩
  | false =>
    cases hlo : isFlag tx.flags tfLostMajority with
    | true =>
      rw [applyAmendment_lost hin hgot hlo (hl hlo)] at h
      cases h
      exact .lostMajority rfl (majoritiesOf_field _ _)
    | false =>
      rw [applyAmendment_enable hin hgot hlo] at h
      cases h
      exact .enabled rfl (majoritiesOf_field _ _)

/-- No amendment is listed twice, and none that is enabled has a majority entry. -/
structure WellFormed (object : Option AmendmentsObject) : Prop where
  amendments : (amendmentsOf object).Nodup
  majorities : ((majoritiesOf object).map Majority.amendment).Nodup
  disjoint : ∀ m ∈ majoritiesOf object, m.amendment ∉ amendmentsOf object

private lemma Applied.wellFormed (happ : Applied object tx object') (hin : tx.amendment ∉ amendmentsOf object)
    (h : WellFormed object) : WellFormed object' := by
  have hfil : (((majoritiesOf object).filter fun m => m.amendment ≠ tx.amendment).map Majority.amendment).Nodup :=
    (filter_sublist.map _).nodup h.majorities
  cases happ with
  | gotMajority hf ham hma =>
    refine ⟨ham ▸ h.amendments, ?_, ?_⟩
    · rw [hma, map_append, nodup_append]
      refine ⟨h.majorities, nodup_singleton _, fun a ha b hb => ?_⟩
      obtain ⟨m, hm, rfl⟩ := mem_map.1 ha
      rw [mem_singleton.1 hb]
      exact hf m hm
    · rw [hma, ham]
      intro m hm
      rcases mem_append.1 hm with hm | hm
      · exact h.disjoint m hm
      · rw [mem_singleton.1 hm]
        exact hin
  | lostMajority ham hma =>
    refine ⟨ham ▸ h.amendments, hma ▸ hfil, ?_⟩
    rw [hma, ham]
    exact fun m hm => h.disjoint m (mem_of_mem_filter hm)
  | enabled ham hma =>
    refine ⟨?_, hma ▸ hfil, ?_⟩
    · rw [ham, nodup_append]
      refine ⟨h.amendments, nodup_singleton _, fun a ha b hb heq => hin ?_⟩
      rw [← mem_singleton.1 hb, ← heq]
      exact ha
    · rw [hma, ham]
      intro m hm hmem
      obtain ⟨hm, hne⟩ := mem_filter.1 hm
      rcases mem_append.1 hmem with hmem | hmem
      · exact h.disjoint m hm hmem
      · exact of_decide_eq_true hne (mem_singleton.1 hmem)

/-- The ledger after a transaction; one that is refused changes nothing. -/
def ChangeContext.step (ctx : ChangeContext K) (tx : AmendmentTx) : ChangeContext K :=
  (applyAmendment ctx tx).toOption.getD ctx

private lemma wellFormed_foldl (txs : List AmendmentTx) (h : WellFormed ctx.object) :
    WellFormed (txs.foldl ChangeContext.step ctx).object ∧
      amendmentsOf ctx.object <+: amendmentsOf (txs.foldl ChangeContext.step ctx).object := by
  refine foldl_rest (I := fun _ (ctx' : ChangeContext K) => WellFormed ctx'.object ∧
    amendmentsOf ctx.object <+: amendmentsOf ctx'.object) (fun tx _ _ ctx' h => ?_) ⟨h, prefix_rfl⟩
  unfold ChangeContext.step
  cases hc : applyAmendment ctx' tx with
  | error e => exact h
  | ok ctx'' =>
    obtain ⟨hin, ha⟩ := applied_of_ok hc
    refine ⟨ha.wellFormed hin h.1, h.2.trans ?_⟩
    change _ <+: amendmentsOf ctx''.object
    cases ha with
    | gotMajority _ ha _ => rw [ha]
    | lostMajority ha _ => rw [ha]
    | enabled ha _ =>
      rw [ha]
      exact prefix_append _ _

/-! ### The actions that are voted for -/

private lemma lookup_getMajorityAmendments (h : WellFormed object) (a : Uint256)
    (t : NetTime) : (getMajorityAmendments object).lookup a = some t ↔ ⟨a, t⟩ ∈ majoritiesOf object := by
  have hf : ∀ (l : List Majority) (ret : HashMap Uint256 NetTime), (l.map Majority.amendment).Nodup →
      ((l.foldl (fun ret m => ret.insert m.amendment m.closeTime) ret).lookup a = some t ↔
        ⟨a, t⟩ ∈ l ∨ (a ∉ l.map Majority.amendment ∧ ret.lookup a = some t)) := by
    intro l
    induction l with
    | nil => simp
    | cons m l ih =>
      intro ret hn
      obtain ⟨hm, hn⟩ := nodup_cons.1 hn
      rw [foldl_cons, ih _ hn]
      obtain ⟨b, u⟩ := m
      by_cases hab : a = b
      · subst hab
        have hnot : ⟨a, t⟩ ∉ l := fun hmem => hm (mem_map.2 ⟨⟨a, t⟩, hmem, rfl⟩)
        simp only [map_cons, mem_cons, AList.lookup_insert, some.injEq, Majority.mk.injEq, hnot,
          hm, not_false_eq_true, true_and, false_or, or_false, not_true_eq_false, false_and]
        exact eq_comm
      · simp [hab]
  rw [getMajorityAmendments, hf _ _ h.majorities]
  simp

variable [DecidableEq K] {majority : HashMap Uint256 NetTime} {closeTime : NetTime} {flags : BitVec 32}

/-- An action is for an amendment that is not enabled, as `votingAction` has it. -/
private lemma AmendmentTable.doVoting_spec {table : AmendmentTable K} {enabled : Finset Uint256}
    {valSet : List (STValidation K)} {a : Uint256} (h : (table.doVoting closeTime enabled majority valSet).2.lookup a = some flags) :
    a ∉ enabled ∧ ∃ vote state, votingAction vote table.majorityTime closeTime majority a state = some flags := by
  refine foldl_rest (I := fun _ (actions : HashMap Uint256 (BitVec 32)) => actions.lookup a = some flags →
    a ∉ enabled ∧ ∃ vote state, votingAction vote table.majorityTime closeTime majority a state = some flags)
    (fun entry _ _ actions hst hlk => ?_) (fun he => by cases he) h
  unfold addAction at hlk
  split at hlk
  · exact hst hlk
  rename_i hn
  split at hlk
  · rename_i flags' ha
    rcases HashMap.of_lookup_insert hlk with ⟨rfl, rfl⟩ | ⟨-, hlk⟩
    · exact ⟨hn, _, entry.2, ha⟩
    · exact hst hlk
  · exact hst hlk

private lemma votingAction_cases {vote : AmendmentSet} {ho : Int} {a : Uint256} {state : AmendmentState}
    (h : votingAction vote ho closeTime majority a state = some flags) :
    (flags = tfGotMajority ∧ majority.lookup a = none) ∨ (flags = tfLostMajority ∧ (majority.lookup a).isSome) ∨
      (flags = 0 ∧ ∃ t, majority.lookup a = some t ∧ (t.toNat : Int) + ho ≤ closeTime.toNat) := by
  unfold votingAction at h
  dsimp only at h
  split at h
  · rename_i hg
    cases h
    simp only [Bool.and_eq_true, Bool.not_eq_true', isSome_eq_false_iff, isNone_iff_eq_none] at hg
    exact .inl ⟨rfl, hg.1.2⟩
  · split at h
    · rename_i hl
      cases h
      exact .inr (.inl ⟨rfl, (Bool.and_eq_true_iff.1 hl).2⟩)
    split at h
    · rename_i hh
      cases h
      obtain ⟨t, ht, hle⟩ := (any_eq_true _ _).1 (Bool.and_eq_true_iff.1 hh).1
      exact .inr (.inr ⟨rfl, t, ht, of_decide_eq_true hle⟩)
    · cases h

/-- After any transactions the object is well-formed and the enabled amendments have only grown.  Every action that is
voted for, with any table and any votes, succeeds, and one to enable an amendment comes only after its majority was
held for long enough. -/
theorem run_wellFormed_and_voting (ctx : ChangeContext K) (hstart : ctx.object = none) (txs : List AmendmentTx) :
    WellFormed (txs.foldl ChangeContext.step ctx).object ∧
      (∀ more, amendmentsOf (txs.foldl ChangeContext.step ctx).object <+:
        amendmentsOf ((txs ++ more).foldl ChangeContext.step ctx).object) ∧
      ∀ (table : AmendmentTable K) (closeTime : NetTime) (valSet : List (STValidation K)) (a : Uint256)
        (flags : BitVec 32),
        (table.doVoting closeTime (getEnabledAmendments (txs.foldl ChangeContext.step ctx).object)
          (getMajorityAmendments (txs.foldl ChangeContext.step ctx).object) valSet).2.lookup a = some flags →
        (∀ parentCloseTime, ∃ ctx',
          applyAmendment (txs.foldl ChangeContext.step ctx) ⟨a, flags, parentCloseTime⟩ = .ok ctx') ∧
        (flags = 0 → ∃ m ∈ majoritiesOf (txs.foldl ChangeContext.step ctx).object,
          m.amendment = a ∧ (m.closeTime.toNat : Int) + table.majorityTime ≤ closeTime.toNat) := by
  have hwf : WellFormed (txs.foldl ChangeContext.step ctx).object := by
    refine (wellFormed_foldl txs ?_).1
    rw [hstart]
    exact ⟨nodup_nil, nodup_nil, fun m hm => by cases hm⟩
  refine ⟨hwf, fun more => ?_, fun table closeTime valSet a flags ha => ?_⟩
  · rw [foldl_append]
    exact (wellFormed_foldl more hwf).2
  generalize txs.foldl ChangeContext.step ctx = ledger at hwf ha
  obtain ⟨hnot, vote, state, ha⟩ := AmendmentTable.doVoting_spec ha
  have hin : a ∉ amendmentsOf ledger.object := fun hmem => hnot (mem_toFinset.2 hmem)
  rcases votingAction_cases ha with ⟨rfl, hn⟩ | ⟨rfl, hs⟩ | ⟨rfl, t, ht, hh⟩
  · have hg : isFlag tfGotMajority tfGotMajority = true := by decide
    have hl : isFlag tfGotMajority tfLostMajority = false := by decide
    refine ⟨fun parentCloseTime => ⟨_, applyAmendment_got hin hg hl ?_⟩, fun h0 => by cases h0⟩
    rintro ⟨⟨b, t⟩, hm, rfl⟩
    rw [(lookup_getMajorityAmendments hwf b t).2 hm] at hn
    cases hn
  · have hg : isFlag tfLostMajority tfGotMajority = false := by decide
    have hl : isFlag tfLostMajority tfLostMajority = true := by decide
    obtain ⟨t, ht⟩ := isSome_iff_exists.1 hs
    have hm := (lookup_getMajorityAmendments hwf a t).1 ht
    exact ⟨fun parentCloseTime => ⟨_, applyAmendment_lost hin hg hl ⟨_, hm, rfl⟩⟩, fun h0 => by cases h0⟩
  · have hg : isFlag 0 tfGotMajority = false := by decide
    have hl : isFlag 0 tfLostMajority = false := by decide
    have hm := (lookup_getMajorityAmendments hwf a t).1 ht
    exact ⟨fun parentCloseTime => ⟨_, applyAmendment_enable hin hg hl⟩, fun _ => ⟨_, hm, rfl, hh⟩⟩

/-- A server that knows the amendment 7, votes for it and trusts one validator. -/
def singleServer : AmendmentTable Nat :=
  ⟨AList.insert 7 { vote := .up, supported := true } ∅, AList.insert 1 ⟨[], none⟩ ∅, 100, none, false⟩

/-- The amendment 7 gets a majority at the time 50 and is voted to be enabled at the time 150. -/
theorem run_wellFormed_and_voting_enable :
    (singleServer.doVoting 150 (getEnabledAmendments (some ⟨none, some [⟨7, 50⟩]⟩))
      (getMajorityAmendments (some ⟨none, some [⟨7, 50⟩]⟩)) [⟨1, some [7]⟩]).2.lookup 7 = some 0 ∧
    ([⟨7, tfGotMajority, 50⟩].foldl ChangeContext.step (⟨none, singleServer, false⟩ : ChangeContext Nat)).object =
      some ⟨none, some [⟨7, 50⟩]⟩ ∧
    WellFormed ([⟨7, tfGotMajority, 50⟩].foldl ChangeContext.step
      (⟨none, singleServer, false⟩ : ChangeContext Nat)).object :=
  ⟨by decide +kernel, by decide +kernel,
    (run_wellFormed_and_voting ⟨none, singleServer, false⟩ rfl [⟨7, tfGotMajority, 50⟩]).1⟩

end Xrpl.Amendments

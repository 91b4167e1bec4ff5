import Xrpl.Lib.Yields
import Xrpl.Overlay.SlotCounting

/-!
# Peers that are held silent

A peer that was told to squelch a validator keeps silent on its own clock, until the announced duration is over or it
is told otherwise.  The slot that could tell it otherwise has a clock of its own: `deleteIdlePeers` drops a slot 600
seconds after its last selection, without a word to the peers.  While no slot has so many peers that a squelch can last
longer than that, a peer that is held silent is squelched in its slot, and the slot has selected peers in its place.

* `Event`, `HeldSilent`: what peers have been told, and what they make of it;
* `Slot.Silent`: a slot that accounts for the silence of a peer;
* `Relay.Brief`: the slot that a message is for has few enough peers;
* `run_never_silenced`: a validator with a silent peer has its sources;
* `run_silenced`: with more peers a slot can be dropped while its peers are silent.
-/

namespace Xrpl.ReduceRelay

open List Option AList HashMap Slot

variable {K : Type}

/-- What bears on the silence of a peer. -/
inductive Event (K : Type) where
  | squelched (validator : K) (id : PeerId) (since duration : Int)
  | unsquelched (validator : K) (id : PeerId)
  | deleted (id : PeerId)
  deriving DecidableEq, Repr

/-- The event of a notice to the handler at the time `now`. -/
def eventOf (now : Int) : SlotNotice K → Option (Event K)
  | ⟨validator, .squelch id duration⟩ => some (.squelched validator id now duration)
  | ⟨validator, .unsquelch id⟩ => some (.unsquelched validator id)
  | ⟨_, .ignored _⟩ => none

/-- After the events, the latest first, a squelch of the peer has been announced for a duration that has not passed, no
unsquelch followed, and the peer was not deleted since. -/
def HeldSilent (now : Int) (validator : K) (id : PeerId) : List (Event K) → Prop
  | [] => False
  | .squelched v p since duration :: older =>
    (v = validator ∧ p = id ∧ now ≤ since + duration) ∨ HeldSilent now validator id older
  | .unsquelched v p :: older => ¬ (v = validator ∧ p = id) ∧ HeldSilent now validator id older
  | .deleted p :: older => p ≠ id ∧ HeldSilent now validator id older

instance decidableHeldSilent [DecidableEq K] (now : Int) (validator : K) (id : PeerId) :
    (trace : List (Event K)) → Decidable (HeldSilent now validator id trace)
  | [] => inferInstanceAs (Decidable False)
  | .squelched _ _ _ _ :: older =>
    have := decidableHeldSilent now validator id older
    inferInstanceAs (Decidable (_ ∨ _))
  | .unsquelched _ _ :: older =>
    have := decidableHeldSilent now validator id older
    inferInstanceAs (Decidable (_ ∧ _))
  | .deleted _ :: older =>
    have := decidableHeldSilent now validator id older
    inferInstanceAs (Decidable (_ ∧ _))

/-- A silent peer was told so by the latest events, or it was silent before and they say nothing to it. -/
private lemma HeldSilent.of_append {now : Int} {validator : K} {id : PeerId} {events older : List (Event K)}
    (h : HeldSilent now validator id (events ++ older)) :
    (∃ since duration, .squelched validator id since duration ∈ events ∧ now ≤ since + duration) ∨
      (HeldSilent now validator id older ∧ .unsquelched validator id ∉ events ∧ .deleted id ∉ events) := by
  induction events with
  | nil => exact .inr ⟨h, not_mem_nil, not_mem_nil⟩
  | cons e events ih =>
    cases e with
    | squelched v p since duration =>
      rcases h with ⟨rfl, rfl, hn⟩ | h
      · exact .inl ⟨since, duration, mem_cons_self, hn⟩
      · rcases ih h with ⟨s, d, hmem, hn⟩ | ⟨hold, hun, hd⟩
        · exact .inl ⟨s, d, mem_cons_of_mem _ hmem, hn⟩
        · exact .inr ⟨hold, by simpa using hun, by simpa using hd⟩
    | unsquelched v p =>
      obtain ⟨hne, h⟩ := h
      rcases ih h with ⟨s, d, hmem, hn⟩ | ⟨hold, hun, hd⟩
      · exact .inl ⟨s, d, mem_cons_of_mem _ hmem, hn⟩
      · refine .inr ⟨hold, ?_, by simpa using hd⟩
        rw [mem_cons, not_or]
        exact ⟨fun heq => hne (by cases heq; exact ⟨rfl, rfl⟩), hun⟩
    | deleted p =>
      obtain ⟨hne, h⟩ := h
      rcases ih h with ⟨s, d, hmem, hn⟩ | ⟨hold, hun, hd⟩
      · exact .inl ⟨s, d, mem_cons_of_mem _ hmem, hn⟩
      · refine .inr ⟨hold, by simpa using hun, ?_⟩
        rw [mem_cons, not_or]
        exact ⟨fun heq => hne (by cases heq; rfl), hd⟩

/-! ### A slot accounts for the silence of its peers -/

namespace Slot

/-- The peer is squelched until `t` or later, and that is before the slot can be dropped. -/
def Silent (slot : Slot) (id : PeerId) (t : Int) : Prop :=
  ∃ peer, slot.peers.lookup id = some peer ∧ peer.state = .squelched ∧ t ≤ peer.expire ∧
    peer.expire ≤ slot.lastSelected + kMaxUnsquelchExpireDefault

/-- What is kept of a slot besides the silence of its peers. -/
structure Sound (slot : Slot) (clock : Int) : Prop where
  pooled : slot.Pooled
  sourced : slot.Sourced
  lastSelected : slot.lastSelected ≤ clock

variable {slot : Slot} {now : Int} {id : PeerId} {r : Slot × List Notice}

private lemma Sound.mono {clock clock' : Int} (h : slot.Sound clock) (hle : clock ≤ clock') : slot.Sound clock' :=
  ⟨h.pooled, h.sourced, h.lastSelected.trans hle⟩

private lemma Updated.sound (hu : Updated slot now id r) (h : slot.Sound now) : r.1.Sound now := by
  have hsrc := hu.sourced h.sourced
  cases hu with
  | joined _ | expired _ _ _ _ | restarted _ _ _ => exact ⟨(tallied_initCounting _).toPooled, hsrc, h.lastSelected⟩
  | noted peer hp _ _ => exact ⟨h.pooled.put hp rfl rfl, hsrc, h.lastSelected⟩
  | counted peer hp hs _ => exact ⟨h.pooled.heard hp hs, hsrc, h.lastSelected⟩
  | settled _ _ _ _ _ _ _ _ => exact ⟨(tallied_settle _ _ _ _).toPooled, hsrc, le_refl now⟩

private lemma Updated.silent (hu : Updated slot now id r)
    (h : slot.Sound now) {p : PeerId} {t : Int} (hnow : now ≤ t) (hp : slot.Silent p t) : r.1.Silent p t := by
  obtain ⟨q, hq, hs, ht, hl⟩ := hp
  cases hu with
  | joined hn =>
    have hne : p ≠ id := by
      rintro rfl
      rw [hn] at hq
      cases hq
    refine ⟨{ q with count := 0 }, ?_, hs, ht, hl⟩
    rw [lookup_initCounting, lookup_put, if_neg hne, hq]
    rfl
  | expired peer hpe _ he =>
    have hne : p ≠ id := by
      rintro rfl
      obtain rfl := some.inj (hpe.symm.trans hq)
      omega
    refine ⟨{ q with count := 0 }, ?_, hs, ht, hl⟩
    rw [lookup_initCounting, lookup_put, if_neg hne, hq]
    rfl
  | noted peer hpe _ _ =>
    by_cases hne : p = id
    · subst hne
      obtain rfl := some.inj (hpe.symm.trans hq)
      exact ⟨_, (lookup_put ..).trans (if_pos rfl), hs, ht, hl⟩
    · exact ⟨q, by rw [lookup_put, if_neg hne, hq], hs, ht, hl⟩
  | counted peer hpe hc _ =>
    have hne : p ≠ id := by
      rintro rfl
      obtain rfl := some.inj (hpe.symm.trans hq)
      exact hc hs
    exact ⟨q, by rw [lookup_heard, if_neg hne, hq], hs, ht, hl⟩
  | restarted peer hpe hc =>
    have hne : p ≠ id := by
      rintro rfl
      obtain rfl := some.inj (hpe.symm.trans hq)
      exact hc hs
    refine ⟨{ q with count := 0 }, ?_, hs, ht, hl⟩
    rw [lookup_initCounting, lookup_heard, if_neg hne, hq]
    rfl
  | settled peer hpe hc selected draw _ hmem _ =>
    have hpo : (slot.heard now id peer).Pooled := h.pooled.heard hpe hc
    have hne : p ≠ id := by
      rintro rfl
      obtain rfl := some.inj (hpe.symm.trans hq)
      exact hc hs
    have hh : (slot.heard now id peer).peers.lookup p = some q := by rw [lookup_heard, if_neg hne, hq]
    -- no message of a squelched peer is counted, so that it is not in the pool
    have ho : p ∉ selected := by
      intro hin
      obtain ⟨q', hq', hcnt⟩ := (hpo.considered p).1 (hmem p hin).2
      rw [hpo.squelched p q' hq' (by rw [← some.inj (hh.symm.trans hq')]; exact hs)] at hcnt
      exact absurd hcnt (Nat.not_lt_zero _)
    refine ⟨{ q with count := 0 }, ?_, hs, ht, ?_⟩
    · rw [lookup_settle, hh]
      simp [settlePeer, ho, hs]
    · exact hl.trans (Int.add_le_add_right h.lastSelected _)

private lemma getSquelchDuration_le {n : Nat} (h : kSquelchPerPeer * n ≤ kMaxUnsquelchExpireDefault) (draw : Nat) :
    getSquelchDuration n draw ≤ kMaxUnsquelchExpireDefault := by
  unfold getSquelchDuration
  rw [max_eq_left h]
  show 300 + (draw : Int) % 301 ≤ 600
  omega

private lemma length_put {peers : HashMap PeerId PeerInfo} {peer peer' : PeerInfo} (h : peers.lookup id = some peer) :
    (peers.insert id peer').entries.length = peers.entries.length := by
  have hk : ∀ peers : HashMap PeerId PeerInfo, peers.entries.length = peers.keys.length := fun _ => (length_map _).symm
  have hid : id ∈ peers.keys := lookup_isSome.1 (by rw [h]; rfl)
  rw [hk, hk, keys_insert, length_cons, length_erase_of_mem hid, Nat.sub_add_cancel (length_pos_of_mem hid)]

private lemma npeers_heard {peer : PeerInfo} (h : slot.peers.lookup id = some peer) (now : Int) :
    (slot.heard now id peer).npeers = slot.npeers := by
  unfold npeers
  exact congrArg (· - _) ((length_put (lookup_insert _)).trans (length_put h))

private lemma Updated.told (hu : Updated slot now id r) {p : PeerId} {duration t : Int} (hp : .squelch p duration ∈ r.2)
    (hb : kSquelchPerPeer * slot.npeers ≤ kMaxUnsquelchExpireDefault) (ht : t ≤ now + duration) : r.1.Silent p t := by
  cases hu with
  | joined _ => cases hp
  | expired _ _ _ _ => cases hp
  | noted _ _ _ hn => cases hn _ hp
  | counted _ _ _ _ => cases hp
  | restarted _ _ _ => cases hp
  | settled peer hpe _ selected draw _ _ _ =>
    rw [← npeers_heard hpe now] at hb
    have hd := getSquelchDuration_le hb
    simp only [squelchNotices, List.mem_map, List.mem_filter, decide_eq_true_eq] at hp
    obtain ⟨e, ⟨he, ho, hs⟩, rfl, rfl⟩ := hp
    refine ⟨settlePeer now selected (slot.heard now id peer).npeers draw e.1 e.2, ?_, ?_, ?_, ?_⟩
    · rw [lookup_settle, lookup_of_mem_entries he]
      rfl
    · simp [settlePeer, ho, hs]
    · simpa [settlePeer, ho, hs] using ht
    · simpa [settlePeer, ho, hs, settle] using hd (draw e.1)

/-- What the loss of peers does to the silence of the `kept` ones. -/
structure Loses (slot : Slot) (kept : PeerId → Prop) (r : Slot × List Notice) : Prop where
  sound : ∀ clock, slot.Sound clock → r.1.Sound clock
  silent : ∀ p t, kept p → .unsquelch p ∉ r.2 → slot.Silent p t → r.1.Silent p t
  quiet : ∀ p duration, .squelch p duration ∉ r.2
  maxSelectedPeers : r.1.maxSelectedPeers = slot.maxSelectedPeers

private lemma lastSelected_leavePool (slot : Slot) (id : PeerId) (peer : PeerInfo) :
    (leavePool slot id peer).lastSelected = slot.lastSelected := by
  unfold leavePool
  split <;> rfl

private lemma Dropped.loses {erase : Bool}
    (hd : Dropped slot now id erase r) : slot.Loses (fun p => erase = true → p ≠ id) r := by
  have hmax := hd.maxSelectedPeers_eq
  have hsrc : slot.Sourced → r.1.Sourced := hd.sourced
  cases hd with
  | absent _ => exact ⟨fun _ h => h, fun _ _ _ _ h => h, fun _ _ => not_mem_nil, hmax⟩
  | source peer hpe hs =>
    refine ⟨fun clock h => ⟨?_, hsrc h.sourced, h.lastSelected⟩, fun p t _ hun hp => ?_, by simp, hmax⟩
    · exact (tallied_release_resetSelection slot now id peer erase).toPooled
    -- every squelched peer is told
    obtain ⟨q, hq, hsq, -⟩ := hp
    refine absurd (List.mem_map_of_mem ?_) hun
    exact List.mem_map.2 ⟨⟨p, q⟩, List.mem_filter.2 ⟨mem_lookup_iff.1 hq, decide_eq_true hsq⟩, rfl⟩
  | other peer hpe hs =>
    refine ⟨fun clock h => ⟨h.pooled.release hpe, hsrc h.sourced, ?_⟩, ?_, by simp, hmax⟩
    · exact (lastSelected_leavePool slot id peer).trans_le h.lastSelected
    rintro p t hk - ⟨q, hq, hsq, ht, hl⟩
    rw [← lastSelected_leavePool slot id peer] at hl
    by_cases hne : p = id
    · subst hne
      obtain rfl := some.inj (hpe.symm.trans hq)
      have he : erase = false := by
        cases erase with
        | false => rfl
        | true => exact absurd rfl (hk rfl)
      refine ⟨{ peer with lastMessage := now, count := 0 }, ?_, hsq, ht, hl⟩
      simp [lookup_release, he]
    · exact ⟨q, by rw [lookup_release, peers_leavePool, if_neg hne, hq], hsq, ht, hl⟩

private lemma deleteIdlePeer_loses (slot : Slot) (now : Int) : slot.Loses (fun _ => True)
    (slot.deleteIdlePeer now) := by
  refine deleteIdlePeer_rec (P := fun s notices => slot.Loses (fun _ => True) (s, notices)) ?_ ?_
  · exact ⟨fun _ h => h, fun _ _ _ _ h => h, fun _ _ => not_mem_nil, rfl⟩
  intro s notices id r hs hdr
  have hd := hdr.loses
  refine ⟨fun clock h => hd.sound clock (hs.sound clock h), fun p t _ hun hp => ?_, fun p duration hp => ?_,
    hd.maxSelectedPeers.trans hs.maxSelectedPeers⟩
  · rw [mem_append, not_or] at hun
    exact hd.silent p t (fun hf => by cases hf) hun.2 (hs.silent p t trivial hun.1 hp)
  · rcases mem_append.1 hp with hp | hp
    · exact hs.quiet p duration hp
    · exact hd.quiet p duration hp

end Slot

/-! ### The slots of all validators -/

variable [DecidableEq K]

/-- A call on the slots, with the numbers that are drawn in it. -/
inductive Call (K : Type) where
  | message (now : Int) (key : Uint256) (validator : K) (id : PeerId) (choices : List Nat) (draw : PeerId → Nat)
  | deletePeer (now : Int) (id : PeerId)
  | deleteIdlePeers (now : Int)

def Call.time : Call K → Int
  | .message now .. => now
  | .deletePeer now _ => now
  | .deleteIdlePeers now => now

/-- The slots and what the peers have been told, the latest first. -/
structure Relay (K : Type) where
  slots : Slots K
  trace : List (Event K)

namespace Relay

def record (relay : Relay K) (now : Int) (r : Slots K × List (SlotNotice K)) : Relay K :=
  ⟨r.1, (r.2.filterMap (eventOf now)).reverse ++ relay.trace⟩

def call (relay : Relay K) : Call K → Relay K
  | .message now key validator id choices draw =>
    relay.record now (relay.slots.updateSlotAndSquelch now key validator id choices draw)
  | .deletePeer now id =>
    let relay := relay.record now (relay.slots.deletePeer now id true)
    { relay with trace := .deleted id :: relay.trace }
  | .deleteIdlePeers now => relay.record now (relay.slots.deleteIdlePeers now)

def run (maxSelectedPeers : UInt16) (calls : List (Call K)) : Relay K :=
  calls.foldl call ⟨Slots.new maxSelectedPeers, []⟩

/-- The slot that the message is for has so few peers that none can be squelched for longer than a slot lives without a
selection. -/
def Brief (relay : Relay K) : Call K → Prop
  | .message _ _ validator .. => ∀ slot ∈ relay.slots.slots.lookup validator,
    kSquelchPerPeer * slot.npeers ≤ kMaxUnsquelchExpireDefault
  | _ => True

instance (relay : Relay K) (c : Call K) : Decidable (relay.Brief c) :=
  match c with
  | .message .. => inferInstanceAs (Decidable (∀ slot ∈ _, _))
  | .deletePeer .. => inferInstanceAs (Decidable True)
  | .deleteIdlePeers _ => inferInstanceAs (Decidable True)

/-- Every slot is sound, and accounts for the peers that are silent at the time `clock` or later. -/
structure Guarded (relay : Relay K) (clock : Int) : Prop where
  sound : ∀ v slot, relay.slots.slots.lookup v = some slot →
    slot.Sound clock ∧ slot.maxSelectedPeers = relay.slots.maxSelectedPeers
  silent : ∀ v p t, clock ≤ t → HeldSilent t v p relay.trace →
    ∃ slot, relay.slots.slots.lookup v = some slot ∧ slot.Silent p t

variable {relay : Relay K} {now : Int} {e : Event K}

private lemma Guarded.mono {clock clock' : Int} (h : relay.Guarded clock) (hle : clock ≤ clock') :
    relay.Guarded clock' where
  sound v slot hs := ⟨(h.sound v slot hs).1.mono hle, (h.sound v slot hs).2⟩
  silent v p t ht := h.silent v p t (hle.trans ht)

omit [DecidableEq K] in
private lemma mem_events {notices : List (SlotNotice K)} :
    e ∈ (notices.filterMap (eventOf now)).reverse ↔ ∃ n ∈ notices, eventOf now n = some e := by
  rw [mem_reverse, mem_filterMap]

omit [DecidableEq K] in
private lemma eventOf_eq_squelched {since duration : Int} {n : SlotNotice K} {v : K} {p : PeerId}
    (h : eventOf now n = some (.squelched v p since duration)) : n = ⟨v, .squelch p duration⟩ ∧ since = now := by
  obtain ⟨v', n⟩ := n
  cases n with
  | squelch id d =>
    cases h
    exact ⟨rfl, rfl⟩
  | unsquelch id => cases h
  | ignored id => cases h

private lemma updateSlotAndSquelch_cases (s : Slots K) (now : Int) (key : Uint256) (validator : K) (id : PeerId)
    (choices : List Nat) (draw : PeerId → Nat) :
    ∃ seen, s.updateSlotAndSquelch now key validator id choices draw = ({ s with peersWithMessage := seen }, []) ∨
      ∃ r, Slot.Updated ((s.slots.lookup validator).getD (new now s.maxSelectedPeers)) now id r ∧
        s.updateSlotAndSquelch now key validator id choices draw =
          ({ s with slots := s.slots.insert validator r.1, peersWithMessage := seen }, Slots.about validator r.2) := by
  have ha : ∃ added seen, s.addPeerMessage now key id = (added, { s with peersWithMessage := seen }) := by
    unfold Slots.addPeerMessage
    dsimp only
    split
    · split
      · exact ⟨_, _, rfl⟩
      · split
        · exact ⟨_, _, rfl⟩
        · exact ⟨_, _, rfl⟩
    · exact ⟨_, _, rfl⟩
  obtain ⟨added, seen, ha⟩ := ha
  refine ⟨seen, ?_⟩
  unfold Slots.updateSlotAndSquelch
  rw [ha]
  cases added with
  | false => exact .inl rfl
  | true => exact .inr ⟨_, update_updated _ now id choices draw, rfl⟩

section

variable (h : relay.Guarded now)

include h

private lemma Guarded.message (key : Uint256) (validator : K) (id : PeerId) (choices : List Nat) (draw : PeerId → Nat)
    (hb : relay.Brief (.message now key validator id choices draw)) :
    (relay.call (.message now key validator id choices draw)).Guarded now := by
  obtain ⟨seen, hs | ⟨r, hu, hr⟩⟩ := updateSlotAndSquelch_cases relay.slots now key validator id choices draw
  · rw [call, hs]
    exact ⟨h.sound, h.silent⟩
  rw [call, hr]
  have hsnd : ((relay.slots.slots.lookup validator).getD (new now relay.slots.maxSelectedPeers)).Sound now ∧
      ((relay.slots.slots.lookup validator).getD (new now relay.slots.maxSelectedPeers)).maxSelectedPeers =
        relay.slots.maxSelectedPeers := by
    cases hsl : relay.slots.slots.lookup validator with
    | none =>
      refine ⟨⟨(Tallied.of_zero rfl rfl fun id peer hpe => by cases hpe).toPooled, ?_, le_refl now⟩, rfl⟩
      rintro ⟨id, peer, hpe, -⟩
      cases hpe
    | some slot => exact h.sound validator slot hsl
  have hbr : kSquelchPerPeer *
      ((relay.slots.slots.lookup validator).getD (new now relay.slots.maxSelectedPeers)).npeers ≤
        kMaxUnsquelchExpireDefault := by
    cases hsl : relay.slots.slots.lookup validator with
    | none =>
      have h0 : (new now relay.slots.maxSelectedPeers).npeers = 0 := Nat.zero_sub _
      rw [getD_none, h0]
      decide
    | some slot => exact hb slot hsl
  refine ⟨fun v slot hsl => ?_, fun v p t ht hp => ?_⟩
  · rcases of_lookup_insert hsl with ⟨rfl, rfl⟩ | ⟨-, hsl⟩
    · exact ⟨hu.sound hsnd.1, hu.maxSelectedPeers_eq.trans hsnd.2⟩
    · exact h.sound v slot hsl
  rcases hp.of_append with ⟨since, duration, hmem, hl⟩ | ⟨hold, -, -⟩
  · obtain ⟨n, hn, he⟩ := mem_events.1 hmem
    obtain ⟨rfl, rfl⟩ := eventOf_eq_squelched he
    obtain ⟨n, hn, heq⟩ := mem_map.1 hn
    cases heq
    exact ⟨r.1, lookup_insert _, hu.told hn hbr hl⟩
  · obtain ⟨slot, hsl, hsil⟩ := h.silent v p t ht hold
    by_cases hv : v = validator
    · subst hv
      rw [hsl] at hu hsnd
      exact ⟨r.1, lookup_insert _, hu.silent hsnd.1 ht hsil⟩
    · exact ⟨slot, (lookup_insert_ne hv).trans hsl, hsil⟩

/-- A peer that is silent after peers were lost in every slot was silent before, and its slot accounts for it. -/
private lemma Guarded.silent_of_loses {f : Slot → Slot × List Notice}
    {kept : PeerId → Prop} (hf : ∀ slot : Slot, slot.Loses kept (f slot)) {v : K} {p : PeerId} {t : Int} (ht : now ≤ t)
    (hk : kept p)
    (hp : HeldSilent t v p (((relay.slots.slots.entries.flatMap fun e => Slots.about e.1 (f e.2).2).filterMap
      (eventOf now)).reverse ++ relay.trace)) :
    ∃ slot, relay.slots.slots.lookup v = some slot ∧ (f slot).1.Silent p t := by
  rcases hp.of_append with ⟨since, duration, hmem, -⟩ | ⟨hold, hun, -⟩
  · obtain ⟨n, hn, he⟩ := mem_events.1 hmem
    obtain ⟨rfl, rfl⟩ := eventOf_eq_squelched he
    obtain ⟨e, -, hn⟩ := mem_flatMap.1 hn
    obtain ⟨n, hn, heq⟩ := mem_map.1 hn
    cases heq
    exact absurd hn ((hf e.2).quiet p duration)
  · obtain ⟨slot, hs, hsil⟩ := h.silent v p t ht hold
    refine ⟨slot, hs, (hf slot).silent p t hk (fun hmem => hun ?_) hsil⟩
    refine mem_events.2 ⟨⟨v, .unsquelch p⟩, mem_flatMap.2 ⟨⟨v, slot⟩, mem_lookup_iff.1 hs, ?_⟩, rfl⟩
    exact mem_map_of_mem hmem

private lemma Guarded.deletePeer (id : PeerId) : (relay.call (.deletePeer now id)).Guarded now := by
  have hl := fun slot : Slot => (deletePeer_dropped slot now id true).loses
  refine ⟨fun v slot hs => ?_, fun v p t ht hp => ?_⟩
  · obtain ⟨slot', hs', rfl⟩ := map_eq_some_iff.1 ((lookup_mapVal _ _ v).symm.trans hs)
    obtain ⟨hsnd, hmax⟩ := h.sound v slot' hs'
    exact ⟨(hl slot').sound now hsnd, (hl slot').maxSelectedPeers.trans hmax⟩
  · obtain ⟨hne, hp⟩ := hp
    obtain ⟨slot, hs, hsil⟩ := h.silent_of_loses hl ht (fun _ => Ne.symm hne) hp
    exact ⟨_, (lookup_mapVal _ _ v).trans (congrArg _ hs), hsil⟩

private lemma Guarded.deleteIdlePeers : (relay.call (.deleteIdlePeers now)).Guarded now := by
  have hlos := fun slot : Slot => slot.deleteIdlePeer_loses now
  have hlk : ∀ v, (relay.call (.deleteIdlePeers now)).slots.slots.lookup v =
      ((relay.slots.slots.lookup v).map fun slot => (slot.deleteIdlePeer now).1).filter
        fun slot => ¬ now - slot.lastSelected > kMaxUnsquelchExpireDefault := by
    intro v
    exact (lookup_filterVal _ _ v).trans (by rw [lookup_mapVal])
  refine ⟨fun v slot hs => ?_, fun v p t ht hp => ?_⟩
  · rw [hlk, filter_eq_some_iff] at hs
    obtain ⟨slot', hs', rfl⟩ := map_eq_some_iff.1 hs.1
    obtain ⟨hsnd, hmax⟩ := h.sound v slot' hs'
    exact ⟨(hlos slot').sound now hsnd, (hlos slot').maxSelectedPeers.trans hmax⟩
  · obtain ⟨slot, hs, hsil⟩ := h.silent_of_loses hlos ht trivial hp
    refine ⟨(slot.deleteIdlePeer now).1, ?_, hsil⟩
    rw [hlk, hs, filter_eq_some_iff]
    refine ⟨rfl, ?_⟩
    obtain ⟨q, -, -, he, hl⟩ := hsil
    simp only [decide_eq_true_eq]
    omega

end

private lemma Guarded.call {c : Call K} (h : relay.Guarded c.time) (hb : relay.Brief c) :
    (relay.call c).Guarded c.time := by
  cases c with
  | message now key validator id choices draw => exact h.message key validator id choices draw hb
  | deletePeer now id => exact h.deletePeer id
  | deleteIdlePeers now => exact h.deleteIdlePeers

/-! ### Whole runs -/

private lemma maxSelectedPeers_call (relay : Relay K) (c : Call K) :
    (relay.call c).slots.maxSelectedPeers = relay.slots.maxSelectedPeers := by
  cases c with
  | message now key validator id choices draw =>
    obtain ⟨seen, hs | ⟨r, -, hr⟩⟩ := updateSlotAndSquelch_cases relay.slots now key validator id choices draw
    · rw [call, hs]
      rfl
    · rw [call, hr]
      rfl
  | deletePeer now id => rfl
  | deleteIdlePeers now => rfl

private lemma guarded_run {maxSelectedPeers : UInt16} {calls : List (Call K)}
    (ho : calls.Pairwise fun a b => a.time ≤ b.time) (hn : ∀ c ∈ calls, c.time ≤ now)
    (hb : Throughout call Brief ⟨Slots.new maxSelectedPeers, []⟩ calls) :
    (run maxSelectedPeers calls).Guarded now ∧
      (run maxSelectedPeers calls).slots.maxSelectedPeers = maxSelectedPeers := by
  induction calls using reverseRecOn generalizing now with
  | nil => exact ⟨⟨fun v slot hs => (nomatch hs), fun v p t _ hp => hp.elim⟩, rfl⟩
  | append_singleton calls c ih =>
    obtain ⟨ho, -, hl⟩ := pairwise_append.1 ho
    have hr : run maxSelectedPeers (calls ++ [c]) = (run maxSelectedPeers calls).call c := foldl_concat ..
    rw [hr]
    obtain ⟨hb, hc, -⟩ := hb.of_append
    obtain ⟨hg, hmax⟩ := ih ho (fun c' hc' => hl c' hc' c mem_cons_self) hb
    exact ⟨(hg.call hc).mono (hn c (by simp)), (maxSelectedPeers_call _ c).trans hmax⟩

/-- While no message comes to a slot with more than 60 peers besides the selected ones, a validator for which a peer is
held silent has a slot with all its sources, and none of them is silent. -/
theorem run_never_silenced (maxSelectedPeers : UInt16) (calls : List (Call K)) (now : Int)
    (hordered : calls.Pairwise fun a b => a.time ≤ b.time) (hnow : ∀ c ∈ calls, c.time ≤ now)
    (hbrief : Throughout call Brief ⟨Slots.new maxSelectedPeers, []⟩ calls) (v : K) (p : PeerId)
    (hp : HeldSilent now v p (run maxSelectedPeers calls).trace) :
    ∃ slot, (run maxSelectedPeers calls).slots.slots.lookup v = some slot ∧
      slot.getSelected.length = maxSelectedPeers.toNat ∧
      ∀ q ∈ slot.getSelected, ¬ HeldSilent now v q (run maxSelectedPeers calls).trace := by
  obtain ⟨hg, hmax⟩ := guarded_run hordered hnow hbrief
  obtain ⟨slot, hsl, peer, hpe, hs, -, -⟩ := hg.silent v p now (le_refl now) hp
  obtain ⟨hsnd, hsa⟩ := hg.sound v slot hsl
  refine ⟨slot, hsl, ?_, fun q hq hh => ?_⟩
  · rw [hsnd.sourced ⟨p, peer, hpe, hs⟩, hsa, hmax]
  obtain ⟨slot', hsl', peer', hpe', hs', -, -⟩ := hg.silent v q now (le_refl now) hh
  obtain rfl := some.inj (hsl.symm.trans hsl')
  have hsel := (hasState_of_lookup hpe').1 (mem_getSelected.1 hq)
  rw [hs'] at hsel
  cases hsel

/-- Messages of the validator 0 from the given peers at one time, numbered from `first`. -/
def messages (now : Int) (first : Nat) (draw : PeerId → Nat) (ids : List PeerId) : List (Call Nat) :=
  ids.zipIdx.map fun e => .message now (BitVec.ofNat 256 (first + e.2)) 0 e.1 [0, 0, 0, 0, 0] draw

/-- Of two peers one is selected, and the other one is squelched for 300 seconds. -/
def shortSilence : List (Call Nat) := messages 5 1 (fun _ => 0) (1 :: 2 :: replicate 21 1)

theorem run_never_silenced_short : HeldSilent 305 0 2 (run 1 shortSilence).trace ∧
    ∃ slot, (run 1 shortSilence).slots.slots.lookup 0 = some slot ∧ slot.getSelected.length = (1 : UInt16).toNat ∧
      ∀ q ∈ slot.getSelected, ¬ HeldSilent 305 0 q (run 1 shortSilence).trace :=
  ⟨by decide +kernel, run_never_silenced 1 shortSilence 305 (by decide +kernel) (by decide +kernel) (by decide +kernel)
    0 2 (by decide +kernel)⟩

/-- Of 66 peers five are selected and keep sending; the other ones are squelched for 610 seconds.  The slot is dropped
after 601 seconds. -/
def longSilence : List (Call Nat) :=
  messages 0 1 (fun _ => 310) (range 66 ++ (range 5).flatMap (replicate 21)) ++
    messages 600 1000 (fun _ => 0) (range 5) ++ [.deleteIdlePeers 601]

/-- The peer 5 is held silent for a validator that has no slot any more. -/
theorem run_silenced : (longSilence.Pairwise fun a b => a.time ≤ b.time) ∧ (∀ c ∈ longSilence, c.time ≤ 601) ∧
    HeldSilent 601 0 5 (run 5 longSilence).trace ∧ ((run 5 longSilence).slots.slots.lookup 0).isNone := by
  decide +kernel

end Relay

end Xrpl.ReduceRelay

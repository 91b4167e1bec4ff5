import Xrpl.Overlay.Slot

/-!
# Counting and selection

A slot keeps its pool of considered peers and the number of peers over the threshold beside the message counts of the
peers, and changes the three at different places.  They agree after every call, whatever is drawn at random, and a peer
is squelched only while enough other peers are selected.

* `Updated`, `Dropped`: what a message and the loss of a peer can do to a slot;
* `Tallied`, `Sourced`: the pool and the counter agree with the counts; squelched peers have sources in their place;
* `run_balanced`: both hold after every run.
-/

namespace Xrpl.ReduceRelay.Slot

open List Option AList HashMap

def put (slot : Slot) (id : PeerId) (peer : PeerInfo) : Slot := { slot with peers := slot.peers.insert id peer }

def HasState (slot : Slot) (state : PeerState) (id : PeerId) : Prop :=
  ∃ peer, slot.peers.lookup id = some peer ∧ peer.state = state

def heard (slot : Slot) (now : Int) (id : PeerId) (peer : PeerInfo) : Slot :=
  countMessage (slot.put id { peer with lastMessage := now }) id { peer with lastMessage := now }

/-! ### What a call can do -/

/-- What a message does to a slot, with the notices it gives rise to. -/
inductive Updated (slot : Slot) (now : Int) (id : PeerId) : Slot × List Notice → Prop
  | joined (h : slot.peers.lookup id = none) :
    Updated slot now id (initCounting (slot.put id ⟨.counting, 0, now, now⟩), [])
  | expired (peer : PeerInfo) (h : slot.peers.lookup id = some peer) (hs : peer.state = .squelched)
    (ht : peer.expire < now) :
    Updated slot now id (initCounting (slot.put id { peer with state := .counting, lastMessage := now }), [])
  | noted (peer : PeerInfo) (h : slot.peers.lookup id = some peer) (notices : List Notice)
    (hn : ∀ n ∈ notices, n = .ignored id) : Updated slot now id (slot.put id { peer with lastMessage := now }, notices)
  | counted (peer : PeerInfo) (h : slot.peers.lookup id = some peer) (hs : peer.state ≠ .squelched)
    (hr : (slot.heard now id peer).reachedThreshold ≠ slot.maxSelectedPeers) :
    Updated slot now id (slot.heard now id peer, [])
  | restarted (peer : PeerInfo) (h : slot.peers.lookup id = some peer) (hs : peer.state ≠ .squelched) :
    Updated slot now id (initCounting (slot.heard now id peer), [])
  | settled (peer : PeerInfo) (h : slot.peers.lookup id = some peer) (hs : peer.state ≠ .squelched)
    (selected : List PeerId) (draw : PeerId → Nat) (hnodup : selected.Nodup)
    (hmem : ∀ k ∈ selected, k ∈ (slot.heard now id peer).peers ∧ k ∈ (slot.heard now id peer).considered)
    (hlen : selected.length = slot.maxSelectedPeers.toNat) :
    Updated slot now id (settle (slot.heard now id peer) now selected draw,
      squelchNotices (slot.heard now id peer) selected (slot.heard now id peer).npeers draw)

private lemma randInt_le (max : Nat) (choices : List Nat) : (randInt max choices).1 ≤ max := by
  cases choices with
  | nil => exact Nat.zero_le max
  | cons r _ => exact Nat.le_of_lt_succ (Nat.mod_lt r (Nat.succ_pos max))

private lemma selectLoop_spec (peers : HashMap PeerId PeerInfo) (now : Int) (max : Nat) (pool : List PeerId)
    (turns : Nat) :
    ∀ (considered : List PeerId) (choices : List Nat) (selected : List PeerId), considered ⊆ pool → selected.Nodup →
      (∀ k ∈ selected, k ∈ peers ∧ k ∈ pool) →
      (selectLoop peers now max turns considered choices selected).Nodup ∧
        ∀ k ∈ selectLoop peers now max turns considered choices selected, k ∈ peers ∧ k ∈ pool := by
  induction turns with
  | zero => exact fun _ _ _ _ hn hmem => ⟨hn, hmem⟩
  | succ turns ih =>
    intro considered choices selected hp hn hmem
    rw [selectLoop]
    split
    · rename_i hgo
      -- the index that is drawn is one of the pool
      generalize hi : (if considered.length = 1 then (0, choices) else randInt (considered.length - 1) choices) = draw
      obtain ⟨i, choices'⟩ := draw
      have hpos : 0 < considered.length := length_pos_iff.2 hgo.2
      have hlt : i < considered.length := by
        split at hi
        · cases hi
          exact hpos
        · have hle := randInt_le (considered.length - 1) choices
          rw [hi] at hle
          exact Nat.lt_of_le_pred hpos hle
      have hpi : considered.getD i 0 ∈ pool := by
        rw [getD_eq_getElem?_getD, getElem?_eq_getElem hlt]
        exact hp (getElem_mem hlt)
      have hr : considered.eraseIdx i ⊆ pool := fun k hk => hp (mem_of_mem_eraseIdx hk)
      dsimp only
      split
      · exact ih _ _ _ hr hn hmem
      rename_i peer hpe
      refine ih _ _ _ hr ?_ ?_
      · split
        · exact hn.insert
        · exact hn
      intro k hk
      split at hk
      · rcases mem_insert_iff.1 hk with rfl | hk
        · exact ⟨lookup_isSome.1 (by rw [hpe]; rfl), hpi⟩
        · exact hmem k hk
      · exact hmem k hk
    · exact ⟨hn, hmem⟩

lemma update_updated (slot : Slot) (now : Int) (id : PeerId) (choices : List Nat) (draw : PeerId → Nat) :
    Updated slot now id (slot.update now id choices draw) := by
  unfold update
  split
  · exact .joined ‹_›
  rename_i peer h
  split
  · rename_i he
    exact .expired peer h he.1 he.2
  dsimp only
  split
  · refine .noted peer h _ fun n hn => ?_
    split at hn
    · exact mem_singleton.1 hn
    · exact absurd hn not_mem_nil
  · rename_i hc
    have hs : peer.state ≠ .squelched := fun hs => hc (.inr hs)
    split
    · exact .restarted peer h hs
    split
    · unfold select
      dsimp only
      split
      · exact .restarted peer h hs
      rename_i hlen
      have hsp := selectLoop_spec (slot.heard now id peer).peers now slot.maxSelectedPeers.toNat
        (slot.heard now id peer).considered.keys (slot.heard now id peer).considered.keys.length
        (slot.heard now id peer).considered.keys choices [] (List.Subset.refl _) nodup_nil (by simp)
      exact .settled peer h hs _ draw hsp.1 hsp.2 (not_not.1 hlen)
    · exact .counted peer h hs ‹_›

/-- What the loss of a peer does to a slot. -/
inductive Dropped (slot : Slot) (now : Int) (id : PeerId) (erase : Bool) : Slot × List Notice → Prop
  | absent (h : slot.peers.lookup id = none) : Dropped slot now id erase (slot, [])
  | source (peer : PeerInfo) (h : slot.peers.lookup id = some peer) (hs : peer.state = .selected) :
    Dropped slot now id erase (release (resetSelection slot now) now id (resetPeer now peer) erase,
      slot.squelchedPeers.map .unsquelch)
  | other (peer : PeerInfo) (h : slot.peers.lookup id = some peer) (hs : peer.state ≠ .selected) :
    Dropped slot now id erase (release (leavePool slot id peer) now id peer erase, [])

lemma deletePeer_dropped (slot : Slot) (now : Int) (id : PeerId) (erase : Bool) :
    Dropped slot now id erase (slot.deletePeer now id erase) := by
  unfold deletePeer
  split
  · exact .absent ‹_›
  rename_i peer h
  split
  · exact .source peer h ‹_›
  · exact .other peer h ‹_›

private lemma maxSelectedPeers_leavePool (slot : Slot) (id : PeerId) (peer : PeerInfo) :
    (leavePool slot id peer).maxSelectedPeers = slot.maxSelectedPeers := by
  unfold leavePool
  split <;> rfl

variable {slot : Slot} {now : Int} {id : PeerId} {r : Slot × List Notice} {erase : Bool} {peer : PeerInfo}
  {state : PeerState}

lemma Updated.maxSelectedPeers_eq (hu : Updated slot now id r) : r.1.maxSelectedPeers = slot.maxSelectedPeers := by
  cases hu <;> rfl

lemma Dropped.maxSelectedPeers_eq
    (hd : Dropped slot now id erase r) : r.1.maxSelectedPeers = slot.maxSelectedPeers := by
  cases hd with
  | absent _ => rfl
  | source _ _ _ => rfl
  | other peer _ _ => exact maxSelectedPeers_leavePool slot id peer

/-- What holds at the start and is kept whenever an idling peer is dropped holds after `deleteIdlePeer`. -/
lemma deleteIdlePeer_rec {P : Slot → List Notice → Prop} (hst : P slot [])
    (hs : ∀ s notices id r, P s notices → Dropped s now id false r → P r.1 (notices ++ r.2)) :
    P (slot.deleteIdlePeer now).1 (slot.deleteIdlePeer now).2 := by
  unfold deleteIdlePeer
  generalize slot.peers.keys = ids
  generalize ha : (slot, ([] : List Notice)) = acc
  replace hst : P acc.1 acc.2 := ha ▸ hst
  clear ha
  induction ids generalizing acc with
  | nil => exact hst
  | cons id ids ih =>
    refine ih _ ?_
    rcases hl : acc.1.peers.lookup id with _ | peer
    · simpa [deleteIfIdle, hl] using hst
    · by_cases hi : now - peer.lastMessage > kIdled
      · simpa [deleteIfIdle, hl, hi] using hs _ _ id _ hst (deletePeer_dropped acc.1 now id false)
      · simpa [deleteIfIdle, hl, hi] using hst

section

variable (slot : Slot)

lemma lookup_put (id k : PeerId) (peer : PeerInfo) :
    (slot.put id peer).peers.lookup k = if k = id then some peer else slot.peers.lookup k :=
  HashMap.lookup_put ..

lemma lookup_initCounting (k : PeerId) :
    (initCounting slot).peers.lookup k = (slot.peers.lookup k).map fun peer => { peer with count := 0 } :=
  lookup_mapVal _ _ k

lemma lookup_heard (now : Int) (id k : PeerId) (peer : PeerInfo) : (slot.heard now id peer).peers.lookup k =
      if k = id then some { peer with lastMessage := now, count := peer.count + 1 } else slot.peers.lookup k := by
  show lookup k (insert id _ (insert id _ slot.peers)) = _
  rw [HashMap.lookup_put, HashMap.lookup_put]
  split <;> rfl

lemma lookup_settle (now : Int) (selected : List PeerId) (draw : PeerId → Nat) (k : PeerId) :
    (settle slot now selected draw).peers.lookup k =
      (slot.peers.lookup k).map (settlePeer now selected slot.npeers draw k) :=
  lookup_mapVal _ _ k

private lemma lookup_resetSelection (now : Int) (k : PeerId) :
    (resetSelection slot now).peers.lookup k = (slot.peers.lookup k).map (resetPeer now) :=
  lookup_mapVal _ _ k

lemma lookup_release (now : Int) (id k : PeerId) (peer : PeerInfo) (erase : Bool) :
    (release slot now id peer erase).peers.lookup k =
      if k = id then (if erase then none else some { peer with lastMessage := now, count := 0 })
      else slot.peers.lookup k := by
  unfold release
  cases erase <;> by_cases hk : k = id
  · subst hk
    simp
  · simp [hk]
  · subst hk
    simp
  · simp [hk]

lemma peers_leavePool (id : PeerId) (peer : PeerInfo) : (leavePool slot id peer).peers = slot.peers := by
  unfold leavePool
  split <;> rfl

end

/-! ### The pool and the counter -/

/-- The pool agrees with the message counts, and no message of a squelched peer is counted. -/
structure Pooled (slot : Slot) : Prop where
  considered : ∀ id, id ∈ slot.considered ↔
    ∃ peer, slot.peers.lookup id = some peer ∧ kMinMessageThreshold < peer.count
  squelched : ∀ id peer, slot.peers.lookup id = some peer → peer.state = .squelched → peer.count = 0

/-- The number of peers over the threshold agrees with the message counts as well. -/
structure Tallied (slot : Slot) : Prop extends Pooled slot where
  reached : slot.reachedThreshold.toNat = slot.peers.count fun _ peer => kMaxMessageThreshold < peer.count

lemma Tallied.of_zero (hc : slot.considered = ∅) (hr : slot.reachedThreshold = 0)
    (hz : ∀ id peer, slot.peers.lookup id = some peer → peer.count = 0) : slot.Tallied where
  considered id := by
    rw [hc]
    refine ⟨fun h => absurd h (notMem_empty id), ?_⟩
    rintro ⟨peer, hp, hcnt⟩
    rw [hz id peer hp] at hcnt
    exact absurd hcnt (Nat.not_lt_zero _)
  reached := by
    rw [hr, HashMap.count_eq_zero]
    · rfl
    · intro id peer hp
      simp [hz id peer hp]
  squelched id peer hp _ := hz id peer hp

lemma tallied_initCounting (slot : Slot) : (initCounting slot).Tallied := by
  refine .of_zero rfl rfl fun id peer h => ?_
  rw [lookup_initCounting] at h
  obtain ⟨peer', -, rfl⟩ := map_eq_some_iff.1 h
  rfl

lemma tallied_settle (slot : Slot) (now : Int) (selected : List PeerId) (draw : PeerId → Nat) :
    (settle slot now selected draw).Tallied := by
  refine .of_zero rfl rfl fun id peer h => ?_
  rw [lookup_settle] at h
  obtain ⟨peer', -, rfl⟩ := map_eq_some_iff.1 h
  unfold settlePeer
  split
  · rfl
  · split <;> rfl

variable {peer' : PeerInfo} {selected : List PeerId} {draw : PeerId → Nat}

lemma Pooled.put (h : slot.Pooled)
    (hp : slot.peers.lookup id = some peer) (hc : peer'.count = peer.count) (hsta : peer'.state = peer.state) :
    (slot.put id peer').Pooled where
  considered k := by
    rw [lookup_put]
    refine (h.considered k).trans ?_
    split
    · subst_vars
      simp [hp, hc]
    · rfl
  squelched k q hq hs := by
    rw [lookup_put] at hq
    split at hq
    · obtain rfl := some.inj hq
      rw [hc]
      exact h.squelched id peer hp (hsta ▸ hs)
    · exact h.squelched k q hq hs

lemma Pooled.heard (h : slot.Pooled)
    (hp : slot.peers.lookup id = some peer) (hs : peer.state ≠ .squelched) : (slot.heard now id peer).Pooled where
  considered k := by
    have hc : (slot.heard now id peer).considered =
        if peer.count + 1 > kMinMessageThreshold then slot.considered.emplace id () else slot.considered := rfl
    have hi := h.considered k
    rw [lookup_heard, hc]
    by_cases hk : k = id
    · subst hk
      simp only [hp, some.injEq, exists_eq_left', if_true] at hi ⊢
      split
      · rename_i hmin
        refine iff_of_true (lookup_isSome.1 ?_) hmin
        rw [lookup_emplace, if_pos rfl]
        rfl
      · rename_i hmin
        rw [hi]
        omega
    · rw [if_neg hk, ← hi]
      split
      · rw [← lookup_isSome, lookup_emplace, if_neg hk, lookup_isSome]
      · rfl
  squelched k q hq hsq := by
    rw [lookup_heard] at hq
    split at hq
    · obtain rfl := some.inj hq
      exact absurd hsq hs
    · exact h.squelched k q hq hsq

private lemma reachedThreshold_heard : (slot.heard now id peer).reachedThreshold =
    if peer.count + 1 = kMaxMessageThreshold + 1 then slot.reachedThreshold + 1 else slot.reachedThreshold := rfl

/-- One more message: the number of peers over the threshold grows by one when the peer passes it. -/
private lemma Tallied.heard (h : slot.Tallied) (hr : slot.reachedThreshold < slot.maxSelectedPeers)
    (hp : slot.peers.lookup id = some peer)
    (hs : peer.state ≠ .squelched) : (slot.heard now id peer).Tallied where
  toPooled := h.toPooled.heard hp hs
  reached := by
    have hn : (slot.heard now id peer).peers.count (fun _ q => decide (kMaxMessageThreshold < q.count)) =
        count (fun _ q => decide (kMaxMessageThreshold < q.count)) (slot.peers.erase id) +
          (decide (kMaxMessageThreshold < peer.count + 1)).toNat := by
      rw [count_of_lookup _ ((lookup_heard slot now id id peer).trans (if_pos rfl))]
      congr 1
      refine count_congr fun k => ?_
      by_cases hk : k = id
      · subst hk
        simp
      · rw [lookup_erase_ne hk, lookup_erase_ne hk, lookup_heard, if_neg hk]
    have hold := h.reached
    rw [count_of_lookup _ hp] at hold
    rw [reachedThreshold_heard, hn]
    have hlt := UInt16.lt_iff_toNat_lt.1 hr
    have hmax := slot.maxSelectedPeers.toNat_lt
    split
    · rename_i heq
      rw [UInt16.toNat_add, UInt16.toNat_one, hold]
      simp only [show ¬ kMaxMessageThreshold < peer.count by omega, show kMaxMessageThreshold < peer.count + 1 by omega,
        decide_false, Bool.toNat_false] at hlt ⊢
      exact Nat.mod_eq_of_lt (by omega)
    · rename_i hne
      rw [hold, show decide (kMaxMessageThreshold < peer.count + 1) = decide (kMaxMessageThreshold < peer.count) from
        decide_eq_decide.2 (by omega)]

private lemma count_release (slot : Slot) (now : Int) (id : PeerId) (peer : PeerInfo) (erase : Bool) :
    count (fun _ q => decide (kMaxMessageThreshold < q.count))
        (release (leavePool slot id peer) now id peer erase).peers =
      count (fun _ q => decide (kMaxMessageThreshold < q.count)) (slot.peers.erase id) := by
  refine count_congr fun k => ?_
  rw [lookup_release, peers_leavePool]
  by_cases hk : k = id
  · subst hk
    cases erase <;> simp
  · rw [if_neg hk, lookup_erase_ne hk]

lemma Pooled.release (h : slot.Pooled) (hp : slot.peers.lookup id = some peer) :
    (release (leavePool slot id peer) now id peer erase).Pooled where
  considered k := by
    have hi := h.considered k
    rw [lookup_release, peers_leavePool]
    unfold leavePool
    by_cases hk : k = id
    · subst hk
      rw [if_pos rfl]
      refine iff_of_false ?_ ?_
      · split
        · exact fun hmem => (mem_erase.1 hmem).1 rfl
        · exact ‹_›
      rintro ⟨q, hq, hc⟩
      cases erase with
      | false =>
        obtain rfl := some.inj hq
        exact absurd hc (Nat.not_lt_zero _)
      | true => cases hq
    · rw [if_neg hk, ← hi]
      split
      · exact mem_erase.trans (and_iff_right hk)
      · rfl
  squelched k q hq hs := by
    rw [lookup_release, peers_leavePool] at hq
    split at hq
    · cases erase with
      | false =>
        obtain rfl := some.inj hq
        rfl
      | true => cases hq
    · exact h.squelched k q hq hs

private lemma Tallied.release (h : slot.Tallied) (hp : slot.peers.lookup id = some peer) :
    (release (leavePool slot id peer) now id peer erase).Tallied where
  toPooled := h.toPooled.release hp
  reached := by
    have hold := h.reached
    rw [count_of_lookup _ hp] at hold
    rw [count_release]
    show (leavePool slot id peer).reachedThreshold.toNat = _
    have hpo := h.considered id
    simp only [hp, some.injEq, exists_eq_left'] at hpo
    unfold leavePool
    by_cases ho : kMaxMessageThreshold < peer.count
    · -- a peer over the threshold is in the pool, so that it is taken off the counter
      have hmin : kMinMessageThreshold < peer.count := Nat.lt_of_le_of_lt (by decide) ho
      simp only [ho] at hold
      have hone : (1 : UInt16) ≤ slot.reachedThreshold := UInt16.le_iff_toNat_le.2 (by
        rw [hold]
        exact Nat.le_add_left 1 _)
      simp only [if_pos (hpo.2 hmin), if_pos ho]
      rw [UInt16.toNat_sub_of_le _ _ hone, hold]
      rfl
    · simp only [ho] at hold
      split
      · exact hold
      · exact hold

lemma tallied_release_resetSelection (slot : Slot) (now : Int) (id : PeerId) (peer : PeerInfo) (erase : Bool) :
    (release (resetSelection slot now) now id (resetPeer now peer) erase).Tallied := by
  refine .of_zero rfl rfl fun k q hq => ?_
  rw [lookup_release, lookup_resetSelection] at hq
  split at hq
  · cases erase with
    | false =>
      obtain rfl := some.inj hq
      rfl
    | true => cases hq
  · obtain ⟨q', -, rfl⟩ := map_eq_some_iff.1 hq
    rfl

/-! ### Sources for the squelched peers -/

/-- Whenever a peer is squelched, as many peers are selected as the slot asks for. -/
def Sourced (slot : Slot) : Prop :=
  (∃ id, slot.HasState .squelched id) → slot.getSelected.length = slot.maxSelectedPeers.toNat

lemma mem_getSelected : id ∈ slot.getSelected ↔ slot.HasState .selected id := by
  simp only [getSelected, List.mem_map, List.mem_filter, decide_eq_true_eq]
  constructor
  · rintro ⟨e, ⟨he, hs⟩, rfl⟩
    exact ⟨e.2, lookup_of_mem_entries he, hs⟩
  · rintro ⟨peer, hp, hs⟩
    exact ⟨⟨id, peer⟩, ⟨mem_lookup_iff.1 hp, hs⟩, rfl⟩

private lemma length_getSelected {l : List PeerId} (hl : l.Nodup)
    (h : ∀ id, id ∈ l ↔ slot.HasState .selected id) : slot.getSelected.length = l.length := by
  have hn : slot.getSelected.Nodup := (filter_sublist.map Sigma.fst).nodup slot.peers.nodupKeys
  exact ((perm_ext_iff_of_nodup hn hl).2 fun id => mem_getSelected.trans (h id).symm).length_eq

private lemma Sourced.of_states {slot' : Slot} (h : slot.Sourced)
    (hmax : slot'.maxSelectedPeers = slot.maxSelectedPeers)
    (hs : ∀ id, slot.HasState .selected id ↔ slot'.HasState .selected id)
    (hsq : ∀ id, slot'.HasState .squelched id → slot.HasState .squelched id) : slot'.Sourced := by
  rintro ⟨id, hid⟩
  rw [hmax, ← h ⟨id, hsq id hid⟩]
  exact length_getSelected ((filter_sublist.map Sigma.fst).nodup slot.peers.nodupKeys) fun k => mem_getSelected.trans (hs k)

private lemma hasState_initCounting : (initCounting slot).HasState state id ↔ slot.HasState state id := by
  unfold HasState
  rw [lookup_initCounting]
  cases slot.peers.lookup id <;> simp

private lemma Sourced.initCounting (h : slot.Sourced) : (initCounting slot).Sourced :=
  h.of_states rfl (fun _ => hasState_initCounting.symm) fun _ => hasState_initCounting.1

private lemma hasState_put {k : PeerId} :
    (slot.put id peer).HasState state k ↔ if k = id then peer.state = state else slot.HasState state k := by
  unfold HasState
  rw [lookup_put]
  split <;> simp

private lemma Sourced.put (h : slot.Sourced) (hs : peer.state = .selected ↔ slot.HasState .selected id)
    (hsq : peer.state = .squelched → slot.HasState .squelched id) : (slot.put id peer).Sourced := by
  refine h.of_states rfl (fun k => ?_) fun k hk => ?_
  · rw [hasState_put]
    split
    · subst_vars
      exact hs.symm
    · rfl
  · rw [hasState_put] at hk
    split at hk
    · subst_vars
      exact hsq hk
    · exact hk

lemma hasState_of_lookup (h : slot.peers.lookup id = some peer) : slot.HasState state id ↔ peer.state = state := by
  simp [HasState, h]

private lemma Sourced.heard (h : slot.Sourced)
    (hp : slot.peers.lookup id = some peer) : (slot.heard now id peer).Sourced := by
  have hs : ∀ state k, (slot.heard now id peer).HasState state k ↔ slot.HasState state k := by
    intro state k
    by_cases hk : k = id
    · subst hk
      rw [hasState_of_lookup hp, hasState_of_lookup ((lookup_heard slot now k k peer).trans (if_pos rfl))]
    · unfold HasState
      rw [lookup_heard, if_neg hk]
  exact h.of_states rfl (fun k => (hs _ k).symm) fun k => (hs _ k).1

/-- The selection puts `selected` in the place of all earlier sources. -/
private lemma hasState_selected_settle (hmem : ∀ k ∈ selected, k ∈ slot.peers) (id : PeerId) :
    id ∈ selected ↔ (settle slot now selected draw).HasState .selected id := by
  unfold HasState
  rw [lookup_settle]
  constructor
  · intro hid
    obtain ⟨peer, hp⟩ := isSome_iff_exists.1 (lookup_isSome.2 (hmem id hid))
    exact ⟨_, by rw [hp]; rfl, by simp [settlePeer, hid]⟩
  rintro ⟨peer, hp, hs⟩
  obtain ⟨q, -, rfl⟩ := map_eq_some_iff.1 hp
  unfold settlePeer at hs
  by_contra hid
  rw [if_neg hid] at hs
  split at hs
  · cases hs
  rename_i hsq
  rw [not_not] at hsq
  rw [hsq] at hs
  cases hs

private lemma Sourced.release (h : slot.Sourced) (hp : slot.peers.lookup id = some peer) (hs : peer.state ≠ .selected) :
    (release (leavePool slot id peer) now id peer erase).Sourced := by
  have hsta : ∀ state k, (Slot.release (leavePool slot id peer) now id peer erase).HasState state k →
      slot.HasState state k := by
    intro state k
    unfold HasState
    rw [lookup_release, peers_leavePool]
    split
    · subst_vars
      rw [hp]
      cases erase <;> simp
    · exact fun hk => hk
  refine h.of_states (maxSelectedPeers_leavePool slot id peer) (fun k => ⟨?_, hsta _ k⟩) fun k => hsta _ k
  intro hk
  have hne : k ≠ id := by
    rintro rfl
    exact hs ((hasState_of_lookup hp).1 hk)
  unfold HasState
  rw [lookup_release, peers_leavePool, if_neg hne]
  exact hk

lemma Updated.sourced (hu : Updated slot now id r) (h : slot.Sourced) : r.1.Sourced := by
  cases hu with
  | joined hn =>
    refine Sourced.initCounting (h.put ?_ fun hs => by cases hs)
    simp [HasState, hn]
  | expired peer hp hs _ =>
    refine Sourced.initCounting (h.put ?_ fun hs => by cases hs)
    rw [hasState_of_lookup hp, hs]
    simp
  | noted peer hp _ _ => exact h.put (hasState_of_lookup hp).symm (hasState_of_lookup hp).2
  | counted peer hp _ _ => exact h.heard hp
  | restarted peer hp _ => exact (h.heard hp).initCounting
  | settled peer hp _ selected draw hno hmem hlen =>
    intro _
    rw [length_getSelected hno (hasState_selected_settle fun k hk => (hmem k hk).1), hlen]
    rfl

lemma Dropped.sourced (hd : Dropped slot now id erase r) (h : slot.Sourced) : r.1.Sourced := by
  cases hd with
  | absent _ => exact h
  | source peer _ _ =>
    -- no peer is squelched after the reset
    rintro ⟨k, q, hq, hs⟩
    rw [lookup_release, lookup_resetSelection] at hq
    split at hq
    · cases erase with
      | false =>
        obtain rfl := some.inj hq
        cases hs
      | true => cases hq
    · obtain ⟨q', -, rfl⟩ := map_eq_some_iff.1 hq
      cases hs
  | other peer hp hs => exact h.release hp hs

/-- The pool, the counter and the selected peers of a slot between two calls. -/
structure Balanced (slot : Slot) : Prop extends Tallied slot where
  below : slot.reachedThreshold < slot.maxSelectedPeers
  sourced : slot.Sourced

private lemma Updated.balanced (hu : Updated slot now id r) (h : slot.Balanced) : r.1.Balanced := by
  have hsrc := hu.sourced h.sourced
  have hz : 0 < slot.maxSelectedPeers := UInt16.lt_of_le_of_lt UInt16.zero_le h.below
  cases hu with
  | joined _ | expired _ _ _ _ | restarted _ _ _ => exact ⟨tallied_initCounting _, hz, hsrc⟩
  | noted peer hp _ _ =>
    refine ⟨⟨h.toPooled.put hp rfl rfl, h.reached.trans ?_⟩, h.below, hsrc⟩
    show _ = count _ (insert id _ slot.peers)
    rw [HashMap.count_insert, HashMap.count_of_lookup _ hp]
  | counted peer hp hs hr =>
    have hlt := UInt16.lt_iff_toNat_lt.1 h.below
    have hle : (slot.heard now id peer).reachedThreshold ≤ slot.maxSelectedPeers := by
      rw [reachedThreshold_heard]
      split
      · exact (Nat.mod_le _ _).trans hlt
      · exact hlt.le
    exact ⟨h.toTallied.heard h.below hp hs, UInt16.lt_of_le_of_ne hle hr, hsrc⟩
  | settled _ _ _ _ _ _ _ _ => exact ⟨tallied_settle _ _ _ _, hz, hsrc⟩

private lemma Dropped.balanced (hd : Dropped slot now id erase r) (h : slot.Balanced) : r.1.Balanced := by
  have hs := hd.sourced h.sourced
  cases hd with
  | absent _ => exact h
  | source peer _ _ =>
    have hz : 0 < slot.maxSelectedPeers := UInt16.lt_of_le_of_lt UInt16.zero_le h.below
    exact ⟨tallied_release_resetSelection _ _ _ _ _, hz, hs⟩
  | other peer hp _ =>
    have ht : (release (leavePool slot id peer) now id peer erase).Tallied := h.toTallied.release hp
    refine ⟨ht, ?_, hs⟩
    have hb := UInt16.lt_iff_toNat_lt.1 h.below
    rw [h.reached, count_of_lookup _ hp] at hb
    rw [UInt16.lt_iff_toNat_lt, ht.reached, count_release]
    show _ < (leavePool slot id peer).maxSelectedPeers.toNat
    rw [maxSelectedPeers_leavePool]
    omega

inductive SlotCall where
  | update (now : Int) (id : PeerId) (choices : List Nat) (draw : PeerId → Nat)
  | deletePeer (now : Int) (id : PeerId) (erase : Bool)
  | deleteIdlePeer (now : Int)

def call (slot : Slot) : SlotCall → Slot
  | .update now id choices draw => (slot.update now id choices draw).1
  | .deletePeer now id erase => (slot.deletePeer now id erase).1
  | .deleteIdlePeer now => (slot.deleteIdlePeer now).1

private lemma Balanced.call (h : slot.Balanced) (c : SlotCall) : (slot.call c).Balanced := by
  cases c with
  | update now id choices draw => exact (update_updated slot now id choices draw).balanced h
  | deletePeer now id erase => exact (deletePeer_dropped slot now id erase).balanced h
  | deleteIdlePeer now => exact deleteIdlePeer_rec h fun _ _ _ _ hs hd => hd.balanced hs

private lemma maxSelectedPeers_call (slot : Slot) (c : SlotCall) :
    (slot.call c).maxSelectedPeers = slot.maxSelectedPeers := by
  cases c with
  | update now id choices draw => exact (update_updated slot now id choices draw).maxSelectedPeers_eq
  | deletePeer now id erase => exact (deletePeer_dropped slot now id erase).maxSelectedPeers_eq
  | deleteIdlePeer now =>
    exact deleteIdlePeer_rec (P := fun s _ => s.maxSelectedPeers = slot.maxSelectedPeers) rfl
      fun _ _ _ _ hs hd => hd.maxSelectedPeers_eq.trans hs

/-- After any calls, at any times and with any random choices, the pool, the counter and the selected peers of a slot
are what they are meant to be. -/
theorem run_balanced (start : Int) (maxSelectedPeers : UInt16) (hmax : 1 ≤ maxSelectedPeers) (calls : List SlotCall) :
    (calls.foldl call (new start maxSelectedPeers)).maxSelectedPeers = maxSelectedPeers ∧
      (calls.foldl call (new start maxSelectedPeers)).Balanced := by
  -- the induction is over the calls, from any slot
  have hr : ∀ slot : Slot, slot.Balanced → (calls.foldl call slot).maxSelectedPeers = slot.maxSelectedPeers ∧
      (calls.foldl call slot).Balanced := by
    induction calls with
    | nil => exact fun slot h => ⟨rfl, h⟩
    | cons c calls ih =>
      intro slot h
      obtain ⟨hs, hb⟩ := ih (slot.call c) (h.call c)
      exact ⟨hs.trans (maxSelectedPeers_call slot c), hb⟩
  refine hr _ ⟨.of_zero rfl rfl fun id peer hp => (nomatch hp),
    UInt16.lt_iff_toNat_lt.2 (UInt16.le_iff_toNat_le.1 hmax), ?_⟩
  rintro ⟨id, peer, hp, -⟩
  cases hp

/-- Two peers send messages until one of them is selected, and the other one is squelched for 300 seconds. -/
def selectionRun : List SlotCall :=
  (1 :: 2 :: List.replicate 21 1).map fun id => .update 5 id [0] fun _ => 0

theorem run_balanced_selection : (selectionRun.foldl call (new 0 1)).getSelected = [1] ∧
      ((selectionRun.foldl call (new 0 1)).peers.lookup 2) = some ⟨.squelched, 0, 305, 5⟩ ∧
      (selectionRun.foldl call (new 0 1)).Balanced :=
  ⟨by decide +kernel, by decide +kernel, (run_balanced 0 1 (by decide) selectionRun).2⟩

end Xrpl.ReduceRelay.Slot

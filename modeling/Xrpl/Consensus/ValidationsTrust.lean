import Xrpl.Consensus.ValidationsTrie

/-!
# Who has support in the trie of the validations

Support should come from the nodes whose current validation is trusted.  When a node loses its trust or its validation
goes stale, `removeTrie` takes the ledger of `lastLedger_` away only if it is the ledger of the current validation; an
older ledger, kept while the current one is being acquired, stays.

* `Trust`: the invariant, with the nodes whose last ledger must be the one of their current validation;
* `run_onlyTrusted`: as long as no node is removed while its last ledger lags behind, only trusted nodes count;
* `run_keeps_untrusted`: otherwise the support of a node outlives its trust.
-/

namespace Xrpl.Consensus

open List Option AList Ensures

namespace Validations

variable {NodeID Ledger ID : Type} [LedgerType Ledger ID] {v : Validations NodeID Ledger}

/-- What moving support does not change. -/
structure SameCurrent (v w : Validations NodeID Ledger) : Prop where
  current_eq : w.current_ = v.current_
  parms_eq : w.parms_ = v.parms_

private lemma SameCurrent.trans {u w : Validations NodeID Ledger} (h : SameCurrent u v) (h' : SameCurrent v w) :
    SameCurrent u w :=
  ⟨h'.current_eq.trans h.current_eq, h'.parms_eq.trans h.parms_eq⟩

variable [LinearOrder ID] [DecidableEq NodeID] {X : NodeID → Prop} {a : Adaptor Ledger}

def Trusted (v : Validations NodeID Ledger) (n : NodeID) : Prop :=
  ∃ val, v.current_.lookup n = some val ∧ val.trusted = true

/-- Every node with support in the trie, and every node waiting for a ledger, is currently trusted. -/
def OnlyTrusted (v : Validations NodeID Ledger) : Prop :=
  (∀ n ∈ v.lastLedger_, v.Trusted n) ∧ ∀ key n, v.Waits key n → v.Trusted n

/-- The last ledger of the node, if it has one, is the one of its current validation. -/
def UpToDate (v : Validations NodeID Ledger) (n : NodeID) : Prop :=
  ∀ val ledger, v.current_.lookup n = some val → v.lastLedger_.lookup n = some ledger → ledgerID ledger = val.ledgerID

/-- The invariant: nodes wait for the ledger of their current validation only, and the nodes in `X` are up to date. -/
structure Trust (X : NodeID → Prop) (v : Validations NodeID Ledger) : Prop where
  last : ∀ n ∈ v.lastLedger_, v.Trusted n
  waiting : ∀ key n, v.Waits key n →
    ∃ val, v.current_.lookup n = some val ∧ val.trusted = true ∧ (val.seq, val.ledgerID) = key
  upToDate : ∀ n, X n → v.UpToDate n

private lemma Trust.onlyTrusted (h : v.Trust X) : v.OnlyTrusted := by
  refine ⟨h.last, fun key n hn => ?_⟩
  obtain ⟨val, hval, htr, -⟩ := h.waiting key n hn
  exact ⟨val, hval, htr⟩

private lemma Trust.ask (h : v.Trust X) : v.ask.Trust X := { h with }

private lemma updateTrieLedger_frame (v : Validations NodeID Ledger) (n : NodeID) (ledger : Ledger) :
    Ensures (v.updateTrieLedger n ledger) fun w =>
      SameCurrent v w ∧ w.acquiring_ = v.acquiring_ ∧ w.lastLedger_ = v.lastLedger_.insert n ledger := by
  refine bind (P := fun _ => True) (fun _ _ => trivial) fun t _ => ?_
  exact bind (P := fun _ => True) (fun _ _ => trivial) fun t' _ => .pure ⟨⟨rfl, rfl⟩, rfl, rfl⟩

variable {n : NodeID} {val : Validation ID} {now : Int}

section

variable (h : v.Trust X)

include h

private lemma Trust.updateTrieLedger {ledger : Ledger}
    (hval : v.current_.lookup n = some val) (htr : val.trusted = true) (hid : ledgerID ledger = val.ledgerID) :
    Ensures (v.updateTrieLedger n ledger) fun w => w.Trust X ∧ SameCurrent v w := by
  refine (updateTrieLedger_frame v n ledger).mono fun w hw => ?_
  obtain ⟨hs, ha, hl⟩ := hw
  have hc := hs.current_eq
  refine ⟨⟨fun m hm => ?_, fun key m hm => ?_, fun m hX val' ledger' hval' hled' => ?_⟩, hs⟩
  · rw [Trusted, hc]
    rw [hl] at hm
    rcases (mem_insert _).1 hm with rfl | hm
    · exact ⟨val, hval, htr⟩
    · exact h.last m hm
  · rw [Waits, ha] at hm
    rw [hc]
    exact h.waiting key m hm
  rw [hc] at hval'
  rw [hl] at hled'
  rcases HashMap.of_lookup_insert hled' with ⟨rfl, rfl⟩ | ⟨-, hled'⟩
  · rw [hid, some.inj (hval.symm.trans hval')]
  · exact h.upToDate m hX val' ledger' hval' hled'

private lemma Trust.checkOne {key : Nat × ID} {nodes : HashSet NodeID}
    (hns : ∀ n ∈ nodes, ∃ val, v.current_.lookup n = some val ∧ val.trusted = true ∧ (val.seq, val.ledgerID) = key) :
    Ensures (v.checkOne a key nodes) fun w => w.Trust X ∧ SameCurrent v w := by
  unfold Validations.checkOne
  split
  · exact .pure ⟨h.ask, rfl, rfl⟩
  rename_i ledger ha
  refine bind (foldlM (I := fun w => w.Trust X ∧ SameCurrent v w) ?_ ⟨h.ask, rfl, rfl⟩)
    fun w hw => .pure ⟨⟨hw.1.last, fun key' m hm => hw.1.waiting key' m (waits_erase hm), hw.1.upToDate⟩,
      hw.2.current_eq, hw.2.parms_eq⟩
  intro n hn w hw
  obtain ⟨val, hval, htr, hk⟩ := hns n ((a.order_perm _ _).mem_iff.1 hn)
  have hid : ledgerID ledger = val.ledgerID := by rw [a.acquire_id ha, ← hk]
  refine (hw.1.updateTrieLedger (by rw [hw.2.current_eq]; exact hval) htr hid).mono fun w' hw' => ?_
  exact ⟨hw'.1, hw.2.trans hw'.2⟩

private lemma Trust.checkAcquired : Ensures (v.checkAcquired a) fun w => w.Trust X ∧ SameCurrent v w := by
  refine foldlM (I := fun w : Validations NodeID Ledger => w.Trust X ∧ SameCurrent v w)
    (fun e he w hw => ?_) ⟨h.ask, rfl, rfl⟩
  refine (hw.1.checkOne fun n hn => ?_).mono fun w' hw' => ⟨hw'.1, hw.2.trans hw'.2⟩
  rw [hw.2.current_eq]
  exact h.waiting e.1 n ⟨e.2, HashMap.lookup_of_mem_entries ((a.order_perm _ _).mem_iff.1 he), hn⟩

section

variable (hval : v.current_.lookup n = some val) (htr : val.trusted = true)

include hval htr

private lemma Trust.startAcquiring : (v.startAcquiring (val.seq, val.ledgerID) n).Trust X := by
  refine ⟨h.last, fun key m hm => ?_, h.upToDate⟩
  rcases waits_startAcquiring hm with hm | hm
  · obtain ⟨rfl, rfl⟩ := hm
    exact ⟨val, hval, htr, rfl⟩
  · exact h.waiting key m hm

private lemma Trust.updateTrie : Ensures (v.updateTrie a n val none) fun w => w.Trust X ∧ SameCurrent v w := by
  refine h.checkAcquired.bind fun w hw => ?_
  have hval' : w.current_.lookup n = some val := by rw [hw.2.current_eq]; exact hval
  dsimp only
  split
  · exact .pure ⟨hw.1.startAcquiring hval' htr, hw.2.current_eq, hw.2.parms_eq⟩
  split
  · rename_i ledger ha
    refine (hw.1.ask.updateTrieLedger hval' htr (a.acquire_id ha)).mono fun w' hw' => ?_
    exact ⟨hw'.1, hw.2.trans ⟨hw'.2.current_eq, hw'.2.parms_eq⟩⟩
  · exact .pure ⟨hw.1.ask.startAcquiring hval' htr, hw.2.current_eq, hw.2.parms_eq⟩

end

/-- The current validation of a node without support and without a pending request may be changed. -/
private lemma Trust.set_current (hl : n ∉ v.lastLedger_) (hw : ∀ key, ¬ v.Waits key n)
    {current : HashMap NodeID (Validation ID)} (hc : ∀ m, m ≠ n → current.lookup m = v.current_.lookup m) :
    Trust X { v with current_ := current } := by
  refine ⟨fun m hm => ?_, fun key m hm => ?_, fun m hX val ledger hval hled => ?_⟩
  · have hne : m ≠ n := fun heq => hl (heq ▸ hm)
    obtain ⟨val, hval, htr⟩ := h.last m hm
    exact ⟨val, (hc m hne).trans hval, htr⟩
  · have hne : m ≠ n := fun heq => hw key (heq ▸ hm)
    obtain ⟨val, hval, hr⟩ := h.waiting key m hm
    exact ⟨val, (hc m hne).trans hval, hr⟩
  have hne : m ≠ n := by
    intro heq
    rw [heq] at hled
    exact hl (lookup_isSome.1 (isSome_of_eq_some hled))
  exact h.upToDate m hX val ledger ((hc m hne).symm.trans hval) hled

private lemma Trust.removeTrie (hX : X n) (hval : v.current_.lookup n = some val) :
    Ensures (v.removeTrie n val) fun w => w.Trust X ∧ SameCurrent v w ∧ n ∉ w.lastLedger_ ∧ ∀ key, ¬ w.Waits key n := by
  obtain ⟨hc, hl, -, hp⟩ := stopAcquiring_frame v (val.seq, val.ledgerID) n
  have hwts : ∀ key m, (v.stopAcquiring (val.seq, val.ledgerID) n).Waits key m → v.Waits key m ∧ m ≠ n := by
    intro key m hm
    obtain ⟨hw, hne⟩ := waits_stopAcquiring hm
    refine ⟨hw, ?_⟩
    rintro rfl
    obtain ⟨val', hval', -, hk⟩ := h.waiting key m hw
    obtain rfl := some.inj (hval'.symm.trans hval)
    exact hne ⟨hk.symm, rfl⟩
  unfold Validations.removeTrie
  generalize v.stopAcquiring (val.seq, val.ledgerID) n = w at hc hl hp hwts ⊢
  have htr : w.Trust X := by
    refine ⟨fun m hm => ?_, fun key m hm => ?_, fun m hm val' ledger' hval' hled' => ?_⟩
    · rw [Trusted, hc]
      exact h.last m (hl ▸ hm)
    · rw [hc]
      exact h.waiting key m (hwts key m hm).1
    · rw [hc] at hval'
      rw [hl] at hled'
      exact h.upToDate m hm val' ledger' hval' hled'
  have hw : ∀ key, ¬ w.Waits key n := fun key hn => (hwts key n hn).2 rfl
  dsimp only
  split
  · rename_i hno
    exact .pure ⟨htr, ⟨hc, hp⟩, lookup_eq_none.1 hno, hw⟩
  rename_i ledger hled
  have hid : ledgerID ledger = val.ledgerID := h.upToDate n hX val ledger hval (hl ▸ hled)
  rw [if_pos hid]
  refine bind (P := fun _ => True) (fun _ _ => trivial) fun t _ => .pure ⟨⟨fun m hm => ?_, htr.waiting,
    fun m hm val' ledger' hval' hled' => ?_⟩, ⟨hc, hp⟩, ?_, hw⟩
  · exact htr.last m (mem_erase.1 hm).2
  · by_cases hmn : m = n
    · subst hmn
      simp at hled'
    · rw [lookup_erase_ne hmn] at hled'
      exact htr.upToDate m hm val' ledger' hval' hled'
  · intro hmem
    exact (mem_erase.1 hmem).1 rfl

end

/-! ### The calls -/

/-- The loops over `current_`: the entries `rest` still to come are as they were, and the nodes of those that are going
to leave are in `X`. -/
structure Ahead (X : NodeID → Prop) (leaves : (Σ _ : NodeID, Validation ID) → Prop) (parms : ValidationParms)
    (rest : List (Σ _ : NodeID, Validation ID)) (v : Validations NodeID Ledger) : Prop where
  trust : v.Trust X
  parms_eq : v.parms_ = parms
  lookup : ∀ e ∈ rest, v.current_.lookup e.1 = some e.2
  distinct : rest.NodupKeys
  leaving : ∀ e ∈ rest, leaves e → X e.1

private lemma ahead_order {leaves : (Σ _ : NodeID, Validation ID) → Prop} (h : v.Trust X)
    (hl : ∀ n val, v.current_.lookup n = some val → leaves ⟨n, val⟩ → X n) :
    v.ask.Ahead X leaves v.parms_ (a.order v.asked v.current_.entries) := by
  have hp := a.order_perm v.asked v.current_.entries
  have hlk : ∀ e ∈ a.order v.asked v.current_.entries, v.current_.lookup e.1 = some e.2 := fun e he =>
    HashMap.lookup_of_mem_entries (hp.mem_iff.1 he)
  exact ⟨h.ask, rfl, hlk, (perm_nodupKeys hp).2 v.current_.nodupKeys, fun e he => hl e.1 e.2 (hlk e he)⟩

variable {leaves : (Σ _ : NodeID, Validation ID) → Prop} {parms : ValidationParms} {e : Σ _ : NodeID, Validation ID}
  {rest : List (Σ _ : NodeID, Validation ID)}

private lemma Ahead.tail (h : v.Ahead X leaves parms (e :: rest)) {w : Validations NodeID Ledger}
    (htr : w.Trust X) (hp : w.parms_ = v.parms_)
    (hc : ∀ m, m ≠ e.1 → w.current_.lookup m = v.current_.lookup m) : w.Ahead X leaves parms rest := by
  have hd := nodupKeys_cons.1 h.distinct
  refine ⟨htr, hp.trans h.parms_eq, fun e' he' => ?_, hd.2, fun e' he' => h.leaving e' (mem_cons_of_mem _ he')⟩
  rw [hc e'.1 fun heq => hd.1 (heq ▸ mem_keys_of_mem he')]
  exact h.lookup e' (mem_cons_of_mem _ he')

def Stale (parms : ValidationParms) (now : Int) (e : Σ _ : NodeID, Validation ID) : Prop :=
  isCurrent parms now e.2.signTime e.2.seenTime = false

private lemma Ahead.flushStale (h : v.Ahead X (Stale parms now) parms (e :: rest)) :
    Ensures (v.flushStale now e.1 e.2) (Ahead X (Stale parms now) parms rest) := by
  unfold Validations.flushStale
  rw [h.parms_eq]
  split
  · exact .pure (h.tail h.trust rfl fun m _ => rfl)
  rename_i hstl
  have hX : X e.1 := h.leaving e mem_cons_self (Bool.eq_false_of_not_eq_true hstl)
  refine (h.trust.removeTrie hX (h.lookup e mem_cons_self)).bind fun w hw => .pure ?_
  obtain ⟨htr, hs, hl, hwa⟩ := hw
  have he : ∀ m, m ≠ e.1 → (w.current_.erase e.1).lookup m = w.current_.lookup m := fun m hm =>
    lookup_erase_ne hm
  refine h.tail (htr.set_current hl hwa he) hs.parms_eq fun m hm => ?_
  rw [he m hm, hs.current_eq]

section

variable (h : v.Trust X) (hstl : ∀ n val, v.current_.lookup n = some val → Stale v.parms_ now ⟨n, val⟩ → X n)

include h hstl

private lemma Trust.current : Ensures (v.current a now) fun r => r.2.Trust X :=
  (foldlM_rest (fun _ _ _ hw => hw.flushStale) (ahead_order h hstl)).bind fun _ hw => .pure hw.trust

private lemma Trust.withTrie : Ensures (v.withTrie a now) (Trust X) :=
  (h.current hstl).bind fun _ hr => hr.checkAcquired.mono fun _ hw => hw.1

private lemma Trust.getPreferred (curr : Ledger) : Ensures (v.getPreferred a now curr) fun r => r.2.Trust X := by
  refine (h.withTrie hstl).bind fun w hw => ?_
  refine bind (P := fun _ => True) (fun _ _ => trivial) fun r _ => ?_
  obtain ⟨preferred, trie⟩ := r
  cases preferred with
  | none | some preferred => exact .pure { hw with }

private lemma Trust.getNodesAfter (ledger : Ledger) (id : ID) :
    Ensures (v.getNodesAfter a now ledger id) fun r => r.2.Trust X := by
  unfold Validations.getNodesAfter
  split
  · exact (h.withTrie hstl).bind fun w hw => .pure hw
  · exact .pure h

private lemma Trust.currentTrusted : Ensures (v.currentTrusted a now) fun r => r.2.Trust X :=
  (h.current hstl).bind fun _ hr => .pure hr

end

/-- `removeTrie` does not look at the current validations, and at a validation only for its ledger. -/
private lemma removeTrie_current (v : Validations NodeID Ledger) (current : HashMap NodeID (Validation ID)) (n : NodeID)
    (val : Validation ID) :
    ({ v with current_ := current }).removeTrie n val.setUntrusted =
      (v.removeTrie n val).map fun w => { w with current_ := current } := by
  have hs : ({ v with current_ := current }).stopAcquiring (val.seq, val.ledgerID) n =
      { v.stopAcquiring (val.seq, val.ledgerID) n with current_ := current } := by
    unfold stopAcquiring
    split <;> rename_i hl <;> simp only [hl]
  unfold removeTrie
  simp only [Validation.setUntrusted, hs]
  split
  · rfl
  split
  · simp only [bind_eq_bind, map_bind]
    rfl
  · rfl

private lemma Trust.set_trusted (h : v.Trust X) (hval : v.current_.lookup n = some val) :
    Trust X { v with current_ := v.current_.insert n val.setTrusted } := by
  have hlk : ∀ m val', v.current_.lookup m = some val' → ∃ val'',
      (v.current_.insert n val.setTrusted).lookup m = some val'' ∧ (val'.trusted = true → val''.trusted = true) ∧
        val''.seq = val'.seq ∧ val''.ledgerID = val'.ledgerID := by
    intro m val' hval'
    by_cases hmn : m = n
    · subst hmn
      obtain rfl := some.inj (hval'.symm.trans hval)
      exact ⟨_, lookup_insert _, fun _ => rfl, rfl, rfl⟩
    · exact ⟨val', (lookup_insert_ne hmn).trans hval', id, rfl, rfl⟩
  refine ⟨fun m hm => ?_, fun key m hm => ?_, fun m hX val'' ledger hval'' hl => ?_⟩
  · obtain ⟨val', hval', htr⟩ := h.last m hm
    obtain ⟨val'', hval'', htr', -⟩ := hlk m val' hval'
    exact ⟨val'', hval'', htr' htr⟩
  · obtain ⟨val', hval', htr, hk⟩ := h.waiting key m hm
    obtain ⟨val'', hval'', htr', hs, hid⟩ := hlk m val' hval'
    exact ⟨val'', hval'', htr' htr, by rw [hs, hid, hk]⟩
  obtain ⟨val', hval', -⟩ := h.last m (lookup_isSome.1 (isSome_of_eq_some hl))
  obtain ⟨val2, hval2, -, -, hid⟩ := hlk m val' hval'
  obtain rfl := some.inj (hval2.symm.trans hval'')
  rw [hid]
  exact h.upToDate m hX val' ledger hval' hl

private lemma Ahead.changeTrust {added removed : List NodeID}
    (h : v.Ahead X (fun e => e.1 ∈ removed ∧ e.1 ∉ added) parms (e :: rest)) :
    Ensures (v.changeTrust a added removed e.1 e.2) (Ahead X (fun e => e.1 ∈ removed ∧ e.1 ∉ added) parms rest) := by
  have hval := h.lookup e mem_cons_self
  have ho : ∀ (val : Validation ID) (m : NodeID), m ≠ e.1 →
      (v.current_.insert e.1 val).lookup m = v.current_.lookup m := fun val m hm => lookup_insert_ne hm
  unfold Validations.changeTrust
  split
  · refine ((h.trust.set_trusted hval).updateTrie (lookup_insert _) rfl).mono fun w hw => ?_
    refine h.tail hw.1 hw.2.parms_eq fun m hm => ?_
    rw [hw.2.current_eq]
    exact ho _ m hm
  · rename_i ha
    split
    · rename_i hr
      have hX : X e.1 := h.leaving e mem_cons_self ⟨hr, ha⟩
      rw [removeTrie_current]
      refine (h.trust.removeTrie hX hval).map fun w hw => ?_
      obtain ⟨htr, hs, hl, hwa⟩ := hw
      refine h.tail (htr.set_current hl hwa fun m hm => ?_) hs.parms_eq (ho _)
      rw [ho _ m hm, hs.current_eq]
    · exact .pure (h.tail h.trust rfl fun m _ => rfl)

private lemma Trust.trustChanged {added removed : List NodeID} (h : v.Trust X)
    (hr : ∀ n, n ∈ removed → n ∉ added → X n) :
    Ensures (v.trustChanged a added removed) (Trust X) :=
  (foldlM_rest (fun _ _ _ hw => hw.changeTrust) (ahead_order h fun n _ _ hn => hr n hn.1 hn.2)).bind fun _ hw =>
      .pure ⟨hw.trust.last, hw.trust.waiting, hw.trust.upToDate⟩

/-- A new trusted validation replaces the current one, and the node stops waiting for the old ledger. -/
private lemma Trust.replace (h : v.Trust X) (htr : val.trusted = true) :
    Trust (fun _ => False) (((v.current_.lookup n).map fun old => (old.seq, old.ledgerID)).elim
      { v with current_ := v.current_.insert n val }
      fun key => { v with current_ := v.current_.insert n val }.stopAcquiring key n) := by
  have hc : ∀ m, m ≠ n → (v.current_.insert n val).lookup m = v.current_.lookup m := fun m hm =>
    lookup_insert_ne hm
  have hl : ∀ m ∈ v.lastLedger_, Trusted { v with current_ := v.current_.insert n val } m := by
    intro m hm
    by_cases hmn : m = n
    · subst hmn
      exact ⟨val, lookup_insert _, htr⟩
    · obtain ⟨val', hv', htr'⟩ := h.last m hm
      exact ⟨val', (hc m hmn).trans hv', htr'⟩
  have hwtg : ∀ key m, v.Waits key m → m ≠ n → ∃ val', (v.current_.insert n val).lookup m = some val' ∧
      val'.trusted = true ∧ (val'.seq, val'.ledgerID) = key := by
    intro key m hm hmn
    obtain ⟨val', hv', hr⟩ := h.waiting key m hm
    exact ⟨val', (hc m hmn).trans hv', hr⟩
  cases hold : v.current_.lookup n with
  | none =>
    refine ⟨hl, fun key m hm => hwtg key m hm ?_, fun m hm => hm.elim⟩
    rintro rfl
    obtain ⟨val', hv', -⟩ := h.waiting key m hm
    rw [hold] at hv'
    simp at hv'
  | some old =>
    obtain ⟨hcur, hl', -, -⟩ := stopAcquiring_frame
      { v with current_ := v.current_.insert n val } (old.seq, old.ledgerID) n
    refine ⟨fun m hm => ?_, fun key m hm => ?_, fun m hm => hm.elim⟩
    · rw [Trusted]
      simp only [map_some, elim_some] at hm ⊢
      rw [hl'] at hm
      rw [hcur]
      exact hl m hm
    · obtain ⟨hw, hne⟩ := waits_stopAcquiring hm
      simp only [map_some, elim_some]
      rw [hcur]
      refine hwtg key m hw ?_
      rintro rfl
      obtain ⟨val', hv', -, hk⟩ := h.waiting key m hw
      obtain rfl := some.inj (hv'.symm.trans hold)
      exact hne ⟨hk.symm, rfl⟩

section

variable (h : v.Trust X) (hunt : val.trusted = false → n ∉ v.lastLedger_ ∧ ∀ key, ¬ v.Waits key n)

include h hunt

private lemma Trust.makeCurrent :
    Ensures (v.makeCurrent a n val ((v.current_.lookup n).map fun old => (old.seq, old.ledgerID)))
      (Trust fun _ => False) := by
  unfold Validations.makeCurrent
  split
  · rename_i htr
    refine ((h.replace (n := n) htr).updateTrie ?_ htr).mono fun w hw => hw.1
    cases v.current_.lookup n with
    | none => exact lookup_insert _
    | some old =>
      rw [map_some, elim_some, (stopAcquiring_frame _ _ _).1]
      exact lookup_insert _
  · rename_i htr
    obtain ⟨hl, hwa⟩ := hunt (Bool.eq_false_of_not_eq_true htr)
    have hi : ∀ m, m ≠ n → (v.current_.insert n val).lookup m = v.current_.lookup m := fun m hm =>
      lookup_insert_ne hm
    have hs := h.set_current hl hwa hi
    exact .pure ⟨hs.last, hs.waiting, fun m hm => hm.elim⟩

private lemma Trust.addCurrent : Ensures (v.addCurrent a n val) fun r => r.2.Trust fun _ => False := by
  have hma := Trust.makeCurrent (a := a) h hunt
  unfold Validations.addCurrent
  split
  · rename_i old hold
    rw [hold] at hma
    split
    · exact hma.map fun _ hw => hw
    · exact .pure ⟨h.last, h.waiting, fun m hm => hm.elim⟩
  · rename_i hn
    rw [hn] at hma
    exact hma.map fun _ hw => hw

end

private lemma Trust.add (h : v.Trust X) (now clock : Int)
    (hunt : val.trusted = false → n ∉ v.lastLedger_ ∧ ∀ key, ¬ v.Waits key n) :
    Ensures (v.add a now clock n val) fun r => r.2.Trust fun _ => False := by
  unfold Validations.add
  split
  · exact .pure ⟨h.last, h.waiting, fun m hm => hm.elim⟩
  dsimp only
  split
  · exact .pure ⟨h.last, h.waiting, fun m hm => hm.elim⟩
  · refine Trust.addCurrent (X := X) ?_ hunt
    exact { h with }

/-! ### Runs -/

/-- No node leaves while its last ledger lags behind its current validation, and a node that has support or waits for a
ledger sends trusted validations. -/
def Call.Careful (v : Validations NodeID Ledger) : Call NodeID Ledger → Prop
  | .add _ _ n val => val.trusted = false → n ∉ v.lastLedger_ ∧ ∀ key, ¬ v.Waits key n
  | .trustChanged added removed => ∀ n, n ∈ removed → n ∉ added → v.UpToDate n
  | .getPreferred now _ => ∀ n val, v.current_.lookup n = some val → Stale v.parms_ now ⟨n, val⟩ → v.UpToDate n
  | .getNodesAfter now _ _ => ∀ n val, v.current_.lookup n = some val → Stale v.parms_ now ⟨n, val⟩ → v.UpToDate n
  | .currentTrusted now => ∀ n val, v.current_.lookup n = some val → Stale v.parms_ now ⟨n, val⟩ → v.UpToDate n
  | .flush => False
  | _ => True

def Careful (a : Adaptor Ledger) (parms : ValidationParms) (calls : List (Call NodeID Ledger)) : Prop :=
  ∀ before call after, calls = before ++ call :: after → ∀ v, run a parms before = some v → call.Careful v

private lemma Trust.step (h : v.Trust X) {call : Call NodeID Ledger} (hc : call.Careful v) :
    Ensures (call.step a v) (Trust fun _ => False) := by
  have hwe : ∀ {Y} {w : Validations NodeID Ledger}, w.Trust Y → w.Trust (fun _ => False) := fun hw =>
    ⟨hw.last, hw.waiting, fun m hm => hm.elim⟩
  have h' : v.Trust v.UpToDate := ⟨h.last, h.waiting, fun _ hn => hn⟩
  cases call with
  | add now clock n val => exact (h.add now clock hc).map fun _ hr => hr
  | trustChanged added removed => exact (h'.trustChanged hc).mono fun _ hw => hwe hw
  | expire clock =>
    refine .pure ?_
    unfold expire
    split
    · split <;> exact ⟨h.last, h.waiting, fun m hm => hm.elim⟩
    · exact ⟨h.last, h.waiting, fun m hm => hm.elim⟩
  | setSeqToKeep low high => exact .pure ⟨h.last, h.waiting, fun m hm => hm.elim⟩
  | flush => exact hc.elim
  | getPreferred now curr =>
    exact (h'.getPreferred hc curr).map fun _ hr => hwe hr
  | getNodesAfter now ledger id => exact (h'.getNodesAfter hc ledger id).map fun _ hr => hwe hr
  | currentTrusted now => exact (h'.currentTrusted hc).map fun _ hr => hwe hr
  | canValidateSeq clock s => exact .pure ⟨h.last, h.waiting, fun m hm => hm.elim⟩

/-- In a careful run only trusted nodes have support in the trie or wait for a ledger, at any time. -/
theorem run_onlyTrusted (a : Adaptor Ledger) (parms : ValidationParms) {calls : List (Call NodeID Ledger)}
    (hS : (senders calls).card < 2 ^ 32) (hcareful : Careful a parms calls) :
    ∀ before after, calls = before ++ after → ∃ v, run a parms before = some v ∧ v.OnlyTrusted := by
  have hr : ∀ before after, calls = before ++ after → Ensures (run a parms before) (Trust fun _ => False) := by
    intro before
    induction before using reverseRecOn with
    | nil =>
      intro after _
      exact .pure ⟨by simp, by simp [Waits], fun m hm => hm.elim⟩
    | append_singleton before call ih =>
      intro after hcs
      rw [append_assoc] at hcs
      rw [run, foldlM_append]
      refine bind (P := fun v => run a parms before = some v) (fun v hv => hv) fun v hv => ?_
      refine ((ih _ hcs v hv).step (hcareful before call after hcs v hv)).bind fun w hw => ?_
      exact .pure hw
  intro before after hcs
  have hs : senders before ⊆ senders calls := by
    intro n hn
    simp only [senders, List.mem_toFinset, List.mem_filterMap] at hn ⊢
    obtain ⟨call, hc, hn⟩ := hn
    exact ⟨call, by simp [hcs, hc], hn⟩
  have hy := run_spec a parms ((Finset.card_le_card hs).trans_lt hS)
  obtain ⟨v, hv, -⟩ := hy
  exact ⟨v, hv, (hr before after hcs v hv).onlyTrusted⟩

def trustedFor (id : List Nat) (signTime : Int) : Validation (List Nat) := ⟨id, id.length, signTime, 0, true, true, 0⟩

/-- A node is removed when its only ledger has been acquired. -/
theorem run_onlyTrusted_acquired :
    let calls : List (Call Nat PathLedger) := [.add 1000 0 7 (trustedFor [1] 1000), .trustChanged [] [7]]
    (senders calls).card < 2 ^ 32 ∧ Careful promptAdaptor {} calls ∧
      ∃ v, run promptAdaptor {} calls = some v ∧ v.OnlyTrusted := by
  intro calls
  have hS : (senders calls).card < 2 ^ 32 := by decide
  have hc : Careful promptAdaptor {} calls := by
    intro before call after hcs v hv
    match before, hcs with
    | [], hcs =>
      obtain ⟨rfl, -⟩ := cons.inj hcs
      intro hunt
      simp [trustedFor] at hunt
    | [_], hcs =>
      simp only [calls] at hcs
      obtain ⟨rfl, rfl, -⟩ := hcs
      intro n hn _ val ledger hval hl
      obtain rfl := mem_singleton.1 hn
      have hi : (run promptAdaptor {} ([.add 1000 0 7 (trustedFor [1] 1000)] : List (Call Nat PathLedger))).map
          (fun v => ((v.current_.lookup 7).map Validation.ledgerID, (v.lastLedger_.lookup 7).map ledgerID)) =
            some (some [1], some [1]) := by
        decide +kernel
      rw [hv, map_some, hval, hl] at hi
      simp only [map_some, some.injEq, Prod.mk.injEq] at hi
      rw [hi.1, hi.2]
    | _ :: _ :: _, hcs => simp [calls] at hcs
  obtain ⟨v, hr, htr⟩ := run_onlyTrusted promptAdaptor {} hS hc calls [] (append_nil _).symm
  exact ⟨hS, hc, v, hr, htr⟩

/-- Only the ledger `[1]` can be acquired. -/
def partialAdaptor : Adaptor PathLedger where
  acquire _ id := if id = [1] then some ⟨id⟩ else none
  order _ _ l := l
  acquire_id h := by
    split at h
    · obtain rfl := some.inj h
      exact take_length
    · simp at h
  order_perm _ _ l := .refl l

/-- A node validates the ledger `[1]` and then its child, which is not acquired.  When the node loses its trust, and
when its validation goes stale, its support for `[1]` stays in the trie. -/
theorem run_keeps_untrusted : let calls : List (Call Nat PathLedger) :=
      [.add 1000 0 7 (trustedFor [1] 1000), .add 1000 0 7 (trustedFor [1, 2] 1001)]
    (∃ v, run partialAdaptor {} (calls ++ [.trustChanged [] [7]]) = some v ∧ v.trie_.tipSupport ⟨[1]⟩ = 1 ∧
      7 ∈ v.lastLedger_ ∧ ¬ v.Trusted 7) ∧
    ∃ v, run partialAdaptor {} (calls ++ [.getPreferred 5000 ⟨[]⟩]) = some v ∧ v.trie_.tipSupport ⟨[1]⟩ = 1 ∧
      7 ∈ v.lastLedger_ ∧ ¬ v.Trusted 7 := by
  intro calls
  have hl : ∀ (last : Call Nat PathLedger) (trusted : Option Bool), trusted ≠ some true →
      (run partialAdaptor {} (calls ++ [last])).map (fun v => (v.trie_.tipSupport ⟨[1]⟩,
        (v.lastLedger_.lookup 7).isSome, (v.current_.lookup 7).map Validation.trusted)) = some (1, true, trusted) →
      ∃ v, run partialAdaptor {} (calls ++ [last]) = some v ∧ v.trie_.tipSupport ⟨[1]⟩ = 1 ∧ 7 ∈ v.lastLedger_ ∧
        ¬ v.Trusted 7 := by
    intro last trusted htr hr
    obtain ⟨v, hr, hv⟩ := map_eq_some_iff.1 hr
    simp only [Prod.mk.injEq] at hv
    refine ⟨v, hr, hv.1, lookup_isSome.1 hv.2.1, ?_⟩
    rintro ⟨val, hval, ht⟩
    rw [hval, map_some, ht] at hv
    exact htr hv.2.2.symm
  exact ⟨hl _ (some false) (by decide) (by decide +kernel), hl _ none (by decide) (by decide +kernel)⟩

end Validations

end Xrpl.Consensus

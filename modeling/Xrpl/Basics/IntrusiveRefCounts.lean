import Mathlib.Data.List.Perm.Basic
import Mathlib.Data.Nat.Bitwise
import Xrpl.Lib.Yields

/-!
# Intrusive reference counts

A word of 32 bits holds the strong count, the weak count and two flags.  Each pointer, and each call that is under way,
is an agent; an agent takes one atomic step at a time.  A thread that is told to run the partial destructor is an agent
of its own until it has called `partialDestructorFinished`.

* `Tallied`: the word counts the agents and tells who destroys the object;
* `Inv.step`: every atomic step keeps this;
* `run_destroyed_once`: along every run the object is destroyed once, when no pointer is left.
-/

namespace Xrpl.Basics

open List

/-- The fields of the word; a flag is 0 or 1. -/
structure RefCountPair where
  strong : ℕ
  weak : ℕ
  started : ℕ := 0
  finished : ℕ := 0

def kStrongDelta : ℕ := 1
def kWeakDelta : ℕ := 2 ^ 16
def kPartialDestroyStartedMask : ℕ := 2 ^ 31
def kPartialDestroyFinishedMask : ℕ := 2 ^ 30

def RefCountPair.ofField (v : ℕ) : RefCountPair := ⟨v % 2 ^ 16, v / 2 ^ 16 % 2 ^ 14, v / 2 ^ 31 % 2, v / 2 ^ 30 % 2⟩

def RefCountPair.combinedValue (p : RefCountPair) : ℕ :=
  2 ^ 31 * p.started + 2 ^ 30 * p.finished + 2 ^ 16 * p.weak + p.strong

def fetchAdd (v d : ℕ) : ℕ := (v + d) % 2 ^ 32
def fetchSub (v d : ℕ) : ℕ := (v + (2 ^ 32 - d)) % 2 ^ 32

inductive Action
  | noOp
  | partialDestroy
  | destroy
  | notify
deriving DecidableEq

/-- A pointer, or a call with what it has read: a loop of `compare_exchange_weak` the value it expects, a `wait` the
value that has to change and whether the word is loaded again after it.  A strong reference that is released may become
a weak one. -/
inductive Agent
  | strong
  | weak
  | release (toWeak : Bool) (prev : ℕ)
  | checkout (cur : ℕ)
  | partialDestructor
  | notifyOne
  | wait (old : ℕ) (reload : Bool)
  | blocked (old : ℕ) (reload : Bool)
  | load

/-- What a pointer starts, or the next step of a call; an exchange may fail, and a thread may wake up, for no reason. -/
inductive Move
  | addStrongRef
  | addWeakRef
  | releaseStrongRef
  | addWeakReleaseStrongRef
  | releaseWeakRef
  | checkoutStrongRefFromWeak
  | next (spurious : Bool)

/-- The exchange of `releaseStrongRef` and of `addWeakReleaseStrongRef`. -/
def exchange (toWeak : Bool) (prev : ℕ) : ℕ × List Agent × Action :=
  let prevVal := RefCountPair.ofField prev
  let next := if toWeak then fetchAdd prev (kWeakDelta - kStrongDelta) else fetchSub prev kStrongDelta
  let own : List Agent := if toWeak then [.weak] else []
  if prevVal.strong = 1 then
    if prevVal.weak = 0 then (next, own, if toWeak then .noOp else .destroy)
    else (next ||| kPartialDestroyStartedMask, .partialDestructor :: own, .partialDestroy)
  else (next, own, .noOp)

/-- The end of `releaseWeakRef` for the last reference. -/
def waitFinished (prev old : ℕ) : List Agent × Action :=
  if (RefCountPair.ofField prev).finished = 0 then ([.wait old false], .noOp) else ([], .destroy)

/-- The word, the agents that take the place of this one, and the action that is returned. -/
def Agent.act (v : ℕ) : Agent → Move → Option (ℕ × List Agent × Action)
  | strong, .addStrongRef => some (fetchAdd v kStrongDelta, [strong, strong], .noOp)
  | strong, .addWeakRef => some (fetchAdd v kWeakDelta, [strong, weak], .noOp)
  | weak, .addWeakRef => some (fetchAdd v kWeakDelta, [weak, weak], .noOp)
  | strong, .releaseStrongRef => some (v, [release false v], .noOp)
  | strong, .addWeakReleaseStrongRef => some (v, [release true v], .noOp)
  | weak, .checkoutStrongRefFromWeak => some (v, [checkout (RefCountPair.combinedValue ⟨1, 1, 0, 0⟩)], .noOp)
  | weak, .releaseWeakRef =>
    let next := fetchSub v kWeakDelta
    if (RefCountPair.ofField v).weak = 1 ∧ (RefCountPair.ofField v).strong = 0 then
      if (RefCountPair.ofField v).started = 0 then some (next, [wait v true], .noOp)
      else some (next, waitFinished v (fetchSub v kWeakDelta))
    else some (next, [], .noOp)
  | release toWeak prev, .next spurious =>
    if v = prev ∧ !spurious then some (exchange toWeak prev) else some (v, [release toWeak v], .noOp)
  | checkout cur, .next spurious =>
    if v = cur ∧ !spurious then some (fetchAdd cur kStrongDelta, [weak, strong], .noOp)
    else if (RefCountPair.ofField v).strong = 0 then some (v, [weak], .noOp)
    else some (v, [checkout v], .noOp)
  | partialDestructor, .next _ =>
    some (v ||| kPartialDestroyFinishedMask, if (RefCountPair.ofField v).weak = 0 then [notifyOne] else [], .noOp)
  | notifyOne, .next _ => some (v, [], .notify)
  | wait old reload, .next _ =>
    if v = old then some (v, [blocked old reload], .noOp)
    else if reload then some (v, [load], .noOp) else some (v, [], .destroy)
  | blocked old reload, .next true => some (v, [wait old reload], .noOp)
  | load, .next _ => some (v, waitFinished v (fetchSub v kWeakDelta))
  | _, _ => none

/-- `notify_one`: a thread that is blocked looks again. -/
def wakeOne : List Agent → List Agent
  | [] => []
  | .blocked old reload :: agents => .wait old reload :: agents
  | a :: agents => a :: wakeOne agents

/-- The object, with the numbers of times that the two actions were returned. -/
structure Counted where
  refCounts : ℕ := kStrongDelta
  agents : List Agent := [.strong]
  partials : ℕ := 0
  destroys : ℕ := 0

def Counted.step (s : Counted) (m : ℕ × Move) : Counted :=
  match s.agents[m.1]? with
  | none => s
  | some a =>
    match a.act s.refCounts m.2 with
    | none => s
    | some (v, new, action) =>
      { refCounts := v
        agents := new ++ if action = .notify then wakeOne (s.agents.eraseIdx m.1) else s.agents.eraseIdx m.1
        partials := s.partials + if action = .partialDestroy then 1 else 0
        destroys := s.destroys + if action = .destroy then 1 else 0 }

/-! ### The invariant -/

inductive Role
  | strong
  | weak
  | partialDestructor
  | notifier
  | waiter
deriving DecidableEq

/-- Which reference an agent owns, if any, or what it is to do. -/
def Agent.role : Agent → Role
  | strong | release _ _ => .strong
  | weak | checkout _ => .weak
  | partialDestructor => .partialDestructor
  | notifyOne => .notifier
  | wait _ _ | blocked _ _ | load => .waiter

def num (agents : List Agent) (r : Role) : ℕ := agents.countP (·.role = r)

/-- The counts fit into their fields. -/
def Counted.Fits (s : Counted) : Prop := num s.agents .strong < 2 ^ 16 ∧ num s.agents .weak < 2 ^ 14

/-- The word and the agents: the last one of the owners destroys the object, or it waits for the partial destructor. -/
def Tallied (v : ℕ) (p : RefCountPair) (n : Role → ℕ) (partials destroys : ℕ) : Prop :=
  v = 2 ^ 31 * p.started + 2 ^ 30 * p.finished + 2 ^ 16 * p.weak + p.strong ∧ p.strong < 2 ^ 16 ∧ p.weak < 2 ^ 14 ∧
    p.strong = n .strong ∧ p.weak = n .weak ∧ p.started ≤ 1 ∧ n .partialDestructor + p.finished = p.started ∧
    partials = p.started ∧ (p.started = 0 ∨ p.strong = 0) ∧ (p.strong + p.weak ≠ 0 ∨ n .waiter + destroys = 1) ∧
    (p.strong + p.weak = 0 ∨ n .waiter + destroys = 0) ∧ (destroys = 0 ∨ n .partialDestructor = 0)

/-- What a call has read: a value with a strong count for a checkout; for a thread that waits a value that changes, and
one that is blocked will be notified. -/
def Agent.Waits (p : RefCountPair) (notifiers : ℕ) : Agent → Prop
  | checkout cur => (RefCountPair.ofField cur).strong ≠ 0
  | wait old true => p.started = 0 ∧ old = 2 ^ 16
  | wait old false => old + 2 ^ 16 = 2 ^ 32 ∧ p.started = 0 ∨ old = 2 ^ 31 ∧ p.started = 1
  | blocked old reload => reload = false ∧ p.started = 1 ∧ old = 2 ^ 31 ∧ (p.finished = 1 → 0 < notifiers)
  | load => p.started = 0
  | _ => True

structure Inv (s : Counted) (p : RefCountPair) : Prop where
  tallied : Tallied s.refCounts p (num s.agents) s.partials s.destroys
  waits : ∀ a ∈ s.agents, a.Waits p (num s.agents .notifier)

variable {s : Counted} {p q : RefCountPair} {a : Agent} {i v : ℕ} {m : Move} {r : Role} {new agents : List Agent}
  {action : Action}

@[simp] lemma num_nil : num [] r = 0 := rfl

@[simp] lemma num_cons : num (a :: agents) r = num agents r + if a.role = r then 1 else 0 := by
  simp [num, countP_cons]

private lemma num_append (new agents : List Agent) (r : Role) :
    num (new ++ agents) r = num new r + num agents r := countP_append

private lemma num_eraseIdx (ha : agents[i]? = some a) (r : Role) :
    num agents r = num (agents.eraseIdx i) r + if a.role = r then 1 else 0 := by
  obtain ⟨hlt, rfl⟩ := List.getElem?_eq_some_iff.1 ha
  rw [← num_cons]
  exact ((getElem_cons_eraseIdx_perm hlt).countP_eq _).symm

private lemma num_pos (ha : a ∈ agents) : 0 < num agents a.role := countP_pos_iff.2 ⟨a, ha, by simp⟩

private lemma Agent.Waits.of_num_eq_zero {n n' : ℕ} (hw : a.Waits p n) (h : num agents .waiter = 0) (ha : a ∈ agents) :
    a.Waits q n' := by
  have hpos := num_pos ha
  cases a <;> first | exact hw | trivial | simp [Agent.role, h] at hpos

private lemma mem_of_mem_eraseIdx (ha : a ∈ agents.eraseIdx i) : a ∈ agents := (eraseIdx_sublist ..).subset ha

private lemma lor_two_pow {k : ℕ} (h : v / 2 ^ k % 2 = 0) : v ||| 2 ^ k = v + 2 ^ k := by
  have hv : v = 2 ^ (k + 1) * (v / 2 ^ k / 2) + v % 2 ^ k := by
    have h1 := Nat.div_add_mod v (2 ^ k)
    have h2 := Nat.div_add_mod (v / 2 ^ k) 2
    rw [h, Nat.add_zero] at h2
    rw [← h2, ← Nat.mul_assoc] at h1
    exact h1.symm
  have hl := Nat.mod_lt v (Nat.two_pow_pos k)
  generalize v / 2 ^ k / 2 = a, v % 2 ^ k = b at hv hl
  have hlt : 2 ^ k * 1 + b < 2 ^ (k + 1) := by
    omega
  calc v ||| 2 ^ k = (2 ^ (k + 1) * a ||| b) ||| 2 ^ k * 1 := by
        rw [← Nat.two_pow_add_eq_or_of_lt (by omega), ← hv, Nat.mul_one]
    _ = 2 ^ (k + 1) * a ||| (2 ^ k * 1 ||| b) := by rw [Nat.or_assoc, Nat.or_comm b]
    _ = v + 2 ^ k := by
        rw [← Nat.two_pow_add_eq_or_of_lt hl, ← Nat.two_pow_add_eq_or_of_lt hlt]
        omega

/-! ### Steps -/

private lemma Inv.ofField (h : Inv s p) : RefCountPair.ofField s.refCounts = p := by
  have ht := h.tallied
  rw [Tallied] at ht
  rw [RefCountPair.ofField]
  congr 1 <;> omega

/-- The numbers without the agent at work. -/
private lemma Inv.rest (h : Inv s p) (ha : s.agents[i]? = some a) :
    Tallied s.refCounts p (fun r => num (s.agents.eraseIdx i) r + if a.role = r then 1 else 0) s.partials
      s.destroys := by
  rw [← funext (num_eraseIdx ha)]
  exact h.tallied

/-- A step of an agent when nobody else waits. -/
private lemma Inv.replace (q : RefCountPair) (h : Inv s p) (ha : s.agents[i]? = some a) (hf : (s.step (i, m)).Fits)
    (hact : a.act s.refCounts m = some (v, new, action)) (hne : action ≠ .notify)
    (hn : num (s.agents.eraseIdx i) .waiter = 0)
    (ht : num new .strong + num (s.agents.eraseIdx i) .strong < 2 ^ 16 →
      num new .weak + num (s.agents.eraseIdx i) .weak < 2 ^ 14 → Tallied v q (fun r => num new r +
        num (s.agents.eraseIdx i) r) (s.partials + if action = .partialDestroy then 1 else 0)
          (s.destroys + if action = .destroy then 1 else 0))
    (hw : ∀ b ∈ new, ∀ n, b.Waits q n) : ∃ q, Inv (s.step (i, m)) q := by
  simp only [Counted.step, ha, hact, if_neg hne] at hf ⊢
  simp only [Counted.Fits, num_append] at hf
  refine ⟨q, ?_, fun b hb => ?_⟩
  · rw [funext (num_append new _)]
    exact ht hf.1 hf.2
  · rcases mem_append.1 hb with hb | hb
    · exact hw b hb _
    · exact (h.waits b (mem_of_mem_eraseIdx hb)).of_num_eq_zero hn hb

/-- Without a change of the word. -/
private lemma Inv.turn {b : Agent} (h : Inv s p) (ha : s.agents[i]? = some a) (hf : (s.step (i, m)).Fits)
    (hact : a.act s.refCounts m = some (s.refCounts, [b], .noOp)) (hr : b.role = a.role)
    (hn : num (s.agents.eraseIdx i) .waiter = 0) (hw : ∀ n, b.Waits p n) : ∃ q, Inv (s.step (i, m)) q := by
  refine h.replace p ha hf hact (by simp) hn (fun _ _ => ?_) (by simpa using hw)
  have ht := h.rest ha
  simp only [num_cons, hr]
  simpa [add_comm] using ht

private lemma Inv.strong (h : Inv s p) (ha : s.agents[i]? = some .strong) (hf : (s.step (i, m)).Fits)
    (hact : Agent.strong.act s.refCounts m = some (v, new, action)) : ∃ q, Inv (s.step (i, m)) q := by
  have ht := h.rest ha
  simp only [Tallied, Agent.role, reduceCtorEq, ↓reduceIte] at ht
  cases m with
  | addStrongRef =>
    refine h.replace { p with strong := p.strong + 1 } ha hf rfl (by simp) (by omega) ?_ (by simp [Agent.Waits])
    simp [Tallied, fetchAdd, kStrongDelta, Agent.role]
    omega
  | addWeakRef =>
    refine h.replace { p with weak := p.weak + 1 } ha hf rfl (by simp) (by omega) ?_ (by simp [Agent.Waits])
    simp [Tallied, fetchAdd, kWeakDelta, Agent.role]
    omega
  | releaseStrongRef | addWeakReleaseStrongRef => exact h.turn ha hf rfl rfl (by omega) fun _ => trivial
  | _ => cases hact

private lemma Inv.weak (h : Inv s p) (ha : s.agents[i]? = some .weak) (hf : (s.step (i, m)).Fits)
    (hact : Agent.weak.act s.refCounts m = some (v, new, action)) : ∃ q, Inv (s.step (i, m)) q := by
  have ht := h.rest ha
  simp only [Tallied, Agent.role, reduceCtorEq, ↓reduceIte] at ht
  cases m with
  | addWeakRef =>
    refine h.replace { p with weak := p.weak + 1 } ha hf rfl (by simp) (by omega) ?_ (by simp [Agent.Waits])
    simp [Tallied, fetchAdd, kWeakDelta, Agent.role]
    omega
  | checkoutStrongRefFromWeak =>
    exact h.turn ha hf rfl rfl (by omega) (by simp [Agent.Waits, RefCountPair.ofField, RefCountPair.combinedValue])
  | releaseWeakRef =>
    have hn : fetchSub s.refCounts kWeakDelta + 2 ^ 16 = s.refCounts := by
      simp only [fetchSub, kWeakDelta]
      omega
    have hr := fun hne => h.replace { p with weak := p.weak - 1 } ha hf hact hne (by omega)
    simp only [Agent.act, h.ofField, waitFinished] at hact
    split_ifs at hact with hl hs hfi <;> simp only [Option.some.injEq, Prod.mk.injEq] at hact <;>
      obtain ⟨rfl, rfl, rfl⟩ := hact <;> refine hr (by simp) ?_ ?_
    all_goals simp [Tallied, Agent.role, Agent.Waits]
    all_goals omega
  | _ => cases hact

variable {spurious : Bool}

private lemma Inv.release {toWeak : Bool} {prev : ℕ} (h : Inv s p)
    (ha : s.agents[i]? = some (.release toWeak prev)) (hf : (s.step (i, .next spurious)).Fits) :
    ∃ q, Inv (s.step (i, .next spurious)) q := by
  have ht := h.rest ha
  simp only [Tallied, Agent.role, reduceCtorEq, ↓reduceIte] at ht
  by_cases hgo : s.refCounts = prev ∧ !spurious
  case neg => exact h.turn ha hf (if_neg hgo) rfl (by omega) fun _ => trivial
  case pos =>
    have hx : (Agent.release toWeak prev).act s.refCounts (.next spurious) = some (exchange toWeak prev) := if_pos hgo
    obtain ⟨rfl, -⟩ := hgo
    have hn : (if toWeak then fetchAdd s.refCounts (kWeakDelta - kStrongDelta)
        else fetchSub s.refCounts kStrongDelta) + 1 = s.refCounts + 2 ^ 16 * toWeak.toNat := by
      cases toWeak <;> simp [fetchAdd, fetchSub, kWeakDelta, kStrongDelta] <;> omega
    rw [exchange, h.ofField] at hx
    by_cases hs : p.strong = 1
    · rw [if_pos hs] at hx
      by_cases hw : p.weak = 0
      · rw [if_pos hw] at hx
        refine h.replace ⟨0, toWeak.toNat, 0, 0⟩ ha hf hx (by cases toWeak <;> simp) (by omega) ?_
          (by cases toWeak <;> simp [Agent.Waits])
        cases toWeak <;> simp [Tallied, Agent.role] at hn ⊢ <;> omega
      · rw [if_neg hw] at hx
        refine h.replace ⟨0, p.weak + toWeak.toNat, 1, 0⟩ ha hf hx (by simp) (by omega) ?_
          (by cases toWeak <;> simp [Agent.Waits])
        have hle := toWeak.toNat_le
        rw [kPartialDestroyStartedMask, lor_two_pow (by omega)]
        cases toWeak <;> simp [Tallied, Agent.role] at hn ⊢ <;> omega
    · rw [if_neg hs] at hx
      refine h.replace ⟨p.strong - 1, p.weak + toWeak.toNat, 0, 0⟩ ha hf hx (by simp) (by omega) ?_
        (by cases toWeak <;> simp [Agent.Waits])
      cases toWeak <;> simp [Tallied, Agent.role] at hn ⊢ <;> omega

private lemma Inv.checkout {cur : ℕ} (h : Inv s p) (ha : s.agents[i]? = some (.checkout cur))
    (hf : (s.step (i, .next spurious)).Fits) : ∃ q, Inv (s.step (i, .next spurious)) q := by
  have ht := h.rest ha
  have hc : (RefCountPair.ofField cur).strong ≠ 0 := h.waits _ (mem_of_getElem? ha)
  simp only [Tallied, Agent.role, reduceCtorEq, ↓reduceIte] at ht
  by_cases hgo : s.refCounts = cur ∧ !spurious
  · have hx : (Agent.checkout cur).act s.refCounts (.next spurious) =
        some (fetchAdd cur kStrongDelta, [.weak, .strong], .noOp) := if_pos hgo
    obtain ⟨rfl, -⟩ := hgo
    rw [h.ofField] at hc
    refine h.replace { p with strong := p.strong + 1 } ha hf hx (by simp) (by omega) ?_ (by simp [Agent.Waits])
    simp [Tallied, fetchAdd, kStrongDelta, Agent.role]
    omega
  · by_cases hs : (RefCountPair.ofField s.refCounts).strong = 0
    · exact h.turn ha hf ((if_neg hgo).trans (if_pos hs)) rfl (by omega) fun _ => trivial
    · exact h.turn ha hf ((if_neg hgo).trans (if_neg hs)) rfl (by omega) fun _ => hs

private lemma Inv.partialDestructor (h : Inv s p) (ha : s.agents[i]? = some .partialDestructor) :
    ∃ q, Inv (s.step (i, .next spurious)) q := by
  have ht := h.rest ha
  simp only [Tallied, Agent.role, reduceCtorEq, ↓reduceIte] at ht
  simp only [Counted.step, ha, Agent.act, reduceCtorEq, ↓reduceIte]
  rw [h.ofField, kPartialDestroyFinishedMask, lor_two_pow (by omega)]
  refine ⟨{ p with finished := 1 }, ?_, fun b hb => ?_⟩
  · split_ifs <;> simp [Tallied, Agent.role] <;> omega
  rcases mem_append.1 hb with hb | hb
  · split_ifs at hb <;> simp_all [Agent.Waits]
  have hw := h.waits b (mem_of_mem_eraseIdx hb)
  cases b with
  | blocked old reload =>
    obtain ⟨hr, hs, hold, -⟩ := hw
    have hpos := num_pos hb
    simp only [Agent.role] at hpos
    refine ⟨hr, hs, hold, ?_⟩
    simp [show p.weak = 0 by omega, Agent.role]
  | wait old reload => cases reload <;> exact hw
  | _ => exact hw

private lemma num_wakeOne (r : Role) : num (wakeOne agents) r = num agents r := by
  fun_induction wakeOne agents with
  | case1 => rfl
  | case2 =>
    rfl
  | case3 a agents _ ih => simp [ih]

private lemma of_mem_wakeOne (ho : num agents .waiter ≤ 1) (ha : a ∈ wakeOne agents) :
    (a ∈ agents ∧ ∀ old reload, a ≠ .blocked old reload) ∨
      ∃ old reload, a = .wait old reload ∧ .blocked old reload ∈ agents := by
  fun_induction wakeOne agents with
  | case1 => simp at ha
  | case2 old reload agents =>
    simp only [num_cons, Agent.role, ↓reduceIte] at ho
    rcases mem_cons.1 ha with rfl | ha
    · exact .inr ⟨old, reload, rfl, by simp⟩
    refine .inl ⟨by simp [ha], ?_⟩
    rintro old reload rfl
    have hpos := num_pos ha
    simp only [Agent.role] at hpos
    omega
  | case3 b agents hb ih =>
    rw [num_cons] at ho
    rcases mem_cons.1 ha with rfl | ha
    · exact .inl ⟨by simp, fun old reload h => hb old reload h⟩
    · rcases ih (by omega) ha with ⟨ha, hne⟩ | ⟨old, reload, h, hblk⟩
      · exact .inl ⟨by simp [ha], hne⟩
      · exact .inr ⟨old, reload, h, by simp [hblk]⟩

private lemma Inv.notifyOne (h : Inv s p) (ha : s.agents[i]? = some .notifyOne) :
    ∃ q, Inv (s.step (i, .next spurious)) q := by
  have ht := h.rest ha
  simp only [Tallied, Agent.role] at ht
  simp only [Counted.step, ha, Agent.act, ↓reduceIte] at *
  refine ⟨p, ?_, fun b hb => ?_⟩
  · simpa [Tallied, num_wakeOne] using ht
  rcases of_mem_wakeOne (by omega) hb with ⟨hb, hne⟩ | ⟨old, reload, rfl, hblk⟩
  · have hw := h.waits b (mem_of_mem_eraseIdx hb)
    cases b with
    | blocked old reload => exact absurd rfl (hne old reload)
    | wait old reload => cases reload <;> exact hw
    | _ => exact hw
  · obtain ⟨rfl, hs, hold, -⟩ := h.waits _ (mem_of_mem_eraseIdx hblk)
    exact .inr ⟨hold, hs⟩

private lemma Inv.waiter (h : Inv s p) (ha : s.agents[i]? = some a) (hr : a.role = .waiter)
    (hf : (s.step (i, .next spurious)).Fits) (hact : a.act s.refCounts (.next spurious) = some (v, new, action)) :
    ∃ q, Inv (s.step (i, .next spurious)) q := by
  have ht := h.rest ha
  have hw := h.waits a (mem_of_getElem? ha)
  simp only [Tallied, hr, ↓reduceIte] at ht
  cases a with
  | wait old reload =>
    by_cases hold : s.refCounts = old <;> cases reload <;> simp only [Agent.Waits] at hw
    · exact h.turn ha hf (if_pos hold) rfl (by omega) fun n => ⟨rfl, by omega, by omega, by omega⟩
    · omega
    · refine h.replace p ha hf (if_neg hold) (by simp) (by omega) ?_ (by simp)
      simp [Tallied]
      omega
    · exact h.turn ha hf (if_neg hold) rfl (by omega) fun n => hw.1
  | blocked old reload =>
    obtain ⟨rfl, hs, hold, -⟩ := hw
    cases spurious
    · cases hact
    · exact h.turn ha hf rfl rfl (by omega) fun _ => .inr ⟨hold, hs⟩
  | load =>
    simp only [Agent.Waits] at hw
    have hx : Agent.load.act s.refCounts (.next spurious) =
        some (s.refCounts, [.wait (fetchSub s.refCounts kWeakDelta) false], .noOp) := by
      simp only [Agent.act, waitFinished, h.ofField, show p.finished = 0 by omega, ↓reduceIte]
    refine h.turn ha hf hx rfl (by omega) fun n => .inl ⟨?_, hw⟩
    simp only [fetchSub, kWeakDelta]
    omega
  | _ => cases hr

private lemma Inv.step (h : Inv s p) (hf : (s.step (i, m)).Fits) : ∃ q, Inv (s.step (i, m)) q := by
  cases ha : s.agents[i]? with
  | none => exact ⟨p, by simpa [Counted.step, ha] using h⟩
  | some a =>
    cases hact : a.act s.refCounts m with
    | none => exact ⟨p, by simpa [Counted.step, ha, hact] using h⟩
    | some r =>
      cases a with
      | strong => exact h.strong ha hf hact
      | weak => exact h.weak ha hf hact
      | _ =>
        obtain ⟨spurious, rfl⟩ : ∃ spurious, m = .next spurious := by cases m <;> first | exact ⟨_, rfl⟩ | cases hact
        first
          | exact h.release ha hf
          | exact h.checkout ha hf
          | exact h.partialDestructor ha
          | exact h.notifyOne ha
          | exact h.waiter ha rfl hf hact

/-! ### Runs -/

/-- How many steps a call is away from its return, if it is not blocked. -/
def Agent.stepsLeft : Agent → ℕ
  | wait _ true => 3
  | load => 2
  | wait _ false => 1
  | _ => 0

/-- With no partial destructor left, a thread that waits goes on. -/
private lemma Inv.proceeds (h : Inv s p) (ha : a ∈ s.agents) (hr : a.role = .waiter)
    (hn : num s.agents .partialDestructor = 0 ∧ num s.agents .notifier = 0) (spurious : Bool) :
    ∃ new action, a.act s.refCounts (.next spurious) = some (s.refCounts, new, action) ∧
      (action = .destroy ∨ ∃ b, new = [b] ∧ b.stepsLeft < a.stepsLeft) := by
  have hpos := num_pos ha
  have ht := h.tallied
  have hw := h.waits a ha
  rw [hr] at hpos
  rw [Tallied] at ht
  cases a with
  | wait old reload =>
    have hne : s.refCounts ≠ old := by cases reload <;> simp only [Agent.Waits] at hw <;> omega
    cases reload
    · exact ⟨_, _, if_neg hne, .inl rfl⟩
    · exact ⟨_, _, if_neg hne, .inr ⟨_, rfl, by simp [Agent.stepsLeft]⟩⟩
  | blocked old reload =>
    obtain ⟨-, hs, -, hno⟩ := hw
    omega
  | load =>
    simp only [Agent.Waits] at hw
    refine ⟨[.wait (fetchSub s.refCounts kWeakDelta) false], .noOp, ?_, .inr ⟨_, rfl, by simp [Agent.stepsLeft]⟩⟩
    simp only [Agent.act, waitFinished, h.ofField, show p.finished = 0 by omega, ↓reduceIte]
  | _ => cases hr

private lemma Inv.checked {cur : ℕ} (h : Inv s p) (ha : .checkout cur ∈ s.agents)
    (hact : (Agent.checkout cur).act s.refCounts m = some (v, new, action)) (hn : .strong ∈ new) :
    0 < num s.agents .strong := by
  have hc : (RefCountPair.ofField cur).strong ≠ 0 := h.waits _ ha
  cases m with
  | next spurious =>
    simp only [Agent.act] at hact
    split_ifs at hact with hgo hs <;> simp only [Option.some.injEq] at hact <;>
      obtain ⟨-, rfl, -⟩ := hact
    · rw [← hgo.1, h.ofField, h.tallied.2.2.2.1] at hc
      omega
    all_goals simp at hn
  | _ => cases hact

/-- In every interleaving the object is destroyed once, when all that is left are calls that have to notify; a checkout
succeeds only with a strong pointer, and nobody waits longer than for the partial destructor. -/
theorem run_destroyed_once {moves : List (ℕ × Move)}
    (hfits : Throughout Counted.step (fun s m => (s.step m).Fits) {} moves) :
    let s := moves.foldl Counted.step {}
    s.partials ≤ 1 ∧ s.destroys ≤ 1 ∧ (s.destroys = 1 ↔ ∀ a ∈ s.agents, a.role = .notifier) ∧
      (∀ cur m v new action, .checkout cur ∈ s.agents →
        (Agent.checkout cur).act s.refCounts m = some (v, new, action) → .strong ∈ new → 0 < num s.agents .strong) ∧
      (num s.agents .partialDestructor = 0 ∧ num s.agents .notifier = 0 →
        ∀ a ∈ s.agents, a.role = .waiter → ∀ spurious, ∃ new action,
          a.act s.refCounts (.next spurious) = some (s.refCounts, new, action) ∧
            (action = .destroy ∨ ∃ b, new = [b] ∧ b.stepsLeft < a.stepsLeft)) := by
  have hst : Inv {} ⟨1, 0, 0, 0⟩ := ⟨by simp [Tallied, Agent.role, kStrongDelta], by simp [Agent.Waits]⟩
  intro s
  obtain ⟨p, h⟩ : ∃ p, Inv s p :=
    hfits.foldl (I := fun s => ∃ p, Inv s p) (fun s m hs hm => hs.elim fun p h => h.step hm) ⟨_, hst⟩
  clear_value s
  have ht := h.tallied
  rw [Tallied] at ht
  refine ⟨by omega, by omega, ⟨fun hd a ha => ?_, fun hall => ?_⟩, fun cur m v new action ha => h.checked ha,
    fun hno a ha hro spurious => h.proceeds ha hro hno spurious⟩
  · have hpos := num_pos ha
    cases hro : a.role <;> rw [hro] at hpos <;> first | rfl | omega
  have hnum : ∀ r, r ≠ .notifier → num s.agents r = 0 := by
    intro r hr
    exact countP_eq_zero.2 fun a ha => by simpa [hall a ha] using hr.symm
  have hs := hnum .strong (by simp)
  have hw := hnum .weak (by simp)
  have hn := hnum .waiter (by simp)
  omega

/-- A weak pointer is released while the partial destructor runs; its thread is blocked until it is notified. -/
theorem run_destroyed_once_blocked :
    let moves : List (ℕ × Move) := [(0, .addWeakRef), (0, .releaseStrongRef), (0, .next false), (1, .releaseWeakRef),
      (0, .next false), (1, .next false), (0, .next false), (0, .next false)]
    (moves.foldl Counted.step {}).destroys = 1 ∧ (moves.foldl Counted.step {}).partials ≤ 1 := by
  refine ⟨by decide, (run_destroyed_once ?_).1⟩
  simp only [Throughout, Counted.Fits]
  decide

end Xrpl.Basics

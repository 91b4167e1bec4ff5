import Mathlib.Algebra.Order.BigOperators.Group.Finset
import Mathlib.Data.List.Sort
import Xrpl.Lib.Yields

/-!
# The job queue

Jobs wait in an ordered set.  A worker task carries no job: whoever takes it runs the first job whose type is below its
limit.  `addRefCountedJob` adds a task only if the type is below its limit, counting waiting jobs as well; `finishJob`
adds one for a job that was deferred.

* `Balanced`: the counts of each type, and the number of tasks that are not taken;
* `run_accounted`: along every run a task that is taken finds a job, and a job that may run has a task.
-/

namespace Xrpl.Core

open List Function Finset

variable {T : Type} [LinearOrder T]

structure Job (T : Type) where
  type : T
  jobIndex : ℕ
deriving DecidableEq

/-- `operator<`: a greater type comes first, then the smaller index. -/
def Job.Precedes (a b : Job T) : Prop := b.type < a.type ∨ a.type = b.type ∧ a.jobIndex < b.jobIndex

instance : DecidableRel (Job.Precedes (T := T)) := fun _ _ => inferInstanceAs (Decidable (_ ∨ _ ∧ _))

structure JobTypeData where
  waiting : ℤ := 0
  running : ℤ := 0
  deferred : ℤ := 0

/-- The queue, the worker tasks that nobody has taken, and the types of the jobs that are being done. -/
structure JobQueue (T : Type) where
  jobData : T → JobTypeData := fun _ => {}
  jobSet : List (Job T) := []
  lastJob : ℕ := 0
  tasks : ℕ := 0
  processing : List T := []

namespace JobQueue

def addRefCountedJob (limit : T → ℤ) (q : JobQueue T) (type : T) : JobQueue T :=
  let job : Job T := ⟨type, q.lastJob + 1⟩
  let data := q.jobData type
  let below : Bool := data.waiting + data.running < limit type
  { q with
    lastJob := q.lastJob + 1
    jobSet := if job ∈ q.jobSet then q.jobSet else q.jobSet.orderedInsert Job.Precedes job
    tasks := if below then q.tasks + 1 else q.tasks
    jobData := update q.jobData type
      { data with deferred := if below then data.deferred else data.deferred + 1, waiting := data.waiting + 1 } }

/-- The first job whose type is below its limit. -/
def getNextJob (limit : T → ℤ) (q : JobQueue T) : Option (Job T × JobQueue T) :=
  (q.jobSet.find? fun job => (q.jobData job.type).running < limit job.type).map fun job =>
    let data := q.jobData job.type
    (job, { q with
      jobSet := q.jobSet.erase job
      jobData := update q.jobData job.type
        { data with waiting := data.waiting - 1, running := data.running + 1 } })

def finishJob (q : JobQueue T) (type : T) : JobQueue T :=
  let data := q.jobData type
  let queue : Bool := 0 < data.deferred
  { q with
    tasks := if queue then q.tasks + 1 else q.tasks
    jobData := update q.jobData type
      { data with deferred := if queue then data.deferred - 1 else data.deferred, running := data.running - 1 } }

/-- A job is added, a worker takes a task, or it finishes one of the jobs that are being done. -/
inductive Event (T : Type)
  | add (type : T)
  | start
  | finish (worker : ℕ)

/-- There is no next state if a task finds no job. -/
def step (limit : T → ℤ) (q : JobQueue T) : Event T → Option (JobQueue T)
  | .add type => some (q.addRefCountedJob limit type)
  | .start =>
    if q.tasks = 0 then some q
    else (getNextJob limit { q with tasks := q.tasks - 1 }).map fun r =>
      { r.2 with processing := r.1.type :: r.2.processing }
  | .finish worker =>
    match q.processing[worker]? with
    | none => some q
    | some type => some { q.finishJob type with processing := q.processing.eraseIdx worker }

/-! ### Counts -/

/-- The counts of one type, with the numbers of its jobs that wait and that are being done. -/
structure Counted (limit : ℤ) (d : JobTypeData) (waits runs : ℕ) : Prop where
  waiting : d.waiting = waits
  running : d.running = runs
  le : d.running ≤ limit
  deferred : d.deferred = max 0 (d.waiting + d.running - limit)

/-- How many jobs of a type may be taken. -/
def runnable (limit : ℤ) (d : JobTypeData) : ℤ := min d.waiting (limit - d.running)

variable [Fintype T] {limit : T → ℤ} {q : JobQueue T} {type : T}

structure Balanced (limit : T → ℤ) (q : JobQueue T) : Prop where
  index_le : ∀ job ∈ q.jobSet, job.jobIndex ≤ q.lastJob
  counted : ∀ t, Counted (limit t) (q.jobData t) (q.jobSet.countP (·.type = t)) (q.processing.count t)
  tasks : (q.tasks : ℤ) = ∑ t, runnable (limit t) (q.jobData t)

private lemma sum_runnable_update (limit : T → ℤ) (data : T → JobTypeData) (type : T) (d : JobTypeData) :
    ∑ t, runnable (limit t) (update data type d t) =
      ∑ t, runnable (limit t) (data t) + (runnable (limit type) d - runnable (limit type) (data type)) := by
  have hr : ∑ t ∈ Finset.univ.erase type, runnable (limit t) (update data type d t) =
      ∑ t ∈ Finset.univ.erase type, runnable (limit t) (data t) := by
    refine sum_congr rfl fun t ht => ?_
    rw [update_of_ne (ne_of_mem_erase ht)]
  rw [← add_sum_erase _ _ (mem_univ type), update_self,
    ← add_sum_erase _ (fun t => runnable (limit t) (data t)) (mem_univ type)]
  omega

section

variable (h : Balanced limit q)

include h

/-- The counts of one type change, and the tasks with them. -/
private lemma Balanced.update {q' : JobQueue T} {d : JobTypeData} (hd : q'.jobData = update q.jobData type d)
    (hix : ∀ job ∈ q'.jobSet, job.jobIndex ≤ q'.lastJob)
    (hs : ∀ t, t ≠ type → q'.jobSet.countP (·.type = t) = q.jobSet.countP (·.type = t) ∧
      q'.processing.count t = q.processing.count t)
    (hc : Counted (limit type) d (q'.jobSet.countP (·.type = type)) (q'.processing.count type))
    (htsk : (q'.tasks : ℤ) - q.tasks = runnable (limit type) d - runnable (limit type) (q.jobData type)) :
    Balanced limit q' := by
  refine ⟨hix, fun t => ?_, ?_⟩
  · rw [hd]
    by_cases ht : t = type
    · rw [ht, update_self]
      exact hc
    · rw [update_of_ne ht, (hs t ht).1, (hs t ht).2]
      exact h.counted t
  · rw [hd, sum_runnable_update, ← h.tasks]
    omega

private lemma Balanced.addRefCountedJob (type : T) : Balanced limit (q.addRefCountedJob limit type) := by
  have hn : (⟨type, q.lastJob + 1⟩ : Job T) ∉ q.jobSet := fun hmem => by
    have : q.lastJob + 1 ≤ q.lastJob := h.index_le _ hmem
    omega
  have hp := perm_orderedInsert Job.Precedes ⟨type, q.lastJob + 1⟩ q.jobSet
  have hc := fun t => hp.countP_eq (fun job : Job T => job.type = t)
  obtain ⟨hw, hr, hle, hd⟩ := h.counted type
  refine h.update rfl (fun job hj => ?_) (fun t ht => ⟨?_, rfl⟩) ⟨?_, hr, hle, ?_⟩ ?_
  · simp only [JobQueue.addRefCountedJob, if_neg hn, hp.mem_iff, List.mem_cons] at hj ⊢
    rcases hj with rfl | hj
    · simp
    · have := h.index_le job hj
      omega
  · simp [JobQueue.addRefCountedJob, if_neg hn, hc, ht.symm]
  · simp [JobQueue.addRefCountedJob, if_neg hn, hc, hw]
  · simp only [decide_eq_true_eq]
    split_ifs <;> omega
  · simp only [JobQueue.addRefCountedJob, runnable, decide_eq_true_eq]
    split_ifs <;> omega

/-- A task that is not taken means that a job may be taken. -/
private lemma Balanced.isSome_find (htsk : q.tasks ≠ 0) :
    (q.jobSet.find? fun job => (q.jobData job.type).running < limit job.type).isSome := by
  obtain ⟨t, -, ht⟩ : ∃ t ∈ Finset.univ, 0 < runnable (limit t) (q.jobData t) := by
    by_contra hn
    push Not at hn
    have := sum_nonpos hn
    have := h.tasks
    omega
  obtain ⟨hw, -, -, -⟩ := h.counted t
  rw [runnable] at ht
  obtain ⟨job, hj, hty⟩ := countP_pos_iff.1 (show 0 < q.jobSet.countP (·.type = t) by omega)
  rw [decide_eq_true_eq] at hty
  refine find?_isSome.2 ⟨job, hj, ?_⟩
  rw [decide_eq_true_eq, hty]
  omega

private lemma Balanced.start : Yields (step limit q .start) (Balanced limit) := by
  rw [step]
  split_ifs with htsk
  · exact .pure h
  obtain ⟨job, hjob⟩ := Option.isSome_iff_exists.1 (h.isSome_find htsk)
  have hp := perm_cons_erase (mem_of_find?_eq_some hjob)
  have hc := fun t => hp.countP_eq (fun job : Job T => job.type = t)
  have hb : (q.jobData job.type).running < limit job.type := by simpa using find?_some hjob
  obtain ⟨hw, hr, hle, hd⟩ := h.counted job.type
  rw [getNextJob, hjob]
  refine .pure (h.update rfl (fun j hj => h.index_le j (mem_of_mem_erase hj)) (fun t ht => ?_) ⟨?_, ?_, ?_, ?_⟩ ?_)
  · simp [hc, ht.symm]
  · simp [hw, hc]
  · simp [hr]
  · exact hb
  · simp only [hd]
    omega
  · simp only [runnable]
    omega

private lemma Balanced.finish (worker : ℕ) : Yields (step limit q (.finish worker)) (Balanced limit) := by
  rw [step]
  cases hty : q.processing[worker]? with
  | none => exact .pure h
  | some type =>
    obtain ⟨hlt, rfl⟩ := List.getElem?_eq_some_iff.1 hty
    have hp := getElem_cons_eraseIdx_perm hlt
    have hc := fun t => hp.count_eq t
    obtain ⟨hw, hr, hle, hd⟩ := h.counted q.processing[worker]
    refine .pure (h.update rfl h.index_le (fun t ht => ⟨rfl, ?_⟩) ⟨hw, ?_, ?_, ?_⟩ ?_)
    · rw [← hc t, count_cons_of_ne ht.symm]
    · rw [← hc, count_cons_self] at hr
      simp only
      omega
    · simp only
      omega
    · simp only [decide_eq_true_eq]
      split_ifs <;> omega
    · simp only [JobQueue.finishJob, runnable, decide_eq_true_eq]
      split_ifs <;> omega

private lemma step_balanced (e : Event T) : Yields (step limit q e) (Balanced limit) := by
  cases e with
  | add type => exact .pure (h.addRefCountedJob type)
  | start => exact h.start
  | finish worker => exact h.finish worker

end

/-- Along every run a worker task finds a job, no limit is exceeded, and for each type below its limit with a job that
waits some task is left to be taken. -/
theorem run_accounted (limit : T → ℤ) (hlimit : ∀ t, 1 ≤ limit t) (events : List (Event T)) :
    ∃ q, events.foldlM (step limit) {} = some q ∧ (∀ t, (q.jobData t).running ≤ limit t ∧
        (q.jobData t).deferred = max 0 ((q.jobData t).waiting + (q.jobData t).running - limit t) ∧
        (q.jobData t).waiting = q.jobSet.countP (·.type = t)) ∧
      (q.tasks : ℤ) = ∑ t, min (q.jobData t).waiting (limit t - (q.jobData t).running) ∧
      (q.tasks ≠ 0 → (getNextJob limit q).isSome) ∧
      ∀ t, 0 < (q.jobData t).waiting → (q.jobData t).running < limit t → q.tasks ≠ 0 := by
  have hst : Balanced limit ({} : JobQueue T) := by
    have hpos := fun t => show 0 ≤ limit t by have := hlimit t; omega
    refine ⟨fun job hj => (nomatch hj), fun t => ⟨rfl, rfl, hpos t, ?_⟩, ?_⟩
    · have := hpos t
      simp only
      omega
    · exact (sum_eq_zero fun t _ => min_eq_left (by simpa using hpos t)).symm
  obtain ⟨q, hr, h⟩ := Yields.foldlM (fun e _ q h => step_balanced h e) hst (l := events)
  refine ⟨q, hr, fun t => ⟨(h.counted t).le, (h.counted t).deferred, (h.counted t).waiting⟩, h.tasks, fun ht => ?_,
    fun t hwts hb ht => ?_⟩
  · rw [getNextJob, Option.isSome_map]
    exact h.isSome_find ht
  have hnn : ∀ t ∈ Finset.univ, 0 ≤ runnable (limit t) (q.jobData t) := by
    intro t _
    obtain ⟨hw, -, hle, -⟩ := h.counted t
    rw [runnable]
    omega
  have hle := single_le_sum hnn (mem_univ t)
  rw [← h.tasks, runnable] at hle
  omega

/-- Two jobs of a type that runs one at a time: the second one is deferred until the first one is done. -/
theorem run_accounted_deferred :
    ∃ q, ([.add 0, .add 0, .start, .finish 0] : List (Event (Fin 1))).foldlM (step fun _ => 1) {} = some q ∧
      (q.tasks : ℤ) = ∑ t, min (q.jobData t).waiting (1 - (q.jobData t).running) := by
  obtain ⟨q, hr, -, ht, -⟩ := run_accounted (T := Fin 1) (fun _ => 1) (fun _ => le_rfl)
    [.add 0, .add 0, .start, .finish 0]
  exact ⟨q, hr, ht⟩

end JobQueue

end Xrpl.Core

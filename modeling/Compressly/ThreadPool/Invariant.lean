/-
# `Compressly.ThreadPool.Invariant` — a job in progress

A task goes through three stages: its call starts, it finishes, and it is
settled, that is, an exception has been recorded.  `passed` counts in the log
the events by which an index passes a stage, `pending` the workers that hold the
index and have not passed it.  While a job is in progress (`Inside`) the two
add up to 1 for every index handed out, and

    outstanding_ + nextIndex_  =  taskCount_ + busy workers

A step of a worker changes the summands of that worker, and the counters with
them: `Moves` is what it has to keep, `Inside.move` what follows.  `Protocol` has
the steps of the caller and the runs.
-/
import Compressly.ThreadPool.Basic

namespace Compressly.ThreadPool

open Threads

variable {E : Type} {n : Nat} {jobs : Nat → Job} {k : Nat} {log : List (Event E)} {s s' : State n E}

/-! ## What the log says -/

inductive Stage
  | start
  | finish
  | settle
deriving DecidableEq

/-- The job an event belongs to; of a start, the one whose function was read. -/
def Event.job : Event E → Option Nat
  | .start _ seen => seen
  | .finish task _ => task.job
  | .record task _ => task.job
  | .call _ | .returned _ _ | .woke | .leave _ | .stop => none

/-- By this event index `i` of job `k` passes the stage. -/
def Event.passes (stage : Stage) (k i : Nat) : Event E → Bool
  | .start task seen => stage = .start ∧ seen = some k ∧ task.index = i
  | .finish task none => stage ≠ .start ∧ task.job = some k ∧ task.index = i
  | .finish task (some _) => stage = .finish ∧ task.job = some k ∧ task.index = i
  | .record task _ => stage = .settle ∧ task.job = some k ∧ task.index = i
  | .call _ | .returned _ _ | .woke | .leave _ | .stop => false

/-- A call of job `k` throws. -/
def Event.throws (k : Nat) : Event E → Bool
  | .finish task (some _) => task.job = some k
  | _ => false

/-- The index of job `k` that is settled, and its exception. -/
def Event.settles (k : Nat) : Event E → Option (Nat × Option E)
  | .finish task none => if task.job = some k then some (task.index, none) else none
  | .record task e => if task.job = some k then some (task.index, some e) else none
  | _ => none

/-- How often index `i` of job `k` has passed a stage. -/
def passed (stage : Stage) (k i : Nat) (log : List (Event E)) : Nat :=
  log.countP (Event.passes stage k i)

/-- How many calls of job `k` have thrown. -/
def thrown (k : Nat) (log : List (Event E)) : Nat := log.countP (Event.throws k)

/-- The settled indices of job `k`, in order. -/
def settled (k : Nat) (log : List (Event E)) : List (Nat × Option E) :=
  log.filterMap (Event.settles k)

/-- The exceptions recorded in job `k`, in order. -/
def recorded (k : Nat) (log : List (Event E)) : List E := (settled k log).filterMap Prod.snd

theorem passed_snoc (stage : Stage) (k i : Nat) (log : List (Event E)) (e : Event E) :
    passed stage k i (log ++ [e]) = passed stage k i log + (e.passes stage k i).toNat := by
  rw [passed, List.countP_append, List.countP_singleton]
  cases h : e.passes stage k i with
  | false => rfl
  | true => rfl

theorem thrown_snoc (k : Nat) (log : List (Event E)) (e : Event E) :
    thrown k (log ++ [e]) = thrown k log + (e.throws k).toNat := by
  rw [thrown, List.countP_append, List.countP_singleton]
  cases h : e.throws k with
  | false => rfl
  | true => rfl

theorem settled_snoc (k : Nat) (log : List (Event E)) (e : Event E) :
    settled k (log ++ [e]) = settled k log ++ (e.settles k).toList := by
  rw [settled, List.filterMap_append, List.filterMap_cons, List.filterMap_nil]
  cases e.settles k with
  | none => rfl
  | some p => rfl

/-- Only an exception that is recorded shows. -/
theorem recorded_snoc_of_none {e : Event E} (h : ∀ p ∈ e.settles k, p.2 = none)
    (log : List (Event E)) : recorded k (log ++ [e]) = recorded k log := by
  rw [recorded, settled_snoc, List.filterMap_append, recorded]
  cases hs : e.settles k with
  | none => exact List.append_nil _
  | some p =>
      have hp := h p hs
      simp [hp]

/-- An event of another job. -/
theorem Event.of_job_ne {e : Event E} (h : e.job ≠ some k) :
    (∀ stage i, e.passes stage k i = false) ∧ e.throws k = false ∧ e.settles k = none := by
  cases e with
  | start task seen =>
      have hseen : seen ≠ some k := h
      simp [passes, throws, settles, hseen]
  | finish task outcome =>
      have htask : task.job ≠ some k := h
      cases outcome with
      | none => simp [passes, throws, settles, htask]
      | some e => simp [passes, throws, settles, htask]
  | record task e =>
      have htask : task.job ≠ some k := h
      simp [passes, throws, settles, htask]
  | call k' => exact ⟨fun _ _ => rfl, rfl, rfl⟩
  | returned k' error => exact ⟨fun _ _ => rfl, rfl, rfl⟩
  | woke => exact ⟨fun _ _ => rfl, rfl, rfl⟩
  | leave task => exact ⟨fun _ _ => rfl, rfl, rfl⟩
  | stop => exact ⟨fun _ _ => rfl, rfl, rfl⟩

/-- What the log says of a job after an event of another. -/
theorem snoc_of_job_ne {e : Event E} (h : e.job ≠ some k) (log : List (Event E)) :
    (∀ stage i, passed stage k i (log ++ [e]) = passed stage k i log) ∧
      thrown k (log ++ [e]) = thrown k log ∧ settled k (log ++ [e]) = settled k log := by
  obtain ⟨hpasses, hthrows, hsettles⟩ := Event.of_job_ne h
  refine ⟨fun stage i => ?_, ?_, ?_⟩
  · rw [passed_snoc, hpasses]
    rfl
  · rw [thrown_snoc, hthrows]
    rfl
  · rw [settled_snoc, hsettles]
    exact List.append_nil _

/-! ## What the workers hold -/

def Worker.task? : Worker E → Option Task
  | .waiting => none
  | .taken task => some task
  | .running task _ => some task
  | .threw task _ => some task
  | .finished task => some task
  | .exited => none

/-- 1 for a worker that holds index `i` and has not passed the stage. -/
def pending (stage : Stage) (i : Nat) : Worker E → Nat
  | .taken task => if task.index = i then 1 else 0
  | .running task _ => if stage ≠ .start ∧ task.index = i then 1 else 0
  | .threw task _ => if stage = .settle ∧ task.index = i then 1 else 0
  | .waiting | .finished _ | .exited => 0

/-- 1 for a worker whose task is not yet counted off. -/
def busy (x : Worker E) : Nat := x.task?.isSome.toNat

def throwing : Worker E → Nat
  | .threw _ _ => 1
  | _ => 0

theorem busy_eq_zero_iff {x : Worker E} : busy x = 0 ↔ x.task? = none := by
  unfold busy
  cases x.task? with
  | none => simp
  | some task => simp

theorem pending_of_free {x : Worker E} (h : x.task? = none) (stage : Stage) (i : Nat) :
    pending stage i x = 0 := by
  cases x with
  | waiting => rfl
  | exited => rfl
  | taken task => cases h
  | running task seen => cases h
  | threw task e => cases h
  | finished task => rfl

theorem throwing_of_free {x : Worker E} (h : x.task? = none) : throwing x = 0 := by
  cases x with
  | threw task e => cases h
  | waiting => rfl
  | exited => rfl
  | taken task => rfl
  | running task seen => rfl
  | finished task => rfl

/-! ## The invariant -/

/-- 1 for the indices below `count`. -/
def below (count i : Nat) : Nat := if i < count then 1 else 0

theorem below_succ (count i : Nat) :
    below (count + 1) i = below count i + if count = i then 1 else 0 := by
  unfold below
  split <;> split <;> split <;> omega

/-- What holds while job `k` is in progress. -/
structure Inside (jobs : Nat → Job) (k : Nat) (log : List (Event E)) (s : State n E) : Prop where
  job : s.pool.job = some k
  taskCount : s.pool.taskCount = (jobs k).count
  stopping : s.pool.stopping = false
  nextIndex_le : s.pool.nextIndex ≤ s.pool.taskCount
  outstanding_le : s.pool.outstanding ≤ s.pool.taskCount
  outstanding : s.pool.outstanding + s.pool.nextIndex = s.pool.taskCount + total busy s.workers
  tasks : ∀ w task, (s.workers w).task? = some task → task.job = some k
  seen : ∀ w task seen, s.workers w = .running task seen → seen = some k
  passed : ∀ stage i, passed stage k i log + total (pending stage i) s.workers
    = below s.pool.nextIndex i
  firstError : s.pool.firstError = (recorded k log).head?
  thrown : thrown k log = (recorded k log).length + total throwing s.workers

/-- What holds between jobs: the pool is as it was constructed, but for `stopping_`. -/
structure Idle (s : State n E) : Prop where
  pool : s.pool = { stopping := s.pool.stopping }
  free : ∀ w, (s.workers w).task? = none

/-- Every index has passed every stage, once, and there was no other. -/
def Complete (jobs : Nat → Job) (log : List (Event E)) (k : Nat) : Prop :=
  ∀ stage i, passed stage k i log = below (jobs k).count i

structure Untouched (log : List (Event E)) (k : Nat) : Prop where
  passed : ∀ stage i, passed stage k i log = 0
  thrown : thrown k log = 0
  settled : settled k log = []

def Caller.number : Caller → Nat
  | .idle k | .inside k | .joining k => k

structure Inv (jobs : Nat → Job) (log : List (Event E)) (s : State n E) : Prop where
  past : ∀ j < s.caller.number, Complete jobs log j
  future : ∀ j, s.caller.number < j → Untouched log j
  present : match s.caller with
    | .idle k => Idle s ∧ s.pool.stopping = false ∧ Untouched log k
    | .inside k => Inside jobs k log s
    | .joining k => Idle s ∧ Untouched log k

/-! ## A step of a worker -/

/-- What a step of worker `w` has to keep, for the job in progress: it changes the summands
of one worker and the counters with them. -/
structure Moves (jobs : Nat → Job) (k : Nat) (log : List (Event E)) (s : State n E) (w : Fin n)
    (e : Event E) (pool : Pool E) (x : Worker E) : Prop where
  job : pool.job = s.pool.job
  taskCount : pool.taskCount = s.pool.taskCount
  stopping : pool.stopping = s.pool.stopping
  nextIndex_le : pool.nextIndex ≤ pool.taskCount
  outstanding_le : pool.outstanding ≤ s.pool.outstanding
  outstanding : pool.outstanding + pool.nextIndex + busy (s.workers w)
    = s.pool.outstanding + s.pool.nextIndex + busy x
  task : ∀ task, x.task? = some task → task.job = some k
  seen : ∀ task seen, x = .running task seen → seen = some k
  passes : ∀ stage i, (e.passes stage k i).toNat + pending stage i x + below s.pool.nextIndex i
    = pending stage i (s.workers w) + below pool.nextIndex i
  firstError : pool.firstError = (recorded k (log ++ [e])).head?
  throws : (e.throws k).toNat + (recorded k log).length + throwing (s.workers w)
    = (recorded k (log ++ [e])).length + throwing x

theorem Inside.move {w : Fin n} {e : Event E} {pool : Pool E} {x : Worker E}
    (h : Inside jobs k log s) (hm : Moves jobs k log s w e pool x) :
    Inside jobs k (log ++ [e]) (s.put w (pool, x)) := by
  have hw : ∀ v, (s.put w (pool, x)).workers v = if v = w then x else s.workers v := by
    intro v
    exact Function.update_apply s.workers w x v
  refine
    { job := hm.job.trans h.job
      taskCount := hm.taskCount.trans h.taskCount
      stopping := hm.stopping.trans h.stopping
      nextIndex_le := hm.nextIndex_le
      outstanding_le := ?_
      outstanding := ?_
      tasks := fun v task hv => ?_
      seen := fun v task seen hv => ?_
      passed := fun stage i => ?_
      firstError := hm.firstError
      thrown := ?_ }
  · change pool.outstanding ≤ pool.taskCount
    rw [hm.taskCount]
    exact hm.outstanding_le.trans h.outstanding_le
  · have htotal := total_update busy s.workers w x
    have hlocal := hm.outstanding
    have hglobal := h.outstanding
    have htask := hm.taskCount
    change pool.outstanding + pool.nextIndex
      = pool.taskCount + total busy (Function.update s.workers w x)
    omega
  · rw [hw] at hv
    by_cases hvw : v = w
    · rw [if_pos hvw] at hv
      exact hm.task task hv
    · rw [if_neg hvw] at hv
      exact h.tasks v task hv
  · rw [hw] at hv
    by_cases hvw : v = w
    · rw [if_pos hvw] at hv
      exact hm.seen task seen hv
    · rw [if_neg hvw] at hv
      exact h.seen v task seen hv
  · have htotal := total_update (pending stage i) s.workers w x
    have hlocal := hm.passes stage i
    have hglobal := h.passed stage i
    rw [passed_snoc]
    change _ + total (pending stage i) (Function.update s.workers w x) = below pool.nextIndex i
    omega
  · have htotal := total_update throwing s.workers w x
    have hlocal := hm.throws
    have hglobal := h.thrown
    rw [thrown_snoc]
    change _ = _ + total throwing (Function.update s.workers w x)
    omega

/-- The top of the loop, reached by a worker that has settled what it held. -/
theorem Inside.moves_take (h : Inside jobs k log s) {w : Fin n} {e : Event E} (he : e.job = none)
    (hpending : ∀ stage i, pending stage i (s.workers w) = 0)
    (hthrowing : throwing (s.workers w) = 0) {outstanding : Nat}
    (hbusy : outstanding + busy (s.workers w) = s.pool.outstanding) :
    Moves jobs k log s w e ({ s.pool with outstanding := outstanding } : Pool E).take.1
      ({ s.pool with outstanding := outstanding } : Pool E).take.2 := by
  have hne : e.job ≠ some k := by simp [he]
  obtain ⟨hpasses, hthrows, -⟩ := Event.of_job_ne hne
  obtain ⟨-, -, hsettled⟩ := snoc_of_job_ne hne log
  have hrecorded : recorded k (log ++ [e]) = recorded k log := by
    rw [recorded, hsettled, recorded]
  have hnext := h.nextIndex_le
  have hcount := h.taskCount
  have hlt := (jobs k).count_lt
  unfold Pool.take
  rw [if_neg (by simp [h.stopping])]
  by_cases hmore : s.pool.nextIndex < s.pool.taskCount
  · rw [if_pos hmore]
    have hsucc : u64 (s.pool.nextIndex + 1) = s.pool.nextIndex + 1 := u64_of_lt (by omega)
    refine
      { job := rfl
        taskCount := rfl
        stopping := rfl
        nextIndex_le := by simp only [hsucc]; omega
        outstanding_le := by simp only []; omega
        outstanding := ?_
        task := fun task htask => ?_
        seen := fun _ _ hx => by cases hx
        passes := fun stage i => ?_
        firstError := by rw [hrecorded]; exact h.firstError
        throws := ?_ }
    · change outstanding + u64 (s.pool.nextIndex + 1) + busy (s.workers w)
        = s.pool.outstanding + s.pool.nextIndex + 1
      omega
    · cases htask
      exact h.job
    · change (e.passes stage k i).toNat + (if s.pool.nextIndex = i then 1 else 0)
          + below s.pool.nextIndex i
        = pending stage i (s.workers w) + below (u64 (s.pool.nextIndex + 1)) i
      rw [hpasses, hpending, hsucc, below_succ, Bool.toNat_false]
      omega
    · rw [hrecorded, hthrows, hthrowing]
      exact Nat.zero_add _
  · rw [if_neg hmore]
    refine
      { job := rfl
        taskCount := rfl
        stopping := rfl
        nextIndex_le := hnext
        outstanding_le := by simp only []; omega
        outstanding := ?_
        task := fun _ htask => by cases htask
        seen := fun _ _ hx => by cases hx
        passes := fun stage i => ?_
        firstError := by rw [hrecorded]; exact h.firstError
        throws := ?_ }
    · change outstanding + s.pool.nextIndex + busy (s.workers w)
        = s.pool.outstanding + s.pool.nextIndex + 0
      omega
    · rw [hpasses, hpending]
      rfl
    · rw [hrecorded, hthrows, hthrowing]
      exact Nat.zero_add _

theorem Inside.moves_enter (h : Inside jobs k log s) {w : Fin n} (hw : s.workers w = .waiting) :
    Moves jobs k log s w .woke s.pool.take.1 s.pool.take.2 :=
  h.moves_take rfl (fun stage i => by rw [hw]; rfl) (by rw [hw]; rfl) (by rw [hw]; rfl)

/-- The counter is not 0 where it is decremented: a busy worker is counted. -/
theorem Inside.moves_leave (h : Inside jobs k log s) {w : Fin n} {task : Task}
    (hw : s.workers w = .finished task) :
    Moves jobs k log s w (.leave task) s.pool.decrement.take.1 s.pool.decrement.take.2 := by
  have hbusy : busy (s.workers w) = 1 := by
    rw [hw]
    rfl
  have htotal : 1 ≤ total busy s.workers := by
    by_contra hzero
    have hfree := total_eq_zero_iff.mp (by omega : total busy s.workers = 0) w
    omega
  have hout := h.outstanding
  have hle := h.outstanding_le
  have hnext := h.nextIndex_le
  have hlt := (jobs k).count_lt
  have hcount := h.taskCount
  have hdecrement : s.pool.decrement
      = { s.pool with outstanding := s.pool.outstanding - 1 } := by
    have hvalue : u64 (s.pool.outstanding + (2 ^ 64 - 1)) = s.pool.outstanding - 1 := by
      unfold u64
      omega
    rw [Pool.decrement, hvalue]
  rw [hdecrement]
  exact h.moves_take rfl (fun stage i => by rw [hw]; rfl) (by rw [hw]; rfl) (by omega)

/-- A step with a task in hand, which leaves the counters alone. -/
theorem Inside.moves_on (h : Inside jobs k log s) {w : Fin n} {task : Task} {e : Event E}
    {x : Worker E} {firstError : Option E} (hold : (s.workers w).task? = some task)
    (hnew : x.task? = some task) (hseen : ∀ task seen, x = .running task seen → seen = some k)
    (hpasses : ∀ stage i, (e.passes stage k i).toNat + pending stage i x
      = pending stage i (s.workers w))
    (hfirst : firstError = (recorded k (log ++ [e])).head?)
    (hthrows : (e.throws k).toNat + (recorded k log).length + throwing (s.workers w)
      = (recorded k (log ++ [e])).length + throwing x) :
    Moves jobs k log s w e { s.pool with firstError := firstError } x where
  job := rfl
  taskCount := rfl
  stopping := rfl
  nextIndex_le := h.nextIndex_le
  outstanding_le := Nat.le_refl _
  outstanding := by rw [busy, busy, hold, hnew]
  task := fun task' htask => by
    rw [hnew] at htask
    cases htask
    exact h.tasks w task hold
  seen := hseen
  passes := fun stage i => by rw [hpasses]
  firstError := hfirst
  throws := hthrows

/-- The read of `job_`: it still points to the function of the job of the index. -/
theorem Inside.moves_start (h : Inside jobs k log s) {w : Fin n} {task : Task}
    (hw : s.workers w = .taken task) :
    Moves jobs k log s w (.start task s.pool.job) s.pool (.running task s.pool.job) := by
  have hrecorded := recorded_snoc_of_none (k := k) (e := .start task s.pool.job)
    (fun p hp => by cases hp) log
  refine h.moves_on (by rw [hw]; rfl) rfl (fun task' seen hx => ?_) (fun stage i => ?_) ?_ ?_
  · cases hx
    exact h.job
  · rw [hw]
    simp only [Event.passes, pending, h.job]
    cases stage <;> by_cases hi : task.index = i <;> simp [hi]
  · rw [hrecorded]
    exact h.firstError
  · rw [hrecorded, hw]
    simp [Event.throws, throwing]

theorem Inside.moves_finish (h : Inside jobs k log s) {w : Fin n} {task : Task}
    {seen : Option Nat} (outcome : Option E) (hw : s.workers w = .running task seen) :
    Moves jobs k log s w (.finish task outcome) s.pool (afterCall task outcome) := by
  have hold : (s.workers w).task? = some task := by
    rw [hw]
    rfl
  have htask : task.job = some k := h.tasks w task hold
  cases outcome with
  | none =>
      have hrecorded := recorded_snoc_of_none (k := k) (e := .finish task none)
        (fun p hp => by simp [Event.settles, htask] at hp; simp [← hp]) log
      refine h.moves_on hold rfl (fun task' seen hx => by cases hx) (fun stage i => ?_) ?_ ?_
      · rw [hw]
        simp only [Event.passes, pending, afterCall, htask]
        cases stage <;> by_cases hi : task.index = i <;> simp [hi]
      · rw [hrecorded]
        exact h.firstError
      · rw [hrecorded, hw]
        simp [Event.throws, throwing, afterCall]
  | some e =>
      have hrecorded := recorded_snoc_of_none (k := k) (e := .finish task (some e))
        (fun p hp => by cases hp) log
      refine h.moves_on hold rfl (fun task' seen hx => by cases hx) (fun stage i => ?_) ?_ ?_
      · rw [hw]
        simp only [Event.passes, pending, afterCall, htask]
        cases stage <;> by_cases hi : task.index = i <;> simp [hi]
      · rw [hrecorded]
        exact h.firstError
      · rw [hrecorded, hw]
        simp [Event.throws, throwing, afterCall, htask, Nat.add_comm]

theorem Inside.moves_record (h : Inside jobs k log s) {w : Fin n} {task : Task} {e : E}
    (hw : s.workers w = .threw task e) :
    Moves jobs k log s w (.record task e) (s.pool.record e) (.finished task) := by
  have hold : (s.workers w).task? = some task := by
    rw [hw]
    rfl
  have htask : task.job = some k := h.tasks w task hold
  have hrecorded : recorded k (log ++ [.record task e]) = recorded k log ++ [e] := by
    rw [recorded, settled_snoc, List.filterMap_append, recorded]
    simp [Event.settles, htask]
  refine h.moves_on hold rfl (fun task' seen hx => by cases hx) (fun stage i => ?_) ?_ ?_
  · rw [hw]
    simp only [Event.passes, pending, htask]
    cases stage <;> by_cases hi : task.index = i <;> simp [hi]
  · rw [hrecorded, List.head?_append, ← h.firstError]
    rfl
  · rw [hrecorded, hw, List.length_append]
    simp [Event.throws, throwing]

end Compressly.ThreadPool

/-
# `Compressly.ThreadPool.Basic` — the thread pool, as the source computes it

The workers, and a caller that issues one `forEach` after another.  What a
thread does while it holds `mutex_` is one step; the call of a task, made
without the lock, is a start and a finish.

    forEach       beginJob   sets the counters and `job_`
                  endJob     when `outstanding_` is 0 again
    workerLoop    take       at the top of the loop: the next index, or wait
                  start      `job_` is read, without the lock, and called
                  finish     the call returns or throws
                  record     the handler, in a lock of its own
                  leave      the decrement, and on to the top of the loop

A thread in `wait` may look at its condition at any time: so wake-ups may be
spurious, and whether it was notified does not matter.

Definitions only.
-/
import Compressly.Format
import Compressly.Lib.Threads

namespace Compressly.ThreadPool

open Threads

-- any exceptions, any number of workers
variable {E : Type} {n : Nat}

/-! ## The fields of the pool -/

/-- `job_` is a pointer to the function of a `forEach`; here the number of that call. -/
structure Pool (E : Type) where
  job : Option Nat := none
  nextIndex : Nat := 0
  taskCount : Nat := 0
  outstanding : Nat := 0
  firstError : Option E := none
  stopping : Bool := false

/-- An index that was handed out, and what `job_` was then. -/
structure Task where
  job : Option Nat
  index : Nat
deriving DecidableEq

inductive Worker (E : Type)
  /-- At the top of the loop, or before it. -/
  | waiting
  /-- The mutex is released, `job_` not yet read. -/
  | taken (task : Task)
  /-- In the call, of the function that was read from `job_`. -/
  | running (task : Task) (seen : Option Nat)
  /-- In the handler, before its lock. -/
  | threw (task : Task) (e : E)
  /-- Before the lock of the decrement. -/
  | finished (task : Task)
  | exited

inductive Caller
  /-- Before the `forEach` of this number. -/
  | idle (k : Nat)
  /-- Waiting in it. -/
  | inside (k : Nat)
  /-- In the destructor. -/
  | joining (k : Nat)
deriving DecidableEq

/-- The `count` of a `forEach`. -/
structure Job where
  count : Nat
  count_lt : count < 2 ^ 64 := by decide

/-! ## What is done under the lock -/

def Pool.beginJob (p : Pool E) (k : Nat) (job : Job) : Pool E :=
  { p with
    job := some k, nextIndex := 0, taskCount := job.count, outstanding := job.count,
    firstError := none }

/-- The exception is what `firstError` was before. -/
def Pool.endJob (p : Pool E) : Pool E :=
  { p with job := none, taskCount := 0, nextIndex := 0, firstError := none }

/-- The top of the loop: what the worker is then. -/
def Pool.take (p : Pool E) : Pool E × Worker E :=
  if p.stopping then (p, .exited)
  else if p.nextIndex < p.taskCount then
    ({ p with nextIndex := u64 (p.nextIndex + 1) }, .taken { job := p.job, index := p.nextIndex })
  else (p, .waiting)

def Pool.record (p : Pool E) (e : E) : Pool E := { p with firstError := p.firstError.or (some e) }

/-- `--outstanding_`, which wraps below 0. -/
def Pool.decrement (p : Pool E) : Pool E :=
  { p with outstanding := u64 (p.outstanding + (2 ^ 64 - 1)) }

def Pool.stop (p : Pool E) : Pool E := { p with stopping := true }

/-! ## Steps -/

/-- What a step shows. -/
inductive Event (E : Type)
  | call (k : Nat)
  /-- `forEach` returns, or rethrows. -/
  | returned (k : Nat) (error : Option E)
  /-- A look at the condition of a `wait`. -/
  | woke
  /-- The function that was read is passed the index. -/
  | start (task : Task) (seen : Option Nat)
  | finish (task : Task) (outcome : Option E)
  | record (task : Task) (e : E)
  | leave (task : Task)
  | stop

structure State (n : Nat) (E : Type) where
  pool : Pool E
  workers : Fin n → Worker E
  caller : Caller

/-- A worker moves on. -/
def State.put (s : State n E) (w : Fin n) (next : Pool E × Worker E) : State n E :=
  { s with pool := next.1, workers := Function.update s.workers w next.2 }

/-- A call that returned is followed by the decrement, one that threw by the handler. -/
def afterCall (task : Task) : Option E → Worker E
  | none => .finished task
  | some e => .threw task e

inductive Step (jobs : Nat → Job) : State n E → Event E → State n E → Prop
  | call {s : State n E} {k : Nat} : s.caller = .idle k → (jobs k).count ≠ 0 →
      Step jobs s (.call k) { s with pool := s.pool.beginJob k (jobs k), caller := .inside k }
  /-- `if (count == 0) return;` -/
  | skip {s : State n E} {k : Nat} : s.caller = .idle k → (jobs k).count = 0 →
      Step jobs s (.returned k none) { s with caller := .idle (k + 1) }
  /-- The condition of `jobFinished_` does not hold yet. -/
  | await {s : State n E} {k : Nat} : s.caller = .inside k → s.pool.outstanding ≠ 0 →
      Step jobs s .woke s
  | done {s : State n E} {k : Nat} : s.caller = .inside k → s.pool.outstanding = 0 →
      Step jobs s (.returned k s.pool.firstError)
        { s with pool := s.pool.endJob, caller := .idle (k + 1) }
  | enter {s : State n E} {w : Fin n} : s.workers w = .waiting →
      Step jobs s .woke (s.put w s.pool.take)
  | start {s : State n E} {w : Fin n} {task : Task} : s.workers w = .taken task →
      Step jobs s (.start task s.pool.job) (s.put w (s.pool, .running task s.pool.job))
  | finish {s : State n E} {w : Fin n} {task : Task} {seen : Option Nat} (outcome : Option E) :
      s.workers w = .running task seen →
      Step jobs s (.finish task outcome) (s.put w (s.pool, afterCall task outcome))
  | record {s : State n E} {w : Fin n} {task : Task} {e : E} : s.workers w = .threw task e →
      Step jobs s (.record task e) (s.put w (s.pool.record e, .finished task))
  | leave {s : State n E} {w : Fin n} {task : Task} : s.workers w = .finished task →
      Step jobs s (.leave task) (s.put w s.pool.decrement.take)
  | stop {s : State n E} {k : Nat} : s.caller = .idle k →
      Step jobs s .stop { s with pool := s.pool.stop, caller := .joining k }

/-- A pool after its constructor, and the calls that will be made of it. -/
def machine (n : Nat) (E : Type) (jobs : Nat → Job) : Machine (State n E) (Event E) where
  start s := s = { pool := {}, workers := fun _ => .waiting, caller := .idle 0 }
  step := Step jobs

end Compressly.ThreadPool

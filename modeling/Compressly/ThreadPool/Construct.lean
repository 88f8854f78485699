/-
# `Compressly.ThreadPool.Construct` — the constructor, when a thread cannot be created

The constructor starts the workers one after another, and `std::thread` may
throw at any of them.  Its unwinding then destroys the members that exist, the
last one first, and does not run `~ThreadPool`: nobody tells the started workers
to stop, and nobody joins them.  The condition variable goes before the threads.
A worker that waits on it by then is never woken, and its destruction, which the
standard leaves undefined there, waits for the worker.  Otherwise the vector of
threads is destroyed, and a thread that is still joinable ends the process.

    the first creation fails     no thread exists, the exception propagates
    a later creation fails       a hang, if a started worker waits, and
                                 `std::terminate` if none does
                                                          (`construct_of_fails`)
-/
import Compressly.Format

namespace Compressly.ThreadPool

/-! ## How a run ends that may end the process -/

/-- An exception, as far as handlers tell them apart. -/
inductive Exception where
  | badAlloc
  /-- Any other `std::exception`, with its `what()`. -/
  | standard (what : String)
  | other
deriving DecidableEq, Repr

/-- Why a function does not return. -/
inductive Stop where
  | exception (e : Exception)
  /-- `std::terminate`. -/
  | terminate
  /-- It never ends. -/
  | hang
  | fault
deriving DecidableEq, Repr

abbrev Ending (α : Type) := Except Stop α

/-- What the exceptions of the codec are to a handler. -/
def Stop.ofError : Error → Stop
  | .corruptInput what => .exception (.standard what)
  | .invalidArgument what => .exception (.standard what)
  | .runtimeError what => .exception (.standard what)
  | .lengthError what => .exception (.standard what)
  | .fault => .fault

def Ending.ofResult {α : Type} : Result α → Ending α
  | .ok a => .ok a
  | .error e => .error (.ofError e)

/-! ## The vector of threads -/

/-- A `std::thread` whose worker was started. -/
inductive Thread where
  | joinable
  | joined
deriving DecidableEq, Repr

/-- `~thread`. -/
def Thread.destroy : Thread → Ending Unit
  | .joinable => throw .terminate
  | .joined => pure ()

/-- How the creation of the workers goes. -/
structure Spawn where
  /-- The exception that the creation of worker `i` throws, if it does. -/
  fails : Nat → Option Exception
  /-- Whether worker `i`, once started, waits for work by the time of a failure. -/
  waits : Nat → Bool

/-- The destructor of `workAvailable_` in the unwinding, with the first `started` workers up. -/
def Spawn.destroyCondition (spawn : Spawn) (started : Nat) : Ending Unit :=
  if (List.range started).any spawn.waits then throw .hang else pure ()

/-- The destructor of `workers_`. -/
def destroyAll (threads : List Thread) : Ending Unit := threads.forM Thread.destroy

/-- The loop of `~ThreadPool`; its workers have been told to stop. -/
def joinAll (threads : List Thread) : List Thread := threads.map fun _ => .joined

/-- What a constructor leaves: the threads it started, and how it ended. -/
structure Construction where
  threads : List Thread
  result : Ending Unit
deriving DecidableEq

/-- The loop of the constructor, at worker `i`, with `left` workers to go. -/
def startWorkers (spawn : Spawn) : Nat → Nat → List Thread → Construction
  | _, 0, threads => { threads := threads, result := pure () }
  | i, left + 1, threads =>
      match spawn.fails i with
      | none => startWorkers spawn (i + 1) left (threads ++ [.joinable])
      | some e =>
          -- the members are destroyed, the last one first; `~ThreadPool` is not called
          { threads := threads
            result := do
              spawn.destroyCondition threads.length
              destroyAll threads
              throw (.exception e) }

/-- `std::max(1, workers)`. -/
def workerCount (workers : Int) : Nat := (max 1 workers).toNat

def construct (spawn : Spawn) (workers : Int) : Construction :=
  startWorkers spawn 0 (workerCount workers) []

/-- A pool in the scope of `body`: `~ThreadPool` joins, whether `body` returns or throws. -/
def withPool {α : Type} (spawn : Spawn) (workers : Int) (body : Ending α) : Ending α := do
  let pool := construct spawn workers
  pool.result
  match body with
  | .ok a => do
      destroyAll (joinAll pool.threads)
      pure a
  | .error stop => do
      destroyAll (joinAll pool.threads)
      throw stop

/-! ## A creation that fails -/

/-- Of `count` creations, the one with index `k` is the first to fail. -/
structure FailsAt (spawn : Spawn) (count k : Nat) (e : Exception) : Prop where
  lt : k < count
  fails : spawn.fails k = some e
  before : ∀ i < k, spawn.fails i = none

/-- What unwinding comes to after creation `k` has thrown `e`. -/
def Spawn.unwind (spawn : Spawn) (k : Nat) (e : Exception) : Stop :=
  if k = 0 then .exception e
  else if ∃ i < k, spawn.waits i = true then .hang
  else .terminate

/-- Once a worker was started, no exception comes out. -/
theorem Spawn.unwind_ne {spawn : Spawn} {k : Nat} (hk : k ≠ 0) (e e' : Exception) :
    spawn.unwind k e ≠ .exception e' := by
  rw [unwind, if_neg hk]
  split <;> exact Stop.noConfusion

theorem Spawn.destroy_eq (spawn : Spawn) (k : Nat) (e : Exception) :
    (do
      spawn.destroyCondition k
      destroyAll (List.replicate k .joinable)
      throw (.exception e) : Ending Unit) = throw (spawn.unwind k e) := by
  cases k with
  | zero => rfl
  | succ k =>
      have hany : (List.range (k + 1)).any spawn.waits = true
          ↔ ∃ i < k + 1, spawn.waits i = true := by
        simp only [List.any_eq_true, List.mem_range]
      rw [unwind, if_neg (Nat.succ_ne_zero k), destroyCondition]
      by_cases hwaits : ∃ i < k + 1, spawn.waits i = true
      · rw [if_pos (hany.mpr hwaits), if_pos hwaits]
        rfl
      · rw [if_neg (mt hany.mp hwaits), if_neg hwaits]
        rfl

theorem startWorkers_of_fails {spawn : Spawn} {k : Nat} {e : Exception}
    (hfails : spawn.fails k = some e) (left : Nat) : ∀ (i : Nat) (threads : List Thread), i ≤ k →
    (∀ j < k, spawn.fails j = none) → k < i + left →
    startWorkers spawn i left threads
      = { threads := threads ++ List.replicate (k - i) .joinable
          result := do
            spawn.destroyCondition (threads ++ List.replicate (k - i) Thread.joinable).length
            destroyAll (threads ++ List.replicate (k - i) .joinable)
            throw (.exception e) } := by
  induction left with
  | zero =>
      intro i threads hik _ hlt
      omega
  | succ left ih =>
      intro i threads hik hbefore hlt
      rcases Nat.eq_or_lt_of_le hik with rfl | hik
      · rw [startWorkers, hfails, Nat.sub_self, List.replicate_zero, List.append_nil]
      · have hsplit : List.replicate (k - i) Thread.joinable
            = [.joinable] ++ List.replicate (k - (i + 1)) .joinable := by
          rw [List.singleton_append, ← List.replicate_succ]
          congr 1
          omega
        rw [startWorkers, hbefore i hik]
        simp only []
        rw [ih (i + 1) _ hik hbefore (by omega), hsplit, ← List.append_assoc]

/-- The constructor, with the threads that were started before the failing one. -/
theorem construct_of_fails {spawn : Spawn} {workers : Int} {k : Nat} {e : Exception}
    (h : FailsAt spawn (workerCount workers) k e) :
    construct spawn workers
      = { threads := List.replicate k .joinable, result := throw (spawn.unwind k e) } := by
  have hrun := startWorkers_of_fails h.fails (workerCount workers) 0 [] (Nat.zero_le k) h.before
    (by have hlt := h.lt; omega)
  rw [construct, hrun, List.nil_append, Nat.sub_zero, List.length_replicate, spawn.destroy_eq]

theorem startWorkers_of_none {spawn : Spawn} (left : Nat) :
    ∀ (i : Nat) (threads : List Thread), (∀ j < i + left, spawn.fails j = none) →
    startWorkers spawn i left threads
      = { threads := threads ++ List.replicate left .joinable, result := pure () } := by
  induction left with
  | zero =>
      intro i threads _
      rw [startWorkers, List.replicate_zero, List.append_nil]
  | succ left ih =>
      intro i threads hnone
      rw [startWorkers, hnone i (by omega)]
      simp only []
      rw [ih (i + 1) _ (fun j hj => hnone j (by omega)), List.append_assoc, List.singleton_append,
        ← List.replicate_succ]

/-- A pattern of failures either spares a pool or has a first failure in it. -/
theorem none_or_failsAt (spawn : Spawn) (count : Nat) :
    (∀ i < count, spawn.fails i = none) ∨ ∃ k e, FailsAt spawn count k e := by
  induction count with
  | zero => exact Or.inl fun i hi => absurd hi (Nat.not_lt_zero i)
  | succ count ih =>
      rcases ih with hnone | ⟨k, e, h⟩
      · cases hlast : spawn.fails count with
        | none =>
            refine Or.inl fun i hi => ?_
            rcases Nat.eq_or_lt_of_le (Nat.le_of_lt_succ hi) with rfl | hlt
            · exact hlast
            · exact hnone i hlt
        | some e => exact Or.inr ⟨count, e, Nat.lt_succ_self count, hlast, hnone⟩
      · exact Or.inr ⟨k, e, Nat.lt_succ_of_lt h.lt, h.fails, h.before⟩

theorem FailsAt.unique {spawn : Spawn} {count k k' : Nat} {e e' : Exception}
    (h : FailsAt spawn count k e) (h' : FailsAt spawn count k' e') : k = k' := by
  rcases Nat.lt_trichotomy k k' with hlt | heq | hgt
  · have hnone := h'.before k hlt
    rw [h.fails] at hnone
    cases hnone
  · exact heq
  · have hnone := h.before k' hgt
    rw [h'.fails] at hnone
    cases hnone

/-- What the constructor owes its caller when a creation fails. -/
structure Propagates (c : Construction) (e : Exception) : Prop where
  result : c.result = throw (.exception e)
  joined : ∀ t ∈ c.threads, t = .joined

theorem propagates_iff {spawn : Spawn} {workers : Int} {k : Nat} {e : Exception}
    (h : FailsAt spawn (workerCount workers) k e) :
    Propagates (construct spawn workers) e ↔ k = 0 := by
  rw [construct_of_fails h]
  constructor
  · intro hp
    by_contra hk
    exact Spawn.unwind_ne hk e e (Except.error.inj hp.result)
  · rintro rfl
    exact ⟨rfl, fun t ht => absurd ht List.not_mem_nil⟩

/-! ## A pool in a scope -/

section WithPool
variable {α : Type} {spawn : Spawn} {workers : Int} {body : Ending α}

theorem withPool_of_fails {k : Nat} {e : Exception}
    (h : FailsAt spawn (workerCount workers) k e) :
    withPool spawn workers body = throw (spawn.unwind k e) := by
  unfold withPool
  rw [construct_of_fails h]
  rfl

theorem destroyAll_joinAll (threads : List Thread) : destroyAll (joinAll threads) = pure () := by
  induction threads with
  | nil => rfl
  | cons t threads ih => exact ih

theorem withPool_of_none (h : ∀ i < workerCount workers, spawn.fails i = none) :
    withPool spawn workers body = body := by
  unfold withPool
  rw [construct, startWorkers_of_none _ 0 [] (by simpa using h)]
  simp only [destroyAll_joinAll]
  cases body with
  | ok a => rfl
  | error stop => rfl

theorem withPool_eq_ok {a : α} (h : withPool spawn workers body = .ok a) : body = .ok a := by
  unfold withPool at h
  cases hpool : (construct spawn workers).result with
  | error e =>
      simp only [hpool] at h
      cases h
  | ok u =>
      simp only [hpool] at h
      cases body with
      | error stop =>
          change (destroyAll _ >>= fun _ => throw stop) = _ at h
          cases hdestroy : destroyAll (joinAll (construct spawn workers).threads) with
          | error e =>
              rw [hdestroy] at h
              cases h
          | ok u =>
              rw [hdestroy] at h
              cases h
      | ok b =>
          change (destroyAll _ >>= fun _ => pure b) = _ at h
          cases hdestroy : destroyAll (joinAll (construct spawn workers).threads) with
          | error e =>
              rw [hdestroy] at h
              cases h
          | ok u =>
              rw [hdestroy] at h
              cases h
              rfl

end WithPool

end Compressly.ThreadPool

/-
# `Compressly.CApi` — the C boundary

`cmpr_compress` catches every exception and returns a status for it.  What no
handler sees is a process that ends or a thread that hangs, and a pool that fails
to start its second worker, or a later one, does one or the other
(`ThreadPool.construct_of_fails`).  So a call returns for every pattern of failing
creations but these (`thread_failure_iff`).

The environment of a call has two more parameters here: how the creation of the
threads goes, and which allocations of the buffer for the result fail.
-/
import Compressly.Codec.Pools

namespace Compressly

open ThreadPool LZ77

/-! ## `cmpr_compress` -/

inductive Status where
  | ok
  | errInvalidArgument
  | errCorruptInput
  | errOutOfMemory
  | errInternal
deriving DecidableEq, Repr

/-- The pointer `data` and `size`: a null pointer, or a buffer of that many bytes. -/
inductive Input where
  | null (size : Nat)
  | bytes (data : List UInt8)

/-- The arguments of a call; `out` and `outSize` say whether these pointers are not null. -/
structure Call where
  input : Input
  threads : Int
  blockSize : UInt64
  out : Bool := true
  outSize : Bool := true

/-- What a call leaves: its status, the buffer and size behind its pointers, and the message
of `cmpr_last_error`. -/
structure Reply where
  status : Status
  out : Option (List UInt8) := none
  outSize : Nat := 0
  lastError : String := ""
deriving DecidableEq, Repr

/-- The result in a buffer of its own; `malloc size` says whether there is one. -/
def handOff (malloc : Nat → Bool) (source : List UInt8) : Reply :=
  if malloc (if source.length = 0 then 1 else source.length) then
    { status := .ok, out := some source, outSize := source.length }
  else { status := .errOutOfMemory, lastError := "out of memory" }

/-- The handlers. -/
def caught (e : Exception) : Reply :=
  match e with
  | .badAlloc => { status := .errOutOfMemory, lastError := "out of memory" }
  | .standard what => { status := .errInvalidArgument, lastError := what }
  | .other => { status := .errInternal, lastError := "unknown error" }

/-- `try { .. } catch (..) { .. }`: exceptions end here, and nothing else does. -/
def guarded (body : Ending Reply) : Ending Reply :=
  match body with
  | .ok reply => pure reply
  | .error (.exception e) => pure (caught e)
  | .error stop => throw stop

/-- The options of a call; a block size of 0 leaves the default. -/
def Call.options (call : Call) : Options where
  threads := call.threads
  blockSize := if call.blockSize.toNat ≠ 0 then call.blockSize.toNat else kDefaultBlockSize
  blockSize_lt := by
    split
    case isTrue => exact call.blockSize.toNat_lt
    case isFalse => decide

def Call.nullArgument (call : Call) : Bool :=
  !call.out || !call.outSize ||
    match call.input with
    | .null size => size ≠ 0
    | .bytes _ => false

/-- The bytes of a call whose arguments pass the check. -/
def Call.data (call : Call) : List UInt8 :=
  match call.input with
  | .null _ => []
  | .bytes data => data

def cmprCompress (spawn : Spawn) (malloc : Nat → Bool) (env : Environment)
    (call : Call) : Ending Reply :=
  if call.nullArgument then pure { status := .errInvalidArgument, lastError := "null argument" }
  else guarded do
    let compressed ← compressOn spawn env call.data call.options
    pure (handOff malloc compressed)

/-! ## How a call ends -/

section Calls
variable (spawn : Spawn) (malloc : Nat → Bool) (env : Environment)

/-- The workers a call makes a pool for. -/
def Call.workers (env : Environment) (call : Call) : Int := resolveThreadCount env call.threads

/-- A call that makes a pool: more than one block, and more than one worker. -/
def Call.Pooled (env : Environment) (call : Call) : Prop :=
  call.nullArgument = false ∧ shouldBlock call.data.length call.options = true ∧
    1 < call.workers env

/-- Whether the C function returns to its caller. -/
def Returns (r : Ending Reply) : Prop := ∃ reply, r = .ok reply

/-- The codec itself accepts what a call hands it. -/
theorem compress_call (call : Call) (hmax : call.data.length ≤ maxSize) :
    ∃ c, compress env call.data call.options = .ok c := by
  have hok : Algorithm.deflate.Accepts ({} : Config) := by decide
  obtain ⟨c, hc⟩ := container_accepted hok (memoryBlockSize call.options call.data) call.data
  exact ⟨c, compress_ok env hmax hc⟩

theorem cmprCompress_of_null {call : Call} (h : call.nullArgument = true) :
    Returns (cmprCompress spawn malloc env call) := by
  unfold cmprCompress
  rw [if_pos h]
  exact ⟨_, rfl⟩

theorem cmprCompress_eq {call : Call} (h : call.nullArgument = false) :
    cmprCompress spawn malloc env call
      = guarded (compressOn spawn env call.data call.options >>= fun compressed =>
          pure (handOff malloc compressed)) := by
  unfold cmprCompress
  rw [if_neg (by rw [h]; decide)]

theorem cmprCompress_eq_of_not_pooled {call : Call} (hnull : call.nullArgument = false)
    (h : ¬ call.Pooled env) :
    cmprCompress spawn malloc env call
      = guarded (.ofResult (compress env call.data call.options) >>= fun compressed =>
          pure (handOff malloc compressed)) := by
  rw [cmprCompress_eq spawn malloc env hnull, compressOn_of_not_pooled spawn env
    fun hpool => h ⟨hnull, hpool.1, hpool.2⟩]

/-- Without a pool no thread is created. -/
theorem cmprCompress_of_not_pooled {call : Call} (hmax : call.data.length ≤ maxSize)
    (h : ¬ call.Pooled env) : Returns (cmprCompress spawn malloc env call) := by
  cases hnull : call.nullArgument with
  | true => exact cmprCompress_of_null spawn malloc env hnull
  | false =>
      obtain ⟨c, hc⟩ := compress_call env call hmax
      rw [cmprCompress_eq_of_not_pooled spawn malloc env hnull h, hc]
      exact ⟨handOff malloc c, rfl⟩

theorem cmprCompress_of_pooled {call : Call} (h : call.Pooled env) :
    cmprCompress spawn malloc env call
      = guarded (withPool spawn (call.workers env) (.ofResult (compress env call.data call.options))
          >>= fun compressed => pure (handOff malloc compressed)) := by
  rw [cmprCompress_eq spawn malloc env h.1, compressOn_of_pooled spawn env h.2.1 h.2.2]
  rfl

theorem cmprCompress_of_none {call : Call} (hmax : call.data.length ≤ maxSize)
    (h : call.Pooled env) (hnone : ∀ i < workerCount (call.workers env), spawn.fails i = none) :
    Returns (cmprCompress spawn malloc env call) := by
  obtain ⟨c, hc⟩ := compress_call env call hmax
  rw [cmprCompress_of_pooled spawn malloc env h, withPool_of_none hnone, hc]
  exact ⟨handOff malloc c, rfl⟩

/-- A failing creation: the first is an error, after a later one the call does not return. -/
theorem cmprCompress_of_fails {call : Call} (h : call.Pooled env) {k : Nat} {e : Exception}
    (hfails : FailsAt spawn (workerCount (call.workers env)) k e) :
    cmprCompress spawn malloc env call = guarded (throw (spawn.unwind k e)) := by
  rw [cmprCompress_of_pooled spawn malloc env h, withPool_of_fails hfails]
  rfl

theorem ofResult_guarded_ne {r : Result (List UInt8)} {stop : Stop}
    (hstop : stop = .terminate ∨ stop = .hang) :
    guarded (.ofResult r >>= fun compressed => pure (handOff malloc compressed)) ≠ throw stop := by
  intro h
  cases r with
  | ok c => cases h
  | error e => cases e <;> rcases hstop with rfl | rfl <;> cases h

/-- A call that does not return, though nothing faulted, has made a pool. -/
theorem pooled_of_stop {call : Call} {stop : Stop} (hstop : stop = .terminate ∨ stop = .hang)
    (h : cmprCompress spawn malloc env call = throw stop) : call.Pooled env := by
  by_contra hpool
  cases hnull : call.nullArgument with
  | true =>
      obtain ⟨reply, hreply⟩ := cmprCompress_of_null spawn malloc env hnull
      rw [hreply] at h
      cases h
  | false =>
      rw [cmprCompress_eq_of_not_pooled spawn malloc env hnull hpool] at h
      exact ofResult_guarded_ne malloc hstop h

theorem returns_unwind_iff {k : Nat} {e : Exception} :
    Returns (guarded (throw (spawn.unwind k e))) ↔ k = 0 := by
  constructor
  · rintro ⟨reply, hreply⟩
    by_contra hk
    cases hstop : spawn.unwind k e with
    | exception e' => exact Spawn.unwind_ne hk e e' hstop
    | _ =>
        rw [hstop] at hreply
        cases hreply
  · rintro rfl
    exact ⟨caught e, rfl⟩

/-- **A creation that fails.**  The constructor of a pool propagates the exception, with no
worker left behind, exactly where the creation is the first of the pool; and so a call of
`cmpr_compress` returns to its caller exactly where no later creation of its pool is the first
to fail. -/
theorem thread_failure_iff (call : Call) (hmax : call.data.length ≤ maxSize) :
    (∀ workers k e, FailsAt spawn (workerCount workers) k e →
        (Propagates (construct spawn workers) e ↔ k = 0)) ∧
      (Returns (cmprCompress spawn malloc env call) ↔
        (call.Pooled env → ∀ k e, FailsAt spawn (workerCount (call.workers env)) k e → k = 0)) := by
  refine ⟨fun workers k e hfails => propagates_iff hfails, fun hreturns hpool k e hfails => ?_,
    fun h => ?_⟩
  · rwa [cmprCompress_of_fails spawn malloc env hpool hfails, returns_unwind_iff] at hreturns
  · by_cases hpool : call.Pooled env
    · rcases none_or_failsAt spawn (workerCount (call.workers env)) with hnone | ⟨k, e, hfails⟩
      · exact cmprCompress_of_none spawn malloc env hmax hpool hnone
      · rw [cmprCompress_of_fails spawn malloc env hpool hfails, returns_unwind_iff]
        exact h hpool k e hfails
    · exact cmprCompress_of_not_pooled spawn malloc env hmax hpool

end Calls

/-- Three bytes in blocks of two, on two workers. -/
def threeBytes : Call where
  input := .bytes [7, 7, 7]
  threads := 2
  blockSize := 2

/-- The second creation fails; the first worker may wait for work by then, or not yet. -/
def secondFails (waits : Bool) : Spawn where
  fails i := if i = 1 then some (.standard "Resource temporarily unavailable") else none
  waits _ := waits

theorem secondFails_failsAt (waits : Bool) {workers : Int} (hworkers : 1 < workers) :
    FailsAt (secondFails waits) (workerCount workers) 1
      (.standard "Resource temporarily unavailable") :=
  ⟨by unfold workerCount; omega, rfl, fun _ hi => if_neg (Nat.ne_of_lt hi)⟩

theorem thread_failure_run :
    (∀ workers k e, FailsAt (secondFails false) (workerCount workers) k e →
        (Propagates (construct (secondFails false) workers) e ↔ k = 0)) ∧
      (Returns (cmprCompress (secondFails false) (fun _ => true) reversed threeBytes) ↔
        (threeBytes.Pooled reversed → ∀ k e,
          FailsAt (secondFails false) (workerCount (threeBytes.workers reversed)) k e → k = 0)) :=
  thread_failure_iff (secondFails false) (fun _ => true) reversed threeBytes (by decide)

/-- Both workers are wanted, the second cannot be created: out of the constructor and through
`cmpr_compress`, the process ends, or the call hangs if the first worker waits already. -/
theorem second_failure_never_returns :
    (construct (secondFails false) 2).result = throw .terminate ∧
      cmprCompress (secondFails false) (fun _ => true) reversed threeBytes = throw .terminate ∧
      (construct (secondFails true) 2).result = throw .hang ∧
      cmprCompress (secondFails true) (fun _ => true) reversed threeBytes = throw .hang := by
  have hfails := fun waits => secondFails_failsAt waits (by decide : (1 : Int) < 2)
  have hpooled : threeBytes.Pooled reversed := ⟨rfl, rfl, by decide⟩
  refine ⟨?_, ?_, ?_, ?_⟩
  · rw [construct_of_fails (hfails false)]
    rfl
  · exact cmprCompress_of_fails (secondFails false) _ reversed hpooled (hfails false)
  · rw [construct_of_fails (hfails true)]
    rfl
  · exact cmprCompress_of_fails (secondFails true) _ reversed hpooled (hfails true)

end Compressly

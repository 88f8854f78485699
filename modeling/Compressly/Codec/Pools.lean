/-
# `Compressly.Codec.Pools` — compression that creates its threads

`Basic` takes the workers of a pool for granted.  Here they are created, as `Spawn`
says: by `compressBlocked` for more than one worker, and by `compressStream` always,
once the header is written.  With all its threads the codec does what it does in
`Basic` (`compressOn_of_none`, `compressStreamOn_cases`); where one cannot be created,
it ends as the constructor of the pool does.
-/
import Compressly.Codec.Output
import Compressly.ThreadPool.Construct

namespace Compressly

open ThreadPool LZ77 Output Parse

/-! ## The functions -/

/-- `compressBlocked`; the pool is made only for more than one worker. -/
def compressBlockedOn (spawn : Spawn) (env : Environment) (data : List UInt8)
    (options : Options) : Ending (List UInt8) :=
  let workers := resolveThreadCount env options.threads
  if workers ≤ 1 then .ofResult (compressBlocked env data options)
  else withPool spawn workers (.ofResult (compressBlocked env data options))

def compressOn (spawn : Spawn) (env : Environment) (data : List UInt8)
    (options : Options) : Ending (List UInt8) :=
  if data.length = 0 then pure (putHeader [] .stored 0)
  else if shouldBlock data.length options then compressBlockedOn spawn env data options
  else .ofResult (compressSingleBlock data options)

/-- As `withPool`, where `body` writes; `~ThreadPool` joins after an exception too. -/
def withPoolTo (spawn : Spawn) (workers : Int) (body : Writing UInt8 Error Unit) :
    Writing UInt8 Stop Unit := do
  let pool := construct spawn workers
  lift pool.result
  rethrow .ofError body
  lift (destroyAll (joinAll pool.threads))

/-- `compressStream`; the pool has one worker where `workers` is not more than one. -/
def compressStreamOn (spawn : Spawn) (good : Stream UInt8) (env : Environment)
    (input : List UInt8) (totalSize : Nat) (options : Options) : Writing UInt8 Stop Unit :=
  let blockSize := if 0 < options.blockSize then options.blockSize else kDefaultBlockSize
  if totalSize ≤ blockSize then do
    let (data, _) ← lift (Ending.ofResult (readExactly kEndedEarly totalSize input))
    let compressed ← lift (compressOn spawn env data options)
    writeAll (.ofError kWriteFailed) good compressed
  else do
    writeAll (.ofError kWriteFailed) good (putHeader [] .blocked totalSize)
    let workers := resolveThreadCount env options.threads
    let batch := batchSize workers
    withPoolTo spawn (if 1 < workers then workers else 1)
      (batchLoopTo good env options totalSize blockSize (blockCountFor totalSize blockSize)
        (batchSize_pos workers) 0 0 { input := input, inputs := List.replicate batch [] }
        (List.replicate batch {}))

/-! ## In memory -/

section Memory
variable (spawn : Spawn) (env : Environment) {data : List UInt8} {options : Options}

theorem compressOn_of_not_pooled
    (h : ¬ (shouldBlock data.length options = true ∧
      1 < resolveThreadCount env options.threads)) :
    compressOn spawn env data options = .ofResult (compress env data options) := by
  unfold compressOn compress
  by_cases hdata : data.length = 0
  · rw [if_pos hdata, if_pos hdata]
    rfl
  rw [if_neg hdata, if_neg hdata]
  by_cases hblock : shouldBlock data.length options = true
  · rw [if_pos hblock, if_pos hblock, compressBlockedOn]
    exact if_pos (Int.not_lt.mp fun hlt => h ⟨hblock, hlt⟩)
  · rw [if_neg hblock, if_neg hblock]

theorem compressOn_of_pooled
    (hblock : shouldBlock data.length options = true)
    (hworkers : 1 < resolveThreadCount env options.threads) :
    compressOn spawn env data options
      = withPool spawn (resolveThreadCount env options.threads)
          (.ofResult (compress env data options)) := by
  have hdata : data.length ≠ 0 := by
    intro hzero
    unfold shouldBlock at hblock
    rw [hzero] at hblock
    simp at hblock
  unfold compressOn compress
  rw [if_neg hdata, if_neg hdata, if_pos hblock, if_pos hblock, compressBlockedOn]
  exact if_neg (Int.not_le.mpr hworkers)

theorem compressOn_of_fails {k : Nat} {e : Exception}
    (hblock : shouldBlock data.length options = true)
    (hworkers : 1 < resolveThreadCount env options.threads)
    (hfails : FailsAt spawn (workerCount (resolveThreadCount env options.threads)) k e) :
    compressOn spawn env data options = throw (spawn.unwind k e) := by
  rw [compressOn_of_pooled spawn env hblock hworkers, withPool_of_fails hfails]

/-- With all its threads, or none. -/
theorem compressOn_of_none
    (hnone : ∀ i < workerCount (resolveThreadCount env options.threads), spawn.fails i = none) :
    compressOn spawn env data options = .ofResult (compress env data options) := by
  by_cases hpool : shouldBlock data.length options = true ∧
      1 < resolveThreadCount env options.threads
  · rw [compressOn_of_pooled spawn env hpool.1 hpool.2, withPool_of_none hnone]
  · exact compressOn_of_not_pooled spawn env hpool

/-- It ends as `compress`, or as the constructor of a pool that fails. -/
theorem compressOn_cases (data : List UInt8) (options : Options) :
    compressOn spawn env data options = .ofResult (compress env data options) ∨
      ∃ k e, spawn.fails k = some e ∧
        compressOn spawn env data options = throw (spawn.unwind k e) := by
  by_cases hpool : shouldBlock data.length options = true ∧
      1 < resolveThreadCount env options.threads
  · rcases none_or_failsAt spawn (workerCount (resolveThreadCount env options.threads)) with
      hnone | ⟨k, e, hfails⟩
    · exact Or.inl (compressOn_of_none spawn env hnone)
    · exact Or.inr ⟨k, e, hfails.fails, compressOn_of_fails spawn env hpool.1 hpool.2 hfails⟩
  · exact Or.inl (compressOn_of_not_pooled spawn env hpool)

end Memory

/-- What is compressed on threads that are created is what is compressed. -/
theorem compress_of_compressOn {spawn : Spawn} {env : Environment}
    {data c : List UInt8} {options : Options} (h : compressOn spawn env data options = .ok c) :
    compress env data options = .ok c := by
  have hbody : Ending.ofResult (compress env data options) = .ok c := by
    by_cases hpool : shouldBlock data.length options = true ∧
        1 < resolveThreadCount env options.threads
    · rw [compressOn_of_pooled spawn env hpool.1 hpool.2] at h
      exact withPool_eq_ok h
    · rwa [compressOn_of_not_pooled spawn env hpool] at h
  cases hc : compress env data options with
  | error e =>
      rw [hc] at hbody
      cases hbody
  | ok c' =>
      rw [hc] at hbody
      cases hbody
      rfl

/-! ## Streaming -/

section Streaming
variable (spawn : Spawn) (good : Stream UInt8) (env : Environment) (input : List UInt8)
  {totalSize : Nat} (options : Options)

theorem ofResult_eq {α : Type} (r : Result α) : Ending.ofResult r = r.mapError Stop.ofError := by
  cases r with
  | ok a => rfl
  | error e => rfl

/-- How a computation of the codec ends. -/
def endingOf (x : Writing UInt8 Error Unit) (w : List UInt8) : Ending Unit × List UInt8 :=
  (.ofResult (outcome x w).1, (outcome x w).2)

theorem outcome_rethrow_ofError (x : Writing UInt8 Error Unit) (w : List UInt8) :
    outcome (rethrow .ofError x) w = endingOf x w := by
  rw [outcome_rethrow, ← ofResult_eq]
  rfl

theorem outcome_writeAll_ofError (e : Error) (bytes w : List UInt8) :
    outcome (writeAll (Stop.ofError e) good bytes) w = endingOf (writeAll e good bytes) w := by
  rw [endingOf, outcome_writeAll, outcome_writeAll]
  split
  case isTrue => rfl
  case isFalse => rfl

/-- A pool with all its threads is not seen, and one that fails has written nothing. -/
theorem outcome_withPoolTo (workers : Int) (body : Writing UInt8 Error Unit) (w : List UInt8) :
    outcome (withPoolTo spawn workers body) w = endingOf body w ∨
      ∃ k e, spawn.fails k = some e ∧
        outcome (withPoolTo spawn workers body) w = (throw (spawn.unwind k e), w) := by
  unfold withPoolTo
  rcases none_or_failsAt spawn (workerCount workers) with hnone | ⟨k, e, hfails⟩
  · refine Or.inl ?_
    rw [construct, startWorkers_of_none _ 0 [] (by simpa using hnone)]
    simp only [pure, Except.pure, outcome_bind, outcome_lift, outcome_rethrow_ofError, endingOf,
      destroyAll_joinAll]
    cases (outcome body w).1 with
    | error e => rfl
    | ok u => rfl
  · refine Or.inr ⟨k, e, hfails.fails, ?_⟩
    rw [construct_of_fails hfails]
    rfl

/-- Data of one block needs no pool. -/
theorem compressStreamOn_of_le (hle : totalSize ≤ streamBlockSize options) (w : List UInt8) :
    outcome (compressStreamOn spawn good env input totalSize options) w
      = endingOf (compressStreamTo good env input totalSize options) w := by
  unfold streamBlockSize at hle
  simp only [compressStreamOn, compressStreamTo, endingOf, if_pos hle, outcome_lift_bind]
  cases hread : readExactly kEndedEarly totalSize input with
  | error e => rfl
  | ok read =>
      obtain ⟨data, rest⟩ := read
      have hdata : data.length ≤ totalSize := by
        unfold readExactly readFully at hread
        split at hread
        case isTrue => cases hread
        case isFalse =>
          cases hread
          exact List.length_take_le ..
      have hsingle : ¬ (shouldBlock data.length options = true ∧
          1 < resolveThreadCount env options.threads) := by
        rintro ⟨hblock, -⟩
        simp only [shouldBlock, Bool.and_eq_true, decide_eq_true_eq] at hblock
        rw [if_pos hblock.1] at hle
        omega
      simp only [Ending.ofResult, compressOn_of_not_pooled spawn env hsingle]
      cases compress env data options with
      | error e => rfl
      | ok compressed => exact outcome_writeAll_ofError good kWriteFailed compressed w

/-- It ends as `compressStream`, or has written the header and ends as the constructor of a pool
that fails. -/
theorem compressStreamOn_cases :
    outcome (compressStreamOn spawn good env input totalSize options) []
        = endingOf (compressStreamTo good env input totalSize options) [] ∨
      0 < totalSize ∧ ∃ k e, spawn.fails k = some e ∧
        outcome (compressStreamOn spawn good env input totalSize options) []
          = (throw (spawn.unwind k e), header .blocked totalSize) := by
  rcases Nat.lt_or_ge (streamBlockSize options) totalSize with hgt | hle
  · have hmany : ¬ totalSize ≤ if 0 < options.blockSize then options.blockSize
        else kDefaultBlockSize := Nat.not_le.mpr hgt
    simp only [compressStreamOn, compressStreamTo, endingOf, if_neg hmany, outcome_bind,
      outcome_writeAll]
    by_cases hgood : putHeader [] .blocked totalSize = [] ∨
        good [] (putHeader [] .blocked totalSize) = true
    · rw [if_pos hgood, if_pos hgood]
      dsimp only
      rcases outcome_withPoolTo spawn (if 1 < resolveThreadCount env options.threads then
        resolveThreadCount env options.threads else 1) _ _ with hsame | ⟨k, e, hfails, hthrow⟩
      · exact Or.inl hsame
      · refine Or.inr ⟨by omega, k, e, hfails, hthrow.trans ?_⟩
        rw [List.nil_append, putHeader_eq]
    · rw [if_neg hgood, if_neg hgood]
      exact Or.inl rfl
  · exact Or.inl (compressStreamOn_of_le spawn good env input options hle [])

end Streaming

end Compressly

/-
# `Compressly.ThreadPool.Protocol` — every index once, and nothing left behind

While a job is in progress `Inside` holds; so when `outstanding_` is 0 all
indices have been handed out and no worker holds one (`Inside.drained`), the job
is complete, and between jobs the pool is as it was constructed (`Idle`).
-/
import Compressly.ThreadPool.Invariant

namespace Compressly.ThreadPool

open Threads

variable {E : Type} {n : Nat} {jobs : Nat → Job} {k : Nat} {log : List (Event E)} {s s' : State n E}

/-! ## A step of the caller -/

/-- When the counter is 0, every index has been handed out and no worker holds one. -/
theorem Inside.drained (h : Inside jobs k log s) (hzero : s.pool.outstanding = 0) :
    s.pool.nextIndex = (jobs k).count ∧ ∀ w, (s.workers w).task? = none := by
  have hout := h.outstanding
  have hnext := h.nextIndex_le
  have htask := h.taskCount
  refine ⟨by omega, fun w => ?_⟩
  have hbusy : total busy s.workers = 0 := by omega
  exact busy_eq_zero_iff.mp (total_eq_zero_iff.mp hbusy w)

theorem Inside.complete (h : Inside jobs k log s) (hzero : s.pool.outstanding = 0) :
    Complete jobs log k := by
  obtain ⟨hnext, hfree⟩ := h.drained hzero
  intro stage i
  have hpending : total (pending stage i) s.workers = 0 :=
    total_eq_zero_iff.mpr fun w => pending_of_free (hfree w) stage i
  have hpassed := h.passed stage i
  rwa [hpending, Nat.add_zero, hnext] at hpassed

/-- The exception that is rethrown: the first one recorded, if a call has thrown. -/
theorem Inside.error (h : Inside jobs k log s) (hzero : s.pool.outstanding = 0) :
    s.pool.firstError = (recorded k log).head? ∧
      (s.pool.firstError.isSome ↔ 0 < ThreadPool.thrown k log) := by
  obtain ⟨-, hfree⟩ := h.drained hzero
  have hthrowing : total throwing s.workers = 0 :=
    total_eq_zero_iff.mpr fun w => throwing_of_free (hfree w)
  have hthrown := h.thrown
  refine ⟨h.firstError, ?_⟩
  rw [h.firstError, hthrown, hthrowing, Nat.add_zero, List.isSome_head?]
  exact List.length_pos_iff.symm

theorem Untouched.snoc {j : Nat} {e : Event E} (h : Untouched log j) (hne : e.job ≠ some j) :
    Untouched (log ++ [e]) j := by
  obtain ⟨hpassed, hthrown, hsettled⟩ := snoc_of_job_ne hne log
  exact
    { passed := fun stage i => (hpassed stage i).trans (h.passed stage i)
      thrown := hthrown.trans h.thrown
      settled := hsettled.trans h.settled }

theorem Complete.snoc {j : Nat} {e : Event E} (h : Complete jobs log j) (hne : e.job ≠ some j) :
    Complete jobs (log ++ [e]) j := by
  obtain ⟨hpassed, -⟩ := snoc_of_job_ne hne log
  exact fun stage i => (hpassed stage i).trans (h stage i)

theorem Untouched.complete {j : Nat} (h : Untouched log j) (hzero : (jobs j).count = 0) :
    Complete jobs log j := by
  intro stage i
  rw [h.passed, hzero]
  rfl

/-- `forEach` begins on a pool that is idle. -/
theorem Idle.beginJob (h : Idle s) (hstop : s.pool.stopping = false) (hk : Untouched log k) :
    Inside jobs k log { s with pool := s.pool.beginJob k (jobs k), caller := .inside k } := by
  have hbusy : total busy s.workers = 0 :=
    total_eq_zero_iff.mpr fun w => busy_eq_zero_iff.mpr (h.free w)
  have hrecorded : recorded k log = [] := by
    rw [recorded, hk.settled]
    rfl
  refine
    { job := rfl
      taskCount := rfl
      stopping := hstop
      nextIndex_le := Nat.zero_le _
      outstanding_le := Nat.le_refl _
      outstanding := ?_
      tasks := fun w task hw => ?_
      seen := fun w task seen hw => ?_
      passed := fun stage i => ?_
      firstError := by rw [hrecorded]; rfl
      thrown := ?_ }
  · change (jobs k).count + 0 = (jobs k).count + total busy s.workers
    rw [hbusy]
  · have hfree := h.free w
    rw [hw] at hfree
    cases hfree
  · have hfree := h.free w
    rw [hw] at hfree
    cases hfree
  · have hpending : total (pending stage i) s.workers = 0 :=
      total_eq_zero_iff.mpr fun w => pending_of_free (h.free w) stage i
    rw [hk.passed, hpending]
    rfl
  · have hthrowing : total throwing s.workers = 0 :=
      total_eq_zero_iff.mpr fun w => throwing_of_free (h.free w)
    rw [hk.thrown, hrecorded, hthrowing]
    rfl

/-- `forEach` ends and leaves the pool idle. -/
theorem Inside.endJob (h : Inside jobs k log s) (hzero : s.pool.outstanding = 0) :
    Idle { s with pool := s.pool.endJob, caller := .idle (k + 1) } where
  pool := by
    change s.pool.endJob = { stopping := s.pool.stopping }
    rw [Pool.endJob, hzero]
  free := (h.drained hzero).2

/-- A worker of an idle pool goes on waiting, or leaves. -/
theorem Idle.enter (h : Idle s) (w : Fin n) : Idle (s.put w s.pool.take) := by
  have htake : s.pool.take = (s.pool, if s.pool.stopping then .exited else .waiting) := by
    rw [Pool.take]
    by_cases hstop : s.pool.stopping = true
    · rw [if_pos hstop, if_pos hstop]
    · have hnext : ¬ s.pool.nextIndex < s.pool.taskCount := by
        rw [h.pool]
        exact Nat.lt_irrefl 0
      rw [if_neg hstop, if_neg hnext, if_neg hstop]
  rw [htake]
  refine { pool := h.pool, free := fun v => ?_ }
  change (Function.update s.workers w _ v).task? = none
  rw [Function.update_apply]
  by_cases hvw : v = w
  · rw [if_pos hvw]
    split <;> rfl
  · rw [if_neg hvw]
    exact h.free v

theorem take_stopping (p : Pool E) : p.take.1.stopping = p.stopping := by
  unfold Pool.take
  split
  · rfl
  · split <;> rfl

/-! ## Runs -/

/-- A worker with a task in hand is seen in a job only. -/
theorem Inv.inside (h : Inv jobs log s) {w : Fin n} {task : Task}
    (hw : (s.workers w).task? = some task) : ∃ k, s.caller = .inside k ∧ Inside jobs k log s := by
  have hpresent := h.present
  cases hc : s.caller with
  | inside k =>
      rw [hc] at hpresent
      exact ⟨k, rfl, hpresent⟩
  | idle k =>
      rw [hc] at hpresent
      have hfree := hpresent.1.free w
      rw [hw] at hfree
      cases hfree
  | joining k =>
      rw [hc] at hpresent
      have hfree := hpresent.1.free w
      rw [hw] at hfree
      cases hfree

/-- A step within a job. -/
theorem Inv.step_inside {e : Event E} (h : Inv jobs log s) (hc : s.caller = .inside k)
    (hc' : s'.caller = .inside k) (he : ∀ j, e.job = some j → j = k)
    (hin : Inside jobs k (log ++ [e]) s') : Inv jobs (log ++ [e]) s' where
  past j hj := by
    rw [hc'] at hj
    refine (h.past j (by rw [hc]; exact hj)).snoc fun hjob => ?_
    exact absurd (he j hjob) (Nat.ne_of_lt hj)
  future j hj := by
    rw [hc'] at hj
    refine (h.future j (by rw [hc]; exact hj)).snoc fun hjob => ?_
    exact absurd (he j hjob) (Nat.ne_of_gt hj)
  present := by
    rw [hc']
    exact hin

/-- A step between jobs. -/
theorem Inv.step_idle {e : Event E} (h : Inv jobs log s) (hc : s'.caller = s.caller)
    (he : e.job = none) (hout : ∀ k, s.caller ≠ .inside k) (hidle : Idle s → Idle s')
    (hstop : s'.pool.stopping = s.pool.stopping) : Inv jobs (log ++ [e]) s' := by
  have hne : ∀ j, e.job ≠ some j := fun j => by simp [he]
  have hpresent := h.present
  refine
    { past := fun j hj => (h.past j (by rwa [hc] at hj)).snoc (hne j)
      future := fun j hj => (h.future j (by rwa [hc] at hj)).snoc (hne j)
      present := ?_ }
  rw [hc]
  cases hcaller : s.caller with
  | inside k => exact absurd hcaller (hout k)
  | idle k =>
      rw [hcaller] at hpresent
      exact ⟨hidle hpresent.1, hstop.trans hpresent.2.1, hpresent.2.2.snoc (hne k)⟩
  | joining k =>
      rw [hcaller] at hpresent
      exact ⟨hidle hpresent.1, hpresent.2.snoc (hne k)⟩

theorem Inv.call (h : Inv jobs log s) (hc : s.caller = .idle k) :
    Inv jobs (log ++ [.call k])
      { s with pool := s.pool.beginJob k (jobs k), caller := .inside k } := by
  have hpresent := h.present
  have hpast := h.past
  have hfuture := h.future
  rw [hc] at hpresent hpast hfuture
  obtain ⟨hidle, hstop, hk⟩ := hpresent
  have hne : ∀ j, (Event.call k : Event E).job ≠ some j := fun j => by simp [Event.job]
  exact
    { past := fun j hj => (hpast j hj).snoc (hne j)
      future := fun j hj => (hfuture j hj).snoc (hne j)
      present := hidle.beginJob hstop (hk.snoc (hne k)) }

/-- A `forEach` that is over is complete, and the next is untouched. -/
theorem Inv.returned {error : Option E} (h : Inv jobs log s) (hk : s.caller.number = k)
    (hcomplete : Complete jobs log k) (hc : s'.caller = .idle (k + 1)) (hidle : Idle s')
    (hstop : s'.pool.stopping = false) : Inv jobs (log ++ [.returned k error]) s' := by
  have hne : ∀ j, (Event.returned k error).job ≠ some j := fun j => by simp [Event.job]
  have hfuture : ∀ j, k < j → Untouched (log ++ [.returned k error]) j := fun j hj =>
    (h.future j (hk.trans_lt hj)).snoc (hne j)
  refine
    { past := fun j hj => ?_
      future := fun j hj => ?_
      present := ?_ }
  · rw [hc] at hj
    rcases Nat.lt_succ_iff_lt_or_eq.mp hj with hlt | rfl
    · exact (h.past j (hlt.trans_eq hk.symm)).snoc (hne j)
    · exact hcomplete.snoc (hne j)
  · rw [hc] at hj
    exact hfuture j (Nat.lt_of_succ_lt hj)
  · rw [hc]
    exact ⟨hidle, hstop, hfuture (k + 1) (Nat.lt_succ_self k)⟩

theorem Inv.step {e : Event E} (h : Inv jobs log s) (hs : Step jobs s e s') :
    Inv jobs (log ++ [e]) s' := by
  have hpresent := h.present
  cases hs with
  | call hc hne => exact h.call hc
  | @skip k hc hzero =>
      rw [hc] at hpresent
      obtain ⟨hidle, hstop, hk⟩ := hpresent
      exact h.returned (by rw [hc]; rfl) (hk.complete hzero) rfl
        { pool := hidle.pool, free := hidle.free } hstop
  | @await k hc hne =>
      rw [hc] at hpresent
      obtain ⟨hpassed, hthrown, hsettled⟩ := snoc_of_job_ne
        (by simp [Event.job] : (Event.woke : Event E).job ≠ some k) log
      refine h.step_inside hc hc (fun j hj => by cases hj) ?_
      exact
        { hpresent with
          passed := fun stage i => by rw [hpassed, hpresent.passed]
          firstError := by rw [recorded, hsettled, ← recorded, hpresent.firstError]
          thrown := by rw [hthrown, hpresent.thrown, recorded, recorded, hsettled] }
  | @done k hc hzero =>
      rw [hc] at hpresent
      exact h.returned (by rw [hc]; rfl) (hpresent.complete hzero) rfl (hpresent.endJob hzero)
        hpresent.stopping
  | @enter w hw =>
      by_cases hin : ∃ k, s.caller = .inside k
      · obtain ⟨k, hc⟩ := hin
        rw [hc] at hpresent
        exact h.step_inside hc hc (fun j hj => by cases hj) (hpresent.move (hpresent.moves_enter hw))
      · exact h.step_idle rfl rfl (fun k hk => hin ⟨k, hk⟩) (fun hidle => hidle.enter w)
          (take_stopping s.pool)
  | @start w task hw =>
      obtain ⟨k, hc, hin⟩ := h.inside (by rw [hw]; rfl)
      refine h.step_inside hc hc (fun j hj => ?_) (hin.move (hin.moves_start hw))
      have hjob : s.pool.job = some j := hj
      rw [hin.job] at hjob
      exact (Option.some.inj hjob).symm
  | @finish w task seen outcome hw =>
      have hold : (s.workers w).task? = some task := by
        rw [hw]
        rfl
      obtain ⟨k, hc, hin⟩ := h.inside hold
      refine h.step_inside hc hc (fun j hj => ?_) (hin.move (hin.moves_finish outcome hw))
      have hjob : task.job = some j := hj
      rw [hin.tasks w task hold] at hjob
      exact (Option.some.inj hjob).symm
  | @record w task e hw =>
      have hold : (s.workers w).task? = some task := by
        rw [hw]
        rfl
      obtain ⟨k, hc, hin⟩ := h.inside hold
      refine h.step_inside hc hc (fun j hj => ?_) (hin.move (hin.moves_record hw))
      have hjob : task.job = some j := hj
      rw [hin.tasks w task hold] at hjob
      exact (Option.some.inj hjob).symm
  | @leave w task hw =>
      obtain ⟨k, hc, hin⟩ := h.inside (by rw [hw]; rfl)
      exact h.step_inside hc hc (fun j hj => by cases hj) (hin.move (hin.moves_leave hw))
  | @stop k hc =>
      rw [hc] at hpresent
      obtain ⟨hidle, -, hk⟩ := hpresent
      have hpast := h.past
      have hfuture := h.future
      rw [hc] at hpast hfuture
      have hne : ∀ j, (Event.stop : Event E).job ≠ some j := fun j => by simp [Event.job]
      have hpool : s.pool.stop = { stopping := true } := by
        rw [Pool.stop, hidle.pool]
      exact
        { past := fun j hj => (hpast j hj).snoc (hne j)
          future := fun j hj => (hfuture j hj).snoc (hne j)
          present := ⟨{ pool := hpool, free := hidle.free }, hk.snoc (hne k)⟩ }

theorem reachable_inv (h : Run (machine n E jobs) log s) : Inv jobs log s := by
  refine h.invariant (I := Inv jobs) (fun s hs => ?_) fun log s e s' hinv hs => hinv.step hs
  have huntouched : ∀ j, Untouched ([] : List (Event E)) j := fun j =>
    { passed := fun stage i => rfl, thrown := rfl, settled := rfl }
  have hstart : s = { pool := {}, workers := fun _ => .waiting, caller := .idle 0 } := hs
  subst hstart
  exact
    { past := fun j hj => absurd hj (Nat.not_lt_zero j)
      future := fun j _ => huntouched j
      present := ⟨{ pool := rfl, free := fun w => rfl }, rfl, huntouched 0⟩ }

/-! ## What `forEach` promises -/

/-- The counters, and the unlocked reads of `job_`, in any state. -/
structure Counted (s : State n E) : Prop where
  /-- Indices not handed out, and workers whose task is not counted off. -/
  outstanding : s.pool.outstanding
    = (s.pool.taskCount - s.pool.nextIndex) + total busy s.workers
  nextIndex_le : s.pool.nextIndex ≤ s.pool.taskCount
  /-- A call is of the function of the job in progress, to which its index belongs. -/
  seen : ∀ w task seen, s.workers w = .running task seen →
    ∃ k, s.caller = .inside k ∧ task.job = some k ∧ seen = some k

theorem Inv.counted (h : Inv jobs log s) : Counted s := by
  have hpresent := h.present
  have hidle : Idle s → Counted s := fun hidle => by
    have hbusy : total busy s.workers = 0 :=
      total_eq_zero_iff.mpr fun w => busy_eq_zero_iff.mpr (hidle.free w)
    refine { outstanding := ?_, nextIndex_le := ?_, seen := fun w task seen hw => ?_ }
    · rw [hidle.pool, hbusy]
      rfl
    · rw [hidle.pool]
    · have hfree := hidle.free w
      rw [hw] at hfree
      cases hfree
  cases hc : s.caller with
  | inside k =>
      rw [hc] at hpresent
      have hout := hpresent.outstanding
      have hnext := hpresent.nextIndex_le
      refine { outstanding := by omega, nextIndex_le := hnext, seen := fun w task seen hw => ?_ }
      exact ⟨k, hc, hpresent.tasks w task (by rw [hw]; rfl), hpresent.seen w task seen hw⟩
  | idle k =>
      rw [hc] at hpresent
      exact hidle hpresent.1
  | joining k =>
      rw [hc] at hpresent
      exact hidle hpresent.1

theorem below_le {m m' : Nat} (h : m ≤ m') (i : Nat) : below m i ≤ below m' i := by
  unfold below
  split <;> split <;> omega

/-- No index is passed to a function twice, and none that is not below its count. -/
theorem Inv.at_most_once (h : Inv jobs log s) (j i : Nat) :
    passed .start j i log ≤ below (jobs j).count i := by
  rcases Nat.lt_trichotomy j s.caller.number with hlt | heq | hgt
  · exact (h.past j hlt .start i).le
  · have hpresent := h.present
    cases hc : s.caller with
    | inside k =>
        rw [hc] at hpresent heq
        have hj : j = k := heq
        subst hj
        have hpassed := hpresent.passed .start i
        have hle := below_le hpresent.nextIndex_le i
        rw [hpresent.taskCount] at hle
        omega
    | idle k =>
        rw [hc] at hpresent heq
        have hj : j = k := heq
        subst hj
        rw [hpresent.2.2.passed]
        exact Nat.zero_le _
    | joining k =>
        rw [hc] at hpresent heq
        have hj : j = k := heq
        subst hj
        rw [hpresent.2.passed]
        exact Nat.zero_le _
  · rw [(h.future j hgt).passed]
    exact Nat.zero_le _

/-- What a `forEach` that returns has done, and what it leaves behind. -/
structure Returns (jobs : Nat → Job) (k : Nat) (log : List (Event E)) (error : Option E)
    (s' : State n E) : Prop where
  /-- Every index below the count was passed to the function once, and no other was. -/
  started : ∀ i, passed .start k i log = if i < (jobs k).count then 1 else 0
  /-- All of these calls have finished. -/
  finished : ∀ i, passed .finish k i log = if i < (jobs k).count then 1 else 0
  rethrows : error.isSome ↔ 0 < thrown k log
  first : error = (recorded k log).head?
  idle : s'.pool = {}
  free : ∀ w, (s'.workers w).task? = none

theorem Inv.complete (h : Inv jobs log s) {error : Option E}
    (hs : Step jobs s (.returned k error) s') : Complete jobs log k := by
  have hpresent := h.present
  cases hs with
  | skip hc hzero =>
      rw [hc] at hpresent
      exact hpresent.2.2.complete hzero
  | done hc hzero =>
      rw [hc] at hpresent
      exact hpresent.complete hzero

theorem Inv.returns (h : Inv jobs log s) {error : Option E}
    (hs : Step jobs s (.returned k error) s') : Returns jobs k log error s' := by
  have hpresent := h.present
  have hcomplete := h.complete hs
  cases hs with
  | skip hc hzero =>
      rw [hc] at hpresent
      obtain ⟨hidle, hstop, hk⟩ := hpresent
      exact
        { started := hcomplete .start
          finished := hcomplete .finish
          rethrows := by rw [hk.thrown]; simp
          first := by rw [recorded, hk.settled]; rfl
          idle := by rw [hidle.pool, hstop]
          free := hidle.free }
  | done hc hzero =>
      rw [hc] at hpresent
      obtain ⟨hfirst, hrethrows⟩ := hpresent.error hzero
      have hidle : s.pool.endJob = { stopping := s.pool.endJob.stopping } :=
        (hpresent.endJob hzero).pool
      have hstop : s.pool.endJob.stopping = false := hpresent.stopping
      exact
        { started := hcomplete .start
          finished := hcomplete .finish
          rethrows := hrethrows
          first := hfirst
          idle := by
            rw [hstop] at hidle
            exact hidle
          free := (hpresent.drained hzero).2 }

/-- **The protocol.**  In every state of every run, with any number of workers, jobs and
throwing calls and any interleaving: the counters add up and each running call is of the
function its index belongs to; no index is called twice or beyond its count; and when a
`forEach` returns, each of its calls has been made once and has finished, the exception is
the first recorded and there is one if and only if a call threw, and the pool is idle. -/
theorem pool_protocol (h : Run (machine n E jobs) log s) :
    Counted s ∧ (∀ j i, passed .start j i log ≤ if i < (jobs j).count then 1 else 0) ∧
      ∀ k error s', Step jobs s (.returned k error) s' → Returns jobs k log error s' :=
  have hinv := reachable_inv h
  ⟨hinv.counted, hinv.at_most_once, fun _ _ _ hs => hinv.returns hs⟩

/-- A `forEach` may return once the counter is 0. -/
theorem exists_returned (_ : Run (machine n E jobs) log s) (hc : s.caller = .inside k)
    (hzero : s.pool.outstanding = 0) {error : Option E} (herror : s.pool.firstError = error) :
    ∃ s', Step jobs s (.returned k error) s' :=
  ⟨_, herror ▸ Step.done hc hzero⟩

/-- Two workers and a job of one call, which throws. -/
theorem pool_protocol_run :
    ∃ (log : List (Event Nat)) (s s' : State 2 Nat),
      Run (machine 2 Nat fun _ => { count := 1 }) log s ∧
        Step (fun _ => { count := 1 }) s (.returned 0 (some 7)) s' ∧
        Returns (fun _ => { count := 1 }) 0 log (some 7) s' := by
  have hcall := (Run.start rfl : Run (machine 2 Nat fun _ => { count := 1 }) [] _).step
    (Step.call rfl Nat.one_ne_zero)
  have htake := hcall.step (Step.enter (w := 1) rfl)
  have hstart := htake.step (Step.start (w := 1) rfl)
  have hfinish := hstart.step (Step.finish (w := 1) (some 7) rfl)
  have hrecord := hfinish.step (Step.record (w := 1) rfl)
  have hleave := hrecord.step (Step.leave (w := 1) rfl)
  obtain ⟨s', hreturn⟩ := exists_returned hleave rfl rfl rfl
  exact ⟨_, _, s', hleave, hreturn, (pool_protocol hleave).2.2 0 (some 7) s' hreturn⟩

end Compressly.ThreadPool

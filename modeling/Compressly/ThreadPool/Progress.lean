/-
# `Compressly.ThreadPool.Progress` — `forEach` returns, and the destructor

Whatever the workers and the caller do, in any order and without a spurious
wake-up,

    they can go on             until `forEach` has returned     (`exists_step`)
    they cannot go on for long  every step lowers the rank       (`rank_step`)

    rank   5 for an index that is not handed out, as for a worker that has just
           taken one; 1 for a worker that is about to look for one;
           the notification pays for the workers it wakes

A spurious wake-up costs one more look.
-/
import Compressly.ThreadPool.Wait

namespace Compressly.ThreadPool

open Threads

variable {E : Type} {n : Nat} {jobs : Nat → Job} {k : Nat}

/-! ## The rank -/

/-- The steps a worker has before it, up to its next look for an index. -/
def Worker.rank : Worker E × Bool → Nat
  | (.waiting, asleep) => if asleep then 0 else 1
  | (.taken _, _) => 5
  | (.running _ _, _) => 4
  | (.threw _ _, _) => 3
  | (.finished _, _) => 2
  | (.exited, _) => 0

def Phase.rank (n : Nat) : Phase → Nat
  | .notifying => n + 2
  | .looking => 1
  | .away | .asleep | .gone => 0

def Pool.rank (p : Pool E) : Nat := 5 * (p.taskCount - p.nextIndex)

def Waits.threads (s : Waits n E) (w : Fin n) : Worker E × Bool := (s.state.workers w, s.asleep w)

def Waits.rank (s : Waits n E) : Nat :=
  s.state.pool.rank + total Worker.rank s.threads + s.phase.rank n

theorem decrement_taskCount (p : Pool E) : p.decrement.taskCount = p.taskCount := by
  rw [Pool.decrement]

theorem decrement_rank (p : Pool E) : p.decrement.rank = p.rank := by
  rw [Pool.rank, Pool.rank, Pool.decrement]

/-- An index that is taken leaves the pool and is in the worker then. -/
theorem take_rank (p : Pool E) (hcount : p.taskCount < 2 ^ 64) :
    p.take.1.rank + Worker.rank (p.take.2, p.take.2.waits) ≤ p.rank := by
  rcases take_cases p with ⟨-, h⟩ | ⟨-, hmore, h⟩ | ⟨-, h⟩
  · rw [h]
    exact Nat.le_refl _
  · rw [h]
    have hnext : u64 (p.nextIndex + 1) = p.nextIndex + 1 := u64_of_lt (by omega)
    simp only [Pool.rank, Worker.rank, hnext]
    omega
  · rw [h]
    exact Nat.le_refl _

section Steps
variable {s t : Waits n E}

/-- One thread moves, asleep or awake. -/
theorem total_move {w : Fin n} {x : Worker E} {asleep : Bool}
    (hworkers : t.state.workers = Function.update s.state.workers w x)
    (hasleep : t.asleep = Function.update s.asleep w asleep) :
    total Worker.rank t.threads + Worker.rank (s.threads w)
      = total Worker.rank s.threads + Worker.rank (x, asleep) := by
  have hthreads : t.threads = Function.update s.threads w (x, asleep) := by
    funext v
    rw [Waits.threads, hworkers, hasleep]
    by_cases hvw : v = w
    · rw [hvw, Function.update_self, Function.update_self, Function.update_self]
    · rw [Function.update_of_ne hvw, Function.update_of_ne hvw, Function.update_of_ne hvw,
        Waits.threads]
  rw [hthreads]
  exact total_update Worker.rank s.threads w _

/-- A worker that is woken has one look more before it. -/
theorem rank_awake_le (x : Worker E) (asleep : Bool) :
    Worker.rank (x, false) ≤ Worker.rank (x, asleep) + 1 := by
  cases x with
  | waiting => exact Nat.le_add_left _ _
  | taken task => exact Nat.le_succ _
  | running task seen => exact Nat.le_succ _
  | threw task e => exact Nat.le_succ _
  | finished task => exact Nat.le_succ _
  | exited => exact Nat.le_succ _

/-- The caller moves, and nothing else does. -/
theorem rank_phase (s : Waits n E) (phase : Phase) :
    ({ s with phase := phase } : Waits n E).rank + s.phase.rank n = s.rank + phase.rank n :=
  Nat.add_right_comm _ _ _

/-- A worker that reaches the top of the loop has one step less before it. -/
theorem rank_atTop (hcount : s.state.pool.taskCount < 2 ^ 64) (w : Fin n) {p : Pool E}
    (hp : p.taskCount = s.state.pool.taskCount) (hrank : p.rank = s.state.pool.rank) :
    (s.atTop w p.take).rank + Worker.rank (s.threads w) ≤ s.rank := by
  have htake := take_rank p (hp ▸ hcount)
  have htotal : total Worker.rank (s.atTop w p.take).threads + Worker.rank (s.threads w)
      = total Worker.rank s.threads + Worker.rank (p.take.2, p.take.2.waits) := total_move rfl rfl
  change p.take.1.rank + total Worker.rank (s.atTop w p.take).threads + s.phase.rank n
    + Worker.rank (s.threads w) ≤ s.state.pool.rank + total Worker.rank s.threads + s.phase.rank n
  omega

/-- A worker goes on with its task. -/
theorem rank_task {e : Event E} {u : State n E} (he : e.ofTask) (hs : Step jobs s.state e u) :
    ({ s with state := u } : Waits n E).rank + 1 ≤ s.rank := by
  have hput : ∀ (w : Fin n) (p : Pool E) (x : Worker E), p.rank = s.state.pool.rank →
      Worker.rank (x, s.asleep w) + 1 ≤ Worker.rank (s.threads w) →
      ({ s with state := s.state.put w (p, x) } : Waits n E).rank + 1 ≤ s.rank := by
    intro w p x hp hx
    have htotal : total Worker.rank
        ({ s with state := s.state.put w (p, x) } : Waits n E).threads + Worker.rank (s.threads w)
          = total Worker.rank s.threads + Worker.rank (x, s.asleep w) :=
      total_move rfl (Function.update_eq_self w s.asleep).symm
    change p.rank + total Worker.rank ({ s with state := s.state.put w (p, x) } : Waits n E).threads
      + s.phase.rank n + 1 ≤ s.state.pool.rank + total Worker.rank s.threads + s.phase.rank n
    omega
  cases hs with
  | call _ _ => cases he
  | skip _ _ => cases he
  | await _ _ => cases he
  | done _ _ => cases he
  | enter _ => cases he
  | leave _ => cases he
  | stop _ => cases he
  | @start w task hw =>
      refine hput w _ _ rfl ?_
      rw [Waits.threads, hw]
      exact Nat.le_refl _
  | @finish w task seen outcome hw =>
      refine hput w _ _ rfl ?_
      rw [Waits.threads, hw]
      cases outcome with
      | none => exact Nat.le_succ _
      | some e => exact Nat.le_refl _
  | @record w task e hw =>
      refine hput w _ _ rfl ?_
      rw [Waits.threads, hw]
      exact Nat.le_refl _

/-- The caller is in `forEach`, or in the destructor. -/
def Waits.Busy (s : Waits n E) : Prop := ∀ k, s.state.caller ≠ .idle k

/-- While the caller is in the pool, every step but a spurious one lowers the rank. -/
theorem rank_step (hcount : s.state.pool.taskCount < 2 ^ 64) (hs : s.Busy) (ht : t.Busy)
    {a : Act E} (h : WaitStep jobs s a t) :
    t.rank + (!a.isSpurious).toNat ≤ s.rank + a.isSpurious.toNat := by
  cases h with
  | call _ h =>
      cases h with
      | call hc _ => exact absurd hc (hs _)
  | skip _ h =>
      cases h with
      | skip hc _ => exact absurd hc (hs _)
      | done _ _ => exact absurd rfl (ht _)
  | stop _ h =>
      cases h with
      | stop hc => exact absurd hc (hs _)
  | done _ h =>
      cases h with
      | skip hc _ => exact absurd hc (hs _)
      | done _ _ => exact absurd rfl (ht _)
  | notify hphase =>
      have htotal : total Worker.rank
          ({ s with asleep := fun _ => false, phase := .looking } : Waits n E).threads
            ≤ total Worker.rank s.threads + n * 1 :=
        total_le_add 1 fun w => rank_awake_le (s.state.workers w) (s.asleep w)
      change s.state.pool.rank + total Worker.rank
        ({ s with asleep := fun _ => false, phase := .looking } : Waits n E).threads + 1 + 1
          ≤ s.state.pool.rank + total Worker.rank s.threads + s.phase.rank n
      rw [hphase]
      change _ ≤ s.state.pool.rank + total Worker.rank s.threads + (n + 2)
      omega
  | await hphase _ _ =>
      have hrank := rank_phase s .asleep
      rw [hphase] at hrank
      exact hrank.le
  | @enter w hw hawake =>
      have htop := rank_atTop hcount w rfl rfl
      rw [Waits.threads, hw, hawake] at htop
      exact htop
  | task he h => exact rank_task he h
  | @leave w task hw =>
      have htop := rank_atTop hcount w (decrement_taskCount _) (decrement_rank _)
      rw [Waits.threads, hw] at htop
      have hphase : (s.atTop w s.state.pool.decrement.take).notifyFinished.phase.rank n
          ≤ s.phase.rank n + 1 := by
        unfold Waits.notifyFinished
        split
        · exact Nat.le_add_left _ _
        · exact Nat.le_succ _
      have hsame : (s.atTop w s.state.pool.decrement.take).notifyFinished.rank
          = s.state.pool.decrement.take.1.rank
            + total Worker.rank (s.atTop w s.state.pool.decrement.take).threads
            + (s.atTop w s.state.pool.decrement.take).notifyFinished.phase.rank n := rfl
      have htop' : s.state.pool.decrement.take.1.rank
          + total Worker.rank (s.atTop w s.state.pool.decrement.take).threads + s.phase.rank n + 2
            ≤ s.rank := htop
      change _ + 1 ≤ s.rank + 0
      omega
  | joined hphase _ _ =>
      have hrank := rank_phase s .gone
      rw [hphase] at hrank
      exact hrank.le
  | @wakeWorker w hw =>
      have htotal : total Worker.rank
          ({ s with asleep := Function.update s.asleep w false } : Waits n E).threads
            + Worker.rank (s.threads w)
          = total Worker.rank s.threads + Worker.rank (s.state.workers w, false) :=
        total_move (Function.update_eq_self w s.state.workers).symm rfl
      have hone : Worker.rank (s.state.workers w, false) ≤ Worker.rank (s.threads w) + 1 :=
        rank_awake_le _ _
      change s.state.pool.rank + total Worker.rank
        ({ s with asleep := Function.update s.asleep w false } : Waits n E).threads
          + s.phase.rank n + 0
        ≤ s.state.pool.rank + total Worker.rank s.threads + s.phase.rank n + 1
      omega
  | wakeCaller hphase =>
      have hrank := rank_phase s .looking
      rw [hphase] at hrank
      exact hrank.le

end Steps

/-! ## Somebody can go on -/

section Runs
variable {log : List (Act E)} {s : Waits n E}

theorem waits_inv (h : Run (waits n E jobs) log s) :
    Inv jobs (log.filterMap Act.event?) s.state := reachable_inv (waits_run h)

theorem Inv.taskCount_lt {log : List (Event E)} {s : State n E} (h : Inv jobs log s) :
    s.pool.taskCount < 2 ^ 64 := by
  have hpresent := h.present
  have hidle : Idle s → s.pool.taskCount < 2 ^ 64 := fun hidle => by
    rw [hidle.pool]
    exact Nat.two_pow_pos 64
  cases hc : s.caller with
  | inside k =>
      rw [hc] at hpresent
      rw [hpresent.taskCount]
      exact (jobs k).count_lt
  | idle k =>
      rw [hc] at hpresent
      exact hidle hpresent.1
  | joining k =>
      rw [hc] at hpresent
      exact hidle hpresent.1

/-- A worker with a task can go on with it. -/
theorem exists_step_of_task {w : Fin n} {task : Task}
    (hw : (s.state.workers w).task? = some task) :
    ∃ a t, WaitStep jobs s a t ∧ a.isSpurious = false := by
  cases hx : s.state.workers w with
  | waiting => rw [hx] at hw; cases hw
  | taken task' => exact ⟨_, _, .task rfl (.start hx), rfl⟩
  | running task' seen => exact ⟨_, _, .task rfl (.finish none hx), rfl⟩
  | threw task' e => exact ⟨_, _, .task rfl (.record hx), rfl⟩
  | finished task' => exact ⟨_, _, .leave hx, rfl⟩
  | exited => rw [hx] at hw; cases hw

/-- A worker that holds nothing can look at its condition, while there is work and no
notification is to come: it is awake. -/
theorem exists_step_of_work (halert : Alert s) {w : Fin n}
    (hw : (s.state.workers w).task? = none) (hexited : s.state.workers w ≠ .exited)
    (hphase : s.phase ≠ .notifying) (hwork : s.state.pool.hasWork) :
    ∃ a t, WaitStep jobs s a t ∧ a.isSpurious = false := by
  have hawake : s.asleep w = false := by
    cases hsleep : s.asleep w with
    | false => rfl
    | true => exact absurd hwork ((halert.worker w hsleep).resolve_left hphase)
  cases hx : s.state.workers w with
  | waiting => exact ⟨_, _, .enter hx hawake, rfl⟩
  | taken task => rw [hx] at hw; cases hw
  | running task seen => rw [hx] at hw; cases hw
  | threw task e => rw [hx] at hw; cases hw
  | finished task => rw [hx] at hw; cases hw
  | exited => exact absurd hx hexited

/-- The caller sleeps in a job: a worker has a task, or an index is left and a worker awake. -/
theorem exists_step_of_asleep (hn : 0 < n) (h : Run (waits n E jobs) log s)
    (hc : s.state.caller = .inside k) (hphase : s.phase = .asleep) :
    ∃ a t, WaitStep jobs s a t ∧ a.isSpurious = false := by
  have halert := waits_alert h
  have hin : Inside jobs k (log.filterMap Act.event?) s.state := by
    have hpresent := (waits_inv h).present
    rwa [hc] at hpresent
  by_cases hfree : ∀ w, (s.state.workers w).task? = none
  · have hbusy : total busy s.state.workers = 0 :=
      total_eq_zero_iff.mpr fun w => busy_eq_zero_iff.mpr (hfree w)
    have hzero := halert.caller hphase
    have hout := hin.outstanding
    refine exists_step_of_work halert (hfree ⟨0, hn⟩) (fun hexited => ?_) ?_ (Or.inr ?_)
    · have hstop := halert.exited _ hexited
      rw [hin.stopping] at hstop
      cases hstop
    · rw [hphase]
      decide
    · omega
  · obtain ⟨w, hw⟩ := not_forall.mp hfree
    obtain ⟨task, htask⟩ := Option.ne_none_iff_exists'.mp hw
    exact exists_step_of_task htask

/-- The destructor looks at its threads: all have left, or one can look and leave. -/
theorem exists_step_of_joining (h : Run (waits n E jobs) log s)
    (hc : s.state.caller = .joining k) (hphase : s.phase = .looking) :
    ∃ a t, WaitStep jobs s a t ∧ a.isSpurious = false := by
  have halert := waits_alert h
  have hidle : Idle s.state := by
    have hpresent := (waits_inv h).present
    rw [hc] at hpresent
    exact hpresent.1
  by_cases hall : ∀ w, s.state.workers w = .exited
  · exact ⟨_, _, .joined hphase hc hall, rfl⟩
  · obtain ⟨w, hw⟩ := not_forall.mp hall
    exact exists_step_of_work halert (hidle.free w) hw (by rw [hphase]; decide)
      (Or.inl (halert.stopping k hc))

/-- While the caller is in the pool somebody can go on, without a spurious wake-up. -/
theorem exists_step (hn : 0 < n) (h : Run (waits n E jobs) log s) (hbusy : s.Busy)
    (hgone : s.phase ≠ .gone) : ∃ a t, WaitStep jobs s a t ∧ a.isSpurious = false := by
  have hin := (waits_alert h).phase
  cases hphase : s.phase with
  | notifying => exact ⟨_, _, .notify hphase, rfl⟩
  | gone => exact absurd hphase hgone
  | away =>
      rw [hphase] at hin
      cases hc : s.state.caller with
      | idle k => exact absurd hc (hbusy k)
      | inside k => rw [hc] at hin; simp [Caller.phases] at hin
      | joining k => rw [hc] at hin; simp [Caller.phases] at hin
  | looking =>
      cases hc : s.state.caller with
      | idle k => exact absurd hc (hbusy k)
      | inside k =>
          by_cases hzero : s.state.pool.outstanding = 0
          · exact ⟨_, _, .done hphase (.done hc hzero), rfl⟩
          · exact ⟨_, _, .await hphase hc hzero, rfl⟩
      | joining k => exact exists_step_of_joining h hc hphase
  | asleep =>
      rw [hphase] at hin
      cases hc : s.state.caller with
      | idle k => exact absurd hc (hbusy k)
      | inside k => exact exists_step_of_asleep hn h hc hphase
      | joining k => rw [hc] at hin; simp [Caller.phases] at hin

/-! ## Not for long -/

theorem Waits.rank_le (h : Run (waits n E jobs) log s) :
    s.rank ≤ 5 * s.state.pool.outstanding + 2 * n + 2 := by
  have hcounted := (waits_inv h).counted
  have hworkers :
      total Worker.rank s.threads ≤ total (fun x => 5 * busy x) s.state.workers + n * 1 := by
    refine total_le_add 1 fun w => ?_
    rw [Waits.threads]
    cases s.state.workers w with
    | waiting =>
        cases s.asleep w with
        | false => exact Nat.le_refl _
        | true => exact Nat.zero_le _
    | taken task => exact Nat.le_succ _
    | running task seen => exact Nat.le_add_right 4 2
    | threw task e => exact Nat.le_add_right 3 3
    | finished task => exact Nat.le_add_right 2 4
    | exited => exact Nat.le_succ _
  have htotal : total (fun x => 5 * busy x) s.state.workers = 5 * total busy s.state.workers := by
    unfold total
    rw [Finset.mul_sum]
  have hphase : s.phase.rank n ≤ n + 2 := by
    cases s.phase <;> simp only [Phase.rank] <;> omega
  have hout := hcounted.outstanding
  have hpool : s.state.pool.rank = 5 * (s.state.pool.taskCount - s.state.pool.nextIndex) := rfl
  have hrank : s.rank = s.state.pool.rank + total Worker.rank s.threads + s.phase.rank n := rfl
  omega

/-- As long as the caller stays in the pool, only so many steps are made. -/
theorem count_steps_le (h : Run (waits n E jobs) log s) {I : Waits n E → Prop}
    (hI : ∀ t, I t → t.Busy) {acts : List (Act E)} {t : Waits n E}
    (ht : Stretch (waits n E jobs) I s acts t) :
    acts.countP (fun a => !a.isSpurious)
      ≤ 5 * s.state.pool.outstanding + 2 * n + 2 + acts.countP Act.isSpurious := by
  have hreach : ∀ t a t', (∃ log, Run (waits n E jobs) log t) → WaitStep jobs t a t' →
      ∃ log, Run (waits n E jobs) log t' := fun t a t' ⟨log, hrun⟩ ha => ⟨_, hrun.step ha⟩
  have hcount := (ht.and hreach ⟨log, h⟩).count_le Waits.rank Act.isSpurious
    fun {u u'} _ hu hu' ha => by
      obtain ⟨log', hrun⟩ := hu.2
      exact rank_step (waits_inv hrun).taskCount_lt (hI u hu.1) (hI u' hu'.1) ha
  have hrank := Waits.rank_le h
  omega

/-! ## `forEach` and the destructor -/

theorem Alert.inside_phase (h : Alert s) (hc : s.state.caller = .inside k) : s.phase ≠ .gone := by
  intro hgone
  have hphase := h.phase
  rw [hc, hgone] at hphase
  simp [Caller.phases] at hphase

/-- **`forEach` returns.**  From any state in it, somebody can go on without a spurious wake-up;
before it returns, at most `5 * count + 2 * n + 2` steps are made and one for each spurious
wake-up; and where it returns, it has done what it promised. -/
theorem forEach_returns (hn : 0 < n) (h : Run (waits n E jobs) log s)
    (hc : s.state.caller = .inside k) :
    (∃ a t, WaitStep jobs s a t ∧ a.isSpurious = false) ∧
      (∀ acts t, Stretch (waits n E jobs) (fun u => u.state.caller = .inside k) s acts t →
        acts.countP (fun a => !a.isSpurious)
          ≤ 5 * (jobs k).count + 2 * n + 2 + acts.countP Act.isSpurious) ∧
      ∀ a t, WaitStep jobs s a t → t.state.caller ≠ .inside k → ∃ error,
        a = .shown (.returned k error) ∧
          Returns jobs k (log.filterMap Act.event?) error t.state := by
  have hinv := waits_inv h
  have hin : Inside jobs k (log.filterMap Act.event?) s.state := by
    have hpresent := hinv.present
    rwa [hc] at hpresent
  refine ⟨exists_step hn h (fun k' hk' => by rw [hc] at hk'; cases hk')
    ((waits_alert h).inside_phase hc), fun acts t ht => ?_, fun a t ha hleft => ?_⟩
  · have hcount := count_steps_le h (fun u hu k' hk' => by rw [hu] at hk'; cases hk') ht
    have hout := hin.outstanding_le
    rw [hin.taskCount] at hout
    omega
  · have hreturned : ∀ {k' : Nat} {error : Option E} {u : State n E},
        Step jobs s.state (.returned k' error) u →
        k' = k ∧ Returns jobs k (log.filterMap Act.event?) error u := fun {k' error u} hs => by
      have hk : k' = k := by
        cases hs with
        | skip hidle _ => rw [hc] at hidle; cases hidle
        | done hinside _ => rw [hc] at hinside; cases hinside; rfl
      exact ⟨hk, hk ▸ hinv.returns hs⟩
    cases ha with
    | call _ hs =>
        cases hs with
        | call hidle _ => rw [hc] at hidle; cases hidle
    | stop _ hs =>
        cases hs with
        | stop hidle => rw [hc] at hidle; cases hidle
    | skip _ hs =>
        obtain ⟨rfl, hr⟩ := hreturned hs
        exact ⟨_, rfl, hr⟩
    | done _ hs =>
        obtain ⟨rfl, hr⟩ := hreturned hs
        exact ⟨_, rfl, hr⟩
    | task he hs =>
        cases hs with
        | start _ => exact absurd hc hleft
        | finish _ _ => exact absurd hc hleft
        | record _ => exact absurd hc hleft
        | call _ _ => cases he
        | skip _ _ => cases he
        | await _ _ => cases he
        | done _ _ => cases he
        | enter _ => cases he
        | leave _ => cases he
        | stop _ => cases he
    | notify _ => exact absurd hc hleft
    | await _ _ _ => exact absurd hc hleft
    | enter _ _ => exact absurd hc hleft
    | leave _ => exact absurd hc hleft
    | joined _ _ _ => exact absurd hc hleft
    | wakeWorker _ => exact absurd hc hleft
    | wakeCaller _ => exact absurd hc hleft

/-- A job of one call begins on a pool of one worker. -/
theorem forEach_returns_run :
    ∃ (log : List (Act Nat)) (s : Waits 1 Nat), s.state.caller = .inside 0 ∧
      (∃ a t, WaitStep (fun _ => { count := 1 }) s a t ∧ a.isSpurious = false) ∧
        (∀ acts t, Stretch (waits 1 Nat fun _ => { count := 1 })
            (fun u => u.state.caller = .inside 0) s acts t →
          acts.countP (fun a => !a.isSpurious) ≤ 9 + acts.countP Act.isSpurious) ∧
        ∀ a t, WaitStep (fun _ => { count := 1 }) s a t → t.state.caller ≠ .inside 0 → ∃ error,
          a = .shown (.returned 0 error) ∧
            Returns (fun _ => { count := 1 }) 0 (log.filterMap Act.event?) error t.state := by
  have hcall := run_fresh.step (WaitStep.call rfl (Step.call rfl Nat.one_ne_zero))
  exact ⟨_, _, rfl, forEach_returns Nat.one_pos hcall rfl⟩

/-- The destructor is done when all threads have left, and they do not come back. -/
theorem gone_exited (h : Run (waits n E jobs) log s) :
    s.phase = .gone → ∀ w, s.state.workers w = .exited := by
  refine h.invariant (I := fun _ t => t.phase = .gone → ∀ w, t.state.workers w = .exited)
    (fun t ht hgone => ?_) fun log t a t' ih hs hgone => ?_
  · rw [ht.2.2] at hgone
    cases hgone
  cases hs with
  | call _ _ => cases hgone
  | skip hphase _ =>
      rw [hphase] at hgone
      cases hgone
  | stop _ _ => cases hgone
  | notify _ => cases hgone
  | await _ _ _ => cases hgone
  | done _ _ => cases hgone
  | @enter w hw _ =>
      have hexited := ih hgone w
      rw [hw] at hexited
      cases hexited
  | task he hs =>
      cases hs with
      | @start w task hw =>
          have hexited := ih hgone w
          rw [hw] at hexited
          cases hexited
      | @finish w task seen outcome hw =>
          have hexited := ih hgone w
          rw [hw] at hexited
          cases hexited
      | @record w task e hw =>
          have hexited := ih hgone w
          rw [hw] at hexited
          cases hexited
      | call _ _ => cases he
      | skip _ _ => cases he
      | await _ _ => cases he
      | done _ _ => cases he
      | enter _ => cases he
      | leave _ => cases he
      | stop _ => cases he
  | @leave w task hw =>
      have hstill : t.phase = .gone := by
        have hphase : (if t.state.pool.decrement.take.1.outstanding = 0 ∧ t.phase = .asleep
          then Phase.looking else t.phase) = .gone := hgone
        split at hphase
        · cases hphase
        · exact hphase
      have hexited := ih hstill w
      rw [hw] at hexited
      cases hexited
  | joined _ _ hall => exact hall
  | wakeWorker _ => exact ih hgone
  | wakeCaller _ => cases hgone

/-- **The destructor returns.**  From any state in it, somebody can go on without a spurious
wake-up until it is done; at most `2 * n + 2` steps are made and one for each spurious wake-up;
no worker holds a task, and when it is done all threads have left. -/
theorem destructor_joins (hn : 0 < n) (h : Run (waits n E jobs) log s)
    (hc : s.state.caller = .joining k) :
    (s.phase ≠ .gone → ∃ a t, WaitStep jobs s a t ∧ a.isSpurious = false) ∧
      (∀ acts t, Stretch (waits n E jobs) (fun u => u.state.caller = .joining k) s acts t →
        acts.countP (fun a => !a.isSpurious) ≤ 2 * n + 2 + acts.countP Act.isSpurious) ∧
      (∀ w, (s.state.workers w).task? = none) ∧
      (s.phase = .gone → ∀ w, s.state.workers w = .exited) := by
  have hidle : Idle s.state := by
    have hpresent := (waits_inv h).present
    rw [hc] at hpresent
    exact hpresent.1
  refine ⟨exists_step hn h (fun k' hk' => by rw [hc] at hk'; cases hk'), fun acts t ht => ?_,
    hidle.free, gone_exited h⟩
  have hcount := count_steps_le h (fun u hu k' hk' => by rw [hu] at hk'; cases hk') ht
  have hzero : s.state.pool.outstanding = 0 := by rw [hidle.pool]
  omega

/-- The destructor begins. -/
theorem destructor_joins_run :
    ∃ s : Waits 1 Nat, s.state.caller = .joining 0 ∧
      (s.phase ≠ .gone → ∃ a t, WaitStep (fun _ => { count := 1 }) s a t ∧ a.isSpurious = false) ∧
        (∀ acts t, Stretch (waits 1 Nat fun _ => { count := 1 })
            (fun u => u.state.caller = .joining 0) s acts t →
          acts.countP (fun a => !a.isSpurious) ≤ 4 + acts.countP Act.isSpurious) ∧
        (∀ w, (s.state.workers w).task? = none) ∧
        (s.phase = .gone → ∀ w, s.state.workers w = .exited) := by
  have hstop := run_fresh.step (WaitStep.stop rfl (Step.stop rfl))
  exact ⟨_, rfl, destructor_joins Nat.one_pos hstop rfl⟩

end Runs

end Compressly.ThreadPool

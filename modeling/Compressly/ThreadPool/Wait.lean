/-
# `Compressly.ThreadPool.Wait` — the condition variables of the pool

`Basic` lets a thread in `wait` look at its condition at any time.  Here it
looks, goes to sleep, and looks again only when it is notified (or spuriously):

    workAvailable_   workers sleep on it; notified by `forEach` and the
                     destructor, after the lock that set the fields
    jobFinished_     the caller sleeps on it; notified in the lock of the
                     decrement, when the counter is 0 then

Seen without its wait sets, this pool is that of `Basic` (`waits_refines`).  Each
notification comes after the change it is about, and a thread that sleeps has
nothing to do until then: no wake-up is lost (`Alert`).
-/
import Compressly.ThreadPool.Protocol

namespace Compressly.ThreadPool

open Threads

variable {E : Type} {n : Nat} {jobs : Nat → Job} {k : Nat}

/-! ## The steps -/

/-- Where the caller is. -/
inductive Phase
  /-- Outside of the functions of the pool. -/
  | away
  /-- The fields are set, `workAvailable_.notify_all()` is to come. -/
  | notifying
  /-- Before a look: of `forEach` at its condition, of the destructor at its threads. -/
  | looking
  /-- In the wait set of `jobFinished_`. -/
  | asleep
  /-- The destructor has joined its threads. -/
  | gone
deriving DecidableEq

structure Waits (n : Nat) (E : Type) where
  state : State n E
  /-- The wait set of `workAvailable_`. -/
  asleep : Fin n → Bool
  phase : Phase

inductive Act (E : Type)
  | shown (e : Event E)
  /-- `workAvailable_.notify_all()`. -/
  | notify
  /-- The last thread is joined. -/
  | joined
  | spurious

def Act.event? : Act E → Option (Event E)
  | .shown e => some e
  | .notify | .joined | .spurious => none

def Act.isSpurious : Act E → Bool
  | .spurious => true
  | .shown _ | .notify | .joined => false

/-- What a worker does between the top of the loop and the decrement. -/
def Event.ofTask : Event E → Bool
  | .start _ _ | .finish _ _ | .record _ _ => true
  | .call _ | .returned _ _ | .woke | .leave _ | .stop => false

def Worker.waits : Worker E → Bool
  | .waiting => true
  | _ => false

/-- The top of the loop, reached by worker `w`: it goes to sleep where it has to wait. -/
def Waits.atTop (s : Waits n E) (w : Fin n) (next : Pool E × Worker E) : Waits n E :=
  { s with
    state := s.state.put w next
    asleep := Function.update s.asleep w next.2.waits }

/-- `if (--outstanding_ == 0) jobFinished_.notify_all();`, after the decrement. -/
def Waits.notifyFinished (s : Waits n E) : Waits n E :=
  { s with
    phase := if s.state.pool.outstanding = 0 ∧ s.phase = .asleep then .looking else s.phase }

inductive WaitStep (jobs : Nat → Job) : Waits n E → Act E → Waits n E → Prop
  | call {s : Waits n E} {k : Nat} {t : State n E} : s.phase = .away →
      Step jobs s.state (.call k) t →
      WaitStep jobs s (.shown (.call k)) { s with state := t, phase := .notifying }
  /-- A `forEach` of no calls. -/
  | skip {s : Waits n E} {k : Nat} {error : Option E} {t : State n E} : s.phase = .away →
      Step jobs s.state (.returned k error) t →
      WaitStep jobs s (.shown (.returned k error)) { s with state := t }
  | stop {s : Waits n E} {t : State n E} : s.phase = .away → Step jobs s.state .stop t →
      WaitStep jobs s (.shown .stop) { s with state := t, phase := .notifying }
  | notify {s : Waits n E} : s.phase = .notifying →
      WaitStep jobs s .notify { s with asleep := fun _ => false, phase := .looking }
  | await {s : Waits n E} {k : Nat} : s.phase = .looking → s.state.caller = .inside k →
      s.state.pool.outstanding ≠ 0 →
      WaitStep jobs s (.shown .woke) { s with phase := .asleep }
  | done {s : Waits n E} {k : Nat} {error : Option E} {t : State n E} : s.phase = .looking →
      Step jobs s.state (.returned k error) t →
      WaitStep jobs s (.shown (.returned k error)) { s with state := t, phase := .away }
  /-- A worker that is not asleep looks at its condition. -/
  | enter {s : Waits n E} {w : Fin n} : s.state.workers w = .waiting → s.asleep w = false →
      WaitStep jobs s (.shown .woke) (s.atTop w s.state.pool.take)
  | task {s : Waits n E} {e : Event E} {t : State n E} : e.ofTask → Step jobs s.state e t →
      WaitStep jobs s (.shown e) { s with state := t }
  | leave {s : Waits n E} {w : Fin n} {task : Task} : s.state.workers w = .finished task →
      WaitStep jobs s (.shown (.leave task))
        (s.atTop w s.state.pool.decrement.take).notifyFinished
  | joined {s : Waits n E} {k : Nat} : s.phase = .looking → s.state.caller = .joining k →
      (∀ w, s.state.workers w = .exited) →
      WaitStep jobs s .joined { s with phase := .gone }
  | wakeWorker {s : Waits n E} {w : Fin n} : s.asleep w →
      WaitStep jobs s .spurious { s with asleep := Function.update s.asleep w false }
  | wakeCaller {s : Waits n E} : s.phase = .asleep →
      WaitStep jobs s .spurious { s with phase := .looking }

/-- The pool of `machine`, with its condition variables. -/
def waits (n : Nat) (E : Type) (jobs : Nat → Job) : Machine (Waits n E) (Act E) where
  start s := (machine n E jobs).start s.state ∧ (∀ w, s.asleep w = false) ∧ s.phase = .away
  step := WaitStep jobs

/-- A pool of one worker, before its first job. -/
def fresh : Waits 1 Nat where
  state := { pool := {}, workers := fun _ => .waiting, caller := .idle 0 }
  asleep := fun _ => false
  phase := .away

theorem run_fresh : Run (waits 1 Nat fun _ => { count := 1 }) [] fresh :=
  .start ⟨rfl, fun _ => rfl, rfl⟩

/-! ## What is left without the wait sets -/

theorem waits_refines :
    Refines (waits n E jobs) (machine n E jobs) Waits.state Act.event? where
  start h := h.1
  step {s s' a e} h he := by
    cases h with
    | call _ hs => cases he; exact hs
    | skip _ hs => cases he; exact hs
    | stop _ hs => cases he; exact hs
    | await _ hc hne => cases he; exact .await hc hne
    | done _ hs => cases he; exact hs
    | enter hw _ => cases he; exact .enter hw
    | task _ hs => cases he; exact hs
    | leave hw => cases he; exact .leave hw
    | notify _ => cases he
    | joined _ _ _ => cases he
    | wakeWorker _ => cases he
    | wakeCaller _ => cases he
  stutter {s s' a} h he := by
    cases h with
    | notify _ => rfl
    | joined _ _ _ => rfl
    | wakeWorker _ => rfl
    | wakeCaller _ => rfl
    | call _ _ => cases he
    | skip _ _ => cases he
    | stop _ _ => cases he
    | await _ _ _ => cases he
    | done _ _ => cases he
    | enter _ _ => cases he
    | task _ _ => cases he
    | leave _ => cases he

/-! ## No wake-up is lost -/

/-- The condition of `workAvailable_`. -/
def Pool.hasWork (p : Pool E) : Prop := p.stopping = true ∨ p.nextIndex < p.taskCount

/-- The phases a caller may be in. -/
def Caller.phases : Caller → List Phase
  | .idle _ => [.away]
  | .inside _ => [.notifying, .looking, .asleep]
  | .joining _ => [.notifying, .looking, .gone]

structure Alert (s : Waits n E) : Prop where
  waiting : ∀ w, s.asleep w → s.state.workers w = .waiting
  /-- A worker sleeps only while there is no work, or until the notification that is to come. -/
  worker : ∀ w, s.asleep w → s.phase = .notifying ∨ ¬ s.state.pool.hasWork
  /-- The caller sleeps only while some call is outstanding. -/
  caller : s.phase = .asleep → s.state.pool.outstanding ≠ 0
  phase : s.phase ∈ s.state.caller.phases
  stopping : ∀ k, s.state.caller = .joining k → s.state.pool.stopping = true
  exited : ∀ w, s.state.workers w = .exited → s.state.pool.stopping = true

/-- The top of the loop, case by case. -/
theorem take_cases (p : Pool E) :
    p.stopping = true ∧ p.take = (p, .exited) ∨
    p.stopping = false ∧ p.nextIndex < p.taskCount ∧
      p.take = ({ p with nextIndex := u64 (p.nextIndex + 1) },
        .taken { job := p.job, index := p.nextIndex }) ∨
    ¬ p.hasWork ∧ p.take = (p, .waiting) := by
  unfold Pool.take Pool.hasWork
  cases hstop : p.stopping with
  | true => exact Or.inl ⟨rfl, rfl⟩
  | false =>
      by_cases hmore : p.nextIndex < p.taskCount
      · exact Or.inr (Or.inl ⟨rfl, hmore, by rw [if_neg (by decide), if_pos hmore]⟩)
      · exact Or.inr (Or.inr ⟨by simpa using hmore, by rw [if_neg (by decide), if_neg hmore]⟩)

theorem take_outstanding (p : Pool E) : p.take.1.outstanding = p.outstanding := by
  rcases take_cases p with ⟨-, h⟩ | ⟨-, -, h⟩ | ⟨-, h⟩ <;> rw [h]

section Steps
variable {s s' : Waits n E}

/-- A sleeping worker goes on sleeping where the phase and the work stay as they are. -/
theorem Alert.sleeps (h : Alert s) {p : Pool E} (hwork : p.hasWork → s.state.pool.hasWork)
    {w : Fin n} (hw : s.asleep w) : s.phase = .notifying ∨ ¬ p.hasWork :=
  (h.worker w hw).imp_right fun hno hp => hno (hwork hp)

/-- A worker reaches the top of the loop; its decrement has left `outstanding`. -/
theorem Alert.atTop (h : Alert s) (w : Fin n) {outstanding : Nat}
    (hcaller : s.phase = .asleep → outstanding ≠ 0) :
    Alert (s.atTop w ({ s.state.pool with outstanding := outstanding } : Pool E).take) := by
  have htake := take_cases ({ s.state.pool with outstanding := outstanding } : Pool E)
  have hout := take_outstanding ({ s.state.pool with outstanding := outstanding } : Pool E)
  generalize ({ s.state.pool with outstanding := outstanding } : Pool E).take = next at htake hout
  have hstop : next.1.stopping = s.state.pool.stopping := by
    rcases htake with ⟨-, rfl⟩ | ⟨-, -, rfl⟩ | ⟨-, rfl⟩ <;> rfl
  have hasleep : ∀ v, (s.atTop w next).asleep v
      = if v = w then next.2.waits else s.asleep v := fun v => Function.update_apply _ w _ v
  have hworkers : ∀ v, (s.atTop w next).state.workers v
      = if v = w then next.2 else s.state.workers v := fun v => Function.update_apply _ w _ v
  refine
    { waiting := fun v hv => ?_
      worker := fun v hv => ?_
      caller := fun hphase => ?_
      phase := h.phase
      stopping := fun k hk => ?_
      exited := fun v hv => ?_ }
  · rw [hasleep] at hv
    rw [hworkers]
    by_cases hvw : v = w
    · rw [if_pos hvw] at hv ⊢
      cases hnext : next.2 with
      | waiting => rfl
      | taken task => rw [hnext] at hv; cases hv
      | running task seen => rw [hnext] at hv; cases hv
      | threw task e => rw [hnext] at hv; cases hv
      | finished task => rw [hnext] at hv; cases hv
      | exited => rw [hnext] at hv; cases hv
    · rw [if_neg hvw] at hv ⊢
      exact h.waiting v hv
  · rw [hasleep] at hv
    rcases htake with ⟨-, rfl⟩ | ⟨hfalse, hmore, rfl⟩ | ⟨hno, rfl⟩
    · by_cases hvw : v = w
      · rw [if_pos hvw] at hv
        cases hv
      · rw [if_neg hvw] at hv
        exact h.worker v hv
    · by_cases hvw : v = w
      · rw [if_pos hvw] at hv
        cases hv
      · rw [if_neg hvw] at hv
        exact h.sleeps (fun _ => Or.inr hmore) hv
    · exact Or.inr hno
  · change next.1.outstanding ≠ 0
    rw [hout]
    exact hcaller hphase
  · change next.1.stopping = true
    rw [hstop]
    exact h.stopping k hk
  · change next.1.stopping = true
    rw [hstop]
    rw [hworkers] at hv
    by_cases hvw : v = w
    · rw [if_pos hvw] at hv
      rcases htake with ⟨htrue, rfl⟩ | ⟨-, -, rfl⟩ | ⟨-, rfl⟩
      · exact htrue
      · cases hv
      · cases hv
    · rw [if_neg hvw] at hv
      exact h.exited v hv

/-- A worker moves on with its task. -/
theorem Alert.task (h : Alert s) {e : Event E} {t : State n E} (he : e.ofTask)
    (hs : Step jobs s.state e t) : Alert { s with state := t } := by
  have hput : ∃ w task p x, (s.state.workers w).task? = some task ∧ x ≠ .exited ∧
      p.stopping = s.state.pool.stopping ∧ p.nextIndex = s.state.pool.nextIndex ∧
      p.taskCount = s.state.pool.taskCount ∧ p.outstanding = s.state.pool.outstanding ∧
      t = s.state.put w (p, x) := by
    cases hs with
    | call _ _ => cases he
    | skip _ _ => cases he
    | await _ _ => cases he
    | done _ _ => cases he
    | enter _ => cases he
    | leave _ => cases he
    | stop _ => cases he
    | @start w task hw =>
        exact ⟨w, task, s.state.pool, .running task s.state.pool.job, by rw [hw]; rfl, by simp,
          rfl, rfl, rfl, rfl, rfl⟩
    | @finish w task seen outcome hw =>
        refine ⟨w, task, s.state.pool, afterCall task outcome, by rw [hw]; rfl, ?_, rfl, rfl, rfl,
          rfl, rfl⟩
        cases outcome <;> simp [afterCall]
    | @record w task e hw =>
        exact ⟨w, task, s.state.pool.record e, .finished task, by rw [hw]; rfl, by simp,
          rfl, rfl, rfl, rfl, rfl⟩
  obtain ⟨w, task, p, x, hold, hx, hstop, hnext, hcount, hout, rfl⟩ := hput
  have hne : ∀ v, s.asleep v → v ≠ w := fun v hv hvw => by
    rw [← hvw, h.waiting v hv] at hold
    cases hold
  refine
    { waiting := fun v hv => ?_
      worker := fun v hv => h.sleeps (fun hp => ?_) hv
      caller := fun hphase => ?_
      phase := h.phase
      stopping := fun k hk => hstop.trans (h.stopping k hk)
      exited := fun v hv => hstop.trans ?_ }
  · exact (Function.update_of_ne (hne v hv) _ _).trans (h.waiting v hv)
  · unfold Pool.hasWork at hp ⊢
    rwa [← hstop, ← hnext, ← hcount]
  · exact hout ▸ h.caller hphase
  · have hv' : Function.update s.state.workers w x v = .exited := hv
    rw [Function.update_apply] at hv'
    by_cases hvw : v = w
    · rw [if_pos hvw] at hv'
      exact absurd hv' hx
    · rw [if_neg hvw] at hv'
      exact h.exited v hv'

/-- A notification that finds the caller asleep. -/
theorem Alert.looking (h : Alert s) (hphase : s.phase = .asleep) :
    Alert { s with phase := .looking } where
  waiting := h.waiting
  worker w hw := by
    rcases h.worker w hw with hn | hno
    · rw [hphase] at hn
      cases hn
    · exact Or.inr hno
  caller hlook := by cases hlook
  phase := by
    have hin := h.phase
    rw [hphase] at hin
    change Phase.looking ∈ s.state.caller.phases
    cases hc : s.state.caller with
    | idle k => rw [hc] at hin; cases hin; contradiction
    | inside k => simp [Caller.phases]
    | joining k => simp [Caller.phases]
  stopping := h.stopping
  exited := h.exited

theorem Alert.step {a : Act E} (h : Alert s) (hs : WaitStep jobs s a s') : Alert s' := by
  cases hs with
  | call hphase hs =>
      cases hs with
      | call hc hne =>
          exact
            { waiting := h.waiting
              worker := fun w hw => Or.inl rfl
              caller := fun hasleep => by cases hasleep
              phase := by simp [Caller.phases]
              stopping := fun k hk => by cases hk
              exited := h.exited }
  | skip hphase hs =>
      cases hs with
      | skip hc hzero =>
          exact
            { waiting := h.waiting
              worker := h.worker
              caller := h.caller
              phase := by simp [Caller.phases, hphase]
              stopping := fun k hk => by cases hk
              exited := h.exited }
      | done hc hzero =>
          have hin := h.phase
          rw [hphase, hc] at hin
          simp [Caller.phases] at hin
  | stop hphase hs =>
      cases hs with
      | stop hc =>
          exact
            { waiting := h.waiting
              worker := fun w hw => Or.inl rfl
              caller := fun hasleep => by cases hasleep
              phase := by simp [Caller.phases]
              stopping := fun k hk => rfl
              exited := fun w hw => rfl }
  | notify hphase =>
      have hin := h.phase
      rw [hphase] at hin
      refine
        { waiting := fun w hw => by cases hw
          worker := fun w hw => by cases hw
          caller := fun hasleep => by cases hasleep
          phase := ?_
          stopping := h.stopping
          exited := h.exited }
      change Phase.looking ∈ s.state.caller.phases
      cases hc : s.state.caller with
      | idle k => rw [hc] at hin; simp [Caller.phases] at hin
      | inside k => simp [Caller.phases]
      | joining k => simp [Caller.phases]
  | await hphase hc hne =>
      exact
        { waiting := h.waiting
          worker := fun w hw => (h.worker w hw).imp_left fun hn => by rw [hphase] at hn; cases hn
          caller := fun _ => hne
          phase := by simp [Caller.phases, hc]
          stopping := h.stopping
          exited := h.exited }
  | done hphase hs =>
      have hno : ∀ w, s.asleep w → ¬ s.state.pool.hasWork := fun w hw =>
        (h.worker w hw).resolve_left fun hn => by rw [hphase] at hn; cases hn
      cases hs with
      | skip hc hzero =>
          have hin := h.phase
          rw [hphase, hc] at hin
          simp [Caller.phases] at hin
      | done hc hzero =>
          refine
            { waiting := h.waiting
              worker := fun w hw => Or.inr fun hwork => hno w hw (Or.inl ?_)
              caller := fun hasleep => by cases hasleep
              phase := by simp [Caller.phases]
              stopping := fun k hk => by cases hk
              exited := h.exited }
          -- the fields of a job that is over leave no index
          rcases hwork with hstop | hmore
          · exact hstop
          · exact absurd hmore (Nat.not_lt_zero 0)
  | enter hw hawake => exact h.atTop _ h.caller
  | task he hs => exact h.task he hs
  | @leave w task hw =>
      have hout := take_outstanding s.state.pool.decrement
      -- the notification, if there is one, comes before the top of the loop
      by_cases hwake : s.state.pool.decrement.outstanding = 0 ∧ s.phase = .asleep
      · have hlook : Alert (({ s with phase := .looking } : Waits n E).atTop w
            s.state.pool.decrement.take) :=
          (h.looking hwake.2).atTop w fun hasleep => by cases hasleep
        have heq : (s.atTop w s.state.pool.decrement.take).notifyFinished
            = ({ s with phase := .looking } : Waits n E).atTop w s.state.pool.decrement.take := by
          unfold Waits.notifyFinished
          rw [if_pos ⟨hout.trans hwake.1, hwake.2⟩]
          rfl
        rw [heq]
        exact hlook
      · have htop : Alert (s.atTop w s.state.pool.decrement.take) :=
          h.atTop w fun hasleep hzero => hwake ⟨hzero, hasleep⟩
        have heq : (s.atTop w s.state.pool.decrement.take).notifyFinished
            = s.atTop w s.state.pool.decrement.take := by
          unfold Waits.notifyFinished
          rw [if_neg fun hzero => hwake ⟨hout.symm.trans hzero.1, hzero.2⟩]
        rw [heq]
        exact htop
  | joined hphase hc hall =>
      exact
        { waiting := h.waiting
          worker := fun w hw => by
            have hwaiting := h.waiting w hw
            rw [hall w] at hwaiting
            cases hwaiting
          caller := fun hasleep => by cases hasleep
          phase := by simp [Caller.phases, hc]
          stopping := h.stopping
          exited := h.exited }
  | @wakeWorker w hw =>
      have hstill : ∀ v, Function.update s.asleep w false v = true → s.asleep v = true := by
        intro v hv
        rw [Function.update_apply] at hv
        by_cases hvw : v = w
        · rw [if_pos hvw] at hv
          cases hv
        · rwa [if_neg hvw] at hv
      exact
        { waiting := fun v hv => h.waiting v (hstill v hv)
          worker := fun v hv => h.worker v (hstill v hv)
          caller := h.caller
          phase := h.phase
          stopping := h.stopping
          exited := h.exited }
  | wakeCaller hphase => exact h.looking hphase

end Steps

section Runs
variable {log : List (Act E)} {s : Waits n E}

theorem waits_run (h : Run (waits n E jobs) log s) :
    Run (machine n E jobs) (log.filterMap Act.event?) s.state := h.refine waits_refines

theorem waits_alert (h : Run (waits n E jobs) log s) : Alert s := by
  refine h.invariant (I := fun _ => Alert) (fun s hs => ?_) fun _ _ _ _ halert hs => halert.step hs
  obtain ⟨hstate, hawake, hphase⟩ := hs
  have hs : s.state = { pool := {}, workers := fun _ => .waiting, caller := .idle 0 } := hstate
  have hno : ∀ w, ¬ s.asleep w = true := fun w hw => by
    rw [hawake w] at hw
    cases hw
  exact
    { waiting := fun w hw => absurd hw (hno w)
      worker := fun w hw => absurd hw (hno w)
      caller := fun hasleep => by rw [hphase] at hasleep; cases hasleep
      phase := by simp [hs, hphase, Caller.phases]
      stopping := fun k hk => by rw [hs] at hk; cases hk
      exited := fun w hw => by rw [hs] at hw; cases hw }

/-- **No wake-up is lost.**  Every run of the pool with its wait sets is a run of the protocol,
and in every state of it a worker that sleeps has no work or is about to be notified, and a
caller that sleeps has a call outstanding. -/
theorem no_lost_wakeup (h : Run (waits n E jobs) log s) :
    Run (machine n E jobs) (log.filterMap Act.event?) s.state ∧ Alert s :=
  ⟨waits_run h, waits_alert h⟩

end Runs

/-- A worker goes to sleep, then a job of one call begins: the notification is still to come. -/
theorem no_lost_wakeup_run :
    ∃ (log : List (Event Nat)) (s : Waits 1 Nat), s.asleep 0 = true ∧ s.phase = .notifying ∧
      s.state.pool.hasWork ∧ Run (machine 1 Nat fun _ => { count := 1 }) log s.state ∧
      Alert s := by
  have hsleep := run_fresh.step (WaitStep.enter (w := 0) rfl rfl)
  have hcall := hsleep.step (WaitStep.call rfl (Step.call rfl Nat.one_ne_zero))
  obtain ⟨hrun, halert⟩ := no_lost_wakeup hcall
  exact ⟨_, _, rfl, rfl, Or.inr Nat.one_pos, hrun, halert⟩

end Compressly.ThreadPool

/-
# `Compressly.Lib.Calls` — threads that call and are answered

The atomic service: a thread that has no request open makes one, and is given an
answer that the request alone allows (`may`).  What a thread sees of a run, in
any interleaving, is one request after the other, each followed by an answer to
it (`Run.sequential`).

An implementation whose runs show runs of this machine answers every thread as
if it were the only one.
-/
import Compressly.Lib.Threads

namespace Calls

open Threads

variable {W Req Ans : Type} [DecidableEq W] {may : Req → Ans → Prop}

inductive Event (W Req Ans : Type)
  | call (w : W) (request : Req)
  | answer (w : W) (answer : Ans)

def Event.thread : Event W Req Ans → W
  | .call w _ => w
  | .answer w _ => w

/-- The open requests, before and after an event. -/
inductive Step (may : Req → Ans → Prop) :
    (W → Option Req) → Event W Req Ans → (W → Option Req) → Prop
  | call {s : W → Option Req} {w : W} {r : Req} : s w = none →
      Step may s (.call w r) (Function.update s w (some r))
  | answer {s : W → Option Req} {w : W} {r : Req} {a : Ans} : s w = some r → may r a →
      Step may s (.answer w a) (Function.update s w none)

def service (W : Type) [DecidableEq W] (may : Req → Ans → Prop) :
    Machine (W → Option Req) (Event W Req Ans) where
  start s := ∀ w, s w = none
  step := Step may

/-- What thread `w` sees of a run. -/
def own (w : W) (log : List (Event W Req Ans)) : List (Event W Req Ans) :=
  log.filter fun e => e.thread = w

/-- A request with its answer, as `w` sees it. -/
def exchange (w : W) (x : Req × Ans) : List (Event W Req Ans) := [.call w x.1, .answer w x.2]

theorem own_append (w : W) (log : List (Event W Req Ans)) (e : Event W Req Ans) :
    own w (log ++ [e]) = own w log ++ if e.thread = w then [e] else [] := by
  unfold own
  rw [List.filter_append]
  by_cases h : e.thread = w
  · simp [h]
  · simp [h]

/-- A thread is answered one request after the other. -/
def Sequential (may : Req → Ans → Prop) (w : W) (log : List (Event W Req Ans))
    (pending : Option Req) : Prop :=
  ∃ exchanges : List (Req × Ans), (∀ x ∈ exchanges, may x.1 x.2) ∧
    own w log = exchanges.flatMap (exchange w) ++ pending.toList.map (Event.call w)

theorem Sequential.step {s s' : W → Option Req} {e : Event W Req Ans}
    {log : List (Event W Req Ans)} (h : Step may s e s') {w : W}
    (hw : Sequential may w log (s w)) : Sequential may w (log ++ [e]) (s' w) := by
  obtain ⟨exchanges, hmay, hown⟩ := hw
  cases h with
  | @call v r hv =>
      by_cases hvw : v = w
      · subst hvw
        refine ⟨exchanges, hmay, ?_⟩
        rw [own_append, hown, hv, Function.update_self]
        simp [Event.thread]
      · refine ⟨exchanges, hmay, ?_⟩
        rw [own_append, hown, Function.update_of_ne (Ne.symm hvw)]
        simp [Event.thread, hvw]
  | @answer v r a hv ha =>
      by_cases hvw : v = w
      · subst hvw
        refine ⟨exchanges ++ [(r, a)], ?_, ?_⟩
        · intro x hx
          rcases List.mem_append.mp hx with hx | hx
          · exact hmay x hx
          · rw [List.mem_singleton.mp hx]
            exact ha
        · rw [own_append, hown, hv, Function.update_self]
          simp [Event.thread, exchange]
      · refine ⟨exchanges, hmay, ?_⟩
        rw [own_append, hown, Function.update_of_ne (Ne.symm hvw)]
        simp [Event.thread, hvw]

theorem sequential_of_run {log : List (Event W Req Ans)} {s : W → Option Req}
    (h : Run (service W may) log s) (w : W) : Sequential may w log (s w) := by
  refine Run.invariant (I := fun log s => Sequential may w log (s w)) ?_ ?_ h
  · intro s hs
    refine ⟨[], by simp, ?_⟩
    rw [hs w]
    rfl
  · intro log s e s' hlog hstep
    exact Sequential.step hstep hlog

/-! ## Single exchanges -/

/-- `w` made the request and was given the answer next. -/
def Exchanged (w : W) (log : List (Event W Req Ans)) (r : Req) (a : Ans) : Prop :=
  [.call w r, .answer w a] <:+: own w log

omit [DecidableEq W] in
theorem mem_exchanges {w : W} {r : Req} {a : Ans} {exchanges : List (Req × Ans)}
    {pending : List Req} (hpending : pending.length ≤ 1)
    (h : [Event.call w r, .answer w a] <:+:
      exchanges.flatMap (exchange w) ++ pending.map (Event.call w)) : (r, a) ∈ exchanges := by
  induction exchanges with
  | nil =>
      have hlen := h.length_le
      simp at hlen
      omega
  | cons x exchanges ih =>
      rw [List.flatMap_cons, List.append_assoc] at h
      change _ <:+: Event.call w x.1 :: Event.answer w x.2 :: _ at h
      rcases List.infix_cons_iff.mp h with hhead | h
      · obtain ⟨t, ht⟩ := hhead
        injection ht with hcall ht
        injection ht with hanswer ht
        injection hcall with _ hr
        injection hanswer with _ ha
        rw [hr, ha]
        exact List.mem_cons_self ..
      · rcases List.infix_cons_iff.mp h with hhead | h
        · obtain ⟨t, ht⟩ := hhead
          injection ht with hcall ht
          cases hcall
        · exact List.mem_cons_of_mem _ (ih h)

/-- In a run each exchange is one that the request allows. -/
theorem Exchanged.allowed {log : List (Event W Req Ans)} {s : W → Option Req}
    (h : Run (service W may) log s) {w : W} {r : Req} {a : Ans} (hx : Exchanged w log r a) :
    may r a := by
  obtain ⟨exchanges, hmay, hown⟩ := sequential_of_run h w
  unfold Exchanged at hx
  rw [hown] at hx
  have hpending : (s w).toList.length ≤ 1 := by
    cases s w with
    | none => exact Nat.zero_le _
    | some r => exact Nat.le_refl _
  exact hmay _ (mem_exchanges hpending hx)

end Calls

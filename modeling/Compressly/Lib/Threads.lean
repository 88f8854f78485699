/-
# `Compressly.Lib.Threads` — runs of a machine, sums over its threads

A `Machine` steps from state to state and each step shows as an event; a run
keeps the events in order.  What holds at the start and is kept by every step
holds at the end of every run (`Run.invariant`).

A machine refines another if each of its steps is a step of the other, or shows
nothing of it; then its runs are runs of the other (`Run.refine`).  A rank that
falls with every step but some bounds the number of steps (`Stretch.count_le`).

`total f threads` adds up what `f` says of the single threads.  A step of one
thread changes one summand (`total_update`).
-/
import Mathlib

namespace Threads

/-! ## Runs -/

section Runs
variable {σ ev : Type}

structure Machine (σ ev : Type) where
  start : σ → Prop
  step : σ → ev → σ → Prop

/-- A run, with its events from the first to the last. -/
inductive Run (m : Machine σ ev) : List ev → σ → Prop
  | start {s : σ} : m.start s → Run m [] s
  | step {log : List ev} {s s' : σ} {e : ev} : Run m log s → m.step s e s' → Run m (log ++ [e]) s'

theorem Run.invariant {m : Machine σ ev} {I : List ev → σ → Prop}
    (hstart : ∀ s, m.start s → I [] s)
    (hstep : ∀ log s e s', I log s → m.step s e s' → I (log ++ [e]) s')
    {log : List ev} {s : σ} (h : Run m log s) : I log s := by
  induction h with
  | start h => exact hstart _ h
  | step _ h ih => exact hstep _ _ _ _ ih h

/-- The steps of `m` from the states with `I`. -/
def Machine.within (m : Machine σ ev) (I : σ → Prop) : Machine σ ev where
  start := m.start
  step s e s' := I s ∧ m.step s e s'

/-- An invariant may be assumed of every step of a run. -/
theorem Run.within {m : Machine σ ev} {I : σ → Prop} (hstart : ∀ s, m.start s → I s)
    (hstep : ∀ s e s', I s → m.step s e s' → I s') {log : List ev} {s : σ} (h : Run m log s) :
    I s ∧ Run (m.within I) log s := by
  induction h with
  | start hs => exact ⟨hstart _ hs, .start hs⟩
  | step _ he ih => exact ⟨hstep _ _ _ ih.1 he, ih.2.step ⟨ih.1, he⟩⟩

end Runs

/-! ## Refinement -/

section Refinement
variable {σ τ ev fv : Type} {m : Machine σ ev} {m' : Machine τ fv} {f : σ → τ}
  {shown : ev → Option fv}

/-- Seen through `f` and `shown`, `m` does what `m'` does. -/
structure Refines (m : Machine σ ev) (m' : Machine τ fv) (f : σ → τ) (shown : ev → Option fv) :
    Prop where
  start : ∀ {s : σ}, m.start s → m'.start (f s)
  step : ∀ {s s' : σ} {e : ev} {e' : fv}, m.step s e s' → shown e = some e' →
    m'.step (f s) e' (f s')
  stutter : ∀ {s s' : σ} {e : ev}, m.step s e s' → shown e = none → f s' = f s

theorem Run.refine (h : Refines m m' f shown) {log : List ev} {s : σ} (hrun : Run m log s) :
    Run m' (log.filterMap shown) (f s) := by
  induction hrun with
  | start hs => exact .start (h.start hs)
  | @step log s s' e _ hstep ih =>
      rw [List.filterMap_append, List.filterMap_cons, List.filterMap_nil]
      cases he : shown e with
      | none =>
          rw [h.stutter hstep he]
          simpa using ih
      | some e' => exact ih.step (h.step hstep he)

end Refinement

/-! ## Steps counted -/

section Stretches
variable {σ ev : Type} {m : Machine σ ev} {I : σ → Prop}

/-- Steps from one state to another, with `I` in every state on the way. -/
inductive Stretch (m : Machine σ ev) (I : σ → Prop) (s : σ) : List ev → σ → Prop
  | refl : I s → Stretch m I s [] s
  | step {log : List ev} {t t' : σ} {e : ev} : Stretch m I s log t → m.step t e t' → I t' →
      Stretch m I s (log ++ [e]) t'

theorem Stretch.last {s t : σ} {log : List ev} (h : Stretch m I s log t) : I t := by
  cases h with
  | refl h => exact h
  | step _ _ h => exact h

/-- What every step keeps, and what held at the start, holds on the way. -/
theorem Stretch.and {J : σ → Prop} (hstep : ∀ t e t', J t → m.step t e t' → J t') {s t : σ}
    {log : List ev} (h : Stretch m I s log t) (hs : J s) :
    Stretch m (fun u => I u ∧ J u) s log t := by
  induction h with
  | refl h => exact .refl ⟨h, hs⟩
  | step _ he ht' ih => exact ih.step he ⟨ht', hstep _ _ _ ih.last.2 he⟩

/-- A rank that falls with every step, but may rise by 1 with a `free` one. -/
theorem Stretch.count_le (rank : σ → Nat) (free : ev → Bool)
    (hstep : ∀ {s t : σ} {e : ev}, I s → I t → m.step s e t →
      rank t + (!free e).toNat ≤ rank s + (free e).toNat)
    {s t : σ} {log : List ev} (h : Stretch m I s log t) :
    rank t + log.countP (fun e => !free e) ≤ rank s + log.countP free := by
  induction h with
  | refl => exact Nat.le_refl _
  | @step log t t' e hlog he ht' ih =>
      have hone := hstep hlog.last ht' he
      rw [List.countP_append, List.countP_append, List.countP_singleton, List.countP_singleton]
      cases hfree : free e with
      | false =>
          rw [hfree] at hone
          simp only [Bool.not_false, Bool.toNat_true, Bool.toNat_false, if_true,
            Bool.false_eq_true, if_false] at hone ⊢
          omega
      | true =>
          rw [hfree] at hone
          simp only [Bool.not_true, Bool.toNat_true, Bool.toNat_false, if_true,
            Bool.false_eq_true, if_false] at hone ⊢
          omega

end Stretches

/-! ## Sums -/

section Totals
variable {α : Type} {n : Nat}

def total (f : α → Nat) (threads : Fin n → α) : Nat := ∑ w, f (threads w)

/-- One thread moves, the others stay. -/
theorem total_update (f : α → Nat) (threads : Fin n → α) (w : Fin n) (x : α) :
    total f (Function.update threads w x) + f (threads w) = total f threads + f x := by
  have hold := Finset.add_sum_erase Finset.univ (fun v => f (threads v)) (Finset.mem_univ w)
  have hnew := Finset.add_sum_erase Finset.univ (fun v => f (Function.update threads w x v))
    (Finset.mem_univ w)
  have hothers : ∑ v ∈ Finset.univ.erase w, f (Function.update threads w x v)
      = ∑ v ∈ Finset.univ.erase w, f (threads v) := by
    refine Finset.sum_congr rfl fun v hv => ?_
    rw [Function.update_of_ne (Finset.ne_of_mem_erase hv)]
  simp only [Function.update_self] at hnew
  unfold total
  omega

theorem total_le_add {β : Type} {f : α → Nat} {g : β → Nat} {threads : Fin n → α}
    {threads' : Fin n → β} (c : Nat) (h : ∀ w, f (threads w) ≤ g (threads' w) + c) :
    total f threads ≤ total g threads' + n * c := by
  unfold total
  refine (Finset.sum_le_sum fun w _ => h w).trans ?_
  rw [Finset.sum_add_distrib, Finset.sum_const, Finset.card_univ, Fintype.card_fin, smul_eq_mul]

theorem total_eq_zero_iff {f : α → Nat} {threads : Fin n → α} :
    total f threads = 0 ↔ ∀ w, f (threads w) = 0 := by
  unfold total
  rw [Finset.sum_eq_zero_iff]
  simp

end Totals

end Threads

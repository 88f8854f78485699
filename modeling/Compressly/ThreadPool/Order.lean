/-
# `Compressly.ThreadPool.Order` — a run of the pool is an order of its calls

The codec takes a job of the pool as its calls in some order (`forEach`).  Here
that order is read off a run of the protocol: that in which the calls were
settled.  Each index occurs in it once (`settled_perm`), and what `forEach`
throws for it is what the pool rethrows (`forEach_of_run`).
-/
import Compressly.Codec.Encode
import Compressly.ThreadPool.Protocol

namespace Compressly.ThreadPool

open Threads

variable {n : Nat} {jobs : Nat → Job} {k : Nat}

section Settled
variable {E : Type} {log : List (Event E)}

/-- The indices of a job, in the order in which its calls were settled. -/
def settledOrder (k : Nat) (log : List (Event E)) : List Nat := (settled k log).map Prod.fst

theorem settles_passes (k i : Nat) (e : Event E) :
    ((e.settles k).toList.map Prod.fst).count i = (e.passes .settle k i).toNat := by
  cases e with
  | finish task outcome =>
      cases outcome with
      | none =>
          by_cases hjob : task.job = some k <;> by_cases hi : task.index = i <;>
            simp [Event.settles, Event.passes, hjob, hi]
      | some e => simp [Event.settles, Event.passes]
  | record task e =>
      by_cases hjob : task.job = some k <;> by_cases hi : task.index = i <;>
        simp [Event.settles, Event.passes, hjob, hi]
  | start task seen => simp [Event.settles, Event.passes]
  | call k' => rfl
  | returned k' error => rfl
  | woke => rfl
  | leave task => rfl
  | stop => rfl

theorem count_settledOrder (k i : Nat) (log : List (Event E)) :
    (settledOrder k log).count i = passed .settle k i log := by
  induction log using List.reverseRecOn with
  | nil => rfl
  | append_singleton log e ih =>
      rw [settledOrder] at ih ⊢
      rw [settled_snoc, passed_snoc, List.map_append, List.count_append, ih, settles_passes]

theorem settled_perm (h : Complete jobs log k) :
    (settledOrder k log).Perm (List.range (jobs k).count) := by
  refine List.perm_iff_count.mpr fun i => ?_
  rw [count_settledOrder, h .settle i, List.count_range]
  rfl

/-- The order of a job that is complete. -/
def orderOf (h : Complete jobs log k) : Order (jobs k).count where
  calls := settledOrder k log
  perm := settled_perm h

end Settled

/-! ## The exception -/

section Exceptions
variable {β : Type} {f : Nat → Result β} {log : List (Event Error)}

def exception : Result β → Option Error
  | .ok _ => none
  | .error e => some e

/-- Over any calls that fill their slots, the first exception is kept. -/
theorem exception_foldl {calls : List Nat} {slots : List β} (hlt : ∀ i ∈ calls, i < slots.length)
    (first : Option Error) :
    (calls.foldl (poolCall (slotCall f)) (slots, first)).2
      = first.or (calls.filterMap fun i => exception (f i)).head? := by
  induction calls generalizing slots first with
  | nil => exact (Option.or_none).symm
  | cons i calls ih =>
      have hi := hlt i List.mem_cons_self
      have htail : ∀ j ∈ calls, j < slots.length := fun j hj => hlt j (List.mem_cons_of_mem _ hj)
      rw [List.foldl_cons, poolCall, slotCall]
      cases hcall : f i with
      | ok b =>
          simp only [bind_ok, store_of_lt hi]
          rw [ih (by simpa using htail), List.filterMap_cons_none (by rw [hcall]; rfl)]
      | error e =>
          rw [List.filterMap_cons_some (by rw [hcall]; rfl)]
          refine (ih htail (first.or (some e))).trans ?_
          cases first with
          | none => rfl
          | some e' => rfl

theorem exception_forEach {count : Nat} (order : Order count) {slots : List β}
    (hslots : count ≤ slots.length) :
    exception (forEach order (slotCall f) slots)
      = (order.calls.filterMap fun i => exception (f i)).head? := by
  have hlt : ∀ i ∈ order.calls, i < slots.length := fun i hi =>
    (List.mem_range.mp (order.perm.subset hi)).trans_le hslots
  have hfold := exception_foldl (f := f) hlt none
  rw [Option.none_or] at hfold
  rw [← hfold, forEach]
  split
  case h_1 slots' h => rw [h]; rfl
  case h_2 slots' e h => rw [h]; rfl

/-- **A run of the pool is an order.**  Where the calls of a job end as `f` says, the job ends
as `forEach` does for the order in which they were settled. -/
theorem forEach_of_run {s s' : State n Error} (h : Run (machine n Error jobs) log s)
    {error : Option Error} (hs : Step jobs s (.returned k error) s')
    (hf : ∀ p ∈ settled k log, p.2 = exception (f p.1)) {slots : List β}
    (hslots : (jobs k).count ≤ slots.length) :
    ∃ order : Order (jobs k).count, exception (forEach order (slotCall f) slots) = error := by
  have hinv := reachable_inv h
  refine ⟨orderOf (hinv.complete hs), ?_⟩
  have hcalls : (settledOrder k log).filterMap (fun i => exception (f i)) = recorded k log := by
    rw [settledOrder, List.filterMap_map, recorded]
    exact List.filterMap_congr fun p hp => (hf p hp).symm
  exact (exception_forEach _ hslots).trans
    ((congrArg List.head? hcalls).trans (hinv.returns hs).first.symm)

end Exceptions

end Compressly.ThreadPool

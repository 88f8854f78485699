/-
# `Compressly.Lib.Loop` — loops that read

    while (more s) s = body s reader;

A `Body` carries the proof that every round moves the reader closer to its end;
so the loop is total whatever the input, also where its condition is about what
has been produced and the input is not what the program expects.

    loop_rule         what every round keeps, the loop keeps
    loop_run          a loop that ends took a run of rounds: `Run`, on the list
                      the reader denotes
    Run.stable        a run does not look beyond what it consumed
    loop_append       so a loop that ends goes the same way on a longer input
-/
import Compressly.Lib.Parse

namespace Loop

open Parse

variable {ε ρ σ τ : Type}

/-- A loop body that always consumes. -/
structure Body (ε ρ σ : Type) where
  run : σ → ρ → Except ε (σ × ρ)
  size : ρ → Nat
  decreases : ∀ {s : σ} {r : ρ} {s' : σ} {r' : ρ}, run s r = .ok (s', r') → size r' < size r

/-- `while (more s) s = body s reader`. -/
def Body.loop (b : Body ε ρ σ) (more : σ → Bool) (s : σ) (r : ρ) : Except ε (σ × ρ) :=
  if more s then
    match _h : b.run s r with
    | .error e => .error e
    | .ok (s', r') => b.loop more s' r'
  else .ok (s, r)
termination_by b.size r
decreasing_by exact b.decreases ‹_›

section Rules
variable {b : Body ε ρ σ} {more : σ → Bool} {s : σ} {r : ρ}

theorem loop_done (h : more s = false) : b.loop more s r = .ok (s, r) := by
  rw [Body.loop, if_neg (by simp [h])]

theorem loop_error (h : more s = true) {e : ε} (he : b.run s r = .error e) :
    b.loop more s r = .error e := by
  rw [Body.loop, if_pos h]
  split
  case h_1 e' he' =>
    rw [he] at he'
    cases he'
    rfl
  case h_2 s' r' he' =>
    rw [he] at he'
    cases he'

theorem loop_step (h : more s = true) {s' : σ} {r' : ρ} (hr : b.run s r = .ok (s', r')) :
    b.loop more s r = b.loop more s' r' := by
  rw [Body.loop, if_pos h]
  split
  case h_1 e' he' =>
    rw [hr] at he'
    cases he'
  case h_2 s'' r'' he' =>
    rw [hr] at he'
    cases he'
    rfl

/-- The invariant rule: `I` holds of the states, `E` of the exceptions. -/
theorem loop_rule {I : σ → ρ → Prop} {E : ε → Prop}
    (hok : ∀ s r s' r', I s r → more s = true → b.run s r = .ok (s', r') → I s' r')
    (herr : ∀ s r e, I s r → more s = true → b.run s r = .error e → E e) (h : I s r) :
    match b.loop more s r with
    | .ok (s', r') => I s' r' ∧ more s' = false
    | .error e => E e := by
  induction hn : b.size r using Nat.strong_induction_on generalizing s r with
  | _ n ih =>
      cases hmore : more s with
      | false =>
          rw [loop_done hmore]
          exact ⟨h, hmore⟩
      | true =>
          cases hrun : b.run s r with
          | error e =>
              rw [loop_error hmore hrun]
              exact herr s r e h hmore hrun
          | ok sr =>
              rw [loop_step hmore hrun]
              exact ih _ (hn ▸ b.decreases hrun) (hok s r sr.1 sr.2 h hmore hrun) rfl

end Rules

/-! ## Runs -/

/-- The rounds of a loop that ends, with a parser for its body. -/
inductive Run (more : σ → Bool) (g : σ → Parser ε τ σ) : σ → List τ → σ → List τ → Prop
  | done {s : σ} {p : List τ} : more s = false → Run more g s p s p
  | step {s s' s'' : σ} {p p' rest : List τ} : more s = true → g s p = .ok (s', p') →
      Run more g s' p' s'' rest → Run more g s p s'' rest

section Run
variable {more : σ → Bool} {g : σ → Parser ε τ σ} {s s' : σ} {p rest : List τ}

/-- A run goes the same way on any longer input. -/
theorem Run.stable (hg : ∀ s, Stable (g s)) (h : Run more g s p s' rest) (t : List τ) :
    Run more g s (p ++ t) s' (rest ++ t) := by
  induction h with
  | done hmore => exact .done hmore
  | step hmore hstep _ ih => exact .step hmore (hg _ _ _ _ hstep t) ih

variable {b : Body ε ρ σ} {den : ρ → List τ} (hsim : ∀ s, Simulates den (b.run s) (g s))
include hsim

/-- A loop that ends took a run. -/
theorem loop_run {r r' : ρ} (h : b.loop more s r = .ok (s', r')) :
    Run more g s (den r) s' (den r') := by
  induction hn : b.size r using Nat.strong_induction_on generalizing s r with
  | _ n ih =>
      cases hmore : more s with
      | false =>
          rw [loop_done hmore] at h
          cases h
          exact .done hmore
      | true =>
          cases hrun : b.run s r with
          | error e =>
              rw [loop_error hmore hrun] at h
              cases h
          | ok sr =>
              rw [loop_step hmore hrun] at h
              exact .step hmore ((hsim s).ok hrun) (ih _ (hn ▸ b.decreases hrun) h rfl)

/-- A loop takes the run there is. -/
theorem loop_of_run (h : Run more g s p s' rest) {r : ρ} (hr : den r = p) :
    ∃ r', b.loop more s r = .ok (s', r') ∧ den r' = rest := by
  induction h generalizing r with
  | done hmore => exact ⟨r, loop_done hmore, hr⟩
  | step hmore hstep _ ih =>
      rw [← hr] at hstep
      obtain ⟨r₁, hrun, hr₁⟩ := (hsim _).of_ok hstep
      rw [loop_step hmore hrun]
      exact ih hr₁

/-- A loop goes the same way on a longer input, and leaves the rest of it. -/
theorem loop_append (hg : ∀ s, Stable (g s)) {r r' r₁ : ρ} {t : List τ}
    (h : b.loop more s r = .ok (s', r')) (hr : den r₁ = den r ++ t) :
    ∃ r₁', b.loop more s r₁ = .ok (s', r₁') ∧ den r₁' = den r' ++ t :=
  loop_of_run hsim ((loop_run hsim h).stable hg t) hr

end Run

end Loop

/-
# `Compressly.Lib.Output` — computations that write to a stream

What was written stays when an exception follows: the output is a state that
survives exceptions (`Writing`).  A stream may report after a write that it is
no longer good; `writeAll` throws then.

`Cut e x y`: the computation `y` does what `x` does, or ends with `e` at some
write, having offered a part of what `x` writes.  The same program on a stream
that does not fail and on one that may is such a pair: sequencing and loops keep
it (`Cut.bind`, `Cut.forM`).
-/
import Mathlib

namespace Output

variable {β ε α γ : Type}

/-- A computation that appends to an output. -/
abbrev Writing (β ε : Type) := ExceptT ε (StateM (List β))

/-- How a computation ends on top of an output, and the output then. -/
def outcome (x : Writing β ε α) (w : List β) : Except ε α × List β := StateT.run (ExceptT.run x) w

/-- Whether a stream is still good after a write, given what was written before. -/
abbrev Stream (β : Type) := List β → List β → Bool

/-- The stream that does not fail. -/
def Stream.ideal : Stream β := fun _ _ => true

/-- `out.write(..); if (!out) throw e;`, nothing for no bytes. -/
def writeAll (e : ε) (good : Stream β) (bytes : List β) : Writing β ε Unit := do
  if bytes.isEmpty then pure ()
  else do
    let written ← get
    set (written ++ bytes)
    if good written bytes then pure () else throw e

/-- A result that has nothing to do with the output. -/
def lift (r : Except ε α) : Writing β ε α :=
  match r with
  | .ok a => pure a
  | .error e => throw e

theorem outcome_bind (x : Writing β ε α) (f : α → Writing β ε γ) (w : List β) :
    outcome (x >>= f) w
      = match outcome x w with
        | (.ok a, w') => outcome (f a) w'
        | (.error e, w') => (.error e, w') := by
  unfold outcome
  rw [ExceptT.run_bind, StateT.run_bind]
  change (match StateT.run (ExceptT.run x) w with
    | (a, w') => _) = _
  rcases StateT.run (ExceptT.run x) w with ⟨r, w'⟩
  cases r with
  | ok a => rfl
  | error e => rfl

@[simp] theorem outcome_pure (a : α) (w : List β) :
    outcome (pure a : Writing β ε α) w = (.ok a, w) := rfl

@[simp] theorem outcome_lift (r : Except ε α) (w : List β) :
    outcome (lift r : Writing β ε α) w = (r, w) := by
  cases r with
  | ok a => rfl
  | error e => rfl

theorem outcome_lift_bind (r : Except ε α) (f : α → Writing β ε γ) (w : List β) :
    outcome (lift r >>= f) w
      = match r with
        | .ok a => outcome (f a) w
        | .error e => (.error e, w) := by
  rw [outcome_bind, outcome_lift]
  cases r with
  | ok a => rfl
  | error e => rfl

/-- The same, with other names for its exceptions. -/
def rethrow {ε' : Type} (f : ε → ε') (x : Writing β ε α) : Writing β ε' α :=
  ExceptT.mk (Except.mapError f <$> ExceptT.run x)

@[simp] theorem outcome_rethrow {ε' : Type} (f : ε → ε') (x : Writing β ε α) (w : List β) :
    outcome (rethrow f x) w = ((outcome x w).1.mapError f, (outcome x w).2) := rfl

theorem outcome_writeAll (e : ε) (good : Stream β) (bytes w : List β) :
    outcome (writeAll e good bytes) w
      = (if bytes = [] ∨ good w bytes then .ok () else .error e, w ++ bytes) := by
  cases bytes with
  | nil => simp [writeAll]
  | cons b bytes =>
      change outcome (if good w (b :: bytes) then pure () else throw e) (w ++ b :: bytes) = _
      cases good w (b :: bytes) with
      | true => simp
      | false =>
          rw [if_neg (by decide), if_neg (by simp)]
          rfl

@[simp] theorem outcome_writeAll_ideal (e : ε) (bytes w : List β) :
    outcome (writeAll e .ideal bytes) w = (.ok (), w ++ bytes) := by
  rw [outcome_writeAll, if_pos]
  exact Or.inr rfl

/-! ## Streams that fail -/

/-- `y` ends as `x`, or with `e` after a part of what `x` writes. -/
structure Cut (e : ε) (x y : Writing β ε α) : Prop where
  appends : ∀ w, w <+: (outcome x w).2
  cases : ∀ w, outcome y w = outcome x w ∨
    ∃ w', outcome y w = (.error e, w') ∧ w <+: w' ∧ w' <+: (outcome x w).2

section Cut
variable {e : ε}

theorem Cut.lift (r : Except ε α) : Cut e (lift r : Writing β ε α) (lift r) where
  appends w := by rw [outcome_lift]
  cases w := Or.inl rfl

theorem Cut.pure (a : α) : Cut e (Pure.pure a : Writing β ε α) (Pure.pure a) := .lift (.ok a)

theorem Cut.writeAll (good : Stream β) (bytes : List β) :
    Cut e (writeAll e .ideal bytes) (writeAll e good bytes) where
  appends w := by
    rw [outcome_writeAll_ideal]
    exact List.prefix_append w bytes
  cases w := by
    rw [outcome_writeAll_ideal, outcome_writeAll]
    by_cases hgood : bytes = [] ∨ good w bytes = true
    · rw [if_pos hgood]
      exact Or.inl rfl
    · rw [if_neg hgood]
      exact Or.inr ⟨w ++ bytes, rfl, List.prefix_append w bytes, List.prefix_rfl⟩

theorem Cut.bind {x y : Writing β ε α} {f g : α → Writing β ε γ} (h : Cut e x y)
    (hf : ∀ a, Cut e (f a) (g a)) : Cut e (x >>= f) (y >>= g) := by
  have hmore : ∀ w, (outcome x w).2 <+: (outcome (x >>= f) w).2 := by
    intro w
    rw [outcome_bind]
    rcases outcome x w with ⟨r, w'⟩
    cases r with
    | ok a => exact (hf a).appends w'
    | error e' => exact List.prefix_rfl
  refine ⟨fun w => (h.appends w).trans (hmore w), fun w => ?_⟩
  rcases h.cases w with hsame | ⟨w', hfail, hw, hpre⟩
  · rw [outcome_bind, outcome_bind, hsame]
    have happ := h.appends w
    generalize outcome x w = ended at happ ⊢
    rcases ended with ⟨r, w'⟩
    cases r with
    | error e' => exact Or.inl rfl
    | ok a =>
        rcases (hf a).cases w' with hsame' | ⟨w'', hfail, hw', hpre⟩
        · exact Or.inl hsame'
        · exact Or.inr ⟨w'', hfail, happ.trans hw', hpre⟩
  · refine Or.inr ⟨w', ?_, hw, hpre.trans (hmore w)⟩
    rw [outcome_bind, hfail]

theorem Cut.forM {ι : Type} {f g : ι → Writing β ε PUnit} (h : ∀ i, Cut e (f i) (g i))
    (l : List ι) : Cut e (l.forM f) (l.forM g) := by
  induction l with
  | nil => exact .pure _
  | cons i l ih => exact (h i).bind fun _ => ih

end Cut

end Output

/-
# `Compressly.Lib.Parse` — parsers that look at nothing they have not consumed

A parser takes a list, and on success returns a value and the unread suffix.
The one property used here is `Stable`: once a parser has succeeded, appending
further input changes nothing but the suffix it hands back.  `Stable` holds of
the primitive that reads one token, is kept by sequencing, and has the
consequence truncation arguments are made of (`Stable.truncated`): if a parser
leaves fewer than `k` tokens of an input unread, it fails on that input with
`k` or more tokens cut off its end.

Programs read through a cursor instead.  `Simulates den f g` says that `f` does
to a reader what the parser `g` does to the list the reader denotes.
-/
import Mathlib

namespace Parse

variable {ε ρ τ α β : Type}

/-- A parser reads a prefix of its input and hands back the rest. -/
abbrev Parser (ε τ α : Type) := List τ → Except ε (α × List τ)

/-- Success does not depend on what follows the part that was read. -/
def Stable (f : Parser ε τ α) : Prop :=
  ∀ (p : List τ) (a : α) (rest : List τ), f p = .ok (a, rest) →
    ∀ s, f (p ++ s) = .ok (a, rest ++ s)

/-- Reading one token; `e` is thrown at the end of the input. -/
def token (e : ε) : Parser ε τ τ
  | [] => .error e
  | t :: rest => .ok (t, rest)

theorem stable_token (e : ε) : Stable (token e : Parser ε τ τ) := by
  intro p a rest h s
  cases p with
  | nil => cases h
  | cons t p => cases h; rfl

theorem stable_pure (a : α) : Stable (fun p => .ok (a, p) : Parser ε τ α) := by
  intro p b rest h s
  cases h
  rfl

theorem stable_throw (e : ε) : Stable (fun _ => .error e : Parser ε τ α) :=
  fun _ _ _ h => by cases h

theorem Stable.bind {f : Parser ε τ α} {g : α → Parser ε τ β} (hf : Stable f)
    (hg : ∀ a, Stable (g a)) : Stable fun p => f p >>= fun ar => g ar.1 ar.2 := by
  intro p b rest h s
  cases hfp : f p with
  | error e =>
      simp only [hfp] at h
      cases h
  | ok ar =>
      simp only [hfp] at h
      have hlong : f (p ++ s) = .ok (ar.1, ar.2 ++ s) := hf _ _ _ hfp s
      simp only [hlong]
      exact hg ar.1 _ _ _ h s

/-- A computation that reads no input may be sequenced before a stable parser. -/
theorem stable_lift_bind {x : Except ε α} {g : α → Parser ε τ β} (hg : ∀ a, Stable (g a)) :
    Stable fun p => x >>= fun a => g a p := by
  intro p b rest h s
  cases x with
  | error e => cases h
  | ok a => exact hg a _ _ _ h s

theorem stable_ite {c : Prop} [Decidable c] {f g : Parser ε τ α} (hf : Stable f) (hg : Stable g) :
    Stable fun p => if c then f p else g p := by
  by_cases hc : c
  · simpa only [if_pos hc] using hf
  · simpa only [if_neg hc] using hg

/-- The next `count` tokens; `e` is thrown where there are fewer. -/
def chunk (e : ε) (count : Nat) : Parser ε τ (List τ) := fun p =>
  if p.length < count then .error e else .ok (p.take count, p.drop count)

theorem chunk_append (e : ε) (w rest : List τ) :
    chunk e w.length (w ++ rest) = .ok (w, rest) := by
  rw [chunk, if_neg (by simp), List.take_left, List.drop_left]

theorem stable_chunk (e : ε) (count : Nat) : Stable (chunk e count : Parser ε τ (List τ)) := by
  intro p w rest h s
  unfold chunk at h ⊢
  by_cases hlen : p.length < count
  · rw [if_pos hlen] at h
    cases h
  · have hle : count ≤ p.length := Nat.le_of_not_lt hlen
    rw [if_neg hlen] at h
    cases h
    rw [if_neg (by simp; omega), List.take_append_of_le_length hle, List.drop_append_of_le_length hle]

/-- One more token than `n` is a token and `n` more. -/
theorem chunk_succ (e : ε) (n : Nat) :
    (chunk e (n + 1) : Parser ε τ (List τ)) = fun p =>
      token e p >>= fun ar => chunk e n ar.2 >>= fun ws => .ok (ar.1 :: ws.1, ws.2) := by
  funext p
  cases p with
  | nil => rfl
  | cons t p =>
      show _ = chunk e n p >>= fun ws => .ok (t :: ws.1, ws.2)
      have hlen : (t :: p).length < n + 1 ↔ p.length < n := Nat.succ_lt_succ_iff
      unfold chunk
      by_cases h : p.length < n
      · rw [if_pos h, if_pos (hlen.mpr h)]
        rfl
      · rw [if_neg h, if_neg (mt hlen.mp h)]
        rfl

/-- What is left unread bounds what can be cut off: a parser that leaves fewer
tokens than were removed cannot have succeeded on the shortened input. -/
theorem Stable.truncated {f : Parser ε τ α} (hf : Stable f) {p s : List τ} {a : α}
    {rest : List τ} (h : f (p ++ s) = .ok (a, rest)) (hs : rest.length < s.length) :
    ∃ e, f p = .error e := by
  cases hfp : f p with
  | error e => exact ⟨e, rfl⟩
  | ok br =>
      have hfull := hf _ _ _ hfp s
      rw [h] at hfull
      have hrest : rest = br.2 ++ s := congrArg Prod.snd (Except.ok.inj hfull)
      rw [hrest, List.length_append] at hs
      omega

/-- A payload that decodes to `a`, and of which the decoder needs every token. -/
structure Tight (decode : List τ → Except ε α) (a : α) (payload : List τ) : Prop where
  decodes : decode payload = .ok a
  truncated : ∀ p s, payload = p ++ s → s ≠ [] → ∃ e, decode p = .error e

/-- A decoder that hands back what it left unread, `left` of it, and does the same on a
longer payload, needs every token of a payload it leaves less than one token of. -/
theorem tight_of_stream {stream : List τ → Except ε (α × ρ)} (left : ρ → Nat) (unit : Nat)
    (happ : ∀ p a r s, stream p = .ok (a, r) →
      ∃ r', stream (p ++ s) = .ok (a, r') ∧ left r' = left r + unit * s.length)
    {payload : List τ} {a : α} {r : ρ} (h : stream payload = .ok (a, r)) (hleft : left r < unit) :
    Tight (fun p => Prod.fst <$> stream p) a payload where
  decodes := by
    simp only [h]
    rfl
  truncated p s hp hs := by
    cases hshort : stream p with
    | error e => exact ⟨e, rfl⟩
    | ok br =>
        obtain ⟨r', hlong, hr'⟩ := happ p br.1 br.2 s hshort
        rw [← hp, h] at hlong
        cases hlong
        have hone : unit * 1 ≤ unit * s.length :=
          Nat.mul_le_mul_left _ (List.length_pos_iff.mpr hs)
        omega

/-! ## Consumption -/

/-- On success, what is handed back is no longer than what was given. -/
def Shrinks (f : Parser ε τ α) : Prop :=
  ∀ (p : List τ) (a : α) (rest : List τ), f p = .ok (a, rest) → rest.length ≤ p.length

theorem shrinks_pure (a : α) : Shrinks (fun p => .ok (a, p) : Parser ε τ α) := by
  intro p b rest h
  cases h
  exact le_rfl

theorem shrinks_throw (e : ε) : Shrinks (fun _ => .error e : Parser ε τ α) :=
  fun _ _ _ h => by cases h

theorem Shrinks.bind {f : Parser ε τ α} {g : α → Parser ε τ β} (hf : Shrinks f)
    (hg : ∀ a, Shrinks (g a)) : Shrinks fun p => f p >>= fun ar => g ar.1 ar.2 := by
  intro p b rest h
  cases hfp : f p with
  | error e =>
      simp only [hfp] at h
      cases h
  | ok ar =>
      simp only [hfp] at h
      exact (hg ar.1 _ _ _ h).trans (hf _ _ _ hfp)

theorem shrinks_lift_bind {x : Except ε α} {g : α → Parser ε τ β} (hg : ∀ a, Shrinks (g a)) :
    Shrinks fun p => x >>= fun a => g a p := by
  intro p b rest h
  cases x with
  | error e => cases h
  | ok a => exact hg a _ _ _ h

theorem shrinks_ite {c : Prop} [Decidable c] {f g : Parser ε τ α} (hf : Shrinks f)
    (hg : Shrinks g) : Shrinks fun p => if c then f p else g p := by
  by_cases hc : c
  · simpa only [if_pos hc] using hf
  · simpa only [if_neg hc] using hg

theorem shrinks_token (e : ε) : Shrinks (token e : Parser ε τ τ) := by
  intro p a rest h
  cases p with
  | nil => cases h
  | cons t p =>
      cases h
      exact Nat.le_succ _

theorem chunk_eq_ok_iff {e : ε} {count : Nat} {p w rest : List τ} :
    chunk e count p = .ok (w, rest) ↔ w.length = count ∧ p = w ++ rest := by
  constructor
  · intro h
    unfold chunk at h
    by_cases hlen : p.length < count
    · rw [if_pos hlen] at h
      cases h
    · rw [if_neg hlen] at h
      cases h
      exact ⟨List.length_take_of_le (Nat.le_of_not_lt hlen), (List.take_append_drop count p).symm⟩
  · rintro ⟨rfl, rfl⟩
    exact chunk_append e w rest

theorem chunk_length {e : ε} {count : Nat} {p w rest : List τ} (h : chunk e count p = .ok (w, rest)) :
    w.length = count ∧ rest.length + count = p.length := by
  obtain ⟨rfl, rfl⟩ := chunk_eq_ok_iff.mp h
  exact ⟨rfl, by rw [List.length_append, Nat.add_comm]⟩

/-! ## Readers -/

/-- `f` does to a reader what `g` does to the list it denotes. -/
def Simulates (den : ρ → List τ) (f : ρ → Except ε (α × ρ)) (g : Parser ε τ α) : Prop :=
  ∀ r, (fun ar => (ar.1, den ar.2)) <$> f r = g (den r)

section Simulates
variable {den : ρ → List τ} {f : ρ → Except ε (α × ρ)} {g : Parser ε τ α}

theorem Simulates.ok (h : Simulates den f g) {r r' : ρ} {a : α} (hf : f r = .ok (a, r')) :
    g (den r) = .ok (a, den r') := by
  rw [← h r, hf]
  rfl

theorem Simulates.error (h : Simulates den f g) {r : ρ} {e : ε} (hf : f r = .error e) :
    g (den r) = .error e := by
  rw [← h r, hf]
  rfl

/-- Where the parser succeeds, so does the reader. -/
theorem Simulates.of_ok (h : Simulates den f g) {r : ρ} {a : α} {rest : List τ}
    (hg : g (den r) = .ok (a, rest)) : ∃ r', f r = .ok (a, r') ∧ den r' = rest := by
  cases hf : f r with
  | error e =>
      rw [h.error hf] at hg
      cases hg
  | ok ar =>
      rw [h.ok hf] at hg
      cases hg
      exact ⟨ar.2, rfl, rfl⟩

/-- Where the parser throws, so does the reader. -/
theorem Simulates.of_error (h : Simulates den f g) {r : ρ} {e : ε} (hg : g (den r) = .error e) :
    f r = .error e := by
  cases hf : f r with
  | error e' =>
      rw [h.error hf] at hg
      injection hg with hg
      rw [hg]
  | ok ar =>
      rw [h.ok hf] at hg
      cases hg

theorem simulates_pure (den : ρ → List τ) (a : α) :
    Simulates den (fun r => .ok (a, r) : ρ → Except ε (α × ρ)) (fun p => .ok (a, p)) :=
  fun _ => rfl

theorem simulates_throw (den : ρ → List τ) (e : ε) :
    Simulates den (fun _ => .error e : ρ → Except ε (α × ρ)) (fun _ => .error e) :=
  fun _ => rfl

theorem Simulates.bind (h : Simulates den f g) {f' : α → ρ → Except ε (β × ρ)}
    {g' : α → Parser ε τ β} (h' : ∀ a, Simulates den (f' a) (g' a)) :
    Simulates den (fun r => f r >>= fun ar => f' ar.1 ar.2)
      (fun p => g p >>= fun ar => g' ar.1 ar.2) := by
  intro r
  cases hf : f r with
  | error e =>
      have hg := h.error hf
      simp only [hf, hg]
      rfl
  | ok ar =>
      have hg : g (den r) = .ok (ar.1, den ar.2) := h.ok hf
      simp only [hf, hg]
      exact h' ar.1 ar.2

/-- A step that does not touch the reader. -/
theorem simulates_lift_bind (den : ρ → List τ) (x : Except ε α) {f' : α → ρ → Except ε (β × ρ)}
    {g' : α → Parser ε τ β} (h' : ∀ a, Simulates den (f' a) (g' a)) :
    Simulates den (fun r => x >>= fun a => f' a r) (fun p => x >>= fun a => g' a p) := by
  intro r
  cases x with
  | error e => rfl
  | ok a => exact h' a r

theorem simulates_ite {c : Prop} [Decidable c] {f' : ρ → Except ε (α × ρ)} {g' : Parser ε τ α}
    (h : Simulates den f g) (h' : Simulates den f' g') :
    Simulates den (fun r => if c then f r else f' r) (fun p => if c then g p else g' p) := by
  by_cases hc : c
  · simpa only [if_pos hc] using h
  · simpa only [if_neg hc] using h'

end Simulates

end Parse

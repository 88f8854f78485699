/-
# `Compressly.Lib.Chain` — the members of a set of numbers, newest first

A hash chain answers two questions about a set `P` of positions: which is the
latest member below `n` (`latest`), and which are the members in an interval,
from the newest to the oldest (`recent`).  Stepping from a member to the latest
member before it enumerates the interval (`recent_eq`).

`Follows link inside first qs` is a walk along stored links, from `first` on
until there is no link or it leads outside.  Where each link is the latest
member before, the walk visits the interval (`follows_recent`).
-/
import Mathlib

namespace Chain

variable (P : Nat → Prop) [DecidablePred P]

/-- The greatest member of `P` below `n`. -/
def latest : Nat → Option Nat
  | 0 => none
  | n + 1 => if P n then some n else latest n

/-- The members of `P` from `lo` up to, not including, `n`, newest first. -/
def recent (lo : Nat) : Nat → List Nat
  | 0 => []
  | n + 1 => if lo ≤ n ∧ P n then n :: recent lo n else recent lo n

variable {P}

theorem latest_succ_of {n : Nat} (h : P n) : latest P (n + 1) = some n := if_pos h

theorem latest_succ_of_not {n : Nat} (h : ¬ P n) : latest P (n + 1) = latest P n := if_neg h

theorem latest_eq_some {n q : Nat} :
    latest P n = some q ↔ q < n ∧ P q ∧ ∀ r, q < r → r < n → ¬ P r := by
  induction n with
  | zero => simp [latest]
  | succ n ih =>
      by_cases h : P n
      · rw [latest_succ_of h, Option.some.injEq]
        constructor
        · rintro rfl
          exact ⟨Nat.lt_succ_self n, h, fun r h₁ h₂ => by omega⟩
        · rintro ⟨hq, -, hlast⟩
          by_contra hne
          exact hlast n (by omega) (Nat.lt_succ_self n) h
      · rw [latest_succ_of_not h, ih]
        constructor
        · rintro ⟨hq, hP, hlast⟩
          refine ⟨by omega, hP, fun r h₁ h₂ => ?_⟩
          rcases Nat.lt_succ_iff_lt_or_eq.mp h₂ with h₂ | rfl
          · exact hlast r h₁ h₂
          · exact h
        · rintro ⟨hq, hP, hlast⟩
          have hne : q ≠ n := fun heq => h (heq ▸ hP)
          exact ⟨by omega, hP, fun r h₁ h₂ => hlast r h₁ (by omega)⟩

theorem latest_lt {n q : Nat} (h : latest P n = some q) : q < n := (latest_eq_some.mp h).1

theorem of_latest {n q : Nat} (h : latest P n = some q) : P q := (latest_eq_some.mp h).2.1

theorem mem_recent {lo n q : Nat} : q ∈ recent P lo n ↔ lo ≤ q ∧ q < n ∧ P q := by
  induction n with
  | zero => simp [recent]
  | succ n ih =>
      rw [recent]
      split
      case isTrue h =>
        rw [List.mem_cons, ih]
        constructor
        · rintro (rfl | ⟨hlo, hn, hP⟩)
          · exact ⟨h.1, Nat.lt_succ_self q, h.2⟩
          · exact ⟨hlo, by omega, hP⟩
        · rintro ⟨hlo, hn, hP⟩
          rcases Nat.lt_succ_iff_lt_or_eq.mp hn with hn | rfl
          · exact Or.inr ⟨hlo, hn, hP⟩
          · exact Or.inl rfl
      case isFalse h =>
        rw [ih]
        constructor
        · rintro ⟨hlo, hn, hP⟩
          exact ⟨hlo, by omega, hP⟩
        · rintro ⟨hlo, hn, hP⟩
          rcases Nat.lt_succ_iff_lt_or_eq.mp hn with hn | rfl
          · exact ⟨hlo, hn, hP⟩
          · exact absurd ⟨hlo, hP⟩ h

/-- One link of the chain. -/
theorem recent_eq (lo n : Nat) :
    recent P lo n
      = match latest P n with
        | none => []
        | some q => if lo ≤ q then q :: recent P lo q else [] := by
  induction n with
  | zero => rfl
  | succ n ih =>
      by_cases h : P n
      · rw [latest_succ_of h, recent]
        by_cases hlo : lo ≤ n
        · simp [h, hlo]
        · have hnil : recent P lo n = [] := by
            rw [List.eq_nil_iff_forall_not_mem]
            intro q hq
            have := mem_recent.mp hq
            omega
          simp [hlo, hnil]
      · rw [latest_succ_of_not h, ← ih, recent]
        simp [h]

/-- The same members, by going through all numbers. -/
theorem recent_eq_filter (lo n : Nat) :
    recent P lo n = (List.range n).reverse.filter fun q => lo ≤ q ∧ P q := by
  induction n with
  | zero => rfl
  | succ n ih =>
      rw [recent, ih, List.range_succ, List.reverse_append, List.reverse_singleton,
        List.singleton_append, List.filter_cons]
      simp only [decide_eq_true_iff]

theorem pairwise_recent (lo n : Nat) : (recent P lo n).Pairwise (· > ·) := by
  induction n with
  | zero => exact List.Pairwise.nil
  | succ n ih =>
      rw [recent]
      split
      · exact List.Pairwise.cons (fun q hq => (mem_recent.mp hq).2.1) ih
      · exact ih

/-! ## Following links -/

/-- The walk from `first` along `link` visits `qs` and then finds no link, or one that leads
outside. -/
inductive Follows (link : Nat → Option Nat → Prop) (inside : Nat → Prop) :
    Option Nat → List Nat → Prop
  | ends : Follows link inside none []
  | leaves {q : Nat} : ¬ inside q → Follows link inside (some q) []
  | visits {q : Nat} {next : Option Nat} {qs : List Nat} : inside q → link q next →
      Follows link inside next qs → Follows link inside (some q) (q :: qs)

/-- There is one walk where a position has one link. -/
theorem Follows.unique {link : Nat → Option Nat → Prop} {inside : Nat → Prop}
    (hlink : ∀ q next next', link q next → link q next' → next = next') {first : Option Nat}
    {qs qs' : List Nat} (h : Follows link inside first qs) (h' : Follows link inside first qs') :
    qs = qs' := by
  induction h generalizing qs' with
  | ends =>
      cases h' with
      | ends => rfl
  | leaves hout =>
      cases h' with
      | leaves => rfl
      | visits hin => exact absurd hin hout
  | visits hin hnext _ ih =>
      cases h' with
      | leaves hout => exact absurd hin hout
      | visits _ hnext' hrest' =>
          rw [hlink _ _ _ hnext hnext'] at ih
          rw [ih hrest']

/-- Links to the latest member before visit the members of the interval. -/
theorem follows_recent {link : Nat → Option Nat → Prop} {inside : Nat → Prop} {lo : Nat} :
    ∀ (n : Nat), (∀ q < n, inside q ↔ lo ≤ q) →
      (∀ q < n, lo ≤ q → P q → link q (latest P q)) →
      Follows link inside (latest P n) (recent P lo n) := by
  intro n
  induction n using Nat.strong_induction_on with
  | _ n ih =>
      intro hinside hlink
      rw [recent_eq]
      cases hlatest : latest P n with
      | none => exact .ends
      | some q =>
          have hqn := latest_lt hlatest
          by_cases hlo : lo ≤ q
          · have hrest := ih q hqn (fun r hr => hinside r (hr.trans hqn))
              fun r hr => hlink r (hr.trans hqn)
            simp only [if_pos hlo]
            exact .visits ((hinside q hqn).mpr hlo) (hlink q hqn hlo (of_latest hlatest)) hrest
          · simp only [if_neg hlo]
            exact .leaves (mt (hinside q hqn).mp hlo)

end Chain

/-
# `Compressly.Lib.Kraft` — code lengths, Kraft sums and canonical codes

The arithmetic of prefix codes given by their lengths alone.  A *length table*
lists one code length per symbol, 0 for an absent symbol.  Its Kraft sum is
kept in units of `2 ^ -D`, so that everything stays in ℕ.

The canonical code hands out numbers in the order of (length, symbol):
`firstCode` is the recurrence for the first number of each length, `canonical`
adds the rank of the symbol among those of its length.  What the recurrence is
for is one equation, `firstCode_mul`: the first code of length `l`, left-aligned
to `D` bits, is the space taken by all shorter codes.  From it follow the two
facts decoders rest on: the codes fit their lengths (`canonical_lt`), and
left-aligned they occupy disjoint blocks in increasing order
(`canonical_block`), so none is a prefix of another (`canonical_prefixFree`).  In
a table that takes all the space or more, they leave no gap: every bit string
of `D` bits begins with a code word (`exists_codeWord_prefix`).
-/
import Compressly.Lib.Bits

namespace Kraft

open Bits

/-! ## Histograms -/

/-- How often each `k < n` occurs in `ls`. -/
def histogram (n : Nat) (ls : List Nat) : List Nat := (List.range n).map fun k => ls.count k

@[simp] theorem length_histogram (n : Nat) (ls : List Nat) : (histogram n ls).length = n := by
  simp [histogram]

@[simp] theorem getElem_histogram {n k : Nat} (ls : List Nat) (h : k < (histogram n ls).length) :
    (histogram n ls)[k] = ls.count k := by
  simp [histogram]

theorem histogram_nil (n : Nat) : histogram n [] = List.replicate n 0 := by
  refine List.ext_getElem (by simp) fun k h₁ h₂ => ?_
  simp

theorem histogram_perm {n : Nat} {ls ls' : List Nat} (h : ls.Perm ls') :
    histogram n ls = histogram n ls' :=
  List.map_congr_left fun k _ => h.count_eq k

/-- Counting one more. -/
theorem histogram_cons (n k : Nat) (ls : List Nat) :
    histogram n (k :: ls) = (histogram n ls).set k (ls.count k + 1) := by
  refine List.ext_getElem (by simp) fun j h₁ h₂ => ?_
  rw [List.getElem_set]
  by_cases hjk : k = j
  · subst hjk
    simp
  · simp [hjk]

/-- Counting one less. -/
theorem histogram_erase {n k : Nat} {ls : List Nat} :
    histogram n (ls.erase k) = (histogram n ls).set k (ls.count k - 1) := by
  refine List.ext_getElem (by simp) fun j h₁ h₂ => ?_
  rw [List.getElem_set]
  by_cases hjk : k = j
  · subst hjk
    simp
  · simp [hjk, List.count_erase_of_ne (fun h => hjk h.symm)]

/-- A sum over a list, grouped by value. -/
theorem sum_count_mul {n : Nat} {ls : List Nat} (h : ∀ l ∈ ls, l < n) (f : Nat → Nat) :
    ∑ k ∈ Finset.range n, ls.count k * f k = (ls.map f).sum := by
  induction ls with
  | nil => simp
  | cons l ls ih =>
      have hl : l < n := h l List.mem_cons_self
      rw [List.map_cons, List.sum_cons, ← ih fun k hk => h k (List.mem_cons_of_mem _ hk)]
      simp only [List.count_cons, Nat.add_mul, Finset.sum_add_distrib]
      rw [Nat.add_comm, Finset.sum_eq_single l]
      · simp
      · intro k _ hk
        simp [Ne.symm hk]
      · intro hmem
        exact absurd (Finset.mem_range.mpr hl) hmem

/-! ## Kraft sums -/

/-- `∑ 2 ^ -l` over `ls`, in units of `2 ^ -D`. -/
def kraft (D : Nat) (ls : List Nat) : Nat := (ls.map fun l => 2 ^ (D - l)).sum

@[simp] theorem kraft_nil (D : Nat) : kraft D [] = 0 := rfl

@[simp] theorem kraft_cons (D l : Nat) (ls : List Nat) :
    kraft D (l :: ls) = 2 ^ (D - l) + kraft D ls := by
  simp [kraft]

@[simp] theorem kraft_append (D : Nat) (ls ls' : List Nat) :
    kraft D (ls ++ ls') = kraft D ls + kraft D ls' := by
  simp [kraft]

theorem kraft_perm {D : Nat} {ls ls' : List Nat} (h : ls.Perm ls') : kraft D ls = kraft D ls' :=
  (h.map _).sum_eq

/-- If every code has full length, the Kraft sum counts the codes. -/
theorem kraft_eq_length {D : Nat} {ls : List Nat} (h : ∀ l ∈ ls, D ≤ l) :
    kraft D ls = ls.length := by
  induction ls with
  | nil => rfl
  | cons l ls ih =>
      have hl : D - l = 0 := Nat.sub_eq_zero_of_le (h l List.mem_cons_self)
      rw [kraft_cons, hl, ih fun k hk => h k (List.mem_cons_of_mem _ hk), List.length_cons,
        Nat.pow_zero, Nat.add_comm]

/-- No code takes less than the unit. -/
theorem length_le_kraft (D : Nat) (ls : List Nat) : ls.length ≤ kraft D ls := by
  induction ls with
  | nil => exact le_rfl
  | cons l ls ih =>
      have hpow : 0 < 2 ^ (D - l) := Nat.two_pow_pos _
      rw [kraft_cons, List.length_cons]
      omega

/-- Making one code a bit longer frees half its space. -/
theorem kraft_lengthen {D l : Nat} {ls : List Nat} (hmem : l ∈ ls) (hl : l < D) :
    kraft D ((l + 1) :: ls.erase l) + 2 ^ (D - l - 1) = kraft D ls := by
  have hsplit : (2 : Nat) ^ (D - l) = 2 ^ (D - (l + 1)) + 2 ^ (D - l - 1) := by
    obtain ⟨k, hk⟩ : ∃ k, D - l = k + 1 := ⟨D - l - 1, by omega⟩
    rw [show D - (l + 1) = k by omega, show D - l - 1 = k by omega, hk, Nat.pow_succ]
    omega
  rw [kraft_perm (List.perm_cons_erase hmem), kraft_cons, kraft_cons, hsplit]
  omega

/-! ## The first code of each length -/

/-- The number of codes of length `l` in a table; absent symbols have none. -/
def counts (ls : List Nat) (l : Nat) : Nat := if l = 0 then 0 else ls.count l

/-- The first code of length `l`: one past the last code of length `l - 1`, shifted left. -/
def firstCode (ls : List Nat) : Nat → Nat
  | 0 => 0
  | l + 1 => 2 * (firstCode ls l + counts ls l)

/-- Left-aligned to `D` bits, the first code of length `l` is the space all
shorter codes take. -/
theorem firstCode_mul {D l : Nat} (ls : List Nat) (hl : l ≤ D) :
    firstCode ls l * 2 ^ (D - l) = ∑ k ∈ Finset.range l, counts ls k * 2 ^ (D - k) := by
  induction l with
  | zero => simp [firstCode]
  | succ l ih =>
      have hpow : 2 * 2 ^ (D - (l + 1)) = 2 ^ (D - l) := by
        rw [← Nat.pow_succ']
        congr 1
        omega
      rw [Finset.sum_range_succ, ← ih (by omega), firstCode, ← hpow]
      ring

/-- The Kraft sum of the present symbols, grouped by length. -/
theorem sum_counts {D : Nat} {ls : List Nat} (hD : ∀ l ∈ ls, l ≤ D) :
    ∑ k ∈ Finset.range (D + 1), counts ls k * 2 ^ (D - k) = kraft D (ls.filter (· ≠ 0)) := by
  have hlt : ∀ l ∈ ls.filter (· ≠ 0), l < D + 1 := fun l hl =>
    Nat.lt_succ_of_le (hD l (List.mem_of_mem_filter hl))
  rw [kraft, ← sum_count_mul hlt]
  refine Finset.sum_congr rfl fun k _ => ?_
  congr 1
  unfold counts
  split
  case isTrue h =>
    subst h
    exact (List.count_eq_zero_of_not_mem (by simp)).symm
  case isFalse h => exact (List.count_filter (by simpa using h)).symm

/-- At every length, the codes handed out so far fit. -/
theorem firstCode_add_counts_le {D l : Nat} {ls : List Nat} (hD : ∀ l ∈ ls, l ≤ D) (hl : l ≤ D)
    (hk : kraft D (ls.filter (· ≠ 0)) ≤ 2 ^ D) : firstCode ls l + counts ls l ≤ 2 ^ l := by
  have hspace : (firstCode ls l + counts ls l) * 2 ^ (D - l) ≤ 2 ^ l * 2 ^ (D - l) := by
    calc (firstCode ls l + counts ls l) * 2 ^ (D - l)
        = ∑ k ∈ Finset.range (l + 1), counts ls k * 2 ^ (D - k) := by
          rw [Finset.sum_range_succ, ← firstCode_mul ls hl, Nat.add_mul]
      _ ≤ ∑ k ∈ Finset.range (D + 1), counts ls k * 2 ^ (D - k) :=
          Finset.sum_le_sum_of_subset (Finset.range_subset_range.mpr (by omega))
      _ ≤ 2 ^ D := by rw [sum_counts hD]; exact hk
      _ = 2 ^ l * 2 ^ (D - l) := by rw [← Nat.pow_add, Nat.add_sub_cancel' hl]
  exact Nat.le_of_mul_le_mul_right hspace (Nat.two_pow_pos _)

/-! ## The canonical code -/

/-- The canonical code of symbol `s`: the first code of its length, plus its rank. -/
def canonical (ls : List Nat) (s : Nat) : Nat :=
  firstCode ls (ls.getD s 0) + (ls.take s).count (ls.getD s 0)

/-- A symbol's rank is below the number of codes of its length. -/
theorem rank_lt {ls : List Nat} {s : Nat} (hs : s < ls.length) :
    (ls.take s).count ls[s] < ls.count ls[s] := by
  have hsplit : ls.count ls[s] = (ls.take s).count ls[s] + (ls.drop s).count ls[s] := by
    rw [← List.count_append, List.take_append_drop]
  have hpos : 0 < (ls.drop s).count ls[s] := by
    rw [List.drop_eq_getElem_cons hs]
    exact List.count_pos_iff.mpr List.mem_cons_self
  omega

/-- Ranks increase with the symbol. -/
theorem rank_lt_rank {ls : List Nat} {s t : Nat} (hs : s < ls.length) (hst : s < t) :
    (ls.take s).count ls[s] < (ls.take t).count ls[s] := by
  have hs' : s < (ls.take t).length := by simp; omega
  have h := rank_lt hs'
  have hget : (ls.take t)[s] = ls[s] := List.getElem_take
  rwa [hget, List.take_take, Nat.min_eq_left (Nat.le_of_lt hst)] at h

section Canonical
variable {D : Nat} {ls : List Nat} (hD : ∀ l ∈ ls, l ≤ D)
  (hk : kraft D (ls.filter (· ≠ 0)) ≤ 2 ^ D)

include hD hk in
theorem canonical_lt {s : Nat} (hs : s < ls.length) (h0 : ls[s] ≠ 0) :
    canonical ls s < 2 ^ ls[s] := by
  have hfit := firstCode_add_counts_le hD (hD _ (List.getElem_mem hs)) hk
  have hrank := rank_lt hs
  rw [counts, if_neg h0] at hfit
  rw [canonical, List.getD_eq_getElem _ _ hs]
  omega

/-- One past the codes of a length, scaled to any greater length, is at most the
first code there. -/
theorem firstCode_shift (ls : List Nat) {l m : Nat} (h : l < m) :
    (firstCode ls l + counts ls l) * 2 ^ (m - l) ≤ firstCode ls m := by
  induction m with
  | zero => omega
  | succ m ih =>
      rcases Nat.lt_succ_iff_lt_or_eq.mp h with hlt | rfl
      · calc (firstCode ls l + counts ls l) * 2 ^ (m + 1 - l)
            = 2 * ((firstCode ls l + counts ls l) * 2 ^ (m - l)) := by
              rw [Nat.succ_sub (Nat.le_of_lt hlt), Nat.pow_succ]
              ring
          _ ≤ 2 * firstCode ls m := Nat.mul_le_mul_left 2 (ih hlt)
          _ ≤ firstCode ls (m + 1) := by
              rw [firstCode]
              omega
      · rw [Nat.add_sub_cancel_left, Nat.pow_one, firstCode, Nat.mul_comm]

/-- Left-aligned, the block of a code ends before the block of the next one in
the order of (length, symbol) begins. -/
theorem canonical_block {s t : Nat} (hs : s < ls.length) (ht : t < ls.length) (h0 : ls[s] ≠ 0)
    (hst : ls[s] < ls[t] ∨ ls[s] = ls[t] ∧ s < t) :
    (canonical ls s + 1) * 2 ^ (ls[t] - ls[s]) ≤ canonical ls t := by
  rw [canonical, canonical, List.getD_eq_getElem _ _ hs, List.getD_eq_getElem _ _ ht]
  rcases hst with hlt | ⟨heq, hlt⟩
  · have hrank := rank_lt hs
    have hshift := firstCode_shift ls hlt
    rw [counts, if_neg h0] at hshift
    calc (firstCode ls ls[s] + (ls.take s).count ls[s] + 1) * 2 ^ (ls[t] - ls[s])
        ≤ (firstCode ls ls[s] + ls.count ls[s]) * 2 ^ (ls[t] - ls[s]) :=
          Nat.mul_le_mul_right _ (by omega)
      _ ≤ firstCode ls ls[t] + (ls.take t).count ls[t] := by omega
  · have hrank := rank_lt_rank hs hlt
    rw [← heq, Nat.sub_self, Nat.pow_zero, Nat.mul_one]
    omega

/-- The code word of a symbol. -/
def codeWord (ls : List Nat) (s : Nat) : List Bool := natBits (ls.getD s 0) (canonical ls s)

theorem codeWord_eq {s : Nat} (hs : s < ls.length) :
    codeWord ls s = natBits ls[s] (canonical ls s) := by
  rw [codeWord, List.getD_eq_getElem _ _ hs]

include hD hk in
/-- No canonical code word is a prefix of another symbol's. -/
theorem canonical_prefixFree {s t : Nat} (hs : s < ls.length) (ht : t < ls.length)
    (hs0 : ls[s] ≠ 0) (ht0 : ls[t] ≠ 0) (h : codeWord ls s <+: codeWord ls t) : s = t := by
  rw [codeWord_eq hs, codeWord_eq ht] at h
  have hle : ls[s] ≤ ls[t] := by simpa using h.length_le
  have hsame : canonical ls t >>> (ls[t] - ls[s]) = canonical ls s :=
    shiftRight_eq_of_prefix hle (canonical_lt hD hk hs hs0) (canonical_lt hD hk ht ht0) h
  rw [Nat.shiftRight_eq_div_pow] at hsame
  by_contra hne
  by_cases hfirst : ls[s] < ls[t] ∨ ls[s] = ls[t] ∧ s < t
  · -- `t` lies beyond the block of `s`
    have hblock := canonical_block hs ht hs0 hfirst
    rw [← Nat.le_div_iff_mul_le (Nat.two_pow_pos _), hsame] at hblock
    omega
  · -- the lengths agree and `t` comes first
    have heq : ls[t] = ls[s] := by omega
    have hts : t < s := by omega
    have hblock := canonical_block ht hs ht0 (Or.inr ⟨heq, hts⟩)
    rw [heq, Nat.sub_self, Nat.pow_zero, Nat.mul_one] at hblock
    rw [heq, Nat.sub_self, Nat.pow_zero, Nat.div_one] at hsame
    omega

end Canonical

/-! ## Full tables -/

/-- There is a symbol of every rank below the number of codes of a length. -/
theorem exists_rank {ls : List Nat} {l r : Nat} (h : r < ls.count l) :
    ∃ s, s < ls.length ∧ ls.getD s 0 = l ∧ (ls.take s).count l = r := by
  induction ls generalizing r with
  | nil => exact absurd h (Nat.not_lt_zero r)
  | cons k ls ih =>
      by_cases hk : k = l
      · subst hk
        cases r with
        | zero => exact ⟨0, Nat.succ_pos _, rfl, rfl⟩
        | succ r =>
            rw [List.count_cons_self] at h
            obtain ⟨s, hs, hl, hr⟩ := ih (Nat.lt_of_succ_lt_succ h)
            exact ⟨s + 1, Nat.succ_lt_succ hs, hl, by rw [List.take_succ_cons, List.count_cons_self, hr]⟩
      · rw [List.count_cons_of_ne hk] at h
        obtain ⟨s, hs, hl, hr⟩ := ih h
        exact ⟨s + 1, Nat.succ_lt_succ hs, hl, by rw [List.take_succ_cons, List.count_cons_of_ne hk, hr]⟩

/-- In a table that takes all the space or more, every bit string of `D` bits begins with a code
word. -/
theorem exists_codeWord_prefix {D : Nat} {ls : List Nat} (hD : ∀ l ∈ ls, l ≤ D)
    (hfull : 2 ^ D ≤ kraft D (ls.filter (· ≠ 0))) {p : List Bool} (hp : p.length = D) :
    ∃ s, ls.getD s 0 ≠ 0 ∧ codeWord ls s <+: p := by
  have hv : ofBits p < 2 ^ D := hp ▸ ofBits_lt p
  have hbits : natBits D (ofBits p) = p := hp ▸ natBits_ofBits p
  generalize ofBits p = v at hv hbits
  -- the length at which the space taken passes `v`
  let space : Nat → Nat := fun l => ∑ k ∈ Finset.range l, counts ls k * 2 ^ (D - k)
  obtain ⟨l, hl, hlow, hhigh⟩ : ∃ l ≤ D, space l ≤ v ∧ v < space (l + 1) := by
    by_contra hnone
    push Not at hnone
    have hall : ∀ l ≤ D + 1, space l ≤ v := by
      intro l
      induction l with
      | zero => exact fun _ => Nat.zero_le v
      | succ l ih => exact fun hl => hnone l (Nat.le_of_succ_le_succ hl) (ih (Nat.le_of_succ_le hl))
    have hend := hall (D + 1) le_rfl
    rw [show space (D + 1) = _ from sum_counts hD] at hend
    exact absurd (hfull.trans hend) (Nat.not_le.mpr hv)
  have hfirst : firstCode ls l * 2 ^ (D - l) ≤ v := (firstCode_mul ls hl).trans_le hlow
  have hnext : v < (firstCode ls l + counts ls l) * 2 ^ (D - l) := by
    rw [Nat.add_mul, firstCode_mul ls hl]
    exact hhigh.trans_eq (Finset.sum_range_succ _ l)
  have hge : firstCode ls l ≤ v / 2 ^ (D - l) := (Nat.le_div_iff_mul_le (Nat.two_pow_pos _)).mpr hfirst
  have hlt : v / 2 ^ (D - l) < firstCode ls l + counts ls l :=
    (Nat.div_lt_iff_lt_mul (Nat.two_pow_pos _)).mpr hnext
  have hl0 : l ≠ 0 := by
    rintro rfl
    exact absurd hlt (Nat.not_lt.mpr hge)
  rw [counts, if_neg hl0] at hlt
  obtain ⟨s, -, hs, hrank⟩ := exists_rank (Nat.sub_lt_left_of_lt_add hge hlt)
  refine ⟨s, hs ▸ hl0, natBits (D - l) v, ?_⟩
  rw [codeWord, canonical, hs, hrank, Nat.add_sub_cancel' hge, ← Nat.shiftRight_eq_div_pow,
    ← natBits_add, Nat.add_sub_cancel' hl, hbits]

end Kraft

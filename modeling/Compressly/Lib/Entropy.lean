/-
# `Compressly.Lib.Entropy` — the entropy of the weights, and what a code costs

No code within the unit space costs less than the entropy of its weights
(`entropy_le_cost`), by `log x ≤ x - 1` at each symbol.  Where each symbol gets
its self-information, rounded up, the code costs less than one bit per
occurrence more (`cost_selfInformed_lt`).
-/
import Compressly.Lib.OptimalCode

namespace OptimalCode

/-- The entropy of the weights, in bits for all the occurrences together. -/
noncomputable def entropy (W : Multiset Nat) : ℝ :=
  (W.map fun w : Nat => (w : ℝ) * Real.logb 2 (W.sum / w)).sum

/-- The self-information of a symbol of weight `w` among `n` occurrences, rounded up. -/
noncomputable def selfInformation (n w : Nat) : Nat := ⌈Real.logb 2 (n / w)⌉₊

theorem cast_cost (P : Multiset Item) :
    (cost P : ℝ) = (P.map fun p => (p.1 : ℝ) * p.2).sum := by
  induction P using Multiset.induction with
  | empty => simp [cost]
  | cons p P ih =>
      rw [cost_cons, Multiset.map_cons, Multiset.sum_cons, ← ih, Nat.cast_add, Nat.cast_mul]

theorem cast_space (L : Multiset Nat) :
    ((space L : ℚ) : ℝ) = (L.map fun l => (1 / 2 : ℝ) ^ l).sum := by
  induction L using Multiset.induction with
  | empty => simp [space]
  | cons l L ih =>
      rw [space_cons, Multiset.map_cons, Multiset.sum_cons, ← ih]
      push_cast
      rfl

theorem cast_sum (W : Multiset Nat) : ((W.sum : Nat) : ℝ) = (W.map fun w : Nat => (w : ℝ)).sum := by
  induction W using Multiset.induction with
  | empty => simp
  | cons w W ih => rw [Multiset.sum_cons, Multiset.map_cons, Multiset.sum_cons, ← ih, Nat.cast_add]

theorem le_sum {W : Multiset Nat} {w : Nat} (hw : w ∈ W) : w ≤ W.sum :=
  Multiset.single_le_sum (s := W) (fun _ _ => Nat.zero_le _) w hw

/-- `log x ≤ x - 1`, for the space a symbol should have against the space it takes. -/
theorem self_le {n w : Nat} (hw : 0 < w) (hn : 0 < n) (l : Nat) :
    (w : ℝ) * Real.logb 2 (n / w) ≤ w * l + (n * (1 / 2) ^ l - w) / Real.log 2 := by
  have hw' : (0 : ℝ) < w := by exact_mod_cast hw
  have hn' : (0 : ℝ) < n := by exact_mod_cast hn
  have hlog : 0 < Real.log 2 := Real.log_pos (by norm_num)
  have hx : 0 < (n : ℝ) * (1 / 2) ^ l / w := by positivity
  have hsplit : Real.log ((n : ℝ) * (1 / 2) ^ l / w) = Real.log (n / w) - l * Real.log 2 := by
    rw [mul_div_right_comm, Real.log_mul (by positivity) (by positivity), Real.log_pow, one_div,
      Real.log_inv]
    ring
  have hbound := Real.log_le_sub_one_of_pos hx
  rw [hsplit] at hbound
  have hdiv : (w : ℝ) * Real.logb 2 (n / w) - w * l
      = w * (Real.log (n / w) - l * Real.log 2) / Real.log 2 := by
    rw [Real.logb]
    field_simp
  have hmul : (w : ℝ) * (Real.log (n / w) - l * Real.log 2) ≤ n * (1 / 2) ^ l - w := by
    calc (w : ℝ) * (Real.log (n / w) - l * Real.log 2)
        ≤ w * ((n : ℝ) * (1 / 2) ^ l / w - 1) := mul_le_mul_of_nonneg_left hbound hw'.le
      _ = n * (1 / 2) ^ l - w := by field_simp
  have hle : w * (Real.log (n / w) - l * Real.log 2) / Real.log 2
      ≤ (n * (1 / 2) ^ l - w) / Real.log 2 := div_le_div_of_nonneg_right hmul hlog.le
  linarith

/-- **The entropy is a lower bound.** -/
theorem entropy_le_cost {P : Multiset Item} (hpos : ∀ w ∈ weights P, 0 < w)
    (hspace : space (lengths P) ≤ 1) : entropy (weights P) ≤ cost P := by
  have hlog : 0 < Real.log 2 := Real.log_pos (by norm_num)
  have hunit : (((lengths P).map fun l => (1 / 2 : ℝ) ^ l).sum) ≤ 1 := by
    rw [← cast_space]
    exact_mod_cast hspace
  have hitem : ∀ p ∈ P, (p.1 : ℝ) * Real.logb 2 ((weights P).sum / p.1)
      ≤ p.1 * p.2 + ((weights P).sum * (1 / 2) ^ p.2 - p.1) / Real.log 2 := by
    intro p hp
    have hw : 0 < p.1 := hpos p.1 (Multiset.mem_map_of_mem _ hp)
    have hle : p.1 ≤ (weights P).sum :=
      le_sum (Multiset.mem_map_of_mem _ hp)
    exact self_le hw (hw.trans_le hle) p.2
  have hweights : ((P.map fun p => (p.1 : ℝ)).sum) = ((weights P).sum : Nat) := by
    rw [cast_sum, weights, Multiset.map_map]
    rfl
  have hlengths : ((P.map fun p => (1 / 2 : ℝ) ^ p.2).sum)
      = ((lengths P).map fun l => (1 / 2 : ℝ) ^ l).sum := by
    rw [lengths, Multiset.map_map]
    rfl
  calc entropy (weights P)
      = (P.map fun p => (p.1 : ℝ) * Real.logb 2 ((weights P).sum / p.1)).sum := by
        rw [entropy, weights, Multiset.map_map]
        rfl
    _ ≤ (P.map fun p => (p.1 : ℝ) * p.2
          + ((weights P).sum * (1 / 2) ^ p.2 - p.1) / Real.log 2).sum :=
        Multiset.sum_map_le_sum_map _ _ hitem
    _ = cost P + ((weights P).sum * ((lengths P).map fun l => (1 / 2 : ℝ) ^ l).sum
          - (weights P).sum) / Real.log 2 := by
        rw [Multiset.sum_map_add, ← cast_cost, Multiset.sum_map_div, Multiset.sum_map_sub,
          Multiset.sum_map_mul_left, hweights, hlengths]
    _ ≤ cost P := by
        have hnonpos : ((weights P).sum * ((lengths P).map fun l => (1 / 2 : ℝ) ^ l).sum
            - (weights P).sum : ℝ) ≤ 0 := by
          have hmul := mul_le_mul_of_nonneg_left hunit
            (Nat.cast_nonneg (α := ℝ) (weights P).sum)
          linarith
        have hquot := div_nonpos_of_nonpos_of_nonneg hnonpos hlog.le
        linarith

section Shannon
variable {n w : Nat}

theorem pow_selfInformation_le (hw : 0 < w) (hn : 0 < n) :
    (1 / 2 : ℝ) ^ selfInformation n w ≤ w / n := by
  have hw' : (0 : ℝ) < w := by exact_mod_cast hw
  have hn' : (0 : ℝ) < n := by exact_mod_cast hn
  have hceil := Nat.le_ceil (Real.logb 2 ((n : ℝ) / w))
  have hpow : (n : ℝ) / w ≤ 2 ^ selfInformation n w := by
    calc (n : ℝ) / w = 2 ^ Real.logb 2 ((n : ℝ) / w) :=
          (Real.rpow_logb (by norm_num) (by norm_num) (by positivity)).symm
      _ ≤ 2 ^ ((selfInformation n w : Nat) : ℝ) :=
          Real.rpow_le_rpow_of_exponent_le (by norm_num) hceil
      _ = 2 ^ selfInformation n w := Real.rpow_natCast _ _
  rw [one_div, inv_pow, ← inv_div (n : ℝ) (w : ℝ)]
  exact inv_anti₀ (by positivity) hpow

theorem mul_selfInformation_lt (hw : 0 < w) (hwn : w ≤ n) :
    (w : ℝ) * selfInformation n w < w * Real.logb 2 (n / w) + w := by
  have hw' : (0 : ℝ) < w := by exact_mod_cast hw
  have hone : (1 : ℝ) ≤ n / w := by
    rw [one_le_div hw']
    exact_mod_cast hwn
  have hlt := Nat.ceil_lt_add_one (Real.logb_nonneg (b := 2) (by norm_num) hone)
  calc (w : ℝ) * selfInformation n w < w * (Real.logb 2 (n / w) + 1) :=
        mul_lt_mul_of_pos_left hlt hw'
    _ = w * Real.logb 2 (n / w) + w := by ring

end Shannon

/-- The code of the self-informations. -/
noncomputable def selfInformed (W : Multiset Nat) : Multiset Item :=
  W.map fun w => (w, selfInformation W.sum w)

@[simp] theorem weights_selfInformed (W : Multiset Nat) : weights (selfInformed W) = W := by
  simp [weights, selfInformed]

theorem space_selfInformed {W : Multiset Nat} (hpos : ∀ w ∈ W, 0 < w) :
    space (lengths (selfInformed W)) ≤ 1 := by
  have hreal : ((space (lengths (selfInformed W)) : ℚ) : ℝ) ≤ 1 := by
    rw [cast_space, lengths, selfInformed, Multiset.map_map, Multiset.map_map]
    calc ((W.map fun w : Nat => (1 / 2 : ℝ) ^ selfInformation W.sum w).sum)
        ≤ (W.map fun w : Nat => (w : ℝ) / W.sum).sum := by
          refine Multiset.sum_map_le_sum_map _ _ fun w hw => ?_
          have hle : w ≤ W.sum := le_sum hw
          exact pow_selfInformation_le (hpos w hw) ((hpos w hw).trans_le hle)
      _ = (W.sum : ℝ) / W.sum := by rw [Multiset.sum_map_div, ← cast_sum]
      _ ≤ 1 := div_self_le_one _
  exact_mod_cast hreal

/-- **The self-informations reach the entropy**, up to one bit per occurrence. -/
theorem cost_selfInformed_lt {W : Multiset Nat} (hne : W ≠ 0) (hpos : ∀ w ∈ W, 0 < w) :
    (cost (selfInformed W) : ℝ) < entropy W + W.sum := by
  rw [cast_cost, selfInformed, Multiset.map_map, entropy, cast_sum W, ← Multiset.sum_map_add]
  refine Multiset.sum_lt_sum_of_nonempty hne fun w hw => ?_
  rw [← cast_sum]
  exact mul_selfInformation_lt (hpos w hw) (le_sum hw)

/-- Bits filled up to bytes. -/
theorem bits_of_bytes (n : Nat) :
    (n : ℝ) ≤ 8 * ((n + 7) / 8 : Nat) ∧ (8 * ((n + 7) / 8 : Nat) : ℝ) ≤ n + 7 := by
  have hlow : n ≤ 8 * ((n + 7) / 8) := by omega
  have hhigh : 8 * ((n + 7) / 8) ≤ n + 7 := by omega
  exact ⟨by exact_mod_cast hlow, by exact_mod_cast hhigh⟩

end OptimalCode

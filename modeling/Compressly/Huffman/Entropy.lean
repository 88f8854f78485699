/-
# `Compressly.Huffman.Entropy` — lengths against the entropy of the counts

The lengths are a code, so they cost no less than the entropy of the counts
(`Usable.entropy_le`).  Where the limit on the lengths is out of reach they cost the
least of all codes (`weightedLength_least`), so no more than the self-informations,
one bit per occurrence above the entropy (`weightedLength_le_entropy`).
-/
import Compressly.Huffman.Depth
import Compressly.Lib.Entropy

namespace Compressly.Huffman

open Kraft OptimalCode

section Tables
variable {freq : FreqTable} {ls : LengthTable}

theorem Usable.presentSymbols_eq (h : Usable freq ls) :
    presentSymbols ls = presentSymbols freq := by
  rw [presentSymbols, presentSymbols, h.length]
  refine List.filter_congr fun s hs => decide_eq_decide.mpr ?_
  rw [h.present, mem_presentSymbols]
  exact ⟨fun hmem => hmem.2, fun hne => ⟨List.mem_range.mp hs, hne⟩⟩

/-- A usable table is a code. -/
theorem Usable.codeLengths (h : Usable freq ls) : CodeLengths freq fun s => ls.getD s 0 where
  pos s hs := Nat.pos_of_ne_zero ((h.present s).mpr hs)
  kraft_le := by
    have hpow : (0 : ℚ) < 2 ^ kMaxCodeLength := by positivity
    have hlengths : lengths (codeItems freq fun s => ls.getD s 0)
        = (ls.filter (· ≠ 0) : Multiset Nat) := by
      rw [lengths_codeItems, ← h.presentSymbols_eq, h.covered.presentSymbols_eq,
        map_countedSymbols]
    have hcast : ((kraft kMaxCodeLength (ls.filter (· ≠ 0)) : Nat) : ℚ) ≤ 2 ^ kMaxCodeLength := by
      exact_mod_cast h.kraft_le
    rw [← space_codeItems, hlengths,
      space_eq_div fun l hl => h.le_max l (List.mem_of_mem_filter hl), Multiset.map_coe,
      Multiset.sum_coe, div_le_one hpow]
    exact hcast

theorem mem_presentFreqs {freq : FreqTable} {w : Nat} (hw : w ∈ presentFreqs freq) : 0 < w := by
  obtain ⟨s, hs, rfl⟩ := List.mem_map.mp (Multiset.mem_coe.mp hw)
  exact Nat.pos_of_ne_zero (mem_presentSymbols.mp hs).2

/-- What a table costs, symbol by symbol. -/
theorem weightedLength_present (hc : Covered freq) (len : Nat → Nat) :
    weightedLength freq len = ((presentSymbols freq).map fun s => freq.getD s 0 * len s).sum := by
  rw [weightedLength_eq hc, cost, codeItems, Multiset.map_coe, List.map_map, Multiset.sum_coe]
  rfl

/-- Absent symbols count for nothing. -/
theorem sum_presentFreqs (hc : Covered freq) : (presentFreqs freq).sum = freq.sum := by
  have hone := weightedLength_present hc fun _ => 1
  rw [weightedLength] at hone
  simp only [Nat.mul_one] at hone
  rw [map_getD_range] at hone
  rw [hone, presentFreqs, Multiset.sum_coe]

/-- The lengths cost no less than the entropy of the counts. -/
theorem Usable.entropy_le (h : Usable freq ls) (hc : Covered freq) :
    entropy (presentFreqs freq) ≤ weightedLength freq fun s => ls.getD s 0 := by
  rw [weightedLength_eq hc, ← weights_codeItems freq fun s => ls.getD s 0]
  refine entropy_le_cost ?_ ?_
  · rw [weights_codeItems]
    exact fun w hw => mem_presentFreqs hw
  · rw [space_codeItems]
    exact h.codeLengths.kraft_le

/-- The self-informations are a code, if there is anything to tell. -/
theorem codeLengths_selfInformation (hc : Covered freq) (h2 : 2 ≤ (presentSymbols freq).length) :
    CodeLengths freq (fun s => selfInformation freq.sum (freq.getD s 0)) ∧
      (weightedLength freq (fun s => selfInformation freq.sum (freq.getD s 0)) : ℝ)
        < entropy (presentFreqs freq) + freq.sum := by
  have hitems : codeItems freq (fun s => selfInformation freq.sum (freq.getD s 0))
      = selfInformed (presentFreqs freq) := by
    rw [codeItems, selfInformed, sum_presentFreqs hc, presentFreqs, Multiset.map_coe, List.map_map]
    rfl
  refine ⟨{ pos := fun s hs => ?_, kraft_le := ?_ }, ?_⟩
  · -- another symbol occurs, so this one is not all there is
    obtain ⟨r, hr, hrs⟩ : ∃ r ∈ presentSymbols freq, r ≠ s := by
      by_contra hnone
      push Not at hnone
      have hsub : (presentSymbols freq).length ≤ [s].length :=
        (List.Nodup.subperm (nodup_presentSymbols freq) fun r hr =>
          List.mem_singleton.mpr (hnone r hr)).length_le
      rw [List.length_singleton] at hsub
      omega
    have hfs := (mem_presentSymbols.mp hs).2
    have hfr := (mem_presentSymbols.mp hr).2
    have hlt : freq.getD s 0 < freq.sum := by
      have hperm := List.perm_cons_erase hs
      have hmem : r ∈ (presentSymbols freq).erase s := (List.mem_erase_of_ne hrs).mpr hr
      have hsum := (hperm.map fun s => freq.getD s 0).sum_eq
      have hle := List.single_le_sum (fun _ _ => Nat.zero_le _) _
        (List.mem_map_of_mem (f := fun s => freq.getD s 0) hmem)
      have htotal := sum_present_le freq
      rw [hsum, List.map_cons, List.sum_cons] at htotal
      omega
    have hpos : (0 : ℝ) < freq.getD s 0 := by exact_mod_cast Nat.pos_of_ne_zero hfs
    refine Nat.ceil_pos.mpr (Real.logb_pos (by norm_num) ?_)
    rw [one_lt_div hpos]
    exact_mod_cast hlt
  · rw [← space_codeItems, hitems]
    exact space_selfInformed fun w hw => mem_presentFreqs hw
  · have hne : presentFreqs freq ≠ 0 := by
      rw [presentFreqs, Ne, Multiset.coe_eq_zero, List.map_eq_nil_iff]
      exact ne_nil_of_two_le h2
    have hlt := cost_selfInformed_lt hne fun w hw => mem_presentFreqs hw
    rwa [← hitems, ← weightedLength_eq hc, sum_presentFreqs hc] at hlt

theorem entropy_nonneg {W : Multiset Nat} (hpos : ∀ w ∈ W, 0 < w) : 0 ≤ entropy W := by
  refine Multiset.sum_nonneg fun x hx => ?_
  obtain ⟨w, hw, rfl⟩ := Multiset.mem_map.mp hx
  have hw' : (0 : ℝ) < w := by exact_mod_cast hpos w hw
  have hone : (1 : ℝ) ≤ W.sum / w := by
    rw [one_le_div hw']
    exact_mod_cast le_sum hw
  exact mul_nonneg hw'.le (Real.logb_nonneg (by norm_num) hone)

theorem lengths_of_lt_two (hok : buildLengths freq = .ok ls)
    (h2 : (presentSymbols freq).length < 2) : ∀ s ∈ presentSymbols freq, ls.getD s 0 = 1 := by
  obtain ⟨ls', hok', ha⟩ := buildLengths_of_lt_two h2
  have hsame := hok'.symm.trans hok
  cases hsame
  intro s hs
  have hmem := List.mem_map_of_mem (f := fun s => ls.getD s 0) hs
  rw [ha.slots] at hmem
  obtain ⟨-, -, heq⟩ := List.mem_map.mp hmem
  exact heq.symm

/-- Where the limit is out of reach, the lengths cost the least of all codes, also for a single
symbol. -/
theorem weightedLength_least {c : Nat} (hc : Covered freq) (hok : buildLengths freq = .ok ls)
    (htotal : freq.sum < 2 ^ 64) (hleast : ∀ s ∈ presentSymbols freq, c ≤ freq.getD s 0)
    (hsmall : freq.sum < 2584 * c) {len : Nat → Nat} (hlen : CodeLengths freq len) :
    weightedLength freq (fun s => ls.getD s 0) ≤ weightedLength freq len := by
  rcases Nat.lt_or_ge (presentSymbols freq).length 2 with h2 | h2
  · rw [weightedLength_present hc, weightedLength_present hc]
    refine List.sum_le_sum fun s hs => ?_
    rw [lengths_of_lt_two hok h2 s hs]
    exact Nat.mul_le_mul_left _ (hlen.pos s hs)
  · obtain ⟨nodes, root, t, ms, ls', hok', ha, hdepth⟩ :=
      buildLengths_unlimited h2 htotal hleast hsmall
    have hsame := hok'.symm.trans hok
    cases hsame
    exact (ha.least hc (ne_nil_of_two_le h2) htotal hdepth).2 ⟨_, hlen, rfl⟩

/-- One bit for each occurrence, if there is nothing to tell. -/
theorem weightedLength_of_lt_two (hc : Covered freq) (hok : buildLengths freq = .ok ls)
    (h2 : (presentSymbols freq).length < 2) :
    weightedLength freq (fun s => ls.getD s 0) = freq.sum := by
  refine Eq.trans ?_ (sum_presentFreqs hc)
  rw [weightedLength_present hc, presentFreqs, Multiset.sum_coe]
  refine congrArg List.sum (List.map_congr_left fun s hs => ?_)
  rw [lengths_of_lt_two hok h2 s hs, Nat.mul_one]

/-- Where the limit is out of reach, the lengths cost at most one bit per occurrence more. -/
theorem weightedLength_le_entropy {c : Nat} (hc : Covered freq) (hok : buildLengths freq = .ok ls)
    (htotal : freq.sum < 2 ^ 64) (hleast : ∀ s ∈ presentSymbols freq, c ≤ freq.getD s 0)
    (hsmall : freq.sum < 2584 * c) :
    (weightedLength freq (fun s => ls.getD s 0) : ℝ) ≤ entropy (presentFreqs freq) + freq.sum := by
  rcases Nat.lt_or_ge (presentSymbols freq).length 2 with h2 | h2
  · have hnonneg : 0 ≤ entropy (presentFreqs freq) := entropy_nonneg fun w hw => mem_presentFreqs hw
    rw [weightedLength_of_lt_two hc hok h2]
    linarith
  · obtain ⟨hcode, hlt⟩ := codeLengths_selfInformation hc h2
    have hle : (weightedLength freq (fun s => ls.getD s 0) : ℝ)
        ≤ (weightedLength freq fun s => selfInformation freq.sum (freq.getD s 0) : Nat) := by
      exact_mod_cast weightedLength_least hc hok htotal hleast hsmall hcode
    exact hle.trans hlt.le

end Tables

/-! ## Counts of a list of symbols -/

section Histogram
variable {size : Nat} {symbols : List Nat}

theorem getD_histogram {s : Nat} (hs : s < size) :
    (histogram size symbols).getD s 0 = symbols.count s := by
  rw [List.getD_eq_getElem _ _ (by simpa using hs)]
  exact getElem_histogram _ _

/-- By frequency or by occurrence. -/
theorem weightedLength_histogram (hsym : ∀ s ∈ symbols, s < size) (len : Nat → Nat) :
    weightedLength (histogram size symbols) len = (symbols.map len).sum := by
  rw [← sum_count_mul hsym, weightedLength, length_histogram]
  refine congrArg List.sum (List.map_congr_left fun s hs => ?_)
  rw [getD_histogram (List.mem_range.mp hs)]

theorem sum_histogram (hsym : ∀ s ∈ symbols, s < size) :
    (histogram size symbols).sum = symbols.length := by
  have hone := weightedLength_histogram hsym fun _ => 1
  rw [weightedLength] at hone
  simp only [Nat.mul_one] at hone
  rw [map_getD_range] at hone
  rw [hone, List.map_const', List.sum_replicate, smul_eq_mul, Nat.mul_one]

/-- Each symbol that occurs does so as often as each occurrence says. -/
theorem least_histogram {c : Nat} (hc : ∀ s ∈ symbols, c ≤ symbols.count s) :
    ∀ s ∈ presentSymbols (histogram size symbols), c ≤ (histogram size symbols).getD s 0 := by
  intro s hs
  have hne := (mem_presentSymbols.mp hs).2
  have hlt : s < size := by simpa using lt_length_of_getD hne
  rw [getD_histogram hlt] at hne ⊢
  exact hc s (List.count_pos_iff.mp (Nat.pos_of_ne_zero hne))

/-- A table that costs the least of all codes for its symbols, and at most one bit per occurrence
more than the entropy. -/
structure Thrifty (symbols : List Nat) (size : Nat) (ls : LengthTable) : Prop where
  least : ∀ len, CodeLengths (histogram size symbols) len →
    weightedLength (histogram size symbols) (fun s => ls.getD s 0)
      ≤ weightedLength (histogram size symbols) len
  le_entropy : (weightedLength (histogram size symbols) (fun s => ls.getD s 0) : ℝ)
    ≤ entropy (presentFreqs (histogram size symbols)) + symbols.length

/-- So is the table made where the limit on the lengths is out of reach. -/
theorem thrifty {c : Nat} {ls : LengthTable} (hok : buildLengths (histogram size symbols) = .ok ls)
    (hsize : size ≤ 2 ^ kMaxCodeLength) (hsym : ∀ s ∈ symbols, s < size)
    (htotal : symbols.length < 2 ^ 64) (hc : ∀ s ∈ symbols, c ≤ symbols.count s)
    (hsmall : symbols.length < 2584 * c) :
    Thrifty symbols size ls := by
  have hsum := sum_histogram hsym
  have htotal' : (histogram size symbols).sum < 2 ^ 64 := by omega
  have hsmall' : (histogram size symbols).sum < 2584 * c := by omega
  have hcovered := covered_histogram hsize symbols
  refine ⟨fun len => weightedLength_least hcovered hok htotal' (least_histogram hc) hsmall', ?_⟩
  rw [← hsum]
  exact weightedLength_le_entropy hcovered hok htotal' (least_histogram hc) hsmall'

end Histogram

end Compressly.Huffman

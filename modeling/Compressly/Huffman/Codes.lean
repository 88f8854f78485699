/-
# `Compressly.Huffman.Codes` — what the frequency and code tables are

Each table the coder fills by incrementing slots is a histogram, and the code
table is the canonical code of `Lib.Kraft` reduced to 32 bits:

    countFrequencies data        =  the histogram of the bytes
    buildCanonicalCodes lengths  =  codeTable lengths,  if no length exceeds 15

The second holds also for tables that satisfy no Kraft inequality: there the
numbers overflow their width, and `codeTable` says what they become.  Where the
inequality holds the reduction does nothing (`natBits_codeOf`).  What it needs
is that the loops reach every symbol that occurs (`Covered`): they count up to
the size of the table as a 32-bit int, which is less than the size from
`2 ^ 31` entries on.
-/
import Compressly.Huffman.Basic
import Compressly.Lib.Kraft

namespace Compressly.Huffman

open Bits Kraft

/-! ## The alphabet -/

theorem alphabetSize_of_lt {n : Nat} (h : n < 2 ^ 31) : alphabetSize n = n := by
  have hint : (BitVec.ofNat 32 n).toInt = n := by
    rw [BitVec.toInt, BitVec.toNat_ofNat]
    omega
  rw [alphabetSize, hint, Int.toNat_natCast]

theorem alphabetSize_le (n : Nat) : alphabetSize n ≤ n := by
  have hmod := Nat.mod_le n (2 ^ 32)
  rw [alphabetSize, BitVec.toInt, BitVec.toNat_ofNat]
  omega

/-- A size with the sign bit set makes the int negative. -/
theorem alphabetSize_eq_zero {n : Nat} (h : 2 ^ 31 ≤ n) (h' : n ≤ 2 ^ 32) : alphabetSize n = 0 := by
  rw [alphabetSize, BitVec.toInt, BitVec.toNat_ofNat]
  omega

/-- Every entry that is not zero lies below the bound of the loops. -/
def Covered (table : List Nat) : Prop :=
  ∀ s, table.getD s 0 ≠ 0 → s < alphabetSize table.length

/-- A symbol with a length is one of the table. -/
theorem lt_length_of_getD {ls : LengthTable} {s : Nat} (hs : ls.getD s 0 ≠ 0) :
    s < ls.length := by
  by_contra hge
  exact hs (List.getD_eq_default _ _ (Nat.le_of_not_lt hge))

theorem covered_of_lt {table : List Nat} (h : table.length < 2 ^ 31) : Covered table := by
  intro s hs
  rw [alphabetSize_of_lt h]
  exact lt_length_of_getD hs

/-- A table over the bytes. -/
theorem covered_bytes {table : List Nat} (h : table.length = kByteAlphabetSize) : Covered table :=
  covered_of_lt (h.trans_lt (by decide))

/-- The smallest size at which a table can escape the loops. -/
theorem not_covered_one_zeros : ¬ Covered (1 :: List.replicate (2 ^ 31 - 1) 0) := by
  intro h
  have hlen : (1 :: List.replicate (2 ^ 31 - 1) 0).length = 2 ^ 31 := by
    rw [List.length_cons, List.length_replicate]
    rfl
  have hzero := h 0 Nat.one_ne_zero
  rw [hlen, alphabetSize_eq_zero le_rfl (by decide)] at hzero
  exact Nat.lt_irrefl 0 hzero

theorem mem_presentSymbols {freq : FreqTable} {s : Nat} :
    s ∈ presentSymbols freq ↔ s < alphabetSize freq.length ∧ freq.getD s 0 ≠ 0 := by
  rw [presentSymbols, List.mem_filter, List.mem_range, decide_eq_true_iff]

/-- In a table the loop runs over in full, the symbols found are those with a count. -/
theorem Covered.mem_presentSymbols {freq : FreqTable} (hc : Covered freq) {s : Nat} :
    s ∈ presentSymbols freq ↔ freq.getD s 0 ≠ 0 := by
  rw [Huffman.mem_presentSymbols]
  exact ⟨fun h => h.2, fun h => ⟨hc s h, h⟩⟩

/-- The symbols with a count, wherever they lie. -/
def countedSymbols (freq : FreqTable) : List Nat :=
  (List.range freq.length).filter fun symbol => freq.getD symbol 0 ≠ 0

theorem presentSymbols_sublist (freq : FreqTable) :
    (presentSymbols freq).Sublist (countedSymbols freq) :=
  (List.range_sublist.mpr (alphabetSize_le _)).filter _

theorem Covered.presentSymbols_eq {freq : FreqTable} (hc : Covered freq) :
    presentSymbols freq = countedSymbols freq := by
  refine (presentSymbols_sublist freq).eq_of_length_le ?_
  have hnodup : (countedSymbols freq).Nodup := List.nodup_range.filter _
  refine (hnodup.subperm fun s hs => ?_).length_le
  exact hc.mem_presentSymbols.mpr (of_decide_eq_true (List.mem_filter.mp hs).2)

theorem map_getD_range (ls : List Nat) :
    (List.range ls.length).map (fun s => ls.getD s 0) = ls := by
  refine List.ext_getElem (by simp) fun i h₁ h₂ => ?_
  rw [List.getElem_map, List.getElem_range, List.getD_eq_getElem _ _ h₂]

/-- The entries of the symbols that have one. -/
theorem map_countedSymbols (ls : List Nat) :
    (countedSymbols ls).map (fun s => ls.getD s 0) = ls.filter (· ≠ 0) := by
  calc (countedSymbols ls).map (fun s => ls.getD s 0)
      = ((List.range ls.length).map fun s => ls.getD s 0).filter (· ≠ 0) := by
        rw [List.filter_map]
        rfl
    _ = ls.filter (· ≠ 0) := by rw [map_getD_range]

/-- There are at most as many symbols as entries that are not zero. -/
theorem length_presentSymbols_le_count (freq : FreqTable) :
    (presentSymbols freq).length ≤ (freq.filter (· ≠ 0)).length := by
  rw [← map_countedSymbols, List.length_map]
  exact (presentSymbols_sublist freq).length_le

theorem Covered.length_presentSymbols {freq : FreqTable} (hc : Covered freq) :
    (presentSymbols freq).length = (freq.filter (· ≠ 0)).length := by
  rw [← map_countedSymbols, List.length_map, hc.presentSymbols_eq]

theorem lt_of_mem_presentSymbols {freq : FreqTable} {s : Nat} (h : s ∈ presentSymbols freq) :
    s < freq.length :=
  Nat.lt_of_lt_of_le (mem_presentSymbols.mp h).1 (alphabetSize_le _)

theorem length_presentSymbols_le (freq : FreqTable) :
    (presentSymbols freq).length ≤ freq.length :=
  (length_presentSymbols_le_count freq).trans (List.length_filter_le _ _)

theorem nodup_presentSymbols (freq : FreqTable) : (presentSymbols freq).Nodup :=
  List.nodup_range.filter _

/-! ## Tables of counters -/

/-- Counting one more. -/
theorem bump_histogram {n k : Nat} (ls : List Nat) (hk : k < n) :
    bump (histogram n ls) k = .ok (histogram n (k :: ls)) := by
  have hlen : k < (histogram n ls).length := by simpa using hk
  rw [bump, fetch_of_lt hlen, bind_ok, store_of_lt hlen, getElem_histogram, histogram_cons]

/-- Counting a whole list. -/
theorem foldlM_bump {n : Nat} {xs : List Nat} (h : ∀ x ∈ xs, x < n) (ls : List Nat) :
    xs.foldlM bump (histogram n ls) = .ok (histogram n (xs ++ ls)) := by
  induction xs generalizing ls with
  | nil => rfl
  | cons x xs ih =>
      rw [List.foldlM_cons, bump_histogram ls (h x List.mem_cons_self), bind_ok,
        ih (fun y hy => h y (List.mem_cons_of_mem _ hy)),
        histogram_perm List.perm_middle, List.cons_append]

/-- The frequencies of a buffer. -/
def frequencies (data : List UInt8) : FreqTable :=
  histogram kByteAlphabetSize (data.map UInt8.toNat)

theorem countFrequencies_eq (data : List UInt8) :
    countFrequencies data = .ok (frequencies data) := by
  have hlt : ∀ x ∈ data.map UInt8.toNat, x < kByteAlphabetSize := by
    intro x hx
    obtain ⟨byte, -, rfl⟩ := List.mem_map.mp hx
    exact byte.toNat_lt
  have h := foldlM_bump hlt []
  rwa [List.foldlM_map, histogram_nil, List.append_nil] at h

/-! ## Canonical codes -/

/-- The code of a symbol, in the 32 bits the source keeps. -/
def codeOf (ls : LengthTable) (s : Nat) : Code :=
  if ls.getD s 0 = 0 then {} else { bits := canonical ls s % 2 ^ 32, length := ls.getD s 0 }

def codeTable (ls : LengthTable) : CodeTable := (List.range ls.length).map (codeOf ls)

@[simp] theorem length_codeTable (ls : LengthTable) : (codeTable ls).length = ls.length := by
  simp [codeTable]

theorem getElem_codeTable {ls : LengthTable} {s : Nat} (h : s < (codeTable ls).length) :
    (codeTable ls)[s] = codeOf ls s := by
  simp [codeTable]

/-- Absent symbols are not counted. -/
theorem count_present (ls : List Nat) (l : Nat) : (ls.filter (· ≠ 0)).count l = counts ls l := by
  unfold counts
  split
  case isTrue h =>
    subst h
    exact List.count_eq_zero_of_not_mem (by simp)
  case isFalse h => exact List.count_filter (by simpa using h)

theorem lengthCounts_eq {ls : LengthTable} (h : ∀ l ∈ ls, l ≤ kMaxCodeLength) :
    lengthCounts ls = .ok (histogram (kMaxCodeLength + 1) (ls.filter (· ≠ 0))) := by
  have hlt : ∀ l ∈ ls.filter (· ≠ 0), l < kMaxCodeLength + 1 := fun l hl =>
    Nat.lt_succ_of_le (h l (List.mem_of_mem_filter hl))
  have hskip : ∀ (xs acc : List Nat),
      xs.foldlM (fun count length => if length ≠ 0 then bump count length else pure count) acc
        = (xs.filter (· ≠ 0)).foldlM bump acc := by
    intro xs
    induction xs with
    | nil => exact fun _ => rfl
    | cons x xs ih =>
        intro acc
        by_cases hx : x = 0
        · rw [List.foldlM_cons, if_neg (not_not.mpr hx), pure_eq_ok, bind_ok, ih,
            List.filter_cons_of_neg (by simp [hx])]
        · rw [List.foldlM_cons, if_pos hx, List.filter_cons_of_pos (by simpa using hx),
            List.foldlM_cons]
          exact bind_congr fun init => ih init
  rw [lengthCounts, hskip, ← histogram_nil, foldlM_bump hlt, List.append_nil]

/-- `nextCode` once the symbols of `pre` have been given their codes. -/
def nextTable (ls pre : LengthTable) : List Nat :=
  (List.range (kMaxCodeLength + 1)).map fun l => (firstCode ls l + counts pre l) % 2 ^ 32

theorem nextTable_set {l : Nat} (ls pre : LengthTable) (h0 : l ≠ 0) :
    (nextTable ls pre).set l (((firstCode ls l + counts pre l) % 2 ^ 32 + 1) % 2 ^ 32)
      = nextTable ls (pre ++ [l]) := by
  refine List.ext_getElem (by simp [nextTable]) fun j h₁ h₂ => ?_
  rw [List.getElem_set]
  by_cases hjl : l = j
  · subst hjl
    simp [nextTable, counts, h0, Nat.add_assoc]
  · simp [nextTable, counts, hjl]

theorem nextTable_append_zero (ls pre : LengthTable) :
    nextTable ls (pre ++ [0]) = nextTable ls pre := by
  refine List.map_congr_left fun l _ => ?_
  by_cases hl : l = 0
  · simp [counts, hl]
  · simp [counts, hl, Ne.symm hl]

/-- One round of the recurrence in 32 bits. -/
theorem firstCode_succ_mod (ls : LengthTable) (l : Nat) :
    (firstCode ls l % 2 ^ 32 + counts ls l) <<< 1 % 2 ^ 32 = firstCode ls (l + 1) % 2 ^ 32 := by
  rw [Nat.shiftLeft_eq, Nat.pow_one, firstCode, Nat.mul_comm, Nat.mul_mod, Nat.mod_add_mod,
    ← Nat.mul_mod]

/-- One round of `firstCodes`. -/
def firstCodeRound (count : List Nat) (s : List Nat × Nat) (length : Nat) :
    Result (List Nat × Nat) := do
  let n ← fetch count (length - 1)
  let nextCode ← store s.1 length (((s.2 + n) <<< 1) % 2 ^ 32)
  pure (nextCode, ((s.2 + n) <<< 1) % 2 ^ 32)

theorem firstCodes_loop (count : List Nat) :
    firstCodes count = (do
      let s ← (List.range' 1 kMaxCodeLength).foldlM (firstCodeRound count)
        (List.replicate (kMaxCodeLength + 1) 0, 0)
      pure s.1) := rfl

theorem firstCodes_eq (ls : LengthTable) :
    firstCodes (histogram (kMaxCodeLength + 1) (ls.filter (· ≠ 0))) = .ok (nextTable ls []) := by
  -- after the lengths up to `m`, the slots above `m` are still zero
  have hloop : ∀ m ≤ kMaxCodeLength,
      (List.range' 1 m).foldlM
        (firstCodeRound (histogram (kMaxCodeLength + 1) (ls.filter (· ≠ 0))))
        (List.replicate (kMaxCodeLength + 1) 0, 0)
      = (.ok ((List.range (kMaxCodeLength + 1)).map
            fun l => if l ≤ m then firstCode ls l % 2 ^ 32 else 0, firstCode ls m % 2 ^ 32)
          : Result (List Nat × Nat)) := by
    intro m
    induction m with
    | zero =>
        intro _
        have hzero : (List.range (kMaxCodeLength + 1)).map
            (fun l => if l ≤ 0 then firstCode ls l % 2 ^ 32 else 0)
              = List.replicate (kMaxCodeLength + 1) 0 := by
          refine List.ext_getElem (by simp) fun j h₁ h₂ => ?_
          by_cases hj : j = 0
          · simp [hj, firstCode]
          · simp [hj]
        rw [hzero]
        rfl
    | succ m ih =>
        intro hm
        have hfetch : m < (histogram (kMaxCodeLength + 1) (ls.filter (· ≠ 0))).length := by
          simp
          omega
        rw [List.range'_1_concat, List.foldlM_append, ih (by omega), bind_ok]
        simp only [List.foldlM_cons, List.foldlM_nil, firstCodeRound]
        rw [show 1 + m - 1 = m by omega, fetch_of_lt hfetch, bind_ok, getElem_histogram,
          count_present, firstCode_succ_mod, store_of_lt (by simp; omega)]
        simp only [bind_ok, pure_eq_ok]
        congr 2
        refine List.ext_getElem (by simp) fun j h₁ h₂ => ?_
        rw [List.getElem_set]
        by_cases hj : 1 + m = j
        · subst hj
          simp [Nat.add_comm]
        · have hle : j ≤ m + 1 ↔ j ≤ m := by omega
          simp [hj, hle]
  rw [firstCodes_loop, hloop kMaxCodeLength le_rfl]
  simp only [bind_ok, pure_eq_ok]
  refine congrArg Except.ok (List.map_congr_left fun l hl => ?_)
  have hle : l ≤ kMaxCodeLength := Nat.lt_succ_iff.mp (List.mem_range.mp hl)
  simp [hle, counts]

theorem assignCodes_eq {ls post : LengthTable} (h : ∀ l ∈ ls, l ≤ kMaxCodeLength) :
    ∀ (pre rest : LengthTable), pre ++ rest ++ post = ls →
      assignCodes (nextTable ls pre) rest
        = .ok ((List.range' pre.length rest.length).map (codeOf ls)) := by
  intro pre rest
  induction rest generalizing pre with
  | nil => exact fun _ => rfl
  | cons l rest ih =>
      intro hls
      have hget : ls.getD pre.length 0 = l := by simp [← hls]
      have hih := ih (pre ++ [l]) (by simpa using hls)
      rw [List.length_append, List.length_singleton] at hih
      rw [List.length_cons, List.range'_succ, List.map_cons]
      by_cases h0 : l = 0
      · subst h0
        rw [nextTable_append_zero] at hih
        simp only [assignCodes, if_true, hih, bind_ok, pure_eq_ok]
        rw [codeOf, hget, if_pos rfl]
      · have hl : l < (nextTable ls pre).length := by
          have : l ≤ kMaxCodeLength := h l (by simp [← hls])
          simp [nextTable]
          omega
        have hslot : (nextTable ls pre)[l] = (firstCode ls l + counts pre l) % 2 ^ 32 := by
          simp [nextTable]
        have hcode : codeOf ls pre.length
            = { bits := (firstCode ls l + counts pre l) % 2 ^ 32, length := l } := by
          rw [codeOf, hget, if_neg h0, canonical, hget, counts, if_neg h0]
          simp [← hls]
        simp only [assignCodes, if_neg h0, fetch_of_lt hl, store_of_lt hl, bind_ok, hslot,
          nextTable_set ls pre h0, hih, pure_eq_ok, hcode]

/-- Symbols past the bound of the loop are left without a code. -/
theorem buildCanonicalCodes_take {ls : LengthTable} (h : ∀ l ∈ ls, l ≤ kMaxCodeLength) :
    buildCanonicalCodes ls
      = .ok ((List.range (alphabetSize ls.length)).map (codeOf ls)
          ++ List.replicate (ls.length - alphabetSize ls.length) ({} : Code)) := by
  have hassign := assignCodes_eq h [] (ls.take (alphabetSize ls.length))
    (List.take_append_drop _ _)
  rw [List.length_take, Nat.min_eq_left (alphabetSize_le _), List.length_nil,
    ← List.range_eq_range'] at hassign
  simp only [buildCanonicalCodes, lengthCounts_eq h, firstCodes_eq ls, bind_ok, hassign,
    pure_eq_ok]

/-- The code table is the canonical one, for every length table the array bounds allow. -/
theorem buildCanonicalCodes_eq {ls : LengthTable} (h : ∀ l ∈ ls, l ≤ kMaxCodeLength)
    (hc : Covered ls) : buildCanonicalCodes ls = .ok (codeTable ls) := by
  have hle := alphabetSize_le ls.length
  rw [buildCanonicalCodes_take h, Except.ok.injEq]
  refine List.ext_getElem (by simp [hle]) fun s h₁ h₂ => ?_
  rw [getElem_codeTable]
  rcases Nat.lt_or_ge s (alphabetSize ls.length) with hs | hs
  · rw [List.getElem_append_left (by simpa using hs)]
    simp
  · have habsent : ls.getD s 0 = 0 := by
      by_contra h0
      exact Nat.not_lt.mpr hs (hc s h0)
    rw [List.getElem_append_right (by simpa using hs), List.getElem_replicate,
      codeOf, if_pos habsent]

/-! ## Code words -/

theorem codeOf_absent {ls : LengthTable} {s : Nat} (h : ls.getD s 0 = 0) :
    codeOf ls s = {} :=
  if_pos h

theorem codeOf_present {ls : LengthTable} {s : Nat} (h : ls.getD s 0 ≠ 0) :
    codeOf ls s = { bits := canonical ls s % 2 ^ 32, length := ls.getD s 0 } :=
  if_neg h

theorem codeOf_length (ls : LengthTable) (s : Nat) : (codeOf ls s).length = ls.getD s 0 := by
  unfold codeOf
  split
  case isTrue h => exact h.symm
  case isFalse => rfl

/-- What the low bits of a code spell is the canonical code word; the reduction
to 32 bits cannot be seen in them. -/
theorem natBits_codeOf {ls : LengthTable} {s : Nat} (h : ls.getD s 0 ≤ 32) :
    natBits (codeOf ls s).length (codeOf ls s).bits = codeWord ls s := by
  unfold codeOf codeWord
  split
  case isTrue h0 =>
    rw [h0]
    rfl
  case isFalse => exact natBits_mod h _

/-- A bound on the entries of a table holds beyond its end. -/
theorem getD_le_of_forall {xs : List Nat} {n : Nat} (h : ∀ x ∈ xs, x ≤ n) (i : Nat) :
    xs.getD i 0 ≤ n := by
  rcases Nat.lt_or_ge i xs.length with hi | hi
  · rw [List.getD_eq_getElem _ _ hi]
    exact h _ (List.getElem_mem hi)
  · rw [List.getD_eq_default _ _ hi]
    exact Nat.zero_le _

/-- A table whose lengths are at most 15 and satisfy the Kraft inequality. -/
structure PrefixTable (ls : LengthTable) : Prop where
  le_max : ∀ l ∈ ls, l ≤ kMaxCodeLength
  kraft_le : kraft kMaxCodeLength (ls.filter (· ≠ 0)) ≤ 2 ^ kMaxCodeLength

theorem PrefixTable.getD_le {ls : LengthTable} (h : PrefixTable ls) (s : Nat) :
    ls.getD s 0 ≤ kMaxCodeLength :=
  getD_le_of_forall h.le_max s

theorem PrefixTable.prefixFree {ls : LengthTable} (h : PrefixTable ls) {s t : Nat}
    (hs : ls.getD s 0 ≠ 0) (ht : ls.getD t 0 ≠ 0) (hst : codeWord ls s <+: codeWord ls t) :
    s = t := by
  have hs' := lt_length_of_getD hs
  have ht' := lt_length_of_getD ht
  rw [List.getD_eq_getElem _ _ hs'] at hs
  rw [List.getD_eq_getElem _ _ ht'] at ht
  exact canonical_prefixFree h.le_max h.kraft_le hs' ht' hs ht hst

end Compressly.Huffman

/-
# `Compressly.Deflate.Tables` — what the reverse tables hold

A code table is a list of range starts.  The range of a value is the number of
starts at or below it, less one (`rangeIndex`); the double loop that fills the
reverse tables writes exactly that (`mem_ranges`), for every value from the
first start to the top.

The two-level distance table aliases 128 distances to one slot.  No write is
lost by it: above 256 every start is one more than a multiple of 128, so
aliased distances lie in the same range (`rangeIndex_alias`).

    splitLength_eq      3 ≤ length ≤ 258
    splitDistance_eq    1 ≤ distance ≤ 32768
-/
import Compressly.Deflate.Basic

namespace Compressly.Deflate

open Huffman

/-! ## Rows -/

section Rows
variable {i : Nat} (hi : i < kLengthBase.length)
include hi

theorem lengthBase_row : lengthBase (kFirstLengthSymbol + i) = .ok (kLengthBase.getD i 0) := by
  rw [lengthBase, minus_of_le (Nat.le_add_right _ _), bind_ok, Nat.add_sub_cancel_left,
    fetch_of_lt hi, List.getD_eq_getElem _ _ hi]

theorem lengthExtraBits_row :
    lengthExtraBits (kFirstLengthSymbol + i) = .ok (kLengthExtra.getD i 0) := by
  have hi' : i < kLengthExtra.length := hi
  rw [lengthExtraBits, minus_of_le (Nat.le_add_right _ _), bind_ok, Nat.add_sub_cancel_left,
    fetch_of_lt hi', List.getD_eq_getElem _ _ hi']

/-- The code table reaches from length 3 to 258, extra bits included. -/
theorem length_range {x : Nat} (hx : x < 2 ^ kLengthExtra.getD i 0) :
    3 ≤ kLengthBase.getD i 0 + x ∧ kLengthBase.getD i 0 + x ≤ 258 := by
  have hrow : ∀ i < kLengthBase.length,
      3 ≤ kLengthBase.getD i 0 ∧ kLengthBase.getD i 0 + 2 ^ kLengthExtra.getD i 0 ≤ 259 := by decide
  obtain ⟨hlow, hhigh⟩ := hrow i hi
  exact ⟨Nat.le_add_right_of_le hlow, by omega⟩

end Rows

/-- The symbols above end-of-block are those of the rows. -/
theorem exists_row {symbol : Nat} (h256 : 256 < symbol) (h286 : symbol < kLitLenAlphabetSize) :
    ∃ i < kLengthBase.length, symbol = kFirstLengthSymbol + i := by
  obtain ⟨i, rfl⟩ : ∃ i, symbol = kFirstLengthSymbol + i :=
    ⟨symbol - kFirstLengthSymbol, (Nat.add_sub_cancel' h256).symm⟩
  exact ⟨i, Nat.lt_of_add_lt_add_left h286, rfl⟩

theorem row_lt {i : Nat} (hi : i < kLengthBase.length) :
    kFirstLengthSymbol + i < kLitLenAlphabetSize := Nat.add_lt_add_left hi _

theorem distanceBase_row {j : Nat} (hj : j < kDistBase.length) :
    distanceBase j = .ok (kDistBase.getD j 0) := by
  rw [distanceBase, fetch_of_lt hj, List.getD_eq_getElem _ _ hj]

theorem distanceExtraBits_row {j : Nat} (hj : j < kDistBase.length) :
    distanceExtraBits j = .ok (kDistExtra.getD j 0) := by
  have hj' : j < kDistExtra.length := hj
  rw [distanceExtraBits, fetch_of_lt hj', List.getD_eq_getElem _ _ hj']

theorem dist_pos {j : Nat} (hj : j < kDistBase.length) (y : Nat) : 0 < kDistBase.getD j 0 + y := by
  have hall : ∀ b ∈ kDistBase, 0 < b := by decide
  have hpos := hall _ (List.getElem_mem hj)
  rw [List.getD_eq_getElem _ _ hj]
  exact Nat.add_pos_left hpos y

theorem lengthExtra_le (i : Nat) : kLengthExtra.getD i 0 ≤ 5 := getD_le_of_forall (by decide) i

theorem distExtra_le (j : Nat) : kDistExtra.getD j 0 ≤ 13 := getD_le_of_forall (by decide) j

/-! ## Ranges -/

/-- The index of the range of `value`. -/
def rangeIndex (base : List Nat) (value : Nat) : Nat := base.countP (· ≤ value) - 1

/-- `value` lies in range `i`. -/
structure InRange (base : List Nat) (i value : Nat) : Prop where
  lt : i < base.length
  base_le : base.getD i 0 ≤ value
  lt_next : i + 1 < base.length → value < base.getD (i + 1) 0

theorem countP_of_inRange {base : List Nat} (hbase : base.Pairwise (· < ·)) {i value : Nat}
    (h : InRange base i value) : base.countP (· ≤ value) = i + 1 := by
  induction base generalizing i with
  | nil => exact nomatch h.lt
  | cons b base ih =>
      obtain ⟨hb, hbase⟩ := List.pairwise_cons.mp hbase
      cases i with
      | zero =>
          have hfirst : b ≤ value := h.base_le
          have hrest : base.countP (· ≤ value) = 0 := by
            rw [List.countP_eq_zero]
            intro c hc
            -- the second start is above the value, and so are all later ones
            cases base with
            | nil => cases hc
            | cons b' base =>
                have hnext : value < b' := h.lt_next (by simp)
                have hle : b' ≤ c := by
                  rcases List.mem_cons.mp hc with rfl | hc
                  · exact le_rfl
                  · exact Nat.le_of_lt ((List.pairwise_cons.mp hbase).1 c hc)
                simp
                omega
          simp [hfirst, hrest]
      | succ i =>
          have hlt : i < base.length := Nat.lt_of_succ_lt_succ h.lt
          have hmem : base.getD i 0 ∈ base := by
            rw [List.getD_eq_getElem _ _ hlt]
            exact List.getElem_mem hlt
          have hfirst : b ≤ value := Nat.le_of_lt (lt_of_lt_of_le (hb _ hmem) h.base_le)
          have hrest := ih hbase ⟨hlt, h.base_le, fun hn => h.lt_next (Nat.succ_lt_succ hn)⟩
          simp [hfirst, hrest]

theorem rangeIndex_of_inRange {base : List Nat} (hbase : base.Pairwise (· < ·)) {i value : Nat}
    (h : InRange base i value) : rangeIndex base value = i := by
  rw [rangeIndex, countP_of_inRange hbase h]
  exact Nat.add_sub_cancel i 1

/-- From the first start on, every value has a range. -/
theorem exists_inRange {base : List Nat} {value : Nat} (h0 : 0 < base.length)
    (hfirst : base.getD 0 0 ≤ value) : ∃ i, InRange base i value := by
  -- the greatest index whose start is at or below the value
  have hspec : base.getD (Nat.findGreatest (fun i => base.getD i 0 ≤ value) (base.length - 1)) 0
      ≤ value :=
    Nat.findGreatest_spec (P := fun i => base.getD i 0 ≤ value) (Nat.zero_le _) hfirst
  have hle := Nat.findGreatest_le (P := fun i => base.getD i 0 ≤ value) (base.length - 1)
  refine ⟨_, ⟨by omega, hspec, fun hn => ?_⟩⟩
  have hnot : ¬ base.getD
      (Nat.findGreatest (fun i => base.getD i 0 ≤ value) (base.length - 1) + 1) 0 ≤ value :=
    Nat.findGreatest_is_greatest (P := fun i => base.getD i 0 ≤ value) (Nat.lt_succ_self _)
      (by omega)
  exact Nat.lt_of_not_le hnot

theorem inRange_rangeIndex {base : List Nat} (hbase : base.Pairwise (· < ·)) {value : Nat}
    (h0 : 0 < base.length) (hfirst : base.getD 0 0 ≤ value) :
    InRange base (rangeIndex base value) value := by
  obtain ⟨i, hi⟩ := exists_inRange h0 hfirst
  rwa [rangeIndex_of_inRange hbase hi]

theorem getD_lt_getD {base : List Nat} (hbase : base.Pairwise (· < ·)) {i j : Nat} (hij : i < j)
    (hj : j < base.length) : base.getD i 0 < base.getD j 0 := by
  have hi : i < base.length := Nat.lt_trans hij hj
  rw [List.getD_eq_getElem _ _ hi, List.getD_eq_getElem _ _ hj]
  exact List.pairwise_iff_getElem.mp hbase i j hi hj hij

/-- The double loop visits each value up to the top once, with the index of its range. -/
theorem mem_ranges {base : List Nat} (hbase : base.Pairwise (· < ·)) {top : Nat}
    (htop : ∀ b ∈ base, b ≤ top) (h0 : 0 < base.length) {e : Nat × Nat} :
    e ∈ ranges base top ↔
      (base.getD 0 0 ≤ e.1 ∧ e.1 ≤ top) ∧ e.2 = rangeIndex base e.1 := by
  have hstart : ∀ {i : Nat}, i < base.length → base.getD i 0 ≤ top := by
    intro i hi
    rw [List.getD_eq_getElem _ _ hi]
    exact htop _ (List.getElem_mem hi)
  obtain ⟨value, i⟩ := e
  simp only [ranges, List.mem_flatMap, List.mem_range, List.mem_map, List.mem_range'_1,
    Prod.mk.injEq]
  constructor
  · rintro ⟨i, hi, v, ⟨hv, hlast⟩, rfl, rfl⟩
    have hv' : v ≤ lastOf base top i := by omega
    have hrange : InRange base i v := by
      refine ⟨hi, hv, fun hn => ?_⟩
      have hlt := getD_lt_getD hbase (Nat.lt_add_one i) hn
      rw [lastOf, if_pos hn] at hv'
      omega
    have hfirst : base.getD 0 0 ≤ base.getD i 0 := by
      rcases Nat.eq_zero_or_pos i with rfl | hpos
      · exact le_rfl
      · exact Nat.le_of_lt (getD_lt_getD hbase hpos hi)
    have hvtop : v ≤ top := by
      by_cases hn : i + 1 < base.length
      · exact Nat.le_trans (Nat.le_of_lt (hrange.lt_next hn)) (hstart hn)
      · rwa [lastOf, if_neg hn] at hv'
    exact ⟨⟨Nat.le_trans hfirst hv, hvtop⟩, (rangeIndex_of_inRange hbase hrange).symm⟩
  · rintro ⟨⟨hv, hvtop⟩, rfl⟩
    have hrange := inRange_rangeIndex hbase h0 hv
    have hle : value ≤ lastOf base top (rangeIndex base value) := by
      unfold lastOf
      split
      case isTrue hn =>
        have := hrange.lt_next hn
        omega
      case isFalse => exact hvtop
    have := hrange.base_le
    exact ⟨_, hrange.lt, value, ⟨hrange.base_le, by omega⟩, rfl, rfl⟩

/-! ## Filling -/

/-- A fold of writes, each of which sets what is read at its value and disturbs nothing else:
in the end every value that was written reads what was written for it. -/
theorem foldlM_writes {τ : Type} (put : τ → Nat × Nat → Result τ) (get : τ → Nat → Option Nat)
    (Inv : τ → Prop) (index : Nat → Nat) (writes : List (Nat × Nat))
    (hput : ∀ t e, e ∈ writes → Inv t → ∃ t', put t e = .ok t' ∧ Inv t' ∧
      get t' e.1 = some e.2 ∧ ∀ v, get t' v = get t v ∨ get t' v = some (index v))
    (hindex : ∀ e ∈ writes, e.2 = index e.1) {t : τ} (ht : Inv t) :
    ∃ t', writes.foldlM put t = .ok t' ∧ Inv t' ∧
      (∀ e ∈ writes, get t' e.1 = some (index e.1)) ∧
      ∀ v, get t' v = get t v ∨ get t' v = some (index v) := by
  induction writes generalizing t with
  | nil => exact ⟨t, rfl, ht, (fun e he => by cases he), fun v => Or.inl rfl⟩
  | cons e writes ih =>
      obtain ⟨t₁, hput₁, ht₁, hget₁, hkeep₁⟩ := hput t e List.mem_cons_self ht
      obtain ⟨t₂, hfold, ht₂, hget₂, hkeep₂⟩ :=
        ih (fun t e he => hput t e (List.mem_cons_of_mem _ he))
          (fun e he => hindex e (List.mem_cons_of_mem _ he)) ht₁
      refine ⟨t₂, by rw [List.foldlM_cons, hput₁, bind_ok, hfold], ht₂, ?_, ?_⟩
      · intro e' he'
        rcases List.mem_cons.mp he' with rfl | he'
        · rcases hkeep₂ e'.1 with hsame | hset
          · rw [hsame, hget₁, hindex e' List.mem_cons_self]
          · exact hset
        · exact hget₂ e' he'
      · intro v
        rcases hkeep₂ v with hsame | hset
        · rw [hsame]
          exact hkeep₁ v
        · exact Or.inr hset

theorem rangeIndex_alias {v w : Nat} (hv : 256 < v) (hw : 256 < w)
    (h : (v - 1) >>> 7 = (w - 1) >>> 7) : rangeIndex kDistBase v = rangeIndex kDistBase w := by
  have hbase : ∀ b ∈ kDistBase, b ≤ 256 ∨ (b - 1) % 128 = 0 ∧ 0 < b := by decide
  rw [rangeIndex, rangeIndex]
  congr 1
  refine List.countP_congr fun b hb => ?_
  rw [Nat.shiftRight_eq_div_pow, Nat.shiftRight_eq_div_pow] at h
  have := hbase b hb
  simp only [decide_eq_true_eq]
  omega

/-- The code of a distance, as the two-level table reads it. -/
def ReverseTables.distCode (t : ReverseTables) (distance : Nat) : Option Nat :=
  if distance ≤ 256 then t.distLow[distance - 1]? else t.distHigh[(distance - 1) >>> 7]?

/-- The sizes of the three arrays. -/
def ReverseTables.Sized (t : ReverseTables) : Prop :=
  t.lengthIndex.length = 259 ∧ t.distLow.length = 256 ∧ t.distHigh.length = 256

theorem initial_sized : ({} : ReverseTables).Sized :=
  ⟨List.length_replicate, List.length_replicate, List.length_replicate⟩

theorem storeLength_spec {t : ReverseTables} (ht : t.Sized) {e : Nat × Nat} (hv : e.1 ≤ 258)
    (he : e.2 = rangeIndex kLengthBase e.1) :
    ∃ t', t.storeLength e = .ok t' ∧ t'.Sized ∧ t'.lengthIndex[e.1]? = some e.2 ∧
      ∀ v, t'.lengthIndex[v]? = t.lengthIndex[v]? ∨
        t'.lengthIndex[v]? = some (rangeIndex kLengthBase v) := by
  obtain ⟨hlen, hlow, hhigh⟩ := ht
  have hlt : e.1 < t.lengthIndex.length := by omega
  refine ⟨{ t with lengthIndex := t.lengthIndex.set e.1 e.2 }, ?_, ?_, ?_, fun v => ?_⟩
  · rw [ReverseTables.storeLength, store_of_lt hlt]
    rfl
  · exact ⟨by simpa using hlen, hlow, hhigh⟩
  · exact List.getElem?_set_self hlt
  · by_cases hev : e.1 = v
    · subst hev
      exact Or.inr (by rw [List.getElem?_set_self hlt, he])
    · exact Or.inl (List.getElem?_set_ne hev)

theorem storeDistance_spec {t : ReverseTables} (ht : t.Sized) {e : Nat × Nat} (h1 : 1 ≤ e.1)
    (hv : e.1 ≤ 32768) (he : e.2 = rangeIndex kDistBase e.1) :
    ∃ t', t.storeDistance e = .ok t' ∧ (t'.Sized ∧ t'.lengthIndex = t.lengthIndex) ∧
      t'.distCode e.1 = some e.2 ∧
      ∀ v, t'.distCode v = t.distCode v ∨ t'.distCode v = some (rangeIndex kDistBase v) := by
  obtain ⟨hlen, hlow, hhigh⟩ := ht
  by_cases h256 : e.1 ≤ 256
  · have hlt : e.1 - 1 < t.distLow.length := by omega
    refine ⟨{ t with distLow := t.distLow.set (e.1 - 1) e.2 }, ?_, ?_, ?_, fun v => ?_⟩
    · rw [ReverseTables.storeDistance, if_pos h256, store_of_lt hlt]
      rfl
    · exact ⟨⟨hlen, by simpa using hlow, hhigh⟩, rfl⟩
    · rw [ReverseTables.distCode, if_pos h256]
      exact List.getElem?_set_self hlt
    · rw [ReverseTables.distCode, ReverseTables.distCode]
      by_cases hv256 : v ≤ 256
      · rw [if_pos hv256, if_pos hv256]
        by_cases hev : e.1 - 1 = v - 1
        · -- the slot of `v`, or that of 1 read for 0
          have hsame : rangeIndex kDistBase v = rangeIndex kDistBase e.1 := by
            rcases Nat.eq_zero_or_pos v with rfl | hpos
            · rw [show e.1 = 1 by omega]
              decide
            · rw [show v = e.1 by omega]
          exact Or.inr (by rw [← hev, List.getElem?_set_self hlt, hsame, he])
        · exact Or.inl (List.getElem?_set_ne hev)
      · rw [if_neg hv256, if_neg hv256]
        exact Or.inl rfl
  · have hlt : (e.1 - 1) >>> 7 < t.distHigh.length := by
      rw [hhigh, Nat.shiftRight_eq_div_pow]
      omega
    refine ⟨{ t with distHigh := t.distHigh.set ((e.1 - 1) >>> 7) e.2 }, ?_, ?_, ?_, fun v => ?_⟩
    · rw [ReverseTables.storeDistance, if_neg h256, store_of_lt hlt]
      rfl
    · exact ⟨⟨hlen, hlow, by simpa using hhigh⟩, rfl⟩
    · rw [ReverseTables.distCode, if_neg h256]
      exact List.getElem?_set_self hlt
    · rw [ReverseTables.distCode, ReverseTables.distCode]
      by_cases hv256 : v ≤ 256
      · rw [if_pos hv256, if_pos hv256]
        exact Or.inl rfl
      · rw [if_neg hv256, if_neg hv256]
        by_cases hev : (e.1 - 1) >>> 7 = (v - 1) >>> 7
        · have hsame := rangeIndex_alias (Nat.lt_of_not_le h256) (Nat.lt_of_not_le hv256) hev
          exact Or.inr (by rw [← hev, List.getElem?_set_self hlt, he, hsame])
        · exact Or.inl (List.getElem?_set_ne hev)

/-- The tables answer every length and every distance with the index of its range. -/
theorem tables_spec :
    ∃ t, tables = .ok t ∧
      (∀ length, 3 ≤ length → length ≤ 258 →
        t.lengthIndex[length]? = some (rangeIndex kLengthBase length)) ∧
      ∀ distance, 1 ≤ distance → distance ≤ 32768 →
        t.distCode distance = some (rangeIndex kDistBase distance) := by
  have hlenRanges : ∀ {e : Nat × Nat}, e ∈ ranges kLengthBase kMaxMatch ↔
      (3 ≤ e.1 ∧ e.1 ≤ 258) ∧ e.2 = rangeIndex kLengthBase e.1 :=
    mem_ranges (by decide) (by decide) (by decide)
  have hdistRanges : ∀ {e : Nat × Nat}, e ∈ ranges kDistBase (2 ^ kMaxWindowBits) ↔
      (1 ≤ e.1 ∧ e.1 ≤ 32768) ∧ e.2 = rangeIndex kDistBase e.1 :=
    mem_ranges (by decide) (by decide) (by decide)
  obtain ⟨t₁, hfold₁, hsized₁, hlength, -⟩ := foldlM_writes ReverseTables.storeLength
    (fun t v => t.lengthIndex[v]?) ReverseTables.Sized (rangeIndex kLengthBase)
    (ranges kLengthBase kMaxMatch)
    (fun t e he ht => storeLength_spec ht (hlenRanges.mp he).1.2 (hlenRanges.mp he).2)
    (fun e he => (hlenRanges.mp he).2) initial_sized
  obtain ⟨t₂, hfold₂, ⟨-, hsame⟩, hdistance, -⟩ := foldlM_writes ReverseTables.storeDistance
    ReverseTables.distCode (fun t => t.Sized ∧ t.lengthIndex = t₁.lengthIndex)
    (rangeIndex kDistBase) (ranges kDistBase (2 ^ kMaxWindowBits))
    (fun t e he ht => by
      have hmem := hdistRanges.mp he
      obtain ⟨t', hput, ⟨hsized, hkeep⟩, hrest⟩ :=
        storeDistance_spec ht.1 hmem.1.1 hmem.1.2 hmem.2
      exact ⟨t', hput, ⟨hsized, hkeep.trans ht.2⟩, hrest⟩)
    (fun e he => (hdistRanges.mp he).2) ⟨hsized₁, rfl⟩
  refine ⟨t₂, ?_, ?_, ?_⟩
  · rw [tables, hfold₁, bind_ok, hfold₂]
  · intro length h3 h258
    rw [hsame]
    exact hlength (length, rangeIndex kLengthBase length) (hlenRanges.mpr ⟨⟨h3, h258⟩, rfl⟩)
  · intro distance h1 h32768
    exact hdistance (distance, rangeIndex kDistBase distance)
      (hdistRanges.mpr ⟨⟨h1, h32768⟩, rfl⟩)

/-! ## Splits -/

/-- Within its range a value is located by the extra bits. -/
theorem extra_lt (base extra : List Nat) (top : Nat)
    (hwidth : ∀ i < base.length, lastOf base top i - base.getD i 0 < 2 ^ extra.getD i 0)
    {i value : Nat} (h : InRange base i value) (htop : value ≤ top) :
    value - base.getD i 0 < 2 ^ extra.getD i 0 := by
  have hlast : value ≤ lastOf base top i := by
    unfold lastOf
    split
    case isTrue hn =>
      have := h.lt_next hn
      omega
    case isFalse => exact htop
  have := hwidth i h.lt
  omega

/-- The split of a length. -/
def lengthSplit (length : Nat) : Split where
  symbol := kFirstLengthSymbol + rangeIndex kLengthBase length
  extraBits := kLengthExtra.getD (rangeIndex kLengthBase length) 0
  extraValue := length - kLengthBase.getD (rangeIndex kLengthBase length) 0

/-- The split of a distance. -/
def distanceSplit (distance : Nat) : Split where
  symbol := rangeIndex kDistBase distance
  extraBits := kDistExtra.getD (rangeIndex kDistBase distance) 0
  extraValue := distance - kDistBase.getD (rangeIndex kDistBase distance) 0

section Length
variable {length : Nat} (h3 : 3 ≤ length) (h258 : length ≤ 258)
include h3

theorem inRange_length : InRange kLengthBase (rangeIndex kLengthBase length) length :=
  inRange_rangeIndex (by decide) (by decide) h3

include h258

theorem splitLength_eq : splitLength length = .ok (lengthSplit length) := by
  obtain ⟨t, ht, hlength, -⟩ := tables_spec
  have hrange := inRange_length h3
  have hbase : rangeIndex kLengthBase length < kLengthBase.length := hrange.lt
  have hextra : rangeIndex kLengthBase length < kLengthExtra.length := hrange.lt
  have hle := hrange.base_le
  rw [List.getD_eq_getElem _ _ hbase] at hle
  rw [splitLength, if_neg (by unfold kMinMatch kMaxMatch; omega), lengthSplit,
    List.getD_eq_getElem _ _ hextra, List.getD_eq_getElem _ _ hbase]
  simp only [ht, bind_ok, fetch_of_getElem? (hlength length h3 h258), fetch_of_lt hextra,
    fetch_of_lt hbase, minus_of_le hle, pure_eq_ok]

/-- The split names the row of a length, and the extra bits locate it there. -/
theorem lengthSplit_spec : rangeIndex kLengthBase length < kLengthBase.length ∧
    kLengthBase.getD (rangeIndex kLengthBase length) 0 + (lengthSplit length).extraValue = length ∧
    (lengthSplit length).extraValue < 2 ^ (lengthSplit length).extraBits := by
  have hrange := inRange_length h3
  exact ⟨hrange.lt, Nat.add_sub_cancel' hrange.base_le,
    extra_lt kLengthBase kLengthExtra kMaxMatch (by decide) hrange h258⟩

end Length

section Distance
variable {distance : Nat} (h1 : 1 ≤ distance) (h32768 : distance ≤ 32768)
include h1

theorem inRange_distance : InRange kDistBase (rangeIndex kDistBase distance) distance :=
  inRange_rangeIndex (by decide) (by decide) h1

include h32768

theorem splitDistance_eq : splitDistance distance = .ok (distanceSplit distance) := by
  obtain ⟨t, ht, -, hdistance⟩ := tables_spec
  have hrange := inRange_distance h1
  have hbase : rangeIndex kDistBase distance < kDistBase.length := hrange.lt
  have hextra : rangeIndex kDistBase distance < kDistExtra.length := hrange.lt
  have hle := hrange.base_le
  have hcode := hdistance distance h1 h32768
  have hlookup : t.lookupDistance distance = .ok (rangeIndex kDistBase distance) := by
    rw [ReverseTables.distCode] at hcode
    rw [ReverseTables.lookupDistance]
    split at hcode
    case isTrue h => rw [if_pos h, fetch_of_getElem? hcode]
    case isFalse h => rw [if_neg h, fetch_of_getElem? hcode]
  rw [List.getD_eq_getElem _ _ hbase] at hle
  rw [splitDistance, if_neg (by simp only [kMaxWindowBits]; omega), distanceSplit,
    List.getD_eq_getElem _ _ hextra, List.getD_eq_getElem _ _ hbase]
  simp only [ht, bind_ok, hlookup, fetch_of_lt hextra, fetch_of_lt hbase, minus_of_le hle,
    pure_eq_ok]

/-- Likewise for a distance. -/
theorem distanceSplit_spec : rangeIndex kDistBase distance < kDistBase.length ∧
    kDistBase.getD (rangeIndex kDistBase distance) 0 + (distanceSplit distance).extraValue
      = distance ∧
    (distanceSplit distance).extraValue < 2 ^ (distanceSplit distance).extraBits := by
  have hrange := inRange_distance h1
  exact ⟨hrange.lt, Nat.add_sub_cancel' hrange.base_le,
    extra_lt kDistBase kDistExtra 32768 (by decide) hrange h32768⟩

end Distance

end Compressly.Deflate

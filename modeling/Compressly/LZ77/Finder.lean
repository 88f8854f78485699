/-
# `Compressly.LZ77.Finder` — what the hash chains hold

The match finder that has inserted the positions below `n` is one particular
value, `finderAt data config n`:

    head[h]   the latest position below n in bucket h
    prev[s]   for the latest position q below n with slot s:
              the latest position below q in the bucket of q

Insertion moves along these values (`insertUpTo_finderAt`), so inserting twice
changes nothing.  The ring buffer overwrites `prev[q]` when `q + windowSize` is
inserted, and not before: within the window a link is what it was (`link_eq`).
-/
import Compressly.LZ77.Basic
import Compressly.Lib.Chain

namespace Compressly.LZ77

open Chain

section Config
variable {config : Config}

theorem Config.windowSize_pos (config : Config) : 0 < config.windowSize := Nat.two_pow_pos _

theorem slot_eq (config : Config) (i : Nat) :
    MatchFinder.slot config i = i % config.windowSize := by
  rw [MatchFinder.slot, Config.windowSize, Nat.and_two_pow_sub_one_eq_mod]

/-- Within a window, a slot is used once. -/
theorem slot_ne {q r : Nat} (hqr : q < r) (hwin : r < q + config.windowSize) :
    MatchFinder.slot config r ≠ MatchFinder.slot config q := by
  rw [slot_eq, slot_eq]
  intro hslot
  have hmod : (r - q) % config.windowSize = 0 := Nat.sub_mod_eq_zero_of_mod_eq hslot
  rw [Nat.mod_eq_of_lt (by omega)] at hmod
  omega

theorem Config.Valid.toNat_windowBits (h : config.Valid) :
    8 ≤ config.windowBits.toNat ∧ config.windowBits.toNat ≤ 16 := by
  have := h.windowBits
  omega

theorem Config.Valid.windowSize_le (h : config.Valid) : config.windowSize ≤ 65536 := by
  have hbits := h.toNat_windowBits.2
  calc config.windowSize = 2 ^ config.windowBits.toNat := rfl
    _ ≤ 2 ^ 16 := Nat.pow_le_pow_right (by decide) hbits

theorem Config.Valid.toNat_minMatch (h : config.Valid) :
    3 ≤ config.minMatch.toNat ∧ config.minMatch.toNat ≤ 8 := by
  have := h.minMatch
  omega

theorem Config.Valid.maxMatch_eq (h : config.Valid) :
    config.maxMatch = config.minMatch.toNat + 255 := by
  have := h.minMatch
  unfold Config.maxMatch
  omega

end Config

/-- The high bits of a 32-bit product. -/
theorem hash3_lt {bits : Nat} (h : bits ≤ 32) (a b c : UInt8) : hash3 bits a b c < 2 ^ bits := by
  have hword : (a.toNat <<< 16 ||| b.toNat <<< 8 ||| c.toNat) * 2654435761 % 2 ^ 32
      < 2 ^ (32 - bits) * 2 ^ bits := by
    rw [← Nat.pow_add, Nat.sub_add_cancel h]
    exact Nat.mod_lt _ (Nat.two_pow_pos 32)
  rw [hash3, Nat.shiftRight_eq_div_pow]
  exact Nat.div_lt_of_lt_mul hword

section Tables
variable (data : List UInt8) (config : Config)

/-- The hash of the three bytes at `q`. -/
def bucketOf (q : Nat) : Nat :=
  hash3 config.windowBits.toNat (data.getD q 0) (data.getD (q + 1) 0) (data.getD (q + 2) 0)

/-- `q` has three bytes, and they hash to `h`. -/
def InBucket (h q : Nat) : Prop := q + kHashBytes ≤ data.length ∧ bucketOf data config q = h

instance (h : Nat) : DecidablePred (InBucket data config h) := fun _ =>
  inferInstanceAs (Decidable (_ ∧ _))

/-- `q` has three bytes, and its link is kept in slot `s`. -/
def InSlot (s q : Nat) : Prop := q + kHashBytes ≤ data.length ∧ q % config.windowSize = s

instance (s : Nat) : DecidablePred (InSlot data config s) := fun _ =>
  inferInstanceAs (Decidable (_ ∧ _))

/-- The position before `q` in its bucket. -/
def link (q : Nat) : Option Nat := latest (InBucket data config (bucketOf data config q)) q

def headTable (n : Nat) : List (Option Nat) :=
  (List.range config.windowSize).map fun h => latest (InBucket data config h) n

def prevTable (n : Nat) : List (Option Nat) :=
  (List.range config.windowSize).map fun s =>
    (latest (InSlot data config s) n).bind (link data config)

/-- The match finder once the positions below `n` have been inserted. -/
def finderAt (n : Nat) : MatchFinder data config where
  head := headTable data config n
  prev := prevTable data config n
  inserted := n

@[simp] theorem length_headTable (n : Nat) :
    (headTable data config n).length = config.windowSize := by
  simp [headTable]

@[simp] theorem length_prevTable (n : Nat) :
    (prevTable data config n).length = config.windowSize := by
  simp [prevTable]

end Tables

section Insert
variable {data : List UInt8} {config : Config}

theorem bucketOf_lt (data : List UInt8) (h : config.Valid) (q : Nat) :
    bucketOf data config q < config.windowSize :=
  hash3_lt (by have := h.toNat_windowBits.2; omega) _ _ _

/-- No position has been inserted yet. -/
theorem create_eq : MatchFinder.create data config = finderAt data config 0 := by
  have hhead : List.replicate config.windowSize none = headTable data config 0 := by
    refine List.ext_getElem (by simp) fun i h₁ h₂ => ?_
    simp [headTable, latest]
  have hprev : List.replicate config.windowSize none = prevTable data config 0 := by
    refine List.ext_getElem (by simp) fun i h₁ h₂ => ?_
    simp [prevTable, latest]
  rw [MatchFinder.create, finderAt, ← hhead, ← hprev]

theorem hashAt_eq (f : MatchFinder data config) {q : Nat} (h : q + kHashBytes ≤ data.length) :
    f.hashAt q = .ok (bucketOf data config q) := by
  have hq : q + 3 ≤ data.length := h
  rw [MatchFinder.hashAt, fetch_of_lt (by omega : q < data.length), bind_ok,
    fetch_of_lt (by omega : q + 1 < data.length), bind_ok,
    fetch_of_lt (by omega : q + 2 < data.length), bind_ok, bucketOf,
    List.getD_eq_getElem _ _ (by omega : q < data.length),
    List.getD_eq_getElem _ _ (by omega : q + 1 < data.length),
    List.getD_eq_getElem _ _ (by omega : q + 2 < data.length), pure_eq_ok]

/-- A position too close to the end belongs to no bucket and no slot. -/
theorem tables_succ_of_short (config : Config) {n : Nat} (h : data.length < n + kHashBytes) :
    headTable data config (n + 1) = headTable data config n ∧
      prevTable data config (n + 1) = prevTable data config n := by
  constructor
  · refine List.map_congr_left fun b _ => latest_succ_of_not fun hb => ?_
    have := hb.1
    omega
  · refine List.map_congr_left fun s _ => ?_
    rw [latest_succ_of_not fun hs => by have := hs.1; omega]

theorem headTable_succ {n : Nat} (h : n + kHashBytes ≤ data.length) :
    headTable data config (n + 1)
      = (headTable data config n).set (bucketOf data config n) (some n) := by
  refine List.ext_getElem (by simp) fun b h₁ h₂ => ?_
  rw [List.getElem_set]
  simp only [headTable, List.getElem_map, List.getElem_range]
  by_cases hb : bucketOf data config n = b
  · rw [if_pos hb, latest_succ_of ⟨h, hb⟩]
  · rw [if_neg hb, latest_succ_of_not fun hmem => hb hmem.2]

theorem prevTable_succ {n : Nat} (h : n + kHashBytes ≤ data.length) :
    prevTable data config (n + 1)
      = (prevTable data config n).set (n % config.windowSize) (link data config n) := by
  refine List.ext_getElem (by simp) fun s h₁ h₂ => ?_
  rw [List.getElem_set]
  simp only [prevTable, List.getElem_map, List.getElem_range]
  by_cases hs : n % config.windowSize = s
  · rw [if_pos hs, latest_succ_of ⟨h, hs⟩]
    rfl
  · rw [if_neg hs, latest_succ_of_not fun hmem => hs hmem.2]

/-- Inserting the next position; the count of insertions is not looked at. -/
theorem insertOne_finderAt (hc : config.Valid) (n i : Nat) :
    ({ finderAt data config n with inserted := i } : MatchFinder data config).insertOne n
      = .ok { finderAt data config (n + 1) with inserted := i } := by
  rw [MatchFinder.insertOne]
  split
  case isTrue h =>
    obtain ⟨hhead, hprev⟩ := tables_succ_of_short config h
    rw [finderAt, finderAt, hhead, hprev]
    rfl
  case isFalse h =>
    have hn : n + kHashBytes ≤ data.length := Nat.le_of_not_lt h
    have hb := bucketOf_lt data hc n
    have hlink : fetch (headTable data config n) (bucketOf data config n)
        = .ok (link data config n) := by
      rw [fetch_of_lt (by simpa using hb)]
      simp [headTable, link]
    simp only [hashAt_eq _ hn, bind_ok, finderAt, hlink, slot_eq]
    rw [store_of_lt (by simpa using Nat.mod_lt _ config.windowSize_pos), bind_ok,
      store_of_lt (by simpa using hb), bind_ok, ← prevTable_succ hn, ← headTable_succ hn]
    rfl

/-- Inserting up to a position, whatever has been inserted before. -/
theorem insertUpTo_finderAt (hc : config.Valid) (n p : Nat) :
    (finderAt data config n).insertUpTo p = .ok (finderAt data config (max n (p + 1))) := by
  induction hk : p + 1 - n generalizing n with
  | zero =>
      have hle : ¬ n ≤ p := by omega
      rw [MatchFinder.insertUpTo, if_neg (show ¬ (finderAt data config n).inserted ≤ p from hle),
        Nat.max_eq_left (by omega)]
      rfl
  | succ k ih =>
      have hle : n ≤ p := by omega
      have hone : (finderAt data config n).insertOne n
          = .ok { finderAt data config (n + 1) with inserted := n } := insertOne_finderAt hc n n
      have hnext := ih (n + 1) (by omega)
      rw [Nat.max_eq_right (by omega)] at hnext
      rw [MatchFinder.insertUpTo, if_pos (show (finderAt data config n).inserted ≤ p from hle),
        show (finderAt data config n).inserted = n from rfl, hone, bind_ok,
        Nat.max_eq_right (by omega)]
      exact hnext

/-- No link within the window has been overwritten. -/
theorem link_eq {q p : Nat} (hq : q + kHashBytes ≤ data.length) (hle : q ≤ p)
    (hwin : p < q + config.windowSize) :
    fetch (finderAt data config (p + 1)).prev (MatchFinder.slot config q)
      = .ok (link data config q) := by
  have hlatest : latest (InSlot data config (q % config.windowSize)) (p + 1) = some q := by
    refine latest_eq_some.mpr ⟨by omega, ⟨hq, rfl⟩, fun r hqr hr hslot => ?_⟩
    have hne : MatchFinder.slot config r ≠ MatchFinder.slot config q := slot_ne hqr (by omega)
    rw [slot_eq, slot_eq] at hne
    exact hne hslot.2
  have hlt : q % config.windowSize < (prevTable data config (p + 1)).length := by
    simpa using Nat.mod_lt _ config.windowSize_pos
  rw [slot_eq]
  simp only [finderAt]
  rw [fetch_of_lt hlt]
  simp [prevTable, hlatest]

end Insert

end Compressly.LZ77

/-
# `Compressly.LZ77.Basic` — the tokenizer and its replay, as the source computes them

    tokenize      bytes   ↦ tokens, greedy with an optional one-byte look-ahead
    detokenize    tokens  ↦ bytes

Definitions only.  `LZ77.Finder` says what the match finder's arrays hold,
`LZ77.Search` what a search returns, `LZ77.Tokenize` what the tokens are.

The data and the configuration are constant members of the source's
`MatchFinder`; here they are parameters of the type.  The sentinel `kNone` is
`none`.  A match of length 0 stands for "no match", as in the source.
-/
import Compressly.Format

namespace Compressly.LZ77

/-! ## Configuration and tokens -/

structure Config where
  windowBits : Int := 15
  minMatch : Int := 3
  maxChainLength : Int := 128
  lazyMatching : Bool := true
deriving DecidableEq, Repr

namespace Config

def maxMatch (c : Config) : Nat := (c.minMatch + 255).toNat

def windowSize (c : Config) : Nat := 2 ^ c.windowBits.toNat

def validate (c : Config) : Result Unit := do
  if c.windowBits < 8 ∨ 16 < c.windowBits then
    throw (.invalidArgument "windowBits must be between 8 and 16")
  if c.minMatch < 3 ∨ 8 < c.minMatch then
    throw (.invalidArgument "minMatch must be between 3 and 8")
  if c.maxChainLength < 1 then
    throw (.invalidArgument "maxChainLength must be at least 1")

/-- What `validate` checks. -/
structure Valid (c : Config) : Prop where
  windowBits : 8 ≤ c.windowBits ∧ c.windowBits ≤ 16
  minMatch : 3 ≤ c.minMatch ∧ c.minMatch ≤ 8
  maxChainLength : 1 ≤ c.maxChainLength

instance (c : Config) : Decidable c.Valid :=
  decidable_of_iff ((8 ≤ c.windowBits ∧ c.windowBits ≤ 16) ∧ (3 ≤ c.minMatch ∧ c.minMatch ≤ 8) ∧
      1 ≤ c.maxChainLength)
    ⟨fun ⟨h₁, h₂, h₃⟩ => ⟨h₁, h₂, h₃⟩, fun ⟨h₁, h₂, h₃⟩ => ⟨h₁, h₂, h₃⟩⟩

theorem validate_of_valid {c : Config} (h : c.Valid) : c.validate = .ok () := by
  have h₁ := h.windowBits
  have h₂ := h.minMatch
  have h₃ := h.maxChainLength
  unfold validate
  rw [if_neg (by omega), if_neg (by omega), if_neg (by omega)]
  rfl

/-- A configuration that is not valid is refused with `std::invalid_argument`. -/
theorem rejects_of_not_valid {c : Config} (h : ¬ c.Valid) : Rejects c.validate := by
  unfold validate
  by_cases h₁ : c.windowBits < 8 ∨ 16 < c.windowBits
  · exact ⟨_, by rw [if_pos h₁]; rfl⟩
  · rw [if_neg h₁]
    by_cases h₂ : c.minMatch < 3 ∨ 8 < c.minMatch
    · exact ⟨_, by rw [if_pos h₂]; rfl⟩
    · rw [if_neg h₂]
      by_cases h₃ : c.maxChainLength < 1
      · exact ⟨_, by rw [if_pos h₃]; rfl⟩
      · exact absurd ⟨by omega, by omega, by omega⟩ h

theorem validate_eq_ok {c : Config} : c.validate = .ok () ↔ c.Valid := by
  refine ⟨fun h => ?_, validate_of_valid⟩
  by_contra hnot
  obtain ⟨what, hwhat⟩ := rejects_of_not_valid hnot
  rw [h] at hwhat
  cases hwhat

end Config

/-- A literal, or a back-reference; distance 0 marks a literal. -/
structure Token where
  distance : UInt16 := 0
  length : UInt16 := 0
  literal : UInt8 := 0
deriving DecidableEq, Repr

def Token.isMatch (t : Token) : Bool := t.distance != 0

/-- The counters.  Literals and matches partition the input, so only the count
of chain steps could exceed its word; `matchCount` is `matches` in the source. -/
structure Stats where
  literals : Nat := 0
  matchCount : Nat := 0
  matchedBytes : Nat := 0
  candidatesExamined : Nat := 0
deriving DecidableEq, Repr

/-! ## The match finder -/

/-- The bytes a hash covers. -/
def kHashBytes : Nat := 3

structure Match where
  distance : UInt16 := 0
  length : UInt16 := 0
deriving DecidableEq, Repr

structure MatchFinder (data : List UInt8) (config : Config) where
  head : List (Option Nat)
  prev : List (Option Nat)
  inserted : Nat

/-- Knuth's multiplicative hash of three bytes, the high `bits` bits kept. -/
def hash3 (bits : Nat) (a b c : UInt8) : Nat :=
  ((a.toNat <<< 16 ||| b.toNat <<< 8 ||| c.toNat) * 2654435761 % 2 ^ 32) >>> (32 - bits)

/-- The length of the common run of `data` from `a` and from `b`, up to `limit`. -/
def matchLength (data : List UInt8) (a b limit length : Nat) : Result Nat :=
  if length < limit then do
    let x ← fetch data (a + length)
    let y ← fetch data (b + length)
    if x = y then matchLength data a b limit (length + 1) else pure length
  else pure length
termination_by limit - length

namespace MatchFinder

section
variable {data : List UInt8} {config : Config}

/-- The constructor. -/
def create (data : List UInt8) (config : Config) : MatchFinder data config where
  head := List.replicate config.windowSize none
  prev := List.replicate config.windowSize none
  inserted := 0

/-- `i & windowMask_`. -/
def slot (config : Config) (i : Nat) : Nat := i &&& (config.windowSize - 1)

def hashAt (_f : MatchFinder data config) (position : Nat) : Result Nat := do
  let a ← fetch data position
  let b ← fetch data (position + 1)
  let c ← fetch data (position + 2)
  pure (hash3 config.windowBits.toNat a b c)

def insertOne (f : MatchFinder data config) (position : Nat) : Result (MatchFinder data config) :=
  if data.length < position + kHashBytes then pure f
  else do
    let hash ← f.hashAt position
    let link ← fetch f.head hash
    let prev ← store f.prev (slot config position) link
    let head ← store f.head hash (some position)
    pure { f with head := head, prev := prev }

/-- Makes every position up to and including `position` findable. -/
def insertUpTo (f : MatchFinder data config) (position : Nat) :
    Result (MatchFinder data config) :=
  if f.inserted ≤ position then do
    let g ← f.insertOne f.inserted
    insertUpTo { g with inserted := f.inserted + 1 } position
  else pure f
termination_by position + 1 - f.inserted

/-- The run at `candidate`, or 0 if the byte just past the best run rejects it:
such a candidate cannot beat the best match. -/
def examine (_f : MatchFinder data config) (position candidate limit : Nat) (best : Match) :
    Result Nat :=
  if best.length = 0 then matchLength data position candidate limit 0
  else do
    let a ← fetch data (candidate + best.length.toNat)
    let b ← fetch data (position + best.length.toNat)
    if a = b then matchLength data position candidate limit 0 else pure 0

/-- The walk along the chain; the first argument is what is left of the chain budget. -/
def walk (f : MatchFinder data config) (position limit : Nat) :
    Nat → Option Nat → Match → Stats → Result (Match × Stats)
  | _, none, best, stats => pure (best, stats)
  | 0, some _, best, stats => pure (best, stats)
  | chain + 1, some candidate, best, stats => do
      let distance ← minus position candidate
      if config.windowSize ≤ distance then pure (best, stats)
      else
        let stats := { stats with candidatesExamined := u64 (stats.candidatesExamined + 1) }
        let length ← f.examine position candidate limit best
        if best.length.toNat < length then
          let best : Match := { length := UInt16.ofNat length, distance := UInt16.ofNat distance }
          if limit ≤ length then pure (best, stats)
          else
            let next ← fetch f.prev (slot config candidate)
            walk f position limit chain next best stats
        else
          let next ← fetch f.prev (slot config candidate)
          walk f position limit chain next best stats

/-- The longest match at `position` among the candidates examined. -/
def findLongest (f : MatchFinder data config) (position : Nat) (stats : Stats) :
    Result (Match × Stats) :=
  if data.length < position + config.minMatch.toNat then pure ({}, stats)
  else do
    let remaining ← minus data.length position
    let limit := min remaining config.maxMatch
    let candidate ← fetch f.prev (slot config position)
    let (best, stats) ← f.walk position limit config.maxChainLength.toNat candidate {} stats
    if best.length.toNat < config.minMatch.toNat then pure ({}, stats) else pure (best, stats)

/-- The match taken at `position`.  A longer match one byte later makes it none. -/
def chooseMatch (f : MatchFinder data config) (position : Nat) (stats : Stats) :
    Result (Match × MatchFinder data config × Stats) := do
  let f ← f.insertUpTo position
  let (found, stats) ← f.findLongest position stats
  if found.length ≠ 0 ∧ config.lazyMatching ∧ position + 1 < data.length then
    let f ← f.insertUpTo (position + 1)
    let (next, stats) ← f.findLongest (position + 1) stats
    if found.length < next.length then pure ({}, f, stats) else pure (found, f, stats)
  else pure (found, f, stats)

end

end MatchFinder

/-! ## Tokens from bytes, bytes from tokens -/

/-- The main loop. -/
def tokenizeLoop {data : List UInt8} {config : Config} (f : MatchFinder data config)
    (position : Nat) (tokens : List Token) (stats : Stats) : Result (List Token × Stats) :=
  if position < data.length then do
    let (found, f, stats) ← f.chooseMatch position stats
    if found.length = 0 then
      let literal ← fetch data position
      tokenizeLoop f (position + 1) (tokens ++ [{ literal := literal }])
        { stats with literals := stats.literals + 1 }
    else
      tokenizeLoop f (position + found.length.toNat)
        (tokens ++ [{ distance := found.distance, length := found.length }])
        { stats with
          matchCount := stats.matchCount + 1
          matchedBytes := stats.matchedBytes + found.length.toNat }
  else pure (tokens, stats)
termination_by data.length - position
decreasing_by
  · omega
  · have hpos : 0 < found.length.toNat := by
      rw [Nat.pos_iff_ne_zero]
      exact fun h => ‹¬ found.length = 0› (UInt16.toNat_inj.mp h)
    omega

def tokenize (data : List UInt8) (config : Config) : Result (List Token × Stats) := do
  config.validate
  if data.length = 0 then pure ([], {})
  else tokenizeLoop (MatchFinder.create data config) 0 [] {}

/-- `for (i = 0; i < length; ++i) out.push_back(out[start + i])`, from `i` on. -/
def copyLoop (start : Nat) : Nat → Nat → List UInt8 → Result (List UInt8)
  | 0, _, out => pure out
  | n + 1, i, out => do
      let byte ← fetch out (start + i)
      copyLoop start n (i + 1) (out ++ [byte])

def detokenizeOne (out : List UInt8) (token : Token) : Result (List UInt8) :=
  if !token.isMatch then pure (out ++ [token.literal])
  else if out.length < token.distance.toNat then
    throw (.corruptInput "back-reference points before the start of the output")
  else do
    let start ← minus out.length token.distance.toNat
    copyLoop start token.length.toNat 0 out

/-- Replays tokens; the expected size only sizes the output buffer. -/
def detokenize (tokens : List Token) (expectedSize : Nat) : Result (List UInt8) := do
  reserve expectedSize
  tokens.foldlM detokenizeOne []

/-- The checks both dictionary decoders make before a copy, and the copy. -/
def copyBack (windowSize originalSize distance length : Nat) (out : List UInt8) :
    Result (List UInt8) := do
  if out.length < distance then
    throw (.corruptInput "back-reference points before the output")
  if windowSize < distance then throw (.corruptInput "back-reference exceeds the window")
  if originalSize < out.length + length then
    throw (.corruptInput "token stream overruns the output")
  let start ← minus out.length distance
  copyLoop start length 0 out

end Compressly.LZ77

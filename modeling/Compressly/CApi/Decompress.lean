/-
# `Compressly.CApi.Decompress` — `cmpr_decompress`, and the way back

The handlers of `cmpr_decompress` tell `CorruptInput` from other exceptions, those
of `cmpr_compress` do not.  Containers of less than 4 GiB decode, whatever the threads and
the block size (`decompress_compress`).
-/
import Compressly.CApi
import Compressly.Codec.Sizes

namespace Compressly

open ThreadPool LZ77 Parse Chunks

/-- The arguments of a call of `cmpr_decompress`. -/
structure DecompressCall where
  input : Input
  out : Bool := true
  outSize : Bool := true

def Input.isNull : Input → Bool
  | .null size => size ≠ 0
  | .bytes _ => false

def Input.data : Input → List UInt8
  | .null _ => []
  | .bytes data => data

/-- The handlers of `cmpr_decompress`; a fault is no exception. -/
def caughtDecoding (e : Error) : Ending Reply :=
  match e with
  | .corruptInput what => pure { status := .errCorruptInput, lastError := what }
  | .invalidArgument what => pure { status := .errInternal, lastError := what }
  | .runtimeError what => pure { status := .errInternal, lastError := what }
  | .lengthError what => pure { status := .errInternal, lastError := what }
  | .fault => throw .fault

def cmprDecompress (malloc : Nat → Bool) (call : DecompressCall) : Ending Reply :=
  if !call.out || !call.outSize || call.input.isNull then
    pure { status := .errInvalidArgument, lastError := "null argument" }
  else
    match decompress call.input.data with
    | .ok restored => pure (handOff malloc restored)
    | .error e => caughtDecoding e

/-! ## How the calls end -/

theorem handOff_cases (malloc : Nat → Bool) (source : List UInt8) :
    handOff malloc source = { status := .ok, out := some source, outSize := source.length } ∨
      handOff malloc source = { status := .errOutOfMemory, lastError := "out of memory" } := by
  unfold handOff
  by_cases h : malloc (if source.length = 0 then 1 else source.length) = true
  · rw [if_pos h]
    exact Or.inl rfl
  · rw [if_neg h]
    exact Or.inr rfl

/-- The replies of `cmpr_compress`. -/
theorem cmprCompress_cases {spawn : Spawn} {malloc : Nat → Bool}
    {env : Environment} {call : Call} {r : Reply} (h : cmprCompress spawn malloc env call = .ok r) :
    r = { status := .errInvalidArgument, lastError := "null argument" } ∨
      (∃ c, compress env call.data call.options = .ok c ∧ r = handOff malloc c) ∨
      ∃ e, r = caught e := by
  unfold cmprCompress at h
  split at h
  case isTrue =>
    cases h
    exact Or.inl rfl
  case isFalse =>
    cases hrun : compressOn spawn env call.data call.options with
    | ok c =>
        rw [hrun] at h
        change Except.ok (handOff malloc c) = _ at h
        cases h
        exact Or.inr (Or.inl ⟨c, compress_of_compressOn hrun, rfl⟩)
    | error stop =>
        rw [hrun] at h
        cases stop with
        | exception e =>
            change Except.ok (caught e) = _ at h
            cases h
            exact Or.inr (Or.inr ⟨e, rfl⟩)
        | terminate => cases h
        | hang => cases h
        | fault => cases h

/-- The containers of data shorter than 4 GiB decode, whatever the block size. -/
theorem decompress_compress {env : Environment} {data c : List UInt8} {options : Options}
    (hok : options.algorithm.Accepts options.lz77) (hlen : data.length < 2 ^ 32)
    (hc : compress env data options = .ok c) : decompress c = .ok data := by
  obtain ⟨c', hc', htight⟩ := compress_tight_of_lt env (fun _ => hok) hlen
  rw [hc] at hc'
  cases hc'
  exact htight.decodes

/-- And they are longer than the data by their headers at most. -/
theorem length_compress_le {env : Environment} {data c : List UInt8} {options : Options}
    (hok : options.algorithm.Accepts options.lz77) (hlen : data.length < 2 ^ 32)
    (hpos : 0 < options.blockSize) (hc : compress env data options = .ok c) :
    c.length
      ≤ data.length + kHeaderSize + kBlockHeaderSize * count options.blockSize data.length := by
  have hmax : data.length ≤ maxSize := by
    unfold maxSize
    omega
  obtain ⟨c', hc'⟩ := container_accepted hok (memoryBlockSize options data) data
  have hsame := compress_ok env hmax hc'
  rw [hc] at hsame
  cases hsame
  obtain ⟨hsingle, hblocked⟩ := length_container_le hok (by omega) hc'
  rcases memoryBlockSize_cases options data with ⟨-, hle⟩ | ⟨-, hlt, hsize⟩
  · exact (hsingle hle).trans (Nat.le_add_right _ _)
  · rw [hsize] at hblocked
    exact hblocked hpos hlt

end Compressly

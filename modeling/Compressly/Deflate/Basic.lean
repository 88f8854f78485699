/-
# `Compressly.Deflate.Basic` — the combined coder, as the source computes it

    literal/length alphabet   0-255   the literal byte
                              256     end-of-block, never emitted
                              257-285 a length, by the code table
    distance alphabet         0-29    a distance, by the code table

Definitions only.  `Deflate.Tables` says what the reverse tables hold,
`Deflate.Encode` what the encoder writes, `Deflate.Decode` what the decoder
accepts.

`encode` is cut at the point where the source decides whether to write at all:
`plan` computes everything up to the predicted size, `emit` writes.
-/
import Compressly.Huffman.Decode
import Compressly.LZ77.Basic
import Compressly.Lib.Loop

namespace Compressly.Deflate

open Huffman LZ77 Loop

def kLitLenAlphabetSize : Nat := 286

def kDistAlphabetSize : Nat := 30

def kEndOfBlockSymbol : Nat := 256

def kFirstLengthSymbol : Nat := 257

def kMinMatch : Nat := 3

def kMaxMatch : Nat := 258

def kMaxWindowBits : Nat := 15

def kLengthBase : List Nat :=
  [3, 4, 5, 6, 7, 8, 9, 10, 11, 13, 15, 17, 19, 23, 27, 31, 35, 43, 51, 59, 67, 83, 99, 115, 131,
    163, 195, 227, 258]

def kLengthExtra : List Nat :=
  [0, 0, 0, 0, 0, 0, 0, 0, 1, 1, 1, 1, 2, 2, 2, 2, 3, 3, 3, 3, 4, 4, 4, 4, 5, 5, 5, 5, 0]

def kDistBase : List Nat :=
  [1, 2, 3, 4, 5, 7, 9, 13, 17, 25, 33, 49, 65, 97, 129, 193, 257, 385, 513, 769, 1025, 1537, 2049,
    3073, 4097, 6145, 8193, 12289, 16385, 24577]

def kDistExtra : List Nat :=
  [0, 0, 0, 0, 1, 1, 2, 2, 3, 3, 4, 4, 5, 5, 6, 6, 7, 7, 8, 8, 9, 9, 10, 10, 11, 11, 12, 12, 13, 13]

/-! ## Splitting a value into a symbol and extra bits -/

structure ReverseTables where
  lengthIndex : List Nat := List.replicate (kMaxMatch + 1) 0
  distLow : List Nat := List.replicate 256 0
  distHigh : List Nat := List.replicate 256 0

/-- The last value of range `i`: one before the next range, or `top`. -/
def lastOf (base : List Nat) (top i : Nat) : Nat :=
  if i + 1 < base.length then base.getD (i + 1) 0 - 1 else top

/-- The pairs of a value and the index of its range, in the order of the double loop. -/
def ranges (base : List Nat) (top : Nat) : List (Nat × Nat) :=
  (List.range base.length).flatMap fun i =>
    (List.range' (base.getD i 0) (lastOf base top i + 1 - base.getD i 0)).map fun value => (value, i)

def ReverseTables.storeLength (t : ReverseTables) (entry : Nat × Nat) : Result ReverseTables := do
  let lengthIndex ← store t.lengthIndex entry.1 entry.2
  pure { t with lengthIndex := lengthIndex }

def ReverseTables.storeDistance (t : ReverseTables) (entry : Nat × Nat) : Result ReverseTables :=
  if entry.1 ≤ 256 then do
    let distLow ← store t.distLow (entry.1 - 1) entry.2
    pure { t with distLow := distLow }
  else do
    let distHigh ← store t.distHigh ((entry.1 - 1) >>> 7) entry.2
    pure { t with distHigh := distHigh }

/-- The constructor of `ReverseTables`; its one instance. -/
def tables : Result ReverseTables := do
  let t ← (ranges kLengthBase kMaxMatch).foldlM ReverseTables.storeLength {}
  (ranges kDistBase (2 ^ kMaxWindowBits)).foldlM ReverseTables.storeDistance t

/-- The two-level lookup. -/
def ReverseTables.lookupDistance (t : ReverseTables) (distance : Nat) : Result Nat :=
  if distance ≤ 256 then fetch t.distLow (distance - 1) else fetch t.distHigh ((distance - 1) >>> 7)

structure Split where
  symbol : Nat
  extraBits : Nat
  extraValue : Nat
deriving DecidableEq, Repr

def splitLength (length : Nat) : Result Split := do
  if length < kMinMatch ∨ kMaxMatch < length then
    throw (.invalidArgument "match length outside the DEFLATE code table")
  let t ← tables
  let index ← fetch t.lengthIndex length
  let extraBits ← fetch kLengthExtra index
  let base ← fetch kLengthBase index
  let extraValue ← minus length base
  pure { symbol := kFirstLengthSymbol + index, extraBits := extraBits, extraValue := extraValue }

def splitDistance (distance : Nat) : Result Split := do
  if distance < 1 ∨ 2 ^ kMaxWindowBits < distance then
    throw (.invalidArgument "match distance outside the DEFLATE code table")
  let t ← tables
  let code ← t.lookupDistance distance
  let extraBits ← fetch kDistExtra code
  let base ← fetch kDistBase code
  let extraValue ← minus distance base
  pure { symbol := code, extraBits := extraBits, extraValue := extraValue }

def lengthBase (symbol : Nat) : Result Nat := do
  let index ← minus symbol kFirstLengthSymbol
  fetch kLengthBase index

def lengthExtraBits (symbol : Nat) : Result Nat := do
  let index ← minus symbol kFirstLengthSymbol
  fetch kLengthExtra index

def distanceBase (code : Nat) : Result Nat := fetch kDistBase code

def distanceExtraBits (code : Nat) : Result Nat := fetch kDistExtra code

/-! ## Encoding -/

def kParamBytes : Nat := 4

def writeU16LE (out : List UInt8) (value : Nat) : List UInt8 :=
  out ++ [UInt8.ofNat (value &&& 0xFF)] ++ [UInt8.ofNat (value >>> 8)]

/-- Everything after the last symbol with a code can be dropped. -/
def usedLength (lengths : LengthTable) : Nat :=
  (List.range lengths.length).foldl
    (fun used symbol => if lengths.getD symbol 0 ≠ 0 then symbol + 1 else used) 0

/-- The symbol frequencies of a token stream, and its extra bits. -/
structure Tally where
  litLenFreq : FreqTable := List.replicate kLitLenAlphabetSize 0
  distFreq : FreqTable := List.replicate kDistAlphabetSize 0
  extraBits : Nat := 0

def Tally.add (t : Tally) (token : Token) : Result Tally :=
  if !token.isMatch then do
    let litLenFreq ← bump t.litLenFreq token.literal.toNat
    pure { t with litLenFreq := litLenFreq }
  else do
    let length ← splitLength token.length.toNat
    let distance ← splitDistance token.distance.toNat
    let litLenFreq ← bump t.litLenFreq length.symbol
    let distFreq ← bump t.distFreq distance.symbol
    pure
      { litLenFreq := litLenFreq
        distFreq := distFreq
        extraBits := u64 (t.extraBits + (length.extraBits + distance.extraBits)) }

/-- `payloadBits += freq[symbol] * lengths[symbol]` over an alphabet. -/
def addCodedBits (size : Nat) (freq : FreqTable) (lengths : LengthTable) (payloadBits : Nat) :
    Result Nat :=
  (List.range size).foldlM
    (fun payloadBits symbol => do
      let n ← fetch freq symbol
      let length ← fetch lengths symbol
      pure (u64 (payloadBits + n * length)))
    payloadBits

/-- What is known before the first byte is written. -/
structure Plan where
  tokens : List Token
  litLenLengths : LengthTable
  distLengths : LengthTable
  litLenCodes : CodeTable
  distCodes : CodeTable
  hlit : Nat
  hdist : Nat
  total : Nat

def plan (data : List UInt8) (config : Config) : Result Plan := do
  if config.minMatch ≠ kMinMatch then
    throw (.invalidArgument "DEFLATE length codes require minMatch == 3")
  if (kMaxWindowBits : Int) < config.windowBits then
    throw (.invalidArgument "DEFLATE distance codes reach 32768; windowBits must be <= 15")
  let (tokens, _) ← tokenize data config
  let tally ← tokens.foldlM Tally.add {}
  let litLenLengths ← buildLengths tally.litLenFreq
  let distLengths ← buildLengths tally.distFreq
  let litLenCodes ← buildCanonicalCodes litLenLengths
  let distCodes ← buildCanonicalCodes distLengths
  let hlit := usedLength litLenLengths
  let hdist := usedLength distLengths
  let payloadBits ← addCodedBits kLitLenAlphabetSize tally.litLenFreq litLenLengths tally.extraBits
  let payloadBits ← addCodedBits kDistAlphabetSize tally.distFreq distLengths payloadBits
  let tableBytes := kParamBytes + hlit + hdist
  pure
    { tokens := tokens
      litLenLengths := litLenLengths
      distLengths := distLengths
      litLenCodes := litLenCodes
      distCodes := distCodes
      hlit := hlit
      hdist := hdist
      total := tableBytes + u64 (payloadBits + 7) / 8 }

/-- The first `count` code lengths, one byte each. -/
def pushLengths (lengths : LengthTable) (count : Nat) (out : List UInt8) : Result (List UInt8) :=
  (List.range count).foldlM
    (fun out symbol => do
      let length ← fetch lengths symbol
      pure (out ++ [UInt8.ofNat length]))
    out

def Plan.writeToken (p : Plan) (w : BitWriter) (token : Token) : Result BitWriter :=
  if !token.isMatch then do
    let code ← fetch p.litLenCodes token.literal.toNat
    pure (w.writeBits code.bits code.length)
  else do
    let length ← splitLength token.length.toNat
    let lengthCode ← fetch p.litLenCodes length.symbol
    let w := w.writeBits lengthCode.bits lengthCode.length
    let w := w.writeBits length.extraValue length.extraBits
    let distance ← splitDistance token.distance.toNat
    let distanceCode ← fetch p.distCodes distance.symbol
    let w := w.writeBits distanceCode.bits distanceCode.length
    pure (w.writeBits distance.extraValue distance.extraBits)

def Plan.emit (p : Plan) (config : Config) : Result (List UInt8) := do
  let out := [UInt8.ofNat config.windowBits.toNat]
  let out := writeU16LE out (p.hlit % 2 ^ 16)
  let out := out ++ [UInt8.ofNat p.hdist]
  let out ← pushLengths p.litLenLengths p.hlit out
  let out ← pushLengths p.distLengths p.hdist out
  let w ← p.tokens.foldlM p.writeToken { out := out }
  pure w.flush.out

/-- The method-3 payload, or nothing if it would reach `budgetBytes`. -/
def encode (data : List UInt8) (config : Config) (budgetBytes : Nat) : Result (List UInt8) := do
  let p ← plan data config
  if budgetBytes ≤ p.total then pure [] else p.emit config

/-! ## Decoding -/

/-- `lengths[symbol] = payload[start + symbol]` for the first `count` symbols. -/
def readLengths (payload : List UInt8) (start count : Nat) (lengths : LengthTable) :
    Result LengthTable :=
  (List.range count).foldlM
    (fun lengths symbol => do
      let length ← fetch payload (start + symbol)
      if kMaxCodeLength < length.toNat then throw (.corruptInput "illegal code length")
      store lengths symbol length.toNat)
    lengths

/-- The parameters and tables of a payload, and the bits after them. -/
structure Header where
  windowSize : Nat
  litLenTree : DecodeTree
  distTree : DecodeTree
  bits : List UInt8

def readHeader (payload : List UInt8) : Result Header := do
  if payload.length < kParamBytes then throw (.corruptInput "truncated DEFLATE parameters")
  let windowBits ← fetch payload 0
  let hlitLow ← fetch payload 1
  let hlitHigh ← fetch payload 2
  let hlit := hlitLow.toNat ||| hlitHigh.toNat <<< 8
  let hdist ← fetch payload 3
  if windowBits.toNat < 8 ∨ kMaxWindowBits < windowBits.toNat then
    throw (.corruptInput "illegal window size")
  if hlit < 1 ∨ kLitLenAlphabetSize < hlit then
    throw (.corruptInput "illegal literal/length table size")
  if kDistAlphabetSize < hdist.toNat then throw (.corruptInput "illegal distance table size")
  let tableBytes := kParamBytes + hlit + hdist.toNat
  if payload.length < tableBytes then throw (.corruptInput "truncated code length tables")
  let litLenLengths ← readLengths payload kParamBytes hlit (List.replicate kLitLenAlphabetSize 0)
  let distLengths ←
    readLengths payload (kParamBytes + hlit) hdist.toNat (List.replicate kDistAlphabetSize 0)
  let litLenTree ← DecodeTree.build litLenLengths
  let distTree ← DecodeTree.build distLengths
  let bitsSize ← minus payload.length tableBytes
  let bits ← slice payload tableBytes bitsSize
  pure
    { windowSize := 2 ^ windowBits.toNat
      litLenTree := litLenTree
      distTree := distTree
      bits := bits }

/-- The length a symbol and its extra bits stand for. -/
def decodeLength (symbol : Nat) (r : BitReader) : Result (Nat × BitReader) := do
  let base ← lengthBase symbol
  let extraBits ← lengthExtraBits symbol
  let (extra, r) ← r.readBits extraBits
  pure (base + extra, r)

/-- The distance a checked distance code and its extra bits stand for. -/
def decodeDistanceOf (distanceCode : Nat) (r : BitReader) : Result (Nat × BitReader) :=
  if kDistAlphabetSize ≤ distanceCode then
    throw (.corruptInput "distance symbol out of range")
  else do
    let base ← distanceBase distanceCode
    let extraBits ← distanceExtraBits distanceCode
    let (extra, r) ← r.readBits extraBits
    pure (base + extra, r)

def decodeDistance (h : Header) (r : BitReader) : Result (Nat × BitReader) := do
  let (distanceCode, r) ← decodeSymbol h.distTree r
  decodeDistanceOf distanceCode r

/-- The match a length symbol begins. -/
def decodeMatch (h : Header) (originalSize : Nat) (out : List UInt8) (symbol : Nat)
    (r : BitReader) : Result (List UInt8 × BitReader) := do
  let (length, r) ← decodeLength symbol r
  let (distance, r) ← decodeDistance h r
  let out ← copyBack h.windowSize originalSize distance length out
  pure (out, r)

/-- What follows a literal/length symbol. -/
def decodeRest (h : Header) (originalSize : Nat) (out : List UInt8) (symbol : Nat)
    (r : BitReader) : Result (List UInt8 × BitReader) :=
  if symbol < 256 then pure (out ++ [UInt8.ofNat symbol], r)
  else if symbol = kEndOfBlockSymbol then
    throw (.corruptInput "unexpected end-of-block symbol")
  else if kLitLenAlphabetSize ≤ symbol then
    throw (.corruptInput "literal/length symbol out of range")
  else decodeMatch h originalSize out symbol r

/-- One round of the decoder's loop. -/
def decodeToken (h : Header) (originalSize : Nat) (out : List UInt8) (r : BitReader) :
    Result (List UInt8 × BitReader) := do
  let (symbol, r) ← decodeSymbol h.litLenTree r
  decodeRest h originalSize out symbol r

end Compressly.Deflate

/-
# `Compressly.Block.Huffman` — method 1, order-0 Huffman coding

    +0      1     number of distinct symbols, less one
    +1      2n    pairs of symbol byte and code length byte
    +1+2n   ..    the bit stream

The encoder is cut, like `Deflate.encode`, where it decides whether to write:
the plan holds the predicted size.  Any payload gives the declared number of
bytes or `CorruptInput` (`decodeHuffman_decodes`), and what follows one that
decodes is not looked at (`decodeHuffmanStream_append`).
-/
import Compressly.Huffman.Decode

namespace Compressly.Block

open Bits Kraft Parse Loop Huffman

/-! ## The coder, as the source computes it -/

structure HuffmanPlan where
  lengths : LengthTable
  codes : CodeTable
  distinct : Nat
  total : Nat

/-- One round of the size computation: the symbols that have a code, and their bits. -/
def addSymbol (freq : FreqTable) (lengths : LengthTable) (acc : Nat × Nat) (symbol : Nat) :
    Result (Nat × Nat) := do
  let length ← fetch lengths symbol
  if length = 0 then pure acc
  else do
    let n ← fetch freq symbol
    pure (acc.1 + 1, u64 (acc.2 + n * length))

def planHuffman (data : List UInt8) : Result HuffmanPlan := do
  let freq ← countFrequencies data
  let lengths ← buildLengths freq
  let codes ← buildCanonicalCodes lengths
  let (distinct, payloadBits) ←
    (List.range kByteAlphabetSize).foldlM (addSymbol freq lengths) (0, 0)
  let tableSize := 1 + 2 * distinct
  pure
    { lengths := lengths
      codes := codes
      distinct := distinct
      total := tableSize + u64 (payloadBits + 7) / 8 }

/-- One round of the loop that writes the symbol table. -/
def pushSymbol (lengths : LengthTable) (out : List UInt8) (symbol : Nat) :
    Result (List UInt8) := do
  let length ← fetch lengths symbol
  if length = 0 then pure out else pure (out ++ [UInt8.ofNat symbol] ++ [UInt8.ofNat length])

def writeSymbol (codes : CodeTable) (w : BitWriter) (byte : UInt8) : Result BitWriter := do
  let code ← fetch codes byte.toNat
  pure (w.writeBits code.bits code.length)

def HuffmanPlan.emit (p : HuffmanPlan) (data : List UInt8) : Result (List UInt8) := do
  let distinct ← minus p.distinct 1
  let out ← (List.range kByteAlphabetSize).foldlM (pushSymbol p.lengths) [UInt8.ofNat distinct]
  let w ← data.foldlM (writeSymbol p.codes) { out := out }
  pure w.flush.out

def encodeHuffman (data : List UInt8) (budgetBytes : Nat) : Result (List UInt8) := do
  let p ← planHuffman data
  if budgetBytes ≤ p.total then pure [] else p.emit data

/-- One entry of the symbol table. -/
def readSymbol (payload : List UInt8) (lengths : LengthTable) (i : Nat) : Result LengthTable := do
  let symbol ← fetch payload (1 + 2 * i)
  let length ← fetch payload (2 + 2 * i)
  if length.toNat = 0 ∨ kMaxCodeLength < length.toNat then
    throw (.corruptInput "illegal code length")
  let old ← fetch lengths symbol.toNat
  if old ≠ 0 then throw (.corruptInput "duplicate symbol in table")
  store lengths symbol.toNat length.toNat

/-- The trie of a payload, and the bits after its table. -/
def readSymbolTable (payload : List UInt8) : Result (DecodeTree × List UInt8) := do
  if payload.length < 1 then throw (.corruptInput "missing symbol table")
  let first ← fetch payload 0
  let distinct := first.toNat + 1
  let tableSize := 1 + 2 * distinct
  if payload.length < tableSize then throw (.corruptInput "truncated symbol table")
  let lengths ←
    (List.range distinct).foldlM (readSymbol payload) (List.replicate kByteAlphabetSize 0)
  let tree ← DecodeTree.build lengths
  let bitsSize ← minus payload.length tableSize
  let bits ← slice payload tableSize bitsSize
  pure (tree, bits)

/-- One round of the decoder's loop. -/
def huffmanRound (tree : DecodeTree) (out : List UInt8) (r : BitReader) :
    Result (List UInt8 × BitReader) := do
  let (symbol, r) ← decodeSymbol tree r
  pure (out ++ [UInt8.ofNat symbol], r)

/-- The same round on a bit string. -/
def huffmanToken (tree : DecodeTree) (out : List UInt8) : Parser Error Bool (List UInt8) :=
  fun bs => do
    let (symbol, bs) ← symbol tree bs
    pure (out ++ [UInt8.ofNat symbol], bs)

theorem reads_huffmanRound (tree : DecodeTree) (out : List UInt8) :
    Reads (huffmanRound tree out) (huffmanToken tree out) :=
  (reads_decodeSymbol tree).bind fun symbol =>
    simulates_pure _ (out ++ [UInt8.ofNat symbol])

theorem huffmanToken_length_lt {tree : DecodeTree} {out out' : List UInt8} {bs rest : List Bool}
    (h : huffmanToken tree out bs = .ok (out', rest)) : rest.length < bs.length := by
  obtain ⟨⟨s, bs'⟩, hs, hrest⟩ := bind_eq_ok.mp h
  cases hrest
  exact symbol_length_lt hs

/-- The loop; `i` of the source is the length of the output. -/
def huffmanBody (tree : DecodeTree) : Body Error BitReader (List UInt8) where
  run := huffmanRound tree
  size r := r.bits.length
  decreases hrun := huffmanToken_length_lt ((reads_huffmanRound tree _).ok hrun)

/-- `decodeHuffman`, together with the reader where it stopped. -/
def decodeHuffmanStream (payload : List UInt8) (originalSize : Nat) :
    Result (List UInt8 × BitReader) := do
  let (tree, bits) ← readSymbolTable payload
  (huffmanBody tree).loop (fun out => out.length < originalSize) [] { data := bits }

def decodeHuffman (payload : List UInt8) (originalSize : Nat) : Result (List UInt8) :=
  Prod.fst <$> decodeHuffmanStream payload originalSize

/-! ## Hostile payloads -/

/-- The length table a payload stores, and the bits after it. -/
def storedLengths (payload : List UInt8) : Result (LengthTable × List UInt8) := do
  if payload.length < 1 then throw (.corruptInput "missing symbol table")
  let first ← fetch payload 0
  let distinct := first.toNat + 1
  let tableSize := 1 + 2 * distinct
  if payload.length < tableSize then throw (.corruptInput "truncated symbol table")
  let lengths ←
    (List.range distinct).foldlM (readSymbol payload) (List.replicate kByteAlphabetSize 0)
  let bitsSize ← minus payload.length tableSize
  let bits ← slice payload tableSize bitsSize
  pure (lengths, bits)

theorem storedLengths_decodes (payload : List UInt8) :
    Decodes (storedLengths payload) fun lb =>
      lb.1.length = kByteAlphabetSize ∧ ∀ l ∈ lb.1, l ≤ kMaxCodeLength := by
  unfold storedLengths
  by_cases h1 : payload.length < 1
  · rw [if_pos h1]
    trivial
  rw [if_neg h1, fetch_of_lt (by omega), bind_ok]
  by_cases htable : payload.length < 1 + 2 * (payload[0].toNat + 1)
  · rw [if_pos htable]
    trivial
  rw [if_neg htable, minus_of_le (by omega)]
  have hround : ∀ lengths : LengthTable,
      (lengths.length = kByteAlphabetSize ∧ ∀ l ∈ lengths, l ≤ kMaxCodeLength) →
      ∀ i ∈ List.range (payload[0].toNat + 1), Decodes (readSymbol payload lengths i)
        fun lengths => lengths.length = kByteAlphabetSize ∧ ∀ l ∈ lengths, l ≤ kMaxCodeLength := by
    intro lengths ⟨hlen, hle⟩ i hi
    have hi' := List.mem_range.mp hi
    have hslot : payload[1 + 2 * i].toNat < lengths.length := by
      rw [hlen]
      exact payload[1 + 2 * i].toNat_lt
    rw [readSymbol, fetch_of_lt (by omega), bind_ok, fetch_of_lt (by omega), bind_ok]
    by_cases hillegal : payload[2 + 2 * i].toNat = 0 ∨ kMaxCodeLength < payload[2 + 2 * i].toNat
    · rw [if_pos hillegal]
      trivial
    rw [if_neg hillegal, fetch_of_lt hslot, bind_ok]
    by_cases hdup : lengths[payload[1 + 2 * i].toNat] ≠ 0
    · rw [if_pos hdup]
      trivial
    · rw [if_neg hdup, store_of_lt hslot]
      refine ⟨by rw [List.length_set, hlen], fun l hl => ?_⟩
      rcases List.mem_or_eq_of_mem_set hl with hl | rfl
      · exact hle l hl
      · exact Nat.le_of_not_lt fun h => hillegal (Or.inr h)
  refine (decodes_foldlM hround ⟨List.length_replicate, fun l hl => ?_⟩).bind fun lengths h => ?_
  · rw [List.eq_of_mem_replicate hl]
    exact Nat.zero_le _
  · rw [bind_ok, slice_of_le (by omega)]
    exact h

/-- The bits are a part of the payload. -/
theorem length_le_of_storedLengths {payload : List UInt8} {ls : LengthTable} {bits : List UInt8}
    (h : storedLengths payload = .ok (ls, bits)) : bits.length ≤ payload.length := by
  unfold storedLengths at h
  by_cases h1 : payload.length < 1
  · rw [if_pos h1] at h
    cases h
  rw [if_neg h1, fetch_of_lt (by omega), bind_ok] at h
  by_cases htable : payload.length < 1 + 2 * (payload[0].toNat + 1)
  · rw [if_pos htable] at h
    cases h
  rw [if_neg htable, minus_of_le (by omega)] at h
  obtain ⟨lengths, -, h⟩ := bind_eq_ok.mp h
  rw [bind_ok, slice_of_le (by omega)] at h
  cases h
  exact (List.length_take_le' _ _).trans (List.length_drop ▸ Nat.sub_le _ _)

/-- Building the trie changes nothing about what is read. -/
theorem readSymbolTable_eq (payload : List UInt8) :
    readSymbolTable payload = (do
      let (lengths, bits) ← storedLengths payload
      let tree ← DecodeTree.build lengths
      pure (tree, bits)) := by
  have hdec := storedLengths_decodes payload
  unfold readSymbolTable
  unfold storedLengths at hdec ⊢
  by_cases h1 : payload.length < 1
  · rw [if_pos h1, if_pos h1]
    rfl
  rw [if_neg h1, fetch_of_lt (by omega), bind_ok] at hdec
  rw [if_neg h1, if_neg h1, fetch_of_lt (by omega), bind_ok, bind_ok]
  by_cases htable : payload.length < 1 + 2 * (payload[0].toNat + 1)
  · rw [if_pos htable, if_pos htable]
    rfl
  rw [if_neg htable, minus_of_le (by omega)] at hdec
  rw [if_neg htable, if_neg htable, minus_of_le (by omega)]
  cases hls : (List.range (payload[0].toNat + 1)).foldlM (readSymbol payload)
      (List.replicate kByteAlphabetSize 0) with
  | error e => rfl
  | ok lengths =>
      have hslice : 1 + 2 * (payload[0].toNat + 1) + (payload.length - (1 + 2 * (payload[0].toNat + 1)))
          ≤ payload.length := by omega
      rw [hls, bind_ok, bind_ok, slice_of_le hslice] at hdec
      obtain ⟨tree, hbuild, -⟩ := build_trie hdec.2 (covered_bytes hdec.1)
      have hbuild : DecodeTree.build lengths = .ok tree := hbuild
      simp only [bind_ok, slice_of_le hslice, hbuild, pure_eq_ok]

/-- The symbol table of any payload: a trie over at most 256 symbols, or `CorruptInput`. -/
theorem readSymbolTable_decodes (payload : List UInt8) :
    Decodes (readSymbolTable payload) fun tb => ∃ ls, Trie tb.1.nodes (entriesOf ls) := by
  rw [readSymbolTable_eq]
  refine (storedLengths_decodes payload).bind fun lb hlb => ?_
  obtain ⟨tree, hbuild, htrie⟩ := build_trie hlb.2 (covered_bytes hlb.1)
  simp only [hbuild, bind_ok]
  exact ⟨lb.1, htrie⟩

/-- On every payload and every declared size, the decoder returns exactly that many bytes
or throws `CorruptInput`. -/
theorem decodeHuffman_decodes (payload : List UInt8) (originalSize : Nat) :
    Decodes (decodeHuffman payload originalSize) fun out => out.length = originalSize := by
  have hstream : Decodes (decodeHuffmanStream payload originalSize) fun ar =>
      ar.1.length = originalSize := by
    refine (readSymbolTable_decodes payload).bind fun tb htb => ?_
    obtain ⟨ls, htrie⟩ := htb
    have hround : ∀ (out : List UInt8) (r : BitReader), out.length ≤ originalSize →
        decide (out.length < originalSize) = true →
        Decodes ((huffmanBody tb.1).run out r) fun ar => ar.1.length ≤ originalSize := by
      intro out r _ hmore
      have hdec : Decodes (huffmanToken tb.1 out r.bits) fun ar => ar.1.length ≤ originalSize := by
        refine (symbol_decodes htrie r.bits).bind fun ar _ => ?_
        show (out ++ [UInt8.ofNat ar.1]).length ≤ originalSize
        rw [List.length_append]
        exact of_decide_eq_true hmore
      exact Decodes.of_simulates (P := fun out => out.length ≤ originalSize)
        (reads_huffmanRound tb.1 out) hdec
    refine (decodes_loop hround (Nat.zero_le _) _).mono fun ar har => ?_
    exact Nat.le_antisymm har.1 (Nat.le_of_not_lt (of_decide_eq_false har.2))
  exact hstream.map

/-! ## Truncation -/

/-- What follows a symbol table only lengthens the bit stream. -/
theorem readSymbolTable_append {payload : List UInt8} {tree : DecodeTree} {bits : List UInt8}
    (h : readSymbolTable payload = .ok (tree, bits)) (s : List UInt8) :
    readSymbolTable (payload ++ s) = .ok (tree, bits ++ s) := by
  unfold readSymbolTable at h ⊢
  by_cases h1 : payload.length < 1
  · rw [if_pos h1] at h
    cases h
  rw [if_neg h1, fetch_of_lt (by omega), bind_ok] at h
  by_cases htable : payload.length < 1 + 2 * (payload[0].toNat + 1)
  · rw [if_pos htable] at h
    cases h
  rw [if_neg htable, minus_of_le (by omega)] at h
  have hlong : 1 + 2 * (payload[0].toNat + 1) ≤ (payload ++ s).length := by
    rw [List.length_append]
    omega
  rw [if_neg (by omega), fetch_append (by omega), fetch_of_lt (by omega), bind_ok,
    if_neg (Nat.not_lt.mpr hlong), minus_of_le hlong]
  have hsame : ∀ (lengths : LengthTable), ∀ i ∈ List.range (payload[0].toNat + 1),
      readSymbol (payload ++ s) lengths i = readSymbol payload lengths i := by
    intro lengths i hi
    have hi' := List.mem_range.mp hi
    rw [readSymbol, readSymbol, fetch_append (by omega), fetch_append (by omega)]
  rw [foldlM_congr hsame]
  obtain ⟨lengths, hlengths, h⟩ := bind_eq_ok.mp h
  obtain ⟨tree', htree, h⟩ := bind_eq_ok.mp h
  rw [hlengths, bind_ok, htree, bind_ok, bind_ok, slice_of_le (by simp; omega)]
  rw [bind_ok, slice_of_le (by omega)] at h
  cases h
  rw [bind_ok, List.length_append, List.drop_append_of_le_length (by omega), pure_eq_ok,
    List.take_of_length_le (by simp; omega), List.take_of_length_le (by simp)]

theorem stable_huffmanToken (tree : DecodeTree) (out : List UInt8) :
    Stable (huffmanToken tree out) :=
  (stable_symbol tree).bind fun symbol => stable_pure (out ++ [UInt8.ofNat symbol])

/-- The decoder does the same on a longer payload, and leaves the rest of it. -/
theorem decodeHuffmanStream_append {payload : List UInt8} {originalSize : Nat} {out : List UInt8}
    {r : BitReader} (h : decodeHuffmanStream payload originalSize = .ok (out, r)) (s : List UInt8) :
    ∃ r', decodeHuffmanStream (payload ++ s) originalSize = .ok (out, r') ∧
      r'.bits = r.bits ++ bytesBits s := by
  obtain ⟨⟨tree, bits⟩, hread, hloop⟩ := bind_eq_ok.mp h
  have hbits : ({ data := bits ++ s } : BitReader).bits
      = ({ data := bits } : BitReader).bits ++ bytesBits s := by
    simp [BitReader.bits]
  rw [decodeHuffmanStream, readSymbolTable_append hread, bind_ok]
  exact loop_append (reads_huffmanRound tree) (stable_huffmanToken tree) hloop hbits

theorem tight_of_decodeHuffmanStream {payload : List UInt8} {originalSize : Nat}
    {out : List UInt8} {r : BitReader}
    (h : decodeHuffmanStream payload originalSize = .ok (out, r)) (hleft : r.bits.length < 8) :
    Tight (fun p => decodeHuffman p originalSize) out payload := by
  refine tight_of_stream (fun r => r.bits.length) 8 (fun p a r s hp => ?_) h hleft
  obtain ⟨r', hr', hbits⟩ := decodeHuffmanStream_append hp s
  exact ⟨r', hr', by rw [hbits, List.length_append, length_bytesBits]⟩

end Compressly.Block

/-
# `Compressly.Block` — encoding and decoding one block

A block is compressed without reference to any other.  Whatever the algorithm,
a block that would not shrink is stored as it is; so a block never grows
(`encodeBlock_spec`), and it decodes to the data and is needed to its last byte.
-/
import Compressly.Block.HuffmanEncode
import Compressly.Block.Lz77Encode
import Compressly.Deflate.RoundTrip

namespace Compressly

open Parse LZ77 Block

inductive Algorithm where
  | huffman
  | lz77
  | deflate
deriving DecidableEq, Repr

/-- The method a payload of the algorithm is marked with. -/
def Algorithm.method : Algorithm → Method
  | .huffman => .huffman
  | .lz77 => .lz77
  | .deflate => .deflate

structure EncodedBlock where
  method : Method := .stored
  payload : List UInt8 := []
deriving DecidableEq, Repr

/-- The `switch` of `encodeBlock`. -/
def encodePayload (algorithm : Algorithm) (data : List UInt8) (config : Config)
    (budgetBytes : Nat) : Result (List UInt8) :=
  match algorithm with
  | .huffman => encodeHuffman data budgetBytes
  | .lz77 => encodeLz77 data config budgetBytes
  | .deflate => Deflate.encode data config budgetBytes

/-- The size each encoder predicts, called `total` in all three. -/
def predictedTotal (algorithm : Algorithm) (data : List UInt8) (config : Config) : Result Nat :=
  match algorithm with
  | .huffman => HuffmanPlan.total <$> planHuffman data
  | .lz77 => Lz77Plan.total <$> planLz77 data config
  | .deflate => Deflate.Plan.total <$> Deflate.plan data config

def encodeBlock (data : List UInt8) (algorithm : Algorithm) (config : Config) :
    Result EncodedBlock :=
  if data.length = 0 then pure {}
  else do
    let payload ← encodePayload algorithm data config data.length
    if payload.length = 0 then pure { method := .stored, payload := data }
    else pure { method := algorithm.method, payload := payload }

def decodeBlock (method : Method) (payload : List UInt8) (uncompressedSize : Nat) :
    Result (List UInt8) :=
  match method with
  | .stored =>
      if payload.length ≠ uncompressedSize then
        throw (.corruptInput "stored payload size disagrees with the framing")
      else pure payload
  | .huffman => decodeHuffman payload uncompressedSize
  | .lz77 => decodeLz77 payload uncompressedSize
  | .deflate => Deflate.decode payload uncompressedSize
  | .blocked => throw (.corruptInput "unknown compression method")
  | .unnamed _ => throw (.corruptInput "unknown compression method")

/-! ## Decoding -/

/-- On every payload and every declared size, whatever the method byte, a block decodes to
exactly that many bytes or throws `CorruptInput`. -/
theorem decodeBlock_decodes (method : Method) (payload : List UInt8) (uncompressedSize : Nat) :
    Decodes (decodeBlock method payload uncompressedSize) fun out =>
      out.length = uncompressedSize := by
  cases method with
  | stored =>
      rw [decodeBlock]
      by_cases h : payload.length ≠ uncompressedSize
      · rw [if_pos h]
        trivial
      · rw [if_neg h]
        exact not_not.mp h
  | huffman => exact decodeHuffman_decodes payload uncompressedSize
  | lz77 => exact decodeLz77_decodes payload uncompressedSize
  | deflate => exact Deflate.decode_decodes payload uncompressedSize
  | blocked => trivial
  | unnamed byte => trivial

/-! ## Encoding -/

/-- The configurations an algorithm accepts; Huffman coding does not look at it. -/
def Algorithm.Accepts : Algorithm → Config → Prop
  | .huffman, _ => True
  | .lz77, config => config.Valid
  | .deflate, config => Deflate.Accepts config

instance (algorithm : Algorithm) (config : Config) : Decidable (algorithm.Accepts config) :=
  match algorithm with
  | .huffman => inferInstanceAs (Decidable True)
  | .lz77 => inferInstanceAs (Decidable config.Valid)
  | .deflate => inferInstanceAs (Decidable (Deflate.Accepts config))

/-- What is refused, field by field. -/
theorem not_accepts_iff {algorithm : Algorithm} {config : Config} :
    ¬ algorithm.Accepts config ↔
      (algorithm = .lz77 ∧ (config.windowBits < 8 ∨ 16 < config.windowBits ∨
        config.minMatch < 3 ∨ 8 < config.minMatch ∨ config.maxChainLength < 1)) ∨
      (algorithm = .deflate ∧ (config.minMatch ≠ 3 ∨ config.windowBits < 8 ∨
        15 < config.windowBits ∨ config.maxChainLength < 1)) := by
  cases algorithm with
  | huffman => simp [Algorithm.Accepts]
  | lz77 =>
      have hvalid : config.Valid ↔ (8 ≤ config.windowBits ∧ config.windowBits ≤ 16) ∧
          (3 ≤ config.minMatch ∧ config.minMatch ≤ 8) ∧ 1 ≤ config.maxChainLength := by
        constructor
        · intro h
          exact ⟨h.windowBits, h.minMatch, h.maxChainLength⟩
        · rintro ⟨hw, hm, hchain⟩
          exact ⟨hw, hm, hchain⟩
      simp only [Algorithm.Accepts, hvalid, true_and, reduceCtorEq, false_and, or_false]
      omega
  | deflate =>
      have haccepts : Deflate.Accepts config ↔
          (8 ≤ config.windowBits ∧ config.windowBits ≤ 15) ∧ config.minMatch = 3 ∧
            1 ≤ config.maxChainLength := by
        constructor
        · intro h
          have hv := h.valid.windowBits
          have hw := h.windowBits
          exact ⟨⟨hv.1, hw⟩, h.minMatch, h.valid.maxChainLength⟩
        · rintro ⟨hw, hm, hchain⟩
          exact ⟨⟨by omega, by omega, hchain⟩, hm, hw.2⟩
      simp only [Algorithm.Accepts, haccepts, true_and, reduceCtorEq, false_and, false_or]
      omega

/-- What each of the three encoders does: nothing is written exactly when the predicted
size reaches the budget, and what is written decodes to the data, is needed to its last
byte and has the predicted size. -/
theorem encodePayload_spec {algorithm : Algorithm} {config : Config}
    (hok : algorithm.Accepts config) {data : List UInt8} (hdata : data ≠ []) :
    ∃ total, predictedTotal algorithm data config = .ok total ∧ ∀ budgetBytes,
      (budgetBytes ≤ total → encodePayload algorithm data config budgetBytes = .ok []) ∧
      (total < budgetBytes → ∃ payload,
        encodePayload algorithm data config budgetBytes = .ok payload ∧ payload ≠ [] ∧
        Tight (fun payload => decodeBlock algorithm.method payload data.length) data payload ∧
        (data.length < 2 ^ 59 → payload.length = total)) := by
  cases algorithm with
  | huffman =>
      obtain ⟨p, hplan, hspec⟩ := encodeHuffman_spec hdata
      exact ⟨p.total, by rw [predictedTotal, hplan]; rfl, hspec⟩
  | lz77 =>
      obtain ⟨p, hplan, hspec⟩ := encodeLz77_spec hok data
      refine ⟨p.total, by rw [predictedTotal, hplan]; rfl, fun budgetBytes => ?_⟩
      obtain ⟨hnone, hsome⟩ := hspec budgetBytes
      refine ⟨hnone, fun h => ?_⟩
      obtain ⟨payload, hencode, hne, htight, hlen⟩ := hsome h
      exact ⟨payload, hencode, hne, htight, fun _ => hlen⟩
  | deflate =>
      obtain ⟨p, hplan, hspec⟩ := Deflate.encode_spec hok hdata
      exact ⟨p.total, by rw [predictedTotal, hplan]; rfl, hspec⟩

theorem encodePayload_rejects {algorithm : Algorithm} {config : Config}
    (hok : ¬ algorithm.Accepts config) (data : List UInt8) (budgetBytes : Nat) :
    Rejects (encodePayload algorithm data config budgetBytes) := by
  cases algorithm with
  | huffman => exact absurd trivial hok
  | lz77 => exact encodeLz77_rejects data hok budgetBytes
  | deflate => exact Deflate.encode_rejects hok budgetBytes

/-- What an encoded block is: it decodes to the data, is needed to its last byte, and is
marked with a method a block may have. -/
structure Encodes (data : List UInt8) (b : EncodedBlock) : Prop where
  tight : Tight (fun payload => decodeBlock b.method payload data.length) data b.payload
  named : ∀ byte, b.method ≠ .unnamed byte
  not_blocked : b.method ≠ .blocked
  payload_length : data.length < 2 ^ 59 →
    (b.method = .stored ∧ b.payload = data) ∨
      (b.method ≠ .stored ∧ b.payload.length < data.length)

/-- Storing the data as it is. -/
theorem encodes_stored (data : List UInt8) :
    Encodes data { method := .stored, payload := data } where
  tight :=
    { decodes := by simp [decodeBlock]
      truncated := by
        rintro p s rfl hs
        have hpos := List.length_pos_iff.mpr hs
        refine ⟨.corruptInput "stored payload size disagrees with the framing", ?_⟩
        simp only [decodeBlock]
        rw [if_pos (by rw [List.length_append]; omega)]
        rfl }
  named byte := by simp
  not_blocked := by simp
  payload_length _ := Or.inl ⟨rfl, rfl⟩

theorem encodeBlock_spec {algorithm : Algorithm} {config : Config}
    (hok : algorithm.Accepts config) (data : List UInt8) :
    ∃ b, encodeBlock data algorithm config = .ok b ∧ Encodes data b := by
  unfold encodeBlock
  by_cases hdata : data = []
  · subst hdata
    exact ⟨{}, rfl, encodes_stored []⟩
  rw [if_neg (fun h => hdata (List.length_eq_zero_iff.mp h))]
  obtain ⟨total, -, hspec⟩ := encodePayload_spec hok hdata
  obtain ⟨hnone, hsome⟩ := hspec data.length
  rcases Nat.lt_or_ge total data.length with hlt | hge
  · obtain ⟨payload, hencode, hne, htight, hlen⟩ := hsome hlt
    refine ⟨{ method := algorithm.method, payload := payload }, ?_, ?_⟩
    · rw [hencode, bind_ok, if_neg (fun h => hne (List.length_eq_zero_iff.mp h))]
      rfl
    · exact
        { tight := htight
          named := fun byte => by cases algorithm <;> simp [Algorithm.method]
          not_blocked := by cases algorithm <;> simp [Algorithm.method]
          payload_length := fun hsmall =>
            Or.inr ⟨by cases algorithm <;> simp [Algorithm.method], (hlen hsmall).trans_lt hlt⟩ }
  · exact ⟨{ method := .stored, payload := data }, by rw [hnone hge]; rfl, encodes_stored data⟩

/-- On a configuration that is refused, every block but the empty one is. -/
theorem encodeBlock_rejects {algorithm : Algorithm} {config : Config}
    (hok : ¬ algorithm.Accepts config) {data : List UInt8} (hdata : data ≠ []) :
    Rejects (encodeBlock data algorithm config) := by
  obtain ⟨what, hwhat⟩ := encodePayload_rejects hok data data.length
  refine ⟨what, ?_⟩
  rw [encodeBlock, if_neg (fun h => hdata (List.length_eq_zero_iff.mp h)), hwhat]
  rfl

end Compressly

/-
# `Compressly.Block.Entropy` — what order-0 coding can reach

The bits of a payload of method 1 are the counts of the bytes times the lengths
of their codes, so they are held between the entropy of the bytes and one bit per
byte above it (`encodeHuffman_entropy`).
-/
import Compressly.Block.HuffmanEncode
import Compressly.Huffman.Entropy

namespace Compressly.Block

open Bits Kraft OptimalCode Huffman

/-- The entropy of the bytes of a buffer, in bits for the whole buffer. -/
noncomputable def byteEntropy (data : List UInt8) : ℝ := entropy (presentFreqs (frequencies data))

/-- How many bytes occur in a buffer. -/
def distinctBytes (data : List UInt8) : Nat := (presentSymbols (frequencies data)).length

theorem length_bits_eq (p : HuffmanPlan) (data : List UInt8) :
    (p.bits data).length = weightedLength (frequencies data) fun s => p.lengths.getD s 0 := by
  rw [HuffmanPlan.bits, length_flatMap_codeWord, frequencies,
    weightedLength_histogram (bytes_lt data)]

theorem planHuffman_lengths {data : List UInt8} {p : HuffmanPlan} (h : planHuffman data = .ok p) :
    buildLengths (frequencies data) = .ok p.lengths := by
  rw [planHuffman, countFrequencies_eq, bind_ok] at h
  obtain ⟨ls, hls, h⟩ := bind_eq_ok.mp h
  obtain ⟨codes, -, h⟩ := bind_eq_ok.mp h
  obtain ⟨sizes, -, h⟩ := bind_eq_ok.mp h
  cases h
  exact hls

theorem total_eq {data : List UInt8} {p : HuffmanPlan} (hp : HuffmanPlanned data p)
    (hlen : data.length < 2 ^ 59) :
    p.total = 1 + 2 * p.distinct + ((p.bits data).length + 7) / 8 := by
  have hbound := length_bits_le hp
  rw [hp.total, u64_of_lt (n := (p.bits data).length) (by omega), u64_of_lt (by omega)]

theorem thrifty_lengths {data : List UInt8} {p : HuffmanPlan} (hplan : planHuffman data = .ok p)
    (hlen : data.length < 2 ^ 59) {c : Nat} (hc : ∀ byte ∈ data, c ≤ data.count byte)
    (hsmall : data.length < 2584 * c) :
    Thrifty (data.map UInt8.toNat) kByteAlphabetSize p.lengths := by
  rw [← List.length_map UInt8.toNat] at hlen hsmall
  refine thrifty (planHuffman_lengths hplan) (by decide) (bytes_lt data) (by omega) ?_ hsmall
  intro s hs
  obtain ⟨byte, hbyte, rfl⟩ := List.mem_map.mp hs
  rw [List.count_map_of_injective _ _ fun _ _ h => UInt8.toNat_inj.mp h]
  exact hc byte hbyte

/-- A payload of method 1 against the entropy of its bytes. -/
structure NearEntropy (data payload : List UInt8) : Prop where
  /-- The symbol table comes on top, and nothing is saved below the entropy. -/
  above : 8 * (1 + 2 * distinctBytes data) + byteEntropy data ≤ 8 * payload.length
  /-- Where the limit on the lengths is out of reach, a byte costs at most one bit more. -/
  below : ∀ c, (∀ byte ∈ data, c ≤ data.count byte) → data.length < 2584 * c →
    (8 * payload.length : ℝ) < 8 * (1 + 2 * distinctBytes data) + byteEntropy data
      + data.length + 8

/-- **Order-0 coding and the entropy.**  What is written is no smaller than the entropy of the
bytes and the symbol table, and within one bit per byte of it; a budget below that is refused. -/
theorem encodeHuffman_entropy {data : List UInt8} (hdata : data ≠ []) (hlen : data.length < 2 ^ 59)
    (budgetBytes : Nat) :
    ∃ payload, encodeHuffman data budgetBytes = .ok payload ∧
      (payload = [] ∨ NearEntropy data payload) ∧
      (8 * budgetBytes ≤ 8 * (1 + 2 * distinctBytes data) + byteEntropy data → payload = []) := by
  obtain ⟨p, hplan, hp⟩ := planHuffman_spec data
  obtain ⟨p', hplan', hencode⟩ := encodeHuffman_spec hdata
  have hsame := hplan'.symm.trans hplan
  cases hsame
  have htotal := total_eq hp hlen
  have hdistinct : p.distinct = distinctBytes data := by
    rw [hp.distinct, hp.lengths.presentSymbols_eq, distinctBytes]
  have hbits : (8 * p.total : ℝ) = 8 * (1 + 2 * distinctBytes data)
      + 8 * (((p.bits data).length + 7) / 8 : Nat) := by
    rw [htotal, hdistinct]
    push_cast
    ring
  obtain ⟨hroundR, hroundR'⟩ := bits_of_bytes (p.bits data).length
  have hlower := hp.lengths.entropy_le (covered_bytes (length_histogram _ _))
  rw [← length_bits_eq, ← byteEntropy] at hlower
  obtain ⟨hrefuse, hwrite⟩ := hencode budgetBytes
  rcases Nat.lt_or_ge p.total budgetBytes with hfits | hover
  · obtain ⟨payload, hok, -, -, hsize⟩ := hwrite hfits
    refine ⟨payload, hok, Or.inr { above := ?_, below := fun c hc hsmall => ?_ }, fun hbudget => ?_⟩
    · rw [hsize hlen]
      linarith
    · have hupper := (thrifty_lengths hplan hlen hc hsmall).le_entropy
      rw [← frequencies, ← length_bits_eq, ← byteEntropy, List.length_map] at hupper
      rw [hsize hlen]
      linarith
    · have hlt : (p.total : ℝ) < budgetBytes := by exact_mod_cast hfits
      linarith
  · exact ⟨[], hrefuse hover, Or.inl rfl, fun _ => rfl⟩

/-- A budget with room for codes of 15 bits is met. -/
theorem encodeHuffman_written {data : List UInt8} (hdata : data ≠ []) (hlen : data.length < 2 ^ 59)
    {budgetBytes : Nat}
    (hroom : 1 + 2 * distinctBytes data + (15 * data.length + 7) / 8 < budgetBytes)
    {payload : List UInt8} (h : encodeHuffman data budgetBytes = .ok payload) : payload ≠ [] := by
  obtain ⟨p, hplan, hp⟩ := planHuffman_spec data
  obtain ⟨p', hplan', hencode⟩ := encodeHuffman_spec hdata
  have hsame := hplan'.symm.trans hplan
  cases hsame
  have htotal := total_eq hp hlen
  have hbits := length_bits_le hp
  rw [hp.distinct, hp.lengths.presentSymbols_eq, ← distinctBytes] at htotal
  obtain ⟨payload', hok, hne, -⟩ := (hencode budgetBytes).2 (by omega)
  rwa [Except.ok.inj (h.symm.trans hok)]

/-- With room for it, three bytes are written; into less than the table takes, nothing is. -/
theorem encodeHuffman_entropy_three :
    (∃ payload, encodeHuffman [7, 7, 9] 100 = .ok payload ∧ payload ≠ [] ∧
      NearEntropy [7, 7, 9] payload) ∧
    encodeHuffman [7, 7, 9] 5 = .ok [] := by
  have hdistinct : distinctBytes [7, 7, 9] = 2 := by decide +kernel
  constructor
  · obtain ⟨payload, hok, hnear, -⟩ :=
      @encodeHuffman_entropy [7, 7, 9] (by decide) (by decide) 100
    have hne := encodeHuffman_written (by decide) (by decide) (by rw [hdistinct]; decide) hok
    exact ⟨payload, hok, hne, hnear.resolve_left hne⟩
  · obtain ⟨payload, hok, -, hrefuse⟩ :=
      @encodeHuffman_entropy [7, 7, 9] (by decide) (by decide) 5
    have hnonneg : 0 ≤ byteEntropy [7, 7, 9] := entropy_nonneg fun w hw => mem_presentFreqs hw
    rw [hdistinct] at hrefuse
    rw [hok, hrefuse (by push_cast; linarith)]

end Compressly.Block

/-
# `Compressly.Codec.Repeats` — how small containers of repetitive data are

What the dictionary coders write is bounded by the number of tokens
(`predictedTotal_le`), and a block never takes more than is predicted
(`payload_le_total`).  So the container of data with a period in reach takes a
few bytes for each block and six bytes for each full match (`periodic_container`).
-/
import Compressly.Codec.Sizes
import Compressly.LZ77.Repeats
import Compressly.Deflate.Entropy

namespace Compressly.Deflate

open Bits Kraft Huffman LZ77

/-- A token spends 15 + 5 + 15 + 13 bits at most. -/
theorem length_tokenBits_max {lls dls : LengthTable} (hlit : PrefixTable lls)
    (hdist : PrefixTable dls) (t : Token) : (tokenBits lls dls t).length ≤ 48 := by
  have hlitLen : lls.getD (litLenSymbol t) 0 ≤ 15 := hlit.getD_le _
  rw [length_tokenBits]
  unfold extraBitsOf distSymbols
  by_cases hmatch : t.isMatch
  · have hlenExtra : (lengthSplit t.length.toNat).extraBits ≤ 5 := lengthExtra_le _
    have hdistExtra : (distanceSplit t.distance.toNat).extraBits ≤ 13 := distExtra_le _
    have hdistLen : dls.getD (distanceSplit t.distance.toNat).symbol 0 ≤ 15 := hdist.getD_le _
    simp only [if_pos hmatch, List.map_cons, List.map_nil, List.sum_cons, List.sum_nil]
    omega
  · simp only [if_neg hmatch, List.map_nil, List.sum_nil]
    omega

/-- The tables, and six bytes for each token. -/
theorem total_le {data : List UInt8} {config : Config} {p : Plan} (hp : Planned data config p) :
    p.total ≤ kParamBytes + kLitLenAlphabetSize + kDistAlphabetSize
      + 6 * (parse data config 0).length := by
  have hbits : p.bits.length ≤ 48 * p.tokens.length := by
    rw [Plan.bits, List.length_flatMap]
    refine (List.sum_le_card_nsmul _ 48 ?_).trans ?_
    · intro n hn
      obtain ⟨t, -, rfl⟩ := List.mem_map.mp hn
      exact length_tokenBits_max hp.litLen.toPrefixTable hp.dist.toPrefixTable t
    · rw [List.length_map, smul_eq_mul, Nat.mul_comm]
  have hlit : p.hlit ≤ kLitLenAlphabetSize := length_litLenLengths hp ▸ hlit_le hp
  have hdist : p.hdist ≤ kDistAlphabetSize := length_distLengths hp ▸ hdist_le hp
  have hwrap : u64 (u64 p.bits.length + 7) ≤ p.bits.length + 7 :=
    (Nat.mod_le _ _).trans (Nat.add_le_add_right (Nat.mod_le _ _) 7)
  rw [hp.total, ← hp.tokens]
  omega

end Compressly.Deflate

namespace Compressly

open Endian Parse Chunks LZ77 Block

/-! ## A size by the number of tokens -/

theorem planLz77_eq {config : Config} (hc : config.Valid) (data : List UInt8) :
    planLz77 data config = .ok
      { tokens := parse data config 0
        total := kLz77ParamBytes + ((parse data config 0).length + 7) / 8
          + (parse data config 0).countP (!·.isMatch)
          + 3 * (parse data config 0).countP (·.isMatch) } := by
  obtain ⟨examined, htokens⟩ := tokenize_eq data hc
  simp only [planLz77, htokens, bind_ok, foldl_counts, Nat.zero_add, pure_eq_ok]

/-- What a dictionary coder predicts of a block of `tokens` tokens: the parameters and tables of
the larger of the two, and six bytes for each. -/
def dictionaryBound (tokens : Nat) : Nat :=
  Deflate.kParamBytes + Deflate.kLitLenAlphabetSize + Deflate.kDistAlphabetSize + 6 * tokens

section Blocks
variable {algorithm : Algorithm} {config : Config}

theorem predictedTotal_le (hok : algorithm.Accepts config) (hdict : algorithm ≠ .huffman)
    (data : List UInt8) :
    ∃ total, predictedTotal algorithm data config = .ok total ∧
      total ≤ dictionaryBound (parse data config 0).length := by
  cases algorithm with
  | huffman => exact absurd rfl hdict
  | lz77 =>
      refine ⟨_, by rw [predictedTotal, planLz77_eq hok]; rfl, ?_⟩
      have hkinds := (tally_sums (parse data config 0) 0).1
      simp only [Stats.tally, Nat.zero_add] at hkinds
      simp only [dictionaryBound, Deflate.kParamBytes, Deflate.kLitLenAlphabetSize,
        Deflate.kDistAlphabetSize, kLz77ParamBytes]
      omega
  | deflate =>
      obtain ⟨p, hplan, hp⟩ := Deflate.plan_spec hok data
      exact ⟨p.total, by rw [predictedTotal, hplan]; rfl, Deflate.total_le hp⟩

/-- A block takes what is predicted or what it is, whichever is less. -/
theorem payload_le_total (hok : algorithm.Accepts config) {data : List UInt8} (hdata : data ≠ [])
    (hlt : data.length < 2 ^ 59) {total : Nat}
    (htotal : predictedTotal algorithm data config = .ok total) :
    (blockOf algorithm config data).payload.length ≤ total := by
  obtain ⟨total', htotal', hspec⟩ := encodePayload_spec hok hdata
  have hsame := htotal'.symm.trans htotal
  cases hsame
  obtain ⟨hnone, hsome⟩ := hspec data.length
  rcases Nat.lt_or_ge total data.length with hfits | hover
  · obtain ⟨payload, hencode, hne, -, hlen⟩ := hsome hfits
    have hb := encodeBlock_blockOf hok data
    rw [encodeBlock, if_neg fun h => hdata (List.length_eq_zero_iff.mp h), hencode, bind_ok,
      if_neg fun h => hne (List.length_eq_zero_iff.mp h)] at hb
    rw [← Except.ok.inj hb]
    exact (hlen hlt).le
  · exact (payload_length_le hok hlt).trans hover

end Blocks

/-! ## Containers -/

section Containers
variable {algorithm : Algorithm} {config : Config} {data : List UInt8}

theorem length_frames_le_of {K : Nat} (chunks : List (List UInt8))
    (hK : ∀ chunk ∈ chunks, (blockOf algorithm config chunk).payload.length ≤ K) :
    (chunks.map (frameOf algorithm config)).flatten.length
      ≤ (kBlockHeaderSize + K) * chunks.length := by
  induction chunks with
  | nil => exact Nat.zero_le _
  | cons chunk chunks ih =>
      have hhead := hK chunk List.mem_cons_self
      have htail := ih fun c hc => hK c (List.mem_cons_of_mem _ hc)
      rw [List.map_cons, List.flatten_cons, List.length_append, List.length_cons, length_frameOf,
        Nat.mul_succ]
      omega

/-- A container, if no block of at most `blockSize` bytes takes more than `K`. -/
theorem length_container_le_of (hok : algorithm.Accepts config) {blockSize K : Nat}
    (hpos : data ≠ [] → 0 < blockSize) {c : List UInt8}
    (hc : container algorithm config blockSize data = .ok c)
    (hK : ∀ chunk, chunk <:+: data → chunk ≠ [] → chunk.length ≤ blockSize →
      (blockOf algorithm config chunk).payload.length ≤ K) :
    c.length ≤ kHeaderSize + (kBlockHeaderSize + K) * count blockSize data.length := by
  rcases Nat.lt_or_ge blockSize data.length with hlt | hle
  · have hdata : data ≠ [] := List.ne_nil_of_length_pos (by omega)
    rcases @container_of_lt data algorithm config _ hlt with ⟨-, hc'⟩ | ⟨-, e, he⟩
    · rw [hc'] at hc
      cases hc
      have hpayloads : ∀ chunk ∈ chunks blockSize data,
          (blockOf algorithm config chunk).payload.length ≤ K := by
        intro chunk hmem
        obtain ⟨hne, hsmall⟩ := mem_chunks_spec (hpos hdata) hmem
        refine hK chunk ?_ hne hsmall
        obtain ⟨i, -, rfl⟩ := List.mem_map.mp hmem
        exact (List.take_prefix _ _).isInfix.trans (List.drop_suffix _ _).isInfix
      have hframes := length_frames_le_of _ hpayloads
      rw [length_chunks] at hframes
      rw [List.length_append, length_header]
      omega
    · rw [he] at hc
      cases hc
  · rw [container_of_le _ _ hle] at hc
    by_cases hdata : data = []
    · rw [if_pos hdata] at hc
      cases hc
      rw [length_header]
      omega
    · rw [if_neg hdata, encodeBlock_blockOf hok] at hc
      cases hc
      have hpayload := hK data List.infix_rfl hdata hle
      have hone : 0 < count blockSize data.length :=
        (lt_count (hpos hdata)).mpr (by rw [Nat.zero_mul]; exact List.length_pos_iff.mpr hdata)
      have hmul := Nat.le_mul_of_pos_right (kBlockHeaderSize + K) hone
      rw [List.length_append, length_header]
      omega

end Containers

theorem valid_of_accepts {algorithm : Algorithm} {config : Config}
    (hok : algorithm.Accepts config) (hdict : algorithm ≠ .huffman) : config.Valid := by
  cases algorithm with
  | huffman => exact absurd rfl hdict
  | lz77 => exact hok
  | deflate => exact hok.valid

/-- The tokens of a block of `size` bytes with period `d`. -/
def periodicTokens (config : Config) (d size : Nat) : Nat :=
  d + size / (config.minMatch.toNat + 255) + config.minMatch.toNat

theorem payload_le_of_reaches {algorithm : Algorithm} {config : Config} {data chunk : List UInt8}
    {d size : Nat} (h : Reaches data config d) (hok : algorithm.Accepts config)
    (hdict : algorithm ≠ .huffman) (hchunk : chunk <:+: data) (hne : chunk ≠ [])
    (hsize : chunk.length ≤ size) (hlt : chunk.length < 2 ^ 59) :
    (blockOf algorithm config chunk).payload.length
      ≤ dictionaryBound (periodicTokens config d size) := by
  obtain ⟨total, htotal, hle⟩ := predictedTotal_le hok hdict chunk
  have hpart : Reaches chunk config d := { h with period := h.period.infix hchunk }
  have htokens := hpart.length_parse_start (valid_of_accepts hok hdict) (Nat.zero_le _)
  have hdiv : (chunk.length - d) / (config.minMatch.toNat + 255)
      ≤ size / (config.minMatch.toNat + 255) := Nat.div_le_div_right (by omega)
  refine (payload_le_total hok hne hlt htotal).trans (hle.trans ?_)
  unfold dictionaryBound periodicTokens
  omega

/-- **Containers of repetitive data are small.**  Where a period of the data is in reach, the
dictionary methods spend a constant on each block, and six bytes for a full match on what
follows the first period. -/
theorem periodic_container (env : Environment) {data : List UInt8} {options : Options} {d : Nat}
    (hok : options.algorithm.Accepts options.lz77) (hdict : options.algorithm ≠ .huffman)
    (hlt : data.length < 2 ^ 59) (h : Reaches data options.lz77 d) :
    ∃ c, compress env data options = .ok c ∧
      c.length ≤ 14 + (9 + dictionaryBound (periodicTokens options.lz77 d
        (min data.length (memoryBlockSize options data))))
          * count (memoryBlockSize options data) data.length := by
  have hmax : data.length ≤ maxSize := by
    unfold maxSize
    omega
  obtain ⟨c, hc⟩ := container_accepted hok (memoryBlockSize options data) data
  refine ⟨c, compress_ok env hmax hc, length_container_le_of hok (fun hdata => ?_) hc ?_⟩
  · have hlength := List.length_pos_iff.mpr hdata
    unfold memoryBlockSize
    split
    case isTrue hpos => exact hpos
    case isFalse => exact hlength
  · intro chunk hchunk hne hsize
    have hlength := hchunk.length_le
    exact payload_le_of_reaches h hok hdict hchunk hne (by omega) (by omega)

theorem periodic_container_run :
    ∃ c, compress reversed (List.replicate 2000 7) {} = .ok c ∧ c.length ≤ 409 := by
  obtain ⟨c, hc, hle⟩ := @periodic_container reversed _ {} _ (by decide) (by decide)
    (by rw [List.length_replicate]; decide) (reaches_replicate (by decide) 2000 7)
  rw [List.length_replicate] at hle
  exact ⟨c, hc, hle⟩

end Compressly

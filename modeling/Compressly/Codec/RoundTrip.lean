/-
# `Compressly.Codec.RoundTrip` — a container decodes, and is needed to its last byte

`container_tight`: the container of a block size decodes to the data, and none
of its strict prefixes decodes at all.  Both encoders write such a container and
both decoders agree, so all four combinations are lossless (`lossless`), and
every truncation is detected (`truncation_detected`).

A frame cuts its lengths to four bytes; hence the bound on the block size.
-/
import Compressly.Codec.Decode
import Compressly.Codec.Stream

namespace Compressly

open Endian Parse Loop Chunks LZ77

/-! ## The header -/

theorem readHeader_header {method : Method} (hnamed : ∀ byte, method ≠ .unnamed byte)
    {originalSize : Nat} (hsize : originalSize < 2 ^ 64) :
    readHeader (header method originalSize) = .ok (method, originalSize) := by
  have hlen : (header method originalSize).length = 14 := length_header method originalSize
  have hfield : ((header method originalSize).drop 6).take 8 = leBytes 8 originalSize := by
    change (leBytes 8 originalSize).take 8 = _
    rw [List.take_of_length_le (length_leBytes 8 _).le]
  have hvalue : leValue (leBytes 8 originalSize) = originalSize := by
    rw [leValue_leBytes]
    exact Nat.mod_eq_of_lt hsize
  have hmagic : slice (header method originalSize) 0 kMagic.length = .ok kMagic :=
    slice_of_le (by rw [hlen]; decide)
  have hversion : fetch (header method originalSize) 4 = .ok kFormatVersion := rfl
  have hmethod : fetch (header method originalSize) 5 = .ok method.toByte := rfl
  rw [readHeader, hmagic, bind_ok, if_neg (not_not.mpr rfl), hversion, bind_ok,
    if_neg (not_not.mpr rfl), hmethod, bind_ok, readU64LE_eq (by omega), bind_ok, hfield, hvalue,
    Method.ofByte_toByte hnamed]
  rfl

/-- A header before a payload that is needed to its last byte. -/
theorem tight_header {method : Method} (hnamed : ∀ byte, method ≠ .unnamed byte)
    {data payload : List UInt8} (hsize : data.length < 2 ^ 64)
    (h : Tight (fun payload => decompressPayload method payload data.length) data payload) :
    Tight decompress data (header method data.length ++ payload) := by
  have hread := readHeader_header hnamed hsize
  have hlen := length_header method data.length
  have hsplit : ∀ p, decompress (header method data.length ++ p)
      = decompressPayload method p data.length := by
    intro p
    rw [decompress_of_le (by rw [List.length_append]; omega), ← hlen, List.take_left,
      List.drop_left, hread]
    rfl
  refine ⟨(hsplit payload).trans h.decodes, fun p s hp hs => ?_⟩
  rcases Nat.lt_or_ge p.length kHeaderSize with hlt | hge
  · exact ⟨_, decompress_of_lt hlt⟩
  · obtain ⟨p', rfl⟩ : header method data.length <+: p :=
      List.prefix_of_prefix_length_le ⟨payload, rfl⟩ ⟨s, hp.symm⟩ (hlen.trans_le hge)
    rw [List.append_assoc] at hp
    rw [hsplit]
    exact h.truncated p' s (List.append_cancel_left hp) hs

/-! ## The blocks -/

theorem stable_blockParser (originalSize : Nat) (out : List UInt8) :
    Stable (blockParser originalSize out) :=
  (stable_chunk (Error.corruptInput "truncated block header") kBlockHeaderSize).bind fun header =>
    stable_lift_bind (x := readFrame header) fun frame =>
      (stable_chunk (Error.corruptInput "truncated block payload") frame.compressed).bind
        fun payload =>
          stable_lift_bind (x := extendBlock originalSize out frame payload) fun out =>
            stable_pure out

/-- A block whose lengths fit in four bytes. -/
structure Fits (chunk : List UInt8) (block : EncodedBlock) : Prop extends Encodes chunk block where
  chunk_lt : chunk.length < 2 ^ 32
  payload_lt : block.payload.length < 2 ^ 32

theorem readFrame_frameHeader {chunk : List UInt8} {block : EncodedBlock} (h : Fits chunk block) :
    readFrame (frameHeader chunk.length block) = .ok
      { uncompressed := chunk.length, compressed := block.payload.length,
        method := block.method } := by
  have hvalue : ∀ n < 2 ^ 32, leValue (leBytes 4 n) = n := by
    intro n hn
    rw [leValue_leBytes]
    exact Nat.mod_eq_of_lt hn
  have hfirst : (frameHeader chunk.length block).take 4 = leBytes 4 chunk.length := rfl
  have hsecond : ((frameHeader chunk.length block).drop 4).take 4
      = leBytes 4 block.payload.length := rfl
  have hlast : (frameHeader chunk.length block).getD 8 0 = block.method.toByte := rfl
  rw [readFrame_eq (length_frameHeader _ _), hfirst, hsecond, hlast, hvalue _ h.chunk_lt,
    hvalue _ h.payload_lt, Method.ofByte_toByte h.named]

/-- One round on a frame that was written. -/
theorem blockParser_framed {originalSize : Nat} {out chunk : List UInt8} {block : EncodedBlock}
    (h : Fits chunk block) (hroom : out.length + chunk.length ≤ originalSize)
    (rest : List UInt8) :
    blockParser originalSize out (framed chunk.length block ++ rest)
      = .ok (out ++ chunk, rest) := by
  have hheader := chunk_append (Error.corruptInput "truncated block header")
    (frameHeader chunk.length block) (block.payload ++ rest)
  rw [length_frameHeader] at hheader
  have hpayload := chunk_append (Error.corruptInput "truncated block payload") block.payload rest
  have hextend : extendBlock originalSize out
      { uncompressed := chunk.length, compressed := block.payload.length, method := block.method }
      block.payload = .ok (out ++ chunk) := by
    rw [extendBlock, minus_of_le (by omega), bind_ok, if_neg (by simp only []; omega),
      decodeFrame_eq, h.tight.decodes]
    rfl
  rw [blockParser, framed, List.append_assoc, hheader]
  simp only [bind_ok, readFrame_frameHeader h, hpayload, hextend]
  rfl

/-- The rounds over the frames of chunks none of which is empty. -/
theorem run_frames {algorithm : Algorithm} {config : Config} {originalSize : Nat}
    (chunks : List (List UInt8)) (hne : ∀ chunk ∈ chunks, chunk ≠ [])
    (hfits : ∀ chunk ∈ chunks, Fits chunk (blockOf algorithm config chunk))
    (out : List UInt8) (hsize : out.length + chunks.flatten.length = originalSize) :
    Run (unfinished originalSize) (blockParser originalSize) out
      (chunks.map (frameOf algorithm config)).flatten (out ++ chunks.flatten) [] := by
  induction chunks generalizing out with
  | nil =>
      rw [List.flatten_nil, List.append_nil]
      exact .done (decide_eq_false (by simpa using hsize.ge))
  | cons chunk chunks ih =>
      have hpos := List.length_pos_iff.mpr (hne chunk List.mem_cons_self)
      rw [List.flatten_cons, List.length_append] at hsize
      rw [List.map_cons, List.flatten_cons, List.flatten_cons, ← List.append_assoc]
      refine .step (decide_eq_true (by omega))
        (blockParser_framed (hfits chunk List.mem_cons_self) (by omega) _) ?_
      refine ih (fun c hc => hne c (List.mem_cons_of_mem _ hc))
        (fun c hc => hfits c (List.mem_cons_of_mem _ hc)) (out ++ chunk) ?_
      rw [List.length_append]
      omega

/-- The frames of a container are needed to their last byte: behind every cut the data is
not complete. -/
theorem tight_frames {algorithm : Algorithm} {config : Config} {data : List UInt8}
    {chunks : List (List UInt8)} (hdata : chunks.flatten = data)
    (hne : ∀ chunk ∈ chunks, chunk ≠ [])
    (hfits : ∀ chunk ∈ chunks, Fits chunk (blockOf algorithm config chunk)) :
    Tight (fun payload => decompressBlocked payload data.length) data
      (chunks.map (frameOf algorithm config)).flatten := by
  have hrun : Run (unfinished data.length) (blockParser data.length) []
      (chunks.map (frameOf algorithm config)).flatten data [] := by
    have hrun := run_frames chunks hne hfits [] rfl
    rwa [List.nil_append, List.length_nil, Nat.zero_add, hdata] at hrun
  have hstart : ∀ p, Cursor.rest { data := p } = p := fun p => List.drop_zero
  have hsim : ∀ s, Simulates Cursor.rest ((blockBody data.length).run s)
      (blockParser data.length s) := simulates_blockRound data.length
  obtain ⟨c, hloop, hrest⟩ := loop_of_run hsim hrun (hstart _)
  refine tight_of_stream (fun c : Cursor => c.rest.length) 1 (fun p a r s hp => ?_) hloop
    (by rw [hrest]; exact Nat.one_pos)
  have hlonger : Cursor.rest { data := p ++ s } = Cursor.rest { data := p } ++ s := by
    rw [hstart, hstart]
  obtain ⟨r', hlong, hr'⟩ := loop_append hsim (stable_blockParser data.length) hp hlonger
  exact ⟨r', hlong, by rw [hr', List.length_append, Nat.one_mul]⟩

/-! ## Containers -/

section Containers
variable {algorithm : Algorithm} {config : Config} {data : List UInt8}

theorem encodeBlock_blockOf (hok : algorithm.Accepts config) (chunk : List UInt8) :
    encodeBlock chunk algorithm config = .ok (blockOf algorithm config chunk) := by
  rcases encodeBlock_cases algorithm config chunk with h | ⟨e, he⟩
  · exact h
  · obtain ⟨b, hb, -⟩ := encodeBlock_spec hok chunk
    rw [hb] at he
    cases he

theorem encodes_blockOf (hok : algorithm.Accepts config) (chunk : List UInt8) :
    Encodes chunk (blockOf algorithm config chunk) := by
  obtain ⟨b, hb, hencodes⟩ := encodeBlock_spec hok chunk
  rw [encodeBlock_blockOf hok] at hb
  cases hb
  exact hencodes

/-- A chunk below 4 GiB fits, and so does its block, which is no longer. -/
theorem fits_blockOf (hok : algorithm.Accepts config) {chunk : List UInt8}
    (hlt : chunk.length < 2 ^ 32) : Fits chunk (blockOf algorithm config chunk) := by
  have hencodes := encodes_blockOf hok chunk
  refine { hencodes with chunk_lt := hlt, payload_lt := ?_ }
  rcases hencodes.payload_length (by omega) with ⟨-, hpayload⟩ | ⟨-, hpayload⟩
  · rwa [hpayload]
  · omega

theorem mem_chunks_spec {blockSize : Nat} (hpos : 0 < blockSize) {chunk : List UInt8}
    (hmem : chunk ∈ chunks blockSize data) : chunk ≠ [] ∧ chunk.length ≤ blockSize := by
  obtain ⟨i, hi, rfl⟩ := List.mem_map.mp hmem
  refine ⟨piece_ne_nil hpos (List.mem_range.mp hi), ?_⟩
  rw [length_piece]
  exact Nat.min_le_left _ _

theorem tight_single (hok : algorithm.Accepts config) (hsize : data.length < 2 ^ 64) :
    Tight decompress data
      (header (blockOf algorithm config data).method data.length
        ++ (blockOf algorithm config data).payload) := by
  have hencodes := encodes_blockOf hok data
  refine tight_header hencodes.named hsize ?_
  simp only [decompressPayload, if_neg hencodes.not_blocked]
  exact hencodes.tight

theorem tight_blocked (hok : algorithm.Accepts config) {blockSize : Nat} (hpos : 0 < blockSize)
    (hlt : blockSize < 2 ^ 32) (hsize : data.length < 2 ^ 64) :
    Tight decompress data (header .blocked data.length
      ++ ((chunks blockSize data).map (frameOf algorithm config)).flatten) := by
  refine tight_header (fun byte => by simp) hsize ?_
  simp only [decompressPayload, if_true]
  exact tight_frames (flatten_chunks hpos data) (fun chunk hmem => (mem_chunks_spec hpos hmem).1)
    fun chunk hmem => fits_blockOf hok ((mem_chunks_spec hpos hmem).2.trans_lt hlt)

/-- The container of a block size, for a configuration the algorithm accepts. -/
theorem container_tight (hok : data ≠ [] → algorithm.Accepts config)
    (hmax : data.length ≤ maxSize) {blockSize : Nat}
    (hsize : blockSize < data.length → 0 < blockSize ∧ blockSize < 2 ^ 32) :
    ∃ c, container algorithm config blockSize data = .ok c ∧ Tight decompress data c := by
  have hlen : data.length < 2 ^ 64 := by
    unfold maxSize at hmax
    omega
  by_cases hdata : data = []
  · subst hdata
    have htight : Tight decompress [] (header .stored 0 ++ []) :=
      tight_header (fun byte => by simp) hlen (encodes_stored []).tight
    rw [List.append_nil] at htight
    exact ⟨_, rfl, htight⟩
  have hok := hok hdata
  rcases Nat.lt_or_ge blockSize data.length with hlt | hle
  · obtain ⟨hpos, hsmall⟩ := hsize hlt
    rcases @container_of_lt data algorithm config _ hlt with ⟨-, hc⟩ | ⟨⟨chunk, -, e, he⟩, -⟩
    · exact ⟨_, hc, tight_blocked hok hpos hsmall hlen⟩
    · rw [encodeBlock_blockOf hok] at he
      cases he
  · refine ⟨_, ?_, tight_single hok hlen⟩
    rw [container_of_le _ _ hle, if_neg hdata, encodeBlock_blockOf hok]
    rfl

end Containers

/-! ## Lossless -/

section Lossless
variable {data : List UInt8} {options : Options}

/-- The encoder in memory returns a container that is needed to its last byte. -/
theorem compress_tight (env : Environment)
    (hok : data ≠ [] → options.algorithm.Accepts options.lz77) (hmax : data.length ≤ maxSize)
    (hblock : options.blockSize < 2 ^ 32) :
    ∃ c, compress env data options = .ok c ∧ Tight decompress data c := by
  have hsize : memoryBlockSize options data < data.length →
      0 < memoryBlockSize options data ∧ memoryBlockSize options data < 2 ^ 32 := by
    intro hlt
    rcases memoryBlockSize_cases options data with ⟨-, hle⟩ | ⟨hpos, -, heq⟩
    · omega
    · rw [heq]
      exact ⟨hpos, hblock⟩
  obtain ⟨c, hc, htight⟩ := container_tight hok hmax hsize
  exact ⟨c, compress_ok env hmax hc, htight⟩

/-- The streaming encoder writes one. -/
theorem compressStream_tight (env : Environment)
    (hok : data ≠ [] → options.algorithm.Accepts options.lz77) (hmax : data.length ≤ maxSize)
    (hblock : options.blockSize < 2 ^ 32) :
    ∃ c, compressStream env data data.length options = { written := c, result := .ok () } ∧
      Tight decompress data c := by
  have hsize : streamBlockSize options < data.length →
      0 < streamBlockSize options ∧ streamBlockSize options < 2 ^ 32 := by
    intro _
    refine ⟨streamBlockSize_pos options, ?_⟩
    unfold streamBlockSize kDefaultBlockSize
    split <;> omega
  obtain ⟨c, hc, htight⟩ := container_tight hok hmax hsize
  exact ⟨c, compressStream_ok env (fits_of_le_maxSize hmax) hc, htight⟩

/-- Below 4 GiB of data the block size does not matter. -/
theorem compress_tight_of_lt (env : Environment)
    (hok : data ≠ [] → options.algorithm.Accepts options.lz77) (hlen : data.length < 2 ^ 32) :
    ∃ c, compress env data options = .ok c ∧ Tight decompress data c := by
  have hmax : data.length ≤ maxSize := by
    unfold maxSize
    omega
  have hsize : memoryBlockSize options data < data.length →
      0 < memoryBlockSize options data ∧ memoryBlockSize options data < 2 ^ 32 := by
    intro hlt
    rcases memoryBlockSize_cases options data with ⟨-, hle⟩ | ⟨hpos, -, heq⟩
    · omega
    · rw [heq] at hlt ⊢
      exact ⟨hpos, hlt.trans hlen⟩
  obtain ⟨c, hc, htight⟩ := container_tight hok hmax hsize
  exact ⟨c, compress_ok env hmax hc, htight⟩

theorem compressStream_tight_of_lt (env : Environment)
    (hok : data ≠ [] → options.algorithm.Accepts options.lz77) (hlen : data.length < 2 ^ 32) :
    ∃ c, compressStream env data data.length options = { written := c, result := .ok () } ∧
      Tight decompress data c := by
  have hmax : data.length ≤ maxSize := by
    unfold maxSize
    omega
  obtain ⟨c, hc, htight⟩ := container_tight hok hmax
    fun hlt => ⟨streamBlockSize_pos options, hlt.trans hlen⟩
  exact ⟨c, compressStream_ok env (fits_of_le_maxSize hmax) hc, htight⟩

/-- What decodes in memory is written by the streaming decoder. -/
theorem decompressStream_ok {c : List UInt8} (h : decompress c = .ok data) :
    decompressStream c = { written := data, result := .ok () } := by
  rcases decompress_agree c with ⟨x, hmem, hstream⟩ | ⟨what, what', hmem, -⟩
  · rw [h] at hmem
    cases hmem
    exact hstream
  · rw [h] at hmem
    cases hmem

/-- The options an encoder refuses data for, field by field. -/
def Refused (data : List UInt8) (options : Options) : Prop :=
  data ≠ [] ∧
    ((options.algorithm = .lz77 ∧
        (options.lz77.windowBits < 8 ∨ 16 < options.lz77.windowBits ∨
          options.lz77.minMatch < 3 ∨ 8 < options.lz77.minMatch ∨
          options.lz77.maxChainLength < 1)) ∨
      (options.algorithm = .deflate ∧
        (options.lz77.minMatch ≠ 3 ∨ options.lz77.windowBits < 8 ∨
          15 < options.lz77.windowBits ∨ options.lz77.maxChainLength < 1)))

theorem refused_iff : Refused data options ↔
    data ≠ [] ∧ ¬ options.algorithm.Accepts options.lz77 := by
  rw [Refused, not_accepts_iff]

/-- **Lossless.**  Refused options are rejected with `std::invalid_argument` by both
encoders, and no others are; what either encoder then writes, both decoders turn back into
the data. -/
theorem lossless (env : Environment) (data : List UInt8) (options : Options)
    (hmax : data.length ≤ maxSize) (hblock : options.blockSize ≤ 2 ^ 32 - 1) :
    (Refused data options → Rejects (compress env data options) ∧
        Rejects (compressStream env data data.length options).result) ∧
      (¬ Refused data options →
        (∃ c, compress env data options = .ok c ∧ decompress c = .ok data ∧
          decompressStream c = { written := data, result := .ok () }) ∧
        ∃ c, compressStream env data data.length options = { written := c, result := .ok () } ∧
          decompress c = .ok data ∧
          decompressStream c = { written := data, result := .ok () }) := by
  rw [refused_iff]
  refine ⟨fun ⟨hdata, hbad⟩ => ?_, fun h => ?_⟩
  · exact ⟨compress_rejects env hmax hbad hdata, compressStream_rejects env hmax hbad hdata⟩
  · have hok : data ≠ [] → options.algorithm.Accepts options.lz77 :=
      fun hdata => not_not.mp fun hbad => h ⟨hdata, hbad⟩
    obtain ⟨c, hc, htight⟩ := compress_tight env hok hmax (by omega)
    obtain ⟨c', hc', htight'⟩ := compressStream_tight env hok hmax (by omega)
    exact ⟨⟨c, hc, htight.decodes, decompressStream_ok htight.decodes⟩,
      c', hc', htight'.decodes, decompressStream_ok htight'.decodes⟩

theorem lossless_run :
    (∃ c, compress reversed [7, 7, 7] { blockSize := 2, threads := 0 } = .ok c ∧
        decompress c = .ok [7, 7, 7] ∧
        decompressStream c = { written := [7, 7, 7], result := .ok () }) ∧
      ∃ c, compressStream reversed [7, 7, 7] 3 { blockSize := 2, threads := 0 }
          = { written := c, result := .ok () } ∧
        decompress c = .ok [7, 7, 7] ∧
        decompressStream c = { written := [7, 7, 7], result := .ok () } :=
  (lossless reversed [7, 7, 7] { blockSize := 2, threads := 0 } (by decide) (by decide)).2
    (by rw [refused_iff]; decide)

/-- **Every truncation is detected.**  The decoder throws `CorruptInput` on every strict
prefix of what the encoder returned. -/
theorem truncation_detected (env : Environment) (data : List UInt8) (options : Options)
    (hmax : data.length ≤ maxSize) (hblock : options.blockSize ≤ 2 ^ 32 - 1) {c : List UInt8}
    (hc : compress env data options = .ok c) {p : List UInt8} (hstart : p <+: c) (hne : p ≠ c) :
    ∃ what, decompress p = .error (.corruptInput what) := by
  have hok : data ≠ [] → options.algorithm.Accepts options.lz77 := by
    intro hdata
    by_contra hbad
    obtain ⟨what, hwhat⟩ := compress_rejects env hmax hbad hdata
    rw [hc] at hwhat
    cases hwhat
  obtain ⟨c', hc', htight⟩ := compress_tight env hok hmax (by omega)
  rw [hc] at hc'
  cases hc'
  obtain ⟨s, hs⟩ := hstart
  have hcut : s ≠ [] := by
    rintro rfl
    exact hne (by rw [← hs, List.append_nil])
  obtain ⟨e, he⟩ := htight.truncated p s hs.symm hcut
  rcases decompress_agree p with ⟨out, hout, -⟩ | ⟨what, -, hcorrupt, -⟩
  · rw [he] at hout
    cases hout
  · exact ⟨what, hcorrupt⟩

/-- Cut inside the frame of the second block. -/
theorem truncation_detected_run :
    ∃ what, decompress ([67, 77, 80, 82, 1, 4, 3, 0, 0, 0, 0, 0, 0, 0]
        ++ [2, 0, 0, 0, 2, 0, 0, 0, 0, 7, 7] ++ [1, 0]) = .error (.corruptInput what) :=
  truncation_detected reversed [7, 7, 7] { algorithm := .lz77, blockSize := 2 }
    (by decide) (by decide) (by decide +kernel :
      compress reversed [7, 7, 7] { algorithm := .lz77, blockSize := 2 }
        = .ok ([67, 77, 80, 82, 1, 4, 3, 0, 0, 0, 0, 0, 0, 0]
          ++ [2, 0, 0, 0, 2, 0, 0, 0, 0, 7, 7] ++ [1, 0, 0, 0, 1, 0, 0, 0, 0, 7]))
    (by decide) (by decide)

end Lossless

end Compressly

/-
# `Compressly.Codec.Buffers` — what the streaming decoder allocates

A round of `decompressStream` has two buffers: the payload, made as large as the frame
says before a byte of it is read, and the block it decodes to.  On an archive neither
is larger than the block size (`decoder_memory`).  On other input the first is as large
as the frame claims, whatever is there to be read (`payload_claimed`); the second is
still bounded by the payload that was read.
-/
import Compressly.Codec.Independence
import Compressly.Codec.Expansion

namespace Compressly

open Endian Parse Chunks

/-- The loop of `decompressStream`, at the head of a round. -/
structure Decoder where
  produced : Nat
  input : List UInt8

/-- A round that does not throw. -/
inductive DecoderStep (originalSize : Nat) : Decoder → Decoder → Prop
  | round {s : Decoder} {decoded rest : List UInt8} {progress : Nat} :
      s.produced < originalSize →
      streamRound originalSize s.produced s.input = .ok (decoded, progress, rest) →
      DecoderStep originalSize s { produced := s.produced + progress, input := rest }

abbrev DecoderReaches (originalSize : Nat) : Decoder → Decoder → Prop :=
  Relation.ReflTransGen (DecoderStep originalSize)

/-- The argument of `payload.resize` in the round, if it comes to that. -/
def payloadSize (originalSize : Nat) (s : Decoder) : Result Nat := do
  let (header, _) ← readExactly (.corruptInput "truncated block header") kBlockHeaderSize s.input
  let frame ← readFrame header
  let room ← minus originalSize s.produced
  if room < frame.uncompressed then throw kOverrun else pure frame.compressed

section Rounds
variable {originalSize : Nat}

/-- The states reached are those of the loop. -/
theorem streamLoop_of_reached {s t : Decoder} (h : DecoderReaches originalSize s t)
    (written : List UInt8) : ∃ more, streamLoop originalSize s.produced s.input written
      = streamLoop originalSize t.produced t.input (written ++ more) := by
  induction h with
  | refl => exact ⟨[], by rw [List.append_nil]⟩
  | tail _ hstep ih =>
      obtain ⟨more, ih⟩ := ih
      cases hstep with
      | @round decoded rest progress hmore hround =>
          refine ⟨more ++ decoded, ?_⟩
          rw [ih, streamLoop, if_pos hmore]
          split
          case h_1 e he =>
            rw [hround] at he
            cases he
          case h_2 decoded' progress' rest' he =>
            rw [hround] at he
            cases he
            rw [List.append_assoc]

/-- A frame says less than 4 GiB. -/
theorem payloadSize_lt {s : Decoder} {n : Nat} (h : payloadSize originalSize s = .ok n) :
    n < 2 ^ 32 := by
  unfold payloadSize at h
  obtain ⟨⟨header, rest⟩, hheader, h⟩ := bind_eq_ok.mp h
  obtain ⟨frame, hframe, h⟩ := bind_eq_ok.mp h
  obtain ⟨room, -, h⟩ := bind_eq_ok.mp h
  rw [readExactly_eq] at hheader
  rw [readFrame_eq (chunk_length hheader).1] at hframe
  by_cases hroom : room < frame.uncompressed
  · simp only [if_pos hroom] at h
    cases h
  · simp only [if_neg hroom] at h
    cases h
    cases hframe
    refine (leValue_lt _).trans_le ?_
    calc 256 ^ ((header.drop 4).take 4).length ≤ 256 ^ 4 :=
          Nat.pow_le_pow_right (by decide) (List.length_take_le _ _)
      _ = 2 ^ 32 := by decide

/-- What a round decodes, against the buffer and against what it has read. -/
theorem streamRound_buffers {s : Decoder} {decoded rest : List UInt8} {progress : Nat}
    (h : streamRound originalSize s.produced s.input = .ok (decoded, progress, rest)) :
    ∃ n, payloadSize originalSize s = .ok n ∧
      s.input.length = kBlockHeaderSize + n + rest.length ∧
      decoded.length ≤ kMaxExpansionPerPayloadByte * n := by
  unfold streamRound at h
  obtain ⟨⟨header, input₁⟩, hheader, h⟩ := bind_eq_ok.mp h
  obtain ⟨frame, hframe, h⟩ := bind_eq_ok.mp h
  obtain ⟨room, hroom, h⟩ := bind_eq_ok.mp h
  by_cases hover : room < frame.uncompressed
  · rw [if_pos hover] at h
    cases h
  · rw [if_neg hover] at h
    obtain ⟨⟨payload, input₂⟩, hpayload, h⟩ := bind_eq_ok.mp h
    obtain ⟨decoded', hdecoded, h⟩ := bind_eq_ok.mp h
    cases h
    have hsize : payloadSize originalSize s = .ok frame.compressed := by
      rw [payloadSize, hheader]
      simp only [bind_ok, hframe, hroom, if_neg hover]
      rfl
    rw [readExactly_eq] at hheader hpayload
    have h₁ := chunk_length hheader
    have h₂ := chunk_length hpayload
    refine ⟨frame.compressed, hsize, by omega, ?_⟩
    rw [decodeFrame_eq] at hdecoded
    rw [← h₂.1]
    exact decodeBlock_expansion hdecoded

end Rounds

/-! ## Archives -/

section Archives
variable {data c : List UInt8} {options : Options}

/-- What is left of an archive: the frames of some of its blocks, and as many bytes to produce. -/
def OnArchive (data : List UInt8) (options : Options) (s : Decoder) : Prop :=
  ∃ is : List Nat, (∀ i ∈ is, i < count options.blockSize data.length) ∧
    s.input = (is.map (frameAt data options)).flatten ∧
    s.produced + ((is.map (piece options.blockSize data)).flatten).length = data.length

theorem Blocked.onArchive (h : Blocked data options c) :
    OnArchive data options { produced := 0, input := c.drop kHeaderSize } := by
  refine ⟨List.range (count options.blockSize data.length), fun i hi => List.mem_range.mp hi,
    ?_, ?_⟩
  · have hheader : (header .blocked data.length).length = kHeaderSize := length_header _ _
    rw [h.frames, ← hheader, List.drop_left]
  · rw [Nat.zero_add, ← chunks, flatten_chunks h.pos]

/-- A round on an archive takes the frame of a block. -/
theorem OnArchive.round (hb : Blocked data options c) {s : Decoder}
    (h : OnArchive data options s) (hmore : s.produced < data.length) :
    ∃ i rest, streamRound data.length s.produced s.input
        = .ok (piece options.blockSize data i, (piece options.blockSize data i).length, rest) ∧
      s.input.length
        ≤ kBlockHeaderSize + (piece options.blockSize data i).length + rest.length ∧
      OnArchive data options
        { produced := s.produced + (piece options.blockSize data i).length, input := rest } := by
  obtain ⟨is, his, hinput, hproduced⟩ := h
  cases is with
  | nil =>
      simp only [List.map_nil, List.flatten_nil, List.length_nil] at hproduced
      omega
  | cons i is =>
      rw [List.map_cons, List.flatten_cons, List.length_append] at hproduced
      obtain ⟨-, block, hfits, hframe⟩ := hb.frame i (his i List.mem_cons_self)
      have hroom : (piece options.blockSize data i).length ≤ data.length - s.produced := by omega
      have hnext := nextBlock_framed hfits hroom ((is.map (frameAt data options)).flatten)
      have hround := @streamRound_eq data.length s.input s.produced (Nat.le_of_lt hmore)
      rw [hinput, List.map_cons, List.flatten_cons, hframe] at hround ⊢
      rw [hnext] at hround
      have hpayload : block.payload.length ≤ (piece options.blockSize data i).length := by
        have hchunk := hfits.chunk_lt
        rcases hfits.payload_length (by omega) with ⟨-, hstored⟩ | ⟨-, hshorter⟩
        · rw [hstored]
        · exact hshorter.le
      refine ⟨i, _, hround, ?_, is, fun j hj => his j (List.mem_cons_of_mem _ hj), rfl, ?_⟩
      · rw [List.length_append, framed, List.length_append, length_frameHeader]
        omega
      · rw [Nat.add_assoc]
        exact hproduced

theorem onArchive_of_reached (hb : Blocked data options c) {s : Decoder}
    (h : DecoderReaches data.length { produced := 0, input := c.drop kHeaderSize } s) :
    OnArchive data options s := by
  induction h with
  | refl => exact hb.onArchive
  | tail _ hstep ih =>
      cases hstep with
      | @round decoded rest progress hmore hround =>
          obtain ⟨i, rest', hround', -, hnext⟩ := ih.round hb hmore
          rw [hround] at hround'
          cases hround'
          exact hnext

end Archives

/-- **The memory of the streaming decoder.**  In every round on an archive that `compress` made in
several blocks, the payload buffer and the decoded block are no larger than the block size. -/
theorem decoder_memory {env : Environment} {data c : List UInt8} {options : Options}
    (hc : compress env data options = .ok c) (hmax : data.length ≤ maxSize)
    (hblock : options.blockSize < 2 ^ 32) (hmulti : shouldBlock data.length options = true)
    {s : Decoder}
    (hs : DecoderReaches data.length { produced := 0, input := c.drop kHeaderSize } s)
    (hmore : s.produced < data.length) :
    ∃ n decoded progress rest, payloadSize data.length s = .ok n ∧
      streamRound data.length s.produced s.input = .ok (decoded, progress, rest) ∧
      n ≤ options.blockSize ∧ decoded.length ≤ options.blockSize := by
  have hb := blocked_of_compress hc hmax hblock hmulti
  obtain ⟨i, rest, hround, hinput, -⟩ := (onArchive_of_reached hb hs).round hb hmore
  obtain ⟨n, hsize, hread, -⟩ := streamRound_buffers hround
  have hpiece : (piece options.blockSize data i).length ≤ options.blockSize := by
    rw [length_piece]
    exact Nat.min_le_left _ _
  exact ⟨n, _, _, rest, hsize, hround, by omega, hpiece⟩

/-- The first of two blocks. -/
theorem decoder_memory_run :
    ∃ n decoded progress rest,
      payloadSize 3 { produced := 0, input := [2, 0, 0, 0, 2, 0, 0, 0, 0, 7, 7]
        ++ [1, 0, 0, 0, 1, 0, 0, 0, 0, 9] } = .ok n ∧
      streamRound 3 0 ([2, 0, 0, 0, 2, 0, 0, 0, 0, 7, 7] ++ [1, 0, 0, 0, 1, 0, 0, 0, 0, 9])
        = .ok (decoded, progress, rest) ∧
      n ≤ 2 ∧ decoded.length ≤ 2 := by
  have hc : compress reversed [7, 7, 9] { algorithm := .lz77, blockSize := 2 }
      = .ok ([67, 77, 80, 82, 1, 4, 3, 0, 0, 0, 0, 0, 0, 0]
        ++ ([2, 0, 0, 0, 2, 0, 0, 0, 0, 7, 7] ++ [1, 0, 0, 0, 1, 0, 0, 0, 0, 9])) := by
    decide +kernel
  exact decoder_memory hc (by decide) (by decide) (by decide) .refl (by decide)

/-! ## Claims -/

/-- A frame that claims a stored block. -/
def claim (uncompressed compressed : Nat) : List UInt8 :=
  leBytes 4 uncompressed ++ leBytes 4 compressed ++ [Method.stored.toByte]

theorem length_claim (uncompressed compressed : Nat) :
    (claim uncompressed compressed).length = kBlockHeaderSize := by
  simp [claim, kBlockHeaderSize]

theorem readFrame_claim {uncompressed compressed : Nat} (huncompressed : uncompressed < 2 ^ 32)
    (hcompressed : compressed < 2 ^ 32) :
    readFrame (claim uncompressed compressed)
      = .ok { uncompressed := uncompressed, compressed := compressed, method := .stored } := by
  have hfirst : (claim uncompressed compressed).take 4 = leBytes 4 uncompressed := rfl
  have hsecond : ((claim uncompressed compressed).drop 4).take 4 = leBytes 4 compressed := rfl
  have hthird : (claim uncompressed compressed).getD 8 0 = Method.stored.toByte := rfl
  rw [readFrame_eq (length_claim _ _), hfirst, hsecond, hthird,
    leValue_leBytes_of_lt huncompressed, leValue_leBytes_of_lt hcompressed]
  rfl

/-- A frame with nothing behind it: the buffer is made, and nothing comes to fill it. -/
theorem round_claim {n : Nat} (hpos : 0 < n) (hlt : n < 2 ^ 32) :
    payloadSize 1 { produced := 0, input := claim 1 n } = .ok n ∧
      streamRound 1 0 (claim 1 n) = .error (.corruptInput "truncated block payload") := by
  have hread : readExactly (.corruptInput "truncated block header") kBlockHeaderSize (claim 1 n)
      = .ok (claim 1 n, []) := by
    have hchunk := chunk_append (.corruptInput "truncated block header" : Error) (claim 1 n) []
    rwa [length_claim, List.append_nil, ← readExactly_eq] at hchunk
  have hframe := readFrame_claim (by decide : 1 < 2 ^ 32) hlt
  have hempty : readExactly (.corruptInput "truncated block payload") n []
      = .error (.corruptInput "truncated block payload") := by
    rw [readExactly_eq, chunk, if_pos (by rwa [List.length_nil])]
  constructor
  · simp only [payloadSize, hread, bind_ok, hframe, minus_of_le (Nat.zero_le 1)]
    rfl
  · simp only [streamRound, hread, bind_ok, hframe, minus_of_le (Nat.zero_le 1)]
    rw [if_neg (by decide), hempty]
    rfl

/-- **The claim of a frame is believed.**  The payload buffer of a round is below 4 GiB, and what
the round decodes is bounded by the payload it has read; but any size below 4 GiB is allocated
for 23 bytes, on which both decoders then throw. -/
theorem payload_claimed :
    (∀ originalSize s n, payloadSize originalSize s = .ok n → n < 2 ^ 32) ∧
    (∀ originalSize s decoded progress rest,
      streamRound originalSize s.produced s.input = .ok (decoded, progress, rest) →
        ∃ n, payloadSize originalSize s = .ok n ∧
          s.input.length = kBlockHeaderSize + n + rest.length ∧
          decoded.length ≤ kMaxExpansionPerPayloadByte * n) ∧
    ∀ n, 0 < n → n < 2 ^ 32 → ∃ b : List UInt8, b.length = 23 ∧
      readHeader (b.take kHeaderSize) = .ok (.blocked, 1) ∧
      payloadSize 1 { produced := 0, input := b.drop kHeaderSize } = .ok n ∧
      (∃ what, (decompressStream b).result = .error (.corruptInput what)) ∧
      ∃ what, decompress b = .error (.corruptInput what) := by
  refine ⟨fun originalSize s n h => payloadSize_lt h,
    fun originalSize s decoded progress rest h => streamRound_buffers h, fun n hpos hlt => ?_⟩
  obtain ⟨hsize, hround⟩ := round_claim hpos hlt
  have hheader : (header .blocked 1).length = kHeaderSize := length_header _ _
  have htake : (header .blocked 1 ++ claim 1 n).take kHeaderSize = header .blocked 1 := by
    rw [← hheader, List.take_left]
  have hdrop : (header .blocked 1 ++ claim 1 n).drop kHeaderSize = claim 1 n := by
    rw [← hheader, List.drop_left]
  have hread : readHeader (header .blocked 1) = .ok (.blocked, 1) :=
    readHeader_header (fun byte h => by cases h) (by decide)
  have hstream : ∃ what,
      (decompressStream (header .blocked 1 ++ claim 1 n)).result = .error (.corruptInput what) := by
    have hchunk := chunk_append (.corruptInput "input is shorter than the header" : Error)
      (header .blocked 1) (claim 1 n)
    rw [hheader, ← readExactly_eq] at hchunk
    refine ⟨"truncated block payload", ?_⟩
    rw [decompressStream, hchunk]
    simp only [hread]
    rw [if_neg (not_not.mpr rfl), streamLoop, if_pos Nat.one_pos]
    split
    case h_1 e he =>
      rw [hround] at he
      cases he
      rfl
    case h_2 decoded progress rest he =>
      rw [hround] at he
      cases he
  refine ⟨_, ?_, by rw [htake, hread], by rw [hdrop, hsize], hstream,
    (decompressStream_agrees _).2.1.mpr hstream⟩
  rw [List.length_append, length_claim, hheader]
  rfl

end Compressly

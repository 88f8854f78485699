/-
# `Compressly.Codec.Sizes` — how long containers are, and what their frames say

A block never grows, so a container is longer than its data by the headers at
most (`sizes_exact`).  The lengths in a frame are cut to four bytes: they are
those of the block, and the container can be walked from header to header,
exactly for block sizes below 2^32 (`framing_faithful_iff`).
-/
import Compressly.Codec.RoundTrip

namespace Compressly

open Endian Parse Chunks LZ77

/-! ## Sizes -/

section Sizes
variable {algorithm : Algorithm} {config : Config} {data : List UInt8}

/-- A block is stored where the encoder returns nothing. -/
theorem stored_iff (hok : algorithm.Accepts config) (hdata : data ≠ []) {payload : List UInt8}
    (hencode : encodePayload algorithm data config data.length = .ok payload) :
    (blockOf algorithm config data).method = .stored ↔ payload = [] := by
  have hb := encodeBlock_blockOf hok data
  rw [encodeBlock, if_neg fun h => hdata (List.length_eq_zero_iff.mp h), hencode, bind_ok] at hb
  by_cases hne : payload = []
  · rw [if_pos (List.length_eq_zero_iff.mpr hne)] at hb
    have hmethod : (blockOf algorithm config data).method = .stored :=
      congrArg EncodedBlock.method (Except.ok.inj hb).symm
    exact ⟨fun _ => hne, fun _ => hmethod⟩
  · rw [if_neg fun h => hne (List.length_eq_zero_iff.mp h)] at hb
    have hmethod : (blockOf algorithm config data).method = algorithm.method :=
      congrArg EncodedBlock.method (Except.ok.inj hb).symm
    rw [hmethod]
    refine ⟨fun h => ?_, fun h => absurd h hne⟩
    cases algorithm <;> cases h

theorem payload_length_le (hok : algorithm.Accepts config) (hlt : data.length < 2 ^ 59) :
    (blockOf algorithm config data).payload.length ≤ data.length := by
  rcases (encodes_blockOf hok data).payload_length hlt with ⟨-, h⟩ | ⟨-, h⟩
  · rw [h]
  · exact h.le

theorem length_frameOf (chunk : List UInt8) : (frameOf algorithm config chunk).length
    = kBlockHeaderSize + (blockOf algorithm config chunk).payload.length := by
  rw [frameOf, framed, List.length_append, length_frameHeader]

theorem length_frames_le (hok : algorithm.Accepts config) (chunks : List (List UInt8))
    (hlt : ∀ chunk ∈ chunks, chunk.length < 2 ^ 59) :
    (chunks.map (frameOf algorithm config)).flatten.length
      ≤ chunks.flatten.length + kBlockHeaderSize * chunks.length := by
  induction chunks with
  | nil => exact Nat.zero_le _
  | cons chunk chunks ih =>
      have hhead := payload_length_le hok (hlt chunk List.mem_cons_self)
      have htail := ih fun c hc => hlt c (List.mem_cons_of_mem _ hc)
      rw [List.map_cons, List.flatten_cons, List.flatten_cons, List.length_append,
        List.length_append, List.length_cons, length_frameOf, Nat.mul_succ]
      omega

/-- What a container has over its data: the header, and nine bytes for each block. -/
theorem length_container_le (hok : algorithm.Accepts config) (hlt : data.length < 2 ^ 59)
    {blockSize : Nat} {c : List UInt8} (hc : container algorithm config blockSize data = .ok c) :
    (data.length ≤ blockSize → c.length ≤ data.length + kHeaderSize) ∧
      (0 < blockSize → blockSize < data.length →
        c.length ≤ data.length + kHeaderSize
          + kBlockHeaderSize * count blockSize data.length) := by
  refine ⟨fun hle => ?_, fun hpos hblock => ?_⟩
  · rw [container_of_le _ _ hle] at hc
    by_cases hdata : data = []
    · rw [if_pos hdata] at hc
      cases hc
      rw [length_header]
      omega
    · rw [if_neg hdata, encodeBlock_blockOf hok] at hc
      cases hc
      have hpayload := payload_length_le hok hlt
      rw [List.length_append, length_header]
      omega
  · rcases @container_of_lt data algorithm config _ hblock with ⟨-, hc'⟩ | ⟨-, e, he⟩
    · rw [hc'] at hc
      cases hc
      have hframes := length_frames_le hok (chunks blockSize data) fun chunk hmem =>
        ((mem_chunks_spec hpos hmem).2.trans hblock.le).trans_lt hlt
      rw [flatten_chunks hpos, length_chunks] at hframes
      rw [List.length_append, length_header]
      omega
    · rw [he] at hc
      cases hc

end Sizes

/-- **Exact sizes.**  An encoder returns nothing exactly when its predicted total reaches the
budget, and otherwise a payload of that many bytes; so a block is stored exactly when its
encoding would not be shorter, what is not stored is shorter, and a container is longer than
its data by its headers at most. -/
theorem sizes_exact (env : Environment) (data : List UInt8) (options : Options)
    (hok : options.algorithm.Accepts options.lz77) (hdata : data ≠ [])
    (hlt : data.length < 2 ^ 59) :
    ∃ total block c,
      predictedTotal options.algorithm data options.lz77 = .ok total ∧
      (∀ budgetBytes, ∃ payload,
        encodePayload options.algorithm data options.lz77 budgetBytes = .ok payload ∧
        (payload = [] ↔ budgetBytes ≤ total) ∧ (payload ≠ [] → payload.length = total)) ∧
      encodeBlock data options.algorithm options.lz77 = .ok block ∧
      (block.method = .stored ↔ data.length ≤ total) ∧
      (block.method ≠ .stored → block.payload.length < data.length) ∧
      compress env data options = .ok c ∧
      (shouldBlock data.length options = false → c.length ≤ data.length + 14) ∧
      (shouldBlock data.length options = true →
        c.length ≤ data.length + 14 + 9 * count options.blockSize data.length) := by
  obtain ⟨total, htotal, hspec⟩ := encodePayload_spec hok hdata
  have hencoder : ∀ budgetBytes, ∃ payload,
      encodePayload options.algorithm data options.lz77 budgetBytes = .ok payload ∧
      (payload = [] ↔ budgetBytes ≤ total) ∧ (payload ≠ [] → payload.length = total) := by
    intro budgetBytes
    obtain ⟨hnone, hsome⟩ := hspec budgetBytes
    rcases Nat.lt_or_ge total budgetBytes with hbudget | hbudget
    · obtain ⟨payload, hencode, hne, -, hlen⟩ := hsome hbudget
      exact ⟨payload, hencode, ⟨fun h => absurd h hne, fun h => absurd hbudget (Nat.not_lt.mpr h)⟩,
        fun _ => hlen hlt⟩
    · exact ⟨[], hnone hbudget, ⟨fun _ => hbudget, fun _ => rfl⟩, fun h => absurd rfl h⟩
  have hmax : data.length ≤ maxSize := by
    unfold maxSize
    omega
  obtain ⟨c, hc⟩ := container_accepted hok (memoryBlockSize options data) data
  obtain ⟨hsingle, hblocked⟩ := length_container_le hok hlt hc
  refine ⟨total, blockOf options.algorithm options.lz77 data, c, htotal, hencoder,
    encodeBlock_blockOf hok data, ?_, fun hmethod => ?_, compress_ok env hmax hc,
    fun hshould => ?_, fun hshould => ?_⟩
  · obtain ⟨payload, hencode, hiff, -⟩ := hencoder data.length
    exact (stored_iff hok hdata hencode).trans hiff
  · rcases (encodes_blockOf hok data).payload_length hlt with ⟨hstored, -⟩ | ⟨-, hshorter⟩
    · exact absurd hstored hmethod
    · exact hshorter
  · rcases memoryBlockSize_cases options data with ⟨-, hle⟩ | ⟨hpos, hblock, -⟩
    · exact hsingle hle
    · rw [shouldBlock, decide_eq_true hpos, decide_eq_true hblock] at hshould
      cases hshould
  · rcases memoryBlockSize_cases options data with ⟨hfalse, -⟩ | ⟨hpos, hblock, hsize⟩
    · rw [hfalse] at hshould
      cases hshould
    · rw [hsize] at hblocked
      exact hblocked hpos hblock

theorem sizes_exact_run :
    ∃ c, compress reversed [7, 7, 7, 7] { threads := 2 } = .ok c ∧ c.length ≤ 18 := by
  obtain ⟨_, _, c, -, -, -, -, -, hc, hle, -⟩ :=
    sizes_exact reversed [7, 7, 7, 7] { threads := 2 } (by decide) (by decide) (by decide)
  exact ⟨c, hc, hle (by decide)⟩

/-! ## Walking a container -/

def kCut : Error := .corruptInput "cut"

/-- The frame at the front, and what follows its payload. -/
def nextFrame : Parser Error UInt8 Frame := fun p => do
  let (header, p) ← chunk kCut kBlockHeaderSize p
  let frame ← readFrame header
  let (_, p) ← chunk kCut frame.compressed p
  pure (frame, p)

theorem nextFrame_length_lt {p rest : List UInt8} {frame : Frame}
    (h : nextFrame p = .ok (frame, rest)) : rest.length < p.length := by
  obtain ⟨⟨header, p₁⟩, hheader, h⟩ := bind_eq_ok.mp h
  obtain ⟨frame', -, h⟩ := bind_eq_ok.mp h
  obtain ⟨⟨payload, p₂⟩, hpayload, h⟩ := bind_eq_ok.mp h
  cases h
  have h₁ := (chunk_length hheader).2
  have h₂ := (chunk_length hpayload).2
  unfold kBlockHeaderSize at h₁
  omega

/-- From header to header, up to the end and not beyond it. -/
def walk (p : List UInt8) : Result (List Frame) :=
  if p = [] then pure []
  else
    match _h : nextFrame p with
    | .error e => .error e
    | .ok (frame, rest) => do
        let frames ← walk rest
        pure (frame :: frames)
termination_by p.length
decreasing_by exact nextFrame_length_lt _h

theorem walk_nil : walk [] = .ok [] := by
  rw [walk, if_pos rfl]
  rfl

theorem walk_cons {p rest : List UInt8} {frame : Frame} {frames : List Frame}
    (h : nextFrame p = .ok (frame, rest)) (hrest : walk rest = .ok frames) :
    walk p = .ok (frame :: frames) := by
  have hne : p ≠ [] := by
    rintro rfl
    cases h
  rw [walk, if_neg hne]
  split
  case h_1 e he =>
    rw [h] at he
    cases he
  case h_2 frame' rest' h' =>
    rw [h] at h'
    cases h'
    rw [hrest]
    rfl

section Walk
variable {algorithm : Algorithm} {config : Config}

/-- The true lengths and method of an encoded chunk. -/
def trueFrame (algorithm : Algorithm) (config : Config) (chunk : List UInt8) : Frame where
  uncompressed := chunk.length
  compressed := (blockOf algorithm config chunk).payload.length
  method := (blockOf algorithm config chunk).method

theorem nextFrame_frameOf {chunk : List UInt8} (h : Fits chunk (blockOf algorithm config chunk))
    (rest : List UInt8) :
    nextFrame (frameOf algorithm config chunk ++ rest)
      = .ok (trueFrame algorithm config chunk, rest) := by
  have hheader := chunk_append kCut
    (frameHeader chunk.length (blockOf algorithm config chunk))
    ((blockOf algorithm config chunk).payload ++ rest)
  rw [length_frameHeader] at hheader
  have hpayload := chunk_append kCut (blockOf algorithm config chunk).payload rest
  rw [nextFrame, frameOf, framed, List.append_assoc, hheader]
  simp only [bind_ok, readFrame_frameHeader h, hpayload]
  rfl

/-- The walk over written frames meets each of them. -/
theorem walk_frames (chunks : List (List UInt8))
    (hfits : ∀ chunk ∈ chunks, Fits chunk (blockOf algorithm config chunk)) :
    walk (chunks.map (frameOf algorithm config)).flatten
      = .ok (chunks.map (trueFrame algorithm config)) := by
  induction chunks with
  | nil => exact walk_nil
  | cons chunk chunks ih =>
      rw [List.map_cons, List.flatten_cons, List.map_cons]
      exact walk_cons (nextFrame_frameOf (hfits chunk List.mem_cons_self) _)
        (ih fun c hc => hfits c (List.mem_cons_of_mem _ hc))

end Walk

/-- What is written as a four-byte field, read back. -/
theorem readU32LE_append (pre post : List UInt8) (v : Nat) :
    readU32LE (pre ++ (leBytes 4 v ++ post)) pre.length = .ok (v % 2 ^ 32) := by
  have hlen : pre.length + 4 ≤ (pre ++ (leBytes 4 v ++ post)).length := by simp
  have hfield : ((pre ++ (leBytes 4 v ++ post)).drop pre.length).take 4 = leBytes 4 v := by
    rw [List.drop_left, List.take_left' (length_leBytes 4 v)]
  rw [readU32LE_eq hlen, hfield, leValue_leBytes]
  rfl

/-- Where the frame of a chunk begins, by the chunks before it. -/
def frameStart (options : Options) (before : List (List UInt8)) : Nat :=
  kHeaderSize + (before.map (frameOf options.algorithm options.lz77)).flatten.length

/-- The frames of a blocked container say what was written: each block's two fields, read
back where its frame begins, and the walk from header to header. -/
structure Faithful (data : List UInt8) (options : Options) (c : List UInt8) : Prop where
  fields : ∀ before chunk after,
    chunks options.blockSize data = before ++ chunk :: after →
    readU32LE c (frameStart options before) = .ok chunk.length ∧
      readU32LE c (frameStart options before + 4)
        = .ok (blockOf options.algorithm options.lz77 chunk).payload.length
  walk : ∃ frames, walk (c.drop kHeaderSize) = .ok frames ∧
    frames = (chunks options.blockSize data).map (trueFrame options.algorithm options.lz77) ∧
    frames.length = count options.blockSize data.length ∧
    (frames.map Frame.uncompressed).sum = data.length

section Framing
variable {data : List UInt8} {options : Options}

/-- The container both encoders write for data of several blocks. -/
def blockedContainer (data : List UInt8) (options : Options) : List UInt8 :=
  header .blocked data.length
    ++ ((chunks options.blockSize data).map (frameOf options.algorithm options.lz77)).flatten

/-- The two fields of a frame as they read back, whatever the lengths. -/
theorem fields_blockedContainer {before after : List (List UInt8)} {chunk : List UInt8}
    (h : chunks options.blockSize data = before ++ chunk :: after) :
    readU32LE (blockedContainer data options) (frameStart options before)
        = .ok (chunk.length % 2 ^ 32) ∧
      readU32LE (blockedContainer data options) (frameStart options before + 4)
        = .ok ((blockOf options.algorithm options.lz77 chunk).payload.length % 2 ^ 32) := by
  have hsplit : blockedContainer data options = (header .blocked data.length
        ++ (before.map (frameOf options.algorithm options.lz77)).flatten)
      ++ (leBytes 4 chunk.length
        ++ (leBytes 4 (blockOf options.algorithm options.lz77 chunk).payload.length
          ++ ([(blockOf options.algorithm options.lz77 chunk).method.toByte]
            ++ (blockOf options.algorithm options.lz77 chunk).payload
            ++ (after.map (frameOf options.algorithm options.lz77)).flatten))) := by
    rw [blockedContainer, h, List.map_append, List.map_cons, List.flatten_append,
      List.flatten_cons, frameOf, framed, frameHeader]
    simp only [List.append_assoc]
  have hstart : (header .blocked data.length
      ++ (before.map (frameOf options.algorithm options.lz77)).flatten).length
        = frameStart options before := by
    rw [List.length_append, length_header, frameStart]
  refine ⟨?_, ?_⟩
  · rw [hsplit, ← hstart]
    exact readU32LE_append _ _ _
  · have hnext : frameStart options before + 4 = ((header .blocked data.length
        ++ (before.map (frameOf options.algorithm options.lz77)).flatten)
        ++ leBytes 4 chunk.length).length := by
      rw [List.length_append, hstart, length_leBytes]
    rw [hsplit, hnext, ← List.append_assoc]
    exact readU32LE_append _ _ _

/-- From a block size of 2^32 on, the field of the first block is wrong. -/
theorem not_faithful (hlarge : 2 ^ 32 ≤ options.blockSize)
    (hlt : options.blockSize < data.length) :
    ¬ Faithful data options (blockedContainer data options) := by
  intro h
  have hpos : 0 < options.blockSize := by omega
  have hcount : 0 < count options.blockSize data.length := (lt_count hpos).mpr (by omega)
  obtain ⟨n, hn⟩ : ∃ n, count options.blockSize data.length = n + 1 :=
    ⟨count options.blockSize data.length - 1, by omega⟩
  have hfirst : chunks options.blockSize data = [] ++ piece options.blockSize data 0
      :: (List.range n).map (piece options.blockSize data ∘ Nat.succ) := by
    rw [chunks, hn, List.range_succ_eq_map, List.map_cons, List.map_map]
    rfl
  obtain ⟨htrue, -⟩ := h.fields _ _ _ hfirst
  obtain ⟨hcut, -⟩ := fields_blockedContainer hfirst
  rw [hcut] at htrue
  have hlen : (piece options.blockSize data 0).length = options.blockSize := by
    rw [length_piece]
    omega
  have hmod := Nat.mod_lt (piece options.blockSize data 0).length (by decide : 0 < 2 ^ 32)
  rw [Except.ok.inj htrue, hlen] at hmod
  omega

theorem faithful_of_lt (hok : options.algorithm.Accepts options.lz77)
    (hpos : 0 < options.blockSize) (hsmall : options.blockSize < 2 ^ 32) :
    Faithful data options (blockedContainer data options) := by
  have hfits : ∀ chunk ∈ chunks options.blockSize data,
      Fits chunk (blockOf options.algorithm options.lz77 chunk) := fun chunk hmem =>
    fits_blockOf hok ((mem_chunks_spec hpos hmem).2.trans_lt hsmall)
  refine ⟨fun before chunk after h => ?_, _, ?_, rfl, ?_, ?_⟩
  · have hchunk := hfits chunk (by rw [h]; simp)
    obtain ⟨hfirst, hsecond⟩ := fields_blockedContainer h
    rw [Nat.mod_eq_of_lt hchunk.chunk_lt] at hfirst
    rw [Nat.mod_eq_of_lt hchunk.payload_lt] at hsecond
    exact ⟨hfirst, hsecond⟩
  · rw [blockedContainer, ← length_header .blocked data.length, List.drop_left]
    exact walk_frames _ hfits
  · rw [List.length_map, length_chunks]
  · rw [List.map_map]
    exact sum_length_chunks hpos data

/-- A container in several blocks, from either encoder. -/
theorem eq_blockedContainer {env : Environment} (hpos : 0 < options.blockSize)
    (hlt : options.blockSize < data.length) (hmax : data.length ≤ maxSize) {c : List UInt8}
    (hc : compress env data options = .ok c ∨
      compressStream env data data.length options = { written := c, result := .ok () }) :
    options.algorithm.Accepts options.lz77 ∧ c = blockedContainer data options := by
  have hdata : data ≠ [] := List.ne_nil_of_length_pos (by omega)
  have hok : options.algorithm.Accepts options.lz77 := by
    by_contra hbad
    rcases hc with hc | hc
    · obtain ⟨what, hwhat⟩ := compress_rejects env hmax hbad hdata
      rw [hc] at hwhat
      cases hwhat
    · obtain ⟨what, hwhat⟩ := compressStream_rejects env hmax hbad hdata
      rw [hc] at hwhat
      cases hwhat
  have hall : ∀ chunk ∈ chunks options.blockSize data,
      encodeBlock chunk options.algorithm options.lz77
        = .ok (blockOf options.algorithm options.lz77 chunk) :=
    fun chunk _ => encodeBlock_blockOf hok chunk
  refine ⟨hok, ?_⟩
  rcases @container_of_lt data options.algorithm options.lz77 _ hlt with ⟨-, hcontainer⟩ | ⟨hbad, -⟩
  · rcases hc with hc | hc
    · rw [compress_ok env hmax (by rwa [memoryBlockSize_of_pos hpos])] at hc
      exact (Except.ok.inj hc).symm
    · rw [compressStream_ok env (fits_of_le_maxSize hmax) (by rwa [streamBlockSize_of_pos hpos])] at hc
      exact (congrArg Ended.written hc).symm
  · obtain ⟨chunk, hmem, e, he⟩ := hbad
    rw [hall chunk hmem] at he
    cases he

/-- **Framing.**  The frames of a blocked container are faithful if and only if the block size
is below 2^32; nothing bounds it, and the cast to four bytes is silent. -/
theorem framing_faithful_iff (env : Environment) (data : List UInt8) (options : Options)
    (hpos : 0 < options.blockSize) (hlt : options.blockSize < data.length)
    (hmax : data.length ≤ maxSize) {c : List UInt8}
    (hc : compress env data options = .ok c ∨
      compressStream env data data.length options = { written := c, result := .ok () }) :
    Faithful data options c ↔ options.blockSize < 2 ^ 32 := by
  obtain ⟨hok, rfl⟩ := eq_blockedContainer hpos hlt hmax hc
  refine ⟨fun h => ?_, faithful_of_lt hok hpos⟩
  by_contra hlarge
  exact not_faithful (Nat.not_lt.mp hlarge) hlt h

theorem framing_faithful_run :
    Faithful [7, 7, 7] { algorithm := .lz77, blockSize := 2 }
      ([67, 77, 80, 82, 1, 4, 3, 0, 0, 0, 0, 0, 0, 0]
        ++ [2, 0, 0, 0, 2, 0, 0, 0, 0, 7, 7] ++ [1, 0, 0, 0, 1, 0, 0, 0, 0, 7]) :=
  (framing_faithful_iff reversed [7, 7, 7] { algorithm := .lz77, blockSize := 2 } (by decide)
    (by decide) (by decide) (Or.inl (by decide +kernel))).mpr (by decide)

theorem replicate_not_faithful {n : Nat} (hlt : 2 ^ 32 < n) (hmax : n ≤ maxSize) :
    ∃ c, compress reversed (List.replicate n 7) { blockSize := 2 ^ 32 } = .ok c ∧
      ¬ Faithful (List.replicate n 7) { blockSize := 2 ^ 32 } c := by
  have hlen : (List.replicate n (7 : UInt8)).length = n := List.length_replicate
  obtain ⟨c, hc⟩ := container_accepted (by decide : Algorithm.deflate.Accepts {}) (2 ^ 32)
    (List.replicate n 7)
  have hcompress : compress reversed (List.replicate n 7) { blockSize := 2 ^ 32 } = .ok c :=
    compress_ok reversed (by rwa [hlen]) (by rwa [memoryBlockSize_of_pos (by decide)])
  obtain ⟨-, rfl⟩ := eq_blockedContainer (by decide) (by rwa [hlen]) (by rwa [hlen])
    (Or.inl hcompress)
  exact ⟨_, hcompress, not_faithful (Nat.le_refl _) (by rwa [hlen])⟩

/-- One byte more than a block of 2^32 bytes: its frame says 0. -/
theorem framing_not_faithful :
    ∃ c, compress reversed (List.replicate (2 ^ 32 + 1) 7) { blockSize := 2 ^ 32 } = .ok c ∧
      ¬ Faithful (List.replicate (2 ^ 32 + 1) 7) { blockSize := 2 ^ 32 } c :=
  replicate_not_faithful (by decide) (by decide)

end Framing

end Compressly

/-
# `Compressly.Codec.Basic` — the container, as the source computes it

    single block   header, payload of one block
    blocked        header, then for each block
                     4  uncompressed length
                     4  payload length
                     1  method
                     .. payload

Definitions only.  What the source takes from outside, the model takes as an
`Environment`: the thread count the hardware reports, and for each job of a
thread pool the order in which its calls are made.  `ThreadPool` says why an
order is all there is to choose.

A stream that is read is the list of the bytes still in it.  A stream that is
written keeps what was written also when an exception follows: `Ended`.  Reads
and writes themselves do not fail.
-/
import Compressly.Block

namespace Compressly

open Loop Parse LZ77

/-! ## Options and environment -/

def kDefaultBlockSize : Nat := 2 ^ 20

structure Options where
  algorithm : Algorithm := .deflate
  lz77 : Config := {}
  /-- A `std::size_t`; 0 disables blocking. -/
  blockSize : Nat := kDefaultBlockSize
  threads : Int := 1
  blockSize_lt : blockSize < 2 ^ 64 := by decide

/-- An order in which the indices below `count` are handed out, each once. -/
structure Order (count : Nat) where
  calls : List Nat
  perm : calls.Perm (List.range count)

structure Environment where
  /-- `std::thread::hardware_concurrency()`. -/
  hardware : Nat
  /-- The order of the calls in each job of a pool. -/
  order : (job count : Nat) → Order count

def resolveThreadCount (env : Environment) (requested : Int) : Int :=
  if 0 < requested then requested
  else if env.hardware = 0 then 1
  else (BitVec.ofNat 32 env.hardware).toInt

/-! ## Jobs -/

section Jobs
variable {σ : Type}

/-- One call of a job on a pool: an exception is recorded, the first of them kept. -/
def poolCall (fn : σ → Nat → Result σ) (s : σ × Option Error) (index : Nat) : σ × Option Error :=
  match fn s.1 index with
  | .ok s' => (s', s.2)
  | .error e => (s.1, s.2.or (some e))

/-- `ThreadPool::forEach`: every call is made, then the first exception is rethrown. -/
def forEach {count : Nat} (order : Order count) (fn : σ → Nat → Result σ) (s : σ) : Result σ :=
  match order.calls.foldl (poolCall fn) (s, none) with
  | (s, none) => pure s
  | (_, some e) => throw e

/-- A loop over the indices on one worker, a job of a pool on more. -/
def runJob (workers : Int) {count : Nat} (order : Order count) (fn : σ → Nat → Result σ) (s : σ) :
    Result σ :=
  if workers ≤ 1 then (List.range count).foldlM fn s else forEach order fn s

end Jobs

/-! ## Framing -/

def putHeader (out : List UInt8) (method : Method) (originalSize : Nat) : List UInt8 :=
  appendLE 8 (out ++ kMagic ++ [kFormatVersion] ++ [method.toByte]) originalSize

def kBlockHeaderSize : Nat := 9

def appendBlock (out : List UInt8) (uncompressedSize : Nat) (block : EncodedBlock) : List UInt8 :=
  let out := appendU32LE out (uncompressedSize % 2 ^ 32)
  let out := appendU32LE out (block.payload.length % 2 ^ 32)
  out ++ [block.method.toByte] ++ block.payload

/-- The block size is not 0 where this is called. -/
def blockCountFor (size blockSize : Nat) : Nat := u64 (size + blockSize - 1) / blockSize

def shouldBlock (size : Nat) (options : Options) : Bool :=
  0 < options.blockSize && options.blockSize < size

/-! ## Compression in memory -/

def compressSingleBlock (data : List UInt8) (options : Options) : Result (List UInt8) := do
  let block ← encodeBlock data options.algorithm options.lz77
  pure (putHeader [] block.method data.length ++ block.payload)

/-- The offset and length of block `index`. -/
def blockSpan (size blockSize index : Nat) : Result (Nat × Nat) := do
  let offset := u64 (index * blockSize)
  let left ← minus size offset
  pure (offset, min blockSize left)

def encodeChunk (data : List UInt8) (options : Options) (index : Nat) : Result EncodedBlock := do
  let (offset, length) ← blockSpan data.length options.blockSize index
  let chunk ← slice data offset length
  encodeBlock chunk options.algorithm options.lz77

def compressOne (data : List UInt8) (options : Options) (encoded : List EncodedBlock)
    (index : Nat) : Result (List EncodedBlock) := do
  let block ← encodeChunk data options index
  store encoded index block

def appendChunk (data : List UInt8) (options : Options) (encoded : List EncodedBlock)
    (out : List UInt8) (index : Nat) : Result (List UInt8) := do
  let (_, length) ← blockSpan data.length options.blockSize index
  let block ← fetch encoded index
  pure (appendBlock out length block)

def compressBlocked (env : Environment) (data : List UInt8) (options : Options) :
    Result (List UInt8) := do
  let blocks := blockCountFor data.length options.blockSize
  let workers := resolveThreadCount env options.threads
  let encoded ←
    runJob workers (env.order 0 blocks) (compressOne data options) (List.replicate blocks {})
  let out := putHeader [] .blocked data.length
  (List.range blocks).foldlM (appendChunk data options encoded) out

def compress (env : Environment) (data : List UInt8) (options : Options) : Result (List UInt8) :=
  if data.length = 0 then pure (putHeader [] .stored 0)
  else if shouldBlock data.length options then compressBlocked env data options
  else compressSingleBlock data options

/-! ## Decompression in memory -/

/-- The framing of one block. -/
structure Frame where
  uncompressed : Nat
  compressed : Nat
  method : Method

def readFrame (header : List UInt8) : Result Frame := do
  let uncompressed ← readU32LE header 0
  let compressed ← readU32LE header 4
  let method ← fetch header 8
  pure { uncompressed := uncompressed, compressed := compressed, method := Method.ofByte method }

/-- The block of a frame, and the check of its size. -/
def decodeFrame (frame : Frame) (payload : List UInt8) : Result (List UInt8) := do
  let decoded ← decodeBlock frame.method payload frame.uncompressed
  if decoded.length ≠ frame.uncompressed then
    throw (.corruptInput "block decoded to the wrong size")
  else pure decoded

def kOverrun : Error := .corruptInput "block overruns the declared output size"

def extendBlock (originalSize : Nat) (out : List UInt8) (frame : Frame) (payload : List UInt8) :
    Result (List UInt8) := do
  let room ← minus originalSize out.length
  if room < frame.uncompressed then throw kOverrun
  else do
    let decoded ← decodeFrame frame payload
    pure (out ++ decoded)

/-- One round of `decompressBlocked`. -/
def blockRound (originalSize : Nat) (out : List UInt8) (c : Cursor) :
    Result (List UInt8 × Cursor) := do
  let (header, c) ← c.take "truncated block header" kBlockHeaderSize
  let frame ← readFrame header
  let (payload, c) ← c.take "truncated block payload" frame.compressed
  let out ← extendBlock originalSize out frame payload
  pure (out, c)

/-- The same round on a byte string. -/
def blockParser (originalSize : Nat) (out : List UInt8) : Parser Error UInt8 (List UInt8) :=
  fun p => do
    let (header, p) ← chunk (.corruptInput "truncated block header") kBlockHeaderSize p
    let frame ← readFrame header
    let (payload, p) ← chunk (.corruptInput "truncated block payload") frame.compressed p
    let out ← extendBlock originalSize out frame payload
    pure (out, p)

theorem simulates_blockRound (originalSize : Nat) (out : List UInt8) :
    Simulates Cursor.rest (blockRound originalSize out) (blockParser originalSize out) :=
  (Cursor.simulates_take "truncated block header" kBlockHeaderSize).bind fun header =>
    simulates_lift_bind _ (readFrame header) fun frame =>
      (Cursor.simulates_take "truncated block payload" frame.compressed).bind fun payload =>
        simulates_lift_bind _ (extendBlock originalSize out frame payload) fun out =>
          simulates_pure _ out

theorem blockParser_length_lt {originalSize : Nat} {out out' : List UInt8} {p rest : List UInt8}
    (h : blockParser originalSize out p = .ok (out', rest)) : rest.length < p.length := by
  obtain ⟨⟨header, p₁⟩, hheader, h⟩ := bind_eq_ok.mp h
  obtain ⟨frame, -, h⟩ := bind_eq_ok.mp h
  obtain ⟨⟨payload, p₂⟩, hpayload, h⟩ := bind_eq_ok.mp h
  obtain ⟨out'', -, h⟩ := bind_eq_ok.mp h
  cases h
  have h₁ := (chunk_length hheader).2
  have h₂ := (chunk_length hpayload).2
  unfold kBlockHeaderSize at h₁
  omega

/-- The loop body; a block with no output still consumes its header. -/
def blockBody (originalSize : Nat) : Body Error Cursor (List UInt8) where
  run := blockRound originalSize
  size c := c.rest.length
  decreases hrun := blockParser_length_lt ((simulates_blockRound originalSize _).ok hrun)

/-- `out.size() < originalSize`. -/
def unfinished (originalSize : Nat) (out : List UInt8) : Bool := out.length < originalSize

/-- `decompressBlocked`, together with the cursor where it stopped. -/
def decompressBlockedStream (payload : List UInt8) (originalSize : Nat) :
    Result (List UInt8 × Cursor) :=
  (blockBody originalSize).loop (unfinished originalSize) [] { data := payload }

def decompressBlocked (payload : List UInt8) (originalSize : Nat) : Result (List UInt8) :=
  Prod.fst <$> decompressBlockedStream payload originalSize

/-- The checks on a header that is long enough: its method and size. -/
def readHeader (header : List UInt8) : Result (Method × Nat) := do
  let magic ← slice header 0 kMagic.length
  if magic ≠ kMagic then throw (.corruptInput "bad magic")
  let version ← fetch header 4
  if version ≠ kFormatVersion then throw (.corruptInput "unsupported format version")
  let method ← fetch header 5
  let originalSize ← readU64LE header 6
  pure (Method.ofByte method, originalSize)

def decompressPayload (method : Method) (payload : List UInt8) (originalSize : Nat) :
    Result (List UInt8) :=
  if method = .blocked then decompressBlocked payload originalSize
  else decodeBlock method payload originalSize

def decompress (data : List UInt8) : Result (List UInt8) := do
  if data.length < kHeaderSize then
    throw (.corruptInput "input is shorter than the header")
  let (method, originalSize) ← readHeader data
  let payloadSize ← minus data.length kHeaderSize
  let payload ← slice data kHeaderSize payloadSize
  decompressPayload method payload originalSize

/-- The method a container is marked with. -/
def methodOf (compressed : List UInt8) : Result Method := do
  if compressed.length < kHeaderSize then
    throw (.corruptInput "input is shorter than the header")
  let method ← fetch compressed 5
  pure (Method.ofByte method)

/-! ## Streams -/

/-- What a run of a streaming function leaves behind. -/
structure Ended where
  written : List UInt8
  result : Result Unit
deriving DecidableEq

/-- Up to `count` bytes of a stream, and what is left in it. -/
def readFully (input : List UInt8) (count : Nat) : List UInt8 × List UInt8 :=
  (input.take count, input.drop count)

/-- `if (readFully(..) != count) throw e`. -/
def readExactly (e : Error) (count : Nat) (input : List UInt8) :
    Result (List UInt8 × List UInt8) :=
  if (readFully input count).1.length ≠ count then throw e else pure (readFully input count)

theorem readExactly_eq (e : Error) (count : Nat) : readExactly e count = chunk e count := by
  funext input
  unfold readExactly chunk readFully
  by_cases h : input.length < count
  · rw [if_pos h, if_pos (by rw [List.length_take]; omega)]
    rfl
  · rw [if_neg h, if_neg (by rw [List.length_take]; omega)]
    rfl

def kEndedEarly : Error := .runtimeError "input ended before the declared size"

/-- The slots of `compressStream`, which batches reuse. -/
structure Slots where
  input : List UInt8
  inputs : List (List UInt8)

/-- Reads the data of block `done + i` into slot `i`. -/
def fillSlot (totalSize blockSize done : Nat) (s : Slots) (i : Nat) : Result Slots := do
  let (_, length) ← blockSpan totalSize blockSize (done + i)
  let (data, input) ← readExactly kEndedEarly length s.input
  let inputs ← store s.inputs i data
  pure { input := input, inputs := inputs }

/-- `compressOne` of `compressStream`. -/
def compressSlot (options : Options) (inputs : List (List UInt8)) (encoded : List EncodedBlock)
    (i : Nat) : Result (List EncodedBlock) := do
  let data ← fetch inputs i
  let block ← encodeBlock data options.algorithm options.lz77
  store encoded i block

def frameSlot (inputs : List (List UInt8)) (encoded : List EncodedBlock) (i : Nat) :
    Result (List UInt8) := do
  let data ← fetch inputs i
  let block ← fetch encoded i
  pure (appendBlock [] data.length block)

/-- Frames slot `i` and writes it. -/
def writeSlot (inputs : List (List UInt8)) (encoded : List EncodedBlock) (written : List UInt8)
    (i : Nat) : Result (List UInt8) := do
  let framed ← frameSlot inputs encoded i
  pure (written ++ framed)

/-- One batch of `here` blocks: read, compressed together, written in order. -/
def runBatch (env : Environment) (options : Options) (totalSize blockSize job done here : Nat)
    (slots : Slots) (encoded : List EncodedBlock) (written : List UInt8) :
    Result (Slots × List EncodedBlock × List UInt8) := do
  let slots ← (List.range here).foldlM (fillSlot totalSize blockSize done) slots
  let encoded ← runJob (resolveThreadCount env options.threads) (env.order job here)
    (compressSlot options slots.inputs) encoded
  let written ← (List.range here).foldlM (writeSlot slots.inputs encoded) written
  pure (slots, encoded, written)

/-- The loop over the batches.  An exception leaves what earlier batches have written. -/
def batchLoop (env : Environment) (options : Options) (totalSize blockSize blocks : Nat)
    {batch : Nat} (hbatch : 0 < batch) (job done : Nat) (slots : Slots)
    (encoded : List EncodedBlock) (written : List UInt8) : Ended :=
  if done < blocks then
    match runBatch env options totalSize blockSize job done (min batch (blocks - done)) slots
        encoded written with
    | .error e => { written := written, result := .error e }
    | .ok (slots, encoded, written) =>
        batchLoop env options totalSize blockSize blocks hbatch (job + 1)
          (done + min batch (blocks - done)) slots encoded written
  else { written := written, result := .ok () }
termination_by blocks - done

/-- The number of blocks in memory at a time. -/
def batchSize (workers : Int) : Nat := if workers ≤ 1 then 1 else workers.toNat

theorem batchSize_pos (workers : Int) : 0 < batchSize workers := by
  unfold batchSize
  split <;> omega

def compressStream (env : Environment) (input : List UInt8) (totalSize : Nat)
    (options : Options) : Ended :=
  let blockSize := if 0 < options.blockSize then options.blockSize else kDefaultBlockSize
  if totalSize ≤ blockSize then
    match readExactly kEndedEarly totalSize input with
    | .error e => { written := [], result := .error e }
    | .ok (data, _) =>
        match compress env data options with
        | .error e => { written := [], result := .error e }
        | .ok compressed => { written := compressed, result := .ok () }
  else
    let header := putHeader [] .blocked totalSize
    let blocks := blockCountFor totalSize blockSize
    let workers := resolveThreadCount env options.threads
    let batch := batchSize workers
    batchLoop env options totalSize blockSize blocks (batchSize_pos workers) 0 0
      { input := input, inputs := List.replicate batch [] } (List.replicate batch {}) header

/-- One block of a stream: its decoded bytes, the progress made, what is left to read. -/
def streamRound (originalSize produced : Nat) (input : List UInt8) :
    Result (List UInt8 × Nat × List UInt8) := do
  let (header, input) ← readExactly (.corruptInput "truncated block header") kBlockHeaderSize input
  let frame ← readFrame header
  let room ← minus originalSize produced
  if room < frame.uncompressed then throw kOverrun
  else do
    let (payload, input) ←
      readExactly (.corruptInput "truncated block payload") frame.compressed input
    let decoded ← decodeFrame frame payload
    pure (decoded, frame.uncompressed, input)

theorem streamRound_length_lt {originalSize produced progress : Nat}
    {input decoded rest : List UInt8}
    (h : streamRound originalSize produced input = .ok (decoded, progress, rest)) :
    rest.length < input.length := by
  unfold streamRound at h
  simp only [readExactly_eq] at h
  obtain ⟨⟨header, input₁⟩, hheader, h⟩ := bind_eq_ok.mp h
  obtain ⟨frame, -, h⟩ := bind_eq_ok.mp h
  obtain ⟨room, -, h⟩ := bind_eq_ok.mp h
  by_cases hroom : room < frame.uncompressed
  · rw [if_pos hroom] at h
    cases h
  · rw [if_neg hroom] at h
    obtain ⟨⟨payload, input₂⟩, hpayload, h⟩ := bind_eq_ok.mp h
    obtain ⟨decoded', -, h⟩ := bind_eq_ok.mp h
    cases h
    have h₁ : input₁.length + 9 = input.length := (chunk_length hheader).2
    have h₂ : input₂.length + frame.compressed = input₁.length := (chunk_length hpayload).2
    show input₂.length < input.length
    omega

/-- The loop over the blocks of a stream. -/
def streamLoop (originalSize produced : Nat) (input written : List UInt8) : Ended :=
  if produced < originalSize then
    match _h : streamRound originalSize produced input with
    | .error e => { written := written, result := .error e }
    | .ok (decoded, progress, input') =>
        streamLoop originalSize (produced + progress) input' (written ++ decoded)
  else { written := written, result := .ok () }
termination_by input.length
decreasing_by exact streamRound_length_lt _h

/-- Everything but the loop over blocks throws before it writes. -/
def decompressStream (input : List UInt8) : Ended :=
  match readExactly (.corruptInput "input is shorter than the header") kHeaderSize input with
  | .error e => { written := [], result := .error e }
  | .ok (header, input) =>
      match readHeader header with
      | .error e => { written := [], result := .error e }
      | .ok (method, originalSize) =>
          if method ≠ .blocked then
            match decodeBlock method input originalSize with
            | .error e => { written := [], result := .error e }
            | .ok decoded => { written := decoded, result := .ok () }
          else streamLoop originalSize 0 input []

end Compressly

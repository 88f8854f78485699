/-
# `Compressly.Codec.Stream` — the streaming encoder

The slots of a batch are filled, encoded and written, and used again by the
next; at the end of a short batch they still hold what an earlier one left
(`filled`, `blocksOfBatch`).  A batch writes the frames of its blocks
(`runBatch_ok`), so the loop writes those of all that are left, wherever the
batches are cut (`batchLoop_ok`).
-/
import Compressly.Codec.Encode

namespace Compressly

open Chunks LZ77 Parse

/-! ## The streaming encoder -/

section Stream
variable {data : List UInt8} {options : Options} {blockSize batch : Nat}

theorem fillSlot_eq (hpos : 0 < blockSize) (hsize : data.length < 2 ^ 64) {done i : Nat}
    (hi : done + i < count blockSize data.length) {s : Slots}
    (hinput : s.input = data.drop ((done + i) * blockSize)) (hslot : i < s.inputs.length) :
    fillSlot data.length blockSize done s i
      = .ok { input := data.drop ((done + (i + 1)) * blockSize),
              inputs := s.inputs.set i (piece blockSize data (done + i)) } := by
  have hread : readExactly kEndedEarly (min blockSize (data.length - (done + i) * blockSize))
      s.input = .ok (piece blockSize data (done + i), data.drop ((done + i + 1) * blockSize)) := by
    rw [readExactly_eq, hinput, ← piece_append_drop, ← length_piece]
    exact chunk_append _ _ _
  rw [fillSlot, blockSpan_eq hpos hsize hi, bind_ok]
  simp only []
  rw [hread, bind_ok]
  simp only []
  rw [store_of_lt hslot]
  rfl

theorem foldlM_fillSlot (hpos : 0 < blockSize) (hsize : data.length < 2 ^ 64) {done here : Nat}
    (hdone : done + here ≤ count blockSize data.length) {s : Slots}
    (hinput : s.input = data.drop (done * blockSize)) (hslots : here ≤ s.inputs.length) :
    (List.range here).foldlM (fillSlot data.length blockSize done) s
      = .ok { input := data.drop ((done + here) * blockSize),
              inputs := fill (fun i => piece blockSize data (done + i)) (List.range here)
                s.inputs } := by
  induction here with
  | zero =>
      rw [Nat.add_zero, ← hinput]
      rfl
  | succ here ih =>
      rw [List.range_succ, List.foldlM_append, ih (by omega) (by omega), bind_ok,
        List.foldlM_cons, fillSlot_eq hpos hsize (by omega) rfl (by rw [length_fill]; omega),
        bind_ok, fill, fill, List.foldl_append]
      rfl

/-- What a batch finds: the data from its first block on, and slots of any content. -/
structure Batched (data : List UInt8) (blockSize batch done : Nat) (slots : Slots)
    (encoded : List EncodedBlock) : Prop where
  input : slots.input = data.drop (done * blockSize)
  inputs : slots.inputs.length = batch
  encoded : encoded.length = batch

theorem fetch_map_range {β : Type} {g : Nat → β} {here i : Nat} (hi : i < here) (rest : List β) :
    fetch ((List.range here).map g ++ rest) i = .ok (g i) := by
  rw [fetch_append (by simpa using hi)]
  exact fetch_of_getElem? (by rw [List.getElem?_map, List.getElem?_range hi]; rfl)

/-- The slots of a batch, once its data is read; what earlier batches left is behind them. -/
def filled (data : List UInt8) (blockSize done here : Nat) (inputs : List (List UInt8)) :
    List (List UInt8) :=
  (List.range here).map (fun i => piece blockSize data (done + i)) ++ inputs.drop here

theorem fetch_filled {done here i : Nat} (hi : i < here) (inputs : List (List UInt8)) :
    fetch (filled data blockSize done here inputs) i = .ok (piece blockSize data (done + i)) :=
  fetch_map_range hi _

/-- The block of slot `i`. -/
def encodeSlot (options : Options) (inputs : List (List UInt8)) (i : Nat) :
    Result EncodedBlock := do
  let data ← fetch inputs i
  encodeBlock data options.algorithm options.lz77

theorem compressSlot_eq (inputs : List (List UInt8)) :
    compressSlot options inputs = slotCall (encodeSlot options inputs) := by
  funext encoded i
  unfold compressSlot slotCall encodeSlot
  cases fetch inputs i with
  | error e => rfl
  | ok data => rfl

theorem runBatch_eq (env : Environment) (hpos : 0 < blockSize) (hsize : data.length < 2 ^ 64)
    (job : Nat) {done here : Nat} (hhere : here ≤ batch)
    (hdone : done + here ≤ count blockSize data.length) {slots : Slots}
    {encoded : List EncodedBlock} (hs : Batched data blockSize batch done slots encoded)
    (written : List UInt8) :
    runBatch env options data.length blockSize job done here slots encoded written = (do
      let encoded ← runJob (resolveThreadCount env options.threads) (env.order job here)
        (compressSlot options (filled data blockSize done here slots.inputs)) encoded
      let written ← (List.range here).foldlM
        (writeSlot (filled data blockSize done here slots.inputs) encoded) written
      pure (Slots.mk (data.drop ((done + here) * blockSize))
        (filled data blockSize done here slots.inputs), encoded, written)) := by
  have hslots : here ≤ slots.inputs.length := hs.inputs.symm ▸ hhere
  rw [runBatch, foldlM_fillSlot hpos hsize hdone hs.input hslots, bind_ok,
    fill_perm _ List.Perm.rfl hslots]
  rfl

theorem encodeSlot_filled {done here i : Nat} (hi : i < here) (inputs : List (List UInt8)) :
    encodeSlot options (filled data blockSize done here inputs) i
      = encodeBlock (piece blockSize data (done + i)) options.algorithm options.lz77 := by
  rw [encodeSlot, fetch_filled hi, bind_ok]

/-- The blocks of a batch, in their slots. -/
def blocksOfBatch (options : Options) (data : List UInt8) (blockSize done here : Nat)
    (encoded : List EncodedBlock) : List EncodedBlock :=
  (List.range here).map (fun i => blockOf options.algorithm options.lz77
    (piece blockSize data (done + i))) ++ encoded.drop here

theorem foldlM_writeSlot {done here : Nat} (inputs : List (List UInt8))
    (encoded : List EncodedBlock) (written : List UInt8) :
    (List.range here).foldlM (writeSlot (filled data blockSize done here inputs)
        (blocksOfBatch options data blockSize done here encoded)) written
      = .ok (written ++ ((List.range here).map fun i =>
          frameOf options.algorithm options.lz77 (piece blockSize data (done + i))).flatten) := by
  refine foldlM_appends (fun i hi out => ?_) written
  have hi := List.mem_range.mp hi
  rw [writeSlot, frameSlot, fetch_filled hi, bind_ok, blocksOfBatch, fetch_map_range hi, bind_ok,
    appendBlock_eq]
  rfl

theorem Batched.next {done here : Nat} {slots : Slots} {encoded : List EncodedBlock}
    (hs : Batched data blockSize batch done slots encoded) (hhere : here ≤ batch) :
    Batched data blockSize batch (done + here)
      (Slots.mk (data.drop ((done + here) * blockSize))
        (filled data blockSize done here slots.inputs))
      (blocksOfBatch options data blockSize done here encoded) := by
  have hinputs := hs.inputs
  have hencoded := hs.encoded
  refine ⟨rfl, ?_, ?_⟩
  · simp only [filled, List.length_append, List.length_map, List.length_range, List.length_drop]
    omega
  · simp only [blocksOfBatch, List.length_append, List.length_map, List.length_range,
      List.length_drop]
    omega

theorem runBatch_ok (env : Environment) (hpos : 0 < blockSize) (hsize : data.length < 2 ^ 64)
    (job : Nat) {done here : Nat} (hhere : here ≤ batch)
    (hdone : done + here ≤ count blockSize data.length) {slots : Slots}
    {encoded : List EncodedBlock} (hs : Batched data blockSize batch done slots encoded)
    (h : ∀ i < here, encodeBlock (piece blockSize data (done + i)) options.algorithm options.lz77
      = .ok (blockOf options.algorithm options.lz77 (piece blockSize data (done + i))))
    (written : List UInt8) :
    runBatch env options data.length blockSize job done here slots encoded written
      = .ok (Slots.mk (data.drop ((done + here) * blockSize))
          (filled data blockSize done here slots.inputs),
        blocksOfBatch options data blockSize done here encoded,
        written ++ ((List.range here).map fun i =>
          frameOf options.algorithm options.lz77 (piece blockSize data (done + i))).flatten) := by
  have hencoded := runJob_ok (resolveThreadCount env options.threads) (env.order job here)
    (fun i hi => (encodeSlot_filled hi slots.inputs).trans (h i hi)) (hs.encoded.symm ▸ hhere)
  rw [runBatch_eq env hpos hsize job hhere hdone hs, compressSlot_eq, hencoded, bind_ok,
    ← blocksOfBatch, foldlM_writeSlot]
  rfl

theorem runBatch_error (env : Environment) (hpos : 0 < blockSize) (hsize : data.length < 2 ^ 64)
    (job : Nat) {done here : Nat} (hhere : here ≤ batch)
    (hdone : done + here ≤ count blockSize data.length) {slots : Slots}
    {encoded : List EncodedBlock} (hs : Batched data blockSize batch done slots encoded)
    {i : Nat} (hi : i < here) (h : ∃ e,
      encodeBlock (piece blockSize data (done + i)) options.algorithm options.lz77 = .error e)
    (written : List UInt8) :
    ∃ e, runBatch env options data.length blockSize job done here slots encoded written
      = .error e := by
  obtain ⟨e, he⟩ := h
  rw [← encodeSlot_filled hi slots.inputs] at he
  have hcall : ∀ encoded, ∃ e, slotCall (encodeSlot options
      (filled data blockSize done here slots.inputs)) encoded i = .error e :=
    fun encoded => ⟨e, by rw [slotCall, he]; rfl⟩
  obtain ⟨e', he'⟩ := runJob_error (resolveThreadCount env options.threads) (env.order job here)
    hi hcall encoded
  exact ⟨e', by rw [runBatch_eq env hpos hsize job hhere hdone hs, compressSlot_eq, he']; rfl⟩

theorem runBatch_rejects (env : Environment) (hpos : 0 < blockSize)
    (hsize : data.length < 2 ^ 64) (job : Nat) {done here : Nat} (hhere : here ≤ batch)
    (hdone : done + here ≤ count blockSize data.length) {slots : Slots}
    {encoded : List EncodedBlock} (hs : Batched data blockSize batch done slots encoded)
    (hne : 0 < here) (hok : ¬ options.algorithm.Accepts options.lz77) (written : List UInt8) :
    Rejects (runBatch env options data.length blockSize job done here slots encoded written) := by
  have hcalls : ∀ encoded, ∀ i < here, Rejects (slotCall (encodeSlot options
      (filled data blockSize done here slots.inputs)) encoded i) := by
    intro encoded i hi
    refine slotCall_rejects ?_ encoded
    rw [encodeSlot_filled hi]
    exact encodeBlock_rejects hok (piece_ne_nil hpos (by omega))
  obtain ⟨what, hwhat⟩ := runJob_rejects (resolveThreadCount env options.threads)
    (env.order job here) hne hcalls encoded
  refine ⟨what, ?_⟩
  rw [runBatch_eq env hpos hsize job hhere hdone hs, compressSlot_eq, hwhat]
  rfl

/-- The batches write the frames of the blocks that are left, however they are cut. -/
theorem batchLoop_ok (env : Environment) (hpos : 0 < blockSize) (hsize : data.length < 2 ^ 64)
    (hbatch : 0 < batch)
    (h : ∀ i < count blockSize data.length,
      encodeBlock (piece blockSize data i) options.algorithm options.lz77
        = .ok (blockOf options.algorithm options.lz77 (piece blockSize data i)))
    (left job done : Nat) (hleft : done + left = count blockSize data.length) {slots : Slots}
    {encoded : List EncodedBlock} (hs : Batched data blockSize batch done slots encoded)
    (written : List UInt8) :
    batchLoop env options data.length blockSize (count blockSize data.length) hbatch job done slots
        encoded written
      = { written := written ++ ((List.range left).map fun i =>
            frameOf options.algorithm options.lz77 (piece blockSize data (done + i))).flatten,
          result := .ok () } := by
  -- a batch takes `min batch left` of the blocks
  induction left using Nat.strong_induction_on generalizing job done slots encoded written with
  | h left ih =>
    rw [batchLoop]
    rcases Nat.eq_zero_or_pos left with rfl | hlt
    · rw [if_neg (by omega)]
      simp
    · rw [if_pos (by omega)]
      have hsub : count blockSize data.length - done = left := by omega
      rw [hsub]
      have hhere : min batch left ≤ batch := Nat.min_le_left _ _
      have hrun := runBatch_ok env hpos hsize job hhere (by omega) hs
        (fun i hi => h (done + i) (by omega)) written
      rw [hrun]
      simp only []
      rw [ih (left - min batch left) (by omega) (job + 1) (done + min batch left) (by omega)
        (hs.next hhere)]
      have hsplit : List.range left = List.range (min batch left)
          ++ (List.range (left - min batch left)).map (min batch left + ·) := by
        rw [← List.range_add]
        congr 1
        omega
      rw [hsplit, List.map_append, List.flatten_append, List.map_map, List.append_assoc]
      simp only [Function.comp_def, Nat.add_assoc]

theorem batchLoop_error (env : Environment) (hpos : 0 < blockSize) (hsize : data.length < 2 ^ 64)
    (hbatch : 0 < batch) {i : Nat} (hi : i < count blockSize data.length)
    (h : ∃ e, encodeBlock (piece blockSize data i) options.algorithm options.lz77 = .error e)
    (left job done : Nat) (hleft : done + left = count blockSize data.length) (hdone : done ≤ i)
    {slots : Slots} {encoded : List EncodedBlock}
    (hs : Batched data blockSize batch done slots encoded) (written : List UInt8) :
    ∃ e, (batchLoop env options data.length blockSize (count blockSize data.length) hbatch job done
        slots encoded written).result = .error e := by
  induction left using Nat.strong_induction_on generalizing job done slots encoded written with
  | h left ih =>
    rw [batchLoop, if_pos (by omega)]
    have hsub : count blockSize data.length - done = left := by omega
    rw [hsub]
    have hhere : min batch left ≤ batch := Nat.min_le_left _ _
    -- the first batch with a block that throws is the last one
    by_cases hbad : ∃ j < min batch left, ∃ e,
        encodeBlock (piece blockSize data (done + j)) options.algorithm options.lz77 = .error e
    · obtain ⟨j, hj, he⟩ := hbad
      obtain ⟨e, hrun⟩ := runBatch_error env hpos hsize job hhere (by omega) hs hj he written
      rw [hrun]
      exact ⟨e, rfl⟩
    · push Not at hbad
      have hrun := runBatch_ok env hpos hsize job hhere (by omega) hs
        (fun j hj => (encodeBlock_cases _ _ _).resolve_right fun herr => herr.elim (hbad j hj)) written
      rw [hrun]
      have hnext : done + min batch left ≤ i := by
        by_contra hlt
        obtain ⟨e, he⟩ := h
        refine hbad (i - done) (by omega) e ?_
        rw [show done + (i - done) = i from by omega]
        exact he
      exact ih (left - min batch left) (by omega) (job + 1) (done + min batch left) (by omega)
        hnext (hs.next hhere) _

end Stream

/-! ## What the stream is left with -/

section Containers
variable {data : List UInt8} {options : Options}

/-- The block size of `compressStream`; 0 is the default. -/
def streamBlockSize (options : Options) : Nat :=
  if 0 < options.blockSize then options.blockSize else kDefaultBlockSize

theorem streamBlockSize_pos (options : Options) : 0 < streamBlockSize options := by
  unfold streamBlockSize kDefaultBlockSize
  split <;> omega

theorem streamBlockSize_lt (options : Options) : streamBlockSize options < 2 ^ 64 := by
  unfold streamBlockSize
  split
  case isTrue => exact options.blockSize_lt
  case isFalse => decide

/-- The data is no longer than a block where `compressStream` passes it on. -/
theorem shouldBlock_of_le_stream (hle : data.length ≤ streamBlockSize options) :
    shouldBlock data.length options = false := by
  refine shouldBlock_eq_false ?_
  unfold streamBlockSize at hle
  by_cases hpos : 0 < options.blockSize
  · rw [if_pos hpos] at hle
    exact Or.inr hle
  · exact Or.inl (by omega)

/-- A stream of one block at most takes the path of the function in memory. -/
theorem compressStream_of_le (env : Environment) (hle : data.length ≤ streamBlockSize options) :
    compressStream env data data.length options =
      match container options.algorithm options.lz77 (streamBlockSize options) data with
      | .error e => { written := [], result := .error e }
      | .ok c => { written := c, result := .ok () } := by
  have hsingle := shouldBlock_of_le_stream hle
  have hread : readExactly kEndedEarly data.length data = .ok (data, []) := by
    have happend := chunk_append kEndedEarly data []
    rwa [List.append_nil, ← readExactly_eq] at happend
  change (if data.length ≤ streamBlockSize options then _ else _) = _
  rw [if_pos hle, hread]
  have hcompress := compress_of_le env hsingle hle
  cases hc : container options.algorithm options.lz77 (streamBlockSize options) data with
  | error e => simp only [hcompress, hc]
  | ok c => simp only [hcompress, hc]

/-- The state in which the loop over the batches starts. -/
def firstSlots (batch : Nat) (input : List UInt8) : Slots :=
  { input := input, inputs := List.replicate batch [] }

theorem compressStream_of_gt (env : Environment) (input : List UInt8) {totalSize : Nat}
    (hlt : streamBlockSize options < totalSize) :
    compressStream env input totalSize options
      = batchLoop env options totalSize (streamBlockSize options)
          (blockCountFor totalSize (streamBlockSize options))
          (batchSize_pos (resolveThreadCount env options.threads)) 0 0
          (firstSlots (batchSize (resolveThreadCount env options.threads)) input)
          (List.replicate (batchSize (resolveThreadCount env options.threads)) {})
          (header .blocked totalSize) := by
  change (if totalSize ≤ streamBlockSize options then _ else _) = _
  rw [if_neg (Nat.not_le.mpr hlt), ← putHeader_eq]
  rfl

theorem batched_firstSlots (data : List UInt8) (blockSize batch : Nat) :
    Batched data blockSize batch 0 (firstSlots batch data) (List.replicate batch {}) :=
  ⟨by rw [Nat.zero_mul]; rfl, List.length_replicate, List.length_replicate⟩

theorem compressStream_of_lt (env : Environment) (hlt : streamBlockSize options < data.length)
    (hsum : data.length + streamBlockSize options ≤ 2 ^ 64) :
    ∃ slots encoded, Batched data (streamBlockSize options)
        (batchSize (resolveThreadCount env options.threads)) 0 slots encoded ∧
      compressStream env data data.length options
        = batchLoop env options data.length (streamBlockSize options)
            (count (streamBlockSize options) data.length)
            (batchSize_pos (resolveThreadCount env options.threads)) 0 0 slots encoded
            (header .blocked data.length) := by
  refine ⟨_, _, batched_firstSlots data (streamBlockSize options) _, ?_⟩
  rw [compressStream_of_gt env data hlt, blockCountFor_eq hsum]

theorem length_lt_of_add_le (hsum : data.length + streamBlockSize options ≤ 2 ^ 64) :
    data.length < 2 ^ 64 := by
  have hpos := streamBlockSize_pos options
  omega

/-- Data that is in memory is no stream too long for the count of its blocks. -/
theorem fits_of_le_maxSize (hmax : data.length ≤ maxSize) :
    streamBlockSize options < data.length →
      data.length + streamBlockSize options ≤ 2 ^ 64 := by
  intro hlt
  exact add_le_of_lt hlt hmax

/-- The streaming encoder writes the container, for any number of workers, hence any size
of the batches, and any order inside each of them. -/
theorem compressStream_ok (env : Environment)
    (hfits : streamBlockSize options < data.length →
      data.length + streamBlockSize options ≤ 2 ^ 64) {c : List UInt8}
    (h : container options.algorithm options.lz77 (streamBlockSize options) data = .ok c) :
    compressStream env data data.length options = { written := c, result := .ok () } := by
  rcases Nat.lt_or_ge (streamBlockSize options) data.length with hlt | hle
  · have hsize := length_lt_of_add_le (hfits hlt)
    obtain ⟨slots, encoded, hs, hrun⟩ := compressStream_of_lt env hlt (hfits hlt)
    rcases container_of_lt hlt with ⟨hall, hc⟩ | ⟨-, e, he⟩
    · rw [hc] at h
      cases h
      rw [hrun, batchLoop_ok env (streamBlockSize_pos options) hsize _
        (fun i hi => hall _ (mem_chunks hi)) _ 0 0 (Nat.zero_add _) hs, chunks, List.map_map]
      simp only [Function.comp_def, Nat.zero_add]
    · rw [he] at h
      cases h
  · rw [compressStream_of_le env hle, h]

theorem compressStream_error (env : Environment)
    (hfits : streamBlockSize options < data.length →
      data.length + streamBlockSize options ≤ 2 ^ 64) {e : Error}
    (h : container options.algorithm options.lz77 (streamBlockSize options) data = .error e) :
    ∃ e', (compressStream env data data.length options).result = .error e' := by
  rcases Nat.lt_or_ge (streamBlockSize options) data.length with hlt | hle
  · have hsize := length_lt_of_add_le (hfits hlt)
    obtain ⟨slots, encoded, hs, hrun⟩ := compressStream_of_lt env hlt (hfits hlt)
    rcases container_of_lt hlt with ⟨-, hc⟩ | ⟨⟨chunk, hmem, hbad⟩, -⟩
    · rw [hc] at h
      cases h
    · obtain ⟨i, hi, rfl⟩ := List.mem_map.mp hmem
      rw [hrun]
      exact batchLoop_error env (streamBlockSize_pos options) hsize _ (List.mem_range.mp hi) hbad
        _ 0 0 (Nat.zero_add _) (Nat.zero_le i) hs _
  · rw [compressStream_of_le env hle, h]
    exact ⟨e, rfl⟩

theorem compressStream_rejects (env : Environment) (hmax : data.length ≤ maxSize)
    (hok : ¬ options.algorithm.Accepts options.lz77) (hdata : data ≠ []) :
    Rejects (compressStream env data data.length options).result := by
  rcases Nat.lt_or_ge (streamBlockSize options) data.length with hlt | hle
  · obtain ⟨slots, encoded, hs, hrun⟩ := compressStream_of_lt env hlt (add_le_of_lt hlt hmax)
    have hcount : 0 < count (streamBlockSize options) data.length :=
      (lt_count (streamBlockSize_pos options)).mpr (by omega)
    have hbatch := batchSize_pos (resolveThreadCount env options.threads)
    obtain ⟨what, hwhat⟩ := runBatch_rejects env (streamBlockSize_pos options) (lt_of_le_maxSize hmax) 0
      (Nat.min_le_left _ (count (streamBlockSize options) data.length - 0)) (by omega) hs
      (by omega) hok (header .blocked data.length)
    refine ⟨what, ?_⟩
    rw [hrun, batchLoop, if_pos hcount, hwhat]
  · obtain ⟨what, hwhat⟩ := container_rejects hok hdata hle
    exact ⟨what, by rw [compressStream_of_le env hle, hwhat]⟩

/-! ## The same bytes -/

theorem memoryBlockSize_of_pos (hpos : 0 < options.blockSize) :
    memoryBlockSize options data = options.blockSize := if_pos hpos

theorem streamBlockSize_of_pos (hpos : 0 < options.blockSize) :
    streamBlockSize options = options.blockSize := if_pos hpos

/-- A block that is not encoded was refused, and the configuration is why. -/
theorem not_accepts_of_error {algorithm : Algorithm} {config : Config} {e : Error}
    (h : encodeBlock data algorithm config = .error e) :
    ¬ algorithm.Accepts config ∧ data ≠ [] := by
  constructor
  · intro hok
    obtain ⟨b, hb, -⟩ := encodeBlock_spec hok data
    rw [hb] at h
    cases h
  · rintro rfl
    cases h

/-- Neither the number of workers nor the order of their calls nor the batches show: both
encoders write the container of the block size, or, where a chunk is refused, both throw the
`std::invalid_argument` that refuses it. -/
theorem schedule_never_shows (env : Environment) (data : List UInt8) (options : Options)
    (hpos : 0 < options.blockSize) (hmax : data.length ≤ maxSize) :
    (∀ c, container options.algorithm options.lz77 options.blockSize data = .ok c →
      compress env data options = .ok c ∧
        compressStream env data data.length options = { written := c, result := .ok () }) ∧
    (∀ chunk ∈ chunks options.blockSize data,
      (∃ e, encodeBlock chunk options.algorithm options.lz77 = .error e) →
        Rejects (encodeBlock chunk options.algorithm options.lz77) ∧
          Rejects (compress env data options) ∧
          Rejects (compressStream env data data.length options).result) := by
  refine ⟨fun c hc => ⟨?_, ?_⟩, fun chunk hmem hbad => ?_⟩
  · exact compress_ok env hmax (by rwa [memoryBlockSize_of_pos hpos])
  · exact compressStream_ok env (fits_of_le_maxSize hmax) (by rwa [streamBlockSize_of_pos hpos])
  · obtain ⟨e, he⟩ := hbad
    obtain ⟨hok, hchunk⟩ := not_accepts_of_error he
    have hdata : data ≠ [] := by
      rintro rfl
      obtain ⟨i, hi, -⟩ := List.mem_map.mp hmem
      exact Nat.not_lt_zero _ ((lt_count hpos).mp (List.mem_range.mp hi))
    exact ⟨encodeBlock_rejects hok hchunk, compress_rejects env hmax hok hdata,
      compressStream_rejects env hmax hok hdata⟩

/-- Calls in the reverse order. -/
def reversed : Environment where
  hardware := 4
  order _ count := { calls := (List.range count).reverse, perm := List.reverse_perm _ }

/-- Two blocks written, and a configuration without codes for its matches refused. -/
theorem schedule_never_shows_run :
    (compress reversed [7, 7, 7] { algorithm := .lz77, blockSize := 2, threads := 0 }
      = .ok ([67, 77, 80, 82, 1, 4, 3, 0, 0, 0, 0, 0, 0, 0]
          ++ [2, 0, 0, 0, 2, 0, 0, 0, 0, 7, 7] ++ [1, 0, 0, 0, 1, 0, 0, 0, 0, 7]) ∧
    compressStream reversed [7, 7, 7] 3 { algorithm := .lz77, blockSize := 2, threads := 0 }
      = { written := [67, 77, 80, 82, 1, 4, 3, 0, 0, 0, 0, 0, 0, 0]
            ++ [2, 0, 0, 0, 2, 0, 0, 0, 0, 7, 7] ++ [1, 0, 0, 0, 1, 0, 0, 0, 0, 7],
          result := .ok () }) ∧
    Rejects (encodeBlock [7, 7] .deflate { minMatch := 4 }) ∧
    Rejects (compress reversed [7, 7, 7]
      { algorithm := .deflate, blockSize := 2, threads := 0, lz77 := { minMatch := 4 } }) ∧
    Rejects (compressStream reversed [7, 7, 7] 3
      { algorithm := .deflate, blockSize := 2, threads := 0, lz77 := { minMatch := 4 } }).result :=
  ⟨(schedule_never_shows reversed [7, 7, 7] { algorithm := .lz77, blockSize := 2, threads := 0 }
      (by decide) (by decide)).1 _ (by decide +kernel),
    (schedule_never_shows reversed [7, 7, 7]
      { algorithm := .deflate, blockSize := 2, threads := 0, lz77 := { minMatch := 4 } }
      (by decide) (by decide)).2 [7, 7] (by decide +kernel) ⟨_, rfl⟩⟩

/-! ## A block size of 0 -/

theorem encodeBlock_method {algorithm : Algorithm} {config : Config} {b : EncodedBlock}
    (h : encodeBlock data algorithm config = .ok b) : b.method.toByte ≠ Method.blocked.toByte := by
  unfold encodeBlock at h
  by_cases hdata : data.length = 0
  · rw [if_pos hdata] at h
    cases h
    decide
  · rw [if_neg hdata] at h
    obtain ⟨payload, -, h⟩ := bind_eq_ok.mp h
    by_cases hpayload : payload.length = 0
    · rw [if_pos hpayload] at h
      cases h
      exact (by decide : Method.stored.toByte ≠ Method.blocked.toByte)
    · rw [if_neg hpayload] at h
      cases h
      change algorithm.method.toByte ≠ Method.blocked.toByte
      cases algorithm <;> decide

/-- The method byte of a container. -/
theorem header_append_inj {m m' : Method} {size size' : Nat} {p p' : List UInt8}
    (h : header m size ++ p = header m' size' ++ p') : m.toByte = m'.toByte := by
  have hbyte := congrArg (fun c : List UInt8 => (c.drop 5).head?) h
  simpa [header, kMagic] using hbyte

/-- With blocking disabled, `compress` marks the container with the method of its block and
`compressStream`, on data of more than a default block, as blocked. -/
theorem streams_differ (env env' : Environment) (hmax : data.length ≤ maxSize)
    (hzero : options.blockSize = 0) (hlt : kDefaultBlockSize < data.length) {c : List UInt8}
    (hc : compress env data options = .ok c) :
    compressStream env' data data.length options ≠ { written := c, result := .ok () } := by
  intro hstream
  have hsize : streamBlockSize options = kDefaultBlockSize := by
    rw [streamBlockSize, if_neg (by omega)]
  have hlt' : streamBlockSize options < data.length := hsize.symm ▸ hlt
  rw [compress_of_le env (shouldBlock_eq_false (Or.inl hzero)) (Nat.le_refl _),
    container_of_le _ _ (Nat.le_refl _), if_neg (List.ne_nil_of_length_pos (by omega))] at hc
  obtain ⟨b, hb, hc⟩ := bind_eq_ok.mp hc
  cases hc
  rcases @container_of_lt data options.algorithm options.lz77 _ hlt' with ⟨-, hok⟩ | ⟨-, e, he⟩
  · rw [compressStream_ok env' (fits_of_le_maxSize hmax) hok] at hstream
    exact encodeBlock_method hb (header_append_inj (congrArg Ended.written hstream)).symm
  · obtain ⟨e', he'⟩ := compressStream_error env' (fits_of_le_maxSize hmax) he
    rw [hstream] at he'
    cases he'

theorem container_accepted {algorithm : Algorithm} {config : Config}
    (hok : algorithm.Accepts config) (blockSize : Nat) (data : List UInt8) :
    ∃ c, container algorithm config blockSize data = .ok c := by
  rcases Nat.lt_or_ge blockSize data.length with hlt | hle
  · rcases @container_of_lt data algorithm config _ hlt with ⟨-, hc⟩ | ⟨⟨chunk, -, e, he⟩, -⟩
    · exact ⟨_, hc⟩
    · obtain ⟨b, hb, -⟩ := encodeBlock_spec hok chunk
      rw [hb] at he
      cases he
  · rw [container_of_le _ _ hle]
    obtain ⟨b, hb, -⟩ := encodeBlock_spec hok data
    by_cases hdata : data = []
    · exact ⟨_, if_pos hdata⟩
    · exact ⟨_, by rw [if_neg hdata, hb]; rfl⟩

/-- Where `compress` returns, `compressStream` writes the same bytes if and only if the block
size is not 0 or the data fits in a default block. -/
theorem compressStream_agrees_iff (env env' : Environment) (data : List UInt8) (options : Options)
    (hmax : data.length ≤ maxSize) {c : List UInt8} (hc : compress env data options = .ok c) :
    compressStream env' data data.length options = { written := c, result := .ok () } ↔
      options.blockSize ≠ 0 ∨ data.length ≤ kDefaultBlockSize := by
  constructor
  · intro hstream
    by_contra h
    push Not at h
    exact streams_differ env env' hmax h.1 h.2 hc hstream
  · intro h
    have hsame : container options.algorithm options.lz77 (streamBlockSize options) data
        = container options.algorithm options.lz77 (memoryBlockSize options data) data := by
      unfold streamBlockSize memoryBlockSize
      by_cases hpos : 0 < options.blockSize
      · rw [if_pos hpos, if_pos hpos]
      · rw [if_neg hpos, if_neg hpos, container_of_le _ _ (h.resolve_left (by omega)),
          container_of_le _ _ (Nat.le_refl _)]
    cases hm : container options.algorithm options.lz77 (memoryBlockSize options data) data with
    | ok c' =>
        rw [compress_ok env hmax hm] at hc
        cases hc
        exact compressStream_ok env' (fits_of_le_maxSize hmax) (hsame.trans hm)
    | error e =>
        obtain ⟨e', he'⟩ := compress_error env hmax hm
        rw [hc] at he'
        cases he'

theorem compressStream_agrees_run :
    compressStream reversed [7, 7, 7] 3 { algorithm := .lz77, blockSize := 2 }
      = { written := [67, 77, 80, 82, 1, 4, 3, 0, 0, 0, 0, 0, 0, 0]
            ++ [2, 0, 0, 0, 2, 0, 0, 0, 0, 7, 7] ++ [1, 0, 0, 0, 1, 0, 0, 0, 0, 7],
          result := .ok () } :=
  (compressStream_agrees_iff reversed reversed [7, 7, 7] { algorithm := .lz77, blockSize := 2 }
    (by decide) (by decide +kernel)).mpr (by decide)

/-- With blocking disabled, every length above a default block shows the difference. -/
theorem replicate_differs {n : Nat} (hlt : kDefaultBlockSize < n) (hmax : n ≤ maxSize) :
    ∃ c, compress reversed (List.replicate n 7) { blockSize := 0 } = .ok c ∧
      compressStream reversed (List.replicate n 7) n { blockSize := 0 }
        ≠ { written := c, result := .ok () } := by
  have hlen : (List.replicate n (7 : UInt8)).length = n := List.length_replicate
  obtain ⟨c, hc⟩ := container_accepted (by decide : Algorithm.deflate.Accepts {})
    (List.replicate n (7 : UInt8)).length (List.replicate n 7)
  have hcompress : compress reversed (List.replicate n 7) { blockSize := 0 } = .ok c :=
    compress_ok reversed (by rwa [hlen]) hc
  have hdiffer := streams_differ reversed reversed (by rwa [hlen]) rfl (by rwa [hlen]) hcompress
  rw [hlen] at hdiffer
  exact ⟨c, hcompress, hdiffer⟩

/-- One byte more than a default block. -/
theorem compressStream_disagrees :
    ∃ c, compress reversed (List.replicate (2 ^ 20 + 1) 7) { blockSize := 0 } = .ok c ∧
      compressStream reversed (List.replicate (2 ^ 20 + 1) 7) (2 ^ 20 + 1) { blockSize := 0 }
        ≠ { written := c, result := .ok () } :=
  replicate_differs (by decide) (by decide)

end Containers

end Compressly

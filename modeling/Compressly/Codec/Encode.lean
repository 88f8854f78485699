/-
# `Compressly.Codec.Encode` — the container, and the encoder in memory

`container` is the container for a block size, put together from the chunks of
the data with no workers, batches or slots in sight.  A job that fills slots
has one result, whatever the order of its calls (`runJob_ok`), so the encoder in
memory returns that container (`compress_ok`); where a chunk is refused, it throws
(`compress_error`).  `Stream` has the same of the streaming encoder.
-/
import Compressly.Codec.Basic
import Compressly.Lib.Chunks

namespace Compressly

open Endian Chunks LZ77 Parse

/-! ## Framing -/

/-- The container header. -/
def header (method : Method) (originalSize : Nat) : List UInt8 :=
  kMagic ++ [kFormatVersion, method.toByte] ++ leBytes 8 originalSize

theorem putHeader_eq (method : Method) (originalSize : Nat) :
    putHeader [] method originalSize = header method originalSize := by
  rw [putHeader, appendLE_eq]
  rfl

@[simp] theorem length_header (method : Method) (originalSize : Nat) :
    (header method originalSize).length = kHeaderSize := by
  rw [header, List.length_append, length_leBytes]
  rfl

/-- The nine bytes before a block. -/
def frameHeader (uncompressedSize : Nat) (block : EncodedBlock) : List UInt8 :=
  leBytes 4 uncompressedSize ++ leBytes 4 block.payload.length ++ [block.method.toByte]

theorem length_frameHeader (uncompressedSize : Nat) (block : EncodedBlock) :
    (frameHeader uncompressedSize block).length = kBlockHeaderSize := by
  simp [frameHeader, kBlockHeaderSize]

/-- A block with its framing; the lengths are cut to four bytes. -/
def framed (uncompressedSize : Nat) (block : EncodedBlock) : List UInt8 :=
  frameHeader uncompressedSize block ++ block.payload

theorem appendBlock_eq (out : List UInt8) (uncompressedSize : Nat) (block : EncodedBlock) :
    appendBlock out uncompressedSize block = out ++ framed uncompressedSize block := by
  have hcut : ∀ v, leBytes 4 (v % 2 ^ 32) = leBytes 4 v := fun v => leBytes_mod 4 v
  simp only [appendBlock, appendU32LE_eq, hcut, framed, frameHeader, List.append_assoc]

/-! ## The container -/

/-- Every chunk encoded, the first exception thrown. -/
def encodeAll (algorithm : Algorithm) (config : Config) :
    List (List UInt8) → Result (List EncodedBlock)
  | [] => pure []
  | chunk :: chunks => do
      let block ← encodeBlock chunk algorithm config
      let blocks ← encodeAll algorithm config chunks
      pure (block :: blocks)

/-- The frames of encoded chunks, in order. -/
def framesOf (chunks : List (List UInt8)) (blocks : List EncodedBlock) : List UInt8 :=
  (List.zipWith (fun chunk block => framed chunk.length block) chunks blocks).flatten

/-- The container for a block size: blocked if the data is larger than a block. -/
def container (algorithm : Algorithm) (config : Config) (blockSize : Nat) (data : List UInt8) :
    Result (List UInt8) :=
  if data = [] then pure (header .stored 0)
  else if blockSize < data.length then do
    let blocks ← encodeAll algorithm config (chunks blockSize data)
    pure (header .blocked data.length ++ framesOf (chunks blockSize data) blocks)
  else do
    let block ← encodeBlock data algorithm config
    pure (header block.method data.length ++ block.payload)

section EncodeAll
variable {algorithm : Algorithm} {config : Config}

/-- The block of a chunk that is accepted. -/
def blockOf (algorithm : Algorithm) (config : Config) (chunk : List UInt8) : EncodedBlock :=
  (encodeBlock chunk algorithm config).toOption.getD {}

theorem encodeBlock_cases (algorithm : Algorithm) (config : Config) (chunk : List UInt8) :
    encodeBlock chunk algorithm config = .ok (blockOf algorithm config chunk) ∨
      ∃ e, encodeBlock chunk algorithm config = .error e := by
  cases hb : encodeBlock chunk algorithm config with
  | error e => exact Or.inr ⟨e, rfl⟩
  | ok b =>
      refine Or.inl ?_
      rw [blockOf, hb]
      rfl

theorem encodeAll_ok {chunks : List (List UInt8)}
    (h : ∀ chunk ∈ chunks,
      encodeBlock chunk algorithm config = .ok (blockOf algorithm config chunk)) :
    encodeAll algorithm config chunks = .ok (chunks.map (blockOf algorithm config)) := by
  induction chunks with
  | nil => rfl
  | cons chunk chunks ih =>
      rw [encodeAll, h chunk List.mem_cons_self, bind_ok,
        ih fun c hc => h c (List.mem_cons_of_mem _ hc)]
      rfl

theorem encodeAll_error {chunks : List (List UInt8)} {chunk : List UInt8} (hmem : chunk ∈ chunks)
    (herr : ∃ e, encodeBlock chunk algorithm config = .error e) :
    ∃ e, encodeAll algorithm config chunks = .error e := by
  induction chunks with
  | nil => cases hmem
  | cons chunk' chunks ih =>
      rw [encodeAll]
      cases hb : encodeBlock chunk' algorithm config with
      | error e => exact ⟨e, rfl⟩
      | ok b =>
          rcases List.mem_cons.mp hmem with rfl | hmem
          · obtain ⟨e, he⟩ := herr
            rw [hb] at he
            cases he
          · obtain ⟨e, he⟩ := ih hmem
            exact ⟨e, by rw [bind_ok, he]; rfl⟩

/-- Either all chunks are encoded or one of them throws. -/
theorem chunks_cases (algorithm : Algorithm) (config : Config) (chunks : List (List UInt8)) :
    (∀ chunk ∈ chunks,
        encodeBlock chunk algorithm config = .ok (blockOf algorithm config chunk)) ∨
      ∃ chunk ∈ chunks, ∃ e, encodeBlock chunk algorithm config = .error e := by
  by_contra h
  push Not at h
  obtain ⟨⟨chunk, hmem, hne⟩, hall⟩ := h
  rcases encodeBlock_cases algorithm config chunk with hok | ⟨e, he⟩
  · exact hne hok
  · exact hall chunk hmem e he

end EncodeAll

/-! ## Jobs -/

section Jobs
variable {β : Type} {f : Nat → Result β}

/-- A call that fills its own slot. -/
def slotCall (f : Nat → Result β) (slots : List β) (i : Nat) : Result (List β) := do
  let b ← f i
  store slots i b

/-- The slots of the given calls, filled. -/
def fill (g : Nat → β) (calls : List Nat) (slots : List β) : List β :=
  calls.foldl (fun slots i => slots.set i (g i)) slots

theorem slotCall_rejects {i : Nat} (h : Rejects (f i)) (slots : List β) :
    Rejects (slotCall f slots i) := by
  obtain ⟨what, hwhat⟩ := h
  exact ⟨what, by rw [slotCall, hwhat]; rfl⟩

theorem length_fill (g : Nat → β) (calls : List Nat) (slots : List β) :
    (fill g calls slots).length = slots.length := by
  induction calls generalizing slots with
  | nil => rfl
  | cons i calls ih =>
      rw [fill, List.foldl_cons]
      exact (ih _).trans List.length_set

theorem getElem?_fill (g : Nat → β) (calls : List Nat) {slots : List β} {j : Nat}
    (hj : j < slots.length) :
    (fill g calls slots)[j]? = if j ∈ calls then some (g j) else slots[j]? := by
  induction calls generalizing slots with
  | nil => simp [fill]
  | cons i calls ih =>
      have hj' : j < (slots.set i (g i)).length := by rwa [List.length_set]
      rw [fill, List.foldl_cons]
      refine (ih hj').trans ?_
      rw [List.getElem?_set]
      by_cases hmem : j ∈ calls
      · rw [if_pos hmem, if_pos (List.mem_cons_of_mem _ hmem)]
      · rw [if_neg hmem]
        by_cases hij : i = j
        · subst hij
          rw [if_pos rfl, if_pos hj, if_pos List.mem_cons_self]
        · rw [if_neg hij, if_neg fun h => (List.mem_cons.mp h).elim (fun h => hij h.symm) hmem]

/-- Every order of the calls leaves the same slots. -/
theorem fill_perm (g : Nat → β) {count : Nat} {calls : List Nat}
    (hperm : calls.Perm (List.range count)) {slots : List β} (hcount : count ≤ slots.length) :
    fill g calls slots = (List.range count).map g ++ slots.drop count := by
  refine List.ext_getElem? fun j => ?_
  rcases Nat.lt_or_ge j slots.length with hj | hj
  · rw [getElem?_fill g calls hj, List.getElem?_append, List.length_map, List.length_range]
    have hmem : j ∈ calls ↔ j < count := hperm.mem_iff.trans List.mem_range
    by_cases hlt : j < count
    · rw [if_pos (hmem.mpr hlt), if_pos hlt, List.getElem?_map, List.getElem?_range hlt]
      rfl
    · rw [if_neg fun h => hlt (hmem.mp h), if_neg hlt, List.getElem?_drop]
      congr 1
      omega
  · rw [List.getElem?_eq_none (by rw [length_fill]; exact hj), List.getElem?_eq_none]
    rw [List.length_append, List.length_map, List.length_range, List.length_drop]
    omega

theorem foldlM_slotCall {g : Nat → β} {calls : List Nat} {slots : List β}
    (h : ∀ i ∈ calls, f i = .ok (g i) ∧ i < slots.length) :
    calls.foldlM (slotCall f) slots = .ok (fill g calls slots) := by
  induction calls generalizing slots with
  | nil => rfl
  | cons i calls ih =>
      obtain ⟨hi, hlt⟩ := h i List.mem_cons_self
      rw [List.foldlM_cons, slotCall, hi, bind_ok, store_of_lt hlt, bind_ok, fill, List.foldl_cons]
      exact ih fun j hj =>
        ⟨(h j (List.mem_cons_of_mem _ hj)).1, by
          rw [List.length_set]
          exact (h j (List.mem_cons_of_mem _ hj)).2⟩

theorem foldl_poolCall {g : Nat → β} {calls : List Nat} {slots : List β}
    (h : ∀ i ∈ calls, f i = .ok (g i) ∧ i < slots.length) :
    calls.foldl (poolCall (slotCall f)) (slots, none) = (fill g calls slots, none) := by
  induction calls generalizing slots with
  | nil => rfl
  | cons i calls ih =>
      obtain ⟨hi, hlt⟩ := h i List.mem_cons_self
      have hcall : poolCall (slotCall f) (slots, none) i = (slots.set i (g i), none) := by
        simp only [poolCall, slotCall, hi, bind_ok, store_of_lt hlt]
      rw [List.foldl_cons, hcall, fill, List.foldl_cons]
      exact ih fun j hj =>
        ⟨(h j (List.mem_cons_of_mem _ hj)).1, by
          rw [List.length_set]
          exact (h j (List.mem_cons_of_mem _ hj)).2⟩

/-- A job whose calls all succeed fills the slots, for any number of workers and any order. -/
theorem runJob_ok {g : Nat → β} {count : Nat} (workers : Int) (order : Order count)
    (h : ∀ i < count, f i = .ok (g i)) {slots : List β} (hcount : count ≤ slots.length) :
    runJob workers order (slotCall f) slots
      = .ok ((List.range count).map g ++ slots.drop count) := by
  unfold runJob
  split
  case isTrue =>
    rw [foldlM_slotCall fun i hi => ⟨h i (List.mem_range.mp hi),
      Nat.lt_of_lt_of_le (List.mem_range.mp hi) hcount⟩, fill_perm g List.Perm.rfl hcount]
  case isFalse =>
    have hcalls : ∀ i ∈ order.calls, i < count := fun i hi =>
      List.mem_range.mp (order.perm.subset hi)
    rw [forEach, foldl_poolCall fun i hi => ⟨h i (hcalls i hi),
      Nat.lt_of_lt_of_le (hcalls i hi) hcount⟩, fill_perm g order.perm hcount]
    rfl

theorem foldlM_error {σ : Type} {fn : σ → Nat → Result σ} {calls : List Nat} {i : Nat}
    (hi : i ∈ calls) (h : ∀ s, ∃ e, fn s i = .error e) (s : σ) :
    ∃ e, calls.foldlM fn s = .error e := by
  induction calls generalizing s with
  | nil => cases hi
  | cons j calls ih =>
      rw [List.foldlM_cons]
      cases hj : fn s j with
      | error e => exact ⟨e, rfl⟩
      | ok s' =>
          rcases List.mem_cons.mp hi with rfl | hmem
          · obtain ⟨e, he⟩ := h s
            rw [hj] at he
            cases he
          · exact ih hmem s'

theorem foldl_poolCall_error {σ : Type} {fn : σ → Nat → Result σ} {calls : List Nat}
    (s : σ × Option Error)
    (h : s.2.isSome ∨ ∃ i ∈ calls, ∀ s, ∃ e, fn s i = .error e) :
    (calls.foldl (poolCall fn) s).2.isSome := by
  induction calls generalizing s with
  | nil =>
      rcases h with h | ⟨i, hi, -⟩
      · exact h
      · cases hi
  | cons j calls ih =>
      rw [List.foldl_cons]
      refine ih _ ?_
      rcases h with h | ⟨i, hi, herr⟩
      · refine Or.inl ?_
        unfold poolCall
        split
        case h_1 => exact h
        case h_2 => simp
      · rcases List.mem_cons.mp hi with rfl | hmem
        · refine Or.inl ?_
          obtain ⟨e, he⟩ := herr s.1
          unfold poolCall
          split
          case h_1 s' hs' =>
            rw [he] at hs'
            cases hs'
          case h_2 => simp
        · exact Or.inr ⟨i, hmem, herr⟩

/-- A job with a call that throws throws, for any number of workers and any order. -/
theorem runJob_error {σ : Type} {fn : σ → Nat → Result σ} {count i : Nat} (workers : Int)
    (order : Order count) (hi : i < count) (h : ∀ s, ∃ e, fn s i = .error e) (s : σ) :
    ∃ e, runJob workers order fn s = .error e := by
  unfold runJob
  split
  case isTrue => exact foldlM_error (List.mem_range.mpr hi) h s
  case isFalse =>
    have hsome := foldl_poolCall_error (s, none)
      (Or.inr ⟨i, order.perm.symm.subset (List.mem_range.mpr hi), h⟩)
    unfold forEach
    split
    case h_1 hnone =>
      rw [hnone] at hsome
      cases hsome
    case h_2 s' e _ => exact ⟨e, rfl⟩

theorem foldl_poolCall_some {σ : Type} (fn : σ → Nat → Result σ) (calls : List Nat) (s : σ)
    (e : Error) : (calls.foldl (poolCall fn) (s, some e)).2 = some e := by
  induction calls generalizing s with
  | nil => rfl
  | cons i calls ih =>
      rw [List.foldl_cons, poolCall]
      cases fn s i with
      | ok s' => exact ih s'
      | error e' => exact ih s

/-- A job whose calls all reject their configuration rejects it. -/
theorem runJob_rejects {σ : Type} {fn : σ → Nat → Result σ} {count : Nat} (workers : Int)
    (order : Order count) (hcount : 0 < count) (h : ∀ s, ∀ i < count, Rejects (fn s i)) (s : σ) :
    Rejects (runJob workers order fn s) := by
  unfold runJob
  split
  case isTrue =>
    obtain ⟨what, hwhat⟩ := h s 0 hcount
    obtain ⟨n, rfl⟩ : ∃ n, count = n + 1 := ⟨count - 1, by omega⟩
    refine ⟨what, ?_⟩
    rw [List.range_succ_eq_map, List.foldlM_cons, hwhat]
    rfl
  case isFalse =>
    obtain ⟨i, calls, hcalls⟩ : ∃ i calls, order.calls = i :: calls := by
      refine List.exists_cons_of_ne_nil fun hnil => ?_
      have hlen := order.perm.length_eq
      rw [hnil, List.length_range] at hlen
      exact absurd hlen (by simp; omega)
    have hi : i < count := List.mem_range.mp (order.perm.subset (by simp [hcalls]))
    obtain ⟨what, hwhat⟩ := h s i hi
    have hfirst : (order.calls.foldl (poolCall fn) (s, none)).2
        = some (.invalidArgument what) := by
      rw [hcalls, List.foldl_cons, poolCall, hwhat]
      exact foldl_poolCall_some fn calls s _
    refine ⟨what, ?_⟩
    unfold forEach
    split
    case h_1 hnone =>
      rw [hnone] at hfirst
      cases hfirst
    case h_2 s' e hsome =>
      rw [hsome] at hfirst
      cases hfirst
      rfl

end Jobs

/-- A loop that appends a piece in every round. -/
theorem foldlM_appends {fn : List UInt8 → Nat → Result (List UInt8)} {g : Nat → List UInt8}
    {calls : List Nat} (h : ∀ i ∈ calls, ∀ out, fn out i = .ok (out ++ g i)) (out : List UInt8) :
    calls.foldlM fn out = .ok (out ++ (calls.map g).flatten) := by
  induction calls generalizing out with
  | nil => simp
  | cons i calls ih =>
      rw [List.foldlM_cons, h i List.mem_cons_self, bind_ok,
        ih fun j hj => h j (List.mem_cons_of_mem _ hj)]
      simp

/-! ## The encoder in memory -/

theorem lt_of_le_maxSize {size : Nat} (hmax : size ≤ maxSize) : size < 2 ^ 64 :=
  Nat.lt_of_le_of_lt hmax (by decide)

/-- On data that is in memory the sum for the count of blocks does not wrap. -/
theorem add_le_of_lt {size blockSize : Nat} (hlt : blockSize < size) (hmax : size ≤ maxSize) :
    size + blockSize ≤ 2 ^ 64 := by
  unfold maxSize at hmax
  omega

theorem blockCountFor_eq {size blockSize : Nat} (hsum : size + blockSize ≤ 2 ^ 64) :
    blockCountFor size blockSize = count blockSize size := by
  rw [blockCountFor, u64_of_lt (by omega), count]

theorem blockSpan_eq {size blockSize i : Nat} (hpos : 0 < blockSize) (hsize : size < 2 ^ 64)
    (hi : i < count blockSize size) :
    blockSpan size blockSize i = .ok (i * blockSize, min blockSize (size - i * blockSize)) := by
  have hlt := (lt_count hpos).mp hi
  rw [blockSpan, u64_of_lt (by omega), minus_of_le hlt.le]
  rfl

/-- A chunk with its framing. -/
def frameOf (algorithm : Algorithm) (config : Config) (chunk : List UInt8) : List UInt8 :=
  framed chunk.length (blockOf algorithm config chunk)

theorem framesOf_map (algorithm : Algorithm) (config : Config) (chunks : List (List UInt8)) :
    framesOf chunks (chunks.map (blockOf algorithm config))
      = (chunks.map (frameOf algorithm config)).flatten := by
  rw [framesOf, List.zipWith_map_right, List.zipWith_self]
  rfl

section InMemory
variable {data : List UInt8} {options : Options}

theorem mem_chunks {size i : Nat} {xs : List UInt8} (hi : i < count size xs.length) :
    piece size xs i ∈ chunks size xs :=
  List.mem_map_of_mem (List.mem_range.mpr hi)

theorem encodeChunk_eq (hpos : 0 < options.blockSize) (hmax : data.length ≤ maxSize) {i : Nat}
    (hi : i < count options.blockSize data.length) :
    encodeChunk data options i
      = encodeBlock (piece options.blockSize data i) options.algorithm options.lz77 := by
  have hlt := (lt_count hpos).mp hi
  rw [encodeChunk, blockSpan_eq hpos (lt_of_le_maxSize hmax) hi, bind_ok]
  simp only []
  rw [slice_of_le (by omega), bind_ok, piece]
  congr 1
  rw [← List.length_drop, ← List.take_eq_take_min]

theorem compressOne_eq (data : List UInt8) (options : Options) :
    compressOne data options = slotCall (encodeChunk data options) := rfl

theorem appendChunk_eq (hpos : 0 < options.blockSize) (hmax : data.length ≤ maxSize) {i : Nat}
    (hi : i < count options.blockSize data.length) (out : List UInt8) :
    appendChunk data options ((chunks options.blockSize data).map
        (blockOf options.algorithm options.lz77)) out i
      = .ok (out ++ frameOf options.algorithm options.lz77 (piece options.blockSize data i)) := by
  have hfetch : fetch ((chunks options.blockSize data).map
      (blockOf options.algorithm options.lz77)) i
      = .ok (blockOf options.algorithm options.lz77 (piece options.blockSize data i)) := by
    refine fetch_of_getElem? ?_
    rw [chunks, List.map_map, List.getElem?_map, List.getElem?_range hi]
    rfl
  rw [appendChunk, blockSpan_eq hpos (lt_of_le_maxSize hmax) hi, bind_ok]
  simp only []
  rw [hfetch, bind_ok, appendBlock_eq, frameOf, length_piece]
  rfl

theorem compressBlocked_ok (env : Environment) (hpos : 0 < options.blockSize)
    (hlt : options.blockSize < data.length) (hmax : data.length ≤ maxSize)
    (h : ∀ chunk ∈ chunks options.blockSize data,
      encodeBlock chunk options.algorithm options.lz77
        = .ok (blockOf options.algorithm options.lz77 chunk)) :
    compressBlocked env data options
      = .ok (header .blocked data.length ++ ((chunks options.blockSize data).map
          (frameOf options.algorithm options.lz77)).flatten) := by
  have hcalls : ∀ i < count options.blockSize data.length, encodeChunk data options i
      = .ok (blockOf options.algorithm options.lz77 (piece options.blockSize data i)) :=
    fun i hi => (encodeChunk_eq hpos hmax hi).trans (h _ (mem_chunks hi))
  have hencoded := runJob_ok (resolveThreadCount env options.threads)
    (env.order 0 (count options.blockSize data.length)) hcalls
    (Nat.le_of_eq List.length_replicate.symm : _ ≤ (List.replicate _ ({} : EncodedBlock)).length)
  have hslots : (List.range (count options.blockSize data.length)).map
        (fun i => blockOf options.algorithm options.lz77 (piece options.blockSize data i))
        ++ (List.replicate (count options.blockSize data.length) ({} : EncodedBlock)).drop
          (count options.blockSize data.length)
      = (chunks options.blockSize data).map (blockOf options.algorithm options.lz77) := by
    rw [List.drop_of_length_le (by simp), List.append_nil, chunks, List.map_map]
    rfl
  rw [hslots] at hencoded
  rw [compressBlocked, blockCountFor_eq (add_le_of_lt hlt hmax), compressOne_eq, hencoded, bind_ok]
  simp only []
  rw [foldlM_appends fun i hi out => appendChunk_eq hpos hmax (List.mem_range.mp hi) out,
    putHeader_eq, chunks, List.map_map]
  rfl

theorem compressBlocked_error (env : Environment) (hpos : 0 < options.blockSize)
    (hlt : options.blockSize < data.length) (hmax : data.length ≤ maxSize)
    (h : ∃ chunk ∈ chunks options.blockSize data,
      ∃ e, encodeBlock chunk options.algorithm options.lz77 = .error e) :
    ∃ e, compressBlocked env data options = .error e := by
  obtain ⟨chunk, hmem, e, he⟩ := h
  obtain ⟨i, hi, rfl⟩ := List.mem_map.mp hmem
  have hi := List.mem_range.mp hi
  rw [← encodeChunk_eq hpos hmax hi] at he
  obtain ⟨e', he'⟩ := runJob_error (resolveThreadCount env options.threads)
    (env.order 0 (count options.blockSize data.length)) hi
    (fun slots => ⟨e, by rw [slotCall, he]; rfl⟩ :
      ∀ slots, ∃ e, slotCall (encodeChunk data options) slots i = .error e)
    (List.replicate _ {})
  refine ⟨e', ?_⟩
  rw [compressBlocked, blockCountFor_eq (add_le_of_lt hlt hmax), compressOne_eq, he']
  rfl

theorem compressBlocked_rejects (env : Environment) (hpos : 0 < options.blockSize)
    (hlt : options.blockSize < data.length) (hmax : data.length ≤ maxSize)
    (hok : ¬ options.algorithm.Accepts options.lz77) :
    Rejects (compressBlocked env data options) := by
  have hcount : 0 < count options.blockSize data.length := (lt_count hpos).mpr (by omega)
  obtain ⟨what, hwhat⟩ := runJob_rejects (resolveThreadCount env options.threads)
    (env.order 0 (count options.blockSize data.length)) hcount
    (fun slots i hi => slotCall_rejects
      ((encodeChunk_eq hpos hmax hi).symm ▸ encodeBlock_rejects hok (piece_ne_nil hpos hi)) slots :
      ∀ slots, ∀ i < count options.blockSize data.length,
        Rejects (slotCall (encodeChunk data options) slots i))
    (List.replicate _ {})
  refine ⟨what, ?_⟩
  rw [compressBlocked, blockCountFor_eq (add_le_of_lt hlt hmax), compressOne_eq, hwhat]
  rfl

/-- Data of one block at most is not split. -/
theorem container_of_le (algorithm : Algorithm) (config : Config) {blockSize : Nat}
    (hle : data.length ≤ blockSize) :
    container algorithm config blockSize data =
      if data = [] then pure (header .stored 0)
      else (do
        let block ← encodeBlock data algorithm config
        pure (header block.method data.length ++ block.payload)) := by
  unfold container
  rw [if_neg (Nat.not_lt_of_le hle)]

theorem compress_of_le (env : Environment) {blockSize : Nat}
    (h : shouldBlock data.length options = false) (hle : data.length ≤ blockSize) :
    compress env data options = container options.algorithm options.lz77 blockSize data := by
  rw [container_of_le _ _ hle, compress, h]
  by_cases hdata : data = []
  · rw [if_pos hdata, if_pos (List.length_eq_zero_iff.mpr hdata), putHeader_eq]
  · rw [if_neg hdata, if_neg (fun hlen => hdata (List.length_eq_zero_iff.mp hlen)),
      if_neg Bool.false_ne_true]
    simp only [compressSingleBlock, putHeader_eq]

theorem compress_of_lt (env : Environment) (hpos : 0 < options.blockSize)
    (hlt : options.blockSize < data.length) :
    compress env data options = compressBlocked env data options := by
  rw [compress, if_neg (by omega), shouldBlock, decide_eq_true hpos, decide_eq_true hlt]
  rfl

theorem shouldBlock_eq_false (h : options.blockSize = 0 ∨ data.length ≤ options.blockSize) :
    shouldBlock data.length options = false := by
  rw [shouldBlock, Bool.and_eq_false_iff]
  rcases h with h | h
  · exact Or.inl (decide_eq_false (by omega))
  · exact Or.inr (decide_eq_false (by omega))

/-- The block size of `compress`; 0 is one block. -/
def memoryBlockSize (options : Options) (data : List UInt8) : Nat :=
  if 0 < options.blockSize then options.blockSize else data.length

/-- A container in several blocks: all chunks are encoded, or one of them throws. -/
theorem container_of_lt {algorithm : Algorithm} {config : Config} {blockSize : Nat}
    (hlt : blockSize < data.length) :
    ((∀ chunk ∈ chunks blockSize data,
        encodeBlock chunk algorithm config = .ok (blockOf algorithm config chunk)) ∧
      container algorithm config blockSize data = .ok (header .blocked data.length
        ++ ((chunks blockSize data).map (frameOf algorithm config)).flatten)) ∨
    ((∃ chunk ∈ chunks blockSize data, ∃ e, encodeBlock chunk algorithm config = .error e) ∧
      ∃ e, container algorithm config blockSize data = .error e) := by
  have hsplit : container algorithm config blockSize data = (do
      let blocks ← encodeAll algorithm config (chunks blockSize data)
      pure (header .blocked data.length ++ framesOf (chunks blockSize data) blocks)) := by
    rw [container, if_neg (List.ne_nil_of_length_pos (by omega)), if_pos hlt]
  rcases chunks_cases algorithm config (chunks blockSize data) with h | ⟨chunk, hmem, herr⟩
  · refine Or.inl ⟨h, ?_⟩
    rw [hsplit, encodeAll_ok h, bind_ok, framesOf_map]
    rfl
  · obtain ⟨e, he⟩ := encodeAll_error hmem herr
    exact Or.inr ⟨⟨chunk, hmem, herr⟩, e, by rw [hsplit, he]; rfl⟩

theorem memoryBlockSize_cases (options : Options) (data : List UInt8) :
    (shouldBlock data.length options = false ∧ data.length ≤ memoryBlockSize options data) ∨
      (0 < options.blockSize ∧ options.blockSize < data.length ∧
        memoryBlockSize options data = options.blockSize) := by
  unfold memoryBlockSize
  by_cases hpos : 0 < options.blockSize
  · rw [if_pos hpos]
    rcases Nat.lt_or_ge options.blockSize data.length with hlt | hle
    · exact Or.inr ⟨hpos, hlt, rfl⟩
    · exact Or.inl ⟨shouldBlock_eq_false (Or.inr hle), hle⟩
  · rw [if_neg hpos]
    exact Or.inl ⟨shouldBlock_eq_false (Or.inl (by omega)), Nat.le_refl _⟩

/-- The encoder in memory returns the container, for any number of workers and any order. -/
theorem compress_ok (env : Environment) (hmax : data.length ≤ maxSize) {c : List UInt8}
    (h : container options.algorithm options.lz77 (memoryBlockSize options data) data = .ok c) :
    compress env data options = .ok c := by
  rcases memoryBlockSize_cases options data with ⟨hsingle, hle⟩ | ⟨hpos, hlt, hsize⟩
  · rw [compress_of_le env hsingle hle]
    exact h
  · rw [hsize] at h
    rcases container_of_lt hlt with ⟨hall, hc⟩ | ⟨-, e, he⟩
    · rw [hc] at h
      cases h
      rw [compress_of_lt env hpos hlt]
      exact compressBlocked_ok env hpos hlt hmax hall
    · rw [he] at h
      cases h

theorem compress_error (env : Environment) (hmax : data.length ≤ maxSize) {e : Error}
    (h : container options.algorithm options.lz77 (memoryBlockSize options data) data
      = .error e) :
    ∃ e', compress env data options = .error e' := by
  rcases memoryBlockSize_cases options data with ⟨hsingle, hle⟩ | ⟨hpos, hlt, hsize⟩
  · rw [compress_of_le env hsingle hle]
    exact ⟨e, h⟩
  · rw [hsize] at h
    rcases container_of_lt hlt with ⟨-, hc⟩ | ⟨hbad, -⟩
    · rw [hc] at h
      cases h
    · rw [compress_of_lt env hpos hlt]
      exact compressBlocked_error env hpos hlt hmax hbad

theorem container_rejects {algorithm : Algorithm} {config : Config}
    (hok : ¬ algorithm.Accepts config) (hdata : data ≠ []) {blockSize : Nat}
    (hle : data.length ≤ blockSize) : Rejects (container algorithm config blockSize data) := by
  obtain ⟨what, hwhat⟩ := encodeBlock_rejects hok hdata
  refine ⟨what, ?_⟩
  rw [container_of_le algorithm config hle, if_neg hdata, hwhat]
  rfl

theorem compress_rejects (env : Environment) (hmax : data.length ≤ maxSize)
    (hok : ¬ options.algorithm.Accepts options.lz77) (hdata : data ≠ []) :
    Rejects (compress env data options) := by
  rcases memoryBlockSize_cases options data with ⟨hsingle, hle⟩ | ⟨hpos, hlt, -⟩
  · rw [compress_of_le env hsingle hle]
    exact container_rejects hok hdata hle
  · rw [compress_of_lt env hpos hlt]
    exact compressBlocked_rejects env hpos hlt hmax hok

end InMemory

end Compressly

/-
# `Compressly.Codec.ShortStream` — a stream and its declared size

`compressStream` is told how many bytes its stream holds.  Two facts about one
batch carry to the whole run, whatever the stream holds:

    it reads the bytes of its blocks, or throws      (`runBatch_exits`)
    it does not look at what follows them            (`runBatch_feed`)

So a run that returns has read the declared number of bytes, and did what it
does on exactly these (`delivers_of_fits`).  All this is about the blocks the
loop is given.  Their count is a quotient of a 64-bit sum, and where the sum
wraps there are none: the run writes a header and returns, whatever the stream
(`compressStream_wraps`).
-/
import Compressly.Codec.Stream

namespace Compressly

open Chunks LZ77 Parse

/-! ## Runs without faults -/

/-- `r` is a value satisfying `P`, or one of the exceptions was thrown. -/
def Exits {α : Type} (r : Result α) (P : α → Prop) : Prop :=
  match r with
  | .ok a => P a
  | .error e => e ≠ .fault

section Exits
variable {α β : Type} {P : α → Prop} {Q : β → Prop}

@[simp] theorem exits_ok (a : α) : Exits (.ok a) P ↔ P a := Iff.rfl

@[simp] theorem exits_error (e : Error) : Exits (.error e : Result α) P ↔ e ≠ .fault := Iff.rfl

theorem Exits.bind {r : Result α} {f : α → Result β} (hr : Exits r P)
    (hf : ∀ a, P a → Exits (f a) Q) : Exits (r >>= f) Q := by
  cases r with
  | ok a => exact hf a hr
  | error e => exact hr

theorem Exits.mono {r : Result α} {P' : α → Prop} (hr : Exits r P) (h : ∀ a, P a → P' a) :
    Exits r P' := by
  cases r with
  | ok a => exact h a hr
  | error e => exact hr

theorem exits_of_rejects {r : Result α} (h : Rejects r) : Exits r P := by
  obtain ⟨what, rfl⟩ := h
  exact Error.noConfusion

theorem exits_foldlM {σ ι : Type} {f : σ → ι → Result σ} {I : σ → Prop} {l : List ι}
    (hround : ∀ s, I s → ∀ i ∈ l, Exits (f s i) I) {s : σ} (h : I s) :
    Exits (l.foldlM f s) I := by
  induction l generalizing s with
  | nil => exact h
  | cons i l ih =>
      rw [List.foldlM_cons]
      exact (hround s h i List.mem_cons_self).bind fun s' hs' =>
        ih (fun s hs j hj => hround s hs j (List.mem_cons_of_mem _ hj)) hs'

end Exits

/-! ## Jobs -/

section Jobs
variable {σ : Type} {fn : σ → Nat → Result σ} {I : σ → Prop} {count : Nat}

theorem foldl_poolCall_exits {calls : List Nat} (hcall : ∀ s, I s → ∀ i ∈ calls, Exits (fn s i) I)
    {s : σ × Option Error} (hs : I s.1) (he : s.2 ≠ some .fault) :
    I (calls.foldl (poolCall fn) s).1 ∧ (calls.foldl (poolCall fn) s).2 ≠ some .fault := by
  induction calls generalizing s with
  | nil => exact ⟨hs, he⟩
  | cons i calls ih =>
      have hfirst := hcall s.1 hs i List.mem_cons_self
      have hrest : ∀ s, I s → ∀ j ∈ calls, Exits (fn s j) I :=
        fun s hs j hj => hcall s hs j (List.mem_cons_of_mem _ hj)
      rw [List.foldl_cons]
      cases hrun : fn s.1 i with
      | ok s' =>
          rw [hrun, exits_ok] at hfirst
          have hstep : poolCall fn s i = (s', s.2) := by simp only [poolCall, hrun]
          rw [hstep]
          exact ih hrest hfirst he
      | error e =>
          rw [hrun, exits_error] at hfirst
          have hstep : poolCall fn s i = (s.1, s.2.or (some e)) := by simp only [poolCall, hrun]
          rw [hstep]
          refine ih hrest hs ?_
          cases hprev : s.2 with
          | none => exact fun heq => hfirst (Option.some.inj heq)
          | some e' =>
              rw [hprev] at he
              exact he

theorem runJob_exits (workers : Int) (order : Order count)
    (hcall : ∀ s, I s → ∀ i < count, Exits (fn s i) I) {s : σ} (hs : I s) :
    Exits (runJob workers order fn s) I := by
  unfold runJob
  split
  case isTrue =>
    exact exits_foldlM (fun s hs i hi => hcall s hs i (List.mem_range.mp hi)) hs
  case isFalse =>
    have hcalls : ∀ s, I s → ∀ i ∈ order.calls, Exits (fn s i) I :=
      fun s hs i hi => hcall s hs i (List.mem_range.mp (order.perm.subset hi))
    obtain ⟨hI, hfault⟩ := foldl_poolCall_exits hcalls (s := (s, none)) hs (by simp)
    unfold forEach
    split
    case h_1 s' heq =>
      rw [heq] at hI
      exact hI
    case h_2 s' e heq =>
      rw [heq] at hfault
      exact fun he => hfault (congrArg some he)

end Jobs

/-! ## One batch on any stream -/

theorem encodeBlock_exits (data : List UInt8) (algorithm : Algorithm) (config : Config) :
    Exits (encodeBlock data algorithm config) fun _ => True := by
  by_cases hok : algorithm.Accepts config
  · obtain ⟨b, hb, -⟩ := encodeBlock_spec hok data
    rw [hb]
    trivial
  · by_cases hdata : data = []
    · subst hdata
      trivial
    · exact exits_of_rejects (encodeBlock_rejects hok hdata)

/-- The bytes before block `k`. -/
def bytesBefore (totalSize blockSize k : Nat) : Nat := min totalSize (k * blockSize)

theorem bytesBefore_succ {totalSize blockSize k : Nat} (h : k * blockSize < totalSize) :
    bytesBefore totalSize blockSize (k + 1)
      = bytesBefore totalSize blockSize k + min blockSize (totalSize - k * blockSize) := by
  have hstep : (k + 1) * blockSize = k * blockSize + blockSize := Nat.succ_mul k blockSize
  unfold bytesBefore
  omega

theorem bytesBefore_count {blockSize : Nat} (hpos : 0 < blockSize) (totalSize : Nat) :
    bytesBefore totalSize blockSize (count blockSize totalSize) = totalSize := by
  refine Nat.min_eq_left (Nat.le_of_not_lt fun hlt => ?_)
  exact Nat.lt_irrefl _ ((lt_count hpos).mpr hlt)

section AnyStream
variable {options : Options} {totalSize blockSize batch done here : Nat}
  (hpos : 0 < blockSize) (hsize : totalSize < 2 ^ 64)

/-- The slots once `read` bytes are gone from a stream of `size`. -/
structure Fed (batch size read : Nat) (slots : Slots) : Prop where
  inputs : slots.inputs.length = batch
  input : slots.input.length + read = size

include hpos hsize

theorem fillSlot_exits {i size : Nat} (hi : done + i < count blockSize totalSize) (hslot : i < batch)
    {s : Slots} (hs : Fed batch size (bytesBefore totalSize blockSize (done + i)) s) :
    Exits (fillSlot totalSize blockSize done s i)
      (Fed batch size (bytesBefore totalSize blockSize (done + (i + 1)))) := by
  have hbefore := bytesBefore_succ ((lt_count hpos).mp hi)
  rw [fillSlot, blockSpan_eq hpos hsize hi, bind_ok]
  simp only [readExactly_eq]
  cases hread : chunk kEndedEarly (min blockSize (totalSize - (done + i) * blockSize)) s.input with
  | error e =>
      unfold chunk at hread
      split at hread
      case isTrue =>
        cases hread
        exact Error.noConfusion
      case isFalse => cases hread
  | ok ar =>
      obtain ⟨data, rest⟩ := ar
      have hlen := (chunk_length hread).2
      have hinputs := hs.inputs
      have hinput := hs.input
      rw [bind_ok]
      simp only []
      rw [store_of_lt (hinputs.symm ▸ hslot), bind_ok, pure_eq_ok, exits_ok]
      refine ⟨?_, ?_⟩
      · rw [List.length_set, hinputs]
      · simp only []
        rw [← Nat.add_assoc, hbefore]
        omega

theorem foldlM_fillSlot_exits {size : Nat} (hdone : done + here ≤ count blockSize totalSize)
    (hhere : here ≤ batch) {s : Slots}
    (hs : Fed batch size (bytesBefore totalSize blockSize done) s) :
    Exits ((List.range here).foldlM (fillSlot totalSize blockSize done) s)
      (Fed batch size (bytesBefore totalSize blockSize (done + here))) := by
  induction here with
  | zero => exact hs
  | succ here ih =>
      rw [List.range_succ, List.foldlM_append]
      refine (ih (by omega) (by omega)).bind fun s' hs' => ?_
      rw [List.foldlM_cons]
      refine (fillSlot_exits hpos hsize (by omega) (by omega) hs').bind fun s'' hs'' => ?_
      exact hs''

/-- A batch that returns has read the bytes of its blocks. -/
theorem runBatch_exits (env : Environment) (job : Nat) {size : Nat}
    (hdone : done + here ≤ count blockSize totalSize) (hhere : here ≤ batch) {slots : Slots}
    (hs : Fed batch size (bytesBefore totalSize blockSize done) slots)
    {encoded : List EncodedBlock} (hencoded : encoded.length = batch) (written : List UInt8) :
    Exits (runBatch env options totalSize blockSize job done here slots encoded written)
      fun r => Fed batch size (bytesBefore totalSize blockSize (done + here)) r.1 ∧
        r.2.1.length = batch := by
  unfold runBatch
  refine (foldlM_fillSlot_exits hpos hsize hdone hhere hs).bind fun slots' hs' => ?_
  have hcall : ∀ encoded : List EncodedBlock, encoded.length = batch → ∀ i < here,
      Exits (compressSlot options slots'.inputs encoded i) fun e => e.length = batch := by
    intro encoded hlen i hi
    have hslot : i < slots'.inputs.length := hs'.inputs.symm ▸ Nat.lt_of_lt_of_le hi hhere
    rw [compressSlot, fetch_of_lt hslot, bind_ok]
    refine (encodeBlock_exits _ _ _).bind fun block _ => ?_
    rw [store_of_lt (by omega), exits_ok, List.length_set, hlen]
  refine (runJob_exits _ _ hcall hencoded).bind fun encoded' hlen => ?_
  have hwrite : Exits ((List.range here).foldlM (writeSlot slots'.inputs encoded') written)
      fun _ => True := by
    refine exits_foldlM (fun out _ i hi => ?_) trivial
    have hi := List.mem_range.mp hi
    have hslot : i < slots'.inputs.length := hs'.inputs.symm ▸ Nat.lt_of_lt_of_le hi hhere
    have hblock : i < encoded'.length := by omega
    rw [writeSlot, frameSlot, fetch_of_lt hslot, bind_ok, fetch_of_lt hblock]
    trivial
  exact hwrite.bind fun written' _ => ⟨hs', hlen⟩

/-- The loop on any stream: where it returns, it has read the rest of the declared size. -/
theorem batchLoop_exits (env : Environment) (hbatch : 0 < batch) {size : Nat} (left job done : Nat)
    (hleft : done + left = count blockSize totalSize) {slots : Slots}
    (hs : Fed batch size (bytesBefore totalSize blockSize done) slots)
    {encoded : List EncodedBlock} (hencoded : encoded.length = batch) (written : List UInt8) :
    Exits (batchLoop env options totalSize blockSize (count blockSize totalSize) hbatch job done
      slots encoded written).result fun _ => totalSize ≤ size := by
  induction left using Nat.strong_induction_on generalizing job done slots encoded written with
  | h left ih =>
      rw [batchLoop]
      rcases Nat.eq_zero_or_pos left with rfl | hlt
      · rw [if_neg (by omega), exits_ok]
        have hread := hs.input
        have hall := bytesBefore_count hpos totalSize
        rw [← hleft, Nat.add_zero] at hall
        omega
      · rw [if_pos (by omega)]
        have hsub : count blockSize totalSize - done = left := by omega
        rw [hsub]
        have hhere : min batch left ≤ batch := Nat.min_le_left _ _
        have hdone : done + min batch left ≤ count blockSize totalSize := by omega
        have hrun : Exits (runBatch env options totalSize blockSize job done (min batch left) slots
            encoded written) _ := runBatch_exits hpos hsize env job hdone hhere hs hencoded written
        cases hbatch' : runBatch env options totalSize blockSize job done (min batch left) slots
            encoded written with
        | error e =>
            rw [hbatch'] at hrun
            exact hrun
        | ok r =>
            rw [hbatch', exits_ok] at hrun
            exact ih (left - min batch left) (by omega) (job + 1) (done + min batch left) (by omega)
              hrun.1 hrun.2 _

end AnyStream

/-! ## What follows the blocks -/

/-- The same slots, before a longer stream. -/
def Slots.feed (s : Slots) (rest : List UInt8) : Slots := { s with input := s.input ++ rest }

section Feed
variable {data : List UInt8} {options : Options} {blockSize batch : Nat}

theorem fillSlot_feed {totalSize done i : Nat} {s s' : Slots}
    (h : fillSlot totalSize blockSize done s i = .ok s') (rest : List UInt8) :
    fillSlot totalSize blockSize done (s.feed rest) i = .ok (s'.feed rest) := by
  unfold fillSlot at h ⊢
  obtain ⟨span, hspan, h⟩ := bind_eq_ok.mp h
  obtain ⟨read, hread, h⟩ := bind_eq_ok.mp h
  obtain ⟨inputs, hstore, h⟩ := bind_eq_ok.mp h
  cases h
  rw [readExactly_eq] at hread
  have hlong := stable_chunk kEndedEarly span.2 s.input read.1 read.2 hread rest
  simp only [hspan, bind_ok, Slots.feed, readExactly_eq, hlong, hstore]
  rfl

theorem foldlM_fillSlot_feed {totalSize done : Nat} {calls : List Nat} {s s' : Slots}
    (h : calls.foldlM (fillSlot totalSize blockSize done) s = .ok s') (rest : List UInt8) :
    calls.foldlM (fillSlot totalSize blockSize done) (s.feed rest) = .ok (s'.feed rest) := by
  induction calls generalizing s with
  | nil =>
      cases h
      rfl
  | cons i calls ih =>
      rw [List.foldlM_cons] at h ⊢
      obtain ⟨s₁, hfirst, h⟩ := bind_eq_ok.mp h
      rw [fillSlot_feed hfirst rest, bind_ok]
      exact ih h

/-- A batch that finds its bytes leaves what follows them alone. -/
theorem runBatch_feed (env : Environment) {totalSize job done here : Nat} {slots slots' : Slots}
    (hfill : (List.range here).foldlM (fillSlot totalSize blockSize done) slots = .ok slots')
    (encoded : List EncodedBlock) (written rest : List UInt8) :
    runBatch env options totalSize blockSize job done here (slots.feed rest) encoded written
      = (fun r => (r.1.feed rest, r.2)) <$>
          runBatch env options totalSize blockSize job done here slots encoded written := by
  unfold runBatch
  rw [hfill, foldlM_fillSlot_feed hfill rest, bind_ok, bind_ok]
  show (runJob _ _ (compressSlot options slots'.inputs) encoded >>= _) = _
  cases runJob (resolveThreadCount env options.threads) (env.order job here)
      (compressSlot options slots'.inputs) encoded with
  | error e => rfl
  | ok encoded' =>
      rw [bind_ok, bind_ok]
      show ((List.range here).foldlM (writeSlot slots'.inputs encoded') written >>= _) = _
      cases (List.range here).foldlM (writeSlot slots'.inputs encoded') written with
      | error e => rfl
      | ok written' => rfl

theorem batchLoop_feed (env : Environment) (hpos : 0 < blockSize) (hsize : data.length < 2 ^ 64)
    (hbatch : 0 < batch) (rest : List UInt8) (left job done : Nat)
    (hleft : done + left = count blockSize data.length) {slots : Slots}
    {encoded : List EncodedBlock} (hs : Batched data blockSize batch done slots encoded)
    (written : List UInt8) :
    batchLoop env options data.length blockSize (count blockSize data.length) hbatch job done
        (slots.feed rest) encoded written
      = batchLoop env options data.length blockSize (count blockSize data.length) hbatch job done
        slots encoded written := by
  induction left using Nat.strong_induction_on generalizing job done slots encoded written with
  | h left ih =>
      rw [batchLoop, batchLoop]
      rcases Nat.eq_zero_or_pos left with rfl | hlt
      · rw [if_neg (by omega), if_neg (by omega)]
      · rw [if_pos (by omega), if_pos (by omega)]
        have hsub : count blockSize data.length - done = left := by omega
        rw [hsub]
        have hhere : min batch left ≤ batch := Nat.min_le_left _ _
        have hfill := foldlM_fillSlot hpos hsize
          (by omega : done + min batch left ≤ count blockSize data.length) hs.input
          (hs.inputs.symm ▸ hhere)
        rw [runBatch_feed env hfill]
        -- a block that throws ends both loops
        by_cases hbad : ∃ j < min batch left, ∃ e,
            encodeBlock (piece blockSize data (done + j)) options.algorithm options.lz77 = .error e
        · obtain ⟨j, hj, he⟩ := hbad
          obtain ⟨e, hrun⟩ := runBatch_error env hpos hsize job hhere (by omega) hs hj he written
          rw [hrun, map_error]
        · push Not at hbad
          have hrun := runBatch_ok env hpos hsize job hhere (by omega) hs
            (fun j hj => (encodeBlock_cases _ _ _).resolve_right fun herr => herr.elim (hbad j hj))
            written
          rw [hrun, map_ok]
          exact ih (left - min batch left) (by omega) (job + 1) (done + min batch left) (by omega)
            (hs.next hhere) _

end Feed

/-! ## The declared size -/

section Declared
variable {options : Options}

/-- A stream that holds the declared size and more is read as far as the declared size. -/
theorem compressStream_append (env : Environment) {data : List UInt8}
    (hfits : streamBlockSize options < data.length →
      data.length + streamBlockSize options ≤ 2 ^ 64) (rest : List UInt8) :
    compressStream env (data ++ rest) data.length options
      = compressStream env data data.length options := by
  rcases Nat.lt_or_ge (streamBlockSize options) data.length with hlt | hle
  · have hsum := hfits hlt
    rw [compressStream_of_gt env _ hlt, compressStream_of_gt env _ hlt, blockCountFor_eq hsum]
    exact batchLoop_feed env (streamBlockSize_pos options) (length_lt_of_add_le hsum) _ rest _ 0 0
      (Nat.zero_add _) (batched_firstSlots _ _ _) _
  · have hread : ∀ more : List UInt8,
        readExactly kEndedEarly data.length (data ++ more) = .ok (data, more) := by
      intro more
      rw [readExactly_eq]
      exact chunk_append kEndedEarly data more
    have hread' := hread []
    rw [List.append_nil] at hread'
    change (if data.length ≤ streamBlockSize options then _ else _)
      = (if data.length ≤ streamBlockSize options then _ else _)
    rw [if_pos hle, if_pos hle, hread, hread']

/-- Where the sum for the count of blocks wraps, there are no blocks. -/
theorem blockCountFor_of_lt {size blockSize : Nat} (hsize : size < 2 ^ 64)
    (hsum : 2 ^ 64 < size + blockSize) : blockCountFor size blockSize = 0 := by
  have hwrap : u64 (size + blockSize - 1) < blockSize := by
    unfold u64
    omega
  exact Nat.div_eq_of_lt hwrap

/-- The count of blocks is the rounded quotient exactly where its sum does not wrap. -/
theorem blockCountFor_eq_iff {size blockSize : Nat} (hpos : 0 < blockSize) (hsize : size < 2 ^ 64)
    (hblock : blockSize < 2 ^ 64) :
    blockCountFor size blockSize = count blockSize size ↔ size + blockSize ≤ 2 ^ 64 := by
  refine ⟨fun heq => ?_, blockCountFor_eq⟩
  by_contra hsum
  rw [blockCountFor_of_lt hsize (by omega)] at heq
  have hcount : 0 < count blockSize size := (lt_count hpos).mpr (by omega)
  omega

/-- Then the run writes the header and returns, whatever the stream holds. -/
theorem compressStream_wraps (env : Environment) (input : List UInt8) {totalSize : Nat}
    (hsize : totalSize < 2 ^ 64) (hlt : streamBlockSize options < totalSize)
    (hsum : 2 ^ 64 < totalSize + streamBlockSize options) :
    compressStream env input totalSize options
      = { written := header .blocked totalSize, result := .ok () } := by
  rw [compressStream_of_gt env input hlt, blockCountFor_of_lt hsize hsum, batchLoop,
    if_neg (Nat.lt_irrefl 0)]

/-- What `compressStream` owes to a caller that declares `totalSize` bytes. -/
structure Delivers (env : Environment) (input : List UInt8) (totalSize : Nat) (options : Options) :
    Prop where
  /-- It returns, or it throws. -/
  exits : Exits (compressStream env input totalSize options).result fun _ => True
  /-- It returns on no shorter stream. -/
  delivered : (compressStream env input totalSize options).result = .ok () →
    totalSize ≤ input.length
  /-- It has written the frames of the blocks of the first `totalSize` bytes. -/
  frames : (compressStream env input totalSize options).result = .ok () →
    streamBlockSize options < totalSize →
    ∃ blocks, encodeAll options.algorithm options.lz77
        (chunks (streamBlockSize options) (input.take totalSize)) = .ok blocks ∧
      blocks.length = count (streamBlockSize options) totalSize ∧
      (compressStream env input totalSize options).written = header .blocked totalSize ++
        framesOf (chunks (streamBlockSize options) (input.take totalSize)) blocks
  /-- No block's offset or length wraps. -/
  spans : ∀ i < count (streamBlockSize options) totalSize,
    blockSpan totalSize (streamBlockSize options) i
      = .ok (i * streamBlockSize options,
          min (streamBlockSize options) (totalSize - i * streamBlockSize options))

theorem compress_exits_of_le (env : Environment) {data : List UInt8}
    (hle : data.length ≤ streamBlockSize options) :
    Exits (compress env data options) fun _ => True := by
  unfold compress
  rw [shouldBlock_of_le_stream hle]
  split
  case isTrue => trivial
  case isFalse => exact (encodeBlock_exits _ _ _).bind fun block _ => trivial

/-- Where the count of blocks is right, a run that returns has read the declared size. -/
theorem compressStream_exits (env : Environment) (input : List UInt8) {totalSize : Nat}
    (hsize : totalSize < 2 ^ 64)
    (hfits : streamBlockSize options < totalSize →
      totalSize + streamBlockSize options ≤ 2 ^ 64) :
    Exits (compressStream env input totalSize options).result
      fun _ => totalSize ≤ input.length := by
  rcases Nat.lt_or_ge (streamBlockSize options) totalSize with hlt | hle
  · have hpos := streamBlockSize_pos options
    have hfed : Fed (batchSize (resolveThreadCount env options.threads)) input.length
        (bytesBefore totalSize (streamBlockSize options) 0)
        (firstSlots (batchSize (resolveThreadCount env options.threads)) input) :=
      ⟨List.length_replicate, by simp [bytesBefore, firstSlots]⟩
    rw [compressStream_of_gt env input hlt, blockCountFor_eq (hfits hlt)]
    exact batchLoop_exits hpos hsize env _ _ 0 0 (Nat.zero_add _) hfed List.length_replicate _
  · change Exits (Ended.result (if totalSize ≤ streamBlockSize options then _ else _)) _
    rw [if_pos hle, readExactly_eq]
    cases hread : chunk kEndedEarly totalSize input with
    | error e =>
        unfold chunk at hread
        split at hread
        case isTrue =>
          cases hread
          exact Error.noConfusion
        case isFalse => cases hread
    | ok ar =>
        obtain ⟨data, rest⟩ := ar
        obtain ⟨hdata, hrest⟩ := chunk_length hread
        have hcompress : Exits (compress env data options) _ :=
          compress_exits_of_le env (hdata.trans_le hle)
        simp only []
        cases hc : compress env data options with
        | error e =>
            rw [hc] at hcompress
            exact hcompress
        | ok c => exact (by omega : totalSize ≤ input.length)

theorem delivers_of_fits (env : Environment) (input : List UInt8) {totalSize : Nat}
    (hsize : totalSize < 2 ^ 64)
    (hfits : streamBlockSize options < totalSize →
      totalSize + streamBlockSize options ≤ 2 ^ 64) : Delivers env input totalSize options where
  exits := (compressStream_exits env input hsize hfits).mono fun _ _ => trivial
  delivered hok := by
    have hexits := compressStream_exits env input hsize hfits
    rw [hok] at hexits
    exact hexits
  frames hok hlt := by
    have hread := compressStream_exits env input hsize hfits
    rw [hok, exits_ok] at hread
    have hlen : (input.take totalSize).length = totalSize := List.length_take_of_le hread
    have happend := compressStream_append env (hlen.symm ▸ hfits) (input.drop totalSize)
    rw [List.take_append_drop, hlen] at happend
    have hfits' : streamBlockSize options < (input.take totalSize).length →
        (input.take totalSize).length + streamBlockSize options ≤ 2 ^ 64 := hlen.symm ▸ hfits
    rcases container_of_lt (hlen.symm ▸ hlt : streamBlockSize options < (input.take totalSize).length)
      with ⟨hall, hc⟩ | ⟨-, e, he⟩
    · refine ⟨_, encodeAll_ok hall, ?_, ?_⟩
      · rw [List.length_map, length_chunks, hlen]
      · have hrun := compressStream_ok env hfits' hc
        rw [hlen] at hrun
        rw [happend, hrun, framesOf_map]
    · obtain ⟨e', he'⟩ := compressStream_error env hfits' he
      rw [hlen, ← happend, hok] at he'
      cases he'
  spans i hi := blockSpan_eq (streamBlockSize_pos options) hsize hi

/-- Frames take room: there is a header before each block. -/
theorem framesOf_ne_nil {chunks : List (List UInt8)} {blocks : List EncodedBlock}
    (hchunks : chunks ≠ []) (hblocks : blocks ≠ []) : framesOf chunks blocks ≠ [] := by
  cases chunks with
  | nil => exact absurd rfl hchunks
  | cons chunk chunks =>
      cases blocks with
      | nil => exact absurd rfl hblocks
      | cons block blocks =>
          intro hnil
          have hfirst : framed chunk.length block = [] :=
            List.flatten_eq_nil_iff.mp hnil _ List.mem_cons_self
          have hlen := length_frameHeader chunk.length block
          rw [List.append_eq_nil_iff.mp hfirst |>.1] at hlen
          cases hlen

/-- **A declared size.**  `compressStream` keeps to it, on every stream, exactly where the sum
its count of blocks is taken from does not wrap; and that count is the rounded quotient exactly
there. -/
theorem delivers_iff (env : Environment) (input : List UInt8) (totalSize : Nat) (options : Options)
    (hsize : totalSize < 2 ^ 64) :
    (Delivers env input totalSize options ↔
        totalSize ≤ streamBlockSize options ∨ totalSize + streamBlockSize options ≤ 2 ^ 64) ∧
      (blockCountFor totalSize (streamBlockSize options)
          = count (streamBlockSize options) totalSize ↔
        totalSize + streamBlockSize options ≤ 2 ^ 64) := by
  refine ⟨⟨fun h => ?_, fun h => ?_⟩,
    blockCountFor_eq_iff (streamBlockSize_pos options) hsize (streamBlockSize_lt options)⟩
  · by_contra hwrap
    obtain ⟨hlt, hsum⟩ := not_or.mp hwrap
    have hlt := Nat.lt_of_not_le hlt
    have hrun := compressStream_wraps env input hsize hlt (Nat.lt_of_not_le hsum)
    have hok : (compressStream env input totalSize options).result = .ok () := by rw [hrun]
    obtain ⟨blocks, -, hblocks, hwritten⟩ := h.frames hok hlt
    have hcount : 0 < count (streamBlockSize options) totalSize :=
      (lt_count (streamBlockSize_pos options)).mpr (by omega)
    have hlen : (input.take totalSize).length = totalSize :=
      List.length_take_of_le (h.delivered hok)
    have hne : framesOf (chunks (streamBlockSize options) (input.take totalSize)) blocks ≠ [] :=
      framesOf_ne_nil (List.ne_nil_of_length_pos (by rwa [length_chunks, hlen]))
        (List.ne_nil_of_length_pos (by rwa [hblocks]))
    -- the header is all there is
    rw [hrun] at hwritten
    exact hne (List.self_eq_append_right.mp hwritten)
  · exact delivers_of_fits env input hsize fun hlt => h.resolve_left (Nat.not_le.mpr hlt)

/-- A stream of three bytes, declared as such, in blocks of two. -/
theorem delivers_run :
    (Delivers reversed [7, 7, 7] 3 { blockSize := 2 } ↔
        3 ≤ streamBlockSize { blockSize := 2 } ∨
          3 + streamBlockSize { blockSize := 2 } ≤ 2 ^ 64) ∧
      (blockCountFor 3 (streamBlockSize { blockSize := 2 })
          = count (streamBlockSize { blockSize := 2 }) 3 ↔
        3 + streamBlockSize { blockSize := 2 } ≤ 2 ^ 64) :=
  delivers_iff reversed [7, 7, 7] 3 { blockSize := 2 } (by decide)

/-- An empty stream of which `2 ^ 64 - 1` bytes are declared, in blocks of the default size. -/
theorem empty_stream_succeeds :
    compressStream reversed [] (2 ^ 64 - 1) {}
        = { written := [67, 77, 80, 82, 1, 4, 255, 255, 255, 255, 255, 255, 255, 255],
            result := .ok () } ∧
      blockCountFor (2 ^ 64 - 1) (streamBlockSize {}) = 0 ∧
      ¬ Delivers reversed [] (2 ^ 64 - 1) {} := by
  have hrun : compressStream reversed [] (2 ^ 64 - 1) {}
      = { written := header .blocked (2 ^ 64 - 1), result := .ok () } :=
    compressStream_wraps reversed [] (by decide) (by decide) (by decide)
  refine ⟨hrun.trans (by decide), blockCountFor_of_lt (by decide) (by decide), fun h => ?_⟩
  have hread := h.delivered (by rw [hrun])
  exact absurd hread (by decide)

end Declared

end Compressly

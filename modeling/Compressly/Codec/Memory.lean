/-
# `Compressly.Codec.Memory` — what the streaming encoder holds at a time

The data of a batch is in its slots, and so are the blocks made of it.  A slot is
filled with the bytes of one block, and a block is no larger than its data: so,
whatever the order of the calls and however long the stream, the slots hold no
more than two blocks each (`memory_bounded`).
-/
import Compressly.Codec.Output

namespace Compressly

open Parse

/-- What `compressStream` holds: the slots of a batch, before and after their compression. -/
structure Encoder where
  slots : Slots
  encoded : List EncodedBlock

/-- The bytes in the slots. -/
def Encoder.held (s : Encoder) : Nat :=
  (s.slots.inputs.map List.length).sum + (s.encoded.map fun block => block.payload.length).sum

/-- A slot is filled, or compressed, by whichever thread and in whichever order. -/
inductive EncoderStep (options : Options) (totalSize blockSize : Nat) : Encoder → Encoder → Prop
  | fill {s : Encoder} {slots : Slots} (done i : Nat) :
      fillSlot totalSize blockSize done s.slots i = .ok slots →
      EncoderStep options totalSize blockSize s { s with slots := slots }
  | compress {s : Encoder} {encoded : List EncodedBlock} (i : Nat) :
      compressSlot options s.slots.inputs s.encoded i = .ok encoded →
      EncoderStep options totalSize blockSize s { s with encoded := encoded }

/-- The states on the way. -/
abbrev EncoderReaches (options : Options) (totalSize blockSize : Nat) : Encoder → Encoder → Prop :=
  Relation.ReflTransGen (EncoderStep options totalSize blockSize)

section Steps
variable {options : Options} {totalSize blockSize batch : Nat}

/-! ## The steps of a batch -/

theorem foldlM_reaches {σ ι : Type} {f : σ → ι → Result σ} {R : σ → σ → Prop}
    (hf : ∀ s i s', f s i = .ok s' → R s s') {l : List ι} {s s' : σ} (h : l.foldlM f s = .ok s') :
    Relation.ReflTransGen R s s' :=
  foldlM_keeps (I := fun t => Relation.ReflTransGen R s t)
    (fun t i t' hstep ht => ht.tail (hf t i t' hstep)) h .refl

theorem runJob_reaches {σ : Type} {fn : σ → Nat → Result σ} {R : σ → σ → Prop} {count : Nat}
    (hfn : ∀ s i s', fn s i = .ok s' → R s s') {workers : Int} {order : Order count} {s s' : σ}
    (h : runJob workers order fn s = .ok s') : Relation.ReflTransGen R s s' :=
  runJob_keeps (I := fun t => Relation.ReflTransGen R s t)
    (fun t i t' hstep ht => ht.tail (hfn t i t' hstep)) h .refl

/-- A batch of the loop goes through such steps, for any number of workers and any order. -/
theorem runBatch_reaches {env : Environment} {job done here : Nat} {slots slots' : Slots}
    {encoded encoded' : List EncodedBlock} {written written' : List UInt8}
    (h : runBatch env options totalSize blockSize job done here slots encoded written
      = .ok (slots', encoded', written')) :
    EncoderReaches options totalSize blockSize ⟨slots, encoded⟩ ⟨slots', encoded'⟩ := by
  unfold runBatch at h
  obtain ⟨slots₁, hfill, h⟩ := bind_eq_ok.mp h
  obtain ⟨encoded₁, hjob, h⟩ := bind_eq_ok.mp h
  obtain ⟨written₁, -, h⟩ := bind_eq_ok.mp h
  cases h
  have hfilled : EncoderReaches options totalSize blockSize ⟨slots, encoded⟩ ⟨slots', encoded⟩ := by
    have hsteps := foldlM_reaches (R := fun s s' => EncoderStep options totalSize blockSize
      ⟨s, encoded⟩ ⟨s', encoded⟩) (fun s i s' hstep => .fill done i hstep) hfill
    exact hsteps.lift (fun s => Encoder.mk s encoded) fun _ _ hstep => hstep
  have hsteps := runJob_reaches (R := fun e e' => EncoderStep options totalSize blockSize
    ⟨slots', e⟩ ⟨slots', e'⟩) (fun e i e' hstep => .compress i hstep) hjob
  exact hfilled.trans (hsteps.lift (fun e => Encoder.mk slots' e) fun _ _ hstep => hstep)

/-! ## The bound -/

/-- As many slots as the batch has, none with more than a block. -/
structure Encoder.Bounded (batch blockSize : Nat) (s : Encoder) : Prop where
  inputs : s.slots.inputs.length = batch
  encoded : s.encoded.length = batch
  input_le : ∀ data ∈ s.slots.inputs, data.length ≤ blockSize
  payload_le : ∀ block ∈ s.encoded, block.payload.length ≤ blockSize

theorem forall_mem_store {α : Type} {P : α → Prop} {xs ys : List α} {i : Nat} {a : α}
    (h : store xs i a = .ok ys) (hxs : ∀ x ∈ xs, P x) (ha : P a) : ∀ y ∈ ys, P y := by
  unfold store at h
  split at h
  case isTrue =>
    cases h
    intro y hy
    rcases List.mem_or_eq_of_mem_set hy with hmem | rfl
    · exact hxs y hmem
    · exact ha
  case isFalse => cases h

theorem mem_of_fetch {α : Type} {xs : List α} {i : Nat} {a : α} (h : fetch xs i = .ok a) :
    a ∈ xs := by
  unfold fetch at h
  cases hget : xs[i]? with
  | none =>
      rw [hget] at h
      cases h
  | some b =>
      rw [hget] at h
      cases h
      exact List.mem_of_getElem? hget

/-- A block is no larger than its data. -/
theorem payload_le_of_encodeBlock {data : List UInt8} {algorithm : Algorithm} {config : LZ77.Config}
    {block : EncodedBlock} (h : encodeBlock data algorithm config = .ok block)
    (hsmall : data.length < 2 ^ 59) : block.payload.length ≤ data.length := by
  by_cases hok : algorithm.Accepts config
  · obtain ⟨b, hb, hencodes⟩ := encodeBlock_spec hok data
    rw [h] at hb
    cases hb
    rcases hencodes.payload_length hsmall with ⟨-, heq⟩ | ⟨-, hlt⟩
    · rw [heq]
    · exact hlt.le
  · by_cases hdata : data = []
    · subst hdata
      cases h
      exact Nat.le_refl _
    · obtain ⟨what, hwhat⟩ := encodeBlock_rejects hok hdata
      rw [h] at hwhat
      cases hwhat

theorem Encoder.Bounded.step (hsmall : blockSize < 2 ^ 59) {s s' : Encoder}
    (h : s.Bounded batch blockSize) (hstep : EncoderStep options totalSize blockSize s s') :
    s'.Bounded batch blockSize := by
  cases hstep with
  | @fill slots done i hfill =>
      have hlen := fillSlot_keeps hfill h.inputs
      unfold fillSlot at hfill
      obtain ⟨span, hspan, hfill⟩ := bind_eq_ok.mp hfill
      obtain ⟨read, hread, hfill⟩ := bind_eq_ok.mp hfill
      obtain ⟨inputs, hstore, hfill⟩ := bind_eq_ok.mp hfill
      cases hfill
      have hle : span.2 ≤ blockSize := by
        unfold blockSpan at hspan
        obtain ⟨left, -, hspan⟩ := bind_eq_ok.mp hspan
        cases hspan
        exact Nat.min_le_left _ _
      rw [readExactly_eq] at hread
      have hdata := (chunk_length hread).1
      exact
        { inputs := hlen
          encoded := h.encoded
          input_le := forall_mem_store hstore h.input_le (hdata.trans_le hle)
          payload_le := h.payload_le }
  | @compress encoded i hcompress =>
      have hlen := compressSlot_keeps hcompress h.encoded
      unfold compressSlot at hcompress
      obtain ⟨data, hfetch, hcompress⟩ := bind_eq_ok.mp hcompress
      obtain ⟨block, hblock, hstore⟩ := bind_eq_ok.mp hcompress
      have hdata : data.length ≤ blockSize := h.input_le data (mem_of_fetch hfetch)
      have hpayload : block.payload.length ≤ data.length :=
        payload_le_of_encodeBlock hblock (by omega)
      exact
        { inputs := h.inputs
          encoded := hlen
          input_le := h.input_le
          payload_le := forall_mem_store hstore h.payload_le (hpayload.trans hdata) }

/-- The slots before the first batch. -/
def Encoder.start (batch : Nat) (input : List UInt8) : Encoder :=
  ⟨firstSlots batch input, List.replicate batch {}⟩

theorem Encoder.bounded_start (input : List UInt8) :
    (Encoder.start batch input).Bounded batch blockSize where
  inputs := List.length_replicate
  encoded := List.length_replicate
  input_le data hdata := by
    rw [List.eq_of_mem_replicate hdata]
    exact Nat.zero_le _
  payload_le block hblock := by
    rw [List.eq_of_mem_replicate hblock]
    exact Nat.zero_le _

theorem Encoder.Bounded.held_le {s : Encoder} (h : s.Bounded batch blockSize) :
    s.held ≤ 2 * (batch * blockSize) := by
  have hinputs : (s.slots.inputs.map List.length).sum ≤ batch * blockSize := by
    have hsum := List.sum_le_card_nsmul (s.slots.inputs.map List.length) blockSize fun n hn => by
      obtain ⟨data, hdata, rfl⟩ := List.mem_map.mp hn
      exact h.input_le data hdata
    rwa [List.length_map, h.inputs, smul_eq_mul] at hsum
  have hencoded : (s.encoded.map fun block => block.payload.length).sum ≤ batch * blockSize := by
    have hsum := List.sum_le_card_nsmul (s.encoded.map fun block => block.payload.length) blockSize
      fun n hn => by
        obtain ⟨block, hblock, rfl⟩ := List.mem_map.mp hn
        exact h.payload_le block hblock
    rwa [List.length_map, h.encoded, smul_eq_mul] at hsum
  rw [Encoder.held]
  omega

end Steps

/-- The number of slots of `compressStream`. -/
def streamBatch (env : Environment) (options : Options) : Nat :=
  batchSize (resolveThreadCount env options.threads)

/-- **Memory is bounded by the batch, not by the stream.**  In every state on the way, whatever
the order of the calls, the slots hold no more than two blocks for each worker; and the batches
of the loop go through such states only. -/
theorem memory_bounded (env : Environment) (options : Options) (totalSize : Nat)
    (input : List UInt8) (hsmall : streamBlockSize options < 2 ^ 59) :
    (∀ s, EncoderReaches options totalSize (streamBlockSize options)
        (.start (streamBatch env options) input) s →
      s.held ≤ 2 * (streamBatch env options * streamBlockSize options)) ∧
      ∀ slots encoded slots' encoded' job done here written written',
        EncoderReaches options totalSize (streamBlockSize options)
          (.start (streamBatch env options) input) ⟨slots, encoded⟩ →
        runBatch env options totalSize (streamBlockSize options) job done here slots encoded written
          = .ok (slots', encoded', written') →
        EncoderReaches options totalSize (streamBlockSize options)
          (.start (streamBatch env options) input) ⟨slots', encoded'⟩ := by
  refine ⟨fun s hs => ?_,
    fun slots encoded slots' encoded' job done here written written' hs hrun =>
      hs.trans (runBatch_reaches hrun)⟩
  have hbounded : s.Bounded (streamBatch env options) (streamBlockSize options) := by
    induction hs with
    | refl => exact Encoder.bounded_start input
    | tail _ hstep ih => exact ih.step hsmall hstep
  exact hbounded.held_le

/-- One worker, and blocks of two bytes. -/
def oneWorker : Options where
  threads := 1
  blockSize := 2

/-- The first block of three bytes is read and compressed, which fills both slots; a batch does the
same, and writes the frame. -/
theorem memory_bounded_run :
    (∃ s, EncoderReaches oneWorker 3 2 (.start (streamBatch reversed oneWorker) [7, 7, 7]) s ∧
        s.held = 4 ∧ s.held ≤ 2 * (streamBatch reversed oneWorker * 2)) ∧
      ∃ slots encoded written,
        runBatch reversed oneWorker 3 2 0 0 1 (firstSlots 1 [7, 7, 7]) [{}] []
          = .ok (slots, encoded, written) ∧
        written = [2, 0, 0, 0, 2, 0, 0, 0, 0, 7, 7] ∧
        EncoderReaches oneWorker 3 2 (.start (streamBatch reversed oneWorker) [7, 7, 7])
          ⟨slots, encoded⟩ := by
  have hbounded := memory_bounded reversed oneWorker 3 [7, 7, 7] (by decide)
  constructor
  · have hfill : EncoderReaches oneWorker 3 2 (.start 1 [7, 7, 7])
        ⟨{ input := [7], inputs := [[7, 7]] }, [{}]⟩ := .single (.fill 0 0 rfl)
    have hslot : compressSlot oneWorker [[7, 7]] [{}] 0
        = .ok [{ method := .stored, payload := [7, 7] }] := by decide +kernel
    have hcompress := hfill.tail (.compress 0 hslot)
    exact ⟨_, hcompress, rfl, hbounded.1 _ hcompress⟩
  · have hbatch : (runBatch reversed oneWorker 3 2 0 0 1 (firstSlots 1 [7, 7, 7]) [{}] []).map
        (fun r => r.2.2) = .ok [2, 0, 0, 0, 2, 0, 0, 0, 0, 7, 7] := by decide +kernel
    cases hrun : runBatch reversed oneWorker 3 2 0 0 1 (firstSlots 1 [7, 7, 7]) [{}] [] with
    | error e =>
        rw [hrun] at hbatch
        cases hbatch
    | ok r =>
        rw [hrun] at hbatch
        exact ⟨_, _, _, rfl, Except.ok.inj hbatch, hbounded.2 _ _ _ _ _ _ _ _ _ .refl hrun⟩

end Compressly

/-
# `Compressly.Codec.Output` — the streaming functions on an output that fails

`Basic` has the streaming functions write to a stream that takes everything.
Here they write to any stream (`compressStreamTo`, `decompressStreamTo`), and
`writeAll` throws where it is no longer good.  On the stream that does not fail
they do what they do in `Basic`; on any other they offer a part of the same
bytes.  What such a stream has kept of a container is the container or is
rejected (`kept_container`).
-/
import Compressly.Codec.Independence
import Compressly.Lib.Output

namespace Compressly

open Output LZ77

def kWriteFailed : Error := .runtimeError "write failed"

/-! ## The functions, as the source computes them -/

section Functions
variable (good : Stream UInt8)

def writeSlotTo (inputs : List (List UInt8)) (encoded : List EncodedBlock) (i : Nat) :
    Writing UInt8 Error PUnit := do
  let framed ← lift (frameSlot inputs encoded i)
  writeAll kWriteFailed good framed

def batchLoopTo (env : Environment) (options : Options) (totalSize blockSize blocks : Nat)
    {batch : Nat} (hbatch : 0 < batch) (job done : Nat) (slots : Slots)
    (encoded : List EncodedBlock) : Writing UInt8 Error Unit :=
  if done < blocks then do
    let here := min batch (blocks - done)
    let slots ← lift ((List.range here).foldlM (fillSlot totalSize blockSize done) slots)
    let encoded ← lift (runJob (resolveThreadCount env options.threads) (env.order job here)
      (compressSlot options slots.inputs) encoded)
    (List.range here).forM (writeSlotTo good slots.inputs encoded)
    batchLoopTo env options totalSize blockSize blocks hbatch (job + 1)
      (done + min batch (blocks - done)) slots encoded
  else pure ()
termination_by blocks - done

def compressStreamTo (env : Environment) (input : List UInt8) (totalSize : Nat)
    (options : Options) : Writing UInt8 Error Unit :=
  let blockSize := if 0 < options.blockSize then options.blockSize else kDefaultBlockSize
  if totalSize ≤ blockSize then do
    let (data, _) ← lift (readExactly kEndedEarly totalSize input)
    let compressed ← lift (compress env data options)
    writeAll kWriteFailed good compressed
  else do
    writeAll kWriteFailed good (putHeader [] .blocked totalSize)
    let batch := batchSize (resolveThreadCount env options.threads)
    batchLoopTo good env options totalSize blockSize (blockCountFor totalSize blockSize)
      (batchSize_pos (resolveThreadCount env options.threads)) 0 0
      { input := input, inputs := List.replicate batch [] } (List.replicate batch {})

def streamLoopTo (originalSize produced : Nat) (input : List UInt8) : Writing UInt8 Error Unit :=
  if produced < originalSize then
    match _h : streamRound originalSize produced input with
    | .error e => throw e
    | .ok (decoded, progress, input') => do
        writeAll kWriteFailed good decoded
        streamLoopTo originalSize (produced + progress) input'
  else pure ()
termination_by input.length
decreasing_by exact streamRound_length_lt _h

def decompressStreamTo (input : List UInt8) : Writing UInt8 Error Unit := do
  let (header, input) ←
    lift (readExactly (.corruptInput "input is shorter than the header") kHeaderSize input)
  let (method, originalSize) ← lift (readHeader header)
  if method ≠ .blocked then
    let decoded ← lift (decodeBlock method input originalSize)
    writeAll kWriteFailed good decoded
  else streamLoopTo good originalSize 0 input

end Functions

/-! ## On a stream that does not fail -/

section Ideal

theorem foldlM_keeps {σ ι : Type} {f : σ → ι → Result σ} {I : σ → Prop}
    (hf : ∀ s i s', f s i = .ok s' → I s → I s') {l : List ι} {s s' : σ}
    (h : l.foldlM f s = .ok s') (hs : I s) : I s' := by
  induction l generalizing s with
  | nil =>
      cases h
      exact hs
  | cons i l ih =>
      rw [List.foldlM_cons] at h
      obtain ⟨s₁, hfirst, h⟩ := bind_eq_ok.mp h
      exact ih h (hf s i s₁ hfirst hs)

theorem foldl_poolCall_keeps {σ : Type} {fn : σ → Nat → Result σ} {I : σ → Prop}
    (hfn : ∀ s i s', fn s i = .ok s' → I s → I s') (calls : List Nat) {s : σ × Option Error}
    (hs : I s.1) : I (calls.foldl (poolCall fn) s).1 := by
  induction calls generalizing s with
  | nil => exact hs
  | cons i calls ih =>
      rw [List.foldl_cons]
      refine ih ?_
      unfold poolCall
      cases hrun : fn s.1 i with
      | ok s' => exact hfn _ _ _ hrun hs
      | error e => exact hs

theorem runJob_keeps {σ : Type} {fn : σ → Nat → Result σ} {I : σ → Prop} {count : Nat}
    (hfn : ∀ s i s', fn s i = .ok s' → I s → I s') {workers : Int} {order : Order count}
    {s s' : σ} (h : runJob workers order fn s = .ok s') (hs : I s) : I s' := by
  unfold runJob at h
  split at h
  case isTrue => exact foldlM_keeps hfn h hs
  case isFalse =>
    have hpool := foldl_poolCall_keeps hfn order.calls (s := (s, none)) hs
    unfold forEach at h
    split at h
    case h_1 s'' heq =>
      rw [heq] at hpool
      cases h
      exact hpool
    case h_2 => cases h

theorem length_store {α : Type} {xs ys : List α} {i : Nat} {a : α} (h : store xs i a = .ok ys) :
    ys.length = xs.length := by
  unfold store at h
  split at h
  case isTrue =>
    cases h
    exact List.length_set
  case isFalse => cases h

variable {options : Options} {batch totalSize blockSize done here : Nat}

theorem fillSlot_keeps {s s' : Slots} {i : Nat} (h : fillSlot totalSize blockSize done s i = .ok s')
    (hs : s.inputs.length = batch) : s'.inputs.length = batch := by
  unfold fillSlot at h
  obtain ⟨span, -, h⟩ := bind_eq_ok.mp h
  obtain ⟨read, -, h⟩ := bind_eq_ok.mp h
  obtain ⟨inputs, hstore, h⟩ := bind_eq_ok.mp h
  cases h
  exact (length_store hstore).trans hs

theorem compressSlot_keeps {inputs : List (List UInt8)} {encoded encoded' : List EncodedBlock}
    {i : Nat} (h : compressSlot options inputs encoded i = .ok encoded')
    (hs : encoded.length = batch) : encoded'.length = batch := by
  unfold compressSlot at h
  obtain ⟨data, -, h⟩ := bind_eq_ok.mp h
  obtain ⟨block, -, h⟩ := bind_eq_ok.mp h
  exact (length_store h).trans hs

/-- The frames of the slots, written one by one or joined first. -/
theorem outcome_writeSlots {inputs : List (List UInt8)} {encoded : List EncodedBlock} {l : List Nat}
    (hl : ∀ i ∈ l, i < inputs.length ∧ i < encoded.length) (written : List UInt8) :
    ∃ out, l.foldlM (writeSlot inputs encoded) written = .ok out ∧
      outcome (l.forM (writeSlotTo .ideal inputs encoded)) written = (.ok (), out) := by
  induction l generalizing written with
  | nil => exact ⟨written, rfl, rfl⟩
  | cons i l ih =>
      obtain ⟨hin, hen⟩ := hl i List.mem_cons_self
      have hframe : frameSlot inputs encoded i
          = .ok (appendBlock [] inputs[i].length encoded[i]) := by
        rw [frameSlot, fetch_of_lt hin, bind_ok, fetch_of_lt hen]
        rfl
      obtain ⟨out, hpure, hout⟩ := ih (fun j hj => hl j (List.mem_cons_of_mem _ hj))
        (written ++ appendBlock [] inputs[i].length encoded[i])
      refine ⟨out, ?_, ?_⟩
      · rw [List.foldlM_cons, writeSlot, hframe, bind_ok]
        exact hpure
      · change outcome (writeSlotTo .ideal inputs encoded i >>= fun _ => l.forM _) written = _
        rw [outcome_bind, writeSlotTo, outcome_lift_bind, hframe]
        simp only [outcome_writeAll_ideal]
        exact hout

theorem batchLoopTo_ideal (env : Environment) {blocks : Nat} (hbatch : 0 < batch)
    (left job done : Nat) (hleft : blocks - done = left)
    {slots : Slots} (hslots : slots.inputs.length = batch)
    {encoded : List EncodedBlock} (hencoded : encoded.length = batch) (written : List UInt8) :
    let ended :=
      batchLoop env options totalSize blockSize blocks hbatch job done slots encoded written
    outcome
        (batchLoopTo .ideal env options totalSize blockSize blocks hbatch job done slots encoded)
        written
      = (ended.result, ended.written) := by
  induction left using Nat.strong_induction_on generalizing job done slots encoded written with
  | h left ih =>
      rw [batchLoop, batchLoopTo]
      by_cases hmore : done < blocks
      · rw [if_pos hmore, if_pos hmore, runBatch]
        simp only [outcome_lift_bind]
        cases hfill : (List.range (min batch (blocks - done))).foldlM
            (fillSlot totalSize blockSize done) slots with
        | error e => rfl
        | ok slots' =>
            have hslots' := foldlM_keeps (fun _ _ _ => fillSlot_keeps) hfill hslots
            simp only [bind_ok]
            cases hjob : runJob (resolveThreadCount env options.threads)
                (env.order job (min batch (blocks - done))) (compressSlot options slots'.inputs)
                encoded with
            | error e => rfl
            | ok encoded' =>
                have hencoded' := runJob_keeps (fun _ _ _ => compressSlot_keeps) hjob hencoded
                have hfilled : ∀ i ∈ List.range (min batch (blocks - done)),
                    i < slots'.inputs.length ∧ i < encoded'.length := by
                  intro i hi
                  have hlt := List.mem_range.mp hi
                  omega
                obtain ⟨out, hpure, hout⟩ := outcome_writeSlots hfilled written
                simp only [bind_ok, hpure, outcome_bind, hout]
                exact ih (blocks - (done + min batch (blocks - done))) (by omega) (job + 1) _ rfl
                  hslots' hencoded' out
      · rw [if_neg hmore, if_neg hmore]
        rfl

theorem compressStreamTo_ideal (env : Environment) (input : List UInt8) (totalSize : Nat)
    (options : Options) :
    outcome (compressStreamTo .ideal env input totalSize options) []
      = ((compressStream env input totalSize options).result,
        (compressStream env input totalSize options).written) := by
  simp only [compressStreamTo, compressStream]
  by_cases hsingle :
      totalSize ≤ if 0 < options.blockSize then options.blockSize else kDefaultBlockSize
  · rw [if_pos hsingle, if_pos hsingle, outcome_lift_bind]
    cases readExactly kEndedEarly totalSize input with
    | error e => rfl
    | ok read =>
        obtain ⟨data, rest⟩ := read
        simp only [outcome_lift_bind]
        cases compress env data options with
        | error e => rfl
        | ok compressed =>
            simp only [outcome_writeAll_ideal]
            rfl
  · rw [if_neg hsingle, if_neg hsingle, outcome_bind, outcome_writeAll_ideal]
    exact batchLoopTo_ideal env _ _ 0 0 rfl List.length_replicate List.length_replicate _

theorem streamLoopTo_ideal (originalSize produced : Nat) (input written : List UInt8) :
    outcome (streamLoopTo .ideal originalSize produced input) written
      = ((streamLoop originalSize produced input written).result,
        (streamLoop originalSize produced input written).written) := by
  fun_induction streamLoop originalSize produced input written with
  | case1 produced input written hmore e hround =>
      rw [streamLoopTo, if_pos hmore]
      split
      case h_1 e' heq =>
        rw [hround] at heq
        cases heq
        rfl
      case h_2 heq =>
        rw [hround] at heq
        cases heq
  | case2 produced input written hmore decoded progress input' hround ih =>
      rw [streamLoopTo, if_pos hmore]
      split
      case h_1 heq =>
        rw [hround] at heq
        cases heq
      case h_2 heq =>
        rw [hround] at heq
        cases heq
        rw [outcome_bind, outcome_writeAll_ideal]
        exact ih
  | case3 produced input written hmore =>
      rw [streamLoopTo, if_neg hmore]
      rfl

theorem decompressStreamTo_ideal (input : List UInt8) :
    outcome (decompressStreamTo .ideal input) []
      = ((decompressStream input).result, (decompressStream input).written) := by
  rw [decompressStreamTo, decompressStream, outcome_lift_bind]
  cases readExactly (.corruptInput "input is shorter than the header") kHeaderSize input with
  | error e => rfl
  | ok read =>
      obtain ⟨header, rest⟩ := read
      simp only [outcome_lift_bind]
      cases readHeader header with
      | error e => rfl
      | ok fields =>
          obtain ⟨method, originalSize⟩ := fields
          by_cases hmethod : method = .blocked
          · simp only [hmethod, ne_eq, not_true_eq_false, if_false]
            exact streamLoopTo_ideal originalSize 0 rest []
          · simp only [ne_eq, hmethod, not_false_eq_true, if_true, outcome_lift_bind]
            cases decodeBlock method rest originalSize with
            | error e => rfl
            | ok decoded =>
                simp only [outcome_writeAll_ideal]
                rfl

end Ideal

/-! ## On a stream that may fail -/

section Cut
variable (good : Stream UInt8)

theorem cut_writeSlotTo (inputs : List (List UInt8)) (encoded : List EncodedBlock) (i : Nat) :
    Cut kWriteFailed (writeSlotTo .ideal inputs encoded i) (writeSlotTo good inputs encoded i) :=
  (Cut.lift _).bind fun framed => Cut.writeAll good framed

theorem cut_batchLoopTo (env : Environment) (options : Options) (totalSize blockSize blocks : Nat)
    {batch : Nat} (hbatch : 0 < batch) (left job done : Nat) (hleft : blocks - done = left)
    (slots : Slots) (encoded : List EncodedBlock) :
    Cut kWriteFailed
      (batchLoopTo .ideal env options totalSize blockSize blocks hbatch job done slots encoded)
      (batchLoopTo good env options totalSize blockSize blocks hbatch job done slots encoded) := by
  induction left using Nat.strong_induction_on generalizing job done slots encoded with
  | h left ih =>
      rw [batchLoopTo, batchLoopTo]
      by_cases hmore : done < blocks
      · rw [if_pos hmore, if_pos hmore]
        refine (Cut.lift _).bind fun slots' => (Cut.lift _).bind fun encoded' => ?_
        have hslot := cut_writeSlotTo good slots'.inputs encoded'
        refine (Cut.forM hslot _).bind fun _ => ?_
        exact ih (blocks - (done + min batch (blocks - done))) (by omega) (job + 1) _ rfl slots'
          encoded'
      · rw [if_neg hmore, if_neg hmore]
        exact .pure ()

theorem cut_compressStreamTo (env : Environment) (input : List UInt8) (totalSize : Nat)
    (options : Options) :
    Cut kWriteFailed (compressStreamTo .ideal env input totalSize options)
      (compressStreamTo good env input totalSize options) := by
  simp only [compressStreamTo]
  by_cases hsingle :
      totalSize ≤ if 0 < options.blockSize then options.blockSize else kDefaultBlockSize
  · rw [if_pos hsingle, if_pos hsingle]
    exact (Cut.lift _).bind fun read => (Cut.lift _).bind fun compressed =>
      Cut.writeAll good compressed
  · rw [if_neg hsingle, if_neg hsingle]
    exact (Cut.writeAll good _).bind fun _ => cut_batchLoopTo good env options totalSize _ _ _ _ 0 0
      rfl _ _

theorem cut_streamLoopTo (originalSize produced : Nat) (input : List UInt8) :
    Cut kWriteFailed (streamLoopTo .ideal originalSize produced input)
      (streamLoopTo good originalSize produced input) := by
  fun_induction streamLoopTo Stream.ideal originalSize produced input with
  | case1 produced input hmore e hround =>
      rw [streamLoopTo, if_pos hmore]
      split
      case h_1 e' heq =>
        rw [hround] at heq
        cases heq
        exact Cut.lift (.error e)
      case h_2 heq =>
        rw [hround] at heq
        cases heq
  | case2 produced input hmore decoded progress input' hround ih =>
      rw [streamLoopTo.eq_1 good, if_pos hmore]
      split
      case h_1 heq =>
        rw [hround] at heq
        cases heq
      case h_2 heq =>
        rw [hround] at heq
        cases heq
        exact (Cut.writeAll good decoded).bind fun _ => ih
  | case3 produced input hmore =>
      rw [streamLoopTo, if_neg hmore]
      exact .pure ()

theorem cut_decompressStreamTo (input : List UInt8) :
    Cut kWriteFailed (decompressStreamTo .ideal input) (decompressStreamTo good input) := by
  refine (Cut.lift _).bind fun read => (Cut.lift _).bind fun fields => ?_
  by_cases hmethod : fields.1 = .blocked
  · simp only [hmethod, ne_eq, not_true_eq_false, if_false]
    exact cut_streamLoopTo good fields.2 0 read.2
  · simp only [hmethod, ne_eq, not_false_eq_true, if_true]
    exact (Cut.lift _).bind fun decoded => Cut.writeAll good decoded

end Cut

/-- How a run on a stream that may fail ends, next to the run on one that does not. -/
def CutShort (ended : Result Unit × List UInt8) (ideal : Ended) : Prop :=
  ended = (ideal.result, ideal.written) ∨
    ended.1 = .error kWriteFailed ∧ ended.2 <+: ideal.written

/-- **Writes that fail.**  On any stream, the streaming functions end as on one that takes
everything, or with `write failed`, having offered a part of the same bytes. -/
theorem output_cut_short (good : Stream UInt8) (env : Environment) (input : List UInt8)
    (totalSize : Nat) (options : Options) :
    CutShort (outcome (compressStreamTo good env input totalSize options) [])
        (compressStream env input totalSize options) ∧
      CutShort (outcome (decompressStreamTo good input) []) (decompressStream input) := by
  constructor
  · rcases (cut_compressStreamTo good env input totalSize options).cases [] with
      hsame | ⟨w, hfail, -, hpre⟩
    · rw [compressStreamTo_ideal] at hsame
      exact Or.inl hsame
    · rw [compressStreamTo_ideal] at hpre
      exact Or.inr ⟨by rw [hfail], by rw [hfail]; exact hpre⟩
  · rcases (cut_decompressStreamTo good input).cases [] with hsame | ⟨w, hfail, -, hpre⟩
    · rw [decompressStreamTo_ideal] at hsame
      exact Or.inl hsame
    · rw [decompressStreamTo_ideal] at hpre
      exact Or.inr ⟨by rw [hfail], by rw [hfail]; exact hpre⟩

/-! ## What the stream has kept -/

/-- Both decoders reject these bytes. -/
def Unusable (b : List UInt8) : Prop :=
  (∃ what, decompress b = .error (.corruptInput what)) ∧
    ∃ what, (decompressStream b).result = .error (.corruptInput what)

theorem unusable_of_error {b : List UInt8} (h : ∃ e, decompress b = .error e) : Unusable b := by
  obtain ⟨e, he⟩ := h
  rcases decompress_agree b with ⟨x, hx, -⟩ | ⟨what, what', hmem, hstream⟩
  · rw [he] at hx
    cases hx
  · exact ⟨⟨what, hmem⟩, what', by rw [hstream]⟩

section Kept
variable {data : List UInt8} {options : Options} {env : Environment}

/-- A container without any of its blocks, or without all of its header. -/
theorem unusable_of_prefix_header {n : Nat} (h0 : 0 < n) (hn : n < 2 ^ 64) {b : List UInt8}
    (hb : b <+: header .blocked n) : Unusable b := by
  rcases Nat.lt_or_ge b.length kHeaderSize with hlt | hge
  · exact unusable_of_error ⟨_, decompress_of_lt hlt⟩
  · have heq : b = header .blocked n := hb.eq_of_length_le ((length_header _ _).trans_le hge)
    have hnone : nextBlock n [] = none := by
      rw [nextBlock, if_pos]
      exact Nat.zero_lt_succ 8
    obtain ⟨what, what', hmem, -⟩ := (decompress_blocked hn []).2 (by
      rw [blocksOf_none hnone]
      exact h0.ne)
    rw [List.append_nil, ← heq] at hmem
    exact unusable_of_error ⟨_, hmem⟩

/-- Refused options leave no more than a header. -/
theorem compressStream_refused (hmax : data.length ≤ maxSize)
    (hok : ¬ options.algorithm.Accepts options.lz77) (hdata : data ≠ []) :
    (compressStream env data data.length options).written <+: header .blocked data.length := by
  rcases Nat.lt_or_ge (streamBlockSize options) data.length with hlt | hle
  · obtain ⟨slots, encoded, hs, hrun⟩ := compressStream_of_lt env hlt (add_le_of_lt hlt hmax)
    have hcount : 0 < Chunks.count (streamBlockSize options) data.length :=
      (Chunks.lt_count (streamBlockSize_pos options)).mpr (by omega)
    have hbatch := batchSize_pos (resolveThreadCount env options.threads)
    obtain ⟨what, hwhat⟩ := runBatch_rejects env (streamBlockSize_pos options)
      (lt_of_le_maxSize hmax) 0
      (Nat.min_le_left _ (Chunks.count (streamBlockSize options) data.length - 0)) (by omega) hs
      (by omega) hok (header .blocked data.length)
    rw [hrun, batchLoop, if_pos hcount, hwhat]
  · obtain ⟨what, hwhat⟩ := container_rejects hok hdata hle
    rw [compressStream_of_le env hle, hwhat]
    exact List.nil_prefix

/-- **A failed write leaves nothing that decodes to something else.**  Whatever part of the
bytes it was offered a stream has kept, the decoders turn it back into the data, or both reject
it. -/
theorem kept_container (good : Stream UInt8) (hmax : data.length ≤ maxSize)
    (hblock : options.blockSize < 2 ^ 32) {kept : List UInt8}
    (hkept : kept <+: (outcome (compressStreamTo good env data data.length options) []).2) :
    (decompress kept = .ok data ∧ decompressStream kept = { written := data, result := .ok () }) ∨
      Unusable kept := by
  have hideal : kept <+: (compressStream env data data.length options).written := by
    rcases (cut_compressStreamTo good env data data.length options).cases [] with
      hsame | ⟨w, hfail, -, hpre⟩
    · rwa [hsame, compressStreamTo_ideal] at hkept
    · rw [hfail] at hkept
      rw [compressStreamTo_ideal] at hpre
      exact hkept.trans hpre
  by_cases hok : data ≠ [] → options.algorithm.Accepts options.lz77
  · obtain ⟨c, hc, htight⟩ := compressStream_tight env hok hmax hblock
    rw [hc] at hideal
    obtain ⟨s, hs⟩ := hideal
    by_cases hall : s = []
    · rw [hall, List.append_nil] at hs
      rw [hs]
      exact Or.inl ⟨htight.decodes, decompressStream_ok htight.decodes⟩
    · exact Or.inr (unusable_of_error (htight.truncated kept s hs.symm hall))
  · obtain ⟨hdata, hbad⟩ := Classical.not_imp.mp hok
    exact Or.inr (unusable_of_prefix_header (List.length_pos_iff.mpr hdata)
      (lt_of_le_maxSize hmax) (hideal.trans (compressStream_refused hmax hbad hdata)))

/-- The stream fails at the second write, and all of the header was kept. -/
theorem kept_container_run :
    (decompress (header .blocked 3) = .ok [7, 7, 7] ∧
        decompressStream (header .blocked 3) = { written := [7, 7, 7], result := .ok () }) ∨
      Unusable (header .blocked 3) :=
  have hkept : header .blocked 3 <+: (outcome (compressStreamTo (fun written _ => written.isEmpty)
      reversed [7, 7, 7] [7, 7, 7].length { algorithm := .lz77, blockSize := 2 }) []).2 := by
    decide +kernel
  kept_container (fun written _ => written.isEmpty) (by decide) (by decide) hkept

end Kept

end Compressly

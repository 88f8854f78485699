/-
# `Compressly.Codec.Independence` — the blocks of a container are independent

A frame says nothing of its place in the container, nor of the data around it.
So frames may be taken from containers of any data and options, in any order and
number, and the blocks decode one after the other (`blocks_independent`); and
where the payload of one is damaged, the blocks before and behind it are not
(`damage_contained`).
-/
import Compressly.Codec.RoundTrip

namespace Compressly

open Endian Parse Chunks LZ77

/-! ## One frame -/

/-- The front block, behind a frame header that was written for another payload of this length. -/
theorem nextBlock_frame {room n : Nat} {block : EncodedBlock} {payload : List UInt8}
    (hn : n < 2 ^ 32) (hlen : payload.length = block.payload.length)
    (hpayload : block.payload.length < 2 ^ 32) (hnamed : ∀ byte, block.method ≠ .unnamed byte)
    (hroom : n ≤ room) (rest : List UInt8) :
    nextBlock room (frameHeader n block ++ payload ++ rest)
      = match decodeBlock block.method payload n with
        | .ok decoded => some (decoded, rest)
        | .error _ => none := by
  have hvalue : ∀ n < 2 ^ 32, leValue (leBytes 4 n) = n := fun n hn => leValue_leBytes_of_lt hn
  have hheader := length_frameHeader n block
  have hfirst : (frameHeader n block ++ payload ++ rest).take 4 = leBytes 4 n := rfl
  have hsecond : ((frameHeader n block ++ payload ++ rest).drop 4).take 4
      = leBytes 4 block.payload.length := rfl
  have hthird : (frameHeader n block ++ payload ++ rest).getD 8 0 = block.method.toByte := rfl
  have hbehind : (frameHeader n block ++ payload ++ rest).drop kBlockHeaderSize
      = payload ++ rest := by
    rw [List.append_assoc, ← hheader, List.drop_left]
  have hlong : ¬ (frameHeader n block ++ payload ++ rest).length < kBlockHeaderSize := by
    simp only [List.length_append, hheader]
    omega
  have hfits : ¬ ((payload ++ rest).length < block.payload.length ∨ room < n) := by
    rw [List.length_append]
    omega
  rw [nextBlock, if_neg hlong, hfirst, hsecond, hthird, hbehind, hvalue _ hn, hvalue _ hpayload,
    Method.ofByte_toByte hnamed]
  have htake : (payload ++ rest).take block.payload.length = payload := by
    rw [← hlen, List.take_left]
  have hdrop : (payload ++ rest).drop block.payload.length = rest := by
    rw [← hlen, List.drop_left]
  cases hdecode : decodeBlock block.method payload n with
  | ok decoded => simp only [if_neg hfits, htake, hdrop, hdecode]
  | error e => simp only [if_neg hfits, htake, hdecode]

theorem nextBlock_framed {room : Nat} {chunk : List UInt8} {block : EncodedBlock}
    (h : Fits chunk block) (hroom : chunk.length ≤ room) (rest : List UInt8) :
    nextBlock room (framed chunk.length block ++ rest) = some (chunk, rest) := by
  rw [framed, nextBlock_frame h.chunk_lt rfl h.payload_lt h.named hroom]
  have hdecodes : decodeBlock block.method block.payload chunk.length = .ok chunk :=
    h.tight.decodes
  rw [hdecodes]

/-! ## Frames in a row -/

/-- A frame and its chunk. -/
structure FrameFor (chunk frame : List UInt8) : Prop where
  ne_nil : chunk ≠ []
  exists_block : ∃ block, Fits chunk block ∧ frame = framed chunk.length block

theorem blocksOf_frames {chunks frames : List (List UInt8)}
    (h : List.Forall₂ FrameFor chunks frames) (room : Nat) (rest : List UInt8) :
    blocksOf (chunks.flatten.length + room) (frames.flatten ++ rest)
      = chunks ++ blocksOf room rest := by
  induction h with
  | nil => simp
  | @cons chunk frame chunks frames hframe _ ih =>
      obtain ⟨block, hfits, rfl⟩ := hframe.exists_block
      have hpos := List.length_pos_iff.mpr hframe.ne_nil
      have hfit : chunk.length ≤ (chunk :: chunks).flatten.length + room := by
        rw [List.flatten_cons, List.length_append]
        omega
      have hnext := nextBlock_framed hfits hfit (frames.flatten ++ rest)
      have hleft : (chunk :: chunks).flatten.length + room - chunk.length
          = chunks.flatten.length + room := by
        rw [List.flatten_cons, List.length_append]
        omega
      rw [List.flatten_cons (l := framed chunk.length block), List.append_assoc,
        blocksOf_some (by rw [List.flatten_cons, List.length_append]; omega) hnext, hleft, ih,
        List.cons_append]

/-- Both decoders behind the header of a blocked container. -/
theorem decompress_blocked {n : Nat} (hn : n < 2 ^ 64) (p : List UInt8) :
    ((blocksOf n p).flatten.length = n →
      decompress (header .blocked n ++ p) = .ok (blocksOf n p).flatten ∧
        decompressStream (header .blocked n ++ p)
          = { written := (blocksOf n p).flatten, result := .ok () }) ∧
    ((blocksOf n p).flatten.length ≠ n → ∃ what what',
      decompress (header .blocked n ++ p) = .error (.corruptInput what) ∧
        decompressStream (header .blocked n ++ p)
          = { written := (blocksOf n p).flatten, result := .error (.corruptInput what') }) := by
  have hlen := length_header .blocked n
  have hread : readHeader (header .blocked n) = .ok (.blocked, n) :=
    readHeader_header (fun byte => by simp) hn
  have hsplit : decompress (header .blocked n ++ p) = decompressBlocked p n := by
    rw [decompress_of_le (by rw [List.length_append]; omega), ← hlen, List.take_left,
      List.drop_left, hread]
    rfl
  have hcomplete : completeBlocks (header .blocked n ++ p) = blocksOf n p := by
    rw [completeBlocks, if_neg (by rw [List.length_append]; omega), ← hlen, List.take_left,
      List.drop_left, hread]
  obtain ⟨hok, herr⟩ := decompressBlocked_eq p n
  rw [← hsplit] at hok herr
  refine ⟨fun h => ⟨hok h, decompressStream_ok (hok h)⟩, fun h => ?_⟩
  obtain ⟨what, hwhat⟩ := herr h
  rcases decompress_agree (header .blocked n ++ p) with ⟨x, hx, -⟩ | ⟨w, w', hmem, hstream⟩
  · rw [hwhat] at hx
    cases hx
  · exact ⟨w, w', hmem, by rw [hstream, hcomplete]⟩

theorem decompress_frames {chunks frames : List (List UInt8)}
    (h : List.Forall₂ FrameFor chunks frames) (hsize : chunks.flatten.length < 2 ^ 64) :
    decompress (header .blocked chunks.flatten.length ++ frames.flatten) = .ok chunks.flatten ∧
      decompressStream (header .blocked chunks.flatten.length ++ frames.flatten)
        = { written := chunks.flatten, result := .ok () } := by
  have hblocks := blocksOf_frames h 0 []
  rw [Nat.add_zero, List.append_nil, blocksOf_zero, List.append_nil] at hblocks
  have hboth := (decompress_blocked hsize frames.flatten).1
  rw [hblocks] at hboth
  exact hboth rfl

/-! ## The frames of a container -/

section Containers
variable {data c : List UInt8} {options : Options} {env : Environment}

/-- The frame of chunk `i`. -/
def frameAt (data : List UInt8) (options : Options) (i : Nat) : List UInt8 :=
  frameOf options.algorithm options.lz77 (piece options.blockSize data i)

/-- A container in several blocks: its header and its frames. -/
structure Blocked (data : List UInt8) (options : Options) (c : List UInt8) : Prop where
  pos : 0 < options.blockSize
  frames : c = header .blocked data.length
    ++ ((List.range (count options.blockSize data.length)).map (frameAt data options)).flatten
  frame : ∀ i < count options.blockSize data.length,
    FrameFor (piece options.blockSize data i) (frameAt data options i)

theorem blocked_of_compress (hc : compress env data options = .ok c)
    (hmax : data.length ≤ maxSize) (hblock : options.blockSize < 2 ^ 32)
    (hmulti : shouldBlock data.length options = true) : Blocked data options c := by
  rw [shouldBlock, Bool.and_eq_true, decide_eq_true_eq, decide_eq_true_eq] at hmulti
  obtain ⟨hpos, hlt⟩ := hmulti
  have hdata : data ≠ [] := List.ne_nil_of_length_pos (by omega)
  have hok : options.algorithm.Accepts options.lz77 := by
    by_contra hbad
    obtain ⟨what, hwhat⟩ := compress_rejects env hmax hbad hdata
    rw [hc] at hwhat
    cases hwhat
  have hmem : memoryBlockSize options data = options.blockSize := by
    rw [memoryBlockSize, if_pos hpos]
  refine ⟨hpos, ?_, fun i hi => ⟨piece_ne_nil hpos hi, _, fits_blockOf hok ?_, rfl⟩⟩
  · rcases @container_of_lt data options.algorithm options.lz77 _ hlt with
      ⟨-, hframes⟩ | ⟨⟨chunk, -, e, he⟩, -⟩
    · rw [← hmem] at hframes
      have hsame := compress_ok env hmax hframes
      rw [hc, Except.ok.injEq, hmem] at hsame
      rw [hsame, chunks, List.map_map]
      rfl
    · rw [encodeBlock_blockOf hok] at he
      cases he
  · rw [length_piece]
    exact (Nat.min_le_left _ _).trans_lt hblock

end Containers

/-- **Blocks are independent.**  Frames of any containers in several blocks, in any order and
number, behind a header with the sum of their sizes, are a container of their chunks. -/
theorem blocks_independent {ι : Type} {env : ι → Environment} {data : ι → List UInt8}
    {options : ι → Options} {c : ι → List UInt8}
    (hc : ∀ j, compress (env j) (data j) (options j) = .ok (c j))
    (hmax : ∀ j, (data j).length ≤ maxSize) (hblock : ∀ j, (options j).blockSize < 2 ^ 32)
    (hmulti : ∀ j, shouldBlock (data j).length (options j) = true) :
    ∃ frame : ι → Nat → List UInt8,
      (∀ j, c j = header .blocked (data j).length
        ++ ((List.range (count (options j).blockSize (data j).length)).map (frame j)).flatten) ∧
      ∀ picks : List (ι × Nat),
        (∀ p ∈ picks, p.2 < count (options p.1).blockSize (data p.1).length) →
        ∀ chunks, chunks = picks.map (fun p => piece (options p.1).blockSize (data p.1) p.2) →
          chunks.flatten.length < 2 ^ 64 →
          decompress (header .blocked chunks.flatten.length
              ++ (picks.map fun p => frame p.1 p.2).flatten) = .ok chunks.flatten ∧
            decompressStream (header .blocked chunks.flatten.length
              ++ (picks.map fun p => frame p.1 p.2).flatten)
                = { written := chunks.flatten, result := .ok () } := by
  have hall := fun j => blocked_of_compress (hc j) (hmax j) (hblock j) (hmulti j)
  refine ⟨fun j => frameAt (data j) (options j), fun j => (hall j).frames, ?_⟩
  rintro picks hpicks chunks rfl hsize
  refine decompress_frames ?_ hsize
  rw [List.forall₂_map_left_iff, List.forall₂_map_right_iff, List.forall₂_same]
  exact fun p hp => (hall p.1).frame p.2 (hpicks p hp)

/-- The last chunk first, then the first chunk twice. -/
theorem blocks_independent_run :
    ∃ frame : Unit → Nat → List UInt8,
      (∀ _ : Unit, [67, 77, 80, 82, 1, 4, 3, 0, 0, 0, 0, 0, 0, 0]
          ++ [2, 0, 0, 0, 2, 0, 0, 0, 0, 7, 7] ++ [1, 0, 0, 0, 1, 0, 0, 0, 0, 9]
        = header .blocked 3 ++ ((List.range (count 2 3)).map (frame ())).flatten) ∧
      decompress (header .blocked 5
          ++ ([((), 1), ((), 0), ((), 0)].map fun p => frame p.1 p.2).flatten)
        = .ok [9, 7, 7, 7, 7] := by
  have hc : ∀ _ : Unit, compress reversed [7, 7, 9] { algorithm := .lz77, blockSize := 2 }
      = .ok ([67, 77, 80, 82, 1, 4, 3, 0, 0, 0, 0, 0, 0, 0]
        ++ [2, 0, 0, 0, 2, 0, 0, 0, 0, 7, 7] ++ [1, 0, 0, 0, 1, 0, 0, 0, 0, 9]) := by
    decide +kernel
  obtain ⟨frame, hframes, hpicks⟩ := blocks_independent hc (by decide) (by decide) (by decide)
  exact ⟨frame, hframes,
    (hpicks [((), 1), ((), 0), ((), 0)] (by decide) _ rfl (by decide)).1⟩

/-! ## Damage -/

/-- The data with other bytes in place of block `k`. -/
def patched (data : List UInt8) (blockSize k : Nat) (decoded : List UInt8) : List UInt8 :=
  data.take (k * blockSize) ++ decoded ++ data.drop ((k + 1) * blockSize)

/-- The decoders return the data but for block `k`, or reject the container, having written the
blocks before that one. -/
def Contained (data : List UInt8) (blockSize k : Nat) (damaged : List UInt8) : Prop :=
  (∃ decoded, decoded.length = (piece blockSize data k).length ∧
    decompress damaged = .ok (patched data blockSize k decoded) ∧
    decompressStream damaged = { written := patched data blockSize k decoded, result := .ok () }) ∨
  ∃ what what', decompress damaged = .error (.corruptInput what) ∧
    decompressStream damaged
      = { written := data.take (k * blockSize), result := .error (.corruptInput what') }

section Damage
variable {data c : List UInt8} {options : Options}

/-- A container in several blocks, cut at block `k`. -/
theorem Blocked.split (h : Blocked data options c) {k : Nat}
    (hk : k < count options.blockSize data.length) :
    ∃ after : List Nat,
      (∀ i ∈ after, i < count options.blockSize data.length) ∧
      List.range (count options.blockSize data.length) = List.range k ++ k :: after ∧
      ((List.range k).map (piece options.blockSize data)).flatten
        = data.take (k * options.blockSize) ∧
      (after.map (piece options.blockSize data)).flatten
        = data.drop ((k + 1) * options.blockSize) := by
  have hrange : List.range (count options.blockSize data.length)
      = List.range k ++ k :: (List.range (count options.blockSize data.length - (k + 1))).map
          (k + 1 + ·) := by
    have hcut : count options.blockSize data.length
        = k + 1 + (count options.blockSize data.length - (k + 1)) := by omega
    rw [hcut, List.range_add, List.range_succ]
    simp
  refine ⟨_, fun i hi => ?_, hrange, flatten_range data k, ?_⟩
  · rw [← List.mem_range, hrange]
    simp only [List.mem_append, List.mem_cons]
    exact Or.inr (Or.inr hi)
  · have hall := flatten_chunks h.pos data
    rw [chunks, hrange, List.map_append, List.map_cons, List.flatten_append, List.flatten_cons,
      flatten_range, ← List.append_assoc, ← take_succ_mul] at hall
    refine List.append_cancel_left (hall.trans ?_)
    exact (List.take_append_drop ((k + 1) * options.blockSize) data).symm

theorem Blocked.frames_of (h : Blocked data options c) {is : List Nat}
    (his : ∀ i ∈ is, i < count options.blockSize data.length) :
    List.Forall₂ FrameFor (is.map (piece options.blockSize data))
      (is.map (frameAt data options)) := by
  rw [List.forall₂_map_left_iff, List.forall₂_map_right_iff, List.forall₂_same]
  exact fun i hi => h.frame i (his i hi)

end Damage

/-- **Damage is contained.**  Whatever the payload of a block is replaced by, of the same length:
the decoders reject the container, having written the blocks before it, or they return the data
with other bytes in place of that block and nowhere else. -/
theorem damage_contained {data c : List UInt8} {options : Options} {env : Environment}
    (hc : compress env data options = .ok c) (hmax : data.length ≤ maxSize)
    (hblock : options.blockSize < 2 ^ 32) (hmulti : shouldBlock data.length options = true)
    {k : Nat} (hk : k < count options.blockSize data.length) :
    ∃ before block after, c = header .blocked data.length ++ (before
        ++ (frameHeader (piece options.blockSize data k).length block ++ block.payload ++ after)) ∧
      ∀ payload, payload.length = block.payload.length →
        Contained data options.blockSize k (header .blocked data.length ++ (before
          ++ (frameHeader (piece options.blockSize data k).length block ++ payload ++ after))) := by
  have h := blocked_of_compress hc hmax hblock hmulti
  have hsize := lt_of_le_maxSize hmax
  obtain ⟨after, hafter, hrange, hfront, hback⟩ := h.split hk
  obtain ⟨-, block, hfits, hframe⟩ := h.frame k hk
  have hbefore : ∀ i ∈ List.range k, i < count options.blockSize data.length :=
    fun i hi => (List.mem_range.mp hi).trans hk
  refine ⟨((List.range k).map (frameAt data options)).flatten, block,
    (after.map (frameAt data options)).flatten, ?_, ?_⟩
  · rw [h.frames, hrange, List.map_append, List.map_cons, List.flatten_append, List.flatten_cons,
      hframe, framed]
  intro payload hlen
  -- the room that is left at block `k`
  have hroom : data.length = (data.take (k * options.blockSize)).length
      + ((piece options.blockSize data k).length
        + (data.drop ((k + 1) * options.blockSize)).length) := by
    rw [← List.length_append, piece_append_drop, ← List.length_append, List.take_append_drop]
  have hfit : (piece options.blockSize data k).length ≤ (piece options.blockSize data k).length
      + (data.drop ((k + 1) * options.blockSize)).length := Nat.le_add_right _ _
  have hnext := nextBlock_frame hfits.chunk_lt hlen hfits.payload_lt hfits.named hfit
    (after.map (frameAt data options)).flatten
  have hblocks := blocksOf_frames (h.frames_of hbefore)
    ((piece options.blockSize data k).length + (data.drop ((k + 1) * options.blockSize)).length)
    (frameHeader (piece options.blockSize data k).length block ++ payload
      ++ (after.map (frameAt data options)).flatten)
  rw [hfront, ← hroom] at hblocks
  obtain ⟨hok, herr⟩ := decompress_blocked hsize
    (((List.range k).map (frameAt data options)).flatten
      ++ (frameHeader (piece options.blockSize data k).length block ++ payload
        ++ (after.map (frameAt data options)).flatten))
  have hpos := List.length_pos_iff.mpr (piece_ne_nil h.pos hk)
  rcases (decodeBlock_decodes block.method payload (piece options.blockSize data k).length).cases
    with ⟨decoded, hdecoded, hlength⟩ | ⟨what, hcorrupt⟩
  · rw [hdecoded] at hnext
    have hrest := blocksOf_frames (h.frames_of hafter) 0 []
    rw [Nat.add_zero, List.append_nil, blocksOf_zero, List.append_nil, hback] at hrest
    rw [blocksOf_some (by omega) hnext, hlength, Nat.add_sub_cancel_left, hrest] at hblocks
    have hflat : (blocksOf data.length (((List.range k).map (frameAt data options)).flatten
        ++ (frameHeader (piece options.blockSize data k).length block ++ payload
          ++ (after.map (frameAt data options)).flatten))).flatten
        = patched data options.blockSize k decoded := by
      rw [patched, hblocks, List.flatten_append, List.flatten_cons, hfront, hback,
        List.append_assoc]
    rw [hflat] at hok
    refine Or.inl ⟨decoded, hlength, hok ?_⟩
    rw [patched, List.length_append, List.length_append, hlength]
    omega
  · rw [hcorrupt] at hnext
    rw [blocksOf_none hnext, List.append_nil] at hblocks
    have hflat : (blocksOf data.length (((List.range k).map (frameAt data options)).flatten
        ++ (frameHeader (piece options.blockSize data k).length block ++ payload
          ++ (after.map (frameAt data options)).flatten))).flatten
        = data.take (k * options.blockSize) := by
      rw [hblocks, hfront]
    rw [hflat] at herr
    exact Or.inr (herr (by omega))

/-- The first of two blocks is damaged. -/
theorem damage_contained_run :
    ∃ before block after, [67, 77, 80, 82, 1, 4, 3, 0, 0, 0, 0, 0, 0, 0]
        ++ [2, 0, 0, 0, 2, 0, 0, 0, 0, 7, 7] ++ [1, 0, 0, 0, 1, 0, 0, 0, 0, 9]
        = header .blocked [7, 7, 9].length ++ (before
          ++ (frameHeader (piece 2 [7, 7, 9] 0).length block ++ block.payload ++ after)) ∧
      ∀ payload, payload.length = block.payload.length →
        Contained [7, 7, 9] 2 0 (header .blocked [7, 7, 9].length ++ (before
          ++ (frameHeader (piece 2 [7, 7, 9] 0).length block ++ payload ++ after))) := by
  have hc : compress reversed [7, 7, 9] { algorithm := .lz77, blockSize := 2 }
      = .ok ([67, 77, 80, 82, 1, 4, 3, 0, 0, 0, 0, 0, 0, 0]
        ++ [2, 0, 0, 0, 2, 0, 0, 0, 0, 7, 7] ++ [1, 0, 0, 0, 1, 0, 0, 0, 0, 9]) := by
    decide +kernel
  have hcontained := damage_contained hc (by decide) (by decide) (by decide) (k := 0) (by decide)
  exact hcontained

end Compressly

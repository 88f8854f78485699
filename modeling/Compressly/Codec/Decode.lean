/-
# `Compressly.Codec.Decode` — both decoders on arbitrary bytes

`nextBlock` says when a block is at the front of a byte string, `blocksOf`
collects them up to a declared size.  The in-memory loop and the streaming loop
are each compared with `blocksOf` (`blockLoop_eq`, `streamLoop_eq`):

    the blocks reach the size   both return them, concatenated
    they do not                 both throw `CorruptInput`, and the stream holds
                                the blocks before the failing one

so the two decoders agree (`decompressStream_agrees`), although they check
overrun and truncation in different orders.
-/
import Compressly.Codec.Basic

namespace Compressly

open Endian Parse Loop

/-! ## The block at the front -/

/-- The contents of the block at the front of a byte string, if it is complete, decodes and
has at most `room` bytes, and what follows it. -/
def nextBlock (room : Nat) (p : List UInt8) : Option (List UInt8 × List UInt8) :=
  if p.length < kBlockHeaderSize then none
  else
    let uncompressed := leValue (p.take 4)
    let compressed := leValue ((p.drop 4).take 4)
    let rest := p.drop kBlockHeaderSize
    if rest.length < compressed ∨ room < uncompressed then none
    else
      match decodeBlock (Method.ofByte (p.getD 8 0)) (rest.take compressed) uncompressed with
      | .ok decoded => some (decoded, rest.drop compressed)
      | .error _ => none

/-- Such a block is a frame and a payload that decodes to the size in the frame. -/
theorem nextBlock_eq_some {room : Nat} {p decoded rest : List UInt8}
    (h : nextBlock room p = some (decoded, rest)) : ∃ method payload,
    p.length = kBlockHeaderSize + payload.length + rest.length ∧
      decodeBlock method payload decoded.length = .ok decoded ∧ decoded.length ≤ room := by
  unfold nextBlock at h
  by_cases hlen : p.length < kBlockHeaderSize
  · rw [if_pos hlen] at h
    cases h
  rw [if_neg hlen] at h
  by_cases hfit : (p.drop kBlockHeaderSize).length < leValue ((p.drop 4).take 4) ∨
      room < leValue (p.take 4)
  · simp only [if_pos hfit] at h
    cases h
  · simp only [if_neg hfit] at h
    rcases (decodeBlock_decodes (Method.ofByte (p.getD 8 0))
      ((p.drop kBlockHeaderSize).take (leValue ((p.drop 4).take 4))) (leValue (p.take 4))).cases
      with ⟨d, hblock, hd⟩ | ⟨what, hblock⟩
    · rw [hblock] at h
      cases h
      rw [← hd] at hblock
      refine ⟨_, _, ?_, hblock, hd.trans_le (Nat.le_of_not_lt fun hlt => hfit (Or.inr hlt))⟩
      rw [Nat.add_assoc, ← List.length_append, List.take_append_drop, List.length_drop,
        Nat.add_sub_cancel' (Nat.le_of_not_lt hlen)]
    · rw [hblock] at h
      cases h

theorem nextBlock_spec {room : Nat} {p decoded rest : List UInt8}
    (h : nextBlock room p = some (decoded, rest)) :
    decoded.length ≤ room ∧ rest.length < p.length := by
  obtain ⟨method, payload, hlen, -, hroom⟩ := nextBlock_eq_some h
  unfold kBlockHeaderSize at hlen
  exact ⟨hroom, by omega⟩

/-- The blocks at the front of a byte string, as many as are needed for `room` bytes and as
far as they are good. -/
def blocksOf (room : Nat) (p : List UInt8) : List (List UInt8) :=
  if room = 0 then []
  else
    match _h : nextBlock room p with
    | none => []
    | some (decoded, rest) => decoded :: blocksOf (room - decoded.length) rest
termination_by p.length
decreasing_by exact (nextBlock_spec _h).2

theorem blocksOf_zero (p : List UInt8) : blocksOf 0 p = [] := by
  rw [blocksOf, if_pos rfl]

theorem blocksOf_none {room : Nat} {p : List UInt8} (h : nextBlock room p = none) :
    blocksOf room p = [] := by
  rw [blocksOf]
  by_cases h0 : room = 0
  · rw [if_pos h0]
  · rw [if_neg h0]
    split
    case h_1 => rfl
    case h_2 decoded rest h' =>
      rw [h] at h'
      cases h'

theorem blocksOf_some {room : Nat} {p decoded rest : List UInt8} (h0 : room ≠ 0)
    (h : nextBlock room p = some (decoded, rest)) :
    blocksOf room p = decoded :: blocksOf (room - decoded.length) rest := by
  rw [blocksOf, if_neg h0]
  split
  case h_1 h' =>
    rw [h] at h'
    cases h'
  case h_2 decoded' rest' h' =>
    rw [h] at h'
    cases h'
    rfl

/-! ## One round of either loop -/

theorem readFrame_eq {header : List UInt8} (h : header.length = kBlockHeaderSize) :
    readFrame header = .ok
      { uncompressed := leValue (header.take 4)
        compressed := leValue ((header.drop 4).take 4)
        method := Method.ofByte (header.getD 8 0) } := by
  unfold kBlockHeaderSize at h
  rw [readFrame, readU32LE_eq (by omega), bind_ok, readU32LE_eq (by omega), bind_ok,
    fetch_of_lt (by omega), bind_ok, List.drop_zero, List.getD_eq_getElem _ _ (by omega)]
  rfl

/-- The frame a byte string begins with, and what follows its nine bytes. -/
theorem readFrame_take {p : List UInt8} (h : ¬ p.length < kBlockHeaderSize) :
    readFrame (p.take kBlockHeaderSize) = .ok
      { uncompressed := leValue (p.take 4)
        compressed := leValue ((p.drop 4).take 4)
        method := Method.ofByte (p.getD 8 0) } := by
  have hlen : (p.take kBlockHeaderSize).length = kBlockHeaderSize := by
    rw [List.length_take]
    omega
  have h1 : (p.take kBlockHeaderSize).take 4 = p.take 4 := by
    rw [List.take_take]
    rfl
  have h2 : ((p.take kBlockHeaderSize).drop 4).take 4 = (p.drop 4).take 4 := by
    rw [List.drop_take, List.take_take]
    rfl
  have h3 : (p.take kBlockHeaderSize).getD 8 0 = p.getD 8 0 := by
    rw [List.getD_eq_getElem?_getD, List.getD_eq_getElem?_getD,
      List.getElem?_take_of_lt (by decide)]
  rw [readFrame_eq hlen, h1, h2, h3]

/-- A block decodes to the size in its frame, or it is corrupt. -/
theorem decodeFrame_eq (frame : Frame) (payload : List UInt8) :
    decodeFrame frame payload = decodeBlock frame.method payload frame.uncompressed := by
  have hdec := decodeBlock_decodes frame.method payload frame.uncompressed
  unfold decodeFrame
  cases h : decodeBlock frame.method payload frame.uncompressed with
  | error e => rfl
  | ok d =>
      rw [h] at hdec
      have hd : d.length = frame.uncompressed := hdec
      rw [bind_ok, if_neg (not_not.mpr hd)]
      rfl

section Rounds
variable {originalSize : Nat} {p : List UInt8}

/-- The in-memory loop: truncation is checked before overrun. -/
theorem blockParser_eq {out : List UInt8} (hout : out.length ≤ originalSize) :
    match nextBlock (originalSize - out.length) p with
    | some (decoded, rest) => blockParser originalSize out p = .ok (out ++ decoded, rest)
    | none => ∃ what, blockParser originalSize out p = .error (.corruptInput what) := by
  unfold nextBlock blockParser chunk
  by_cases hlen : p.length < kBlockHeaderSize
  · rw [if_pos hlen, if_pos hlen]
    exact ⟨_, rfl⟩
  rw [if_neg hlen, if_neg hlen]
  simp only [bind_ok, readFrame_take hlen]
  by_cases hfit : (p.drop kBlockHeaderSize).length < leValue ((p.drop 4).take 4)
  · rw [if_pos (Or.inl hfit), if_pos hfit]
    exact ⟨_, rfl⟩
  rw [if_neg hfit]
  simp only [bind_ok, extendBlock, minus_of_le hout]
  by_cases hroom : originalSize - out.length < leValue (p.take 4)
  · rw [if_pos (Or.inr hroom), if_pos hroom]
    exact ⟨_, rfl⟩
  rw [if_neg (not_or.mpr ⟨hfit, hroom⟩), if_neg hroom]
  simp only [decodeFrame_eq]
  rcases (decodeBlock_decodes (Method.ofByte (p.getD 8 0))
    ((p.drop kBlockHeaderSize).take (leValue ((p.drop 4).take 4))) (leValue (p.take 4))).cases
    with ⟨d, hblock, -⟩ | ⟨what, hblock⟩
  · rw [hblock]
    rfl
  · rw [hblock]
    exact ⟨what, rfl⟩

/-- The streaming loop: overrun is checked before truncation. -/
theorem streamRound_eq {produced : Nat} (hproduced : produced ≤ originalSize) :
    match nextBlock (originalSize - produced) p with
    | some (decoded, rest) =>
        streamRound originalSize produced p = .ok (decoded, decoded.length, rest)
    | none => ∃ what, streamRound originalSize produced p = .error (.corruptInput what) := by
  unfold nextBlock streamRound
  simp only [readExactly_eq]
  unfold chunk
  by_cases hlen : p.length < kBlockHeaderSize
  · rw [if_pos hlen, if_pos hlen]
    exact ⟨_, rfl⟩
  rw [if_neg hlen, if_neg hlen]
  simp only [bind_ok, readFrame_take hlen, minus_of_le hproduced]
  by_cases hroom : originalSize - produced < leValue (p.take 4)
  · rw [if_pos (Or.inr hroom), if_pos hroom]
    exact ⟨_, rfl⟩
  rw [if_neg hroom]
  by_cases hfit : (p.drop kBlockHeaderSize).length < leValue ((p.drop 4).take 4)
  · rw [if_pos (Or.inl hfit), if_pos hfit]
    exact ⟨_, rfl⟩
  rw [if_neg (not_or.mpr ⟨hfit, hroom⟩), if_neg hfit]
  simp only [bind_ok, decodeFrame_eq]
  rcases (decodeBlock_decodes (Method.ofByte (p.getD 8 0))
    ((p.drop kBlockHeaderSize).take (leValue ((p.drop 4).take 4))) (leValue (p.take 4))).cases
    with ⟨d, hblock, hsize⟩ | ⟨what, hblock⟩
  · rw [hblock]
    simp only [bind_ok, hsize]
    rfl
  · rw [hblock]
    exact ⟨what, rfl⟩

end Rounds

/-! ## The two loops -/

section Loops
variable {originalSize : Nat}

theorem blockRound_of_none {out : List UInt8} {c : Cursor} (hout : out.length ≤ originalSize)
    (h : nextBlock (originalSize - out.length) c.rest = none) :
    ∃ what, blockRound originalSize out c = .error (.corruptInput what) := by
  have hparse := blockParser_eq (p := c.rest) hout
  rw [h] at hparse
  obtain ⟨what, hparse⟩ := hparse
  refine ⟨what, ?_⟩
  cases hrun : blockRound originalSize out c with
  | ok ar =>
      rw [(simulates_blockRound originalSize out).ok hrun] at hparse
      cases hparse
  | error e =>
      rw [(simulates_blockRound originalSize out).error hrun] at hparse
      injection hparse with hparse
      rw [hparse]

theorem blockRound_of_some {out decoded rest : List UInt8} {c : Cursor}
    (hout : out.length ≤ originalSize)
    (h : nextBlock (originalSize - out.length) c.rest = some (decoded, rest)) :
    ∃ c', blockRound originalSize out c = .ok (out ++ decoded, c') ∧ c'.rest = rest := by
  have hparse := blockParser_eq (p := c.rest) hout
  rw [h] at hparse
  exact (simulates_blockRound originalSize out).of_ok hparse

/-- What a loop over blocks comes to: the blocks reach the declared size, or they do not. -/
theorem blockLoop_eq : ∀ (out : List UInt8) (c : Cursor), out.length ≤ originalSize →
    let blocks := (blocksOf (originalSize - out.length) c.rest).flatten
    (out.length + blocks.length = originalSize → ∃ c',
      (blockBody originalSize).loop (unfinished originalSize) out c
        = .ok (out ++ blocks, c')) ∧
    (out.length + blocks.length ≠ originalSize → ∃ what,
      (blockBody originalSize).loop (unfinished originalSize) out c
        = .error (.corruptInput what)) := by
  intro out c hout
  dsimp only
  induction hroom : originalSize - out.length, hp : c.rest using blocksOf.induct
    generalizing out c with
  | case1 p =>
      have hend : out.length = originalSize := by omega
      have hcond : unfinished originalSize out = false := decide_eq_false (by omega)
      rw [blocksOf_zero, List.flatten_nil, loop_done hcond, List.append_nil]
      exact ⟨fun _ => ⟨c, rfl⟩, fun h => absurd hend h⟩
  | case2 room p hmore hnone =>
      subst hroom hp
      have hcond : unfinished originalSize out = true := decide_eq_true (by omega)
      obtain ⟨what, hrun⟩ := blockRound_of_none hout hnone
      rw [blocksOf_none hnone, List.flatten_nil, List.length_nil]
      exact ⟨fun h => absurd h (by omega), fun _ => ⟨what, loop_error hcond hrun⟩⟩
  | case3 room p hmore decoded rest hnext ih =>
      subst hroom hp
      have hcond : unfinished originalSize out = true := decide_eq_true (by omega)
      have hle := (nextBlock_spec hnext).1
      obtain ⟨c', hrun, hrest⟩ := blockRound_of_some hout hnext
      have hlen : (out ++ decoded).length = out.length + decoded.length := List.length_append
      rw [blocksOf_some hmore hnext, List.flatten_cons, List.length_append, ← Nat.add_assoc,
        ← hlen, ← List.append_assoc, loop_step (b := blockBody originalSize) hcond hrun]
      exact ih (out ++ decoded) c' (by omega) (by omega) hrest

theorem streamLoop_eq : ∀ (produced : Nat) (p written : List UInt8), produced ≤ originalSize →
    let blocks := (blocksOf (originalSize - produced) p).flatten
    (streamLoop originalSize produced p written).written = written ++ blocks ∧
    (produced + blocks.length = originalSize →
      (streamLoop originalSize produced p written).result = .ok ()) ∧
    (produced + blocks.length ≠ originalSize → ∃ what,
      (streamLoop originalSize produced p written).result = .error (.corruptInput what)) := by
  intro produced p written hproduced
  dsimp only
  induction hroom : originalSize - produced, p using blocksOf.induct
    generalizing produced written with
  | case1 p =>
      have hend : produced = originalSize := by omega
      rw [blocksOf_zero, List.flatten_nil, List.append_nil, streamLoop, if_neg (by omega)]
      exact ⟨rfl, fun _ => rfl, fun h => absurd hend h⟩
  | case2 room p hmore hnone =>
      subst hroom
      have hround := streamRound_eq (p := p) hproduced
      rw [hnone] at hround
      obtain ⟨what, hround⟩ := hround
      rw [blocksOf_none hnone, List.flatten_nil, List.append_nil, List.length_nil, streamLoop,
        if_pos (by omega)]
      split
      case h_1 e he =>
        rw [hround] at he
        cases he
        exact ⟨rfl, fun h => absurd h (by omega), fun _ => ⟨what, rfl⟩⟩
      case h_2 he =>
        rw [hround] at he
        cases he
  | case3 room p hmore decoded rest hnext ih =>
      subst hroom
      have hround := streamRound_eq (p := p) hproduced
      rw [hnext] at hround
      have hle := (nextBlock_spec hnext).1
      rw [blocksOf_some hmore hnext, List.flatten_cons, List.length_append, ← Nat.add_assoc,
        ← List.append_assoc, streamLoop, if_pos (by omega)]
      split
      case h_1 e he =>
        rw [hround] at he
        cases he
      case h_2 decoded' progress rest' he =>
        rw [hround] at he
        cases he
        exact ih (produced + decoded.length) (written ++ decoded) (by omega) (by omega)

end Loops

/-- The in-memory decoder returns the blocks if they are all there. -/
theorem decompressBlocked_eq (payload : List UInt8) (originalSize : Nat) :
    let blocks := (blocksOf originalSize payload).flatten
    (blocks.length = originalSize → decompressBlocked payload originalSize = .ok blocks) ∧
    (blocks.length ≠ originalSize → ∃ what,
      decompressBlocked payload originalSize = .error (.corruptInput what)) := by
  obtain ⟨hok, herr⟩ := blockLoop_eq [] { data := payload } (Nat.zero_le originalSize)
  rw [List.length_nil, Nat.zero_add, Nat.sub_zero] at hok herr
  unfold decompressBlocked decompressBlockedStream
  refine ⟨fun h => ?_, fun h => ?_⟩
  · obtain ⟨c, hloop⟩ := hok h
    rw [hloop]
    rfl
  · obtain ⟨what, hloop⟩ := herr h
    exact ⟨what, by rw [hloop]; rfl⟩

theorem decompressBlocked_eq_ok {payload out : List UInt8} {originalSize : Nat}
    (h : decompressBlocked payload originalSize = .ok out) :
    out = (blocksOf originalSize payload).flatten ∧ out.length = originalSize := by
  obtain ⟨hok, herr⟩ := decompressBlocked_eq payload originalSize
  by_cases hsize : (blocksOf originalSize payload).flatten.length = originalSize
  · rw [hok hsize] at h
    cases h
    exact ⟨rfl, hsize⟩
  · obtain ⟨what, hcorrupt⟩ := herr hsize
    rw [hcorrupt] at h
    cases h

/-- The streaming decoder writes them in any case. -/
theorem streamLoop_start (payload : List UInt8) (originalSize : Nat) :
    let blocks := (blocksOf originalSize payload).flatten
    (blocks.length = originalSize →
      streamLoop originalSize 0 payload [] = { written := blocks, result := .ok () }) ∧
    (blocks.length ≠ originalSize → ∃ what,
      streamLoop originalSize 0 payload []
        = { written := blocks, result := .error (.corruptInput what) }) := by
  obtain ⟨hwritten, hok, herr⟩ := streamLoop_eq 0 payload [] (Nat.zero_le originalSize)
  rw [Nat.zero_add, Nat.sub_zero] at hok herr
  rw [Nat.sub_zero, List.nil_append] at hwritten
  refine ⟨fun h => ?_, fun h => ?_⟩
  · rw [← hwritten, ← hok h]
  · obtain ⟨what, hresult⟩ := herr h
    exact ⟨what, by rw [← hwritten, ← hresult]⟩

/-! ## The container -/

theorem readHeader_decodes {header : List UInt8} (h : kHeaderSize ≤ header.length) :
    Decodes (readHeader header) fun mn =>
      mn = (Method.ofByte (header.getD 5 0), leValue ((header.drop 6).take 8)) := by
  unfold kHeaderSize at h
  have hmagic : 0 + kMagic.length ≤ header.length := by
    show 4 ≤ header.length
    omega
  rw [readHeader, slice_of_le hmagic, bind_ok]
  by_cases hm : (header.drop 0).take kMagic.length ≠ kMagic
  · rw [if_pos hm]
    trivial
  rw [if_neg hm, fetch_of_lt (by omega), bind_ok]
  by_cases hv : header[4] ≠ kFormatVersion
  · rw [if_pos hv]
    trivial
  rw [if_neg hv, fetch_of_lt (by omega), bind_ok, readU64LE_eq (by omega), bind_ok,
    List.getD_eq_getElem _ _ (by omega)]
  rfl

/-- Only the first 14 bytes are looked at. -/
theorem readHeader_append {header : List UInt8} (h : header.length = kHeaderSize)
    (rest : List UInt8) : readHeader (header ++ rest) = readHeader header := by
  unfold kHeaderSize at h
  have hmagic : 0 + kMagic.length ≤ header.length := by
    show 4 ≤ header.length
    omega
  have htake : ∀ k n, k + n ≤ header.length →
      ((header ++ rest).drop k).take n = (header.drop k).take n := by
    intro k n hkn
    rw [List.drop_append_of_le_length (by omega), List.take_append_of_le_length]
    rw [List.length_drop]
    omega
  have hlen : header.length ≤ (header ++ rest).length := by
    rw [List.length_append]
    exact Nat.le_add_right _ _
  rw [readHeader, readHeader, slice_of_le (hmagic.trans hlen), slice_of_le hmagic,
    htake 0 _ hmagic, fetch_append (by omega), fetch_append (by omega),
    readU64LE_eq (by omega), readU64LE_eq (by omega), htake 6 8 (by omega)]

/-- A container long enough, split behind its header. -/
theorem decompress_of_le {b : List UInt8} (h : kHeaderSize ≤ b.length) :
    decompress b = readHeader (b.take kHeaderSize) >>= fun mn =>
      decompressPayload mn.1 (b.drop kHeaderSize) mn.2 := by
  have hlen : (b.take kHeaderSize).length = kHeaderSize := by
    rw [List.length_take, Nat.min_eq_left h]
  have hread := readHeader_append hlen (b.drop kHeaderSize)
  rw [List.take_append_drop] at hread
  have hslice : slice b kHeaderSize (b.length - kHeaderSize) = .ok (b.drop kHeaderSize) := by
    rw [slice_of_le (by omega), List.take_of_length_le (by rw [List.length_drop])]
  rw [decompress, if_neg (Nat.not_lt.mpr h), hread, minus_of_le h]
  simp only [bind_ok, hslice]

theorem decompress_of_lt {b : List UInt8} (h : b.length < kHeaderSize) :
    decompress b = .error (.corruptInput "input is shorter than the header") := by
  rw [decompress, if_pos h]
  rfl

theorem decompressBlocked_decodes (payload : List UInt8) (originalSize : Nat) :
    Decodes (decompressBlocked payload originalSize) fun out => out.length = originalSize := by
  obtain ⟨hok, herr⟩ := decompressBlocked_eq payload originalSize
  by_cases h : (blocksOf originalSize payload).flatten.length = originalSize
  · rw [hok h]
    exact h
  · obtain ⟨what, hcorrupt⟩ := herr h
    rw [hcorrupt]
    trivial

theorem decompressPayload_decodes (method : Method) (payload : List UInt8) (originalSize : Nat) :
    Decodes (decompressPayload method payload originalSize) fun out =>
      out.length = originalSize := by
  unfold decompressPayload
  split
  case isTrue => exact decompressBlocked_decodes payload originalSize
  case isFalse => exact decodeBlock_decodes method payload originalSize

/-- A container that is accepted: its header names the method and the size, and the rest is
decoded by that method, to that size. -/
theorem decompress_eq_ok {b x : List UInt8} (h : decompress b = .ok x) :
    kHeaderSize ≤ b.length ∧
      readHeader (b.take kHeaderSize)
        = .ok (Method.ofByte (b.getD 5 0), leValue ((b.drop 6).take 8)) ∧
      decompressPayload (Method.ofByte (b.getD 5 0)) (b.drop kHeaderSize)
        (leValue ((b.drop 6).take 8)) = .ok x := by
  have hge : kHeaderSize ≤ b.length := by
    by_contra hlt
    rw [decompress_of_lt (Nat.lt_of_not_le hlt)] at h
    cases h
  have hlen : (b.take kHeaderSize).length = kHeaderSize := by
    rw [List.length_take, Nat.min_eq_left hge]
  have hmethod : (b.take kHeaderSize).getD 5 0 = b.getD 5 0 := by
    rw [List.getD_eq_getElem?_getD, List.getD_eq_getElem?_getD,
      List.getElem?_take_of_lt (by decide)]
  have hfield : ((b.take kHeaderSize).drop 6).take 8 = (b.drop 6).take 8 := by
    rw [List.drop_take, List.take_take]
    rfl
  rw [decompress_of_le hge] at h
  obtain ⟨mn, hread, hpayload⟩ := bind_eq_ok.mp h
  have hmn := readHeader_decodes hlen.ge
  rw [hread, decodes_ok, hmethod, hfield] at hmn
  rw [hmn] at hread hpayload
  exact ⟨hge, hread, hpayload⟩

theorem decompress_decodes (b : List UInt8) :
    Decodes (decompress b) fun out =>
      kHeaderSize ≤ b.length ∧ out.length = leValue ((b.drop 6).take 8) := by
  rcases Nat.lt_or_ge b.length kHeaderSize with hlt | hge
  · rw [decompress_of_lt hlt]
    trivial
  · have hlen : (b.take kHeaderSize).length = kHeaderSize := by
      rw [List.length_take, Nat.min_eq_left hge]
    have hfield : ((b.take kHeaderSize).drop 6).take 8 = (b.drop 6).take 8 := by
      rw [List.drop_take, List.take_take]
      rfl
    rw [decompress_of_le hge]
    refine (readHeader_decodes hlen.ge).bind fun mn hmn => ?_
    have hsize : mn.2 = leValue ((b.drop 6).take 8) := by
      rw [hmn, hfield]
    have hdec := decompressPayload_decodes mn.1 (b.drop kHeaderSize) mn.2
    rw [hsize] at hdec ⊢
    exact hdec.mono fun _ hout => ⟨hge, hout⟩

/-- **The decoder on hostile input.**  On every byte string it returns, with exactly the
number of bytes declared at offset 6, or throws `CorruptInput`; it never faults. -/
theorem decompress_safe (b : List UInt8) :
    (∃ out, decompress b = .ok out ∧ kHeaderSize ≤ b.length ∧
        out.length = leValue ((b.drop 6).take 8)) ∨
      ∃ what, decompress b = .error (.corruptInput what) := by
  rcases (decompress_decodes b).cases with ⟨out, hout, hge, hlength⟩ | hcorrupt
  · exact Or.inl ⟨out, hout, hge, hlength⟩
  · exact Or.inr hcorrupt

/-! ## The streaming decoder -/

/-- The decoded blocks of a container that are complete and good, up to the first that is
not; none in a container of another method. -/
def completeBlocks (b : List UInt8) : List (List UInt8) :=
  if b.length < kHeaderSize then []
  else
    match readHeader (b.take kHeaderSize) with
    | .ok (.blocked, originalSize) => blocksOf originalSize (b.drop kHeaderSize)
    | _ => []

/-- How both decoders end on one container. -/
def Agree (b : List UInt8) : Prop :=
  (∃ x, decompress b = .ok x ∧ decompressStream b = { written := x, result := .ok () }) ∨
    ∃ what what', decompress b = .error (.corruptInput what) ∧
      decompressStream b
        = { written := (completeBlocks b).flatten, result := .error (.corruptInput what') }

theorem decompress_agree (b : List UInt8) : Agree b := by
  unfold Agree decompressStream
  rw [readExactly_eq, chunk]
  rcases Nat.lt_or_ge b.length kHeaderSize with hlt | hge
  · rw [if_pos hlt, completeBlocks, if_pos hlt]
    exact Or.inr ⟨_, _, decompress_of_lt hlt, rfl⟩
  have hlen : (b.take kHeaderSize).length = kHeaderSize := by
    rw [List.length_take, Nat.min_eq_left hge]
  have hdec := readHeader_decodes hlen.ge
  rw [if_neg (Nat.not_lt.mpr hge), decompress_of_le hge, completeBlocks,
    if_neg (Nat.not_lt.mpr hge)]
  dsimp only
  rcases hdec.cases with ⟨⟨method, originalSize⟩, hread, -⟩ | ⟨what, hread⟩
  · rw [hread]
    simp only [bind_ok]
    by_cases hmethod : method = .blocked
    · subst hmethod
      obtain ⟨hok, herr⟩ := decompressBlocked_eq (b.drop kHeaderSize) originalSize
      obtain ⟨hsok, hserr⟩ := streamLoop_start (b.drop kHeaderSize) originalSize
      rw [if_neg (not_not.mpr rfl), decompressPayload, if_pos rfl]
      by_cases hsize : (blocksOf originalSize (b.drop kHeaderSize)).flatten.length = originalSize
      · exact Or.inl ⟨_, hok hsize, hsok hsize⟩
      · obtain ⟨what, hcorrupt⟩ := herr hsize
        obtain ⟨what', hcorrupt'⟩ := hserr hsize
        exact Or.inr ⟨what, what', hcorrupt, hcorrupt'⟩
    · have hdec := decodeBlock_decodes method (b.drop kHeaderSize) originalSize
      rw [if_pos hmethod, decompressPayload, if_neg hmethod]
      rcases hdec.cases with ⟨x, hblock, -⟩ | ⟨what, hblock⟩
      · rw [hblock]
        exact Or.inl ⟨x, rfl, rfl⟩
      · rw [hblock]
        refine Or.inr ⟨what, what, rfl, ?_⟩
        cases method with
        | blocked => exact absurd rfl hmethod
        | stored => rfl
        | huffman => rfl
        | lz77 => rfl
        | deflate => rfl
        | unnamed byte => rfl
  · rw [hread]
    exact Or.inr ⟨what, what, rfl, rfl⟩

/-- **The decoders agree.**  The streaming decoder finishes normally exactly when the
in-memory decoder returns, having written what that returns; both throw `CorruptInput` on
the same inputs, and the stream then holds the blocks before the failing one. -/
theorem decompressStream_agrees (b : List UInt8) :
    (∀ x, decompress b = .ok x ↔ decompressStream b = { written := x, result := .ok () }) ∧
      ((∃ what, decompress b = .error (.corruptInput what)) ↔
        ∃ what, (decompressStream b).result = .error (.corruptInput what)) ∧
      ∀ e, (decompressStream b).result = .error e →
        (decompressStream b).written = (completeBlocks b).flatten := by
  rcases decompress_agree b with ⟨x, hmem, hstream⟩ | ⟨what, what', hmem, hstream⟩
  · rw [hmem, hstream]
    refine ⟨fun y => ⟨?_, ?_⟩, ⟨?_, ?_⟩, ?_⟩
    · rintro ⟨⟩
      rfl
    · rintro ⟨⟩
      rfl
    · rintro ⟨_, ⟨⟩⟩
    · rintro ⟨_, ⟨⟩⟩
    · rintro e ⟨⟩
  · rw [hmem, hstream]
    refine ⟨fun y => ⟨?_, ?_⟩, ⟨fun _ => ⟨what', rfl⟩, fun _ => ⟨what, rfl⟩⟩, fun _ _ => rfl⟩
    · rintro ⟨⟩
    · rintro ⟨⟩

end Compressly

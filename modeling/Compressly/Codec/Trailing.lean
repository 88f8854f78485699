/-
# `Compressly.Codec.Trailing` — bytes behind a container

The decoders stop as soon as they have produced the declared size, and only the
stored method compares the length of its payload with it.  So what follows a
container shows in one case and never in the others:

    stored                      CorruptInput            (`decodeBlock_stored_append`)
    Huffman, LZ77, DEFLATE      the same output, whatever follows
    blocked                     (`decompressPayload_append`)
-/
import Compressly.Codec.RoundTrip

namespace Compressly

open Endian Parse Loop Block

/-! ## Payloads -/

/-- A coded block is decoded from the front of its payload. -/
theorem decodeBlock_append {method : Method} (hmethod : method ≠ .stored)
    {payload out : List UInt8} {uncompressedSize : Nat}
    (h : decodeBlock method payload uncompressedSize = .ok out) (s : List UInt8) :
    decodeBlock method (payload ++ s) uncompressedSize = .ok out := by
  cases method with
  | stored => exact absurd rfl hmethod
  | huffman =>
      obtain ⟨ar, hstream, rfl⟩ := map_eq_ok.mp h
      obtain ⟨r', hlong, -⟩ := decodeHuffmanStream_append hstream s
      exact map_eq_ok.mpr ⟨_, hlong, rfl⟩
  | lz77 =>
      obtain ⟨ar, hstream, rfl⟩ := map_eq_ok.mp h
      obtain ⟨c', hlong, -⟩ := decodeLz77Stream_append hstream s
      exact map_eq_ok.mpr ⟨_, hlong, rfl⟩
  | deflate =>
      obtain ⟨ar, hstream, rfl⟩ := map_eq_ok.mp h
      obtain ⟨r', hlong, -⟩ := Deflate.decodeStream_append hstream s
      exact map_eq_ok.mpr ⟨_, hlong, rfl⟩
  | blocked => cases h
  | unnamed byte => cases h

theorem decodeBlock_stored_append {payload out : List UInt8} {uncompressedSize : Nat}
    (h : decodeBlock .stored payload uncompressedSize = .ok out) {s : List UInt8} (hs : s ≠ []) :
    ∃ what, decodeBlock .stored (payload ++ s) uncompressedSize = .error (.corruptInput what) := by
  have hsize : payload.length = uncompressedSize := by
    by_contra hne
    rw [decodeBlock, if_pos hne] at h
    cases h
  have hlonger : (payload ++ s).length ≠ uncompressedSize := by
    intro heq
    rw [List.length_append, hsize] at heq
    exact hs (List.length_eq_zero_iff.mp (by omega))
  rw [decodeBlock, if_pos hlonger]
  exact ⟨_, rfl⟩

/-- The loop over blocks ends with the declared size, not with the payload. -/
theorem decompressBlocked_append {payload out : List UInt8} {originalSize : Nat}
    (h : decompressBlocked payload originalSize = .ok out) (s : List UInt8) :
    decompressBlocked (payload ++ s) originalSize = .ok out := by
  obtain ⟨ac, hloop, rfl⟩ := map_eq_ok.mp h
  have hlonger : Cursor.rest { data := payload ++ s } = Cursor.rest { data := payload } ++ s := rfl
  obtain ⟨c', hlong, -⟩ := loop_append (simulates_blockRound originalSize)
    (stable_blockParser originalSize) hloop hlonger
  exact map_eq_ok.mpr ⟨_, hlong, rfl⟩

theorem decompressPayload_append {method : Method} (hmethod : method ≠ .stored)
    {payload out : List UInt8} {originalSize : Nat}
    (h : decompressPayload method payload originalSize = .ok out) (s : List UInt8) :
    decompressPayload method (payload ++ s) originalSize = .ok out := by
  unfold decompressPayload at h ⊢
  split at h
  case isTrue hblocked =>
    rw [if_pos hblocked]
    exact decompressBlocked_append h s
  case isFalse hblocked =>
    rw [if_neg hblocked]
    exact decodeBlock_append hmethod h s

/-! ## Containers -/

theorem methodOf_eq {b : List UInt8} (h : kHeaderSize ≤ b.length) :
    methodOf b = .ok (Method.ofByte (b.getD 5 0)) := by
  have hlt : 5 < b.length := Nat.lt_of_lt_of_le (by decide) h
  rw [methodOf, if_neg (Nat.not_lt.mpr h), fetch_of_lt hlt, bind_ok,
    List.getD_eq_getElem _ _ hlt]
  rfl

/-- Decoding a container with more behind it: the header is the same, the payload longer. -/
theorem decompress_append_eq {b x : List UInt8} (h : decompress b = .ok x) (s : List UInt8) :
    decompress (b ++ s) = decompressPayload (Method.ofByte (b.getD 5 0))
      (b.drop kHeaderSize ++ s) (leValue ((b.drop 6).take 8)) := by
  obtain ⟨hge, hread, -⟩ := decompress_eq_ok h
  have hlong : kHeaderSize ≤ (b ++ s).length := by
    rw [List.length_append]
    omega
  rw [decompress_of_le hlong, List.take_append_of_le_length hge, hread, bind_ok,
    List.drop_append_of_le_length hge]

theorem decompress_append {b x : List UInt8} (h : decompress b = .ok x)
    (hmethod : methodOf b ≠ .ok .stored) (s : List UInt8) : decompress (b ++ s) = .ok x := by
  obtain ⟨hge, -, hpayload⟩ := decompress_eq_ok h
  rw [methodOf_eq hge, ne_eq, Except.ok.injEq] at hmethod
  rw [decompress_append_eq h]
  exact decompressPayload_append hmethod hpayload s

/-- **Bytes behind a container.**  They are noticed exactly where the container is stored. -/
theorem trailing_rejected_iff {b x s : List UInt8} (h : decompress b = .ok x) (hs : s ≠ []) :
    (∃ what, decompress (b ++ s) = .error (.corruptInput what)) ↔ methodOf b = .ok .stored := by
  obtain ⟨hge, -, hpayload⟩ := decompress_eq_ok h
  constructor
  · rintro ⟨what, hcorrupt⟩
    by_contra hmethod
    rw [decompress_append h hmethod s] at hcorrupt
    cases hcorrupt
  · intro hmethod
    rw [methodOf_eq hge, Except.ok.injEq] at hmethod
    rw [decompress_append_eq h, hmethod]
    rw [hmethod] at hpayload
    exact decodeBlock_stored_append hpayload hs

/-- A stored container of one byte. -/
theorem trailing_rejected_run :
    (∃ what, decompress ([67, 77, 80, 82, 1, 0, 1, 0, 0, 0, 0, 0, 0, 0, 7] ++ [0])
        = .error (.corruptInput what)) ↔
      methodOf [67, 77, 80, 82, 1, 0, 1, 0, 0, 0, 0, 0, 0, 0, 7] = .ok .stored :=
  trailing_rejected_iff (x := [7]) (by decide +kernel) (by decide)

/-- A byte behind the container of two blocks that `compress` returns for three bytes. -/
theorem trailing_not_rejected :
    decompress ([67, 77, 80, 82, 1, 4, 3, 0, 0, 0, 0, 0, 0, 0]
        ++ [2, 0, 0, 0, 2, 0, 0, 0, 0, 7, 7] ++ [1, 0, 0, 0, 1, 0, 0, 0, 0, 7]) = .ok [7, 7, 7] ∧
      decompress (([67, 77, 80, 82, 1, 4, 3, 0, 0, 0, 0, 0, 0, 0]
        ++ [2, 0, 0, 0, 2, 0, 0, 0, 0, 7, 7] ++ [1, 0, 0, 0, 1, 0, 0, 0, 0, 7]) ++ [0])
        = .ok [7, 7, 7] := by
  have hcompress : compress reversed [7, 7, 7] { algorithm := .lz77, blockSize := 2 }
      = .ok ([67, 77, 80, 82, 1, 4, 3, 0, 0, 0, 0, 0, 0, 0]
        ++ [2, 0, 0, 0, 2, 0, 0, 0, 0, 7, 7] ++ [1, 0, 0, 0, 1, 0, 0, 0, 0, 7]) := by
    decide +kernel
  have htight : ∃ c, compress reversed [7, 7, 7] { algorithm := .lz77, blockSize := 2 } = .ok c ∧
      Tight decompress [7, 7, 7] c := compress_tight reversed (by decide) (by decide) (by decide)
  obtain ⟨c, hc, htight⟩ := htight
  rw [hcompress, Except.ok.injEq] at hc
  subst hc
  exact ⟨htight.decodes, decompress_append htight.decodes (by decide) [0]⟩

end Compressly

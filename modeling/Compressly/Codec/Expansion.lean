/-
# `Compressly.Codec.Expansion` — how much a container can expand

Each decoder reserves no more than its payload can stand for, whatever size the
header claims.  The bounds it uses are true bounds on what it returns:

    decodeHuffman     8 bytes for each byte of the bit stream
    decodeLz77        minMatch + 255 for each byte of the payload
    deflate::decode   8 * 258 for each byte of the bit stream

They hold for any tables, since a code has at least one bit and an item at least
one byte (`decodeHuffman_expansion` and the lemmas after it).  So no container
expands by more than `kMaxExpansionPerPayloadByte` (`decompress_expansion`), and
one that declares more is rejected (`expansion_bounded`).
-/
import Compressly.Block.HuffmanGrammar
import Compressly.Block.Lz77Grammar
import Compressly.Deflate.Grammar
import Compressly.Codec.Decode

namespace Compressly

open Bits Parse Endian Huffman LZ77 Replay Block

/-- The most expansive thing any method can do is turn one bit into `kMaxMatch` output bytes. -/
def kMaxExpansionPerPayloadByte : Nat := 8 * 258

/-- What a list of pieces produces, against what it is spelled by. -/
theorem sum_le_mul_flatten {α τ : Type} {f : α → Nat} {c : Nat} {R : α → List τ → Prop}
    (h : ∀ a w, R a w → f a ≤ c * w.length) {as : List α} {ws : List (List τ)}
    (hws : List.Forall₂ R as ws) : (as.map f).sum ≤ c * ws.flatten.length := by
  induction hws with
  | nil => exact Nat.zero_le _
  | @cons a w as ws haw _ ih =>
      rw [List.map_cons, List.sum_cons, List.flatten_cons, List.length_append, Nat.mul_add]
      exact Nat.add_le_add (h a w haw) ih

theorem length_flatten_le {bits : List UInt8} {ws : List (List Bool)} {rest : List Bool}
    (h : bytesBits bits = ws.flatten ++ rest) : ws.flatten.length ≤ 8 * bits.length := by
  rw [← length_bytesBits, h, List.length_append]
  exact Nat.le_add_right _ _

/-! ## The decoders -/

theorem decodeHuffman_expansion {payload out : List UInt8} {originalSize : Nat} {ls : LengthTable}
    {bits : List UInt8} (hstored : storedLengths payload = .ok (ls, bits))
    (h : decodeHuffman payload originalSize = .ok out) : out.length ≤ 8 * bits.length := by
  obtain ⟨ls', bits', ws, rest, hstored', hws, hbits, -⟩ := decodeHuffman_eq_ok_iff.mp h
  rw [hstored] at hstored'
  cases hstored'
  have hsum : (out.map fun _ => 1).sum ≤ 1 * ws.flatten.length := by
    refine sum_le_mul_flatten (fun b w hw => ?_) hws
    rw [Nat.one_mul]
    exact List.length_pos_iff.mpr hw.ne_nil
  rw [List.map_const', List.sum_replicate, smul_eq_mul, Nat.mul_one, Nat.one_mul] at hsum
  exact hsum.trans (length_flatten_le hbits)

theorem span_le_of_allows {params : Lz77Params} {i : Item UInt8} (hi : params.Allows i) :
    i.span ≤ (params.minMatch + 255) * (spelled params.minMatch i).length := by
  cases i with
  | lit b => exact Nat.le_mul_of_pos_left _ (Nat.add_pos_right _ (by decide))
  | copy distance length =>
      rw [length_spelled _ rfl]
      exact hi.2.2.trans (Nat.le_mul_of_pos_right _ (by decide))

theorem sum_span_le_of_framed {params : Lz77Params} {items : List (Item UInt8)} {body : List UInt8}
    (h : Framed params.minMatch items body) (hallow : ∀ i ∈ items, params.Allows i) :
    (items.map Item.span).sum ≤ (params.minMatch + 255) * body.length := by
  induction h with
  | nil => exact Nat.zero_le _
  | @group flags g items body _ _ _ _ _ ih =>
      have hrest := ih fun i hi => hallow i (List.mem_append_right _ hi)
      have hgroup : (g.map Item.span).sum
          ≤ (params.minMatch + 255) * (g.flatMap (spelled params.minMatch)).length := by
        have hall : ∀ i ∈ g, params.Allows i := fun i hi => hallow i (List.mem_append_left _ hi)
        rw [List.flatMap_def]
        refine sum_le_mul_flatten (R := fun i w => params.Allows i ∧ w = spelled params.minMatch i)
          ?_ (List.forall₂_map_right_iff.mpr (List.forall₂_same.mpr fun i hi => ⟨hall i hi, rfl⟩))
        rintro i w ⟨hi, rfl⟩
        exact span_le_of_allows hi
      rw [List.map_append, List.sum_append, List.length_cons, List.length_append]
      calc (g.map Item.span).sum + (items.map Item.span).sum
          ≤ (params.minMatch + 255) * (g.flatMap (spelled params.minMatch)).length
            + (params.minMatch + 255) * body.length := Nat.add_le_add hgroup hrest
        _ = (params.minMatch + 255) * ((g.flatMap (spelled params.minMatch)).length + body.length) :=
          (Nat.mul_add _ _ _).symm
        _ ≤ _ := Nat.mul_le_mul_left _ (Nat.le_succ _)

theorem decodeLz77_expansion {payload tail out : List UInt8} {params : Lz77Params}
    {originalSize : Nat} (hhead : Headed payload params tail)
    (h : decodeLz77 payload originalSize = .ok out) :
    out.length ≤ (params.minMatch + 255) * payload.length := by
  obtain ⟨params', body, rest, items, hhead', hframed, hallow, hreplay⟩ := decodeLz77_eq_ok_iff.mp h
  obtain ⟨rfl, rfl⟩ := hhead.unique hhead'
  obtain ⟨windowBits, minMatch, -, -, -, rfl⟩ := hhead
  rw [hreplay.length, ← hreplay.sum_span]
  refine (sum_span_le_of_framed hframed hallow).trans (Nat.mul_le_mul_left _ ?_)
  rw [List.length_cons, List.length_cons, List.length_append]
  omega

theorem span_le_of_spelled {q : Deflate.Parts} {i : Item UInt8} {w : List Bool}
    (h : q.Spelled i w) : i.span ≤ Deflate.kMaxMatch * w.length := by
  obtain ⟨hw, hwithin⟩ := h
  have hpos : 0 < w.length := by
    cases hw with
    | lit hlit => exact List.length_pos_iff.mpr hlit.ne_nil
    | copy _ _ hlit =>
        rw [List.length_append, List.length_append, Nat.add_assoc]
        exact Nat.add_pos_left (List.length_pos_iff.mpr hlit.ne_nil) _
  have hspan : i.span ≤ Deflate.kMaxMatch := by
    cases hw with
    | lit => exact show 1 ≤ Deflate.kMaxMatch by decide
    | copy hi _ _ hx => exact (Deflate.length_range hi hx).2
  exact hspan.trans (Nat.le_mul_of_pos_right _ hpos)

theorem decode_expansion {q : Deflate.Parts} (hq : q.Ok) {bits out : List UInt8}
    {originalSize : Nat} (h : Deflate.decode (q.bytes ++ bits) originalSize = .ok out) :
    out.length ≤ 8 * Deflate.kMaxMatch * bits.length := by
  obtain ⟨items, ws, rest, hws, hbits, hreplay⟩ := (Deflate.decode_bytes_eq_ok_iff hq).mp h
  rw [hreplay.length, ← hreplay.sum_span, Nat.mul_comm 8, Nat.mul_assoc]
  have hspan : ∀ i w, q.Spelled i w → i.span ≤ Deflate.kMaxMatch * w.length :=
    fun i w => span_le_of_spelled
  exact (sum_le_mul_flatten hspan hws).trans (Nat.mul_le_mul_left _ (length_flatten_le hbits))

/-! ## A container -/

/-- No method expands a payload by more. -/
theorem decodeBlock_expansion {method : Method} {payload out : List UInt8} {uncompressedSize : Nat}
    (h : decodeBlock method payload uncompressedSize = .ok out) :
    out.length ≤ kMaxExpansionPerPayloadByte * payload.length := by
  cases method with
  | stored =>
      unfold decodeBlock at h
      by_cases hsize : payload.length ≠ uncompressedSize
      · rw [if_pos hsize] at h
        cases h
      · rw [if_neg hsize] at h
        cases h
        exact Nat.le_mul_of_pos_left _ (by decide)
  | huffman =>
      obtain ⟨ls, bits, ws, rest, hstored, -⟩ := decodeHuffman_eq_ok_iff.mp h
      refine (decodeHuffman_expansion hstored h).trans (Nat.mul_le_mul (by decide) ?_)
      exact length_le_of_storedLengths hstored
  | lz77 =>
      obtain ⟨params, body, rest, items, hhead, -⟩ := decodeLz77_eq_ok_iff.mp h
      have hmin : params.minMatch + 255 ≤ kMaxExpansionPerPayloadByte :=
        (Nat.add_le_add_right hhead.minMatch_le 255).trans (by decide)
      exact (decodeLz77_expansion hhead h).trans (Nat.mul_le_mul_right _ hmin)
  | deflate =>
      obtain ⟨q, bits, hq, rfl⟩ := Deflate.exists_parts_of_decode h
      refine (decode_expansion hq h).trans (Nat.mul_le_mul_left _ ?_)
      rw [List.length_append]
      exact Nat.le_add_left _ _
  | blocked => cases h
  | unnamed byte => cases h

/-- The blocks at the front of a byte string, zero-length ones included. -/
theorem blocksOf_expansion (room : Nat) (p : List UInt8) :
    (blocksOf room p).flatten.length ≤ kMaxExpansionPerPayloadByte * p.length := by
  fun_induction blocksOf room p with
  | case1 p => exact Nat.zero_le _
  | case2 room p _ _ => exact Nat.zero_le _
  | case3 room p _ decoded rest hnext ih =>
      obtain ⟨method, payload, hlen, hblock, -⟩ := nextBlock_eq_some hnext
      have hfirst := decodeBlock_expansion hblock
      have hle : payload.length + rest.length ≤ p.length := by omega
      rw [List.flatten_cons, List.length_append]
      calc decoded.length + (blocksOf (room - decoded.length) rest).flatten.length
          ≤ kMaxExpansionPerPayloadByte * payload.length
            + kMaxExpansionPerPayloadByte * rest.length := Nat.add_le_add hfirst ih
        _ = kMaxExpansionPerPayloadByte * (payload.length + rest.length) :=
          (Nat.mul_add _ _ _).symm
        _ ≤ kMaxExpansionPerPayloadByte * p.length := Nat.mul_le_mul_left _ hle

theorem decompress_expansion {b out : List UInt8} (h : decompress b = .ok out) :
    out.length ≤ kMaxExpansionPerPayloadByte * (b.length - kHeaderSize) := by
  obtain ⟨-, -, hpayload⟩ := decompress_eq_ok h
  rw [← List.length_drop]
  unfold decompressPayload at hpayload
  split at hpayload
  case isTrue =>
    rw [(decompressBlocked_eq_ok hpayload).1]
    exact blocksOf_expansion _ _
  case isFalse => exact decodeBlock_expansion hpayload

/-- **The decoded size is bounded by the compressed size.** -/
theorem expansion_bounded (b : List UInt8) :
    (∀ out, decompress b = .ok out → out.length ≤ 2064 * (b.length - 14)) ∧
    (2064 * (b.length - 14) < leValue ((b.drop 6).take 8) →
      ∃ what, decompress b = .error (.corruptInput what)) ∧
    -- what each decoder reserves for
    ∀ payload originalSize out,
      (∀ ls bits, storedLengths payload = .ok (ls, bits) →
        decodeHuffman payload originalSize = .ok out → out.length ≤ 8 * bits.length) ∧
      (∀ params tail, Headed payload params tail → decodeLz77 payload originalSize = .ok out →
        out.length ≤ (params.minMatch + 255) * payload.length) ∧
      ∀ (q : Deflate.Parts) (bits : List UInt8), q.Ok → payload = q.bytes ++ bits →
        Deflate.decode payload originalSize = .ok out → out.length ≤ 8 * 258 * bits.length := by
  refine ⟨fun out => decompress_expansion, fun hdeclared => ?_, fun payload originalSize out => ?_⟩
  · rcases (decompress_decodes b).cases with ⟨out, hout, -, hlength⟩ | hcorrupt
    · have hle := decompress_expansion hout
      rw [hlength] at hle
      exact absurd hle (Nat.not_le.mpr hdeclared)
    · exact hcorrupt
  · refine ⟨fun ls bits => decodeHuffman_expansion, fun params tail => decodeLz77_expansion, ?_⟩
    rintro q bits hq rfl
    exact decode_expansion hq

end Compressly

/-
# `Compressly.Block.Dictionary` — the two dictionary decoders agree on what a copy is

`decodeLz77` and `deflate::decode` accept exactly their grammars
(`Block.Lz77Grammar`, `Deflate.Grammar`), and both return the replay of the
items.  In the replay each copied byte is the byte `distance` places before it,
and `detokenize` gives the same bytes for the same items, where these fit its
tokens (`Copies`).
-/
import Compressly.Block.Lz77Grammar
import Compressly.Deflate.Grammar

namespace Compressly.Block

open Bits Kraft Parse Huffman LZ77 Replay Deflate

/-- What the replay `out` of `items` is. -/
structure Copies (items : List (Item UInt8)) (out : List UInt8) : Prop where
  /-- Each copied byte is the byte `distance` places before it. -/
  copied : ∀ before after distance length, items = before ++ .copy distance length :: after →
    ∀ k < length, out[(before.map Item.span).sum + k]?
      = out[(before.map Item.span).sum + k - distance]?
  /-- The replay of tokens gives the same bytes. -/
  detokenized : (∀ distance length, .copy distance length ∈ items → distance < 2 ^ 16) →
    ∀ expectedSize ≤ maxSize, ∃ tokens, tokens.map Token.item = items ∧
      detokenize tokens expectedSize = .ok out

theorem copies_of_replaysTo {items : List (Item UInt8)} {n : Nat} {out : List UInt8}
    (h : ReplaysTo items n out)
    (hfit : ∀ distance length, .copy distance length ∈ items → 0 < distance ∧ length < 2 ^ 16) :
    Copies items out where
  copied := by
    rintro before after distance length rfl k hk
    rw [← h.replay]
    exact getElem?_replay h.backed hk
  detokenized := by
    intro hdist expectedSize hsize
    have hitems : (items.map tokenOf).map Token.item = items := by
      rw [List.map_map]
      refine (List.map_congr_left fun i hi => ?_).trans (List.map_id items)
      refine item_tokenOf fun distance length heq => ?_
      subst heq
      have hcopy := hfit distance length hi
      exact ⟨⟨hcopy.1, hdist distance length hi⟩, hcopy.2⟩
    refine ⟨items.map tokenOf, hitems, detokenize_of_replaysTo (n := n) ?_ hsize⟩
    rw [hitems]
    exact h

theorem copies_of_allows {params : Lz77Params} (hmin : params.minMatch ≤ 8)
    {items : List (Item UInt8)} (hallow : ∀ i ∈ items, params.Allows i) {n : Nat} {out : List UInt8}
    (h : ReplaysTo items n out) : Copies items out := by
  refine copies_of_replaysTo h fun distance length hmem => ?_
  obtain ⟨⟨h0, -⟩, -, hmax⟩ := hallow _ hmem
  exact ⟨h0, by omega⟩

theorem copies_of_legal {windowSize : Nat} {items : List (Item UInt8)}
    (hlegal : ∀ i ∈ items, Legal windowSize i) {n : Nat} {out : List UInt8}
    (h : ReplaysTo items n out) : Copies items out := by
  refine copies_of_replaysTo h fun distance length hmem => ?_
  obtain ⟨⟨h0, -⟩, -, hmax⟩ := hlegal _ hmem
  exact ⟨h0, by omega⟩

/-- **The dictionary decoders accept exactly their grammar, and compute the replay.** -/
theorem dictionary_decoders (originalSize : Nat) (out : List UInt8) :
    (∀ payload, decodeLz77 payload originalSize = .ok out ↔
      ∃ params body rest items, Headed payload params (body ++ rest) ∧
        Framed params.minMatch items body ∧ (∀ i ∈ items, params.Allows i) ∧
        ReplaysTo items originalSize out ∧ Copies items out) ∧
    (∀ (q : Parts) (bits : List UInt8), q.Ok →
      PrefixTable q.litLenLengths → PrefixTable q.distLengths →
      ∃ litLenCodes distCodes, buildCanonicalCodes q.litLenLengths = .ok litLenCodes ∧
        buildCanonicalCodes q.distLengths = .ok distCodes ∧
        (decode (q.bytes ++ bits) originalSize = .ok out ↔
          ∃ items ws rest, (∀ i ∈ items, Legal (2 ^ q.windowBits.toNat) i) ∧
            List.Forall₂ (ItemBits (IsCode litLenCodes) (IsCode distCodes)) items ws ∧
            bytesBits bits = ws.flatten ++ rest ∧
            ReplaysTo items originalSize out ∧ Copies items out)) ∧
    ∀ payload, decode payload originalSize = .ok out →
      ∃ (q : Parts) (bits : List UInt8), q.Ok ∧ payload = q.bytes ++ bits := by
  refine ⟨fun payload => ?_, fun q bits hq hlit hdist => ?_, fun payload => exists_parts_of_decode⟩
  · rw [decodeLz77_eq_ok_iff]
    constructor
    · rintro ⟨params, body, rest, items, hhead, hframed, hallow, hreplay⟩
      exact ⟨params, body, rest, items, hhead, hframed, hallow, hreplay,
        copies_of_allows hhead.minMatch_le hallow hreplay⟩
    · rintro ⟨params, body, rest, items, hhead, hframed, hallow, hreplay, -⟩
      exact ⟨params, body, rest, items, hhead, hframed, hallow, hreplay⟩
  · refine ⟨_, _, buildCanonicalCodes_eq hlit.le_max hq.litLen_covered,
      buildCanonicalCodes_eq hdist.le_max hq.dist_covered, ?_⟩
    rw [decode_canonical_iff hq hlit hdist]
    constructor
    · rintro ⟨items, ws, rest, hlegal, hws, hbits, hreplay⟩
      exact ⟨items, ws, rest, hlegal, hws, hbits, hreplay, copies_of_legal hlegal hreplay⟩
    · rintro ⟨items, ws, rest, hlegal, hws, hbits, hreplay, -⟩
      exact ⟨items, ws, rest, hlegal, hws, hbits, hreplay⟩

end Compressly.Block

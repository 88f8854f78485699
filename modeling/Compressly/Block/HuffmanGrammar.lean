/-
# `Compressly.Block.HuffmanGrammar` — what the order-0 decoder accepts

    payload  =  table code*

A payload is accepted if and only if it has a legal table and the bits behind
it begin with as many codes as bytes are declared; what is returned are their
symbols (`decodeHuffman_eq_ok_iff`).  That holds for any table: in one that is
no prefix code, the code of a symbol is what its walk spells, if it has one.
-/
import Compressly.Block.Huffman
import Compressly.Lib.ReplayLoop

namespace Compressly.Block

open Bits Kraft Parse Loop Huffman Replay

/-- A literal, spelled by the table. -/
def SpelledLiteral (ls : LengthTable) (i : Item UInt8) (w : List Bool) : Prop :=
  ∃ b : UInt8, i = .lit b ∧ Spells ls w b.toNat

section Table
variable {ls : LengthTable} {tree : DecodeTree} (hlen : ls.length = kByteAlphabetSize)
  (ht : Trie tree.nodes (entriesOf ls))

include hlen ht in
theorem readsItems_huffmanToken (originalSize : Nat) :
    ReadsItems id (Plain (SpelledLiteral ls)) originalSize (huffmanToken tree) where
  plays := by
    rintro out out' i w ⟨⟨b, rfl, -⟩, rfl⟩
    exact ⟨rfl, Nat.one_pos⟩
  round_iff := by
    intro out out' bs rest hout
    constructor
    · intro htoken
      obtain ⟨⟨s, bs'⟩, hsym, hrest⟩ := bind_eq_ok.mp htoken
      cases hrest
      obtain ⟨w, hw, rfl⟩ := (symbol_eq_ok_iff ht).mp hsym
      have hb : (UInt8.ofNat s).toNat = s :=
        UInt8.toNat_ofNat_of_lt' ((lt_length_of_getD hw.coded).trans_eq hlen)
      rw [← hb] at hw
      exact ⟨.lit (UInt8.ofNat s), w, ⟨⟨_, rfl, hw⟩, rfl⟩, rfl, trivial, hout⟩
    · rintro ⟨i, w, ⟨⟨b, rfl, hw⟩, rfl⟩, rfl, -, -⟩
      rw [huffmanToken, (symbol_eq_ok_iff ht).mpr ⟨w, hw, rfl⟩, bind_ok]
      simp only [UInt8.ofNat_toNat]
      rfl

theorem forall₂_spelledLiteral {items : List (Item UInt8)} {ws : List (List Bool)} :
    List.Forall₂ (SpelledLiteral ls) items ws ↔ ∃ bytes : List UInt8, items = bytes.map .lit ∧
      List.Forall₂ (fun b w => Spells ls w b.toNat) bytes ws := by
  constructor
  · intro h
    induction h with
    | nil => exact ⟨[], rfl, .nil⟩
    | cons hi _ ih =>
        obtain ⟨b, rfl, hb⟩ := hi
        obtain ⟨bytes, rfl, hbytes⟩ := ih
        exact ⟨b :: bytes, rfl, .cons hb hbytes⟩
  · rintro ⟨bytes, rfl, h⟩
    rw [List.forall₂_map_left_iff]
    exact h.imp fun b w hw => ⟨b, rfl, hw⟩

end Table

/-- The decoder and the bits it leaves, on a payload with a legal table. -/
theorem decodeHuffmanStream_stored {payload : List UInt8} {ls : LengthTable} {bits : List UInt8}
    (hstored : storedLengths payload = .ok (ls, bits)) {originalSize : Nat} {out : List UInt8}
    {rest : List Bool} :
    (∃ r, decodeHuffmanStream payload originalSize = .ok (out, r) ∧ r.bits = rest) ↔
      ∃ ws, List.Forall₂ (fun b w => Spells ls w b.toNat) out ws ∧
        bytesBits bits = ws.flatten ++ rest ∧ out.length = originalSize := by
  have hdec := storedLengths_decodes payload
  rw [hstored] at hdec
  obtain ⟨tree, hbuild, ht⟩ := build_trie hdec.2 (covered_bytes hdec.1)
  have hreads := readsItems_huffmanToken hdec.1 ht originalSize
  have hread : readSymbolTable payload = .ok (tree, bits) := by
    rw [readSymbolTable_eq, hstored, bind_ok]
    simp only [hbuild, bind_ok, pure_eq_ok]
  have hstart : BitReader.bits { data := bits } = bytesBits bits := rfl
  constructor
  · rintro ⟨r, hstream, rfl⟩
    rw [decodeHuffmanStream, hread, bind_ok] at hstream
    have hrun := loop_run (reads_huffmanRound tree) hstream
    rw [hstart] at hrun
    obtain ⟨items, ws, hws, hbits, hreplay⟩ := hreads.run_plain.mp hrun
    obtain ⟨bytes, rfl, hbytes⟩ := forall₂_spelledLiteral.mp hws
    obtain ⟨rfl, hlen⟩ := replaysTo_map_lit.mp hreplay
    exact ⟨ws, hbytes, hbits, hlen⟩
  · rintro ⟨ws, hws, hbits, hlen⟩
    have hrun := hreads.run_plain.mpr ⟨_, ws, forall₂_spelledLiteral.mpr ⟨out, rfl, hws⟩, hbits,
      replaysTo_map_lit.mpr ⟨rfl, hlen⟩⟩
    obtain ⟨r, hloop, hrest⟩ := loop_of_run (b := huffmanBody tree) (reads_huffmanRound tree) hrun
      hstart
    refine ⟨r, ?_, hrest⟩
    rw [decodeHuffmanStream, hread, bind_ok]
    exact hloop

theorem exists_stored_of_decodeHuffman {payload : List UInt8} {originalSize : Nat}
    {out : List UInt8} {r : BitReader} (h : decodeHuffmanStream payload originalSize = .ok (out, r)) :
    ∃ ls bits, storedLengths payload = .ok (ls, bits) := by
  obtain ⟨⟨tree, bits⟩, hread, -⟩ := bind_eq_ok.mp h
  rw [readSymbolTable_eq] at hread
  obtain ⟨⟨ls, bits'⟩, hstored, -⟩ := bind_eq_ok.mp hread
  exact ⟨ls, bits', hstored⟩

/-- **What `decodeHuffman` accepts**, and what it returns, whatever the table. -/
theorem decodeHuffman_eq_ok_iff {payload : List UInt8} {originalSize : Nat} {out : List UInt8} :
    decodeHuffman payload originalSize = .ok out ↔
      ∃ ls bits ws rest, storedLengths payload = .ok (ls, bits) ∧
        List.Forall₂ (fun b w => Spells ls w b.toNat) out ws ∧
        bytesBits bits = ws.flatten ++ rest ∧ out.length = originalSize := by
  rw [decodeHuffman, map_eq_ok]
  constructor
  · rintro ⟨⟨out', r⟩, hstream, rfl⟩
    obtain ⟨ls, bits, hstored⟩ := exists_stored_of_decodeHuffman hstream
    obtain ⟨ws, hws⟩ := (decodeHuffmanStream_stored hstored).mp ⟨r, hstream, rfl⟩
    exact ⟨ls, bits, ws, _, hstored, hws⟩
  · rintro ⟨ls, bits, ws, rest, hstored, hws⟩
    obtain ⟨r, hstream, -⟩ := (decodeHuffmanStream_stored hstored).mpr ⟨ws, hws⟩
    exact ⟨_, hstream, rfl⟩

end Compressly.Block

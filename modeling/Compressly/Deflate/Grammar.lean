/-
# `Compressly.Deflate.Grammar` — what the combined decoder accepts

    stream  =  item*
    item    =  code(byte)                              a literal
            |  code(257 + i) extra  code'(j) extra'    a copy

with the extra bits of the code table, `i` and `j` being any of its rows.  A
payload is accepted if and only if its header passes the checks and its bits
begin with such a stream, of items within the window that find their source and
that replay to as many bytes as declared; what is returned is the replay
(`decode_bytes_eq_ok_iff`).

That holds for any tables: in one that is no prefix code, the code of a symbol
is what its walk spells (`Spells`), if it has one.  Where the tables satisfy the
Kraft inequality, these are the canonical codes (`spells_iff_isCode`).
-/
import Compressly.Deflate.Decode
import Compressly.Huffman.Decodable
import Compressly.Lib.ReplayLoop

namespace Compressly.Deflate

open Bits Kraft Parse Loop Huffman LZ77 Replay

/-- The bits of an item, by the codes of the two alphabets. -/
inductive ItemBits (litLen dist : List Bool → Nat → Prop) : Item UInt8 → List Bool → Prop
  | lit {b : UInt8} {w : List Bool} : litLen w b.toNat → ItemBits litLen dist (.lit b) w
  | copy {i j x y : Nat} {w v : List Bool} : i < kLengthBase.length → j < kDistBase.length →
      litLen w (kFirstLengthSymbol + i) → x < 2 ^ kLengthExtra.getD i 0 →
      dist v j → y < 2 ^ kDistExtra.getD j 0 →
      ItemBits litLen dist (.copy (kDistBase.getD j 0 + y) (kLengthBase.getD i 0 + x))
        (w ++ natBits (kLengthExtra.getD i 0) x ++ (v ++ natBits (kDistExtra.getD j 0) y))

/-- The items within a window. -/
def Within (windowSize : Nat) : Item UInt8 → Prop
  | .lit _ => True
  | .copy distance _ => distance ≤ windowSize

/-! ## One item -/

theorem lengthOf_eq_ok_iff {i length : Nat} (hi : i < kLengthBase.length) {bs rest : List Bool} :
    lengthOf (kFirstLengthSymbol + i) bs = .ok (length, rest) ↔
      ∃ x, x < 2 ^ kLengthExtra.getD i 0 ∧ length = kLengthBase.getD i 0 + x ∧
        bs = natBits (kLengthExtra.getD i 0) x ++ rest := by
  have h32 : kLengthExtra.getD i 0 ≤ 32 := (lengthExtra_le i).trans (by decide)
  simp only [lengthOf, lengthBase_row hi, lengthExtraBits_row hi, bind_ok]
  constructor
  · intro h
    obtain ⟨⟨x, rest'⟩, hnum, h⟩ := bind_eq_ok.mp h
    cases h
    obtain ⟨hx, rfl⟩ := (number_eq_ok_iff h32).mp hnum
    exact ⟨x, hx, rfl, rfl⟩
  · rintro ⟨x, hx, rfl, rfl⟩
    rw [(number_eq_ok_iff h32).mpr ⟨hx, rfl⟩]
    rfl

section Tables
variable {h : Header} {litLens dists : LengthTable}

theorem distanceOf_eq_ok_iff (hlen : dists.length = kDistAlphabetSize)
    (ht : Trie h.distTree.nodes (entriesOf dists)) {distance : Nat} {bs rest : List Bool} :
    distanceOf h bs = .ok (distance, rest) ↔ ∃ j v y, j < kDistBase.length ∧ Spells dists v j ∧
      y < 2 ^ kDistExtra.getD j 0 ∧ distance = kDistBase.getD j 0 + y ∧
      bs = v ++ natBits (kDistExtra.getD j 0) y ++ rest := by
  have hcode : ∀ {j : Nat}, j < kDistBase.length → ∀ {bs : List Bool},
      distanceOfCode j bs = .ok (distance, rest) ↔ ∃ y, y < 2 ^ kDistExtra.getD j 0 ∧
        distance = kDistBase.getD j 0 + y ∧ bs = natBits (kDistExtra.getD j 0) y ++ rest := by
    intro j hj bs
    have hlt : ¬ kDistAlphabetSize ≤ j := Nat.not_le.mpr hj
    have h32 : kDistExtra.getD j 0 ≤ 32 := (distExtra_le j).trans (by decide)
    simp only [distanceOfCode, if_neg hlt, distanceBase_row hj, distanceExtraBits_row hj, bind_ok]
    constructor
    · intro h
      obtain ⟨⟨y, rest'⟩, hnum, h⟩ := bind_eq_ok.mp h
      cases h
      obtain ⟨hy, rfl⟩ := (number_eq_ok_iff h32).mp hnum
      exact ⟨y, hy, rfl, rfl⟩
    · rintro ⟨y, hy, rfl, rfl⟩
      rw [(number_eq_ok_iff h32).mpr ⟨hy, rfl⟩]
      rfl
  constructor
  · intro hdist
    obtain ⟨⟨j, bs'⟩, hsym, hof⟩ := bind_eq_ok.mp hdist
    obtain ⟨v, hv, rfl⟩ := (symbol_eq_ok_iff ht).mp hsym
    have hj : j < kDistBase.length := (lt_length_of_getD hv.coded).trans_eq hlen
    obtain ⟨y, hy, rfl, rfl⟩ := (hcode hj).mp hof
    exact ⟨j, v, y, hj, hv, hy, rfl, (List.append_assoc _ _ _).symm⟩
  · rintro ⟨j, v, y, hj, hv, hy, rfl, rfl⟩
    rw [distanceOf, (symbol_eq_ok_iff ht).mpr ⟨v, hv, List.append_assoc _ _ _⟩, bind_ok]
    exact (hcode hj).mpr ⟨y, hy, rfl, rfl⟩

/-- What follows the symbol of a copy. -/
theorem matchOf_eq_ok_iff (hlen : dists.length = kDistAlphabetSize)
    (ht : Trie h.distTree.nodes (entriesOf dists)) {i : Nat} (hi : i < kLengthBase.length)
    {originalSize : Nat} {out out' : List UInt8} {bs rest : List Bool} :
    matchOf h originalSize out (kFirstLengthSymbol + i) bs = .ok (out', rest) ↔
      ∃ x j v y, x < 2 ^ kLengthExtra.getD i 0 ∧ j < kDistBase.length ∧ Spells dists v j ∧
        y < 2 ^ kDistExtra.getD j 0 ∧
        bs = natBits (kLengthExtra.getD i 0) x ++ (v ++ natBits (kDistExtra.getD j 0) y ++ rest) ∧
        kDistBase.getD j 0 + y ≤ out.length ∧ kDistBase.getD j 0 + y ≤ h.windowSize ∧
        out.length + (kLengthBase.getD i 0 + x) ≤ originalSize ∧
        out' = copy (kDistBase.getD j 0 + y) (kLengthBase.getD i 0 + x) out := by
  constructor
  · intro hmatch
    obtain ⟨⟨length, bs₁⟩, hlength, hmatch⟩ := bind_eq_ok.mp hmatch
    obtain ⟨⟨distance, bs₂⟩, hdistance, hmatch⟩ := bind_eq_ok.mp hmatch
    obtain ⟨out₁, hcopy, hmatch⟩ := bind_eq_ok.mp hmatch
    cases hmatch
    obtain ⟨x, hx, rfl, rfl⟩ := (lengthOf_eq_ok_iff hi).mp hlength
    obtain ⟨j, v, y, hj, hv, hy, rfl, rfl⟩ := (distanceOf_eq_ok_iff hlen ht).mp hdistance
    exact ⟨x, j, v, y, hx, hj, hv, hy, rfl, (copyBack_eq_ok_iff (dist_pos hj y)).mp hcopy⟩
  · rintro ⟨x, j, v, y, hx, hj, hv, hy, rfl, hcopy⟩
    rw [matchOf, (lengthOf_eq_ok_iff hi).mpr ⟨x, hx, rfl, rfl⟩, bind_ok]
    simp only [(distanceOf_eq_ok_iff hlen ht).mpr ⟨j, v, y, hj, hv, hy, rfl, rfl⟩, bind_ok,
      (copyBack_eq_ok_iff (dist_pos hj y)).mpr hcopy]
    rfl

/-- An item, spelled by the tables of the header and within its window. -/
def Spelled (h : Header) (litLens dists : LengthTable) (i : Item UInt8) (w : List Bool) : Prop :=
  ItemBits (Spells litLens) (Spells dists) i w ∧ Within h.windowSize i

theorem length_pos {i : Nat} (hi : i < kLengthBase.length) (x : Nat) :
    0 < kLengthBase.getD i 0 + x := by
  have hall : ∀ b ∈ kLengthBase, 0 < b := by decide
  have hpos := hall _ (List.getElem_mem hi)
  rw [List.getD_eq_getElem _ _ hi]
  exact Nat.add_pos_left hpos x

theorem ItemBits.span_pos {litLen dist : List Bool → Nat → Prop} {i : Item UInt8} {w : List Bool}
    (h : ItemBits litLen dist i w) : 0 < i.span := by
  cases h with
  | lit => exact Nat.one_pos
  | @copy i j x y w v hi => exact length_pos hi x

theorem readsItems_token (hlit : litLens.length = kLitLenAlphabetSize)
    (hdist : dists.length = kDistAlphabetSize) (ht : Trie h.litLenTree.nodes (entriesOf litLens))
    (ht' : Trie h.distTree.nodes (entriesOf dists)) (originalSize : Nat) :
    ReadsItems id (Plain (Spelled h litLens dists)) originalSize (token h originalSize) where
  plays := by
    rintro out out' i w ⟨hw, rfl⟩
    exact ⟨rfl, hw.1.span_pos⟩
  round_iff := by
    intro out out' bs rest hout
    constructor
    · intro htoken
      obtain ⟨⟨s, bs'⟩, hsym, hrest⟩ := bind_eq_ok.mp htoken
      obtain ⟨w, hw, rfl⟩ := (symbol_eq_ok_iff ht).mp hsym
      have hs : s < kLitLenAlphabetSize := (lt_length_of_getD hw.coded).trans_eq hlit
      unfold restOf at hrest
      by_cases hbyte : s < 256
      · have hb : (UInt8.ofNat s).toNat = s := UInt8.toNat_ofNat_of_lt' hbyte
        rw [← hb] at hw
        simp only [if_pos hbyte] at hrest
        cases hrest
        exact ⟨.lit (UInt8.ofNat s), w, ⟨⟨.lit hw, trivial⟩, rfl⟩, rfl, trivial, hout⟩
      · by_cases heob : s = kEndOfBlockSymbol
        · simp only [if_neg hbyte, if_pos heob] at hrest
          cases hrest
        · have h256 : 256 < s := Nat.lt_of_le_of_ne (Nat.le_of_not_lt hbyte) (Ne.symm heob)
          obtain ⟨i, hi, rfl⟩ := exists_row h256 hs
          simp only [if_neg hbyte, if_neg heob, if_neg (Nat.not_le.mpr hs)] at hrest
          obtain ⟨x, j, v, y, hx, hj, hv, hy, rfl, hreach, hwindow, hsize, rfl⟩ :=
            (matchOf_eq_ok_iff hdist ht' hi).mp hrest
          refine ⟨_, _, ⟨⟨.copy hi hj hw hx hv hy, hwindow⟩, rfl⟩, ?_, ⟨dist_pos hj y, hreach⟩, hsize⟩
          simp only [List.append_assoc]
    · rintro ⟨i, w, ⟨⟨hw, hwithin⟩, rfl⟩, rfl, hreach, hsize⟩
      cases hw with
      | @lit b w hw =>
          rw [token, (symbol_eq_ok_iff ht).mpr ⟨w, hw, rfl⟩, bind_ok]
          simp only [restOf, if_pos b.toNat_lt, UInt8.ofNat_toNat]
          rfl
      | @copy i j x y w v hi hj hw hx hv hy =>
          have hbyte : ¬ kFirstLengthSymbol + i < 256 := by
            simp only [kFirstLengthSymbol]
            omega
          have heob : ¬ kFirstLengthSymbol + i = kEndOfBlockSymbol := by
            simp only [kFirstLengthSymbol, kEndOfBlockSymbol]
            omega
          have hs : ¬ kLitLenAlphabetSize ≤ kFirstLengthSymbol + i :=
            Nat.not_le.mpr ((lt_length_of_getD hw.coded).trans_eq hlit)
          rw [List.append_assoc, List.append_assoc, token, (symbol_eq_ok_iff ht).mpr ⟨w, hw, rfl⟩,
            bind_ok]
          simp only [restOf, if_neg hbyte, if_neg heob, if_neg hs]
          exact (matchOf_eq_ok_iff hdist ht' hi).mpr
            ⟨x, j, v, y, hx, hj, hv, hy, rfl, hreach.2, hwithin, hsize, rfl⟩

end Tables

/-! ## The decoder -/

/-- The tables of a header, as the decoder fills them. -/
def Parts.litLenLengths (q : Parts) : LengthTable := padded kLitLenAlphabetSize q.litLen

def Parts.distLengths (q : Parts) : LengthTable := padded kDistAlphabetSize q.dist

theorem Parts.Ok.litLen_covered {q : Parts} (hq : q.Ok) : Covered q.litLenLengths :=
  covered_of_lt ((length_padded hq.litLen.2).trans_lt (by decide))

theorem Parts.Ok.dist_covered {q : Parts} (hq : q.Ok) : Covered q.distLengths :=
  covered_of_lt ((length_padded hq.dist).trans_lt (by decide))

/-- An item of a payload with header `q`. -/
def Parts.Spelled (q : Parts) (i : Item UInt8) (w : List Bool) : Prop :=
  ItemBits (Spells q.litLenLengths) (Spells q.distLengths) i w ∧ Within (2 ^ q.windowBits.toNat) i

/-- The decoder and the bits it leaves, on a payload with a legal header. -/
theorem decodeStream_bytes {q : Parts} (hq : q.Ok) {bits : List UInt8} {originalSize : Nat}
    {out : List UInt8} {rest : List Bool} :
    (∃ r, decodeStream (q.bytes ++ bits) originalSize = .ok (out, r) ∧ r.bits = rest) ↔
      ∃ items ws, List.Forall₂ q.Spelled items ws ∧ bytesBits bits = ws.flatten ++ rest ∧
        ReplaysTo items originalSize out := by
  obtain ⟨litLenTree, distTree, hlit, hdist, hread⟩ := readHeader_bytes hq bits
  obtain ⟨litLenTree', hlit', ht⟩ := build_padded (by decide) hq.litLen.2 hq.litLen_le
  obtain ⟨distTree', hdist', ht'⟩ := build_padded (by decide) hq.dist hq.dist_le
  rw [hlit] at hlit'
  rw [hdist] at hdist'
  cases hlit'
  cases hdist'
  have hreads := readsItems_token
    (h := ⟨2 ^ q.windowBits.toNat, litLenTree, distTree, bits⟩)
    (length_padded hq.litLen.2) (length_padded hq.dist) ht ht' originalSize
  have hstart : BitReader.bits { data := bits } = bytesBits bits := rfl
  constructor
  · rintro ⟨r, hstream, rfl⟩
    rw [decodeStream, hread, bind_ok] at hstream
    have hrun := loop_run (reads_decodeToken _ originalSize) hstream
    rw [hstart] at hrun
    exact hreads.run_plain.mp hrun
  · intro hitems
    obtain ⟨r, hloop, hrest⟩ := loop_of_run
      (b := body ⟨2 ^ q.windowBits.toNat, litLenTree, distTree, bits⟩ originalSize)
      (reads_decodeToken _ originalSize) (hreads.run_plain.mpr hitems) hstart
    refine ⟨r, ?_, hrest⟩
    rw [decodeStream, hread, bind_ok]
    exact hloop

/-- **What `decode` accepts**, and what it returns, whatever the tables. -/
theorem decode_bytes_eq_ok_iff {q : Parts} (hq : q.Ok) {bits : List UInt8} {originalSize : Nat}
    {out : List UInt8} :
    decode (q.bytes ++ bits) originalSize = .ok out ↔
      ∃ items ws rest, List.Forall₂ q.Spelled items ws ∧ bytesBits bits = ws.flatten ++ rest ∧
        ReplaysTo items originalSize out := by
  rw [decode, map_eq_ok]
  constructor
  · rintro ⟨⟨out', r⟩, hstream, rfl⟩
    obtain ⟨items, ws, hitems⟩ := (decodeStream_bytes hq).mp ⟨r, hstream, rfl⟩
    exact ⟨items, ws, _, hitems⟩
  · rintro ⟨items, ws, rest, hitems⟩
    obtain ⟨r, hstream, -⟩ := (decodeStream_bytes hq).mpr ⟨items, ws, hitems⟩
    exact ⟨_, hstream, rfl⟩

/-- Every accepted payload has a header that passes the checks. -/
theorem exists_parts_of_decode {payload : List UInt8} {originalSize : Nat} {out : List UInt8}
    (h : decode payload originalSize = .ok out) :
    ∃ (q : Parts) (bits : List UInt8), q.Ok ∧ payload = q.bytes ++ bits := by
  obtain ⟨⟨out', r⟩, hstream, -⟩ := map_eq_ok.mp h
  obtain ⟨hd, hread, -⟩ := bind_eq_ok.mp hstream
  have hdec := readHeader_decodes payload
  rw [hread] at hdec
  obtain ⟨q, hq, hpayload⟩ := hdec
  exact ⟨q, _, hq, hpayload⟩

/-! ## Canonical codes -/

/-- `w` is the code of symbol `s`. -/
def IsCode (codes : CodeTable) (w : List Bool) (s : Nat) : Prop :=
  ∃ c, codes[s]? = some c ∧ c.length ≠ 0 ∧ w = c.word

/-- In a table that satisfies the Kraft inequality, a walk spells the canonical codes. -/
theorem spells_iff_isCode {ls : LengthTable} (hls : PrefixTable ls) {w : List Bool} {s : Nat} :
    Spells ls w s ↔ IsCode (codeTable ls) w s := by
  rw [spells_iff hls, ← word_codeOf hls s, ← codeOf_length ls s]
  constructor
  · rintro ⟨hs, rfl⟩
    rw [codeOf_length] at hs
    exact ⟨codeOf ls s, getElem?_codeTable.mpr ⟨lt_length_of_getD hs, rfl⟩,
      (codeOf_length ls s).symm ▸ hs, rfl⟩
  · rintro ⟨c, hc, hlen, rfl⟩
    obtain ⟨-, rfl⟩ := getElem?_codeTable.mp hc
    exact ⟨hlen, rfl⟩

theorem ItemBits.congr {litLen dist litLen' dist' : List Bool → Nat → Prop}
    (hlit : ∀ w s, litLen w s → litLen' w s) (hdist : ∀ w s, dist w s → dist' w s)
    {i : Item UInt8} {w : List Bool} (h : ItemBits litLen dist i w) : ItemBits litLen' dist' i w := by
  cases h with
  | lit hw => exact .lit (hlit _ _ hw)
  | copy hi hj hw hx hv hy => exact .copy hi hj (hlit _ _ hw) hx (hdist _ _ hv) hy

/-- The items the combined format has codes for. -/
def Legal (windowSize : Nat) : Item UInt8 → Prop
  | .lit _ => True
  | .copy distance length => (1 ≤ distance ∧ distance ≤ windowSize) ∧ 3 ≤ length ∧ length ≤ 258

theorem ItemBits.legal {litLen dist : List Bool → Nat → Prop} {i : Item UInt8} {w : List Bool}
    (h : ItemBits litLen dist i w) {windowSize : Nat} (hwithin : Within windowSize i) :
    Legal windowSize i := by
  cases h with
  | lit => trivial
  | @copy i j x y w v hi hj hw hx hv hy =>
      exact ⟨⟨dist_pos hj y, hwithin⟩, length_range hi hx⟩

theorem Legal.within {windowSize : Nat} {i : Item UInt8} (h : Legal windowSize i) :
    Within windowSize i := by
  cases i with
  | lit b => trivial
  | copy distance length => exact h.1.2

theorem spelled_iff {q : Parts} (hlit : PrefixTable q.litLenLengths)
    (hdist : PrefixTable q.distLengths) {i : Item UInt8} {w : List Bool} :
    q.Spelled i w ↔ Legal (2 ^ q.windowBits.toNat) i ∧
      ItemBits (IsCode (codeTable q.litLenLengths)) (IsCode (codeTable q.distLengths)) i w := by
  constructor
  · rintro ⟨hw, hwithin⟩
    exact ⟨hw.legal hwithin, hw.congr (fun _ _ => (spells_iff_isCode hlit).mp)
      fun _ _ => (spells_iff_isCode hdist).mp⟩
  · rintro ⟨hlegal, hw⟩
    exact ⟨hw.congr (fun _ _ => (spells_iff_isCode hlit).mpr)
      fun _ _ => (spells_iff_isCode hdist).mpr, hlegal.within⟩

/-- Where the tables satisfy the Kraft inequality, the bits are canonical codes and extra bits. -/
theorem decode_canonical_iff {q : Parts} (hq : q.Ok) (hlit : PrefixTable q.litLenLengths)
    (hdist : PrefixTable q.distLengths) {bits : List UInt8} {originalSize : Nat} {out : List UInt8} :
    decode (q.bytes ++ bits) originalSize = .ok out ↔
      ∃ items ws rest, (∀ i ∈ items, Legal (2 ^ q.windowBits.toNat) i) ∧
        List.Forall₂ (ItemBits (IsCode (codeTable q.litLenLengths)) (IsCode (codeTable q.distLengths)))
          items ws ∧
        bytesBits bits = ws.flatten ++ rest ∧ ReplaysTo items originalSize out := by
  have hspelled : q.Spelled = fun i w => Legal (2 ^ q.windowBits.toNat) i ∧
      ItemBits (IsCode (codeTable q.litLenLengths)) (IsCode (codeTable q.distLengths)) i w := by
    funext i w
    exact propext (spelled_iff hlit hdist)
  rw [decode_bytes_eq_ok_iff hq, hspelled]
  simp only [List.forall₂_and_left, and_assoc]

end Compressly.Deflate

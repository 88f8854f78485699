/-
# `Compressly.Block.PrefixCodes` — which code tables the decoders take

Both entropy decoders check each transmitted length on its own, never the Kraft
sum of a table.  So a payload with an over-subscribed table is accepted if its
bits spell the declared size, and that condition is exact
(`prefixCodesOnly_iff`).  The order-0 decoder can then fail only by running out
of bits: in an over-subscribed table every path of 15 bits passes a leaf
(`exists_spells`), so 15 bits for each byte are always enough
(`decodeHuffman_of_full`).
-/
import Compressly.Block.HuffmanGrammar
import Compressly.Deflate.Grammar

namespace Compressly.Block

open Bits Kraft Parse Huffman Replay Deflate

/-- The outcome `r` of a decoder that takes prefix codes only, on a payload with these tables. -/
structure PrefixCodesOnly (tables : List LengthTable) (r : Result (List UInt8)) : Prop where
  accepted : ∀ out, r = .ok out → ∀ ls ∈ tables, PrefixTable ls
  rejected : ∀ ls ∈ tables, ¬ PrefixTable ls → ∃ what, r = .error (.corruptInput what)
  /-- No two symbols share a path of the trie. -/
  apart : ∀ out, r = .ok out → ∀ ls ∈ tables, ∃ codes, buildCanonicalCodes ls = .ok codes ∧
    ∀ (s t : Nat) (c d : Code), codes[s]? = some c → codes[t]? = some d →
      c.length ≠ 0 → d.length ≠ 0 → c.word <+: d.word → s = t

theorem PrefixTable.codes_apart {ls : LengthTable} (hls : PrefixTable ls) (hc : Covered ls) :
    ∃ codes, buildCanonicalCodes ls = .ok codes ∧
      ∀ (s t : Nat) (c d : Code), codes[s]? = some c → codes[t]? = some d →
        c.length ≠ 0 → d.length ≠ 0 → c.word <+: d.word → s = t := by
  refine ⟨_, buildCanonicalCodes_eq hls.le_max hc, ?_⟩
  intro s t c d hc hd hc0 hd0 hpre
  obtain ⟨-, rfl⟩ := getElem?_codeTable.mp hc
  obtain ⟨-, rfl⟩ := getElem?_codeTable.mp hd
  rw [codeOf_length] at hc0 hd0
  rw [word_codeOf hls, word_codeOf hls] at hpre
  exact hls.prefixFree hc0 hd0 hpre

/-- A decoder that throws nothing but `CorruptInput` takes prefix codes only unless it accepts
another table. -/
theorem prefixCodesOnly_of_decodes {tables : List LengthTable} {r : Result (List UInt8)}
    {P : List UInt8 → Prop} (hdec : Decodes r P) (hc : ∀ ls ∈ tables, Covered ls) :
    PrefixCodesOnly tables r ↔ (∀ ls ∈ tables, PrefixTable ls) ∨ ¬ ∃ out, r = .ok out := by
  constructor
  · intro h
    by_cases hok : ∃ out, r = .ok out
    · obtain ⟨out, hout⟩ := hok
      exact Or.inl (h.accepted out hout)
    · exact Or.inr hok
  · intro h
    refine ⟨fun out hout ls hls => ?_, fun ls hls hbad => ?_, fun out hout ls hls => ?_⟩
    · rcases h with hall | hnone
      · exact hall ls hls
      · exact absurd ⟨out, hout⟩ hnone
    · rcases h with hall | hnone
      · exact absurd (hall ls hls) hbad
      · rcases hdec.cases with ⟨out, hout, -⟩ | hcorrupt
        · exact absurd ⟨out, hout⟩ hnone
        · exact hcorrupt
    · rcases h with hall | hnone
      · exact PrefixTable.codes_apart (hall ls hls) (hc ls hls)
      · exact absurd ⟨out, hout⟩ hnone

/-- The bits begin with `n` codes of the table, each the shortest one on its path. -/
def BeginsWithCodes (ls : LengthTable) (n : Nat) (bits : List UInt8) : Prop :=
  ∃ ws : List (List Bool), ws.length = n ∧ (∀ w ∈ ws, ∃ s, Spells ls w s) ∧
    ws.flatten <+: bytesBits bits

/-- The bits begin with items that find their sources and span `n` bytes. -/
def BeginsWithItems (q : Parts) (n : Nat) (bits : List UInt8) : Prop :=
  ∃ items ws, List.Forall₂ q.Spelled items ws ∧ ws.flatten <+: bytesBits bits ∧
    Backed 0 items ∧ (items.map Item.span).sum = n

theorem exists_of_forall₂_right {α β : Type} {R : α → β → Prop} {as : List α} {bs : List β}
    (h : List.Forall₂ R as bs) {b : β} (hb : b ∈ bs) : ∃ a ∈ as, R a b := by
  induction h with
  | nil => cases hb
  | cons hab _ ih =>
      rcases List.mem_cons.mp hb with rfl | hmem
      · exact ⟨_, List.mem_cons_self, hab⟩
      · obtain ⟨a, ha, hr⟩ := ih hmem
        exact ⟨a, List.mem_cons_of_mem _ ha, hr⟩

/-- Codes of a table of bytes are the codes of some bytes. -/
theorem exists_bytes_of_spells {ls : LengthTable} (hlen : ls.length = kByteAlphabetSize)
    {ws : List (List Bool)} (hws : ∀ w ∈ ws, ∃ s, Spells ls w s) :
    ∃ out : List UInt8, List.Forall₂ (fun b w => Spells ls w b.toNat) out ws := by
  induction ws with
  | nil => exact ⟨[], .nil⟩
  | cons w ws ih =>
      obtain ⟨out, hout⟩ := ih fun v hv => hws v (List.mem_cons_of_mem _ hv)
      obtain ⟨s, hs⟩ := hws w List.mem_cons_self
      have hb : (UInt8.ofNat s).toNat = s :=
        UInt8.toNat_ofNat_of_lt' ((lt_length_of_getD hs.coded).trans_eq hlen)
      exact ⟨UInt8.ofNat s :: out, .cons (hb.symm ▸ hs) hout⟩

theorem decodeHuffman_accepts_iff {payload : List UInt8} {ls : LengthTable} {bits : List UInt8}
    (hstored : storedLengths payload = .ok (ls, bits)) {originalSize : Nat} :
    (∃ out, decodeHuffman payload originalSize = .ok out) ↔
      BeginsWithCodes ls originalSize bits := by
  have hlen : ls.length = kByteAlphabetSize := by
    have hdec := storedLengths_decodes payload
    rw [hstored] at hdec
    exact hdec.1
  constructor
  · rintro ⟨out, hout⟩
    obtain ⟨ls', bits', ws, rest, hstored', hws, hbits, hsize⟩ := decodeHuffman_eq_ok_iff.mp hout
    rw [hstored] at hstored'
    cases hstored'
    refine ⟨ws, hws.length_eq.symm.trans hsize, fun w hw => ?_, ⟨rest, hbits.symm⟩⟩
    obtain ⟨b, -, hb⟩ := exists_of_forall₂_right hws hw
    exact ⟨b.toNat, hb⟩
  · rintro ⟨ws, hsize, hws, rest, hbits⟩
    obtain ⟨out, hout⟩ := exists_bytes_of_spells hlen hws
    exact ⟨out, decodeHuffman_eq_ok_iff.mpr
      ⟨ls, bits, ws, rest, hstored, hout, hbits.symm, hout.length_eq.trans hsize⟩⟩

theorem decode_accepts_iff {q : Parts} (hq : q.Ok) {bits : List UInt8} {originalSize : Nat} :
    (∃ out, decode (q.bytes ++ bits) originalSize = .ok out) ↔
      BeginsWithItems q originalSize bits := by
  constructor
  · rintro ⟨out, hout⟩
    obtain ⟨items, ws, rest, hws, hbits, hreplay⟩ := (decode_bytes_eq_ok_iff hq).mp hout
    exact ⟨items, ws, hws, ⟨rest, hbits.symm⟩, hreplay.backed, hreplay.sum_span⟩
  · rintro ⟨items, ws, hws, ⟨rest, hbits⟩, hback, hsum⟩
    exact ⟨replay [] items, (decode_bytes_eq_ok_iff hq).mpr
      ⟨items, ws, rest, hws, hbits.symm, hback, rfl, hback.length_replay.trans hsum⟩⟩

/-- **Where the decoders take prefix codes only.**  On a payload with other tables, exactly if the
bits behind them do not spell the declared size. -/
theorem prefixCodesOnly_iff (payload : List UInt8) (originalSize : Nat) :
    (∀ ls bits, storedLengths payload = .ok (ls, bits) →
      (PrefixCodesOnly [ls] (decodeHuffman payload originalSize) ↔
        PrefixTable ls ∨ ¬ BeginsWithCodes ls originalSize bits)) ∧
    (∀ (q : Parts) (bits : List UInt8), q.Ok → payload = q.bytes ++ bits →
      (PrefixCodesOnly [q.litLenLengths, q.distLengths] (decode payload originalSize) ↔
        (PrefixTable q.litLenLengths ∧ PrefixTable q.distLengths) ∨
          ¬ BeginsWithItems q originalSize bits)) ∧
    -- an accepted payload has such tables
    (∀ out, decodeHuffman payload originalSize = .ok out →
      ∃ ls bits, storedLengths payload = .ok (ls, bits)) ∧
    ∀ out, decode payload originalSize = .ok out →
      ∃ (q : Parts) (bits : List UInt8), q.Ok ∧ payload = q.bytes ++ bits := by
  refine ⟨fun ls bits hstored => ?_, ?_, fun out hout => ?_, fun out => exists_parts_of_decode⟩
  · have hdec := storedLengths_decodes payload
    rw [hstored] at hdec
    rw [prefixCodesOnly_of_decodes (decodeHuffman_decodes payload originalSize)
        (List.forall_mem_singleton.mpr (covered_bytes hdec.1)),
      decodeHuffman_accepts_iff hstored, List.forall_mem_singleton]
  · rintro q bits hq rfl
    have hcovered : ∀ ls ∈ [q.litLenLengths, q.distLengths], Covered ls :=
      List.forall_mem_cons.mpr ⟨hq.litLen_covered, List.forall_mem_singleton.mpr hq.dist_covered⟩
    rw [prefixCodesOnly_of_decodes (decode_decodes _ originalSize) hcovered,
      decode_accepts_iff hq, List.forall_mem_cons, List.forall_mem_singleton]
  · obtain ⟨ls, bits, -, -, hstored, -⟩ := decodeHuffman_eq_ok_iff.mp hout
    exact ⟨ls, bits, hstored⟩

/-- Three codes of one bit each. -/
def threeOfOne : LengthTable :=
  List.replicate 65 0 ++ [1, 1, 1] ++ List.replicate 188 0

/-- The order-0 decoder takes them; the last code overflows onto the path of the first. -/
theorem accepts_threeOfOne :
    storedLengths [2, 65, 1, 66, 1, 67, 1, 0] = .ok (threeOfOne, [0]) ∧
      decodeHuffman [2, 65, 1, 66, 1, 67, 1, 0] 1 = .ok [67] ∧ ¬ PrefixTable threeOfOne := by
  have hstored : storedLengths [2, 65, 1, 66, 1, 67, 1, 0] = .ok (threeOfOne, [0]) := by
    decide +kernel
  have hcoded : ∀ t, threeOfOne.getD t 0 ≠ 0 → t ≤ 67 ∧ (codeWord threeOfOne t).length = 1 := by
    have hall : ∀ t < threeOfOne.length, threeOfOne.getD t 0 ≠ 0 →
        t ≤ 67 ∧ threeOfOne.getD t 0 = 1 := by decide +kernel
    intro t ht
    rw [codeWord, length_natBits]
    exact hall t (lt_length_of_getD ht) ht
  have hspells : Spells threeOfOne [false] (67 : UInt8).toNat := by
    refine ⟨by decide +kernel, by decide +kernel, fun t ht _ => (hcoded t ht).1, fun t ht htw => ?_⟩
    exact htw.eq_of_length (hcoded t ht).2
  refine ⟨hstored, decodeHuffman_eq_ok_iff.mpr ⟨threeOfOne, [0], [[false]], List.replicate 7 false,
    hstored, .cons hspells .nil, by decide, rfl⟩, fun h => ?_⟩
  exact absurd h.kraft_le (by decide +kernel)

/-! ## Over-subscribed tables -/

/-- In a table that takes all the space or more, every path of 15 bits passes a leaf. -/
theorem exists_spells {ls : LengthTable} (hle : ∀ l ∈ ls, l ≤ kMaxCodeLength)
    (hfull : 2 ^ kMaxCodeLength ≤ kraft kMaxCodeLength (ls.filter (· ≠ 0))) {p : List Bool}
    (hp : p.length = kMaxCodeLength) : ∃ w s, Spells ls w s ∧ w <+: p := by
  -- the shortest code word on the path
  let onPath : Nat → Prop := fun l => ∃ s, ls.getD s 0 ≠ 0 ∧ codeWord ls s <+: p ∧ ls.getD s 0 = l
  have hex : ∃ l, onPath l := by
    obtain ⟨s, hs, hpre⟩ := exists_codeWord_prefix hle hfull hp
    exact ⟨_, s, hs, hpre, rfl⟩
  classical
  obtain ⟨s, hs, hpre, hlen⟩ := Nat.find_spec hex
  -- the last symbol that has it
  let sharing : Nat → Prop := fun t => ls.getD t 0 ≠ 0 ∧ codeWord ls t = codeWord ls s
  have hlast := Nat.findGreatest_spec (P := sharing) (lt_length_of_getD hs).le ⟨hs, rfl⟩
  refine ⟨codeWord ls s, Nat.findGreatest sharing ls.length,
    ⟨hlast.1, hlast.2.symm, fun t ht htw => ?_, fun t ht htw => ?_⟩, hpre⟩
  · exact Nat.le_findGreatest (lt_length_of_getD ht).le ⟨ht, htw⟩
  · have hmin := Nat.find_min' hex ⟨t, ht, htw.trans hpre, rfl⟩
    refine htw.eq_of_length_le ?_
    rw [codeWord, codeWord, length_natBits, length_natBits]
    exact hlen.trans_le hmin

/-- With such a table, 15 bits for each byte are enough. -/
theorem decodeHuffman_of_full {payload : List UInt8} {ls : LengthTable} {bits : List UInt8}
    (hstored : storedLengths payload = .ok (ls, bits))
    (hfull : 2 ^ kMaxCodeLength ≤ kraft kMaxCodeLength (ls.filter (· ≠ 0))) {originalSize : Nat}
    (henough : kMaxCodeLength * originalSize ≤ 8 * bits.length) :
    ∃ out, decodeHuffman payload originalSize = .ok out := by
  have hle : ∀ l ∈ ls, l ≤ kMaxCodeLength := by
    have hdec := storedLengths_decodes payload
    rw [hstored] at hdec
    exact hdec.2
  have hcodes : ∀ (n : Nat) (bs : List Bool), kMaxCodeLength * n ≤ bs.length →
      ∃ ws : List (List Bool), ws.length = n ∧ (∀ w ∈ ws, ∃ s, Spells ls w s) ∧
        ws.flatten <+: bs := by
    intro n
    induction n with
    | zero => exact fun bs _ => ⟨[], rfl, List.forall_mem_nil _, List.nil_prefix⟩
    | succ n ih =>
        intro bs hbs
        rw [Nat.mul_succ] at hbs
        obtain ⟨w, s, hw, hpre⟩ := exists_spells hle hfull
          (List.length_take_of_le ((Nat.le_add_left _ _).trans hbs))
        obtain ⟨rest, hrest⟩ := hpre.trans (List.take_prefix _ _)
        have hw15 : w.length ≤ kMaxCodeLength := hpre.length_le.trans (List.length_take_le _ _)
        have hlen : w.length + rest.length = bs.length := by rw [← hrest, List.length_append]
        obtain ⟨ws, hn, hall, hflat⟩ := ih rest (by omega)
        refine ⟨w :: ws, congrArg (· + 1) hn, ?_, ?_⟩
        · exact List.forall_mem_cons.mpr ⟨⟨s, hw⟩, hall⟩
        · rw [List.flatten_cons, ← hrest, List.prefix_append_right_inj]
          exact hflat
  refine (decodeHuffman_accepts_iff hstored).mpr (hcodes originalSize _ ?_)
  rw [length_bytesBits]
  exact henough

end Compressly.Block

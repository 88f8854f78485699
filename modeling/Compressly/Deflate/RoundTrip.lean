/-
# `Compressly.Deflate.RoundTrip` — decoding what was encoded

    padded_used         a trimmed table, stored as bytes, reads back as the table
    spelled_tokenBits   the bits of a token spell its item, in the grammar of the
                        decoder
    emit_decodes        so the payload decodes to the data, with only the padding
                        of the last byte left over

The predicted size is the size, as long as the bit count stays within its
64-bit word; below 2^59 bytes it does, because no token spends more than 16
bits on each byte it covers (`length_tokenBits_le`).
-/
import Compressly.Deflate.Grammar
import Compressly.Deflate.Encode

namespace Compressly.Deflate

open Bits Kraft Parse Loop Huffman LZ77 Replay

/-! ## The header reads back -/

theorem padded_used {ls : LengthTable} (hle : ∀ l ∈ ls, l ≤ kMaxCodeLength) :
    padded ls.length ((ls.take (usedLength ls)).map UInt8.ofNat) = ls := by
  obtain ⟨hused, hzero⟩ := usedLength_spec ls
  have hbytes : ((ls.take (usedLength ls)).map UInt8.ofNat).map UInt8.toNat
      = ls.take (usedLength ls) := by
    rw [List.map_map]
    refine List.map_congr_left (g := id) (fun l hl => ?_) |>.trans (List.map_id _)
    have hsmall := hle l (List.mem_of_mem_take hl)
    exact UInt8.toNat_ofNat_of_lt' (Nat.lt_of_le_of_lt hsmall (by decide))
  have hrest : ls.drop (usedLength ls) = List.replicate (ls.length - usedLength ls) 0 := by
    refine List.eq_replicate_iff.mpr ⟨List.length_drop, fun l hl => ?_⟩
    obtain ⟨i, hi, rfl⟩ := List.getElem_of_mem hl
    rw [List.length_drop] at hi
    have hz := hzero (usedLength ls + i) (Nat.le_add_right _ _)
    rw [List.getElem_drop]
    rwa [List.getD_eq_getElem _ _ (by omega)] at hz
  have hlen : ((ls.take (usedLength ls)).map UInt8.ofNat).length = usedLength ls := by
    rw [List.length_map, List.length_take, Nat.min_eq_left hused]
  rw [padded, hbytes, hlen, ← hrest, List.take_append_drop]

/-- The parts a plan writes. -/
def Plan.parts (p : Plan) (config : Config) : Parts where
  windowBits := UInt8.ofNat config.windowBits.toNat
  hlitLow := UInt8.ofNat (p.hlit % 2 ^ 16 &&& 0xFF)
  hlitHigh := UInt8.ofNat ((p.hlit % 2 ^ 16) >>> 8)
  hdist := UInt8.ofNat p.hdist
  litLen := (p.litLenLengths.take p.hlit).map UInt8.ofNat
  dist := (p.distLengths.take p.hdist).map UInt8.ofNat

theorem parts_bytes (p : Plan) (config : Config) : (p.parts config).bytes = p.header config := rfl

/-- The two bytes of a table size. -/
theorem hlit_bytes {n : Nat} (h : n < 2 ^ 16) :
    n = (UInt8.ofNat (n % 2 ^ 16 &&& 0xFF)).toNat
      + 256 * (UInt8.ofNat ((n % 2 ^ 16) >>> 8)).toNat := by
  have hand : n % 2 ^ 16 &&& 0xFF = n % 2 ^ 16 % 2 ^ 8 := Nat.and_two_pow_sub_one_eq_mod _ 8
  rw [hand, Nat.shiftRight_eq_div_pow, UInt8.toNat_ofNat', UInt8.toNat_ofNat', Nat.mod_eq_of_lt h]
  omega

/-- Code lengths fit a byte, and pass the decoder's check. -/
theorem stored_le {ls : LengthTable} (hle : ∀ l ∈ ls, l ≤ kMaxCodeLength) (count : Nat) :
    ∀ b ∈ (ls.take count).map UInt8.ofNat, b.toNat ≤ kMaxCodeLength := by
  intro b hb
  obtain ⟨l, hl, rfl⟩ := List.mem_map.mp hb
  rw [UInt8.toNat_ofNat']
  exact (Nat.mod_le _ _).trans (hle l (List.mem_of_mem_take hl))

section Planned
variable {data : List UInt8} {config : Config} {p : Plan} (hp : Planned data config p)
include hp

theorem hlit_le : p.hlit ≤ p.litLenLengths.length := hp.hlit ▸ (usedLength_spec _).1

theorem hdist_le : p.hdist ≤ p.distLengths.length := hp.hdist ▸ (usedLength_spec _).1

theorem length_litLenLengths : p.litLenLengths.length = kLitLenAlphabetSize :=
  hp.litLen.length.trans (length_histogram _ _)

theorem length_distLengths : p.distLengths.length = kDistAlphabetSize :=
  hp.dist.length.trans (length_histogram _ _)

/-- Every token has a code for its literal/length symbol. -/
theorem litLen_coded (hok : Accepts config) {t : Token} (ht : t ∈ p.tokens) :
    p.litLenLengths.getD (litLenSymbol t) 0 ≠ 0 := by
  have hcoded := coded_parse hok data t (hp.tokens ▸ ht)
  exact hp.litLen.of_mem (by decide) (List.mem_map_of_mem ht) (litLenSymbol_lt hcoded)

theorem dist_coded (hok : Accepts config) {t : Token} (ht : t ∈ p.tokens) :
    ∀ s ∈ distSymbols t, p.distLengths.getD s 0 ≠ 0 := by
  intro s hs
  have hcoded := coded_parse hok data t (hp.tokens ▸ ht)
  exact hp.dist.of_mem (by decide) (List.mem_flatMap.mpr ⟨t, ht, hs⟩) (distSymbols_lt hcoded s hs)

/-- On data, the literal/length table is not empty. -/
theorem hlit_pos (hok : Accepts config) (hdata : data ≠ []) : 1 ≤ p.hlit := by
  have hlt : 0 < data.length := List.length_pos_iff.mpr hdata
  have hparse : parse data config 0 ≠ [] := by
    rw [parse_of_lt hlt]
    exact List.cons_ne_nil _ _
  obtain ⟨t, ht⟩ := List.exists_mem_of_ne_nil _ hparse
  have hcode := litLen_coded hp hok (hp.tokens.symm ▸ ht)
  rw [hp.hlit]
  exact Nat.lt_of_le_of_lt (Nat.zero_le _) (lt_usedLength hcode)

theorem parts_ok (hok : Accepts config) (hdata : data ≠ []) : (p.parts config).Ok := by
  have hlit := hlit_le hp
  have hdist := hdist_le hp
  have hlit286 : p.hlit ≤ kLitLenAlphabetSize := length_litLenLengths hp ▸ hlit
  have hdist30 : p.hdist ≤ kDistAlphabetSize := length_distLengths hp ▸ hdist
  have hlenLit : ((p.litLenLengths.take p.hlit).map UInt8.ofNat).length = p.hlit := by
    rw [List.length_map, List.length_take, Nat.min_eq_left hlit]
  have hlenDist : ((p.distLengths.take p.hdist).map UInt8.ofNat).length = p.hdist := by
    rw [List.length_map, List.length_take, Nat.min_eq_left hdist]
  have hwin : (UInt8.ofNat config.windowBits.toNat).toNat = config.windowBits.toNat := by
    have := hok.windowBits
    exact UInt8.toNat_ofNat_of_lt' (by simp only [UInt8.size]; omega)
  have hbyte : (UInt8.ofNat p.hdist).toNat = p.hdist :=
    UInt8.toNat_ofNat_of_lt' (Nat.lt_of_le_of_lt hdist30 (by decide))
  refine
    { windowBits := ?_
      hlit := ?_
      litLen := ?_
      hdist := ?_
      dist := ?_
      litLen_le := stored_le hp.litLen.le_max p.hlit
      dist_le := stored_le hp.dist.le_max p.hdist }
  · have hlow := hok.valid.windowBits
    have hhigh := hok.windowBits
    simp only [Plan.parts, hwin, kMaxWindowBits]
    omega
  · simp only [Plan.parts, hlenLit]
    exact hlit_bytes (Nat.lt_of_le_of_lt hlit286 (by decide))
  · simp only [Plan.parts, hlenLit]
    exact ⟨hlit_pos hp hok hdata, hlit286⟩
  · simp only [Plan.parts, hlenDist, hbyte]
  · simp only [Plan.parts, hlenDist]
    exact hdist30

end Planned

/-! ## One token -/

/-- A token that can be written under the tables of a payload, and read back within its window. -/
structure Readable (q : Parts) (t : Token) : Prop where
  coded : Coded t
  litLen : q.litLenLengths.getD (litLenSymbol t) 0 ≠ 0
  dist : ∀ s ∈ distSymbols t, q.distLengths.getD s 0 ≠ 0
  window : t.isMatch → t.distance.toNat ≤ 2 ^ q.windowBits.toNat

/-- The bits of a token spell its item. -/
theorem spelled_tokenBits {q : Parts} (hlit : PrefixTable q.litLenLengths)
    (hdist : PrefixTable q.distLengths) {t : Token} (ht : Readable q t) :
    q.Spelled t.item (tokenBits q.litLenLengths q.distLengths t) := by
  have hcode : Spells q.litLenLengths (codeWord q.litLenLengths (litLenSymbol t)) (litLenSymbol t) :=
    (spells_iff hlit).mpr ⟨ht.litLen, rfl⟩
  unfold tokenBits
  by_cases hmatch : t.isMatch
  · obtain ⟨⟨h3, h258⟩, h1, h32768⟩ := ht.coded hmatch
    obtain ⟨hi, hlength, hx⟩ := lengthSplit_spec h3 h258
    obtain ⟨hj, hdistance, hy⟩ := distanceSplit_spec h1 h32768
    have hdcode : q.distLengths.getD (distanceSplit t.distance.toNat).symbol 0 ≠ 0 :=
      ht.dist _ (by rw [distSymbols, if_pos hmatch]; exact List.mem_singleton_self _)
    have hsymbol : litLenSymbol t = (lengthSplit t.length.toNat).symbol := if_pos hmatch
    rw [hsymbol] at hcode
    rw [if_pos hmatch, item_of_isMatch hmatch, hsymbol]
    refine ⟨?_, ht.window hmatch⟩
    have hcopy := ItemBits.copy hi hj hcode hx ((spells_iff hdist).mpr ⟨hdcode, rfl⟩) hy
    rw [hlength, hdistance] at hcopy
    exact hcopy
  · have hsymbol : litLenSymbol t = t.literal.toNat := if_neg hmatch
    rw [hsymbol] at hcode
    rw [if_neg hmatch, item_of_literal hmatch, hsymbol]
    exact ⟨.lit hcode, trivial⟩

/-! ## The bit budget -/

/-- No token spends more than 16 bits on each byte it covers: 15 on a literal, and
15 + 5 + 15 + 13 on a match of three bytes or more. -/
theorem length_tokenBits_le {lls dls : LengthTable} (hlit : PrefixTable lls)
    (hdist : PrefixTable dls) {t : Token} (ht : Coded t) :
    (tokenBits lls dls t).length ≤ 16 * t.item.span := by
  have hlitLen : lls.getD (litLenSymbol t) 0 ≤ 15 := hlit.getD_le _
  rw [length_tokenBits]
  unfold extraBitsOf distSymbols
  by_cases hmatch : t.isMatch
  · have hlenExtra : (lengthSplit t.length.toNat).extraBits ≤ 5 := lengthExtra_le _
    have hdistExtra : (distanceSplit t.distance.toNat).extraBits ≤ 13 := distExtra_le _
    have hdistLen : dls.getD (distanceSplit t.distance.toNat).symbol 0 ≤ 15 := hdist.getD_le _
    have h3 := (ht hmatch).1.1
    rw [item_of_isMatch hmatch, Item.span]
    simp only [if_pos hmatch, List.map_cons, List.map_nil, List.sum_cons, List.sum_nil]
    omega
  · rw [item_of_literal hmatch, Item.span]
    simp only [if_neg hmatch, List.map_nil, List.sum_nil]
    omega

theorem length_bits_le {data : List UInt8} {config : Config} (hok : Accepts config) {p : Plan}
    (hp : Planned data config p) : p.bits.length ≤ 16 * data.length := by
  have hdesc := parse_describes hok.valid (Nat.zero_le data.length)
  have hspan := hdesc.sum_span
  rw [Nat.zero_add, ← hp.tokens] at hspan
  have hall : ∀ t ∈ p.tokens, Coded t := hp.tokens ▸ coded_parse hok data
  rw [← hspan, Plan.bits]
  clear hspan hdesc
  generalize p.tokens = tokens at hall
  induction tokens with
  | nil => exact Nat.zero_le _
  | cons t tokens ih =>
      have hrest := ih fun t' h' => hall t' (List.mem_cons_of_mem _ h')
      have hfirst := length_tokenBits_le hp.litLen.toPrefixTable hp.dist.toPrefixTable
        (hall t List.mem_cons_self)
      rw [List.flatMap_cons, List.length_append, List.map_cons, List.map_cons, List.sum_cons,
        Nat.mul_add]
      exact Nat.add_le_add hfirst hrest

/-! ## The payload -/

section Payload
variable {data : List UInt8} {config : Config} (hok : Accepts config)
include hok

/-- The payload decodes to the data; what is left over is less than a byte. -/
theorem emit_decodes (hdata : data ≠ []) {p : Plan} (hp : Planned data config p) :
    ∃ payload r, p.emit config = .ok payload ∧
      payload.length = kParamBytes + p.hlit + p.hdist + (p.bits.length + 7) / 8 ∧
      decodeStream payload data.length = .ok (data, r) ∧ r.bits.length < 8 := by
  obtain ⟨stream, pad, hemit, hpad, hbits, hlen⟩ := emit_spec hp hok
  have hparts := parts_ok hp hok hdata
  have hlitTable : (p.parts config).litLenLengths = p.litLenLengths := by
    rw [Parts.litLenLengths, ← length_litLenLengths hp, Plan.parts, hp.hlit]
    exact padded_used hp.litLen.le_max
  have hdistTable : (p.parts config).distLengths = p.distLengths := by
    rw [Parts.distLengths, ← length_distLengths hp, Plan.parts, hp.hdist]
    exact padded_used hp.dist.le_max
  have hwin : 2 ^ (p.parts config).windowBits.toNat = 2 ^ config.windowBits.toNat := by
    have := hok.windowBits
    rw [Plan.parts, UInt8.toNat_ofNat_of_lt' (by simp only [UInt8.size]; omega)]
  have hspelled : ∀ t ∈ p.tokens, (p.parts config).Spelled t.item
      (tokenBits p.litLenLengths p.distLengths t) := by
    intro t ht
    have hwindow : t.isMatch → t.distance.toNat ≤ 2 ^ config.windowBits.toNat := by
      intro hmatch
      rw [hp.tokens] at ht
      obtain ⟨i, hi, rfl⟩ := List.getElem_of_mem ht
      exact Nat.le_of_lt ((parse_wellFormed hok.valid 0 i hi).distance hmatch).2.1
    have hreadable : Readable (p.parts config) t :=
      { coded := coded_parse hok data t (hp.tokens ▸ ht)
        litLen := hlitTable.symm ▸ litLen_coded hp hok ht
        dist := hdistTable.symm ▸ dist_coded hp hok ht
        window := hwin.symm ▸ hwindow }
    have hbits := spelled_tokenBits (hlitTable.symm ▸ hp.litLen.toPrefixTable)
      (hdistTable.symm ▸ hp.dist.toPrefixTable) hreadable
    rwa [hlitTable, hdistTable] at hbits
  have hdesc := parse_describes hok.valid (Nat.zero_le data.length)
  rw [← hp.tokens] at hdesc
  have hitems : List.Forall₂ (p.parts config).Spelled (p.tokens.map Token.item)
      (p.tokens.map (tokenBits p.litLenLengths p.distLengths)) := by
    rw [List.forall₂_map_left_iff, List.forall₂_map_right_iff, List.forall₂_same]
    exact hspelled
  obtain ⟨r, hstream, hleft⟩ := (decodeStream_bytes hparts).mpr
    ⟨_, _, hitems, by rw [← List.flatMap_def]; exact hbits, hdesc.replaysTo⟩
  refine ⟨_, r, hemit, ?_, parts_bytes p config ▸ hstream, ?_⟩
  · rw [List.length_append, length_header hp, hlen]
  · rw [hleft, List.length_replicate]
    exact hpad

/-- The encoder writes nothing exactly when the predicted size reaches the budget;
otherwise it writes a payload that decodes to the data, of the predicted size. -/
theorem encode_spec (hdata : data ≠ []) :
    ∃ p, plan data config = .ok p ∧ ∀ budgetBytes,
      (budgetBytes ≤ p.total → encode data config budgetBytes = .ok []) ∧
      (p.total < budgetBytes → ∃ payload, encode data config budgetBytes = .ok payload ∧
        payload ≠ [] ∧ Tight (fun payload => decode payload data.length) data payload ∧
        (data.length < 2 ^ 59 → payload.length = p.total)) := by
  obtain ⟨p, hplan, hp⟩ := plan_spec hok data
  refine ⟨p, hplan, fun budgetBytes => ⟨fun h => ?_, fun h => ?_⟩⟩
  · rw [encode, hplan, bind_ok, if_pos h]
    rfl
  · obtain ⟨payload, r, hemit, hlen, hstream, hleft⟩ := emit_decodes hok hdata hp
    refine ⟨payload, ?_, ?_, tight_of_decodeStream hstream hleft, fun hsmall => ?_⟩
    · rw [encode, hplan, bind_ok, if_neg (Nat.not_le.mpr h), hemit]
    · rintro rfl
      rw [List.length_nil, kParamBytes] at hlen
      omega
    · have hbits := length_bits_le hok hp
      have hfits : u64 (u64 p.bits.length + 7) = p.bits.length + 7 := by
        rw [u64_of_lt (n := p.bits.length) (by omega), u64_of_lt (by omega)]
      rw [hlen, hp.total, hfits]

end Payload

/-- Any other configuration is refused. -/
theorem encode_rejects {data : List UInt8} {config : Config} (hok : ¬ Accepts config)
    (budgetBytes : Nat) : Rejects (encode data config budgetBytes) := by
  obtain ⟨what, hwhat⟩ := plan_rejects hok data
  exact ⟨what, by rw [encode, hwhat, bind_error]⟩

end Compressly.Deflate

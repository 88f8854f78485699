/-
# `Compressly.Block.HuffmanEncode` — what the encoder of method 1 writes

The plan predicts the size by frequency, the payload holds the codes by
occurrence (`foldlM_addSymbol`).  What is written is the stored table and the
code words of the data, which is in the grammar of the decoder: the payload
decodes to the data and is needed to its last byte (`encodeHuffman_spec`).
-/
import Compressly.Block.HuffmanGrammar
import Compressly.Huffman.Lengths

namespace Compressly.Block

open Bits Kraft Parse Huffman

/-! ## The plan -/

def HuffmanPlan.bits (p : HuffmanPlan) (data : List UInt8) : List Bool :=
  data.flatMap fun byte => codeWord p.lengths byte.toNat

/-- What a plan for the data is. -/
structure HuffmanPlanned (data : List UInt8) (p : HuffmanPlan) : Prop where
  lengths : Usable (frequencies data) p.lengths
  codes : p.codes = codeTable p.lengths
  distinct : p.distinct = (presentSymbols p.lengths).length
  total : p.total = 1 + 2 * p.distinct + u64 (u64 (p.bits data).length + 7) / 8

theorem length_flatMap_codeWord (ls : LengthTable) (data : List UInt8) :
    (data.flatMap fun byte => codeWord ls byte.toNat).length
      = ((data.map UInt8.toNat).map fun s => ls.getD s 0).sum := by
  rw [List.length_flatMap, List.map_map]
  exact congrArg List.sum (List.map_congr_left fun byte _ => length_natBits _ _)

theorem bytes_lt (data : List UInt8) : ∀ s ∈ data.map UInt8.toNat, s < kByteAlphabetSize := by
  intro s hs
  obtain ⟨byte, -, rfl⟩ := List.mem_map.mp hs
  exact byte.toNat_lt

/-- The size computation, by frequency, is the size by occurrence. -/
theorem foldlM_addSymbol {data : List UInt8} {ls : LengthTable}
    (hlen : ls.length = kByteAlphabetSize) :
    (List.range kByteAlphabetSize).foldlM (addSymbol (frequencies data) ls) (0, 0)
      = .ok ((presentSymbols ls).length,
          u64 (data.flatMap fun byte => codeWord ls byte.toNat).length) := by
  have hloop : ∀ m ≤ kByteAlphabetSize,
      (List.range m).foldlM (addSymbol (frequencies data) ls) (0, 0)
        = (.ok (((List.range m).filter fun s => ls.getD s 0 ≠ 0).length,
            u64 (∑ s ∈ Finset.range m, (data.map UInt8.toNat).count s * ls.getD s 0))
            : Result (Nat × Nat)) := by
    intro m
    induction m with
    | zero => exact fun _ => rfl
    | succ m ih =>
        intro hm
        have hlt : m < ls.length := hlen ▸ hm
        have hfreq : m < (frequencies data).length := by simpa [frequencies] using hm
        rw [List.range_succ, List.foldlM_append, ih (Nat.le_of_lt hm), bind_ok, List.foldlM_cons,
          addSymbol, fetch_of_lt hlt, bind_ok, List.filter_append, List.length_append,
          Finset.sum_range_succ, List.getD_eq_getElem _ _ hlt]
        by_cases h0 : ls[m] = 0
        · have hdrop : ([m].filter fun s => ls.getD s 0 ≠ 0) = [] := by
            simp [List.getElem?_eq_getElem hlt, h0]
          rw [if_pos h0, hdrop, h0, Nat.mul_zero]
          rfl
        · have hkeep : ([m].filter fun s => ls.getD s 0 ≠ 0) = [m] := by
            simp [List.getElem?_eq_getElem hlt, h0]
          have hcount : (frequencies data)[m] = (data.map UInt8.toNat).count m :=
            getElem_histogram _ _
          rw [if_neg h0, hkeep, fetch_of_lt hfreq, bind_ok, hcount]
          simp [u64, Nat.mod_add_mod]
  rw [hloop _ le_rfl, sum_count_mul (bytes_lt data), length_flatMap_codeWord,
    (covered_bytes hlen).presentSymbols_eq, countedSymbols, hlen]

theorem planHuffman_spec (data : List UInt8) :
    ∃ p, planHuffman data = .ok p ∧ HuffmanPlanned data p := by
  obtain ⟨ls, hls, husable⟩ := buildLengths_histogram
    (by decide : kByteAlphabetSize ≤ 2 ^ kMaxCodeLength) (data.map UInt8.toNat)
  have hlen : ls.length = kByteAlphabetSize := husable.length.trans (length_histogram _ _)
  refine ⟨{ lengths := ls
            codes := codeTable ls
            distinct := (presentSymbols ls).length
            total := 1 + 2 * (presentSymbols ls).length
              + u64 (u64 (data.flatMap fun byte => codeWord ls byte.toNat).length + 7) / 8 },
    ?_, ⟨husable, rfl, rfl, rfl⟩⟩
  rw [planHuffman, countFrequencies_eq, bind_ok, frequencies, hls, bind_ok,
    buildCanonicalCodes_eq husable.le_max husable.covered, bind_ok, ← frequencies, foldlM_addSymbol hlen]
  rfl

/-! ## The payload -/

/-- The symbol table as it is stored. -/
def storedTable (ls : LengthTable) : List UInt8 :=
  (presentSymbols ls).flatMap fun s => [UInt8.ofNat s, UInt8.ofNat (ls.getD s 0)]

theorem length_storedTable (ls : LengthTable) :
    (storedTable ls).length = 2 * (presentSymbols ls).length := by
  rw [storedTable, List.length_flatMap]
  simp [Nat.mul_comm]

theorem foldlM_pushSymbol {ls : LengthTable} (hlen : ls.length = kByteAlphabetSize)
    (out : List UInt8) :
    (List.range kByteAlphabetSize).foldlM (pushSymbol ls) out = .ok (out ++ storedTable ls) := by
  have hloop : ∀ m ≤ kByteAlphabetSize, (List.range m).foldlM (pushSymbol ls) out
      = (.ok (out ++ ((List.range m).filter fun s => ls.getD s 0 ≠ 0).flatMap
          fun s => [UInt8.ofNat s, UInt8.ofNat (ls.getD s 0)]) : Result (List UInt8)) := by
    intro m
    induction m with
    | zero => exact fun _ => by simp
    | succ m ih =>
        intro hm
        have hlt : m < ls.length := hlen ▸ hm
        rw [List.range_succ, List.foldlM_append, ih (Nat.le_of_lt hm), bind_ok, List.foldlM_cons,
          pushSymbol, fetch_of_lt hlt, bind_ok, List.filter_append]
        by_cases h0 : ls[m] = 0
        · simp [List.getElem?_eq_getElem hlt, h0]
        · simp [List.getElem?_eq_getElem hlt, h0]
  rw [hloop _ le_rfl, storedTable, (covered_bytes hlen).presentSymbols_eq, countedSymbols, hlen]

section Planned
variable {data : List UInt8} {p : HuffmanPlan} (hp : HuffmanPlanned data p)
include hp

theorem length_lengths : p.lengths.length = kByteAlphabetSize :=
  hp.lengths.length.trans (length_histogram _ _)

theorem byte_coded {byte : UInt8} (h : byte ∈ data) : p.lengths.getD byte.toNat 0 ≠ 0 :=
  hp.lengths.of_mem (by decide) (List.mem_map_of_mem h) byte.toNat_lt

theorem distinct_pos (hdata : data ≠ []) : 1 ≤ p.distinct := by
  obtain ⟨byte, hbyte⟩ := List.exists_mem_of_ne_nil _ hdata
  rw [hp.distinct]
  exact List.length_pos_iff.mpr
    (List.ne_nil_of_mem (hp.lengths.covered.mem_presentSymbols.mpr (byte_coded hp hbyte)))

theorem distinct_le : p.distinct ≤ kByteAlphabetSize := by
  rw [hp.distinct, ← length_lengths hp]
  exact length_presentSymbols_le _

theorem length_bits_le : (p.bits data).length ≤ 15 * data.length := by
  have hle : ∀ l ∈ (data.map UInt8.toNat).map fun s => p.lengths.getD s 0, l ≤ 15 := by
    intro l hl
    obtain ⟨s, -, rfl⟩ := List.mem_map.mp hl
    exact hp.lengths.toPrefixTable.getD_le s
  have hsum := List.sum_le_card_nsmul _ 15 hle
  rwa [List.length_map, List.length_map, smul_eq_mul, Nat.mul_comm, ← length_flatMap_codeWord]
    at hsum

/-- The bytes of the data through the bit writer. -/
theorem foldlM_writeSymbol (w : BitWriter) :
    ∃ w', data.foldlM (writeSymbol p.codes) w = .ok w' ∧ w'.bits = w.bits ++ p.bits data := by
  have hls := hp.lengths.toPrefixTable
  have hloop : ∀ (bytes : List UInt8) (w : BitWriter), ∃ w',
      bytes.foldlM (writeSymbol p.codes) w = .ok w' ∧ w'.bits = w.bits ++ p.bits bytes := by
    intro bytes
    induction bytes with
    | nil => exact fun w => ⟨w, rfl, (List.append_nil _).symm⟩
    | cons byte bytes ih =>
        intro w
        have h32 : p.lengths.getD byte.toNat 0 ≤ 32 :=
          Nat.le_trans (hls.getD_le _) (by decide)
        have hslot : byte.toNat < (codeTable p.lengths).length := by
          rw [length_codeTable, length_lengths hp]
          exact byte.toNat_lt
        have hwrite := BitWriter.writeBits_bits w
          (codeOf_length p.lengths byte.toNat ▸ h32) (codeOf p.lengths byte.toNat).bits
        rw [natBits_codeOf h32] at hwrite
        obtain ⟨w', hw', hbits⟩ := ih (w.writeBits (codeOf p.lengths byte.toNat).bits
          (codeOf p.lengths byte.toNat).length)
        refine ⟨w', ?_, ?_⟩
        · rw [List.foldlM_cons, writeSymbol, hp.codes, fetch_of_lt hslot, getElem_codeTable,
            ← hp.codes]
          exact hw'
        · rw [hbits, hwrite, List.append_assoc]
          rfl
  exact hloop data w

/-- The payload: the symbol table, then the code words padded to a byte. -/
theorem emitHuffman_spec (hdata : data ≠ []) :
    ∃ stream pad, p.emit data
        = .ok (UInt8.ofNat (p.distinct - 1) :: (storedTable p.lengths ++ stream)) ∧
      pad < 8 ∧ bytesBits stream = p.bits data ++ List.replicate pad false ∧
      stream.length = ((p.bits data).length + 7) / 8 := by
  obtain ⟨w, hw, hbits⟩ := foldlM_writeSymbol hp
    { out := [UInt8.ofNat (p.distinct - 1)] ++ storedTable p.lengths }
  have hgiven : w.bits = bytesBits ([UInt8.ofNat (p.distinct - 1)] ++ storedTable p.lengths)
      ++ p.bits data := by
    rw [hbits]
    simp [BitWriter.bits]
  obtain ⟨stream, pad, hout, hpad, hstream, hlen⟩ := BitWriter.flush_spec hgiven
  refine ⟨stream, pad, ?_, hpad, hstream, hlen⟩
  rw [HuffmanPlan.emit, minus_of_le (distinct_pos hp hdata), bind_ok,
    foldlM_pushSymbol (length_lengths hp), bind_ok, hw, bind_ok, pure_eq_ok, hout]
  rfl

end Planned

/-! ## Reading it back -/

/-- The two bytes of entry `i` of a list of pairs. -/
theorem getElem?_pairs {α β : Type} (f g : α → β) (l : List α) (i : Nat) :
    (l.flatMap fun a => [f a, g a])[2 * i]? = l[i]?.map f ∧
      (l.flatMap fun a => [f a, g a])[2 * i + 1]? = l[i]?.map g := by
  induction l generalizing i with
  | nil => exact ⟨rfl, rfl⟩
  | cons a l ih =>
      cases i with
      | zero => exact ⟨rfl, rfl⟩
      | succ i => exact ih i

/-- The table after the first `i` entries have been read. -/
def tableUpTo (ls : LengthTable) (i : Nat) : LengthTable :=
  (List.range kByteAlphabetSize).map fun s =>
    if s ∈ (presentSymbols ls).take i then ls.getD s 0 else 0

theorem length_tableUpTo (ls : LengthTable) (i : Nat) :
    (tableUpTo ls i).length = kByteAlphabetSize := by
  rw [tableUpTo, List.length_map, List.length_range]

theorem tableUpTo_zero (ls : LengthTable) :
    tableUpTo ls 0 = List.replicate kByteAlphabetSize 0 := by
  refine List.eq_replicate_iff.mpr ⟨length_tableUpTo ls 0, fun l hl => ?_⟩
  obtain ⟨s, -, rfl⟩ := List.mem_map.mp hl
  rfl

/-- All entries give the table back. -/
theorem tableUpTo_all {ls : LengthTable} (hlen : ls.length = kByteAlphabetSize) :
    tableUpTo ls (presentSymbols ls).length = ls := by
  refine List.ext_getElem ((length_tableUpTo ls _).trans hlen.symm) fun s h₁ h₂ => ?_
  simp only [tableUpTo, List.getElem_map, List.getElem_range, List.take_length,
    (covered_bytes hlen).mem_presentSymbols, List.getD_eq_getElem _ _ h₂]
  split
  case isTrue => rfl
  case isFalse h => exact (not_not.mp h).symm

theorem getElem?_tableUpTo (ls : LengthTable) {s : Nat} (hs : s < kByteAlphabetSize) (i : Nat) :
    (tableUpTo ls i)[s]?
      = some (if s ∈ (presentSymbols ls).take i then ls.getD s 0 else 0) := by
  rw [tableUpTo, List.getElem?_map, List.getElem?_range hs]
  rfl

/-- Reading one more entry. -/
theorem readSymbol_eq {ls : LengthTable} (hlen : ls.length = kByteAlphabetSize)
    (hle : ∀ l ∈ ls, l ≤ kMaxCodeLength) (first : UInt8) (stream : List UInt8) {i : Nat}
    (hi : i < (presentSymbols ls).length) :
    readSymbol (first :: (storedTable ls ++ stream)) (tableUpTo ls i) i
      = .ok (tableUpTo ls (i + 1)) := by
  obtain ⟨s, hs⟩ : ∃ s, (presentSymbols ls)[i] = s := ⟨_, rfl⟩
  have hmem : s ∈ presentSymbols ls := hs ▸ List.getElem_mem hi
  have h0 : ls.getD s 0 ≠ 0 := (mem_presentSymbols.mp hmem).2
  have h256 : s < kByteAlphabetSize := hlen ▸ lt_of_mem_presentSymbols hmem
  have h15 : ls.getD s 0 ≤ kMaxCodeLength := by
    rw [List.getD_eq_getElem _ _ (hlen.symm ▸ h256)]
    exact hle _ (List.getElem_mem _)
  have htake : (presentSymbols ls).take (i + 1) = (presentSymbols ls).take i ++ [s] := by
    rw [List.take_succ_eq_append_getElem hi, hs]
  have hnew : s ∉ (presentSymbols ls).take i := by
    have hnodup := ((List.take_sublist (i + 1) _).nodup (nodup_presentSymbols ls))
    rw [htake, List.nodup_append] at hnodup
    exact fun h => hnodup.2.2 s h s (List.mem_singleton_self s) rfl
  obtain ⟨hsym, hcode⟩ := getElem?_pairs UInt8.ofNat (fun s => UInt8.ofNat (ls.getD s 0))
    (presentSymbols ls) i
  rw [List.getElem?_eq_getElem hi, hs, Option.map_some] at hsym hcode
  have hfetch : ∀ {k : Nat} {b : UInt8}, (storedTable ls)[k]? = some b →
      fetch (first :: (storedTable ls ++ stream)) (k + 1) = .ok b := by
    intro k b hk
    refine fetch_of_getElem? ?_
    rw [List.getElem?_cons_succ, List.getElem?_append_left (List.getElem?_eq_some_iff.mp hk).1, hk]
  have hsymByte : (UInt8.ofNat s).toNat = s := UInt8.toNat_ofNat_of_lt' h256
  have hlenByte : (UInt8.ofNat (ls.getD s 0)).toNat = ls.getD s 0 :=
    UInt8.toNat_ofNat_of_lt' (Nat.lt_of_le_of_lt h15 (by decide))
  have hold := getElem?_tableUpTo ls h256 i
  rw [if_neg hnew] at hold
  rw [readSymbol, Nat.add_comm 1, hfetch hsym, bind_ok, Nat.add_comm 2, hfetch hcode, bind_ok,
    hsymByte, hlenByte, if_neg (by omega), fetch_of_getElem? hold, bind_ok,
    if_neg (not_not.mpr rfl), store_of_lt (length_tableUpTo ls i ▸ h256)]
  refine congrArg Except.ok (List.ext_getElem? fun t => ?_)
  rcases Nat.lt_or_ge t kByteAlphabetSize with ht | ht
  · rw [List.getElem?_set, length_tableUpTo, getElem?_tableUpTo ls ht, getElem?_tableUpTo ls ht, htake]
    by_cases hst : s = t
    · subst hst
      simp [h256]
    · simp [hst, Ne.symm hst]
  · rw [List.getElem?_eq_none (by rw [List.length_set, length_tableUpTo]; exact ht),
      List.getElem?_eq_none (by rw [length_tableUpTo]; exact ht)]

/-- The table a payload begins with is the table that was written. -/
theorem storedLengths_storedTable {ls : LengthTable} (hlen : ls.length = kByteAlphabetSize)
    (hle : ∀ l ∈ ls, l ≤ kMaxCodeLength) (hpos : 1 ≤ (presentSymbols ls).length)
    (hmax : (presentSymbols ls).length ≤ kByteAlphabetSize) (stream : List UInt8) :
    storedLengths (UInt8.ofNat ((presentSymbols ls).length - 1) :: (storedTable ls ++ stream))
      = .ok (ls, stream) := by
  have hfirst : (UInt8.ofNat ((presentSymbols ls).length - 1)).toNat + 1
      = (presentSymbols ls).length := by
    rw [UInt8.toNat_ofNat_of_lt' (by simp only [UInt8.size, kByteAlphabetSize] at hmax ⊢; omega)]
    omega
  have hstored := length_storedTable ls
  generalize hb : UInt8.ofNat ((presentSymbols ls).length - 1) = first at hfirst ⊢
  have hloop : ∀ m ≤ (presentSymbols ls).length,
      (List.range m).foldlM (readSymbol (first :: (storedTable ls ++ stream)))
          (List.replicate kByteAlphabetSize 0)
        = .ok (tableUpTo ls m) := by
    intro m
    induction m with
    | zero => exact fun _ => congrArg Except.ok (tableUpTo_zero ls).symm
    | succ m ih =>
        intro hm
        rw [List.range_succ, List.foldlM_append, ih (Nat.le_of_lt hm), bind_ok, List.foldlM_cons,
          readSymbol_eq hlen hle first stream hm]
        rfl
  have hsize : (first :: (storedTable ls ++ stream)).length
      = 1 + 2 * (presentSymbols ls).length + stream.length := by
    rw [List.length_cons, List.length_append, hstored]
    omega
  have hslice := slice_append (first :: storedTable ls) stream
  rw [List.length_cons, hstored, Nat.add_comm _ 1, List.cons_append] at hslice
  have h0 : fetch (first :: (storedTable ls ++ stream)) 0 = .ok first := rfl
  rw [storedLengths, if_neg (by simp), h0, bind_ok, hfirst, if_neg (by omega), hloop _ le_rfl,
    bind_ok, tableUpTo_all hlen, minus_of_le (by omega), bind_ok, hsize, Nat.add_sub_cancel_left,
    hslice]
  rfl

/-- The code words of the data spell it. -/
theorem spells_codeWords {ls : LengthTable} (hls : PrefixTable ls) {data : List UInt8}
    (hcoded : ∀ byte ∈ data, ls.getD byte.toNat 0 ≠ 0) :
    List.Forall₂ (fun b w => Spells ls w b.toNat) data
      (data.map fun byte => codeWord ls byte.toNat) := by
  rw [List.forall₂_map_right_iff, List.forall₂_same]
  exact fun byte hbyte => (spells_iff hls).mpr ⟨hcoded byte hbyte, rfl⟩

/-- The encoder writes nothing exactly when the predicted size reaches the budget;
otherwise it writes a payload that decodes to the data, of the predicted size. -/
theorem encodeHuffman_spec {data : List UInt8} (hdata : data ≠ []) :
    ∃ p, planHuffman data = .ok p ∧ ∀ budgetBytes,
      (budgetBytes ≤ p.total → encodeHuffman data budgetBytes = .ok []) ∧
      (p.total < budgetBytes → ∃ payload, encodeHuffman data budgetBytes = .ok payload ∧
        payload ≠ [] ∧ Tight (fun payload => decodeHuffman payload data.length) data payload ∧
        (data.length < 2 ^ 59 → payload.length = p.total)) := by
  obtain ⟨p, hplan, hp⟩ := planHuffman_spec data
  refine ⟨p, hplan, fun budgetBytes => ⟨fun h => ?_, fun h => ?_⟩⟩
  · rw [encodeHuffman, hplan, bind_ok, if_pos h]
    rfl
  · obtain ⟨stream, pad, hemit, hpad, hbits, hlen⟩ := emitHuffman_spec hp hdata
    have hpos := distinct_pos hp hdata
    have hmax := distinct_le hp
    rw [hp.distinct] at hpos hmax hemit
    have hstored := storedLengths_storedTable (length_lengths hp) hp.lengths.le_max hpos hmax stream
    have hspells := spells_codeWords hp.lengths.toPrefixTable fun byte hbyte => byte_coded hp hbyte
    obtain ⟨r, hstream, hleft⟩ := (decodeHuffmanStream_stored hstored).mpr
      ⟨_, hspells, by rw [← List.flatMap_def]; exact hbits, rfl⟩
    refine ⟨_, ?_, List.cons_ne_nil _ _, tight_of_decodeHuffmanStream hstream ?_, fun hsmall => ?_⟩
    · rw [encodeHuffman, hplan, bind_ok, if_neg (Nat.not_le.mpr h), hemit]
    · rw [hleft, List.length_replicate]
      exact hpad
    · have hbound := length_bits_le hp
      have hfits : u64 (u64 (p.bits data).length + 7) = (p.bits data).length + 7 := by
        rw [u64_of_lt (n := (p.bits data).length) (by omega), u64_of_lt (by omega)]
      rw [hp.total, hfits, List.length_cons, List.length_append, length_storedTable, hlen,
        hp.distinct]
      omega

end Compressly.Block

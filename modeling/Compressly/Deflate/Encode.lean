/-
# `Compressly.Deflate.Encode` — what the combined encoder writes

For the tokens of a parse, `tokenBits` is the bit string of one token under two
length tables, and the payload is

    window bits, HLIT, HDIST, the used code lengths, then
    the concatenated token bits, padded with fewer than 8 zeros   (`emit_spec`)

The predicted size is computed from frequencies and lengths.  Grouped by symbol
or summed over tokens, it is the length of the same bit string (`plan_spec`),
as long as the 64-bit sum does not wrap.
-/
import Compressly.Deflate.Tables
import Compressly.Huffman.Lengths
import Compressly.LZ77.Tokenize

namespace Compressly.Deflate

open Bits Kraft Huffman LZ77

/-! ## The configurations accepted -/

/-- The configurations whose every token the code tables can express. -/
structure Accepts (config : Config) : Prop where
  valid : config.Valid
  minMatch : config.minMatch = 3
  windowBits : config.windowBits ≤ 15

instance (config : Config) : Decidable (Accepts config) :=
  decidable_of_iff (config.Valid ∧ config.minMatch = 3 ∧ config.windowBits ≤ 15)
    ⟨fun ⟨h₁, h₂, h₃⟩ => ⟨h₁, h₂, h₃⟩, fun ⟨h₁, h₂, h₃⟩ => ⟨h₁, h₂, h₃⟩⟩

/-- A token within the reach of the code tables. -/
def Coded (t : Token) : Prop :=
  t.isMatch → (3 ≤ t.length.toNat ∧ t.length.toNat ≤ 258) ∧
    1 ≤ t.distance.toNat ∧ t.distance.toNat ≤ 32768

theorem coded_parse {config : Config} (hok : Accepts config) (data : List UInt8) :
    ∀ t ∈ parse data config 0, Coded t := by
  intro t ht hmatch
  obtain ⟨i, hi, rfl⟩ := List.getElem_of_mem ht
  have hwf := parse_wellFormed hok.valid 0 i hi
  have hlen := hwf.length hmatch
  have hdist := hwf.distance hmatch
  have hmin := hok.minMatch
  have hbits : config.windowBits.toNat ≤ 15 := by
    have := hok.windowBits
    omega
  have hpow : 2 ^ config.windowBits.toNat ≤ 2 ^ 15 := Nat.pow_le_pow_right (by decide) hbits
  omega

/-! ## The symbols and bits of a token -/

def litLenSymbol (t : Token) : Nat :=
  if t.isMatch then (lengthSplit t.length.toNat).symbol else t.literal.toNat

def distSymbols (t : Token) : List Nat :=
  if t.isMatch then [(distanceSplit t.distance.toNat).symbol] else []

def extraBitsOf (t : Token) : Nat :=
  if t.isMatch then
    (lengthSplit t.length.toNat).extraBits + (distanceSplit t.distance.toNat).extraBits
  else 0

/-- The bits of a token, under two length tables. -/
def tokenBits (lls dls : LengthTable) (t : Token) : List Bool :=
  if t.isMatch then
    (codeWord lls (litLenSymbol t) ++
      natBits (lengthSplit t.length.toNat).extraBits (lengthSplit t.length.toNat).extraValue) ++
    (codeWord dls (distanceSplit t.distance.toNat).symbol ++
      natBits (distanceSplit t.distance.toNat).extraBits (distanceSplit t.distance.toNat).extraValue)
  else codeWord lls (litLenSymbol t)

theorem litLenSymbol_lt {t : Token} (h : Coded t) : litLenSymbol t < kLitLenAlphabetSize := by
  unfold litLenSymbol
  split
  case isTrue hmatch => exact row_lt (lengthSplit_spec (h hmatch).1.1 (h hmatch).1.2).1
  case isFalse =>
    have hbyte : t.literal.toNat < 256 := t.literal.toNat_lt
    unfold kLitLenAlphabetSize
    omega

theorem distSymbols_lt {t : Token} (h : Coded t) :
    ∀ s ∈ distSymbols t, s < kDistAlphabetSize := by
  intro s hs
  unfold distSymbols at hs
  split at hs
  case isTrue hmatch =>
    rw [List.mem_singleton.mp hs]
    exact (distanceSplit_spec (h hmatch).2.1 (h hmatch).2.2).1
  case isFalse => cases hs

/-- The length of a token's bit string, part by part. -/
theorem length_tokenBits (lls dls : LengthTable) (t : Token) :
    (tokenBits lls dls t).length
      = extraBitsOf t + lls.getD (litLenSymbol t) 0
        + ((distSymbols t).map fun s => dls.getD s 0).sum := by
  have hword : ∀ (ls : LengthTable) (s : Nat), (codeWord ls s).length = ls.getD s 0 :=
    fun ls s => length_natBits _ _
  unfold tokenBits extraBitsOf distSymbols
  by_cases h : t.isMatch
  · simp only [if_pos h, List.length_append, hword, length_natBits, List.map_cons, List.map_nil,
      List.sum_cons, List.sum_nil]
    omega
  · simp only [if_neg h, hword, List.map_nil, List.sum_nil]
    omega

/-! ## Tallying -/

/-- The tally of the tokens seen so far. -/
def tallyOf (tokens : List Token) : Tally where
  litLenFreq := histogram kLitLenAlphabetSize (tokens.map litLenSymbol)
  distFreq := histogram kDistAlphabetSize (tokens.flatMap distSymbols)
  extraBits := u64 (tokens.map extraBitsOf).sum

theorem tally_add {t : Token} (h : Coded t) (tokens : List Token) :
    (tallyOf tokens).add t = .ok (tallyOf (t :: tokens)) := by
  have hsym := litLenSymbol_lt h
  have hdist := distSymbols_lt h
  unfold Tally.add
  by_cases hmatch : t.isMatch
  · obtain ⟨⟨h3, h258⟩, h1, h32768⟩ := h hmatch
    rw [litLenSymbol, if_pos hmatch] at hsym
    rw [distSymbols, if_pos hmatch] at hdist
    have hextra : u64 (u64 (tokens.map extraBitsOf).sum
          + ((lengthSplit t.length.toNat).extraBits + (distanceSplit t.distance.toNat).extraBits))
        = u64 ((t :: tokens).map extraBitsOf).sum := by
      rw [List.map_cons, List.sum_cons, extraBitsOf, if_pos hmatch, u64, u64, u64, Nat.mod_add_mod,
        Nat.add_comm]
    simp only [hmatch, Bool.not_true, Bool.false_eq_true, if_false, splitLength_eq h3 h258,
      splitDistance_eq h1 h32768, bind_ok, tallyOf, bump_histogram _ hsym,
      bump_histogram _ (hdist _ (List.mem_singleton_self _)), pure_eq_ok, hextra]
    simp only [List.map_cons, List.flatMap_cons, litLenSymbol, distSymbols, if_pos hmatch,
      List.singleton_append]
  · rw [litLenSymbol, if_neg hmatch] at hsym
    simp only [hmatch, Bool.not_false, if_true, bind_ok, tallyOf, bump_histogram _ hsym,
      pure_eq_ok]
    simp [litLenSymbol, distSymbols, extraBitsOf, hmatch]

theorem foldlM_tally {tokens : List Token} (h : ∀ t ∈ tokens, Coded t) (seen : List Token) :
    tokens.foldlM Tally.add (tallyOf seen) = .ok (tallyOf (tokens.reverse ++ seen)) := by
  induction tokens generalizing seen with
  | nil => rfl
  | cons t tokens ih =>
      rw [List.foldlM_cons, tally_add (h t List.mem_cons_self), bind_ok,
        ih fun t' h' => h t' (List.mem_cons_of_mem _ h')]
      simp

theorem tallyOf_perm {tokens tokens' : List Token} (h : tokens.Perm tokens') :
    tallyOf tokens = tallyOf tokens' := by
  rw [tallyOf, tallyOf, histogram_perm (h.map _), histogram_perm (h.flatMap_right _),
    (h.map _).sum_eq]

/-- The frequencies and extra bits of a token stream. -/
theorem tally_tokens {tokens : List Token} (h : ∀ t ∈ tokens, Coded t) :
    tokens.foldlM Tally.add {} = .ok (tallyOf tokens) := by
  have hempty : ({} : Tally) = tallyOf [] := by
    rw [tallyOf, List.map_nil, List.flatMap_nil, histogram_nil, histogram_nil]
    rfl
  rw [hempty, foldlM_tally h, List.append_nil, tallyOf_perm (List.reverse_perm tokens)]

/-! ## The predicted size -/

/-- Coded bits by frequency are coded bits by occurrence. -/
theorem addCodedBits_eq {size : Nat} {symbols : List Nat} {lengths : LengthTable}
    (hsym : ∀ s ∈ symbols, s < size) (hlen : lengths.length = size) (bits : Nat) :
    addCodedBits size (histogram size symbols) lengths (u64 bits)
      = .ok (u64 (bits + (symbols.map fun s => lengths.getD s 0).sum)) := by
  have hloop : ∀ m ≤ size, (List.range m).foldlM
      (fun payloadBits symbol => do
        let n ← fetch (histogram size symbols) symbol
        let length ← fetch lengths symbol
        pure (u64 (payloadBits + n * length))) (u64 bits)
      = (.ok (u64 (bits + ∑ k ∈ Finset.range m, symbols.count k * lengths.getD k 0))
          : Result Nat) := by
    intro m
    induction m with
    | zero => exact fun _ => rfl
    | succ m ih =>
        intro hm
        have hfreq : m < (histogram size symbols).length := by simpa using hm
        have hlt : m < lengths.length := by omega
        rw [List.range_succ, List.foldlM_append, ih (by omega), bind_ok, List.foldlM_cons,
          fetch_of_lt hfreq, bind_ok, fetch_of_lt hlt, bind_ok, getElem_histogram,
          Finset.sum_range_succ, List.getD_eq_getElem _ _ hlt, ← Nat.add_assoc]
        simp [u64, Nat.mod_add_mod]
  rw [addCodedBits, hloop size le_rfl, sum_count_mul hsym]

/-- Every stored length is before the cut, and the cut is as early as that allows. -/
theorem usedLength_spec (ls : LengthTable) :
    usedLength ls ≤ ls.length ∧ (∀ s, usedLength ls ≤ s → ls.getD s 0 = 0) := by
  have hloop : ∀ m ≤ ls.length,
      (List.range m).foldl (fun used symbol => if ls.getD symbol 0 ≠ 0 then symbol + 1 else used) 0
          ≤ m ∧
        ∀ s, (List.range m).foldl
            (fun used symbol => if ls.getD symbol 0 ≠ 0 then symbol + 1 else used) 0 ≤ s →
          s < m → ls.getD s 0 = 0 := by
    intro m
    induction m with
    | zero => exact fun _ => ⟨le_rfl, fun s _ hs => absurd hs (Nat.not_lt_zero s)⟩
    | succ m ih =>
        intro hm
        obtain ⟨hle, hzero⟩ := ih (by omega)
        rw [List.range_succ, List.foldl_append, List.foldl_cons, List.foldl_nil]
        split
        case isTrue => exact ⟨le_rfl, fun s hs hlt => by omega⟩
        case isFalse h =>
          refine ⟨by omega, fun s hs hlt => ?_⟩
          rcases Nat.lt_succ_iff_lt_or_eq.mp hlt with hlt | rfl
          · exact hzero s hs hlt
          · exact not_not.mp h
  obtain ⟨hle, hzero⟩ := hloop ls.length le_rfl
  refine ⟨hle, fun s hs => ?_⟩
  rcases Nat.lt_or_ge s ls.length with hlt | hge
  · exact hzero s hs hlt
  · exact List.getD_eq_default _ _ hge

theorem lt_usedLength {ls : LengthTable} {s : Nat} (h : ls.getD s 0 ≠ 0) : s < usedLength ls := by
  by_contra hge
  exact h ((usedLength_spec ls).2 s (Nat.le_of_not_lt hge))

/-! ## The plan -/

/-- The bit string of a token stream under the tables of a plan. -/
def Plan.bits (p : Plan) : List Bool :=
  p.tokens.flatMap (tokenBits p.litLenLengths p.distLengths)

/-- What a plan for the data is. -/
structure Planned (data : List UInt8) (config : Config) (p : Plan) : Prop where
  tokens : p.tokens = parse data config 0
  litLen : Usable (tallyOf p.tokens).litLenFreq p.litLenLengths
  dist : Usable (tallyOf p.tokens).distFreq p.distLengths
  litLenCodes : p.litLenCodes = codeTable p.litLenLengths
  distCodes : p.distCodes = codeTable p.distLengths
  hlit : p.hlit = usedLength p.litLenLengths
  hdist : p.hdist = usedLength p.distLengths
  total : p.total = kParamBytes + p.hlit + p.hdist + u64 (u64 p.bits.length + 7) / 8

/-- The bits of a stream, summed by kind. -/
theorem length_flatMap_tokenBits (lls dls : LengthTable) (tokens : List Token) :
    (tokens.flatMap (tokenBits lls dls)).length
      = (tokens.map extraBitsOf).sum + ((tokens.map litLenSymbol).map fun s => lls.getD s 0).sum
        + ((tokens.flatMap distSymbols).map fun s => dls.getD s 0).sum := by
  induction tokens with
  | nil => rfl
  | cons t tokens ih =>
      simp only [List.flatMap_cons, List.length_append, length_tokenBits, ih, List.map_cons,
        List.sum_cons, List.map_append, List.sum_append]
      omega

theorem plan_spec {config : Config} (hok : Accepts config) (data : List UInt8) :
    ∃ p, plan data config = .ok p ∧ Planned data config p := by
  obtain ⟨examined, htokens⟩ := tokenize_eq data hok.valid
  have hcoded := coded_parse hok data
  obtain ⟨lls, hlls, hlit⟩ := buildLengths_histogram
    (by decide : kLitLenAlphabetSize ≤ 2 ^ kMaxCodeLength)
    ((parse data config 0).map litLenSymbol)
  obtain ⟨dls, hdls, hdist⟩ := buildLengths_histogram
    (by decide : kDistAlphabetSize ≤ 2 ^ kMaxCodeLength)
    ((parse data config 0).flatMap distSymbols)
  have hlitSym : ∀ s ∈ (parse data config 0).map litLenSymbol, s < kLitLenAlphabetSize := by
    intro s hs
    obtain ⟨t, ht, rfl⟩ := List.mem_map.mp hs
    exact litLenSymbol_lt (hcoded t ht)
  have hdistSym : ∀ s ∈ (parse data config 0).flatMap distSymbols, s < kDistAlphabetSize := by
    intro s hs
    obtain ⟨t, ht, hmem⟩ := List.mem_flatMap.mp hs
    exact distSymbols_lt (hcoded t ht) s hmem
  have hlitBits := addCodedBits_eq hlitSym (hlit.length.trans (length_histogram _ _))
    ((parse data config 0).map extraBitsOf).sum
  have hdistBits := addCodedBits_eq hdistSym (hdist.length.trans (length_histogram _ _))
    (((parse data config 0).map extraBitsOf).sum
      + (((parse data config 0).map litLenSymbol).map fun s => lls.getD s 0).sum)
  rw [← length_flatMap_tokenBits] at hdistBits
  refine ⟨{ tokens := parse data config 0
            litLenLengths := lls
            distLengths := dls
            litLenCodes := codeTable lls
            distCodes := codeTable dls
            hlit := usedLength lls
            hdist := usedLength dls
            total := kParamBytes + usedLength lls + usedLength dls +
              u64 (u64 ((parse data config 0).flatMap (tokenBits lls dls)).length + 7) / 8 },
    ?_, ⟨rfl, hlit, hdist, rfl, rfl, rfl, rfl, rfl⟩⟩
  rw [plan, if_neg (by simp [hok.minMatch, kMinMatch]),
    if_neg (by have := hok.windowBits; simp only [kMaxWindowBits]; omega)]
  simp only [htokens, bind_ok, tally_tokens hcoded, tallyOf, hlls, hdls,
    buildCanonicalCodes_eq hlit.le_max hlit.covered,
    buildCanonicalCodes_eq hdist.le_max hdist.covered, hlitBits, hdistBits, pure_eq_ok]

/-- Every other configuration is refused. -/
theorem plan_rejects {config : Config} (hok : ¬ Accepts config) (data : List UInt8) :
    Rejects (plan data config) := by
  rw [plan]
  by_cases hmin : config.minMatch = kMinMatch
  · rw [if_neg (not_not.mpr hmin)]
    by_cases hbits : (kMaxWindowBits : Int) < config.windowBits
    · rw [if_pos hbits]
      exact ⟨_, rfl⟩
    · rw [if_neg hbits]
      have hvalid : ¬ config.Valid := fun hv =>
        hok ⟨hv, hmin, by simp only [kMaxWindowBits] at hbits; omega⟩
      obtain ⟨what, hwhat⟩ := tokenize_rejects data hvalid
      exact ⟨what, by rw [hwhat]; rfl⟩
  · rw [if_pos hmin]
    exact ⟨_, rfl⟩

/-! ## The payload -/

/-- The bytes before the bit stream. -/
def Plan.header (p : Plan) (config : Config) : List UInt8 :=
  UInt8.ofNat config.windowBits.toNat :: UInt8.ofNat (p.hlit % 2 ^ 16 &&& 0xFF) ::
    UInt8.ofNat ((p.hlit % 2 ^ 16) >>> 8) :: UInt8.ofNat p.hdist ::
      ((p.litLenLengths.take p.hlit).map UInt8.ofNat ++ (p.distLengths.take p.hdist).map UInt8.ofNat)

theorem pushLengths_eq {lengths : LengthTable} {count : Nat} (h : count ≤ lengths.length)
    (out : List UInt8) :
    pushLengths lengths count out = .ok (out ++ (lengths.take count).map UInt8.ofNat) := by
  induction count with
  | zero => simp [pushLengths]
  | succ count ih =>
      have hlt : count < lengths.length := h
      rw [pushLengths] at ih
      rw [pushLengths, List.range_succ, List.foldlM_append, ih (Nat.le_of_lt h), bind_ok,
        List.foldlM_cons, fetch_of_lt hlt, bind_ok, List.take_succ_eq_append_getElem hlt,
        List.map_append, ← List.append_assoc]
      rfl

/-- Writing one code. -/
theorem writeBits_code {ls : LengthTable} {s : Nat} (hls : PrefixTable ls) (w : BitWriter) :
    (w.writeBits (codeOf ls s).bits (codeOf ls s).length).bits = w.bits ++ codeWord ls s := by
  have h32 : ls.getD s 0 ≤ 32 := Nat.le_trans (hls.getD_le s) (by decide)
  rw [BitWriter.writeBits_bits w (by rw [codeOf_length]; exact h32), natBits_codeOf h32]

section Emit
variable {data : List UInt8} {config : Config} {p : Plan} (hp : Planned data config p)
include hp

theorem fetch_litLenCode {s : Nat} (hs : s < kLitLenAlphabetSize) :
    fetch p.litLenCodes s = .ok (codeOf p.litLenLengths s) := by
  have hlen : s < (codeTable p.litLenLengths).length := by
    rw [length_codeTable, hp.litLen.length, tallyOf, length_histogram]
    exact hs
  rw [hp.litLenCodes, fetch_of_lt hlen, getElem_codeTable]

theorem fetch_distCode {s : Nat} (hs : s < kDistAlphabetSize) :
    fetch p.distCodes s = .ok (codeOf p.distLengths s) := by
  have hlen : s < (codeTable p.distLengths).length := by
    rw [length_codeTable, hp.dist.length, tallyOf, length_histogram]
    exact hs
  rw [hp.distCodes, fetch_of_lt hlen, getElem_codeTable]

/-- One token through the bit writer. -/
theorem writeToken_spec {t : Token} (ht : Coded t) (w : BitWriter) :
    ∃ w', p.writeToken w t = .ok w' ∧
      w'.bits = w.bits ++ tokenBits p.litLenLengths p.distLengths t := by
  have hsym := litLenSymbol_lt ht
  have hlit := hp.litLen.toPrefixTable
  have hdist := hp.dist.toPrefixTable
  unfold Plan.writeToken tokenBits
  by_cases hmatch : t.isMatch
  · obtain ⟨⟨h3, h258⟩, h1, h32768⟩ := ht hmatch
    have hlen32 : (lengthSplit t.length.toNat).extraBits ≤ 32 :=
      (lengthExtra_le _).trans (by decide)
    have hdist32 : (distanceSplit t.distance.toNat).extraBits ≤ 32 :=
      (distExtra_le _).trans (by decide)
    have hdsym : (distanceSplit t.distance.toNat).symbol < kDistAlphabetSize :=
      (distanceSplit_spec h1 h32768).1
    rw [litLenSymbol, if_pos hmatch] at hsym ⊢
    simp only [hmatch, Bool.not_true, Bool.false_eq_true, if_false, if_true, splitLength_eq h3 h258,
      splitDistance_eq h1 h32768, bind_ok, fetch_litLenCode hp hsym, fetch_distCode hp hdsym,
      pure_eq_ok]
    refine ⟨_, rfl, ?_⟩
    rw [BitWriter.writeBits_bits _ hdist32, writeBits_code hdist,
      BitWriter.writeBits_bits _ hlen32, writeBits_code hlit]
    simp only [List.append_assoc]
  · rw [litLenSymbol, if_neg hmatch] at hsym ⊢
    simp only [hmatch, Bool.not_false, if_true, bind_ok, fetch_litLenCode hp hsym, pure_eq_ok]
    exact ⟨_, rfl, writeBits_code hlit w⟩

theorem foldlM_writeToken {tokens : List Token} (h : ∀ t ∈ tokens, Coded t) (w : BitWriter) :
    ∃ w', tokens.foldlM p.writeToken w = .ok w' ∧
      w'.bits = w.bits ++ tokens.flatMap (tokenBits p.litLenLengths p.distLengths) := by
  induction tokens generalizing w with
  | nil => exact ⟨w, rfl, by simp⟩
  | cons t tokens ih =>
      obtain ⟨w₁, hw₁, hbits₁⟩ := writeToken_spec hp (h t List.mem_cons_self) w
      obtain ⟨w₂, hw₂, hbits₂⟩ := ih (fun t' h' => h t' (List.mem_cons_of_mem _ h')) w₁
      refine ⟨w₂, by rw [List.foldlM_cons, hw₁, bind_ok, hw₂], ?_⟩
      rw [hbits₂, hbits₁, List.flatMap_cons, List.append_assoc]

/-- The payload: the header, then the token bits padded to a byte. -/
theorem emit_spec (hok : Accepts config) :
    ∃ body pad, p.emit config = .ok (p.header config ++ body) ∧ pad < 8 ∧
      bytesBits body = p.bits ++ List.replicate pad false ∧
      body.length = (p.bits.length + 7) / 8 := by
  have hlit : p.hlit ≤ p.litLenLengths.length := hp.hlit ▸ (usedLength_spec _).1
  have hdist : p.hdist ≤ p.distLengths.length := hp.hdist ▸ (usedLength_spec _).1
  have hcoded : ∀ t ∈ p.tokens, Coded t := hp.tokens ▸ coded_parse hok data
  obtain ⟨w, hw, hbits⟩ := foldlM_writeToken hp hcoded { out := p.header config }
  have hgiven : w.bits = bytesBits (p.header config) ++ p.bits := by
    rw [hbits]
    simp [BitWriter.bits, Plan.bits]
  obtain ⟨body, pad, hout, hpad, hbody, hlen⟩ := BitWriter.flush_spec hgiven
  refine ⟨body, pad, ?_, hpad, hbody, hlen⟩
  have hheader : [UInt8.ofNat config.windowBits.toNat] ++ [UInt8.ofNat (p.hlit % 2 ^ 16 &&& 0xFF)]
        ++ [UInt8.ofNat ((p.hlit % 2 ^ 16) >>> 8)] ++ [UInt8.ofNat p.hdist]
        ++ (p.litLenLengths.take p.hlit).map UInt8.ofNat
        ++ (p.distLengths.take p.hdist).map UInt8.ofNat
      = p.header config := by
    simp [Plan.header]
  simp only [Plan.emit, writeU16LE, pushLengths_eq hlit, bind_ok, pushLengths_eq hdist, hheader, hw,
    pure_eq_ok, hout]

theorem length_header : (p.header config).length = kParamBytes + p.hlit + p.hdist := by
  have hlit : p.hlit ≤ p.litLenLengths.length := hp.hlit ▸ (usedLength_spec _).1
  have hdist : p.hdist ≤ p.distLengths.length := hp.hdist ▸ (usedLength_spec _).1
  simp only [Plan.header, List.length_cons, List.length_append, List.length_map,
    List.length_take, Nat.min_eq_left hlit, Nat.min_eq_left hdist, kParamBytes]
  omega

end Emit

end Compressly.Deflate

/-
# `Compressly.Deflate.Entropy` — the codes of a payload of method 3

For the tokens of a parse, what a payload spends is its tables, the extra bits and a
code for each symbol.  The two codes are held between the entropies of the two
alphabets and one bit per symbol above them; where the limit on the lengths is out
of reach, no two codes for the same tokens do better (`encode_entropy`).
-/
import Compressly.Deflate.RoundTrip
import Compressly.Huffman.Entropy

namespace Compressly.Deflate

open Bits Kraft OptimalCode Huffman LZ77

/-! ## The tokens and their symbols -/

section Tokens
variable (tokens : List Token)

/-- The parameters and the two tables, in bytes. -/
def tableBytes : Nat :=
  kParamBytes + usedLength (tallyOf tokens).litLenFreq + usedLength (tallyOf tokens).distFreq

def extraBits : Nat := (tokens.map extraBitsOf).sum

/-- The entropies of the literal/length symbols and of the distance symbols, in bits for all the
tokens together. -/
noncomputable def tokenEntropy : ℝ :=
  entropy (presentFreqs (tallyOf tokens).litLenFreq)
    + entropy (presentFreqs (tallyOf tokens).distFreq)

def matchCount : Nat := (tokens.flatMap distSymbols).length

/-- Every symbol that occurs does so often enough for the limit on the lengths to be out of
reach. -/
def Unlimited : Prop :=
  (∃ c, (∀ s ∈ tokens.map litLenSymbol, c ≤ (tokens.map litLenSymbol).count s) ∧
    tokens.length < 2584 * c) ∧
  ∃ d, (∀ s ∈ tokens.flatMap distSymbols, d ≤ (tokens.flatMap distSymbols).count s) ∧
    matchCount tokens < 2584 * d

end Tokens

theorem litLenSymbols_lt {tokens : List Token} (h : ∀ t ∈ tokens, Coded t) :
    ∀ s ∈ tokens.map litLenSymbol, s < kLitLenAlphabetSize := by
  intro s hs
  obtain ⟨t, ht, rfl⟩ := List.mem_map.mp hs
  exact litLenSymbol_lt (h t ht)

theorem distSymbolsOf_lt {tokens : List Token} (h : ∀ t ∈ tokens, Coded t) :
    ∀ s ∈ tokens.flatMap distSymbols, s < kDistAlphabetSize := by
  intro s hs
  obtain ⟨t, ht, hmem⟩ := List.mem_flatMap.mp hs
  exact distSymbols_lt (h t ht) s hmem

theorem matchCount_le (tokens : List Token) : matchCount tokens ≤ tokens.length := by
  unfold matchCount
  induction tokens with
  | nil => exact Nat.le_refl _
  | cons t tokens ih =>
      rw [List.flatMap_cons, List.length_append, List.length_cons, distSymbols]
      split
      case isTrue =>
        rw [List.length_singleton]
        omega
      case isFalse =>
        rw [List.length_nil]
        omega

/-- A table is used as far as its counts. -/
theorem usedLength_usable {freq : FreqTable} {ls : LengthTable} (h : Usable freq ls)
    (hc : Covered freq) : usedLength ls = usedLength freq := by
  rw [usedLength, usedLength, h.length]
  refine List.foldl_ext _ _ _ fun used s _ => ?_
  by_cases hs : freq.getD s 0 = 0
  · rw [if_neg (not_not.mpr hs), if_neg fun hne => (h.present_iff hc s).mp hne hs]
  · rw [if_pos hs, if_pos ((h.present_iff hc s).mpr hs)]

theorem plan_lengths {data : List UInt8} {config : Config} {p : Plan} (hok : Accepts config)
    (h : plan data config = .ok p) :
    buildLengths (tallyOf p.tokens).litLenFreq = .ok p.litLenLengths ∧
      buildLengths (tallyOf p.tokens).distFreq = .ok p.distLengths := by
  obtain ⟨examined, htokens⟩ := tokenize_eq data hok.valid
  rw [plan, if_neg (by simp [hok.minMatch, kMinMatch]),
    if_neg (by have := hok.windowBits; simp only [kMaxWindowBits]; omega)] at h
  simp only [htokens, bind_ok, tally_tokens (coded_parse hok data), pure_eq_ok] at h
  obtain ⟨lls, hlls, h⟩ := bind_eq_ok.mp h
  obtain ⟨dls, hdls, h⟩ := bind_eq_ok.mp h
  obtain ⟨litLenCodes, -, h⟩ := bind_eq_ok.mp h
  obtain ⟨distCodes, -, h⟩ := bind_eq_ok.mp h
  obtain ⟨bits, -, h⟩ := bind_eq_ok.mp h
  obtain ⟨bits', -, h⟩ := bind_eq_ok.mp h
  cases h
  exact ⟨hlls, hdls⟩

section Planned
variable {data : List UInt8} {config : Config} {p : Plan} (hp : Planned data config p)
include hp

/-- The bits of the tokens: the extra bits, and what the two tables cost. -/
theorem length_bits_eq (hok : Accepts config) :
    p.bits.length = extraBits p.tokens
      + weightedLength (tallyOf p.tokens).litLenFreq (fun s => p.litLenLengths.getD s 0)
      + weightedLength (tallyOf p.tokens).distFreq (fun s => p.distLengths.getD s 0) := by
  have hcoded : ∀ t ∈ p.tokens, Coded t := hp.tokens ▸ coded_parse hok data
  rw [Plan.bits, length_flatMap_tokenBits, tallyOf,
    weightedLength_histogram (litLenSymbols_lt hcoded),
    weightedLength_histogram (distSymbolsOf_lt hcoded)]
  rfl

theorem tableBytes_eq : tableBytes p.tokens = kParamBytes + p.hlit + p.hdist := by
  rw [tableBytes, hp.hlit, hp.hdist,
    usedLength_usable hp.litLen (covered_histogram (by decide) _),
    usedLength_usable hp.dist (covered_histogram (by decide) _)]

theorem length_tokens_le (hok : Accepts config) : p.tokens.length ≤ data.length := by
  have hdesc := parse_describes hok.valid (Nat.zero_le data.length)
  have hle := hdesc.length_le
  rwa [Nat.zero_add, List.length_map, ← hp.tokens] at hle

theorem total_eq (hok : Accepts config) (hlen : data.length < 2 ^ 59) :
    p.total = tableBytes p.tokens + (p.bits.length + 7) / 8 := by
  have hbound := length_bits_le hok hp
  rw [hp.total, tableBytes_eq hp, u64_of_lt (n := p.bits.length) (by omega),
    u64_of_lt (by omega)]

end Planned

/-! ## The payload -/

/-- A payload of method 3 against the best that codes for its tokens can do. -/
structure NearEntropy (tokens : List Token) (payload : List UInt8) : Prop where
  /-- The tables and the extra bits come on top, and nothing is saved below the entropies. -/
  above : 8 * tableBytes tokens + extraBits tokens + tokenEntropy tokens ≤ 8 * payload.length
  /-- Where the limit on the lengths is out of reach, a symbol costs at most one bit more. -/
  below : Unlimited tokens →
    (8 * payload.length : ℝ) < 8 * tableBytes tokens + extraBits tokens + tokenEntropy tokens
      + (tokens.length + matchCount tokens) + 8
  /-- Nor would other codes for the same tokens make it shorter. -/
  least : Unlimited tokens → ∀ len len' : Nat → Nat, CodeLengths (tallyOf tokens).litLenFreq len →
    CodeLengths (tallyOf tokens).distFreq len' →
      8 * payload.length < 8 * tableBytes tokens + extraBits tokens
        + weightedLength (tallyOf tokens).litLenFreq len
        + weightedLength (tallyOf tokens).distFreq len' + 8

/-- With enough of each symbol, both tables cost the least. -/
theorem thrifty_tables {data : List UInt8} {config : Config} {p : Plan} (hok : Accepts config)
    (hplan : plan data config = .ok p) (hp : Planned data config p)
    (hlen : data.length < 2 ^ 59) (hu : Unlimited p.tokens) :
    Thrifty (p.tokens.map litLenSymbol) kLitLenAlphabetSize p.litLenLengths ∧
      Thrifty (p.tokens.flatMap distSymbols) kDistAlphabetSize p.distLengths := by
  obtain ⟨⟨c, hc, hcsmall⟩, d, hd, hdsmall⟩ := hu
  obtain ⟨hlls, hdls⟩ := plan_lengths hok hplan
  have hcoded : ∀ t ∈ p.tokens, Coded t := hp.tokens ▸ coded_parse hok data
  have htokens := length_tokens_le hp hok
  have hmatches := matchCount_le p.tokens
  rw [← List.length_map litLenSymbol] at hcsmall
  refine ⟨thrifty hlls (by decide) (litLenSymbols_lt hcoded) ?_ hc hcsmall,
    thrifty hdls (by decide) (distSymbolsOf_lt hcoded) ?_ hd hdsmall⟩
  · rw [List.length_map]
    omega
  · rw [← matchCount]
    omega

/-- **The codes of method 3 and the entropy of the tokens.**  What is written is no smaller than
the tables, the extra bits and the entropies of the two alphabets, and within one bit per symbol
of them; a budget below that is refused. -/
theorem encode_entropy {data : List UInt8} {config : Config} (hok : Accepts config)
    (hdata : data ≠ []) (hlen : data.length < 2 ^ 59) (budgetBytes : Nat) :
    ∃ tokens stats payload, tokenize data config = .ok (tokens, stats) ∧
      encode data config budgetBytes = .ok payload ∧
      (payload = [] ∨ NearEntropy tokens payload) ∧
      (8 * budgetBytes ≤ 8 * tableBytes tokens + extraBits tokens + tokenEntropy tokens →
        payload = []) := by
  obtain ⟨p, hplan, hp⟩ := plan_spec hok data
  obtain ⟨p', hplan', hencode⟩ := encode_spec hok hdata
  have hsame := hplan'.symm.trans hplan
  cases hsame
  obtain ⟨examined, htokens⟩ := tokenize_eq data hok.valid
  rw [← hp.tokens] at htokens
  have htotal := total_eq hp hok hlen
  have hbits := length_bits_eq hp hok
  have hbitsR : (p.bits.length : ℝ) = extraBits p.tokens
      + weightedLength (tallyOf p.tokens).litLenFreq (fun s => p.litLenLengths.getD s 0)
      + weightedLength (tallyOf p.tokens).distFreq (fun s => p.distLengths.getD s 0) := by
    exact_mod_cast hbits
  have htotalR : (8 * p.total : ℝ) = 8 * tableBytes p.tokens
      + 8 * ((p.bits.length + 7) / 8 : Nat) := by
    rw [htotal]
    push_cast
    ring
  obtain ⟨hround, hround'⟩ := bits_of_bytes p.bits.length
  have hlower : tokenEntropy p.tokens
      ≤ weightedLength (tallyOf p.tokens).litLenFreq (fun s => p.litLenLengths.getD s 0)
        + weightedLength (tallyOf p.tokens).distFreq (fun s => p.distLengths.getD s 0) :=
    add_le_add (hp.litLen.entropy_le (covered_histogram (by decide) _))
      (hp.dist.entropy_le (covered_histogram (by decide) _))
  obtain ⟨hrefuse, hwrite⟩ := hencode budgetBytes
  rcases Nat.lt_or_ge p.total budgetBytes with hfits | hover
  · obtain ⟨payload, hpayload, -, -, hsize⟩ := hwrite hfits
    refine ⟨p.tokens, _, payload, htokens, hpayload,
      Or.inr { above := ?_, below := fun hu => ?_, least := fun hu len len' h h' => ?_ },
      fun hbudget => ?_⟩
    · rw [hsize hlen]
      linarith
    · obtain ⟨hlit, hdist⟩ := thrifty_tables hok hplan hp hlen hu
      have hlit' := hlit.le_entropy
      have hdist' := hdist.le_entropy
      rw [List.length_map] at hlit'
      rw [← matchCount] at hdist'
      rw [hsize hlen, tokenEntropy]
      simp only [tallyOf] at hbitsR ⊢
      linarith
    · obtain ⟨hlit, hdist⟩ := thrifty_tables hok hplan hp hlen hu
      have hlit' := hlit.least len h
      have hdist' := hdist.least len' h'
      rw [hsize hlen]
      simp only [tallyOf] at hbits ⊢
      omega
    · have hlt : (p.total : ℝ) < budgetBytes := by exact_mod_cast hfits
      linarith
  · exact ⟨p.tokens, _, [], htokens, hrefuse hover, Or.inl rfl, fun _ => rfl⟩

/-- A budget with room for full tables and codes of 15 bits is met. -/
theorem encode_written {data : List UInt8} {config : Config} (hok : Accepts config)
    (hdata : data ≠ []) (hlen : data.length < 2 ^ 59) {budgetBytes : Nat}
    (hroom : kParamBytes + kLitLenAlphabetSize + kDistAlphabetSize + (16 * data.length + 7) / 8
      < budgetBytes) {payload : List UInt8} (h : encode data config budgetBytes = .ok payload) :
    payload ≠ [] := by
  obtain ⟨p, hplan, hp⟩ := plan_spec hok data
  obtain ⟨p', hplan', hencode⟩ := encode_spec hok hdata
  have hsame := hplan'.symm.trans hplan
  cases hsame
  have htotal := total_eq hp hok hlen
  have hbits := length_bits_le hok hp
  have hlit := (usedLength_spec p.litLenLengths).1
  have hdist := (usedLength_spec p.distLengths).1
  rw [hp.litLen.length, tallyOf, length_histogram, ← hp.hlit] at hlit
  rw [hp.dist.length, tallyOf, length_histogram, ← hp.hdist] at hdist
  rw [tableBytes_eq hp] at htotal
  obtain ⟨payload', hwrite, hne, -⟩ := (hencode budgetBytes).2 (by omega)
  rwa [Except.ok.inj (h.symm.trans hwrite)]

/-- With room for it, six bytes are written; into less than the parameters take, nothing is. -/
theorem encode_entropy_six :
    (∃ tokens stats payload, tokenize [7, 7, 7, 7, 7, 9] {} = .ok (tokens, stats) ∧
      encode [7, 7, 7, 7, 7, 9] {} 400 = .ok payload ∧ payload ≠ [] ∧
      NearEntropy tokens payload) ∧
    encode [7, 7, 7, 7, 7, 9] {} 4 = .ok [] := by
  constructor
  · obtain ⟨tokens, stats, payload, htokens, hok, hnear, -⟩ :=
      @encode_entropy [7, 7, 7, 7, 7, 9] {} (by decide) (by decide) (by decide) 400
    have hne := encode_written (by decide) (by decide) (by decide) (by decide) hok
    exact ⟨tokens, stats, payload, htokens, hok, hne, hnear.resolve_left hne⟩
  · obtain ⟨tokens, stats, payload, -, hok, -, hrefuse⟩ :=
      @encode_entropy [7, 7, 7, 7, 7, 9] {} (by decide) (by decide) (by decide) 4
    have hlit : 0 ≤ entropy (presentFreqs (tallyOf tokens).litLenFreq) :=
      entropy_nonneg fun w hw => mem_presentFreqs hw
    have hdist : 0 ≤ entropy (presentFreqs (tallyOf tokens).distFreq) :=
      entropy_nonneg fun w hw => mem_presentFreqs hw
    have hparams : (kParamBytes : ℝ) ≤ tableBytes tokens := by
      unfold tableBytes
      push_cast
      linarith [Nat.cast_nonneg (α := ℝ) (usedLength (tallyOf tokens).litLenFreq),
        Nat.cast_nonneg (α := ℝ) (usedLength (tallyOf tokens).distFreq)]
    have hextra : (0 : ℝ) ≤ extraBits tokens := Nat.cast_nonneg _
    have hfour : (kParamBytes : ℝ) = 4 := by norm_num [kParamBytes]
    rw [hok, hrefuse ?_]
    rw [tokenEntropy]
    push_cast
    linarith

end Compressly.Deflate

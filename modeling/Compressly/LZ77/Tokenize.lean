/-
# `Compressly.LZ77.Tokenize` — the token stream and what it replays to

`parse data config p` is the parse from position `p` on: at each position the
match `chosen` there, or a literal.  The tokenizer computes it
(`tokenize_eq`), it describes the data in the sense of `Lib.Replay`
(`parse_describes`), and the replay of a description is the data
(`detokenize_of_describes`).
-/
import Compressly.LZ77.Search

namespace Compressly.LZ77

open Replay

/-! ## Tokens as items -/

/-- The item a token stands for. -/
def Token.item (t : Token) : Item UInt8 :=
  if t.isMatch then .copy t.distance.toNat t.length.toNat else .lit t.literal

/-- How many bytes the first `i` tokens cover. -/
def produced (tokens : List Token) (i : Nat) : Nat :=
  ((tokens.take i).map fun t => t.item.span).sum

theorem item_of_isMatch {t : Token} (h : t.isMatch) :
    t.item = .copy t.distance.toNat t.length.toNat :=
  if_pos h

theorem item_of_literal {t : Token} (h : ¬ t.isMatch) : t.item = .lit t.literal := if_neg h

theorem isMatch_iff {t : Token} : t.isMatch ↔ 0 < t.distance.toNat := by
  rw [Token.isMatch, bne_iff_ne, Nat.pos_iff_ne_zero, Ne, Ne, ← UInt16.toNat_inj]
  rfl

/-! ## Replay -/

/-- The copy loop is the library's copy. -/
theorem copyLoop_eq {distance : Nat} (h0 : 0 < distance) :
    ∀ (n i start : Nat) (out : List UInt8), start + i + distance = out.length →
      copyLoop start n i out = .ok (copy distance n out) := by
  intro n
  induction n with
  | zero => exact fun _ _ _ _ => rfl
  | succ n ih =>
      intro i start out hlen
      have hlt : start + i < out.length := by omega
      have hback : out.length - distance = start + i := by omega
      rw [copyLoop, fetch_of_lt hlt, bind_ok, ih (i + 1) start _ (by simp; omega), copy, hback,
        List.getElem?_eq_getElem hlt]

/-- A copy that passes the checks. -/
theorem copyBack_eq {windowSize originalSize distance length : Nat} {out : List UInt8}
    (h0 : 0 < distance) (hout : distance ≤ out.length) (hwindow : distance ≤ windowSize)
    (hsize : out.length + length ≤ originalSize) :
    copyBack windowSize originalSize distance length out = .ok (copy distance length out) := by
  rw [copyBack, if_neg (by omega), if_neg (by omega), if_neg (by omega), minus_of_le hout, bind_ok]
  exact copyLoop_eq h0 length 0 _ out (by omega)

theorem copyBack_eq_ok_iff {windowSize originalSize distance length : Nat} {out out' : List UInt8}
    (h0 : 0 < distance) :
    copyBack windowSize originalSize distance length out = .ok out' ↔
      distance ≤ out.length ∧ distance ≤ windowSize ∧ out.length + length ≤ originalSize ∧
        out' = copy distance length out := by
  by_cases hout : out.length < distance
  · rw [copyBack, if_pos hout]
    exact ⟨fun h => (by cases h), fun h => absurd hout (Nat.not_lt.mpr h.1)⟩
  by_cases hwindow : windowSize < distance
  · rw [copyBack, if_neg hout, if_pos hwindow]
    exact ⟨fun h => (by cases h), fun h => absurd hwindow (Nat.not_lt.mpr h.2.1)⟩
  by_cases hsize : originalSize < out.length + length
  · rw [copyBack, if_neg hout, if_neg hwindow, if_pos hsize]
    exact ⟨fun h => (by cases h), fun h => absurd hsize (Nat.not_lt.mpr h.2.2.1)⟩
  · rw [Nat.not_lt] at hout hwindow hsize
    rw [copyBack_eq h0 hout hwindow hsize, Except.ok.injEq, eq_comm]
    exact ⟨fun h => ⟨hout, hwindow, hsize, h⟩, fun h => h.2.2.2⟩

/-- The checks before a copy keep it inside the output on both ends. -/
theorem copyBack_decodes {distance : Nat} (h0 : 0 < distance)
    (windowSize originalSize length : Nat) (out : List UInt8) :
    Decodes (copyBack windowSize originalSize distance length out) fun out' =>
      out'.length = out.length + length ∧ out'.length ≤ originalSize := by
  by_cases hout : out.length < distance
  · rw [copyBack, if_pos hout]
    trivial
  by_cases hwindow : windowSize < distance
  · rw [copyBack, if_neg hout, if_pos hwindow]
    trivial
  by_cases hsize : originalSize < out.length + length
  · rw [copyBack, if_neg hout, if_neg hwindow, if_pos hsize]
    trivial
  · have hlen := length_copy h0 (Nat.le_of_not_lt hout) length
    rw [copyBack_eq h0 (Nat.le_of_not_lt hout) (Nat.le_of_not_lt hwindow) (Nat.le_of_not_lt hsize)]
    exact ⟨hlen, by omega⟩

/-- A token whose distance stays inside the output replays its item. -/
theorem detokenizeOne_eq {out : List UInt8} {t : Token}
    (h : t.isMatch → t.distance.toNat ≤ out.length) :
    detokenizeOne out t = .ok (play out t.item) := by
  rw [detokenizeOne]
  by_cases hmatch : t.isMatch
  · have hle := h hmatch
    rw [item_of_isMatch hmatch, if_neg (by simp [hmatch]), if_neg (by omega), minus_of_le hle,
      bind_ok, copyLoop_eq (isMatch_iff.mp hmatch) _ 0 _ out (by omega)]
    rfl
  · rw [item_of_literal hmatch, if_pos (by simpa using hmatch)]
    rfl

/-- Tokens whose copies find their source replay their items. -/
theorem foldlM_detokenizeOne {tokens : List Token} :
    ∀ {out : List UInt8}, Backed out.length (tokens.map Token.item) →
      tokens.foldlM detokenizeOne out = .ok (replay out (tokens.map Token.item)) := by
  induction tokens with
  | nil => exact fun _ => rfl
  | cons t tokens ih =>
      intro out h
      have hinside : t.isMatch → t.distance.toNat ≤ out.length := by
        intro hmatch
        have hreach := h.1
        rw [item_of_isMatch hmatch] at hreach
        exact hreach.2
      rw [List.foldlM_cons, detokenizeOne_eq hinside, bind_ok]
      exact ih (length_play h.1 ▸ h.2)

theorem detokenize_of_replaysTo {n : Nat} {x : List UInt8} {tokens : List Token}
    (h : ReplaysTo (tokens.map Token.item) n x) {expectedSize : Nat}
    (hsize : expectedSize ≤ maxSize) : detokenize tokens expectedSize = .ok x := by
  have hall : tokens.foldlM detokenizeOne [] = .ok (replay [] (tokens.map Token.item)) :=
    foldlM_detokenizeOne h.backed
  rw [detokenize, reserve_of_le hsize, bind_ok, hall, h.replay]

theorem detokenize_of_describes {x : List UInt8} {tokens : List Token}
    (h : Describes x 0 (tokens.map Token.item)) {expectedSize : Nat}
    (hsize : expectedSize ≤ maxSize) : detokenize tokens expectedSize = .ok x :=
  detokenize_of_replaysTo h.replaysTo hsize

/-- The token for an item whose numbers fit the fields. -/
def tokenOf : Item UInt8 → Token
  | .lit b => { literal := b }
  | .copy distance length => { distance := UInt16.ofNat distance, length := UInt16.ofNat length }

theorem item_tokenOf {i : Item UInt8} (h : ∀ distance length, i = .copy distance length →
    (0 < distance ∧ distance < 2 ^ 16) ∧ length < 2 ^ 16) : (tokenOf i).item = i := by
  cases i with
  | lit b => rfl
  | copy distance length =>
      obtain ⟨⟨h0, hd⟩, hl⟩ := h distance length rfl
      have hd' : (UInt16.ofNat distance).toNat = distance := UInt16.toNat_ofNat_of_lt' hd
      have hl' : (UInt16.ofNat length).toNat = length := UInt16.toNat_ofNat_of_lt' hl
      have hmatch : (tokenOf (.copy distance length)).isMatch := by
        rw [isMatch_iff]
        exact hd'.symm ▸ h0
      rw [item_of_isMatch hmatch]
      simp only [tokenOf, hd', hl']

/-! ## The parse -/

section Parse
variable (data : List UInt8) (config : Config)

/-- The token emitted at `p` for a chosen match. -/
def tokenFor (p : Nat) (m : Match) : Token :=
  if m.length = 0 then { literal := data.getD p 0 }
  else { distance := m.distance, length := m.length }

/-- The tokens from position `p` on. -/
def parse (p : Nat) : List Token :=
  if p < data.length then
    tokenFor data p (chosen data config p) ::
      parse (p + max 1 (chosen data config p).length.toNat)
  else []
termination_by data.length - p

end Parse

section Tokenize
variable {data : List UInt8} {config : Config}

theorem parse_of_lt {p : Nat} (h : p < data.length) :
    parse data config p = tokenFor data p (chosen data config p) ::
      parse data config (p + max 1 (chosen data config p).length.toNat) := by
  rw [parse, if_pos h]

theorem parse_of_le {p : Nat} (h : data.length ≤ p) : parse data config p = [] := by
  rw [parse, if_neg (Nat.not_lt.mpr h)]

/-- What the formats rely on of a token at position `start`. -/
structure WellFormed (data : List UInt8) (config : Config) (start : Nat) (t : Token) : Prop where
  length : t.isMatch →
    config.minMatch ≤ t.length.toNat ∧ (t.length.toNat : Int) ≤ config.minMatch + 255
  distance : t.isMatch →
    1 ≤ t.distance.toNat ∧ t.distance.toNat < 2 ^ config.windowBits.toNat ∧
      t.distance.toNat ≤ start
  literal : ¬ t.isMatch → data[start]? = some t.literal

/-- One round emits a well-formed token that describes the data it covers. -/
theorem tokenFor_spec (hc : config.Valid) {p : Nat} (hp : p < data.length) :
    WellFormed data config p (tokenFor data p (chosen data config p)) ∧
      Fits data p (tokenFor data p (chosen data config p)).item ∧
      (tokenFor data p (chosen data config p)).item.span
        = max 1 (chosen data config p).length.toNat := by
  have hmin := hc.toNat_minMatch
  by_cases h0 : (chosen data config p).length = 0
  · have htoken : tokenFor data p (chosen data config p) = { literal := data[p] } := by
      rw [tokenFor, if_pos h0, List.getD_eq_getElem _ _ hp]
    have hget : data[p]? = some data[p] := List.getElem?_eq_getElem hp
    rw [htoken, h0]
    exact ⟨⟨(fun h => by cases h), (fun h => by cases h), fun _ => hget⟩, hget, rfl⟩
  · obtain ⟨hmatch, hmax, hdist, hfits⟩ := isMatch_chosen hc h0
    have htoken : tokenFor data p (chosen data config p)
        = { distance := (chosen data config p).distance,
            length := (chosen data config p).length } :=
      if_neg h0
    have hpos := hfits.1
    have hle := hfits.2.1
    have hm : (tokenFor data p (chosen data config p)).isMatch := by
      rw [htoken]
      exact isMatch_iff.mpr hpos
    rw [item_of_isMatch hm, htoken]
    rw [htoken] at hm
    refine ⟨⟨fun _ => ?_, fun _ => ⟨hpos, hdist, hle⟩, fun h => absurd hm h⟩, hfits, ?_⟩
    · have := hc.minMatch
      simp only
      omega
    · simp only [Item.span]
      omega

theorem parse_describes (hc : config.Valid) {p : Nat} (hp : p ≤ data.length) :
    Describes data p ((parse data config p).map Token.item) := by
  fun_induction parse data config p with
  | case1 p hlt ih =>
      obtain ⟨-, hfits, hspan⟩ := tokenFor_spec hc hlt
      refine ⟨hfits, ?_⟩
      rw [hspan]
      refine ih ?_
      have := hfits.le
      omega
  | case2 p hge =>
      show p = data.length
      omega

/-- Every token of the parse is well formed where it stands. -/
theorem parse_wellFormed (hc : config.Valid) (p : Nat) :
    ∀ (i : Nat) (hi : i < (parse data config p).length),
      WellFormed data config (p + produced (parse data config p) i) (parse data config p)[i] := by
  intro i
  induction i generalizing p with
  | zero =>
      intro hi
      have hlt : p < data.length := by
        by_contra hge
        rw [parse_of_le (Nat.le_of_not_lt hge)] at hi
        cases hi
      simp only [parse_of_lt hlt, produced, List.take_zero, List.map_nil, List.sum_nil, Nat.add_zero,
        List.getElem_cons_zero]
      exact (tokenFor_spec hc hlt).1
  | succ i ih =>
      intro hi
      have hlt : p < data.length := by
        by_contra hge
        rw [parse_of_le (Nat.le_of_not_lt hge)] at hi
        cases hi
      obtain ⟨-, -, hspan⟩ := tokenFor_spec hc hlt
      have hrest := ih (p + max 1 (chosen data config p).length.toNat)
        (by rw [parse_of_lt hlt, List.length_cons] at hi; omega)
      rw [produced] at hrest
      simp only [parse_of_lt hlt, produced, List.take_succ_cons, List.map_cons, List.sum_cons, hspan,
        List.getElem_cons_succ, ← Nat.add_assoc]
      exact hrest

/-- The counters after the tokens from `p` on. -/
def Stats.tally (stats : Stats) (tokens : List Token) (examined : Nat) : Stats where
  literals := stats.literals + tokens.countP (!·.isMatch)
  matchCount := stats.matchCount + tokens.countP (·.isMatch)
  matchedBytes := stats.matchedBytes + ((tokens.filter (·.isMatch)).map (·.length.toNat)).sum
  candidatesExamined := examined

theorem tally_cons_literal (stats : Stats) (literal : UInt8) (tokens : List Token)
    (examined : Nat) :
    stats.tally ({ literal := literal } :: tokens) examined
      = { stats with literals := stats.literals + 1 }.tally tokens examined := by
  have hlit : ({ literal := literal } : Token).isMatch = false := rfl
  simp [Stats.tally, hlit, Nat.add_assoc, Nat.add_comm 1]

theorem tally_cons_match (stats : Stats) {t : Token} (h : t.isMatch) (tokens : List Token)
    (examined : Nat) :
    stats.tally (t :: tokens) examined
      = { stats with
          matchCount := stats.matchCount + 1
          matchedBytes := stats.matchedBytes + t.length.toNat }.tally tokens examined := by
  simp [Stats.tally, h, Nat.add_assoc, Nat.add_comm 1]

/-- Tokens of the two kinds, and the bytes they cover. -/
theorem tally_sums (tokens : List Token) (examined : Nat) :
    (({} : Stats).tally tokens examined).literals + (({} : Stats).tally tokens examined).matchCount
        = tokens.length ∧
      (({} : Stats).tally tokens examined).literals
          + (({} : Stats).tally tokens examined).matchedBytes
        = (tokens.map fun t => t.item.span).sum := by
  simp only [Stats.tally, Nat.zero_add]
  induction tokens with
  | nil => exact ⟨rfl, rfl⟩
  | cons t tokens ih =>
      obtain ⟨hcount, hbytes⟩ := ih
      by_cases h : t.isMatch
      · rw [List.map_cons, List.sum_cons, item_of_isMatch h, Item.span]
        simp only [List.countP_cons, List.filter_cons, h, List.length_cons, Bool.not_true,
          Bool.false_eq_true, if_false, if_true, List.map_cons, List.sum_cons]
        omega
      · rw [List.map_cons, List.sum_cons, item_of_literal h, Item.span]
        simp only [List.countP_cons, List.filter_cons, h, List.length_cons, Bool.not_false,
          Bool.false_eq_true, if_false, if_true]
        omega

/-- The main loop emits the parse and counts it. -/
theorem tokenizeLoop_eq (hc : config.Valid) :
    ∀ (k n p : Nat) (tokens : List Token) (stats : Stats), data.length - p ≤ k → n ≤ p + 1 →
      ∃ examined, tokenizeLoop (finderAt data config n) p tokens stats
        = .ok (tokens ++ parse data config p, stats.tally (parse data config p) examined) := by
  intro k
  induction k with
  | zero =>
      intro n p tokens stats hk hn
      refine ⟨stats.candidatesExamined, ?_⟩
      rw [tokenizeLoop, if_neg (by omega), parse_of_le (by omega), List.append_nil]
      rfl
  | succ k ih =>
      intro n p tokens stats hk hn
      by_cases hp : p < data.length
      · obtain ⟨n', examined, hchoose, hn'⟩ := chooseMatch_eq data hc hn stats
        rw [tokenizeLoop, if_pos hp, hchoose, bind_ok, parse_of_lt hp]
        simp only
        by_cases h0 : (chosen data config p).length = 0
        · have htoken : tokenFor data p (chosen data config p) = { literal := data[p] } := by
            rw [tokenFor, if_pos h0, List.getD_eq_getElem _ _ hp]
          obtain ⟨examined', hrest⟩ := ih n' (p + 1) (tokens ++ [{ literal := data[p] }])
            { { stats with candidatesExamined := examined } with literals := stats.literals + 1 }
            (by omega) hn'
          refine ⟨examined', ?_⟩
          rw [if_pos h0, fetch_of_lt hp, bind_ok, hrest, htoken, h0, List.append_assoc,
            tally_cons_literal]
          rfl
        · have htoken : tokenFor data p (chosen data config p)
              = { distance := (chosen data config p).distance,
                  length := (chosen data config p).length } :=
            if_neg h0
          have hmatch := isMatch_chosen hc h0
          have hmin := hc.toNat_minMatch.1
          have hlong := hmatch.minMatch_le
          have hm : (tokenFor data p (chosen data config p)).isMatch := by
            rw [htoken]
            exact isMatch_iff.mpr hmatch.fits.1
          rw [htoken] at hm
          obtain ⟨examined', hrest⟩ := ih n' (p + (chosen data config p).length.toNat)
            (tokens ++ [{ distance := (chosen data config p).distance,
                          length := (chosen data config p).length }])
            { { stats with candidatesExamined := examined } with
              matchCount := stats.matchCount + 1
              matchedBytes := stats.matchedBytes + (chosen data config p).length.toNat }
            (by omega) (by omega)
          refine ⟨examined', ?_⟩
          rw [if_neg h0, hrest, htoken, Nat.max_eq_right (by omega), List.append_assoc,
            tally_cons_match stats hm]
          rfl
      · refine ⟨stats.candidatesExamined, ?_⟩
        rw [tokenizeLoop, if_neg hp, parse_of_le (by omega), List.append_nil]
        rfl

/-- The tokenizer, on a configuration it accepts. -/
theorem tokenize_eq (data : List UInt8) (hc : config.Valid) :
    ∃ examined, tokenize data config
      = .ok (parse data config 0, ({} : Stats).tally (parse data config 0) examined) := by
  rw [tokenize, Config.validate_of_valid hc, bind_ok]
  split
  case isTrue hnil =>
    refine ⟨0, ?_⟩
    rw [parse_of_le (by omega)]
    rfl
  case isFalse =>
    rw [create_eq]
    exact tokenizeLoop_eq hc data.length 0 0 [] {} (by omega) (by omega)

/-- The tokenizer refuses every other configuration. -/
theorem tokenize_rejects (data : List UInt8) (hc : ¬ config.Valid) : Rejects (tokenize data config) := by
  obtain ⟨what, hwhat⟩ := Config.rejects_of_not_valid hc
  exact ⟨what, by rw [tokenize, hwhat, bind_error]⟩

/-- **LZ77 is lossless**, and its tokens stay within what the formats can write. -/
theorem tokenize_lossless (data : List UInt8) (config : Config) (h : config.validate = .ok ()) :
    ∃ tokens stats, tokenize data config = .ok (tokens, stats) ∧
      (data.length ≤ maxSize → detokenize tokens data.length = .ok data) ∧
      (∀ (i : Nat) (hi : i < tokens.length),
        WellFormed data config (produced tokens i) tokens[i]) ∧
      stats.literals + stats.matchCount = tokens.length ∧
      stats.literals + stats.matchedBytes = data.length := by
  have hc := Config.validate_eq_ok.mp h
  obtain ⟨examined, htokens⟩ := tokenize_eq data hc
  have hdesc := parse_describes hc (Nat.zero_le data.length)
  have hspan := hdesc.sum_span
  rw [Nat.zero_add, List.map_map] at hspan
  obtain ⟨hcount, hbytes⟩ := tally_sums (parse data config 0) examined
  refine ⟨_, _, htokens, detokenize_of_describes hdesc, fun i hi => ?_, hcount, ?_⟩
  · have hwf := parse_wellFormed hc 0 i hi
    rwa [Nat.zero_add] at hwf
  · rw [hbytes]
    exact hspan

/-- The theorem at the default configuration, on a run. -/
theorem tokenize_lossless_run :
    ∃ tokens stats, tokenize [7, 7, 7, 7, 7] {} = .ok (tokens, stats) ∧
      (5 ≤ maxSize → detokenize tokens 5 = .ok [7, 7, 7, 7, 7]) ∧
      (∀ (i : Nat) (hi : i < tokens.length),
        WellFormed [7, 7, 7, 7, 7] {} (produced tokens i) tokens[i]) ∧
      stats.literals + stats.matchCount = tokens.length ∧
      stats.literals + stats.matchedBytes = 5 :=
  tokenize_lossless [7, 7, 7, 7, 7] {} rfl

end Tokenize

end Compressly.LZ77

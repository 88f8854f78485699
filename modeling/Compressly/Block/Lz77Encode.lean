/-
# `Compressly.Block.Lz77Encode` — what the encoder of method 2 writes

The encoder reserves the flag byte of a group and patches it at the end of the
group; `framed` is what that comes to, and it is a stream of the decoder's
grammar (`framed_grammar`).  The payload decodes to the data and is needed to
its last byte (`encodeLz77_spec`).
-/
import Compressly.Block.Lz77Grammar

namespace Compressly.Block

open Bits Parse Loop LZ77 Replay

/-! ## The framing -/

/-- The bytes of a token. -/
def itemBytes (minMatch : Nat) (t : Token) : List UInt8 :=
  if t.isMatch then
    [UInt8.ofNat (t.distance.toNat - 1 &&& 0xFF), UInt8.ofNat ((t.distance.toNat - 1) >>> 8),
      UInt8.ofNat (t.length.toNat - minMatch)]
  else [t.literal]

/-- Groups of eight, each behind its flags. -/
def framed (minMatch : Nat) : List Token → List UInt8
  | [] => []
  | t :: ts =>
      flagByte (((t :: ts).take 8).map Token.isMatch) ::
        (((t :: ts).take 8).flatMap (itemBytes minMatch) ++ framed minMatch (ts.drop 7))
termination_by ts => ts.length
decreasing_by
  rw [List.length_drop, List.length_cons]
  omega

/-- What is still to come of a stream, with `r` tokens left in the current group. -/
def framedFrom (minMatch r : Nat) (ts : List Token) : List UInt8 :=
  (ts.take r).flatMap (itemBytes minMatch) ++ framed minMatch (ts.drop r)

theorem framed_cons (minMatch : Nat) (t : Token) (ts : List Token) :
    framed minMatch (t :: ts)
      = flagByte (((t :: ts).take 8).map Token.isMatch) :: framedFrom minMatch 8 (t :: ts) := by
  rw [framed]
  rfl

/-- A group of at most eight, and what follows a full one. -/
theorem framed_group (minMatch : Nat) {g ts : List Token} (h0 : g ≠ []) (h8 : g.length ≤ 8)
    (hfull : g.length = 8 ∨ ts = []) :
    framed minMatch (g ++ ts)
      = flagByte (g.map Token.isMatch) :: (g.flatMap (itemBytes minMatch) ++ framed minMatch ts) := by
  have htake : (g ++ ts).take 8 = g := by
    rcases hfull with h | rfl
    · rw [← h, List.take_left]
    · rw [List.append_nil, List.take_of_length_le h8]
  have hdrop : (g ++ ts).drop 8 = ts := by
    rcases hfull with h | rfl
    · rw [← h, List.drop_left]
    · rw [List.append_nil, List.drop_of_length_le h8]
  cases hg : g ++ ts with
  | nil => exact absurd (List.append_eq_nil_iff.mp hg).1 h0
  | cons t more =>
      rw [framed_cons, framedFrom, ← hg, htake, hdrop]

theorem length_framed (minMatch : Nat) (ts : List Token) :
    (framed minMatch ts).length
      = (ts.length + 7) / 8 + (ts.map fun t => (itemBytes minMatch t).length).sum := by
  induction hn : ts.length using Nat.strong_induction_on generalizing ts with
  | _ n ih =>
      cases ts with
      | nil =>
          subst hn
          rw [framed]
          rfl
      | cons t ts =>
          have hlen : ((t :: ts).drop 8).length = n - 8 := by
            rw [List.length_drop, hn]
          have hlt : n - 8 < n := by
            rw [List.length_cons] at hn
            omega
          have hrest := ih (n - 8) hlt ((t :: ts).drop 8) hlen
          have hsplit : ((t :: ts).map fun t => (itemBytes minMatch t).length).sum
              = (((t :: ts).take 8).map fun t => (itemBytes minMatch t).length).sum
                + (((t :: ts).drop 8).map fun t => (itemBytes minMatch t).length).sum := by
            rw [← List.sum_append, ← List.map_append, List.take_append_drop]
          rw [framed_cons, framedFrom, List.length_cons, List.length_append, List.length_flatMap,
            hrest, hsplit]
          have hn1 : 1 ≤ n := by
            rw [← hn, List.length_cons]
            exact Nat.succ_pos _
          omega

/-! ## Writing groups -/

/-- The writer inside a group: the flags are still a zero byte in the output. -/
structure Writing (minMatch : Nat) (base : List UInt8) (g : List Token) (w : GroupWriter) :
    Prop where
  inGroup : w.inGroup = g.length
  out : w.out = base ++ (if g = [] then [] else 0 :: g.flatMap (itemBytes minMatch))
  flagIndex : g ≠ [] → w.flagIndex = base.length
  flags : g ≠ [] → w.flags = flagByte (g.map Token.isMatch)

/-- Patching the flag byte. -/
theorem store_flags {minMatch : Nat} {base : List UInt8} {g : List Token} (hg : g ≠ [])
    {w : GroupWriter} (hw : Writing minMatch base g w) :
    store w.out w.flagIndex w.flags
      = .ok (base ++ flagByte (g.map Token.isMatch) :: g.flatMap (itemBytes minMatch)) := by
  have hout := hw.out
  rw [if_neg hg] at hout
  have hlt : base.length < w.out.length := by
    rw [hout, List.length_append, List.length_cons]
    omega
  rw [hw.flagIndex hg, hw.flags hg, store_of_lt hlt, hout, List.set_append_right _ _ le_rfl,
    Nat.sub_self, List.set_cons_zero]

section Config
variable {config : Config} (hc : config.Valid)
include hc

/-- A token, with the flag byte of its group in place. -/
theorem openGroup_push {base : List UInt8} {g : List Token} (h8 : g.length < 8)
    {w : GroupWriter} (hw : Writing config.minMatch.toNat base g w) {t : Token}
    (ht : t.isMatch → config.minMatch ≤ t.length.toNat ∧
      (t.length.toNat : Int) ≤ config.minMatch + 255) :
    (w.openGroup.push config t).inGroup = g.length ∧
      (w.openGroup.push config t).out
        = base ++ 0 :: (g ++ [t]).flatMap (itemBytes config.minMatch.toNat) ∧
      (w.openGroup.push config t).flagIndex = base.length ∧
      (w.openGroup.push config t).flags = flagByte ((g ++ [t]).map Token.isMatch) := by
  have hmin := hc.toNat_minMatch
  have hopen : w.openGroup.inGroup = g.length ∧
      w.openGroup.out = base ++ 0 :: g.flatMap (itemBytes config.minMatch.toNat) ∧
      w.openGroup.flagIndex = base.length ∧
      w.openGroup.flags = flagByte (g.map Token.isMatch) := by
    by_cases hg : g = []
    · have hzero : w.inGroup = 0 := by rw [hw.inGroup, hg, List.length_nil]
      have hout := hw.out
      rw [if_pos hg, List.append_nil] at hout
      rw [GroupWriter.openGroup, if_pos hzero, hg, hout]
      exact ⟨hzero, by simp, rfl, rfl⟩
    · have hpos : w.inGroup ≠ 0 := by
        rw [hw.inGroup]
        exact fun h => hg (List.length_eq_zero_iff.mp h)
      have hout := hw.out
      rw [if_neg hg] at hout
      rw [GroupWriter.openGroup, if_neg hpos]
      exact ⟨hw.inGroup, hout, hw.flagIndex hg, hw.flags hg⟩
  obtain ⟨hin, hout, hindex, hflags⟩ := hopen
  have hlen : (g.map Token.isMatch).length = g.length := List.length_map _
  rw [List.flatMap_append, List.map_append, List.flatMap_singleton, GroupWriter.push]
  by_cases hmatch : t.isMatch
  · have hspan := ht hmatch
    have hthird : (((t.length.toNat : Int) - config.minMatch) % 256).toNat
        = t.length.toNat - config.minMatch.toNat := by omega
    rw [if_pos hmatch]
    refine ⟨hin, ?_, hindex, ?_⟩
    · simp only [hout, itemBytes, if_pos hmatch, hthird, List.append_assoc, List.cons_append,
        List.nil_append]
    · rw [List.map_singleton, hmatch, ← flagByte_snoc_true (by omega), hlen]
      simp only [hflags, hin]
  · rw [if_neg hmatch]
    refine ⟨hin, ?_, hindex, ?_⟩
    · simp only [hout, itemBytes, if_neg hmatch, List.append_assoc, List.cons_append]
    · rw [List.map_singleton, Bool.eq_false_of_not_eq_true hmatch, flagByte_snoc_false (by omega)]
      exact hflags

/-- The writing loop and the patch behind it, from inside a group. -/
theorem foldlM_writeToken {tokens : List Token} (ht : ∀ t ∈ tokens, t.isMatch →
      config.minMatch ≤ t.length.toNat ∧ (t.length.toNat : Int) ≤ config.minMatch + 255) :
    ∀ (base : List UInt8) (g : List Token) (w : GroupWriter), g.length < 8 →
      Writing config.minMatch.toNat base g w →
      (do
        let w ← tokens.foldlM (GroupWriter.writeToken config) w
        if w.inGroup ≠ 0 then store w.out w.flagIndex w.flags else pure w.out)
      = .ok (base ++ framed config.minMatch.toNat (g ++ tokens)) := by
  induction tokens with
  | nil =>
      intro base g w h8 hw
      rw [List.foldlM_nil, pure_eq_ok, bind_ok, hw.inGroup, List.append_nil]
      by_cases hg : g = []
      · have hout := hw.out
        rw [if_pos hg, List.append_nil] at hout
        rw [hg, if_neg (by simp), hout, framed, List.append_nil]
        rfl
      · have hgroup := framed_group config.minMatch.toNat hg (Nat.le_of_lt h8)
          (Or.inr (rfl : ([] : List Token) = []))
        rw [framed, List.append_nil, List.append_nil] at hgroup
        rw [if_pos (fun h => hg (List.length_eq_zero_iff.mp h)), store_flags hg hw, hgroup]
  | cons t tokens ih =>
      intro base g w h8 hw
      have hrest := ih fun t' h' => ht t' (List.mem_cons_of_mem _ h')
      obtain ⟨hin, hout, hindex, hflags⟩ := openGroup_push hc h8 hw (ht t List.mem_cons_self)
      have hne : g ++ [t] ≠ [] := by simp
      have hsplit : g ++ t :: tokens = g ++ [t] ++ tokens := by simp
      have hwriting : Writing config.minMatch.toNat base (g ++ [t])
          { w.openGroup.push config t with inGroup := g.length + 1 } :=
        { inGroup := by rw [List.length_append, List.length_singleton]
          out := by rw [if_neg hne]; exact hout
          flagIndex := fun _ => hindex
          flags := fun _ => hflags }
      rw [List.foldlM_cons, GroupWriter.writeToken, GroupWriter.closeGroup, hin, hsplit]
      by_cases hfull : g.length + 1 = 8
      · have hlen : (g ++ [t]).length = 8 := by rw [List.length_append, List.length_singleton, hfull]
        rw [if_pos hfull, store_flags hne hwriting, framed_group _ hne hlen.le (Or.inl hlen)]
        refine (hrest (base ++ flagByte ((g ++ [t]).map Token.isMatch) ::
          (g ++ [t]).flatMap (itemBytes config.minMatch.toNat)) [] _ (by decide) ?_).trans ?_
        · exact
            { inGroup := rfl
              out := by simp
              flagIndex := fun h => absurd rfl h
              flags := fun h => absurd rfl h }
        · simp
      · rw [if_neg hfull, pure_eq_ok]
        exact hrest _ _ _ (by rw [List.length_append, List.length_singleton]; omega) hwriting

end Config

/-! ## Reading them back -/

/-- A token that can be written, and read back within the window. -/
structure Fitting (params : Lz77Params) (t : Token) : Prop where
  length : t.isMatch → params.minMatch ≤ t.length.toNat ∧ t.length.toNat ≤ params.minMatch + 255
  window : t.isMatch → t.distance.toNat ≤ params.windowSize

theorem isCopy_item (t : Token) : isCopy t.item = t.isMatch := by
  cases h : t.isMatch with
  | false =>
      rw [item_of_literal (by simp [h])]
      rfl
  | true =>
      rw [item_of_isMatch h]
      rfl

theorem itemBytes_eq_spelled (minMatch : Nat) (t : Token) :
    itemBytes minMatch t = spelled minMatch t.item := by
  by_cases hmatch : t.isMatch
  · have hlow : UInt8.ofNat (t.distance.toNat - 1 &&& 0xFF) = UInt8.ofNat (t.distance.toNat - 1) := by
      rw [Nat.and_two_pow_sub_one_eq_mod _ 8]
      exact UInt8.toNat_inj.mp (by simp)
    rw [itemBytes, if_pos hmatch, item_of_isMatch hmatch, hlow, Nat.shiftRight_eq_div_pow]
    rfl
  · rw [itemBytes, if_neg hmatch, item_of_literal hmatch]
    rfl

/-- What the encoder writes is in the grammar. -/
theorem framed_grammar (minMatch : Nat) (tokens : List Token) :
    Framed minMatch (tokens.map Token.item) (framed minMatch tokens) := by
  fun_induction framed minMatch tokens with
  | case1 => exact .nil
  | case2 t ts ih =>
      have hsplit : (t :: ts).map Token.item
          = ((t :: ts).take 8).map Token.item ++ (ts.drop 7).map Token.item := by
        rw [← List.map_append]
        exact congrArg (List.map Token.item) (List.take_append_drop 8 (t :: ts)).symm
      have hbytes : ((t :: ts).take 8).flatMap (itemBytes minMatch)
          = (((t :: ts).take 8).map Token.item).flatMap (spelled minMatch) := by
        rw [List.flatMap_map]
        exact List.flatMap_congr fun t _ => itemBytes_eq_spelled minMatch t
      rw [hsplit, hbytes]
      refine .group (by simp) (by simp) ?_ ?_ ih
      · rw [List.length_map, List.map_eq_nil_iff]
        rcases Nat.lt_or_ge ts.length 7 with hlt | hge
        · exact .inr (List.drop_eq_nil_of_le hlt.le)
        · exact .inl (List.length_take_of_le (Nat.succ_le_succ hge))
      · have hflags : (((t :: ts).take 8).map Token.item).map isCopy
            = ((t :: ts).take 8).map Token.isMatch := by
          rw [List.map_map]
          exact List.map_congr_left fun t _ => isCopy_item t
        have hlen : (((t :: ts).take 8).map Token.isMatch).length ≤ 8 := by
          rw [List.length_map]
          exact List.length_take_le _ _
        rw [hflags, byteBits_flagByte hlen]
        exact List.prefix_append _ _

/-- A framed parse decodes, and nothing is left over. -/
theorem decodeLz77Stream_framed {windowBits minMatch : UInt8}
    (hw : 8 ≤ windowBits.toNat ∧ windowBits.toNat ≤ 16)
    (hm : 3 ≤ minMatch.toNat ∧ minMatch.toNat ≤ 8) {x : List UInt8} {tokens : List Token}
    (hdesc : Describes x 0 (tokens.map Token.item))
    (hfit : ∀ t ∈ tokens, Fitting ⟨2 ^ windowBits.toNat, minMatch.toNat⟩ t) :
    ∃ c, decodeLz77Stream (windowBits :: minMatch :: framed minMatch.toNat tokens) x.length
        = .ok (x, c) ∧ c.rest = [] := by
  have hallow : ∀ i ∈ tokens.map Token.item,
      Lz77Params.Allows ⟨2 ^ windowBits.toNat, minMatch.toNat⟩ i := by
    intro i hi
    obtain ⟨t, ht, rfl⟩ := List.mem_map.mp hi
    by_cases hmatch : t.isMatch
    · rw [item_of_isMatch hmatch]
      exact ⟨⟨isMatch_iff.mp hmatch, (hfit t ht).window hmatch⟩, (hfit t ht).length hmatch⟩
    · rw [item_of_literal hmatch]
      trivial
  refine decodeLz77Stream_eq_ok_iff.mpr ⟨_, _, _, ⟨windowBits, minMatch, hw, hm, rfl, ?_⟩,
    framed_grammar minMatch.toNat tokens, hallow, hdesc.replaysTo⟩
  rw [List.append_nil]

/-! ## The payload -/

theorem foldl_counts (tokens : List Token) (n : Nat × Nat) :
    tokens.foldl
        (fun (n : Nat × Nat) token => if token.isMatch then (n.1, n.2 + 1) else (n.1 + 1, n.2)) n
      = (n.1 + tokens.countP (!·.isMatch), n.2 + tokens.countP (·.isMatch)) := by
  induction tokens generalizing n with
  | nil => rfl
  | cons t tokens ih =>
      rw [List.foldl_cons, ih, List.countP_cons, List.countP_cons]
      by_cases h : t.isMatch
      · simp [h, Nat.add_assoc, Nat.add_comm 1]
      · simp [h, Nat.add_assoc, Nat.add_comm 1]

/-- The bytes of the tokens, by kind. -/
theorem sum_itemBytes (minMatch : Nat) (tokens : List Token) :
    (tokens.map fun t => (itemBytes minMatch t).length).sum
      = tokens.countP (!·.isMatch) + 3 * tokens.countP (·.isMatch) := by
  induction tokens with
  | nil => rfl
  | cons t tokens ih =>
      rw [List.map_cons, List.sum_cons, ih, List.countP_cons, List.countP_cons, itemBytes]
      by_cases h : t.isMatch
      · simp [h]
        omega
      · simp [h]
        omega

/-- The encoder writes nothing exactly when the predicted size reaches the budget;
otherwise it writes a payload that decodes to the data, of the predicted size. -/
theorem encodeLz77_spec {config : Config} (hc : config.Valid) (data : List UInt8) :
    ∃ p, planLz77 data config = .ok p ∧ ∀ budgetBytes,
      (budgetBytes ≤ p.total → encodeLz77 data config budgetBytes = .ok []) ∧
      (p.total < budgetBytes → ∃ payload, encodeLz77 data config budgetBytes = .ok payload ∧
        payload ≠ [] ∧ Tight (fun payload => decodeLz77 payload data.length) data payload ∧
        payload.length = p.total) := by
  have hmin := hc.toNat_minMatch
  have hwin := hc.windowBits
  obtain ⟨examined, htokens⟩ := tokenize_eq data hc
  have hdesc := parse_describes hc (Nat.zero_le data.length)
  have hwf : ∀ t ∈ parse data config 0, ∃ start, WellFormed data config start t := by
    intro t ht
    obtain ⟨i, hi, rfl⟩ := List.getElem_of_mem ht
    exact ⟨_, parse_wellFormed hc 0 i hi⟩
  generalize parse data config 0 = tokens at htokens hdesc hwf
  have hplan : planLz77 data config = .ok
      { tokens := tokens
        total := kLz77ParamBytes + (tokens.length + 7) / 8 + tokens.countP (!·.isMatch)
          + 3 * tokens.countP (·.isMatch) } := by
    simp only [planLz77, htokens, bind_ok, foldl_counts, Nat.zero_add, pure_eq_ok]
  refine ⟨_, hplan, fun budgetBytes => ⟨fun h => ?_, fun h => ?_⟩⟩
  · rw [encodeLz77, hplan, bind_ok, if_pos h]
    rfl
  · have hwinByte : (UInt8.ofNat config.windowBits.toNat).toNat = config.windowBits.toNat :=
      UInt8.toNat_ofNat_of_lt' (by simp only [UInt8.size]; omega)
    have hminByte : (UInt8.ofNat config.minMatch.toNat).toNat = config.minMatch.toNat :=
      UInt8.toNat_ofNat_of_lt' (by simp only [UInt8.size]; omega)
    have hfit : ∀ t ∈ tokens, Fitting ⟨2 ^ (UInt8.ofNat config.windowBits.toNat).toNat,
        (UInt8.ofNat config.minMatch.toNat).toNat⟩ t := by
      intro t ht
      obtain ⟨start, hw⟩ := hwf t ht
      rw [hwinByte, hminByte]
      refine ⟨fun hmatch => ?_, fun hmatch => Nat.le_of_lt (hw.distance hmatch).2.1⟩
      have hlen := hw.length hmatch
      show config.minMatch.toNat ≤ _ ∧ _ ≤ config.minMatch.toNat + 255
      omega
    obtain ⟨c, hstream, hleft⟩ := decodeLz77Stream_framed (by omega) (by omega) hdesc hfit
    rw [hminByte] at hstream
    have hemit := foldlM_writeToken hc (fun t ht hmatch => (hwf t ht).elim fun _ hw => hw.length hmatch)
      [UInt8.ofNat config.windowBits.toNat, UInt8.ofNat config.minMatch.toNat] []
      { out := [UInt8.ofNat config.windowBits.toNat, UInt8.ofNat config.minMatch.toNat] } (by decide)
      { inGroup := rfl
        out := (List.append_nil _).symm
        flagIndex := fun h => absurd rfl h
        flags := fun h => absurd rfl h }
    rw [List.nil_append] at hemit
    refine ⟨_, ?_, List.cons_ne_nil _ _, tight_of_decodeLz77Stream hstream hleft, ?_⟩
    · rw [encodeLz77, hplan, bind_ok, if_neg (Nat.not_le.mpr h)]
      exact hemit
    · rw [List.length_cons, List.length_cons, length_framed, sum_itemBytes]
      show _ = 2 + (tokens.length + 7) / 8 + tokens.countP (!·.isMatch)
        + 3 * tokens.countP (·.isMatch)
      omega

/-- Any other configuration is refused. -/
theorem encodeLz77_rejects (data : List UInt8) {config : Config} (hc : ¬ config.Valid)
    (budgetBytes : Nat) : Rejects (encodeLz77 data config budgetBytes) := by
  obtain ⟨what, hwhat⟩ := tokenize_rejects data hc
  exact ⟨what, by rw [encodeLz77, planLz77, hwhat]; rfl⟩

end Compressly.Block

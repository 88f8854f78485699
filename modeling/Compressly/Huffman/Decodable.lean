/-
# `Compressly.Huffman.Decodable` — canonical codes and the trie that decodes them

For every table of lengths up to 15 that satisfies the Kraft inequality, complete
or not, and that the loops run over in full:

    the codes    fit their lengths, none begins another, and left-aligned they
                 increase with (length, symbol)
    the trie     a code leads past inner nodes to the leaf of its symbol; what
                 begins no code and no code begins leads to a missing edge
    decoding     takes a sequence of codes apart, whatever follows it

`Decodable` is the list of these facts.  It holds of no other table: a symbol the
loops do not reach has a length but no code (`canonical_decodable_iff`).
-/
import Compressly.Huffman.Decode

namespace Compressly.Huffman

open Bits Kraft Parse

/-- A code as a bit string, in the order it is written. -/
def Code.word (c : Code) : List Bool := natBits c.length c.bits

/-- Steps from a node along a bit string: the node at its end, or none at a missing edge. -/
def DecodeTree.follow (tree : DecodeTree) : Nat → List Bool → Result (Option Nat)
  | node, [] => pure (some node)
  | node, bit :: bits => do
      match ← tree.step node bit with
      | none => pure none
      | some next => tree.follow next bits

/-- `count` symbols, one after the other, each from the root. -/
def decodeSymbols (tree : DecodeTree) : Nat → BitReader → Result (List Nat × BitReader)
  | 0, r => pure ([], r)
  | count + 1, r => do
      let (s, r) ← decodeSymbol tree r
      let (ss, r) ← decodeSymbols tree count r
      pure (s :: ss, r)

structure Decodable (ls : LengthTable) (codes : CodeTable) (tree : DecodeTree) : Prop where
  size : codes.length = ls.length
  /-- Codes fit their lengths, which are those of the table. -/
  fits : ∀ {s : Nat} {c : Code}, codes[s]? = some c → c.length = ls.getD s 0 ∧ c.bits < 2 ^ c.length
  prefixFree : ∀ {s t : Nat} {c d : Code}, codes[s]? = some c → codes[t]? = some d →
    c.length ≠ 0 → d.length ≠ 0 → c.word <+: d.word → s = t
  /-- Left-aligned to 15 bits, codes increase with (length, symbol). -/
  increasing : ∀ {s t : Nat} {c d : Code}, codes[s]? = some c → codes[t]? = some d →
    c.length ≠ 0 → d.length ≠ 0 → (c.length < d.length ∨ c.length = d.length ∧ s < t) →
    c.bits * 2 ^ (kMaxCodeLength - c.length) < d.bits * 2 ^ (kMaxCodeLength - d.length)
  leaf : ∀ {s : Nat} {c : Code}, codes[s]? = some c → c.length ≠ 0 →
    ∃ node, tree.follow DecodeTree.kRoot c.word = .ok (some node) ∧
      tree.leafSymbol node = .ok (some s)
  inner : ∀ {s : Nat} {c : Code} {p : List Bool}, codes[s]? = some c → c.length ≠ 0 →
    p <+: c.word → p ≠ c.word →
    ∃ node, tree.follow DecodeTree.kRoot p = .ok (some node) ∧ tree.leafSymbol node = .ok none
  sequence : ∀ {ss : List Nat} {r : BitReader} {rest : List Bool}, (∀ s ∈ ss, ls.getD s 0 ≠ 0) →
    r.bits = (ss.flatMap fun s => (codes.getD s {}).word) ++ rest →
    ∃ r', decodeSymbols tree ss.length r = .ok (ss, r') ∧ r'.bits = rest
  missing : ∀ {p : List Bool}, p ≠ [] →
    (∀ (s : Nat) (c : Code), codes[s]? = some c → c.length ≠ 0 →
      ¬ c.word <+: p ∧ ¬ (p <+: c.word ∧ p ≠ c.word)) →
    tree.follow DecodeTree.kRoot p = .ok none

/-! ## The code table -/

section Codes
variable {ls : LengthTable} (hls : PrefixTable ls)

theorem getElem?_codeTable {s : Nat} {c : Code} :
    (codeTable ls)[s]? = some c ↔ s < ls.length ∧ c = codeOf ls s := by
  rw [codeTable, List.getElem?_map]
  by_cases hs : s < ls.length
  · rw [List.getElem?_range hs, Option.map_some, Option.some.injEq]
    exact ⟨fun h => ⟨hs, h.symm⟩, fun h => h.2.symm⟩
  · rw [List.getElem?_eq_none (by simpa using hs)]
    refine ⟨fun h => ?_, fun h => absurd h.1 hs⟩
    cases h

include hls

theorem word_codeOf (s : Nat) : (codeOf ls s).word = codeWord ls s :=
  natBits_codeOf ((hls.getD_le s).trans (by decide))

/-- The reduction to 32 bits does nothing. -/
theorem bits_codeOf {s : Nat} (hs : ls.getD s 0 ≠ 0) :
    (codeOf ls s).bits = canonical ls s ∧ canonical ls s < 2 ^ ls.getD s 0 := by
  have hlt := lt_length_of_getD hs
  have hget := List.getD_eq_getElem ls 0 hlt
  have hcan := canonical_lt hls.le_max hls.kraft_le hlt (hget ▸ hs)
  rw [← hget] at hcan
  have h32 : 2 ^ ls.getD s 0 ≤ 2 ^ 32 :=
    Nat.pow_le_pow_right (by decide) ((hls.getD_le s).trans (by decide))
  rw [codeOf_present hs]
  exact ⟨Nat.mod_eq_of_lt (by omega), hcan⟩

theorem codeOf_lt (s : Nat) : (codeOf ls s).bits < 2 ^ (codeOf ls s).length := by
  by_cases hs : ls.getD s 0 = 0
  · rw [codeOf_absent hs]
    decide
  · rw [codeOf_length, (bits_codeOf hls hs).1]
    exact (bits_codeOf hls hs).2

theorem codeOf_increasing {s t : Nat} (hs : ls.getD s 0 ≠ 0) (ht : ls.getD t 0 ≠ 0)
    (hst : ls.getD s 0 < ls.getD t 0 ∨ ls.getD s 0 = ls.getD t 0 ∧ s < t) :
    (codeOf ls s).bits * 2 ^ (kMaxCodeLength - ls.getD s 0)
      < (codeOf ls t).bits * 2 ^ (kMaxCodeLength - ls.getD t 0) := by
  have hslt := lt_length_of_getD hs
  have htlt := lt_length_of_getD ht
  have htle := hls.getD_le t
  rw [(bits_codeOf hls hs).1, (bits_codeOf hls ht).1]
  rw [List.getD_eq_getElem _ _ hslt] at *
  rw [List.getD_eq_getElem _ _ htlt] at *
  have hblock := canonical_block hslt htlt hs hst
  have hsplit : kMaxCodeLength - ls[s] = (ls[t] - ls[s]) + (kMaxCodeLength - ls[t]) := by omega
  rw [hsplit, Nat.pow_add, ← Nat.mul_assoc]
  refine Nat.mul_lt_mul_of_pos_right ?_ (Nat.two_pow_pos _)
  calc canonical ls s * 2 ^ (ls[t] - ls[s])
      < (canonical ls s + 1) * 2 ^ (ls[t] - ls[s]) :=
        Nat.mul_lt_mul_of_pos_right (Nat.lt_succ_self _) (Nat.two_pow_pos _)
    _ ≤ canonical ls t := hblock

end Codes

/-! ## The trie -/

section Walks
variable {ls : LengthTable} {tree : DecodeTree} (ht : Trie tree.nodes (entriesOf ls))

include ht

theorem follow_eq {p : List Bool} {node : Nat} (hp : walk tree.nodes p = some node)
    (bits : List Bool) : tree.follow node bits = .ok (walk tree.nodes (p ++ bits)) := by
  induction bits generalizing p node with
  | nil => rw [List.append_nil, hp, DecodeTree.follow, pure_eq_ok]
  | cons bit bits ih =>
      have hstep : tree.step node bit = .ok (edge tree.nodes node bit) := by
        rw [DecodeTree.step, fetch_of_lt (ht.walk_lt hp), edge,
          List.getElem?_eq_getElem (ht.walk_lt hp)]
        rfl
      have hsnoc : walk tree.nodes (p ++ [bit]) = edge tree.nodes node bit := by
        rw [walk_snoc, hp, Option.bind_some]
      rw [DecodeTree.follow, hstep, bind_ok]
      cases hedge : edge tree.nodes node bit with
      | none =>
          rw [hedge] at hsnoc
          cases hwalk : walk tree.nodes (p ++ bit :: bits) with
          | none => rfl
          | some j =>
              have hsome := walk_isSome_of_prefix
                (⟨bits, by simp⟩ : p ++ [bit] <+: p ++ bit :: bits) (by rw [hwalk]; rfl)
              rw [hsnoc] at hsome
              cases hsome
      | some next =>
          rw [hedge] at hsnoc
          simp only []
          rw [ih hsnoc, List.append_assoc, List.singleton_append]

theorem follow_root (p : List Bool) :
    tree.follow DecodeTree.kRoot p = .ok (walk tree.nodes p) :=
  follow_eq ht (walk_nil _) p

theorem leafSymbol_eq {p : List Bool} {node : Nat} (hp : walk tree.nodes p = some node) :
    tree.leafSymbol node = .ok ((entriesOf ls).lookup p) := by
  have hlt := ht.walk_lt hp
  rw [← ht.sym hp, DecodeTree.leafSymbol, fetch_of_lt hlt, symbolAt, List.getElem?_eq_getElem hlt]
  rfl

/-- A path along a code word exists, to its end. -/
theorem exists_walk {s : Nat} (hs : ls.getD s 0 ≠ 0) {p : List Bool} (hp : p <+: codeWord ls s) :
    ∃ node, walk tree.nodes p = some node :=
  Option.isSome_iff_exists.mp
    ((ht.dom p).mpr (Or.inr ⟨(codeWord ls s, s), mem_entriesOf.mpr ⟨hs, rfl⟩, hp⟩))

theorem walk_missing {p : List Bool} (hp : p ≠ [])
    (h : ∀ s, ls.getD s 0 ≠ 0 → ¬ p <+: codeWord ls s) : walk tree.nodes p = none := by
  rw [Option.eq_none_iff_forall_ne_some]
  intro node hnode
  rcases (ht.dom p).mp (by rw [hnode]; rfl) with hnil | ⟨e, he, hpre⟩
  · exact hp hnil
  · obtain ⟨hs, hword⟩ := mem_entriesOf.mp he
    exact h e.2 hs (hword ▸ hpre)

theorem decodeSymbols_codeWords (hls : PrefixTable ls) {ss : List Nat} {r : BitReader}
    {rest : List Bool} (hss : ∀ s ∈ ss, ls.getD s 0 ≠ 0)
    (hr : r.bits = ss.flatMap (codeWord ls) ++ rest) :
    ∃ r', decodeSymbols tree ss.length r = .ok (ss, r') ∧ r'.bits = rest := by
  induction ss generalizing r with
  | nil => exact ⟨r, rfl, by simpa using hr⟩
  | cons s ss ih =>
      rw [List.flatMap_cons, List.append_assoc] at hr
      have hfirst := symbol_codeWord ht hls (hss s List.mem_cons_self)
        (ss.flatMap (codeWord ls) ++ rest)
      rw [← hr] at hfirst
      obtain ⟨r₁, hread, hr₁⟩ := (reads_decodeSymbol tree).of_ok hfirst
      obtain ⟨r', hmore, hr'⟩ := ih (fun t ht => hss t (List.mem_cons_of_mem _ ht)) hr₁
      refine ⟨r', ?_, hr'⟩
      rw [List.length_cons, decodeSymbols, hread, bind_ok]
      simp only []
      rw [hmore]
      rfl

end Walks

/-! ## The theorem -/

/-- Canonical codes are decodable, if the loops run over the whole table. -/
theorem Covered.decodable {ls : LengthTable} (hcov : Covered ls) (hls : PrefixTable ls) :
    ∃ codes tree, buildCanonicalCodes ls = .ok codes ∧ DecodeTree.build ls = .ok tree ∧
      Decodable ls codes tree := by
  obtain ⟨tree, hbuild, ht⟩ := build_trie hls.le_max hcov
  have hword := word_codeOf hls
  -- a code of the table, with its symbol
  have hcode : ∀ {s : Nat} {c : Code}, (codeTable ls)[s]? = some c → c.length ≠ 0 →
      c = codeOf ls s ∧ ls.getD s 0 ≠ 0 := by
    intro s c hc h0
    obtain ⟨-, rfl⟩ := getElem?_codeTable.mp hc
    rw [codeOf_length] at h0
    exact ⟨rfl, h0⟩
  refine ⟨codeTable ls, tree, buildCanonicalCodes_eq hls.le_max hcov, hbuild, ?_⟩
  constructor
  case size => exact length_codeTable ls
  case fits =>
    intro s c hc
    obtain ⟨-, rfl⟩ := getElem?_codeTable.mp hc
    exact ⟨codeOf_length ls s, codeOf_lt hls s⟩
  case prefixFree =>
    intro s t c d hc hd hc0 hd0 hpre
    obtain ⟨rfl, hs⟩ := hcode hc hc0
    obtain ⟨rfl, ht⟩ := hcode hd hd0
    rw [hword, hword] at hpre
    exact hls.prefixFree hs ht hpre
  case increasing =>
    intro s t c d hc hd hc0 hd0 hst
    obtain ⟨rfl, hs⟩ := hcode hc hc0
    obtain ⟨rfl, ht⟩ := hcode hd hd0
    rw [codeOf_length, codeOf_length] at *
    exact codeOf_increasing hls hs ht hst
  case leaf =>
    intro s c hc h0
    obtain ⟨rfl, hs⟩ := hcode hc h0
    rw [hword, follow_root ht]
    obtain ⟨node, hnode⟩ := exists_walk ht hs (List.prefix_refl _)
    exact ⟨node, by rw [hnode], by
      rw [leafSymbol_eq ht hnode, (lookup_eq_some_iff hls).mpr ⟨hs, rfl⟩]⟩
  case inner =>
    intro s c p hc h0 hpre hne
    obtain ⟨rfl, hs⟩ := hcode hc h0
    rw [hword] at hpre hne
    rw [follow_root ht]
    obtain ⟨node, hnode⟩ := exists_walk ht hs hpre
    refine ⟨node, by rw [hnode], ?_⟩
    rw [leafSymbol_eq ht hnode, Except.ok.injEq, Option.eq_none_iff_forall_ne_some]
    intro t hlook
    obtain ⟨ht0, rfl⟩ := (lookup_eq_some_iff hls).mp hlook
    exact hne (by rw [hls.prefixFree ht0 hs hpre])
  case sequence =>
    intro ss r rest hss hr
    have hwords : (ss.flatMap fun s => ((codeTable ls).getD s {}).word)
        = ss.flatMap (codeWord ls) := by
      refine List.flatMap_congr fun s hs => ?_
      have hlt := lt_length_of_getD (hss s hs)
      rw [List.getD_eq_getElem _ _ (by rwa [length_codeTable]), getElem_codeTable, hword]
    rw [hwords] at hr
    exact decodeSymbols_codeWords ht hls hss hr
  case missing =>
    intro p hp h
    rw [follow_root ht, walk_missing ht hp fun s hs hpre => ?_]
    have hlt := lt_length_of_getD hs
    obtain ⟨hnot, hproper⟩ := h s (codeOf ls s) (getElem?_codeTable.mpr ⟨hlt, rfl⟩)
      (by rwa [codeOf_length])
    rw [hword] at hnot hproper
    by_cases heq : p = codeWord ls s
    · exact hnot (heq ▸ List.prefix_refl _)
    · exact hproper ⟨hpre, heq⟩

/-- Past the bound of the loops a symbol has no code, whatever its length. -/
theorem Decodable.covered {ls : LengthTable} {codes : CodeTable} {tree : DecodeTree}
    (hle : ∀ l ∈ ls, l ≤ kMaxCodeLength) (hok : buildCanonicalCodes ls = .ok codes)
    (h : Decodable ls codes tree) : Covered ls := by
  intro s hs
  refine Nat.lt_of_not_le fun hge => hs ?_
  rw [buildCanonicalCodes_take hle, Except.ok.injEq] at hok
  have hslt := lt_length_of_getD hs
  have hnone : codes[s]? = some {} := by
    have hpast : s - alphabetSize ls.length < ls.length - alphabetSize ls.length := by omega
    rw [← hok, List.getElem?_append_right (by simpa using hge), List.length_map,
      List.length_range, List.getElem?_replicate, if_pos hpast]
  exact (h.fits hnone).1.symm

/-- **When canonical codes are decodable.** -/
theorem canonical_decodable_iff {ls : LengthTable} (hle : ∀ l ∈ ls, l ≤ kMaxCodeLength)
    (hkraft : kraft kMaxCodeLength (ls.filter (· ≠ 0)) ≤ 2 ^ kMaxCodeLength) :
    (∃ codes tree, buildCanonicalCodes ls = .ok codes ∧ DecodeTree.build ls = .ok tree ∧
      Decodable ls codes tree) ↔ Covered ls := by
  constructor
  · rintro ⟨codes, tree, hcodes, -, hdec⟩
    exact hdec.covered hle hcodes
  · exact fun hcov => hcov.decodable ⟨hle, hkraft⟩

/-- An incomplete table, with a symbol that does not occur. -/
theorem canonical_decodable_iff_run :
    (∃ codes tree, buildCanonicalCodes [2, 0, 1, 3] = .ok codes ∧
      DecodeTree.build [2, 0, 1, 3] = .ok tree ∧ Decodable [2, 0, 1, 3] codes tree) ↔
    Covered [2, 0, 1, 3] :=
  canonical_decodable_iff (by decide) (by decide)

/-- A table of `2 ^ 31` entries with a single code of one bit. -/
theorem canonical_one_zeros :
    kraft kMaxCodeLength ((1 :: List.replicate (2 ^ 31 - 1) 0).filter (· ≠ 0))
        ≤ 2 ^ kMaxCodeLength ∧
      ¬ ∃ codes tree, buildCanonicalCodes (1 :: List.replicate (2 ^ 31 - 1) 0) = .ok codes ∧
        DecodeTree.build (1 :: List.replicate (2 ^ 31 - 1) 0) = .ok tree ∧
        Decodable (1 :: List.replicate (2 ^ 31 - 1) 0) codes tree := by
  refine ⟨?_, ?_⟩
  · rw [List.filter_cons_of_pos (by decide), List.filter_replicate]
    decide
  · rintro ⟨codes, tree, hcodes, -, hdec⟩
    refine not_covered_one_zeros (hdec.covered (fun l hl => ?_) hcodes)
    rcases List.mem_cons.mp hl with rfl | hl
    · decide
    · rw [List.eq_of_mem_replicate hl]
      exact Nat.zero_le _

end Compressly.Huffman

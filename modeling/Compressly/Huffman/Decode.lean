/-
# `Compressly.Huffman.Decode` — decoding one symbol

`decodeSymbol` is the `do … while` loop that both entropy decoders run: walk
the trie one bit at a time until a leaf.  As a parser of bit strings it is
`symbolFrom tree kRoot`.

    on any trie         it stays inside the trie, consumes at least one bit, and
                        returns a symbol of the table or throws `CorruptInput`
                        (`symbolFrom_decodes`)
    on a prefix table   it takes the code word of a symbol off the front of the
                        bit string and returns that symbol (`symbol_codeWord`)
-/
import Compressly.Huffman.Trie

namespace Compressly.Huffman

open Bits Kraft Parse

/-- One round of the loop: the node the bit leads to, and its symbol if it is a leaf. -/
def DecodeTree.descend (tree : DecodeTree) (node : Nat) (bit : Bool) :
    Result (Nat × Option Nat) := do
  match ← tree.step node bit with
  | none => throw (.corruptInput "bit pattern is not a valid code")
  | some next =>
      let symbol ← tree.leafSymbol next
      pure (next, symbol)

/-- The loop, at a node of the trie. -/
def decodeSymbolFrom (tree : DecodeTree) (node : Nat) (r : BitReader) :
    Result (Nat × BitReader) :=
  match _h : r.readBit with
  | .error e => .error e
  | .ok (bit, r') => do
      match ← tree.descend node bit with
      | (_, some symbol) => pure (symbol, r')
      | (next, none) => decodeSymbolFrom tree next r'
termination_by r.remaining
decreasing_by exact BitReader.readBit_remaining ‹_›

def decodeSymbol (tree : DecodeTree) (r : BitReader) : Result (Nat × BitReader) :=
  decodeSymbolFrom tree DecodeTree.kRoot r

/-- The same loop on a bit string. -/
def symbolFrom (tree : DecodeTree) : Nat → Parser Error Bool Nat
  | _, [] => .error (.corruptInput "bit stream ended early")
  | node, bit :: bits => do
      match ← tree.descend node bit with
      | (_, some symbol) => pure (symbol, bits)
      | (next, none) => symbolFrom tree next bits

/-- The next symbol of a bit string. -/
def symbol (tree : DecodeTree) : Parser Error Bool Nat := symbolFrom tree DecodeTree.kRoot

theorem reads_decodeSymbol (tree : DecodeTree) : Reads (decodeSymbol tree) (symbol tree) := by
  suffices h : ∀ (bs : List Bool) (node : Nat) (r : BitReader), r.bits = bs →
      (fun ar => (ar.1, ar.2.bits)) <$> decodeSymbolFrom tree node r = symbolFrom tree node bs from
    fun r => h r.bits DecodeTree.kRoot r rfl
  intro bs
  induction bs with
  | nil =>
      intro node r hr
      have hend := BitReader.readBit_of_nil hr
      unfold decodeSymbolFrom
      split
      case h_1 e he =>
        rw [hend] at he
        cases he
        rfl
      case h_2 he =>
        rw [hend] at he
        cases he
  | cons b bs ih =>
      intro node r hr
      obtain ⟨r₁, hread, hr₁⟩ := BitReader.readBit_of_cons hr
      unfold decodeSymbolFrom
      split
      case h_1 he =>
        rw [hread] at he
        cases he
      case h_2 bit r' he =>
        rw [hread] at he
        cases he
        rw [symbolFrom]
        match tree.descend node b with
        | .error e => rfl
        | .ok (next, some s) => exact congrArg (fun bs => Except.ok (s, bs)) hr₁
        | .ok (next, none) => exact ih next r₁ hr₁

/-- A symbol read is that of the first edge, or read from the node it leads to. -/
theorem symbolFrom_cons {tree : DecodeTree} {node a : Nat} {b : Bool} {bs rest : List Bool} :
    symbolFrom tree node (b :: bs) = .ok (a, rest) ↔ ∃ next,
      (tree.descend node b = .ok (next, some a) ∧ rest = bs) ∨
        (tree.descend node b = .ok (next, none) ∧ symbolFrom tree next bs = .ok (a, rest)) := by
  rw [symbolFrom]
  cases tree.descend node b with
  | error e => simp
  | ok ns =>
      obtain ⟨next, s⟩ := ns
      cases s with
      | none => simp
      | some s => simp [eq_comm]

theorem stable_symbol (tree : DecodeTree) : Stable (symbol tree) := by
  suffices h : ∀ (bs : List Bool) (node a : Nat) (rest : List Bool),
      symbolFrom tree node bs = .ok (a, rest) →
        ∀ s, symbolFrom tree node (bs ++ s) = .ok (a, rest ++ s) from
    fun bs a rest => h bs DecodeTree.kRoot a rest
  intro bs
  induction bs with
  | nil => exact fun _ _ _ h => by cases h
  | cons b bs ih =>
      intro node a rest h s
      rw [List.cons_append, symbolFrom_cons]
      obtain ⟨next, ⟨hleaf, rfl⟩ | ⟨hinner, hrest⟩⟩ := symbolFrom_cons.mp h
      · exact ⟨next, Or.inl ⟨hleaf, rfl⟩⟩
      · exact ⟨next, Or.inr ⟨hinner, ih next a rest hrest s⟩⟩

/-- A symbol costs at least one bit, whatever the trie. -/
theorem symbol_length_lt {tree : DecodeTree} {bs rest : List Bool} {a : Nat}
    (h : symbol tree bs = .ok (a, rest)) : rest.length < bs.length := by
  suffices hfrom : ∀ (bs : List Bool) (node : Nat), symbolFrom tree node bs = .ok (a, rest) →
      rest.length < bs.length from hfrom bs DecodeTree.kRoot h
  intro bs
  induction bs with
  | nil => exact fun _ h => by cases h
  | cons b bs ih =>
      intro node h
      obtain ⟨next, ⟨-, rfl⟩ | ⟨-, hrest⟩⟩ := symbolFrom_cons.mp h
      · exact Nat.lt_succ_self _
      · exact Nat.lt_succ_of_lt (ih next hrest)

theorem shrinks_symbol (tree : DecodeTree) : Shrinks (symbol tree) :=
  fun _ _ _ h => Nat.le_of_lt (symbol_length_lt h)

theorem mem_of_lookup {entries : List (List Bool × Nat)} {p : List Bool} {s : Nat}
    (h : entries.lookup p = some s) : (p, s) ∈ entries := by
  obtain ⟨l₁, l₂, rfl, -⟩ := List.lookup_eq_some_iff.mp h
  exact List.mem_append_right _ List.mem_cons_self

section Decode
variable {ls : LengthTable} {tree : DecodeTree} (ht : Trie tree.nodes (entriesOf ls))

/-- One round inside the trie. -/
theorem descend_eq {node : Nat} (hs : Shape tree.nodes) (h : node < tree.nodes.length)
    (bit : Bool) :
    tree.descend node bit
      = match edge tree.nodes node bit with
        | none => .error (.corruptInput "bit pattern is not a valid code")
        | some next => .ok (next, symbolAt tree.nodes next) := by
  have hstep : tree.step node bit = .ok (edge tree.nodes node bit) := by
    rw [DecodeTree.step, fetch_of_lt h, edge, List.getElem?_eq_getElem h]
    rfl
  rw [DecodeTree.descend, hstep, bind_ok]
  cases hedge : edge tree.nodes node bit with
  | none => rfl
  | some next =>
      have hnext : next < tree.nodes.length := hs.closed hedge
      simp only [DecodeTree.leafSymbol, fetch_of_lt hnext, symbolAt,
        List.getElem?_eq_getElem hnext]
      rfl

include ht in
/-- On hostile tables too, the walk stays inside the trie and ends. -/
theorem symbolFrom_decodes {p : List Bool} {node : Nat} (hp : walk tree.nodes p = some node)
    (bs : List Bool) :
    Decodes (symbolFrom tree node bs) fun sr => ls.getD sr.1 0 ≠ 0 ∧ sr.2.length < bs.length := by
  induction bs generalizing p node with
  | nil => trivial
  | cons b bs ih =>
      rw [symbolFrom, descend_eq ht.toShape (ht.walk_lt hp)]
      cases hedge : edge tree.nodes node b with
      | none => trivial
      | some next =>
          have hp' : walk tree.nodes (p ++ [b]) = some next := by
            simp [walk_snoc, hp, hedge]
          have hlook := ht.sym hp'
          simp only [bind_ok]
          cases hsym : symbolAt tree.nodes next with
          | none => exact (ih hp').mono fun sr h => ⟨h.1, Nat.lt_succ_of_lt h.2⟩
          | some s =>
              rw [hsym] at hlook
              have hmem := mem_entriesOf.mp (mem_of_lookup hlook.symm)
              exact ⟨hmem.1, Nat.lt_succ_self _⟩

include ht in
theorem symbol_decodes (bs : List Bool) :
    Decodes (symbol tree bs) fun sr => ls.getD sr.1 0 ≠ 0 ∧ sr.2.length < bs.length :=
  symbolFrom_decodes ht (walk_nil _) bs

/-! ## What a walk spells -/

theorem codeWord_ne_nil {s : Nat} (hs : ls.getD s 0 ≠ 0) : codeWord ls s ≠ [] := by
  intro hnil
  have hlen := congrArg List.length hnil
  rw [codeWord, length_natBits] at hlen
  exact hs hlen

theorem lookup_entriesFrom (n : Nat) {p : List Bool} {s : Nat} :
    (entriesFrom ls (List.range n)).lookup p = some s ↔
      s < n ∧ ls.getD s 0 ≠ 0 ∧ p = codeWord ls s ∧
        ∀ t < n, ls.getD t 0 ≠ 0 → codeWord ls t = p → t ≤ s := by
  induction n with
  | zero =>
      refine ⟨fun h => ?_, fun h => absurd h.1 (Nat.not_lt_zero s)⟩
      cases h
  | succ n ih =>
      by_cases hnew : ls.getD n 0 ≠ 0 ∧ p = codeWord ls n
      · -- the word of the newest symbol
        obtain ⟨hn, rfl⟩ := hnew
        rw [entriesFrom_succ, if_pos hn, List.lookup_cons_self]
        constructor
        · intro h
          cases h
          exact ⟨Nat.lt_succ_self _, hn, rfl, fun t ht _ _ => Nat.le_of_lt_succ ht⟩
        · rintro ⟨hs, -, -, hlatest⟩
          have hle := hlatest n (Nat.lt_succ_self n) hn rfl
          rw [Nat.le_antisymm hle (Nat.le_of_lt_succ hs)]
      · have hskip : (entriesFrom ls (List.range (n + 1))).lookup p
            = (entriesFrom ls (List.range n)).lookup p := by
          rw [entriesFrom_succ]
          by_cases hn : ls.getD n 0 ≠ 0
          · rw [if_pos hn, List.lookup_cons, beq_false_of_ne fun h => hnew ⟨hn, h⟩]
          · rw [if_neg hn]
        rw [hskip, ih]
        constructor
        · rintro ⟨hs, hs0, hw, hlatest⟩
          refine ⟨Nat.lt_succ_of_lt hs, hs0, hw, fun t ht ht0 htw => ?_⟩
          rcases Nat.lt_or_eq_of_le (Nat.le_of_lt_succ ht) with hlt | rfl
          · exact hlatest t hlt ht0 htw
          · exact absurd ⟨ht0, htw.symm⟩ hnew
        · rintro ⟨hs, hs0, hw, hlatest⟩
          have hsn : s ≠ n := by
            rintro rfl
            exact hnew ⟨hs0, hw⟩
          exact ⟨by omega, hs0, hw, fun t ht => hlatest t (Nat.lt_succ_of_lt ht)⟩

/-- A path carries the last symbol with that code word. -/
theorem lookup_entriesOf {p : List Bool} {s : Nat} :
    (entriesOf ls).lookup p = some s ↔
      ls.getD s 0 ≠ 0 ∧ p = codeWord ls s ∧
        ∀ t, ls.getD t 0 ≠ 0 → codeWord ls t = p → t ≤ s := by
  rw [entriesOf, lookup_entriesFrom]
  constructor
  · rintro ⟨-, hs0, hw, hlatest⟩
    exact ⟨hs0, hw, fun t ht0 => hlatest t (lt_length_of_getD ht0) ht0⟩
  · rintro ⟨hs0, hw, hlatest⟩
    exact ⟨lt_length_of_getD hs0, hs0, hw, fun t _ => hlatest t⟩

/-- Reading `w` from the root ends on a leaf, for the first time, and there on `s`.  In a table
that is no prefix code, symbols may share a leaf: the last of them has it. -/
structure Spells (ls : LengthTable) (w : List Bool) (s : Nat) : Prop where
  coded : ls.getD s 0 ≠ 0
  word : w = codeWord ls s
  latest : ∀ t, ls.getD t 0 ≠ 0 → codeWord ls t = w → t ≤ s
  minimal : ∀ t, ls.getD t 0 ≠ 0 → codeWord ls t <+: w → codeWord ls t = w

theorem Spells.ne_nil {w : List Bool} {s : Nat} (h : Spells ls w s) : w ≠ [] :=
  h.word ▸ codeWord_ne_nil h.coded

/-- Below the path `p`, the path `w` ends on a leaf for the first time, and there on `s`. -/
structure FirstLeaf (ls : LengthTable) (p w : List Bool) (s : Nat) : Prop where
  ne_nil : w ≠ []
  leaf : (entriesOf ls).lookup (p ++ w) = some s
  before : ∀ v, v <+: w → v ≠ [] → v ≠ w → (entriesOf ls).lookup (p ++ v) = none

/-- It ends with its first edge, or that leads to no leaf and the rest of it ends on one. -/
theorem firstLeaf_cons {p w : List Bool} {b : Bool} {s : Nat} :
    FirstLeaf ls p (b :: w) s ↔
      (w = [] ∧ (entriesOf ls).lookup (p ++ [b]) = some s) ∨
        ((entriesOf ls).lookup (p ++ [b]) = none ∧ FirstLeaf ls (p ++ [b]) w s) := by
  have hbelow : ∀ v, p ++ [b] ++ v = p ++ b :: v := fun v => (List.append_cons p b v).symm
  constructor
  · intro h
    cases w with
    | nil => exact Or.inl ⟨rfl, h.leaf⟩
    | cons c w =>
        refine Or.inr ⟨h.before [b] ⟨c :: w, rfl⟩ (List.cons_ne_nil _ _) (by simp),
          List.cons_ne_nil _ _, (hbelow _).symm ▸ h.leaf, fun v hv _ hfull => ?_⟩
        rw [hbelow]
        exact h.before _ (List.cons_prefix_cons.mpr ⟨rfl, hv⟩) (List.cons_ne_nil _ _)
          fun heq => hfull (List.cons.inj heq).2
  · rintro (⟨rfl, hleaf⟩ | ⟨hinner, h⟩)
    · refine ⟨List.cons_ne_nil _ _, hleaf, fun v hv hne hfull => ?_⟩
      rcases List.prefix_cons_iff.mp hv with hnil | ⟨v', rfl, hv'⟩
      · exact absurd hnil hne
      · exact absurd (by rw [List.prefix_nil.mp hv']) hfull
    · refine ⟨List.cons_ne_nil _ _, hbelow w ▸ h.leaf, fun v hv hne hfull => ?_⟩
      rcases List.prefix_cons_iff.mp hv with hnil | ⟨v', rfl, hv'⟩
      · exact absurd hnil hne
      by_cases hv0 : v' = []
      · rw [hv0]
        exact hinner
      · rw [← hbelow]
        exact h.before v' hv' hv0 fun heq => hfull (congrArg (b :: ·) heq)

include ht in
/-- The node one round leads to, and what it carries. -/
theorem descend_eq_ok_iff {p : List Bool} {node next : Nat} {bit : Bool} {s : Option Nat}
    (hp : walk tree.nodes p = some node) :
    tree.descend node bit = .ok (next, s) ↔
      walk tree.nodes (p ++ [bit]) = some next ∧ (entriesOf ls).lookup (p ++ [bit]) = s := by
  rw [descend_eq ht.toShape (ht.walk_lt hp), walk_snoc, hp, Option.bind_some]
  cases hedge : edge tree.nodes node bit with
  | none => simp
  | some next' =>
      have hp' : walk tree.nodes (p ++ [bit]) = some next' := by
        rw [walk_snoc, hp, Option.bind_some, hedge]
      rw [← ht.sym hp']
      simp only [Except.ok.injEq, Prod.mk.injEq, Option.some.injEq]

include ht in
/-- Every edge on the way to a leaf is there. -/
theorem FirstLeaf.exists_walk {p w : List Bool} {b : Bool} {s : Nat}
    (h : FirstLeaf ls p (b :: w) s) : ∃ next, walk tree.nodes (p ++ [b]) = some next := by
  have hprefix : p ++ [b] <+: p ++ b :: w := ⟨w, by rw [List.append_assoc, List.singleton_append]⟩
  exact Option.isSome_iff_exists.mp ((ht.dom _).mpr (Or.inr ⟨_, mem_of_lookup h.leaf, hprefix⟩))

include ht in
/-- The loop from a node below the root, with the rest of the path it takes. -/
theorem symbolFrom_eq_ok_iff {p : List Bool} {node : Nat} (hp : walk tree.nodes p = some node)
    {bs rest : List Bool} {s : Nat} :
    symbolFrom tree node bs = .ok (s, rest) ↔ ∃ w, FirstLeaf ls p w s ∧ bs = w ++ rest := by
  induction bs generalizing p node with
  | nil =>
      refine ⟨fun h => ?_, ?_⟩
      · cases h
      · rintro ⟨w, hw, hbs⟩
        exact absurd (List.append_eq_nil_iff.mp hbs.symm).1 hw.ne_nil
  | cons b bs ih =>
      constructor
      · intro h
        obtain ⟨next, ⟨hleaf, rfl⟩ | ⟨hinner, hrest⟩⟩ := symbolFrom_cons.mp h
        · obtain ⟨-, hlook⟩ := (descend_eq_ok_iff ht hp).mp hleaf
          exact ⟨[b], firstLeaf_cons.mpr (Or.inl ⟨rfl, hlook⟩), rfl⟩
        · obtain ⟨hp', hlook⟩ := (descend_eq_ok_iff ht hp).mp hinner
          obtain ⟨w, hw, rfl⟩ := (ih hp').mp hrest
          exact ⟨b :: w, firstLeaf_cons.mpr (Or.inr ⟨hlook, hw⟩), rfl⟩
      · rintro ⟨w, hw, hbs⟩
        cases w with
        | nil => exact absurd rfl hw.ne_nil
        | cons c w =>
            obtain ⟨rfl, hrest⟩ := List.cons.inj hbs
            obtain ⟨next, hp'⟩ := hw.exists_walk ht
            refine symbolFrom_cons.mpr ⟨next, ?_⟩
            rcases firstLeaf_cons.mp hw with ⟨rfl, hlook⟩ | ⟨hlook, hw'⟩
            · exact Or.inl ⟨(descend_eq_ok_iff ht hp).mpr ⟨hp', hlook⟩, hrest.symm⟩
            · exact Or.inr ⟨(descend_eq_ok_iff ht hp).mpr ⟨hp', hlook⟩,
                (ih hp').mpr ⟨w, hw', hrest⟩⟩

include ht in
/-- Decoding a symbol takes what spells it off the front of the bit string, on any table. -/
theorem symbol_eq_ok_iff {bs rest : List Bool} {s : Nat} :
    symbol tree bs = .ok (s, rest) ↔ ∃ w, Spells ls w s ∧ bs = w ++ rest := by
  rw [symbol, DecodeTree.kRoot, symbolFrom_eq_ok_iff ht (walk_nil _)]
  constructor
  · rintro ⟨w, hw, hbs⟩
    obtain ⟨hs0, hword, hlatest⟩ := lookup_entriesOf.mp hw.leaf
    refine ⟨w, ⟨hs0, hword, hlatest, fun t ht0 htw => ?_⟩, hbs⟩
    by_contra hne
    have hnone := hw.before _ htw (codeWord_ne_nil ht0) hne
    have hmem : (codeWord ls t, t) ∈ entriesOf ls := mem_entriesOf.mpr ⟨ht0, rfl⟩
    have hother := List.lookup_eq_none_iff.mp hnone _ hmem
    simp at hother
  · rintro ⟨w, hw, hbs⟩
    refine ⟨w, ⟨hw.ne_nil, lookup_entriesOf.mpr ⟨hw.coded, hw.word, hw.latest⟩,
      fun v hv hne hfull => ?_⟩, hbs⟩
    rw [List.nil_append, Option.eq_none_iff_forall_ne_some]
    intro t hlook
    obtain ⟨ht0, htw, -⟩ := lookup_entriesOf.mp hlook
    exact hfull (htw ▸ hw.minimal t ht0 (htw ▸ hv))

/-- In a prefix table a path carries a symbol exactly if it is its code word. -/
theorem lookup_eq_some_iff (hls : PrefixTable ls) {p : List Bool} {s : Nat} :
    (entriesOf ls).lookup p = some s ↔ ls.getD s 0 ≠ 0 ∧ p = codeWord ls s := by
  rw [lookup_entriesOf]
  refine ⟨fun h => ⟨h.1, h.2.1⟩, ?_⟩
  rintro ⟨hs, rfl⟩
  exact ⟨hs, rfl, fun t ht0 htw => (hls.prefixFree ht0 hs (htw ▸ List.prefix_refl _)).le⟩

/-- In a prefix table a symbol is spelled by its code word and by nothing else. -/
theorem spells_iff (hls : PrefixTable ls) {w : List Bool} {s : Nat} :
    Spells ls w s ↔ ls.getD s 0 ≠ 0 ∧ w = codeWord ls s := by
  refine ⟨fun h => ⟨h.coded, h.word⟩, ?_⟩
  rintro ⟨hs, rfl⟩
  refine ⟨hs, rfl, fun t ht0 htw => ?_, fun t ht0 htw => ?_⟩
  · exact (hls.prefixFree ht0 hs (htw ▸ List.prefix_refl _)).le
  · rw [hls.prefixFree ht0 hs htw]

include ht in
/-- Decoding a code word off the front of a bit string. -/
theorem symbol_codeWord (hls : PrefixTable ls) {s : Nat} (hs : ls.getD s 0 ≠ 0)
    (rest : List Bool) : symbol tree (codeWord ls s ++ rest) = .ok (s, rest) :=
  (symbol_eq_ok_iff ht).mpr ⟨_, (spells_iff hls).mpr ⟨hs, rfl⟩, rfl⟩

end Decode

end Compressly.Huffman

/-
# `Compressly.Huffman.Trie` — the decode trie, and decoding one symbol

The trie is a node table grown by interleaved insertions that share paths.
`walk nodes p` is the node at the end of the path `p` from the root.  The
invariant `Trie nodes entries` says of a table into which the code words of
`entries` (newest first) have been inserted:

    root     there is a root
    closed   an edge leads to an existing node
    inj      no two paths end at the same node
    dom      the paths are the prefixes of the inserted words
    sym      a node carries the newest symbol inserted at its path

It holds for every list of words, prefix-free or not (`build_trie`), which is
what keeps a decoder on hostile code tables inside its arrays
(`symbolFrom_decodes`).  Where the words are prefix-free, walking along one of
them passes no other leaf, so the decoder returns its symbol
(`decodeSymbols_codeWords`).
-/
import Compressly.Huffman.Codes
import Compressly.BitIO

namespace Compressly.Huffman

open Bits Kraft Parse

/-! ## Paths -/

/-- The edge `bit` out of node `i`. -/
def edge (nodes : List TrieNode) (i : Nat) (bit : Bool) : Option Nat :=
  nodes[i]?.bind fun n => n.child bit

/-- The node at the end of a path from node `i`. -/
def walkFrom (nodes : List TrieNode) (i : Nat) (p : List Bool) : Option Nat :=
  p.foldlM (edge nodes) i

def walk (nodes : List TrieNode) (p : List Bool) : Option Nat := walkFrom nodes 0 p

@[simp] theorem walk_nil (nodes : List TrieNode) : walk nodes [] = some 0 := rfl

theorem walk_snoc (nodes : List TrieNode) (p : List Bool) (bit : Bool) :
    walk nodes (p ++ [bit]) = (walk nodes p).bind fun i => edge nodes i bit := by
  rw [walk, walkFrom, List.foldlM_append]
  refine bind_congr fun i => ?_
  simp

/-- A prefix of a path is a path. -/
theorem walk_isSome_of_prefix {nodes : List TrieNode} {p q : List Bool} (h : p <+: q)
    (hq : (walk nodes q).isSome) : (walk nodes p).isSome := by
  obtain ⟨s, rfl⟩ := h
  rw [walk, walkFrom, List.foldlM_append] at hq
  exact Option.isSome_of_isSome_bind hq

def symbolAt (nodes : List TrieNode) (i : Nat) : Option Nat := nodes[i]?.bind TrieNode.symbol

/-- The table is a tree: closed under edges, and no node has two paths to it. -/
structure Shape (nodes : List TrieNode) : Prop where
  root : 0 < nodes.length
  closed : ∀ {i : Nat} {bit : Bool} {j : Nat}, edge nodes i bit = some j → j < nodes.length
  inj : ∀ {p q : List Bool} {i : Nat}, walk nodes p = some i → walk nodes q = some i → p = q

theorem Shape.walk_lt {nodes : List TrieNode} (h : Shape nodes) {p : List Bool} {i : Nat}
    (hp : walk nodes p = some i) : i < nodes.length := by
  induction p using List.reverseRecOn with
  | nil =>
      cases hp
      exact h.root
  | append_singleton p bit _ =>
      rw [walk_snoc] at hp
      obtain ⟨j, -, hj⟩ := Option.bind_eq_some_iff.mp hp
      exact h.closed hj

/-! ## Adding an edge -/

theorem child_setChild (n : TrieNode) (bit bit' : Bool) (next : Nat) :
    (n.setChild bit next).child bit' = if bit' = bit then some next else n.child bit' := by
  cases bit <;> cases bit' <;> rfl

@[simp] theorem symbol_setChild (n : TrieNode) (bit : Bool) (next : Nat) :
    (n.setChild bit next).symbol = n.symbol := by
  cases bit <;> rfl

section AddEdge
variable {nodes : List TrieNode} {i : Nat} {here : TrieNode} {bit : Bool}

/-- The table with a fresh node at the end of the edge `bit` out of `i`. -/
def addEdge (nodes : List TrieNode) (i : Nat) (here : TrieNode) (bit : Bool) : List TrieNode :=
  (nodes ++ [({} : TrieNode)]).set i (here.setChild bit nodes.length)

@[simp] theorem length_addEdge :
    (addEdge nodes i here bit).length = nodes.length + 1 := by
  simp [addEdge]

theorem getElem?_addEdge (hi : nodes[i]? = some here) (j : Nat) :
    (addEdge nodes i here bit)[j]?
      = if j = i then some (here.setChild bit nodes.length)
        else if j = nodes.length then some {} else nodes[j]? := by
  have hlt : i < nodes.length := (List.getElem?_eq_some_iff.mp hi).1
  rw [addEdge, List.getElem?_set]
  by_cases hji : j = i
  · simp [hji]
    omega
  · rw [if_neg (fun h => hji h.symm), if_neg hji, List.getElem?_append]
    by_cases hj : j < nodes.length
    · rw [if_pos hj, if_neg (by omega)]
    · by_cases hj' : j = nodes.length
      · simp [hj']
      · rw [if_neg hj, if_neg hj', List.getElem?_eq_none (by simp; omega),
          List.getElem?_eq_none (by omega)]

theorem edge_addEdge (hi : nodes[i]? = some here) (j : Nat) (bit' : Bool) :
    edge (addEdge nodes i here bit) j bit'
      = if j = i ∧ bit' = bit then some nodes.length else edge nodes j bit' := by
  have hlt : i < nodes.length := (List.getElem?_eq_some_iff.mp hi).1
  rw [edge, getElem?_addEdge hi, edge]
  by_cases hji : j = i
  · subst hji
    simp [hi, child_setChild]
  · rw [if_neg hji]
    by_cases hj : j = nodes.length
    · have hne : nodes.length ≠ i := by omega
      cases bit' <;> simp [hj, hne, TrieNode.child]
    · simp [hj, hji]

theorem symbolAt_addEdge (hi : nodes[i]? = some here) (j : Nat) :
    symbolAt (addEdge nodes i here bit) j = symbolAt nodes j := by
  rw [symbolAt, getElem?_addEdge hi, symbolAt]
  by_cases hji : j = i
  · subst hji
    simp [hi]
  · by_cases hj : j = nodes.length
    · subst hj
      simp [hji]
    · simp [hji, hj]

/-- A fresh edge adds one path and changes no other. -/
theorem walk_addEdge (hs : Shape nodes) {p : List Bool} (hp : walk nodes p = some i)
    (hi : nodes[i]? = some here) (hbit : here.child bit = none) (q : List Bool) :
    walk (addEdge nodes i here bit) q
      = if q = p ++ [bit] then some nodes.length else walk nodes q := by
  have hmissing : walk nodes (p ++ [bit]) = none := by
    simp [walk_snoc, hp, edge, hi, hbit]
  induction q using List.reverseRecOn with
  | nil => simp
  | append_singleton q b ih =>
      rw [walk_snoc, ih, walk_snoc]
      by_cases hq : q = p ++ [bit]
      · -- nothing leaves the fresh node
        have hlt : i < nodes.length := hs.walk_lt hp
        have hnone : edge nodes nodes.length b = none := by
          simp [edge]
        have hne : nodes.length ≠ i := by omega
        rw [if_pos hq]
        subst hq
        simp [edge_addEdge hi, hne, hnone, hmissing]
      · rw [if_neg hq]
        cases hw : walk nodes q with
        | none =>
            have hne : q ≠ p := by
              rintro rfl
              rw [hp] at hw
              cases hw
            simp [hne]
        | some j =>
            simp only [Option.bind_some, edge_addEdge hi]
            by_cases hqp : q = p
            · subst hqp
              rw [hp] at hw
              cases hw
              simp
            · have hji : j ≠ i := by
                rintro rfl
                exact hqp (hs.inj hw hp)
              simp [hji, hqp]

theorem shape_addEdge (hs : Shape nodes) {p : List Bool} (hp : walk nodes p = some i)
    (hi : nodes[i]? = some here) (hbit : here.child bit = none) :
    Shape (addEdge nodes i here bit) where
  root := by simp
  closed := by
    intro j b k hk
    rw [edge_addEdge hi] at hk
    rw [length_addEdge]
    split at hk
    · cases hk
      exact Nat.lt_succ_self _
    · exact Nat.lt_succ_of_lt (hs.closed hk)
  inj := by
    intro q r j hq hr
    rw [walk_addEdge hs hp hi hbit] at hq hr
    split at hq <;> split at hr
    · rename_i hq' hr'
      rw [hq', hr']
    · cases hq
      exact absurd (hs.walk_lt hr) (Nat.lt_irrefl _)
    · cases hr
      exact absurd (hs.walk_lt hq) (Nat.lt_irrefl _)
    · exact hs.inj hq hr

end AddEdge

/-! ## Inserting a word -/

/-- `nodes'` is `nodes` with the path `w` added, which ends at node `j`. -/
structure Extended (nodes nodes' : List TrieNode) (w : List Bool) (j : Nat) : Prop where
  shape : Shape nodes'
  ends : walk nodes' w = some j
  old : ∀ {q : List Bool} {k : Nat}, walk nodes q = some k → walk nodes' q = some k
  fresh : ∀ {q : List Bool} {k : Nat}, walk nodes' q = some k →
    walk nodes q = some k ∨ nodes.length ≤ k
  dom : ∀ q, (walk nodes' q).isSome ↔ (walk nodes q).isSome ∨ q <+: w
  sym : ∀ k, symbolAt nodes' k = symbolAt nodes k

theorem Extended.trans {nodes nodes₁ nodes₂ : List TrieNode} {w v : List Bool} {j k : Nat}
    (h : Extended nodes nodes₁ w j) (h' : Extended nodes₁ nodes₂ (w ++ v) k)
    (hle : nodes.length ≤ nodes₁.length) : Extended nodes nodes₂ (w ++ v) k where
  shape := h'.shape
  ends := h'.ends
  old hq := h'.old (h.old hq)
  fresh hq := by
    rcases h'.fresh hq with hq₁ | hk
    · exact h.fresh hq₁
    · exact Or.inr (hle.trans hk)
  dom q := by
    have hpre : q <+: w → q <+: w ++ v := fun hq => hq.trans (List.prefix_append w v)
    rw [h'.dom, h.dom, or_assoc, or_iff_right_of_imp hpre]
  sym k := (h'.sym k).trans (h.sym k)

theorem extended_refl {nodes : List TrieNode} (hs : Shape nodes) {p : List Bool} {i : Nat}
    (hp : walk nodes p = some i) : Extended nodes nodes p i where
  shape := hs
  ends := hp
  old hq := hq
  fresh hq := Or.inl hq
  dom q := (or_iff_left_of_imp fun hq => walk_isSome_of_prefix hq (by rw [hp]; rfl)).symm
  sym _ := rfl

theorem extended_addEdge {nodes : List TrieNode} (hs : Shape nodes) {p : List Bool} {i : Nat}
    {here : TrieNode} {bit : Bool} (hp : walk nodes p = some i) (hi : nodes[i]? = some here)
    (hbit : here.child bit = none) :
    Extended nodes (addEdge nodes i here bit) (p ++ [bit]) nodes.length := by
  have hwalk := walk_addEdge hs hp hi hbit
  have hnew : walk nodes (p ++ [bit]) = none := by
    rw [walk_snoc, hp, Option.bind_some, edge, hi, Option.bind_some, hbit]
  constructor
  case shape => exact shape_addEdge hs hp hi hbit
  case ends => rw [hwalk, if_pos rfl]
  case old =>
    intro q k hq
    rw [hwalk, if_neg]
    · exact hq
    · rintro rfl
      rw [hnew] at hq
      cases hq
  case fresh =>
    intro q k hq
    rw [hwalk] at hq
    split at hq
    · cases hq
      exact Or.inr le_rfl
    · exact Or.inl hq
  case dom =>
    intro q
    rw [hwalk]
    by_cases hq : q = p ++ [bit]
    · rw [if_pos hq, hq]
      exact iff_of_true rfl (Or.inr List.prefix_rfl)
    · rw [if_neg hq, or_iff_left_of_imp]
      -- a path that ends before the fresh edge is an old one
      intro hpre
      refine walk_isSome_of_prefix ?_ (by rw [hp]; rfl)
      exact (List.prefix_concat_iff.mp hpre).resolve_left hq
  case sym => exact symbolAt_addEdge hi

/-- The walk along a word, begun at the end of the path `p`. -/
theorem insertPath_spec {nodes : List TrieNode} (hs : Shape nodes) {p : List Bool} {i : Nat}
    (hp : walk nodes p = some i) (w : List Bool) :
    ∃ nodes' j, insertPath nodes i w = .ok (nodes', j) ∧ Extended nodes nodes' (p ++ w) j := by
  induction w generalizing nodes p i with
  | nil => exact ⟨nodes, i, rfl, (List.append_nil p).symm ▸ extended_refl hs hp⟩
  | cons bit w ih =>
      have hlt : i < nodes.length := hs.walk_lt hp
      obtain ⟨here, hi⟩ : ∃ here, nodes[i]? = some here := ⟨_, List.getElem?_eq_getElem hlt⟩
      rw [insertPath, fetch_of_getElem? hi, bind_ok, List.append_cons p]
      cases hchild : here.child bit with
      | some next =>
          have hp' : walk nodes (p ++ [bit]) = some next := by
            rw [walk_snoc, hp, Option.bind_some, edge, hi, Option.bind_some, hchild]
          exact ih hs hp'
      | none =>
          have hstore : store (nodes ++ [({} : TrieNode)]) i (here.setChild bit nodes.length)
              = .ok (addEdge nodes i here bit) := store_of_lt (by simp; omega) _
          have hedge := extended_addEdge hs hp hi hchild
          obtain ⟨nodes', j, hok, hext⟩ := ih hedge.shape hedge.ends
          refine ⟨nodes', j, ?_, hedge.trans hext (by rw [length_addEdge]; exact Nat.le_succ _)⟩
          simp only [hstore, bind_ok]
          exact hok

/-- A trie into which the words of `entries` have been inserted, newest first. -/
structure Trie (nodes : List TrieNode) (entries : List (List Bool × Nat)) : Prop
    extends Shape nodes where
  dom : ∀ p, (walk nodes p).isSome ↔ p = [] ∨ ∃ e ∈ entries, p <+: e.1
  sym : ∀ {p : List Bool} {i : Nat}, walk nodes p = some i → symbolAt nodes i = entries.lookup p

/-- The trie of no words: a root, and nothing below it. -/
theorem trie_nil : Trie [({} : TrieNode)] [] := by
  have hedge : ∀ i bit, edge [({} : TrieNode)] i bit = none := by
    intro i bit
    rcases i with _ | i
    · cases bit <;> rfl
    · rfl
  have hwalk : ∀ (p : List Bool) (i : Nat), walk [({} : TrieNode)] p = some i → p = [] := by
    intro p i hp
    induction p using List.reverseRecOn with
    | nil => rfl
    | append_singleton p bit _ =>
        rw [walk_snoc] at hp
        obtain ⟨j, -, hk⟩ := Option.bind_eq_some_iff.mp hp
        rw [hedge] at hk
        cases hk
  refine { root := Nat.one_pos, closed := ?_, inj := ?_, dom := ?_, sym := ?_ }
  · intro i bit j h
    rw [hedge] at h
    cases h
  · intro p q i hp hq
    rw [hwalk p i hp, hwalk q i hq]
  · intro p
    constructor
    · intro h
      obtain ⟨i, hi⟩ := Option.isSome_iff_exists.mp h
      exact Or.inl (hwalk p i hi)
    · rintro (rfl | ⟨e, he, -⟩)
      · rfl
      · cases he
  · intro p i hp
    have hnil := hwalk p i hp
    subst hnil
    cases hp
    rfl

/-- The old symbols sit at old nodes. -/
theorem Trie.lookup_eq_none {nodes : List TrieNode} {entries : List (List Bool × Nat)}
    (ht : Trie nodes entries) {p : List Bool} (hp : walk nodes p = none) :
    entries.lookup p = none := by
  rw [List.lookup_eq_none_iff]
  intro e he
  by_contra hne
  have hpe : p = e.1 := by simpa using hne
  have hsome := (ht.dom p).mpr (Or.inr ⟨e, he, hpe ▸ List.prefix_rfl⟩)
  rw [hp] at hsome
  cases hsome

/-- Where no symbol is written, an extended trie carries the symbols it had: a new path ends on
a new node, and that has none. -/
theorem Trie.symbolAt_extended {nodes nodes' : List TrieNode} {entries : List (List Bool × Nat)}
    (ht : Trie nodes entries) {w : List Bool} {i : Nat} (hext : Extended nodes nodes' w i)
    {p : List Bool} {j : Nat} (hp : walk nodes' p = some j) :
    symbolAt nodes' j = entries.lookup p := by
  rw [hext.sym]
  cases hbefore : walk nodes p with
  | some k =>
      have hk := hext.old hbefore
      rw [hp] at hk
      cases hk
      exact ht.sym hbefore
  | none =>
      rcases hext.fresh hp with h | h
      · rw [hbefore] at h
        cases h
      · rw [ht.lookup_eq_none hbefore, symbolAt, List.getElem?_eq_none h]
        rfl

/-- Writing a symbol leaves the edges alone. -/
theorem edge_set_symbol {nodes : List TrieNode} {i : Nat} {leaf : TrieNode}
    (hi : nodes[i]? = some leaf) (s : Option Nat) :
    edge (nodes.set i { leaf with symbol := s }) = edge nodes := by
  funext j bit
  rw [edge, List.getElem?_set, edge]
  by_cases hij : i = j
  · subst hij
    have hlt : i < nodes.length := (List.getElem?_eq_some_iff.mp hi).1
    rw [if_pos rfl, if_pos hlt, hi]
    cases bit <;> rfl
  · rw [if_neg hij]

theorem insertCode_spec {nodes : List TrieNode} {entries : List (List Bool × Nat)}
    (ht : Trie nodes entries) (symbol : Nat) (code : Code) (h0 : code.length ≠ 0) :
    ∃ nodes', insertCode nodes symbol code = .ok nodes' ∧
      Trie nodes' ((natBits code.length code.bits, symbol) :: entries) := by
  obtain ⟨nodes₁, i, hok, hext⟩ :=
    insertPath_spec ht.toShape (walk_nil nodes) (natBits code.length code.bits)
  rw [List.nil_append] at hext
  have hlt : i < nodes₁.length := hext.shape.walk_lt hext.ends
  obtain ⟨leaf, hleaf⟩ : ∃ leaf, nodes₁[i]? = some leaf := ⟨_, List.getElem?_eq_getElem hlt⟩
  have hedge := edge_set_symbol hleaf (some symbol)
  have hwalk : walk (nodes₁.set i { leaf with symbol := some symbol }) = walk nodes₁ := by
    funext p
    rw [walk, walkFrom, hedge, walk, walkFrom]
  refine ⟨nodes₁.set i { leaf with symbol := some symbol }, ?_, ?_⟩
  · simp only [insertCode, if_neg h0, hok, bind_ok, fetch_of_getElem? hleaf, store_of_lt hlt]
  refine { root := by simpa using hext.shape.root, closed := ?_, inj := ?_, dom := ?_, sym := ?_ }
  · intro j bit k hk
    rw [hedge] at hk
    simpa using hext.shape.closed hk
  · intro p q j hp hq
    rw [hwalk] at hp hq
    exact hext.shape.inj hp hq
  · intro p
    rw [hwalk, hext.dom, ht.dom]
    simp only [List.mem_cons, exists_eq_or_imp]
    rw [or_assoc, or_comm (a := ∃ e ∈ entries, p <+: e.1)]
  · intro p j hp
    rw [hwalk] at hp
    rw [List.lookup_cons]
    by_cases hpw : p = natBits code.length code.bits
    · have hji : j = i := by
        rw [hpw, hext.ends] at hp
        exact (Option.some.inj hp).symm
      simp [hpw, hji, symbolAt, hlt]
    · have hij : i ≠ j := by
        rintro rfl
        exact hpw (hext.shape.inj hp hext.ends)
      have hbeq : (p == natBits code.length code.bits) = false := beq_false_of_ne hpw
      rw [hbeq, ← ht.symbolAt_extended hext hp, symbolAt, List.getElem?_set, if_neg hij, symbolAt]

/-! ## The trie of a length table -/

/-- The code words of a table with their symbols, newest first, from `symbol` on. -/
def entriesFrom (ls : LengthTable) (symbols : List Nat) : List (List Bool × Nat) :=
  (symbols.filter fun s => ls.getD s 0 ≠ 0).reverse.map fun s => (codeWord ls s, s)

def entriesOf (ls : LengthTable) : List (List Bool × Nat) := entriesFrom ls (List.range ls.length)

theorem mem_entriesOf {ls : LengthTable} {e : List Bool × Nat} :
    e ∈ entriesOf ls ↔ ls.getD e.2 0 ≠ 0 ∧ e.1 = codeWord ls e.2 := by
  rw [entriesOf, entriesFrom, List.mem_map]
  constructor
  · rintro ⟨s, hs, rfl⟩
    rw [List.mem_reverse, List.mem_filter] at hs
    exact ⟨by simpa using hs.2, rfl⟩
  · rintro ⟨h0, he⟩
    refine ⟨e.2, ?_, by rw [← he]⟩
    rw [List.mem_reverse, List.mem_filter, List.mem_range]
    exact ⟨lt_length_of_getD h0, by simpa using h0⟩

theorem entriesFrom_succ (ls : LengthTable) (n : Nat) :
    entriesFrom ls (List.range (n + 1))
      = if ls.getD n 0 ≠ 0 then (codeWord ls n, n) :: entriesFrom ls (List.range n)
        else entriesFrom ls (List.range n) := by
  rw [entriesFrom, List.range_succ, List.filter_append]
  by_cases h0 : ls.getD n 0 ≠ 0
  · simp [h0, entriesFrom, -List.getD_eq_getElem?_getD]
  · simp [h0, entriesFrom, -List.getD_eq_getElem?_getD]

theorem insertCodes_spec {ls : LengthTable} {m : Nat} (hle : ∀ l ∈ ls, l ≤ kMaxCodeLength)
    (hm : m ≤ ls.length) :
    ∀ (n : Nat) {k : Nat} {nodes : List TrieNode}, k + n = m →
      Trie nodes (entriesFrom ls (List.range k)) →
      ∃ nodes', insertCodes nodes k ((List.range' k n).map (codeOf ls)) = .ok nodes' ∧
        Trie nodes' (entriesFrom ls (List.range m)) := by
  intro n
  induction n with
  | zero =>
      intro k nodes hk ht
      have hkm : k = m := by omega
      subst hkm
      exact ⟨nodes, rfl, ht⟩
  | succ n ih =>
      intro k nodes hk ht
      have hlt : k < ls.length := by omega
      have hget : ls.getD k 0 = ls[k] := List.getD_eq_getElem _ _ hlt
      have hle32 : ls.getD k 0 ≤ 32 := by
        have := hle _ (List.getElem_mem hlt)
        rw [hget]
        exact le_trans this (by decide)
      rw [List.range'_succ, List.map_cons, insertCodes]
      by_cases h0 : ls.getD k 0 = 0
      · have hskip : insertCode nodes k (codeOf ls k) = .ok nodes := by
          rw [codeOf_absent h0]
          rfl
        rw [hskip, bind_ok]
        refine ih (by omega) ?_
        rw [entriesFrom_succ, if_neg (not_not.mpr h0)]
        exact ht
      · obtain ⟨nodes', hok, ht'⟩ := insertCode_spec ht k (codeOf ls k) (by rwa [codeOf_length])
        rw [natBits_codeOf hle32] at ht'
        rw [hok, bind_ok]
        refine ih (by omega) ?_
        rw [entriesFrom_succ, if_pos h0]
        exact ht'

/-- Past the bound of the loops a covered table has no code words. -/
theorem Covered.entriesFrom_eq {ls : LengthTable} (hc : Covered ls) :
    entriesFrom ls (List.range (alphabetSize ls.length)) = entriesOf ls := by
  have hsymbols : (List.range (alphabetSize ls.length)).filter (fun s => ls.getD s 0 ≠ 0)
      = (List.range ls.length).filter fun s => ls.getD s 0 ≠ 0 := hc.presentSymbols_eq
  rw [entriesOf, entriesFrom, entriesFrom, hsymbols]

/-- The constructor never leaves its arrays, and builds the trie of the code words. -/
theorem build_trie {ls : LengthTable} (hle : ∀ l ∈ ls, l ≤ kMaxCodeLength) (hc : Covered ls) :
    ∃ tree, DecodeTree.build ls = .ok tree ∧ Trie tree.nodes (entriesOf ls) := by
  obtain ⟨nodes, hok, ht⟩ :=
    insertCodes_spec hle (alphabetSize_le _) (alphabetSize ls.length) (Nat.zero_add _) trie_nil
  rw [hc.entriesFrom_eq] at ht
  rw [← List.range_eq_range'] at hok
  refine ⟨⟨nodes⟩, ?_, ht⟩
  rw [DecodeTree.build, buildCanonicalCodes_take hle, bind_ok, List.take_left' (by simp), hok,
    bind_ok, pure_eq_ok]

end Compressly.Huffman

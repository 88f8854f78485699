/-
# `Compressly.Huffman.Optimal` — `buildLengths` builds an optimal code

For every frequency table with two symbols present and a total below `2 ^ 64`
that the loops run over in full, of all codes for the symbols:

    no leaf deeper than 15    ls costs the least of all lengths within the
                              Kraft inequality, of whatever size
    at most 2 ^ 15 symbols    ls costs the least of all ways to hand out
                              its lengths

With more symbols than that there is no result (`buildLengths_crowded`).

The tree is thrown away; only its depths survive, as a histogram.  So the proof
has two halves.  The merges of the heap are merges of the two smallest weights,
hence the tree costs the least (`mergeAll_merges`, `Merges.le_cost`); and the
final assignment lists the symbols by falling frequency beside rising lengths,
hence it costs no more than the tree (`cost_le_of_sorted`).
-/
import Compressly.Huffman.LengthLimit
import Compressly.Lib.OptimalCode

namespace Compressly.Huffman

open Kraft OptimalCode

/-! ## The order of the heap -/

theorem freqAt_append {nodes : List Node} {i : Nat} (hi : i < nodes.length) (more : List Node) :
    freqAt (nodes ++ more) i = freqAt nodes i := by
  rw [freqAt, freqAt, List.getElem?_append_left hi]

theorem freqAt_length (nodes : List Node) (n : Node) :
    freqAt (nodes ++ [n]) nodes.length = n.freq := by
  simp [freqAt]

/-- Node `i` leaves the heap before node `j`, as far as the frequencies decide it. -/
def Ordered (nodes : List Node) (heap : List Nat) : Prop :=
  heap.Pairwise fun i j => freqAt nodes i ≤ freqAt nodes j

theorem le_of_cheaper {nodes : List Node} {a b : Nat} (h : cheaper nodes a b) :
    freqAt nodes b ≤ freqAt nodes a := by
  rw [cheaper] at h
  split at h
  case isTrue => exact Nat.le_of_lt (decide_eq_true_iff.mp h)
  case isFalse heq => exact (not_not.mp heq).ge

theorem le_of_not_cheaper {nodes : List Node} {a b : Nat} (h : ¬ cheaper nodes a b) :
    freqAt nodes a ≤ freqAt nodes b := by
  rw [cheaper] at h
  split at h
  case isTrue => exact Nat.le_of_not_lt fun hlt => h (decide_eq_true hlt)
  case isFalse heq => exact (not_not.mp heq).le

theorem Ordered.push {nodes : List Node} {heap : List Nat} (h : Ordered nodes heap) (i : Nat) :
    Ordered nodes (push nodes i heap) := by
  induction heap with
  | nil => exact List.pairwise_singleton _ _
  | cons j heap ih =>
      obtain ⟨hj, hheap⟩ := List.pairwise_cons.mp h
      rw [Huffman.push]
      split
      case isTrue hc =>
        refine List.pairwise_cons.mpr ⟨fun k hk => ?_, ih hheap⟩
        rcases List.mem_cons.mp ((push_perm nodes i heap).subset hk) with rfl | hk
        · exact le_of_cheaper hc
        · exact hj k hk
      case isFalse hc =>
        have hij := le_of_not_cheaper hc
        refine List.pairwise_cons.mpr ⟨fun k hk => ?_, h⟩
        rcases List.mem_cons.mp hk with rfl | hk
        · exact hij
        · exact hij.trans (hj k hk)

theorem Ordered.foldl {nodes : List Node} (xs : List Nat) :
    ∀ {heap : List Nat}, Ordered nodes heap →
      Ordered nodes (xs.foldl (fun heap i => Huffman.push nodes i heap) heap) := by
  induction xs with
  | nil => exact fun h => h
  | cons x xs ih => exact fun h => ih (h.push x)

theorem ordered_initialHeap (nodes : List Node) : Ordered nodes (initialHeap nodes) :=
  Ordered.foldl _ List.Pairwise.nil

/-! ## The merges -/

/-- The trees of the heap and their weights: no sum has wrapped. -/
structure Weighed (w : Nat → Nat) (nodes : List Node) (heap : List Nat)
    (tree : Nat → CodeTree Nat) : Prop where
  weight : ∀ i ∈ heap, freqAt nodes i = treeWeight w (tree i)
  ordered : Ordered nodes heap
  total : (heap.map (freqAt nodes)).sum < 2 ^ 64

/-- Merging the two cheapest trees: their weights are added, without wrapping. -/
theorem Weighed.combined {w : Nat → Nat} {a b : Nat} {nodes : List Node} {heap : List Nat}
    {tree : Nat → CodeTree Nat} (h : Weighed w nodes (a :: b :: heap) tree) :
    u64 (freqAt nodes a + freqAt nodes b) = freqAt nodes a + freqAt nodes b := by
  have htotal := h.total
  simp only [List.map_cons, List.sum_cons] at htotal
  exact Nat.mod_eq_of_lt (by omega)

/-- The frequencies in the heap after a merge. -/
theorem map_freqAt_merge {a b : Nat} {nodes : List Node} {heap : List Nat} {n : Node}
    (hlt : ∀ i ∈ a :: b :: heap, i < nodes.length) :
    (nodes.length :: heap).map (freqAt (nodes ++ [n])) = n.freq :: heap.map (freqAt nodes) := by
  rw [List.map_cons, freqAt_length]
  congr 1
  exact List.map_congr_left fun i hi => freqAt_append (hlt i (by simp [hi])) _

theorem Weighed.merge {w : Nat → Nat} {n a b : Nat} {nodes : List Node} {heap : List Nat}
    {tree : Nat → CodeTree Nat} (h : Weighed w nodes (a :: b :: heap) tree)
    (hf : Forest n nodes (a :: b :: heap) tree) :
    Weighed w (nodes ++ [.inner (u64 (freqAt nodes a + freqAt nodes b)) a b])
      (push (nodes ++ [.inner (u64 (freqAt nodes a + freqAt nodes b)) a b]) nodes.length heap)
      (Function.update tree nodes.length (.node (tree a) (tree b))) := by
  rw [h.combined]
  have hperm := push_perm (nodes ++ [.inner (freqAt nodes a + freqAt nodes b) a b]) nodes.length heap
  have hkeep : ∀ i ∈ heap, freqAt (nodes ++ [.inner (freqAt nodes a + freqAt nodes b) a b]) i
      = freqAt nodes i := fun i hi => freqAt_append (hf.lt i (by simp [hi])) _
  refine { weight := ?_, ordered := ?_, total := ?_ }
  · intro i hi
    rcases List.mem_cons.mp (hperm.subset hi) with rfl | hi
    · rw [freqAt_length, Node.freq, Function.update_self, treeWeight_node,
        h.weight a (by simp), h.weight b (by simp)]
    · have hne : i ≠ nodes.length := Nat.ne_of_lt (hf.lt i (by simp [hi]))
      rw [hkeep i hi, Function.update_of_ne hne]
      exact h.weight i (by simp [hi])
  · refine Ordered.push ?_ _
    have hrest : Ordered nodes heap := (List.pairwise_cons.mp (List.pairwise_cons.mp h.ordered).2).2
    refine List.Pairwise.imp_of_mem (fun {i j} hi hj hij => ?_) hrest
    rw [hkeep i hi, hkeep j hj]
    exact hij
  · have htotal := h.total
    rw [(hperm.map _).sum_eq, map_freqAt_merge hf.lt, Node.freq]
    simp only [List.map_cons, List.sum_cons] at htotal ⊢
    omega

/-- The two nodes taken off the heap are the two of the smallest weights. -/
theorem Weighed.smallest {w : Nat → Nat} {a b : Nat} {nodes : List Node} {heap : List Nat}
    {tree : Nat → CodeTree Nat} (h : Weighed w nodes (a :: b :: heap) tree) :
    freqAt nodes a ≤ freqAt nodes b ∧
      ∀ x ∈ (heap.map (freqAt nodes) : Multiset Nat), freqAt nodes b ≤ x := by
  obtain ⟨ha, hrest⟩ := List.pairwise_cons.mp h.ordered
  obtain ⟨hb, -⟩ := List.pairwise_cons.mp hrest
  refine ⟨ha b List.mem_cons_self, fun x hx => ?_⟩
  obtain ⟨i, hi, rfl⟩ := List.mem_map.mp hx
  exact hb i hi

/-- The heap loop merges the smallest weights over and over; the tree costs what the merges
cost, on top of the trees it started from. -/
theorem mergeAll_merges {n : Nat} {w : Nat → Nat} : ∀ {nodes : List Node} {heap : List Nat}
    {tree : Nat → CodeTree Nat}, heap ≠ [] → Forest n nodes heap tree →
    Weighed w nodes heap tree →
    ∃ nodes' root t c, mergeAll nodes heap = .ok (nodes', root) ∧ Denotes nodes' root t ∧
      Merges (heap.map (freqAt nodes) : Multiset Nat) c ∧
      treeCost w t = c + (heap.map fun i => treeCost w (tree i)).sum := by
  intro nodes heap
  fun_induction mergeAll nodes heap with
  | case1 => exact fun h => absurd rfl h
  | case2 nodes root =>
      intro tree _ hf _
      refine ⟨nodes, root, tree root, 0, rfl, hf.denotes root (by simp), .single _, ?_⟩
      simp
  | case3 nodes a b heap =>
      rename_i ih
      intro tree _ hf hw
      have hperm := push_perm (nodes ++ [.inner (u64 (freqAt nodes a + freqAt nodes b)) a b])
        nodes.length heap
      have hne := hperm.symm.subset (List.mem_cons_self (a := nodes.length) (l := heap))
      obtain ⟨nodes', root, t, c, hrun, hden, hmerges, hcost⟩ :=
        ih (List.ne_nil_of_mem hne) (hf.merge.perm hperm) (hw.merge hf)
      refine ⟨nodes', root, t, freqAt nodes a + freqAt nodes b + c, hrun, hden, ?_, ?_⟩
      · rw [Multiset.coe_eq_coe.mpr (hperm.map _), map_freqAt_merge hf.lt, Node.freq] at hmerges
        refine .merge hw.smallest.1 hw.smallest.2 ?_
        rw [← hw.combined]
        exact hmerges
      · have hold : heap.map (fun i => treeCost w
            (Function.update tree nodes.length (.node (tree a) (tree b)) i))
            = heap.map fun i => treeCost w (tree i) := by
          refine List.map_congr_left fun i hi => ?_
          rw [Function.update_of_ne (Nat.ne_of_lt (hf.lt i (by simp [hi])))]
        rw [hcost, (hperm.map _).sum_eq, List.map_cons, List.sum_cons, hold, Function.update_self,
          treeCost_node, ← hw.weight a (by simp), ← hw.weight b (by simp)]
        simp only [List.map_cons, List.sum_cons]
        omega

/-! ## The tree -/

/-- The frequency of the symbol at leaf `i`. -/
def leafFreq (freq : FreqTable) (i : Nat) : Nat := freqAt (leafNodes freq (presentSymbols freq)) i

theorem map_leafFreq (freq : FreqTable) :
    (List.range (presentSymbols freq).length).map (leafFreq freq)
      = (presentSymbols freq).map fun s => freq.getD s 0 := by
  refine List.ext_getElem (by simp) fun i h₁ h₂ => ?_
  have hi : i < (presentSymbols freq).length := by simpa using h₂
  simp [leafFreq, freqAt, leafNodes, hi, Node.freq]

/-- The present symbols count for all. -/
theorem sum_present_le (freq : FreqTable) :
    ((presentSymbols freq).map fun s => freq.getD s 0).sum ≤ freq.sum := by
  have hsub : ((presentSymbols freq).map fun s => freq.getD s 0).Sublist
      ((List.range freq.length).map fun s => freq.getD s 0) :=
    ((presentSymbols_sublist freq).trans List.filter_sublist).map _
  rw [map_getD_range] at hsub
  exact hsub.sum_le_sum fun _ _ => Nat.zero_le _

theorem weighed_leafNodes {freq : FreqTable} (htotal : freq.sum < 2 ^ 64) :
    Weighed (leafFreq freq) (leafNodes freq (presentSymbols freq))
      (initialHeap (leafNodes freq (presentSymbols freq))) CodeTree.leaf := by
  refine { weight := ?_, ordered := ordered_initialHeap _, total := ?_ }
  · intro i _
    simp [treeWeight, CodeTree.leaves, leafFreq]
  · have hlen : (leafNodes freq (presentSymbols freq)).length = (presentSymbols freq).length := by
      simp [leafNodes]
    have hsum := ((initialHeap_perm (leafNodes freq (presentSymbols freq))).map
      (leafFreq freq)).sum_eq
    rw [hlen, map_leafFreq] at hsum
    exact hsum.trans_le (sum_present_le freq) |>.trans_lt htotal

theorem Denotes.unique {nodes : List Node} {i : Nat} {t t' : CodeTree Nat} (h : Denotes nodes i t)
    (h' : Denotes nodes i t') : t = t' := by
  induction h generalizing t' with
  | leaf hi =>
      cases h' with
      | leaf => rfl
      | inner hi' => simp [hi] at hi'
  | inner hi _ _ ihl ihr =>
      cases h' with
      | leaf hi' => simp [hi] at hi'
      | inner hi' hl hr =>
          rw [hi] at hi'
          cases hi'
          rw [ihl hl, ihr hr]

/-- The frequencies of the present symbols. -/
def presentFreqs (freq : FreqTable) : Multiset Nat := (presentSymbols freq).map fun s => freq.getD s 0

/-- The tree costs what merging the two smallest frequencies over and over costs. -/
theorem Merged.merges {freq : FreqTable} {nodes : List Node} {root : Nat} {t : CodeTree Nat}
    (h : Merged freq nodes root t) (hne : presentSymbols freq ≠ []) (htotal : freq.sum < 2 ^ 64) :
    Merges (presentFreqs freq) (treeCost (leafFreq freq) t) := by
  have hlen : (leafNodes freq (presentSymbols freq)).length = (presentSymbols freq).length := by
    simp [leafNodes]
  have hperm := initialHeap_perm (leafNodes freq (presentSymbols freq))
  obtain ⟨nodes', root', t', c, hrun, hden, hmerges, hcost⟩ :=
    mergeAll_merges (initialHeap_ne_nil hne) (forest_leafNodes freq (presentSymbols freq))
      (weighed_leafNodes htotal)
  have hsame := hrun.symm.trans h.merged
  cases hsame
  rw [hden.unique h.denotes] at hcost
  have hleaf : ∀ heap : List Nat,
      (heap.map fun i => treeCost (leafFreq freq) (CodeTree.leaf i)).sum = 0 := by
    intro heap
    simp
  rw [hleaf, Nat.add_zero] at hcost
  rw [hcost]
  have hweights : presentFreqs freq
      = (initialHeap (leafNodes freq (presentSymbols freq))).map (leafFreq freq) := by
    rw [presentFreqs, Multiset.coe_eq_coe, ← map_leafFreq, ← hlen]
    exact (hperm.map _).symm
  rw [hweights]
  exact hmerges

theorem Merged.weights {freq : FreqTable} {nodes : List Node} {root : Nat} {t : CodeTree Nat}
    (h : Merged freq nodes root t) :
    weights (treeItems (leafFreq freq) 0 t) = presentFreqs freq := by
  rw [weights_treeItems, presentFreqs, Multiset.coe_eq_coe, ← map_leafFreq]
  exact h.leaves.map _

/-! ## The table -/

/-- The sum over all symbols of frequency times length. -/
def weightedLength (freq : FreqTable) (len : Nat → Nat) : Nat :=
  ((List.range freq.length).map fun s => freq.getD s 0 * len s).sum

/-- Lengths for the present symbols that satisfy the Kraft inequality. -/
structure CodeLengths (freq : FreqTable) (len : Nat → Nat) : Prop where
  pos : ∀ s ∈ presentSymbols freq, 0 < len s
  kraft_le : ((presentSymbols freq).map fun s => (1 / 2 : ℚ) ^ len s).sum ≤ 1

/-- The same lengths for the present symbols, handed out in any way. -/
def SameLengths (freq : FreqTable) (len len' : Nat → Nat) : Prop :=
  ((presentSymbols freq).map len').Perm ((presentSymbols freq).map len)

/-- The items of the code. -/
def codeItems (freq : FreqTable) (len : Nat → Nat) : Multiset Item :=
  (presentSymbols freq).map fun s => (freq.getD s 0, len s)

/-- Absent symbols cost nothing. -/
theorem weightedLength_eq {freq : FreqTable} (hc : Covered freq) (len : Nat → Nat) :
    weightedLength freq len = cost (codeItems freq len) := by
  have hsum : ∀ xs : List Nat, (xs.map fun s => freq.getD s 0 * len s).sum
      = ((xs.filter fun s => freq.getD s 0 ≠ 0).map fun s => freq.getD s 0 * len s).sum := by
    intro xs
    induction xs with
    | nil => rfl
    | cons s xs ih =>
        rw [List.map_cons, List.sum_cons, ih, List.filter_cons]
        split
        case isTrue => rfl
        case isFalse hs =>
          have hzero : freq.getD s 0 = 0 := by simpa using hs
          rw [hzero, Nat.zero_mul, Nat.zero_add]
  rw [weightedLength, hsum, cost, codeItems, hc.presentSymbols_eq, Multiset.map_coe, List.map_map,
    Multiset.sum_coe]
  rfl

theorem weights_codeItems (freq : FreqTable) (len : Nat → Nat) :
    weights (codeItems freq len) = presentFreqs freq := by
  simp [weights, codeItems, presentFreqs, Function.comp_def]

theorem lengths_codeItems (freq : FreqTable) (len : Nat → Nat) :
    lengths (codeItems freq len) = ((presentSymbols freq).map len : Multiset Nat) := by
  simp [lengths, codeItems, Function.comp_def]

theorem space_codeItems (freq : FreqTable) (len : Nat → Nat) :
    space (lengths (codeItems freq len))
      = ((presentSymbols freq).map fun s => (1 / 2 : ℚ) ^ len s).sum := by
  rw [lengths_codeItems, space, Multiset.map_coe, Multiset.sum_coe, List.map_map]
  rfl

theorem Allotted.lengths_eq {freq : FreqTable} {nodes : List Node} {root : Nat}
    {t : CodeTree Nat} {ms : List Nat} {ls : LengthTable} (h : Allotted freq nodes root t ms ls) :
    lengths (codeItems freq fun s => ls.getD s 0) = (ms : Multiset Nat) := by
  rw [lengths_codeItems, Multiset.coe_eq_coe]
  refine ((byFrequency_perm freq).symm.map _).trans ?_
  rw [h.assigned.slots]
  exact ascending_perm h.bucketed

/-- Handed out by falling frequency, the lengths cost the least. -/
theorem Allotted.cost_le {freq : FreqTable} {nodes : List Node} {root : Nat} {t : CodeTree Nat}
    {ms : List Nat} {ls : LengthTable} (h : Allotted freq nodes root t ms ls)
    (hc : Covered freq) {P : Multiset Item} (hw : weights P = presentFreqs freq)
    (hl : lengths P = (ms : Multiset Nat)) :
    weightedLength freq (fun s => ls.getD s 0) ≤ cost P := by
  have hperm := byFrequency_perm freq
  have hsorted : ((byFrequency freq).map fun s => (freq.getD s 0, ls.getD s 0)).Pairwise
      fun p q => q.1 ≤ p.1 ∧ p.2 ≤ q.2 := by
    rw [List.pairwise_map]
    refine (h.pairwise_slots.and (pairwise_byFrequency freq)).imp fun {a b} hab => ⟨?_, hab.1⟩
    rcases moreFrequent_iff.mp hab.2 with hlt | ⟨heq, -⟩
    · exact hlt.le
    · exact heq.ge
  have hitems : (((byFrequency freq).map fun s => (freq.getD s 0, ls.getD s 0)) : Multiset Item)
      = codeItems freq fun s => ls.getD s 0 := Multiset.coe_eq_coe.mpr (hperm.map _)
  rw [weightedLength_eq hc, ← hitems]
  refine cost_le_of_sorted hsorted ?_ ?_
  · rw [hitems, weights_codeItems, hw]
  · rw [hitems, h.lengths_eq, hl]

/-- A table costs the least of all that hand out its lengths. -/
theorem Allotted.least_same {freq : FreqTable} {nodes : List Node} {root : Nat} {t : CodeTree Nat}
    {ms : List Nat} {ls : LengthTable} (h : Allotted freq nodes root t ms ls)
    (hc : Covered freq) :
    IsLeast {c | ∃ len, SameLengths freq (fun s => ls.getD s 0) len ∧ weightedLength freq len = c}
      (weightedLength freq fun s => ls.getD s 0) := by
  refine ⟨⟨_, List.Perm.refl _, rfl⟩, ?_⟩
  rintro c ⟨len, hsame, rfl⟩
  rw [weightedLength_eq hc len]
  refine h.cost_le hc (weights_codeItems freq len) (Eq.trans ?_ h.lengths_eq)
  rw [lengths_codeItems, lengths_codeItems, Multiset.coe_eq_coe]
  exact hsame

/-- The table is a code itself. -/
theorem Allotted.codeLengths {freq : FreqTable} {nodes : List Node} {root : Nat}
    {t : CodeTree Nat} {ms : List Nat} {ls : LengthTable} (h : Allotted freq nodes root t ms ls) :
    CodeLengths freq fun s => ls.getD s 0 := by
  refine { pos := ?_, kraft_le := ?_ }
  · intro s hs
    exact Nat.pos_of_ne_zero ((h.usable.present s).mpr hs)
  · have hpow : (0 : ℚ) < 2 ^ kMaxCodeLength := by positivity
    have hcast : ((kraft kMaxCodeLength ms : Nat) : ℚ) ≤ 2 ^ kMaxCodeLength := by
      exact_mod_cast h.kraft_le
    rw [← space_codeItems, h.lengths_eq, space_eq_div fun l hl => (h.bucketed l hl).2,
      Multiset.map_coe, Multiset.sum_coe, div_le_one hpow]
    exact hcast

/-- While no depth is clamped, the table costs the least of all codes. -/
theorem Allotted.least {freq : FreqTable} {nodes : List Node} {root : Nat} {t : CodeTree Nat}
    {ms : List Nat} {ls : LengthTable} (h : Allotted freq nodes root t ms ls)
    (hc : Covered freq) (hne : presentSymbols freq ≠ []) (htotal : freq.sum < 2 ^ 64)
    (hdepth : ∀ d ∈ t.depthsFrom 0, d ≤ kMaxCodeLength) :
    IsLeast {c | ∃ len, CodeLengths freq len ∧ weightedLength freq len = c}
      (weightedLength freq fun s => ls.getD s 0) := by
  refine ⟨⟨_, h.codeLengths, rfl⟩, ?_⟩
  rintro c ⟨len, hlen, rfl⟩
  have htree : lengths (treeItems (leafFreq freq) 0 t) = (ms : Multiset Nat) := by
    rw [lengths_treeItems, h.eq_depths hdepth]
  have hspace : space (lengths (codeItems freq len)) ≤ 1 := by
    rw [space_codeItems]
    exact hlen.kraft_le
  calc weightedLength freq (fun s => ls.getD s 0)
      ≤ treeCost (leafFreq freq) t := h.cost_le hc h.weights htree
    _ ≤ cost (codeItems freq len) :=
        (h.toMerged.merges hne htotal).le_cost (weights_codeItems freq len) hspace
    _ = weightedLength freq len := (weightedLength_eq hc len).symm

/-- A tree whose leaves are not too deep has at most `2 ^ 15` of them. -/
theorem Merged.card_le {freq : FreqTable} {nodes : List Node} {root : Nat} {t : CodeTree Nat}
    (h : Merged freq nodes root t) (hdepth : ∀ d ∈ t.depthsFrom 0, d ≤ kMaxCodeLength) :
    (presentSymbols freq).length ≤ 2 ^ kMaxCodeLength := by
  have hfull := CodeTree.kraft_depthsFrom hdepth
  have hlen := length_le_kraft kMaxCodeLength (t.depthsFrom 0)
  rwa [hfull, CodeTree.length_depthsFrom, h.length_leaves] at hlen

/-- **`buildLengths` is optimal.**  Of all codes while no leaf of its tree is too deep, of all
with its lengths whenever it has room for the symbols. -/
theorem buildLengths_optimal {freq : FreqTable} (hc : Covered freq)
    (h2 : 2 ≤ (freq.filter (· ≠ 0)).length) (htotal : freq.sum < 2 ^ 64) :
    ∃ nodes root t, mergeAll (leafNodes freq (presentSymbols freq))
        (initialHeap (leafNodes freq (presentSymbols freq))) = .ok (nodes, root) ∧
      Denotes nodes root t ∧
      ((∀ d ∈ t.depthsFrom 0, d ≤ kMaxCodeLength) → ∃ ls, buildLengths freq = .ok ls ∧
        IsLeast {c | ∃ len, CodeLengths freq len ∧ weightedLength freq len = c}
          (weightedLength freq fun s => ls.getD s 0)) ∧
      ((freq.filter (· ≠ 0)).length ≤ 2 ^ kMaxCodeLength → ∃ ls, buildLengths freq = .ok ls ∧
        IsLeast {c | ∃ len, SameLengths freq (fun s => ls.getD s 0) len ∧
            weightedLength freq len = c}
          (weightedLength freq fun s => ls.getD s 0)) ∧
      ((∃ ls, buildLengths freq = .ok ls) → (freq.filter (· ≠ 0)).length ≤ 2 ^ kMaxCodeLength) := by
  rw [← hc.length_presentSymbols] at *
  obtain ⟨nodes, root, t, hm⟩ := exists_merged (ne_nil_of_two_le h2)
  refine ⟨nodes, root, t, hm.merged, hm.denotes, ?_, ?_, buildLengths_ok_iff.mp⟩
  · intro hdepth
    obtain ⟨nodes', root', t', ms, ls, hok, ha⟩ := buildLengths_allotted h2 (hm.card_le hdepth)
    have hsame := ha.merged.symm.trans hm.merged
    cases hsame
    rw [← ha.denotes.unique hm.denotes] at hdepth
    exact ⟨ls, hok, ha.least hc (ne_nil_of_two_le h2) htotal hdepth⟩
  · intro hcard
    obtain ⟨nodes', root', t', ms, ls, hok, ha⟩ := buildLengths_allotted h2 hcard
    exact ⟨ls, hok, ha.least_same hc⟩

theorem buildLengths_optimal_run :
    ∃ nodes root t, mergeAll (leafNodes [5, 0, 3, 1] (presentSymbols [5, 0, 3, 1]))
        (initialHeap (leafNodes [5, 0, 3, 1] (presentSymbols [5, 0, 3, 1]))) = .ok (nodes, root) ∧
      Denotes nodes root t ∧
      ((∀ d ∈ t.depthsFrom 0, d ≤ kMaxCodeLength) → ∃ ls, buildLengths [5, 0, 3, 1] = .ok ls ∧
        IsLeast {c | ∃ len, CodeLengths [5, 0, 3, 1] len ∧ weightedLength [5, 0, 3, 1] len = c}
          (weightedLength [5, 0, 3, 1] fun s => ls.getD s 0)) ∧
      (([5, 0, 3, 1].filter (· ≠ 0)).length ≤ 2 ^ kMaxCodeLength →
        ∃ ls, buildLengths [5, 0, 3, 1] = .ok ls ∧
          IsLeast {c | ∃ len, SameLengths [5, 0, 3, 1] (fun s => ls.getD s 0) len ∧
              weightedLength [5, 0, 3, 1] len = c}
            (weightedLength [5, 0, 3, 1] fun s => ls.getD s 0)) ∧
      ((∃ ls, buildLengths [5, 0, 3, 1] = .ok ls) →
        ([5, 0, 3, 1].filter (· ≠ 0)).length ≤ 2 ^ kMaxCodeLength) :=
  buildLengths_optimal (covered_of_lt (by decide)) (by decide) (by decide)

/-- A code of at most 15 bits has no room for `2 ^ 15 + 1` symbols: the limiter finds no leaf
to push down, and there is no result to cost anything. -/
theorem buildLengths_crowded :
    2 ≤ ((List.replicate 32769 1).filter (· ≠ 0)).length ∧ (List.replicate 32769 1).sum < 2 ^ 64 ∧
      ¬ ∃ ls, buildLengths (List.replicate 32769 1) = .ok ls ∧
        IsLeast {c | ∃ len, SameLengths (List.replicate 32769 1) (fun s => ls.getD s 0) len ∧
            weightedLength (List.replicate 32769 1) len = c}
          (weightedLength (List.replicate 32769 1) fun s => ls.getD s 0) := by
  have hall : (List.replicate 32769 1).filter (· ≠ 0) = List.replicate 32769 1 := by
    rw [List.filter_replicate, if_pos (by decide)]
  have hcovered : Covered (List.replicate 32769 1) :=
    covered_of_lt (by rw [List.length_replicate]; decide)
  refine ⟨?_, ?_, ?_⟩
  · rw [hall, List.length_replicate]
    decide
  · rw [List.sum_replicate]
    decide
  · rintro ⟨ls, hok, -⟩
    have hcard := buildLengths_ok_iff.mp ⟨ls, hok⟩
    rw [hcovered.length_presentSymbols, hall, List.length_replicate] at hcard
    exact absurd hcard (by decide)

end Compressly.Huffman

/-
# `Compressly.Huffman.Depth` — what it takes to reach the length limit

The tree of `buildLengths` is a tree of merges of the two lightest (`Grown`), so
a leaf at depth `d` takes `fib (d + 2)` times the least count (`depth_bound`).
Depth 16 takes 2584 times.  On anything smaller the limiter has nothing to repair:
the code uses up the code space and is optimal (`buildLengths_small`).  Fibonacci counts make
the tree a chain, and from 17 symbols on it is entered (`fibonacci_depth`).
-/
import Compressly.Huffman.Optimal
import Compressly.Lib.TreeHeight

namespace Compressly.Huffman

open Kraft OptimalCode CodeTree

/-- The trees of the heap stay fair to each other. -/
theorem Weighed.grove {w : Nat → Nat} {n a b : Nat} {nodes : List Node} {heap : List Nat}
    {tree : Nat → CodeTree Nat} (h : Weighed w nodes (a :: b :: heap) tree)
    (hf : Forest n nodes (a :: b :: heap) tree)
    (hg : Grove w ((a :: b :: heap).map tree)) {heap' : List Nat}
    (hperm : heap'.Perm (nodes.length :: heap)) :
    Grove w (heap'.map (Function.update tree nodes.length (.node (tree a) (tree b)))) := by
  have hold : heap.map (Function.update tree nodes.length (.node (tree a) (tree b)))
      = heap.map tree := by
    refine List.map_congr_left fun i hi => ?_
    exact Function.update_of_ne (Nat.ne_of_lt (hf.lt i (by simp [hi]))) _ _
  refine Grove.perm ?_ (hperm.map _)
  rw [List.map_cons, hold, Function.update_self]
  obtain ⟨hab, hb⟩ := h.smallest
  rw [h.weight a (by simp), h.weight b (by simp)] at hab
  refine hg.merge hab fun t ht => ?_
  obtain ⟨i, hi, rfl⟩ := List.mem_map.mp ht
  have hle := hb _ (List.mem_map_of_mem hi)
  rwa [h.weight b (by simp), h.weight i (by simp [hi])] at hle

/-- What the heap loop builds has grown by merges of the two lightest. -/
theorem mergeAll_grown {n : Nat} {w : Nat → Nat} : ∀ {nodes : List Node} {heap : List Nat}
    {tree : Nat → CodeTree Nat}, heap ≠ [] → Forest n nodes heap tree →
    Weighed w nodes heap tree → Grove w (heap.map tree) →
    ∃ nodes' root t, mergeAll nodes heap = .ok (nodes', root) ∧ Denotes nodes' root t ∧
      Grown w t := by
  intro nodes heap
  fun_induction mergeAll nodes heap with
  | case1 => exact fun h => absurd rfl h
  | case2 nodes root =>
      intro tree _ hf _ hg
      exact ⟨nodes, root, tree root, rfl, hf.denotes root (by simp), hg.grown _ (by simp)⟩
  | case3 nodes a b heap =>
      rename_i ih
      intro tree _ hf hw hg
      have hperm := push_perm (nodes ++ [.inner (u64 (freqAt nodes a + freqAt nodes b)) a b])
        nodes.length heap
      have hne := hperm.symm.subset (List.mem_cons_self (a := nodes.length) (l := heap))
      exact ih (List.ne_nil_of_mem hne) (hf.merge.perm hperm) (hw.merge hf) (hw.grove hf hg hperm)

theorem Merged.grown {freq : FreqTable} {nodes : List Node} {root : Nat} {t : CodeTree Nat}
    (h : Merged freq nodes root t) (hne : presentSymbols freq ≠ []) (htotal : freq.sum < 2 ^ 64) :
    Grown (leafFreq freq) t := by
  obtain ⟨nodes', root', t', hrun, hden, hgrown⟩ :=
    mergeAll_grown (initialHeap_ne_nil hne) (forest_leafNodes freq (presentSymbols freq))
      (weighed_leafNodes htotal) (grove_leaves _)
  have hsame := hrun.symm.trans h.merged
  cases hsame
  rwa [← hden.unique h.denotes]

/-- The leaves are present symbols, and count for no more than all. -/
theorem Merged.treeWeight_le {freq : FreqTable} {nodes : List Node} {root : Nat}
    {t : CodeTree Nat} (h : Merged freq nodes root t) :
    treeWeight (leafFreq freq) t ≤ freq.sum ∧
      ∀ i ∈ t.leaves, ∃ s ∈ presentSymbols freq, freq.getD s 0 = leafFreq freq i := by
  have hperm := h.leaves.map (leafFreq freq)
  rw [map_leafFreq] at hperm
  refine ⟨?_, fun i hi => List.mem_map.mp (hperm.subset (List.mem_map_of_mem hi))⟩
  rw [treeWeight, hperm.sum_eq]
  exact sum_present_le freq

theorem Merged.fib_le {freq : FreqTable} {nodes : List Node} {root : Nat} {t : CodeTree Nat}
    {c : Nat} (hm : Merged freq nodes root t) (hne : presentSymbols freq ≠ [])
    (htotal : freq.sum < 2 ^ 64) (hleast : ∀ s ∈ presentSymbols freq, c ≤ freq.getD s 0) :
    ∀ d ∈ t.depthsFrom 0, c * Nat.fib (d + 2) ≤ freq.sum := by
  intro d hd
  obtain ⟨hle, hleaf⟩ := hm.treeWeight_le
  have hheight : d ≤ t.height := by simpa using le_height hd
  have hc : ∀ i ∈ t.leaves, c ≤ leafFreq freq i := fun i hi => by
    obtain ⟨s, hs, heq⟩ := hleaf i hi
    exact heq ▸ hleast s hs
  calc c * Nat.fib (d + 2) ≤ c * Nat.fib (t.height + 2) :=
        Nat.mul_le_mul_left c (Nat.fib_mono (by omega))
    _ ≤ treeWeight (leafFreq freq) t := (hm.grown hne htotal).fib_le hc
    _ ≤ freq.sum := hle

/-- **The depth of the tree.**  A leaf at depth `d` takes `fib (d + 2)` times the least count. -/
theorem depth_bound {freq : FreqTable} {c : Nat} (hne : presentSymbols freq ≠ [])
    (htotal : freq.sum < 2 ^ 64) (hleast : ∀ s ∈ presentSymbols freq, c ≤ freq.getD s 0) :
    ∃ nodes root t, mergeAll (leafNodes freq (presentSymbols freq))
        (initialHeap (leafNodes freq (presentSymbols freq))) = .ok (nodes, root) ∧
      Denotes nodes root t ∧ ∀ d ∈ t.depthsFrom 0, c * Nat.fib (d + 2) ≤ freq.sum := by
  obtain ⟨nodes, root, t, hm⟩ := exists_merged hne
  exact ⟨nodes, root, t, hm.merged, hm.denotes, hm.fib_le hne htotal hleast⟩

theorem depth_bound_three : ∃ nodes root t,
    mergeAll (leafNodes [2, 2, 4] (presentSymbols [2, 2, 4]))
      (initialHeap (leafNodes [2, 2, 4] (presentSymbols [2, 2, 4]))) = .ok (nodes, root) ∧
    Denotes nodes root t ∧ ∀ d ∈ t.depthsFrom 0, 2 * Nat.fib (d + 2) ≤ [2, 2, 4].sum :=
  depth_bound (by decide) (by decide) (by decide)

theorem Merged.depth_le {freq : FreqTable} {nodes : List Node} {root : Nat} {t : CodeTree Nat}
    {c : Nat} (hm : Merged freq nodes root t) (hne : presentSymbols freq ≠ [])
    (htotal : freq.sum < 2 ^ 64) (hleast : ∀ s ∈ presentSymbols freq, c ≤ freq.getD s 0)
    (hsmall : freq.sum < 2584 * c) : ∀ d ∈ t.depthsFrom 0, d ≤ kMaxCodeLength := by
  intro d hd
  by_contra hdeep
  have hfib : Nat.fib 18 ≤ Nat.fib (d + 2) := by
    refine Nat.fib_mono ?_
    unfold kMaxCodeLength at hdeep
    omega
  have h18 : Nat.fib 18 = 2584 := by decide
  have hmul := Nat.mul_le_mul_left c hfib
  have hd' := hm.fib_le hne htotal hleast d hd
  rw [h18, Nat.mul_comm c] at hmul
  omega

theorem buildLengths_unlimited {freq : FreqTable} {c : Nat} (h2 : 2 ≤ (presentSymbols freq).length)
    (htotal : freq.sum < 2 ^ 64) (hleast : ∀ s ∈ presentSymbols freq, c ≤ freq.getD s 0)
    (hsmall : freq.sum < 2584 * c) :
    ∃ nodes root t ms ls, buildLengths freq = .ok ls ∧ Allotted freq nodes root t ms ls ∧
      ∀ d ∈ t.depthsFrom 0, d ≤ kMaxCodeLength := by
  obtain ⟨nodes, root, t, hm⟩ := exists_merged (ne_nil_of_two_le h2)
  have hdepth := hm.depth_le (ne_nil_of_two_le h2) htotal hleast hsmall
  obtain ⟨nodes', root', t', ms, ls, hok, ha⟩ := buildLengths_allotted h2 (hm.card_le hdepth)
  have hsame := ha.merged.symm.trans hm.merged
  cases hsame
  rw [← ha.denotes.unique hm.denotes] at hdepth
  exact ⟨_, _, t', ms, ls, hok, ha, hdepth⟩

/-- **Below 2584 times the least count the limit is out of reach.**  The code uses up the code
space, and of all codes for the symbols it costs the least. -/
theorem buildLengths_small {freq : FreqTable} {c : Nat} (hc : Covered freq)
    (h2 : 2 ≤ (presentSymbols freq).length) (htotal : freq.sum < 2 ^ 64)
    (hleast : ∀ s ∈ presentSymbols freq, c ≤ freq.getD s 0) (hsmall : freq.sum < 2584 * c) :
    ∃ ls, buildLengths freq = .ok ls ∧
      kraft kMaxCodeLength (ls.filter (· ≠ 0)) = 2 ^ kMaxCodeLength ∧
      IsLeast {c | ∃ len, CodeLengths freq len ∧ weightedLength freq len = c}
        (weightedLength freq fun s => ls.getD s 0) := by
  obtain ⟨nodes, root, t, ms, ls, hok, ha, hdepth⟩ := buildLengths_unlimited h2 htotal hleast hsmall
  exact ⟨ls, hok, ha.kraft_eq hdepth, ha.least hc (ne_nil_of_two_le h2) htotal hdepth⟩

theorem buildLengths_small_three : ∃ ls, buildLengths [2, 2, 4] = .ok ls ∧
    kraft kMaxCodeLength (ls.filter (· ≠ 0)) = 2 ^ kMaxCodeLength ∧
    IsLeast {c | ∃ len, CodeLengths [2, 2, 4] len ∧ weightedLength [2, 2, 4] len = c}
      (weightedLength [2, 2, 4] fun s => ls.getD s 0) :=
  buildLengths_small (c := 2) (covered_of_lt (by decide)) (by decide) (by decide) (by decide) (by decide)

/-! ## Fibonacci counts -/

/-- The clamped depths exceed the code space where a depth is clamped. -/
theorem kraft_bucketDepths_le_iff {t : CodeTree Nat} :
    kraft kMaxCodeLength (bucketDepths t 0) ≤ 2 ^ kMaxCodeLength ↔
      ∀ d ∈ t.depthsFrom 0, d ≤ kMaxCodeLength := by
  constructor
  · intro hle
    by_contra hdeep
    push Not at hdeep
    obtain ⟨d, hd, hlt⟩ := hdeep
    -- in units small enough for every depth, clamping makes each code take no less space
    have hD : kMaxCodeLength ≤ t.height := (Nat.le_of_lt hlt).trans (by simpa using le_height hd)
    have hfull : kraft t.height (t.depthsFrom 0) = 2 ^ t.height :=
      kraft_depthsFrom fun k hk => by simpa using le_height hk
    have hscale : ∀ ds : List Nat,
        kraft t.height (ds.map fun k => min k kMaxCodeLength)
          = 2 ^ (t.height - kMaxCodeLength)
            * kraft kMaxCodeLength (ds.map fun k => min k kMaxCodeLength) := by
      intro ds
      induction ds with
      | nil => simp
      | cons k ds ih =>
          rw [List.map_cons, kraft_cons, kraft_cons, ih, Nat.mul_add, ← Nat.pow_add]
          congr 2
          omega
    have hmono : ∀ ds : List Nat, kraft t.height ds
        ≤ kraft t.height (ds.map fun k => min k kMaxCodeLength) := by
      intro ds
      induction ds with
      | nil => exact Nat.le_refl _
      | cons k ds ih =>
          rw [List.map_cons, kraft_cons, kraft_cons]
          exact Nat.add_le_add (Nat.pow_le_pow_right (by decide) (by omega)) ih
    have hstrict : kraft t.height (t.depthsFrom 0)
        < kraft t.height ((t.depthsFrom 0).map fun k => min k kMaxCodeLength) := by
      obtain ⟨before, after, heq⟩ := List.append_of_mem hd
      have hdh : d ≤ t.height := by simpa using le_height hd
      rw [heq, List.map_append, List.map_cons, kraft_append, kraft_append, kraft_cons, kraft_cons]
      have hone : 2 ^ (t.height - d) < 2 ^ (t.height - min d kMaxCodeLength) :=
        Nat.pow_lt_pow_right (by decide) (by omega)
      have hbefore := hmono before
      have hafter := hmono after
      omega
    rw [hfull, hscale] at hstrict
    have hmul := Nat.mul_le_mul_left (2 ^ (t.height - kMaxCodeLength)) hle
    rw [← Nat.pow_add, Nat.sub_add_cancel hD] at hmul
    exact absurd (hstrict.trans_le hmul) (Nat.lt_irrefl _)
  · intro hdepth
    have hclamp : bucketDepths t 0 = t.depthsFrom 0 := by
      rw [bucketDepths, List.map_congr_left fun d hd => Nat.min_eq_left (hdepth d hd), List.map_id']
    rw [hclamp, kraft_depthsFrom hdepth, Nat.sub_zero]

/-- The counts 1, 1, 2, 3, 5, ... of `m` symbols, and some that do not occur. -/
def fibCounts (m absent : Nat) : FreqTable :=
  (List.range m).map (fun i => Nat.fib (i + 1)) ++ List.replicate absent 0

variable {m absent : Nat}

theorem length_fibCounts : (fibCounts m absent).length = m + absent := by
  simp [fibCounts]

theorem getD_fibCounts {i : Nat} (hi : i < m) :
    (fibCounts m absent).getD i 0 = Nat.fib (i + 1) := by
  rw [fibCounts, List.getD_append _ _ _ _ (by simpa using hi)]
  rw [List.getD_eq_getElem _ _ (by simpa using hi)]
  simp

theorem countedSymbols_fibCounts : countedSymbols (fibCounts m absent) = List.range m := by
  rw [countedSymbols, length_fibCounts, List.range_eq_range', ← List.range'_append_1, List.filter_append,
    ← List.range_eq_range', Nat.zero_add]
  have hpresent : ((List.range m).filter fun s => (fibCounts m absent).getD s 0 ≠ 0)
      = List.range m := by
    refine List.filter_eq_self.mpr fun i hi => ?_
    rw [getD_fibCounts (List.mem_range.mp hi)]
    simp
  have habsent :
      ((List.range' m absent).filter fun s => (fibCounts m absent).getD s 0 ≠ 0) = [] := by
    refine List.filter_eq_nil_iff.mpr fun i hi => ?_
    have hle : m ≤ i := (List.mem_range'_1.mp hi).1
    have hzero : (fibCounts m absent).getD i 0 = 0 := by
      rw [fibCounts, List.getD_append_right _ _ _ _ (by simpa using hle),
        List.getD_eq_getElem?_getD, List.getElem?_replicate]
      split <;> rfl
    rw [hzero]
    decide
  rw [hpresent, habsent, List.append_nil]

theorem presentSymbols_fibCounts (hsize : m + absent < 2 ^ 31) :
    presentSymbols (fibCounts m absent) = List.range m := by
  rw [(covered_of_lt (length_fibCounts.trans_lt hsize)).presentSymbols_eq,
    countedSymbols_fibCounts]

theorem sum_fibCounts : (fibCounts m absent).sum + 1 = Nat.fib (m + 2) := by
  have hzero : (List.replicate absent 0).sum = 0 := by simp
  rw [fibCounts, List.sum_append, hzero, Nat.add_zero]
  induction m with
  | zero => rfl
  | succ m ih =>
      have hfib : Nat.fib (m + 1 + 2) = Nat.fib (m + 1) + Nat.fib (m + 2) := Nat.fib_add_two
      rw [List.range_succ, List.map_append, List.sum_append, List.map_singleton,
        List.sum_singleton, hfib]
      omega

/-- A node table that begins with the leaves of the `m` symbols. -/
def FibLeaves (m : Nat) (nodes : List Node) : Prop :=
  ∀ i < m, nodes[i]? = some (.leaf (Nat.fib (i + 1)))

theorem FibLeaves.append {m : Nat} {nodes : List Node} (h : FibLeaves m nodes) (more : List Node) :
    FibLeaves m (nodes ++ more) := by
  intro i hi
  have hlt : i < nodes.length := (List.getElem?_eq_some_iff.mp (h i hi)).1
  rw [List.getElem?_append_left hlt]
  exact h i hi

theorem FibLeaves.freqAt {m : Nat} {nodes : List Node} (h : FibLeaves m nodes) {i : Nat}
    (hi : i < m) : freqAt nodes i = Nat.fib (i + 1) := by
  rw [Huffman.freqAt, h i hi]
  rfl

/-- The sum of the counts before `x` and that of `x` goes behind the next leaf, and before the
one after. -/
theorem push_fib {m x new : Nat} {nodes : List Node} (h : FibLeaves m nodes) (hm : m ≤ new)
    (hnew : freqAt nodes new + 1 = Nat.fib (x + 3)) :
    push nodes new (List.range' (x + 1) (m - (x + 1)))
      = if x + 1 < m then (x + 1) :: new :: List.range' (x + 2) (m - (x + 2)) else [new] := by
  have hfib : Nat.fib (x + 3) = Nat.fib (x + 1) + Nat.fib (x + 2) := Nat.fib_add_two
  have hpos : 0 < Nat.fib (x + 1) := Nat.fib_pos.mpr (Nat.succ_pos x)
  by_cases hx : x + 1 < m
  · have hsplit : m - (x + 1) = m - (x + 2) + 1 := by omega
    have hfirst : cheaper nodes new (x + 1) = true := by
      have hf : freqAt nodes (x + 1) = Nat.fib (x + 2) := h.freqAt hx
      rw [cheaper, hf]
      split
      case isTrue hne =>
        rw [decide_eq_true_iff]
        omega
      case isFalse =>
        rw [decide_eq_true_iff]
        omega
    rw [if_pos hx, hsplit, List.range'_succ, push, if_pos hfirst]
    by_cases hx2 : x + 2 < m
    · have hsplit2 : m - (x + 2) = m - (x + 3) + 1 := by omega
      have hsecond : cheaper nodes new (x + 2) = false := by
        have hf : freqAt nodes (x + 2) = Nat.fib (x + 3) := h.freqAt hx2
        rw [cheaper, hf, if_pos (by omega), decide_eq_false_iff_not]
        omega
      rw [hsplit2, List.range'_succ, push, hsecond, if_neg (by decide)]
    · have hnil : m - (x + 2) = 0 := by omega
      rw [hnil]
      rfl
  · have hnil : m - (x + 1) = 0 := by omega
    rw [if_neg hx, hnil]
    rfl

/-- The chain: each merge takes the next leaf and what has been merged so far. -/
theorem mergeAll_fib (htotal : (fibCounts m absent).sum < 2 ^ 64) :
    ∀ (left : Nat) {x new : Nat} {nodes : List Node} {t : CodeTree Nat}, m = x + 1 + left →
      FibLeaves m nodes → m ≤ new → freqAt nodes new + 1 = Nat.fib (x + 2) → Denotes nodes new t →
      ∃ nodes' root t', mergeAll nodes (x :: new :: List.range' (x + 1) left) = .ok (nodes', root) ∧
        Denotes nodes' root t' ∧ t'.height = max 0 t.height + 1 + left := by
  intro left
  induction left with
  | zero =>
      intro x new nodes t hm hleaves hle hnew ht
      have hx : Denotes nodes x (.leaf x) := .leaf (hleaves x (by omega))
      have hinner :
          (nodes ++ [Node.inner (u64 (freqAt nodes x + freqAt nodes new)) x new])[nodes.length]?
            = some (.inner (u64 (freqAt nodes x + freqAt nodes new)) x new) := by simp
      refine ⟨_, nodes.length, .node (.leaf x) t, ?_,
        .inner hinner (hx.append _) (ht.append _), rfl⟩
      rw [List.range'_zero, mergeAll, push, mergeAll]
      rfl
  | succ left ih =>
      intro x new nodes t hm hleaves hle hnew ht
      have hx : Denotes nodes x (.leaf x) := .leaf (hleaves x (by omega))
      have hlen : m ≤ nodes.length := by
        have hlast := (List.getElem?_eq_some_iff.mp (hleaves (m - 1) (by omega))).1
        omega
      -- no sum wraps
      have hfib : Nat.fib (x + 3) = Nat.fib (x + 1) + Nat.fib (x + 2) := Nat.fib_add_two
      have hsum : freqAt nodes x + freqAt nodes new + 1 = Nat.fib (x + 3) := by
        rw [hleaves.freqAt (by omega)]
        omega
      have hall : (fibCounts m absent).sum + 1 = Nat.fib (m + 2) := sum_fibCounts
      have hmono : Nat.fib (x + 3) ≤ Nat.fib (m + 2) := Nat.fib_mono (by omega)
      have hwrap : u64 (freqAt nodes x + freqAt nodes new) = freqAt nodes x + freqAt nodes new :=
        u64_of_lt (by omega)
      have hinner : (nodes ++ [Node.inner (freqAt nodes x + freqAt nodes new) x new])[nodes.length]?
          = some (.inner (freqAt nodes x + freqAt nodes new) x new) := by simp
      have hfreq : freqAt (nodes ++ [Node.inner (freqAt nodes x + freqAt nodes new) x new])
          nodes.length + 1 = Nat.fib (x + 3) := by
        rw [freqAt_length, Node.freq, hsum]
      have hpush := push_fib (hleaves.append [.inner (freqAt nodes x + freqAt nodes new) x new])
        hlen hfreq
      have hrest : m - (x + 1) = left + 1 := by omega
      have hrest2 : m - (x + 2) = left := by omega
      rw [hrest, hrest2, if_pos (by omega)] at hpush
      obtain ⟨nodes', root, t', hrun, hden, hheight⟩ :=
        ih (x := x + 1) (by omega) (hleaves.append _) hlen hfreq
          (.inner hinner (hx.append _) (ht.append _))
      refine ⟨nodes', root, t', ?_, hden, ?_⟩
      · rw [mergeAll]
        simp only [hwrap]
        rw [hpush]
        exact hrun
      · rw [hheight, height, height]
        omega

theorem push_last {nodes : List Node} {i : Nat} : ∀ {heap : List Nat},
    (∀ j ∈ heap, j < i ∧ freqAt nodes j ≤ freqAt nodes i) → push nodes i heap = heap ++ [i]
  | [], _ => rfl
  | j :: heap, h => by
      obtain ⟨hlt, hle⟩ := h j List.mem_cons_self
      have hbehind : cheaper nodes i j = true := by
        rw [cheaper]
        split
        case isTrue hne =>
          rw [decide_eq_true_iff]
          omega
        case isFalse =>
          rw [decide_eq_true_iff]
          exact hlt
      rw [push, if_pos hbehind, push_last fun k hk => h k (List.mem_cons_of_mem _ hk)]
      rfl

theorem initialHeap_sorted {nodes : List Node}
    (h : ∀ i j, i < j → j < nodes.length → freqAt nodes i ≤ freqAt nodes j) :
    initialHeap nodes = List.range nodes.length := by
  have hall : ∀ n ≤ nodes.length,
      (List.range n).foldl (fun heap i => push nodes i heap) [] = List.range n := by
    intro n
    induction n with
    | zero => exact fun _ => rfl
    | succ n ih =>
        intro hn
        rw [List.range_succ, List.foldl_append, ih (by omega)]
        refine push_last fun j hj => ?_
        have hlt := List.mem_range.mp hj
        exact ⟨hlt, h j n hlt hn⟩
  exact hall _ (Nat.le_refl _)

theorem fibLeaves_leafNodes (hsize : m + absent < 2 ^ 31) :
    FibLeaves m (leafNodes (fibCounts m absent) (presentSymbols (fibCounts m absent))) := by
  intro i hi
  rw [presentSymbols_fibCounts hsize, leafNodes, List.getElem?_map, List.getElem?_range hi]
  exact congrArg (fun f => some (Node.leaf f)) (getD_fibCounts hi)

theorem initialHeap_fib (hsize : m + absent < 2 ^ 31) :
    initialHeap (leafNodes (fibCounts m absent) (presentSymbols (fibCounts m absent)))
      = List.range m := by
  have hlen :
      (leafNodes (fibCounts m absent) (presentSymbols (fibCounts m absent))).length = m := by
    simp [leafNodes, presentSymbols_fibCounts hsize]
  have hsorted : initialHeap (leafNodes (fibCounts m absent) (presentSymbols (fibCounts m absent)))
      = _ := initialHeap_sorted fun i j hij hj => by
    rw [hlen] at hj
    have hleaves := fibLeaves_leafNodes hsize
    rw [hleaves.freqAt hj, hleaves.freqAt (hij.trans hj)]
    exact Nat.fib_mono (by omega)
  rwa [hlen] at hsorted

/-- The tree of Fibonacci counts is a chain. -/
theorem fib_chain (h2 : 2 ≤ m) (hsize : m + absent < 2 ^ 31)
    (htotal : (fibCounts m absent).sum < 2 ^ 64) :
    ∃ nodes root t, mergeAll (leafNodes (fibCounts m absent) (presentSymbols (fibCounts m absent)))
        (initialHeap (leafNodes (fibCounts m absent) (presentSymbols (fibCounts m absent))))
          = .ok (nodes, root) ∧
      Denotes nodes root t ∧ t.height = m - 1 := by
  have hleaves :
      FibLeaves m (leafNodes (fibCounts m absent) (presentSymbols (fibCounts m absent))) :=
    fibLeaves_leafNodes hsize
  have hlen :
      (leafNodes (fibCounts m absent) (presentSymbols (fibCounts m absent))).length = m := by
    simp [leafNodes, presentSymbols_fibCounts hsize]
  rw [initialHeap_fib hsize]
  generalize leafNodes (fibCounts m absent) (presentSymbols (fibCounts m absent)) = nodes
    at hleaves hlen
  -- the first merge joins the two symbols of count 1
  have h0 : Denotes nodes 0 (.leaf 0) := .leaf (hleaves 0 (by omega))
  have h1 : Denotes nodes 1 (.leaf 1) := .leaf (hleaves 1 (by omega))
  have hf0 : freqAt nodes 0 = 1 := hleaves.freqAt (by omega)
  have hf1 : freqAt nodes 1 = 1 := hleaves.freqAt (by omega)
  have hrange : List.range m = 0 :: 1 :: List.range' 2 (m - 2) := by
    obtain ⟨k, rfl⟩ : ∃ k, m = k + 2 := ⟨m - 2, by omega⟩
    rw [List.range_eq_range', List.range'_succ, List.range'_succ]
    rfl
  have hinner : (nodes ++ [Node.inner (u64 (freqAt nodes 0 + freqAt nodes 1)) 0 1])[nodes.length]?
      = some (.inner (u64 (freqAt nodes 0 + freqAt nodes 1)) 0 1) := by simp
  have hden : Denotes (nodes ++ [Node.inner (u64 (freqAt nodes 0 + freqAt nodes 1)) 0 1])
      nodes.length (.node (.leaf 0) (.leaf 1)) := .inner hinner (h0.append _) (h1.append _)
  have hfreq : freqAt (nodes ++ [Node.inner (u64 (freqAt nodes 0 + freqAt nodes 1)) 0 1])
      nodes.length + 1 = Nat.fib (1 + 3) := by
    rw [freqAt_length, Node.freq, hf0, hf1]
    decide
  have hpush := push_fib
    (hleaves.append [.inner (u64 (freqAt nodes 0 + freqAt nodes 1)) 0 1]) hlen.ge hfreq
  rw [hrange, mergeAll]
  rw [show m - 2 = m - (1 + 1) from rfl, show (2 : Nat) = 1 + 1 from rfl, hpush]
  by_cases h3 : 1 + 1 < m
  · rw [if_pos h3]
    obtain ⟨nodes', root, t, hrun, hroot, hheight⟩ :=
      mergeAll_fib htotal (m - (1 + 2)) (x := 1 + 1) (by omega) (hleaves.append _) hlen.ge hfreq
        hden
    refine ⟨nodes', root, t, hrun, hroot, ?_⟩
    rw [hheight, height, height, height]
    omega
  · rw [if_neg h3]
    refine ⟨_, _, _, ?_, hden, ?_⟩
    · rw [mergeAll]
      rfl
    · rw [height, height, height]
      omega

/-- **Fibonacci counts reach any depth.**  On the counts 1, 1, 2, 3, 5, ... of `m` symbols the
tree has depth `m - 1`, and from 17 symbols on the clamped lengths exceed the code space: the
limiter has to repair them. -/
theorem fibonacci_depth (h2 : 2 ≤ m) (hsize : m + absent < 2 ^ 31)
    (htotal : (fibCounts m absent).sum < 2 ^ 64) :
    ∃ nodes root t, mergeAll (leafNodes (fibCounts m absent) (presentSymbols (fibCounts m absent)))
        (initialHeap (leafNodes (fibCounts m absent) (presentSymbols (fibCounts m absent))))
          = .ok (nodes, root) ∧
      Denotes nodes root t ∧ t.height = m - 1 ∧
      (2 ^ kMaxCodeLength < kraft kMaxCodeLength (bucketDepths t 0) ↔ 17 ≤ m) := by
  obtain ⟨nodes, root, t, hrun, hden, hheight⟩ := fib_chain h2 hsize htotal
  refine ⟨nodes, root, t, hrun, hden, hheight, ?_⟩
  rw [← Nat.not_le, kraft_bucketDepths_le_iff]
  unfold kMaxCodeLength
  constructor
  · intro hdeep
    by_contra hm
    exact hdeep fun d hd => by
      have hle : d ≤ t.height := by simpa using le_height hd
      omega
  · intro hm hall
    have hle := hall _ (height_mem t 0)
    omega

theorem fibonacci_depth_seventeen : ∃ nodes root t,
    mergeAll (leafNodes (fibCounts 17 239) (presentSymbols (fibCounts 17 239)))
      (initialHeap (leafNodes (fibCounts 17 239) (presentSymbols (fibCounts 17 239))))
        = .ok (nodes, root) ∧
    Denotes nodes root t ∧ t.height = 17 - 1 ∧
    (2 ^ kMaxCodeLength < kraft kMaxCodeLength (bucketDepths t 0) ↔ 17 ≤ 17) :=
  fibonacci_depth (by decide) (by decide) (by
    have hsum : (fibCounts 17 239).sum + 1 = Nat.fib (17 + 2) := sum_fibCounts
    have h19 : Nat.fib (17 + 2) = 4181 := by decide
    omega)

end Compressly.Huffman

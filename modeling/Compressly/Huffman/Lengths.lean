/-
# `Compressly.Huffman.Lengths` — `buildLengths` always yields a usable code

For every frequency table with at most `2 ^ 15` symbols present, whatever their
counts — the sums of counts may wrap —

    buildLengths freq = .ok ls,   ls a prefix table,
    ls.getD s 0 ≠ 0  ↔  s ∈ presentSymbols freq

and the symbols present are those with a count, if the table is `Covered`.

The passes are compared with lists of lengths, kept as histograms:

    mergeAll              the heap's trees are the parts of one forest whose
                          leaves are the present symbols        (`Forest.merge`)
    leafDepthHistogram    = histogram of the clamped leaf depths
    enforceLengthLimit    lengthens members of the list one at a time, each
                          step lowering the Kraft sum          (`limitLoop_spec`)
    assignLengths         hands the list out, sorted

The inner scan of the limiter always finds a leaf: if all lengths were 15, the
Kraft sum would be the number of symbols, which is at most the limit.
-/
import Compressly.Huffman.Codes
import Compressly.Lib.CodeTree

namespace Compressly.Huffman

open Kraft

/-! ## The merged tree -/

/-- The tree below node `i`; its leaves are labelled by their index. -/
inductive Denotes (nodes : List Node) : Nat → CodeTree Nat → Prop
  | leaf {i freq : Nat} : nodes[i]? = some (.leaf freq) → Denotes nodes i (.leaf i)
  | inner {i freq l r : Nat} {tl tr : CodeTree Nat} : nodes[i]? = some (.inner freq l r) →
      Denotes nodes l tl → Denotes nodes r tr → Denotes nodes i (.node tl tr)

/-- Nodes added later change no tree. -/
theorem Denotes.append {nodes : List Node} {i : Nat} {t : CodeTree Nat} (h : Denotes nodes i t)
    (more : List Node) : Denotes (nodes ++ more) i t := by
  have grow : ∀ {j : Nat} {n : Node}, nodes[j]? = some n → (nodes ++ more)[j]? = some n := by
    intro j n hj
    have hlt : j < nodes.length := (List.getElem?_eq_some_iff.mp hj).1
    rwa [List.getElem?_append_left hlt]
  induction h with
  | leaf hi => exact .leaf (grow hi)
  | inner hi _ _ ihl ihr => exact .inner (grow hi) ihl ihr

theorem push_perm (nodes : List Node) (i : Nat) (heap : List Nat) :
    (push nodes i heap).Perm (i :: heap) := by
  induction heap with
  | nil => exact .refl _
  | cons j heap ih =>
      rw [push]
      split
      · exact (ih.cons j).trans (.swap i j heap)
      · exact .refl _

/-- The trees of the heap: disjoint parts of the node table that use up all of it. -/
structure Forest (n : Nat) (nodes : List Node) (heap : List Nat) (tree : Nat → CodeTree Nat) :
    Prop where
  denotes : ∀ i ∈ heap, Denotes nodes i (tree i)
  lt : ∀ i ∈ heap, i < nodes.length
  size : (heap.map fun i => (tree i).size).sum = nodes.length
  leaves : (heap.flatMap fun i => (tree i).leaves).Perm (List.range n)

theorem Forest.perm {n : Nat} {nodes : List Node} {heap heap' : List Nat}
    {tree : Nat → CodeTree Nat} (h : Forest n nodes heap tree) (hp : heap'.Perm heap) :
    Forest n nodes heap' tree where
  denotes i hi := h.denotes i (hp.subset hi)
  lt i hi := h.lt i (hp.subset hi)
  size := by rw [(hp.map _).sum_eq, h.size]
  leaves := (hp.flatMap_right _).trans h.leaves

/-- Merging the two cheapest trees. -/
theorem Forest.merge {n freq a b : Nat} {nodes : List Node} {heap : List Nat}
    {tree : Nat → CodeTree Nat} (h : Forest n nodes (a :: b :: heap) tree) :
    Forest n (nodes ++ [.inner freq a b]) (nodes.length :: heap)
      (Function.update tree nodes.length (.node (tree a) (tree b))) := by
  have hold : ∀ i ∈ heap, Function.update tree nodes.length (.node (tree a) (tree b)) i = tree i := by
    intro i hi
    have hlt := h.lt i (by simp [hi])
    exact Function.update_of_ne (by omega) _ _
  have hmap : heap.map (fun i => (Function.update tree nodes.length (.node (tree a) (tree b)) i).size)
      = heap.map fun i => (tree i).size :=
    List.map_congr_left fun i hi => by rw [hold i hi]
  have hflat : heap.flatMap (fun i =>
        (Function.update tree nodes.length (.node (tree a) (tree b)) i).leaves)
      = heap.flatMap fun i => (tree i).leaves :=
    List.flatMap_congr fun i hi => by rw [hold i hi]
  refine { denotes := ?_, lt := ?_, size := ?_, leaves := ?_ }
  · intro i hi
    rcases List.mem_cons.mp hi with rfl | hi
    · have hnew : (nodes ++ [Node.inner freq a b])[nodes.length]? = some (.inner freq a b) := by simp
      rw [Function.update_self]
      exact .inner hnew ((h.denotes a (by simp)).append _) ((h.denotes b (by simp)).append _)
    · rw [hold i hi]
      exact (h.denotes i (by simp [hi])).append _
  · intro i hi
    rw [List.length_append, List.length_singleton]
    rcases List.mem_cons.mp hi with rfl | hi
    · exact Nat.lt_succ_self _
    · exact Nat.lt_succ_of_lt (h.lt i (by simp [hi]))
  · have hsize := h.size
    simp only [List.map_cons, List.sum_cons] at hsize
    rw [List.map_cons, List.sum_cons, hmap, Function.update_self, CodeTree.size,
      List.length_append, List.length_singleton]
    omega
  · have hleaves := h.leaves
    simp only [List.flatMap_cons] at hleaves
    rw [List.flatMap_cons, hflat, Function.update_self, CodeTree.leaves, List.append_assoc]
    exact hleaves

theorem mergeAll_spec {n : Nat} : ∀ {nodes : List Node} {heap : List Nat}
    {tree : Nat → CodeTree Nat}, heap ≠ [] → Forest n nodes heap tree →
    ∃ nodes' root t, mergeAll nodes heap = .ok (nodes', root) ∧ Denotes nodes' root t ∧
      t.size = nodes'.length ∧ t.leaves.Perm (List.range n) := by
  intro nodes heap
  fun_induction mergeAll nodes heap with
  | case1 => exact fun h => absurd rfl h
  | case2 nodes root =>
      intro tree _ hf
      refine ⟨nodes, root, tree root, rfl, hf.denotes root (by simp), ?_, ?_⟩
      · simpa using hf.size
      · simpa using hf.leaves
  | case3 nodes a b heap =>
      rename_i ih
      intro tree _ hf
      have hne : push (nodes ++ [.inner (u64 (freqAt nodes a + freqAt nodes b)) a b])
          nodes.length heap ≠ [] := by
        intro hnil
        have hlen := congrArg List.length hnil
        simp at hlen
      exact ih hne (hf.merge.perm (push_perm _ _ _))

theorem initialHeap_perm (nodes : List Node) :
    (initialHeap nodes).Perm (List.range nodes.length) := by
  have h : ∀ (xs heap : List Nat),
      (xs.foldl (fun heap i => push nodes i heap) heap).Perm (xs ++ heap) := by
    intro xs
    induction xs with
    | nil => exact fun _ => .refl _
    | cons x xs ih =>
        intro heap
        rw [List.foldl_cons]
        exact (ih _).trans (((push_perm nodes x heap).append_left xs).trans List.perm_middle)
  have hall := h (List.range nodes.length) []
  rwa [List.append_nil] at hall

theorem forest_leafNodes (freq : FreqTable) (present : List Nat) :
    Forest present.length (leafNodes freq present) (initialHeap (leafNodes freq present))
      CodeTree.leaf := by
  have hlen : (leafNodes freq present).length = present.length := by simp [leafNodes]
  have hperm := initialHeap_perm (leafNodes freq present)
  rw [hlen] at hperm
  suffices hf : Forest present.length (leafNodes freq present) (List.range present.length)
      CodeTree.leaf from hf.perm hperm
  refine { denotes := ?_, lt := ?_, size := ?_, leaves := ?_ }
  · intro i hi
    have hi' : i < present.length := List.mem_range.mp hi
    have hleaf : (leafNodes freq present)[i]? = some (.leaf (freq.getD present[i] 0)) := by
      simp [leafNodes, hi']
    exact .leaf hleaf
  · intro i hi
    rw [hlen]
    exact List.mem_range.mp hi
  · simp [hlen, CodeTree.size]
  · have hsingle : (List.range present.length).flatMap (fun i => (CodeTree.leaf i).leaves)
        = List.range present.length := by
      simp [CodeTree.leaves]
    rw [hsingle]

/-! ## The depth histogram -/

/-- The leaf depths of a tree whose root lies at depth `d`, as the buckets see them. -/
def bucketDepths (t : CodeTree Nat) (d : Nat) : List Nat :=
  (t.depthsFrom d).map fun depth => min depth kMaxCodeLength

theorem bump_histogram_min (ls : List Nat) (depth : Nat) :
    bump (histogram (kMaxCodeLength + 1) ls) (min depth kMaxCodeLength)
      = .ok (histogram (kMaxCodeLength + 1) (min depth kMaxCodeLength :: ls)) :=
  bump_histogram ls (Nat.lt_succ_of_le (Nat.min_le_right _ _))

/-- Each round takes one node off the trees on the stack. -/
theorem leafDepthLoop_eq {nodes : List Node} :
    ∀ (fuel : Nat) (stack : List (Nat × Nat × CodeTree Nat)) (ls : List Nat),
      (∀ e ∈ stack, Denotes nodes e.1 e.2.2) → (stack.map fun e => e.2.2.size).sum ≤ fuel →
      leafDepthLoop nodes fuel (stack.map fun e => (e.1, e.2.1)) (histogram (kMaxCodeLength + 1) ls)
        = .ok (histogram (kMaxCodeLength + 1)
            (stack.flatMap (fun e => bucketDepths e.2.2 e.2.1) ++ ls)) := by
  intro fuel
  induction fuel with
  | zero =>
      intro stack ls _ hsize
      cases stack with
      | nil => rfl
      | cons e stack =>
          have hpos := e.2.2.size_pos
          rw [List.map_cons, List.sum_cons] at hsize
          omega
  | succ fuel ih =>
      intro stack ls hden hsize
      cases stack with
      | nil => rfl
      | cons e stack =>
          obtain ⟨index, depth, t⟩ := e
          have hrest : ∀ e ∈ stack, Denotes nodes e.1 e.2.2 := fun e he =>
            hden e (List.mem_cons_of_mem _ he)
          rw [List.map_cons, List.sum_cons] at hsize
          have htop : Denotes nodes index t := hden _ List.mem_cons_self
          rw [List.map_cons, leafDepthLoop]
          cases htop with
          | leaf hi =>
              rw [CodeTree.size] at hsize
              simp only [fetch_of_getElem? hi, bind_ok, bump_histogram_min]
              rw [ih stack _ hrest (by omega), List.flatMap_cons]
              congr 1
              exact histogram_perm List.perm_middle
          | @inner _ freq l r tl tr hi hl hr =>
              rw [CodeTree.size] at hsize
              simp only [fetch_of_getElem? hi, bind_ok]
              have hden' : ∀ e ∈ (r, depth + 1, tr) :: (l, depth + 1, tl) :: stack,
                  Denotes nodes e.1 e.2.2 := by
                intro e he
                rcases List.mem_cons.mp he with rfl | he
                · exact hr
                · rcases List.mem_cons.mp he with rfl | he
                  · exact hl
                  · exact hrest e he
              have hsize' : (((r, depth + 1, tr) :: (l, depth + 1, tl) :: stack).map
                  fun e => e.2.2.size).sum ≤ fuel := by
                simp only [List.map_cons, List.sum_cons]
                omega
              have hih := ih ((r, depth + 1, tr) :: (l, depth + 1, tl) :: stack) ls hden' hsize'
              rw [List.map_cons, List.map_cons] at hih
              rw [hih]
              congr 1
              refine histogram_perm (List.Perm.append_right ls ?_)
              simp only [List.flatMap_cons, bucketDepths, CodeTree.depthsFrom, List.map_append,
                ← List.append_assoc]
              exact List.Perm.append_right _ List.perm_append_comm

theorem leafDepthHistogram_eq {nodes : List Node} {root : Nat} {t : CodeTree Nat}
    (ht : Denotes nodes root t) (hsize : t.size = nodes.length) :
    leafDepthHistogram nodes root
      = .ok (histogram (kMaxCodeLength + 1) (bucketDepths t 0)) := by
  have h := leafDepthLoop_eq nodes.length [(root, 0, t)] [] (by simpa using ht) (by simp [hsize])
  rw [histogram_nil] at h
  simpa [leafDepthHistogram] using h

/-! ## The length limit -/

/-- A multiset of code lengths the histogram has buckets for. -/
def Bucketed (ms : List Nat) : Prop := ∀ l ∈ ms, 1 ≤ l ∧ l ≤ kMaxCodeLength

/-- The scan stops at a level that has a leaf, if some level it covers has one. -/
theorem deepestLeaf_spec {ms : List Nat} {length : Nat} (hlen : length ≤ kMaxCodeLength)
    (h : ∃ k ∈ ms, k ≤ length) :
    ∃ l ∈ ms, l ≤ length ∧ deepestLeaf (histogram (kMaxCodeLength + 1) ms) length = .ok l := by
  obtain ⟨k, hk, hle⟩ := h
  induction length with
  | zero =>
      have hk0 : k = 0 := by omega
      subst hk0
      have hcount : ms.count 0 ≠ 0 := (List.count_pos_iff.mpr hk).ne'
      refine ⟨0, hk, le_rfl, ?_⟩
      simp [deepestLeaf, hcount]
  | succ length ih =>
      have hlt : length + 1 < (histogram (kMaxCodeLength + 1) ms).length := by
        simp
        omega
      rw [deepestLeaf]
      simp only [fetch_of_lt hlt, getElem_histogram, bind_ok]
      split
      case isTrue hzero =>
        have hne : k ≠ length + 1 := by
          rintro rfl
          exact List.count_eq_zero.mp hzero hk
        obtain ⟨l, hl, hll, hscan⟩ := ih (by omega) (by omega)
        exact ⟨l, hl, by omega, hscan⟩
      case isFalse hne =>
        exact ⟨length + 1, List.count_pos_iff.mp (Nat.pos_of_ne_zero hne), le_rfl, rfl⟩

/-- While the Kraft sum exceeds the limit, some leaf is short of the last level. -/
theorem exists_short {ms : List Nat} (hcard : ms.length ≤ 2 ^ kMaxCodeLength)
    (hover : 2 ^ kMaxCodeLength < kraft kMaxCodeLength ms) :
    ∃ k ∈ ms, k ≤ kMaxCodeLength - 1 := by
  by_contra hnone
  have hall : ∀ l ∈ ms, kMaxCodeLength ≤ l := by
    intro l hl
    by_contra hlt
    exact hnone ⟨l, hl, by omega⟩
  rw [kraft_eq_length hall] at hover
  omega

/-- One round of the limiter. -/
def limitRound (count : List Nat) (kraft : Nat) : Result (List Nat × Nat) := do
  let length ← deepestLeaf count (kMaxCodeLength - 1)
  if length < 1 then throw .fault
  let shallow ← fetch count length
  let count ← store count length (shallow - 1)
  let count ← bump count (length + 1)
  if 2 ^ (kMaxCodeLength - length - 1) ≤ kraft then
    pure (count, kraft - 2 ^ (kMaxCodeLength - length - 1))
  else throw .fault

/-- The loop is its rounds. -/
theorem limitLoop_eq (count : List Nat) (kraft : Nat) :
    limitLoop count kraft
      = if 2 ^ kMaxCodeLength < kraft then
          limitRound count kraft >>= fun s => limitLoop s.1 s.2
        else pure count := by
  rw [limitLoop, limitRound]
  split
  case isFalse => rfl
  case isTrue =>
    cases deepestLeaf count (kMaxCodeLength - 1) with
    | error => rfl
    | ok length =>
        simp only [bind_ok]
        split
        case isTrue => rfl
        case isFalse =>
          cases fetch count length with
          | error => rfl
          | ok shallow =>
              simp only [bind_ok]
              cases store count length (shallow - 1) with
              | error => rfl
              | ok count₁ =>
                  simp only [bind_ok]
                  cases bump count₁ (length + 1) with
                  | error => rfl
                  | ok count₂ =>
                      simp only [bind_ok]
                      split <;> rfl

/-- What a round does to the multiset of lengths: one leaf, short of the last level, goes a
level down, and the variable `kraft` follows the Kraft sum. -/
theorem limitRound_spec {ms : List Nat} (hms : Bucketed ms)
    (hshort : ∃ k ∈ ms, k ≤ kMaxCodeLength - 1) :
    ∃ l ∈ ms, l ≤ kMaxCodeLength - 1 ∧
      deepestLeaf (histogram (kMaxCodeLength + 1) ms) (kMaxCodeLength - 1) = .ok l ∧
      2 ^ (kMaxCodeLength - l - 1) ≤ kraft kMaxCodeLength ms ∧
      limitRound (histogram (kMaxCodeLength + 1) ms) (kraft kMaxCodeLength ms)
        = .ok (histogram (kMaxCodeLength + 1) ((l + 1) :: ms.erase l),
            kraft kMaxCodeLength ((l + 1) :: ms.erase l)) := by
  obtain ⟨l, hl, hle, hscan⟩ := deepestLeaf_spec (by decide) hshort
  have hl1 : ¬ l < 1 := by
    have := (hms l hl).1
    omega
  have hlD : l < kMaxCodeLength := by
    have hD : 0 < kMaxCodeLength := by decide
    omega
  have hslot : l < (histogram (kMaxCodeLength + 1) ms).length := by
    simp
    omega
  have hkraft := kraft_lengthen hl hlD
  have hpow : 2 ^ (kMaxCodeLength - l - 1) ≤ kraft kMaxCodeLength ms :=
    hkraft ▸ Nat.le_add_left _ _
  refine ⟨l, hl, hle, hscan, hpow, ?_⟩
  rw [limitRound]
  simp only [hscan, bind_ok, if_neg hl1, fetch_of_lt hslot, store_of_lt hslot,
    getElem_histogram, ← histogram_erase, bump_histogram _ (Nat.succ_lt_succ hlD), if_pos hpow]
  rw [← hkraft, Nat.add_sub_cancel]
  rfl

theorem Bucketed.lengthen {ms : List Nat} (hms : Bucketed ms) {l : Nat}
    (hl : l ≤ kMaxCodeLength - 1) : Bucketed ((l + 1) :: ms.erase l) := by
  have hD : 0 < kMaxCodeLength := by decide
  intro k hk
  rcases List.mem_cons.mp hk with rfl | hk
  · omega
  · exact hms k (List.mem_of_mem_erase hk)

theorem length_lengthen {ms : List Nat} {l : Nat} (hl : l ∈ ms) :
    ((l + 1) :: ms.erase l).length = ms.length := by
  have hpos := List.length_pos_of_mem hl
  rw [List.length_cons, List.length_erase_of_mem hl]
  omega

theorem kraft_lengthen_lt {ms : List Nat} {l : Nat} (hl : l ∈ ms) (hle : l ≤ kMaxCodeLength - 1) :
    kraft kMaxCodeLength ((l + 1) :: ms.erase l) < kraft kMaxCodeLength ms := by
  have hD : 0 < kMaxCodeLength := by decide
  have hkraft := kraft_lengthen hl (show l < kMaxCodeLength by omega)
  have hpow : 0 < 2 ^ (kMaxCodeLength - l - 1) := Nat.two_pow_pos _
  omega

/-- The limiter: the variable `kraft` is the Kraft sum of the histogram throughout,
and what comes out is a histogram of as many lengths whose sum is within the limit. -/
theorem limitLoop_spec {n : Nat} : ∀ (ms : List Nat), kraft kMaxCodeLength ms = n →
    Bucketed ms → ms.length ≤ 2 ^ kMaxCodeLength →
    ∃ ms', limitLoop (histogram (kMaxCodeLength + 1) ms) n
        = .ok (histogram (kMaxCodeLength + 1) ms') ∧
      Bucketed ms' ∧ ms'.length = ms.length ∧
      kraft kMaxCodeLength ms' ≤ 2 ^ kMaxCodeLength ∧
      (kraft kMaxCodeLength ms ≤ 2 ^ kMaxCodeLength → ms' = ms) := by
  induction n using Nat.strong_induction_on with
  | _ n ih =>
      intro ms hn hms hcard
      subst hn
      rcases Nat.lt_or_ge (2 ^ kMaxCodeLength) (kraft kMaxCodeLength ms) with hover | hfit
      · obtain ⟨l, hl, hle, -, -, hround⟩ := limitRound_spec hms (exists_short hcard hover)
        obtain ⟨ms', hloop, hb, hlen, hk, -⟩ := ih _ (kraft_lengthen_lt hl hle) _ rfl
          (hms.lengthen hle) ((length_lengthen hl).trans_le hcard)
        refine ⟨ms', ?_, hb, hlen.trans (length_lengthen hl), hk, ?_⟩
        · rw [limitLoop_eq, if_pos hover, hround]
          exact hloop
        · exact fun hfit => absurd hover (Nat.not_lt.mpr hfit)
      · refine ⟨ms, ?_, hms, rfl, hfit, fun _ => rfl⟩
        rw [limitLoop, if_neg (Nat.not_lt.mpr hfit)]
        rfl

/-- The scan runs off the array where no level has a leaf. -/
theorem deepestLeaf_error {ms : List Nat} {length : Nat} (hlen : length ≤ kMaxCodeLength)
    (h : ∀ k ∈ ms, length < k) :
    deepestLeaf (histogram (kMaxCodeLength + 1) ms) length = .error .fault := by
  have hcount : ∀ k ≤ length, ms.count k = 0 := by
    intro k hk
    refine List.count_eq_zero.mpr fun hmem => ?_
    exact absurd (h k hmem) (Nat.not_lt.mpr hk)
  induction length with
  | zero => simp [deepestLeaf, hcount]
  | succ length ih =>
      have hslot : length + 1 < (histogram (kMaxCodeLength + 1) ms).length := by
        rw [length_histogram]
        exact Nat.lt_succ_of_le hlen
      rw [deepestLeaf]
      simp only [fetch_of_lt hslot, getElem_histogram, bind_ok, hcount _ le_rfl, if_true]
      exact ih (Nat.le_of_succ_le hlen) (fun k hk => Nat.lt_of_succ_lt (h k hk))
        fun k hk => hcount k (Nat.le_succ_of_le hk)

/-- With more leaves than codes of full length, the limiter runs out of leaves to push down. -/
theorem limitLoop_error {n : Nat} : ∀ (ms : List Nat), kraft kMaxCodeLength ms = n →
    Bucketed ms → 2 ^ kMaxCodeLength < ms.length →
    limitLoop (histogram (kMaxCodeLength + 1) ms) n = .error .fault := by
  induction n using Nat.strong_induction_on with
  | _ n ih =>
      intro ms hn hms hcard
      subst hn
      have hover := Nat.lt_of_lt_of_le hcard (length_le_kraft kMaxCodeLength ms)
      rw [limitLoop_eq, if_pos hover]
      by_cases hshort : ∃ k ∈ ms, k ≤ kMaxCodeLength - 1
      · obtain ⟨l, hl, hle, -, -, hround⟩ := limitRound_spec hms hshort
        rw [hround]
        exact ih _ (kraft_lengthen_lt hl hle) _ rfl (hms.lengthen hle)
          (hcard.trans_eq (length_lengthen hl).symm)
      · have hnone : ∀ k ∈ ms, kMaxCodeLength - 1 < k := by
          intro k hk
          exact Nat.lt_of_not_le fun hle => hshort ⟨k, hk, hle⟩
        rw [limitRound, deepestLeaf_error (Nat.sub_le _ _) hnone]
        rfl

/-- The Kraft sum of a histogram is the Kraft sum of the lengths it counts. -/
theorem histogramKraft_eq {ms : List Nat} (hms : Bucketed ms) :
    histogramKraft (histogram (kMaxCodeLength + 1) ms) = .ok (kraft kMaxCodeLength ms) := by
  have hloop : ∀ m ≤ kMaxCodeLength,
      (List.range' 1 m).foldlM
        (fun kraft length => do
          let n ← fetch (histogram (kMaxCodeLength + 1) ms) length
          pure (kraft + n <<< (kMaxCodeLength - length))) 0
      = (.ok (∑ k ∈ Finset.range m, ms.count (k + 1) * 2 ^ (kMaxCodeLength - (k + 1)))
          : Result Nat) := by
    intro m
    induction m with
    | zero => exact fun _ => rfl
    | succ m ih =>
        intro hm
        have hlt : 1 + m < (histogram (kMaxCodeLength + 1) ms).length := by
          simp
          omega
        rw [List.range'_1_concat, List.foldlM_append, ih (by omega), bind_ok,
          Finset.sum_range_succ, List.foldlM_cons, fetch_of_lt hlt, getElem_histogram]
        simp [Nat.shiftLeft_eq, Nat.add_comm 1 m]
  have hzero : ms.count 0 = 0 := List.count_eq_zero.mpr fun h0 => by
    have := (hms 0 h0).1
    omega
  have hgroup := sum_count_mul (n := kMaxCodeLength + 1)
    (fun l hl => Nat.lt_succ_of_le (hms l hl).2) fun l => 2 ^ (kMaxCodeLength - l)
  rw [Finset.sum_range_succ', hzero, Nat.zero_mul, Nat.add_zero] at hgroup
  rw [histogramKraft, hloop kMaxCodeLength le_rfl, hgroup]
  rfl

theorem enforceLengthLimit_spec {ms : List Nat} (hms : Bucketed ms)
    (hcard : ms.length ≤ 2 ^ kMaxCodeLength) :
    ∃ ms', enforceLengthLimit (histogram (kMaxCodeLength + 1) ms)
        = .ok (histogram (kMaxCodeLength + 1) ms') ∧
      Bucketed ms' ∧ ms'.length = ms.length ∧
      kraft kMaxCodeLength ms' ≤ 2 ^ kMaxCodeLength ∧
      (kraft kMaxCodeLength ms ≤ 2 ^ kMaxCodeLength → ms' = ms) := by
  rw [enforceLengthLimit, histogramKraft_eq hms, bind_ok]
  exact limitLoop_spec ms rfl hms hcard

/-! ## Handing the lengths out -/

/-- The members of a multiset of lengths, in increasing order. -/
def ascending (ms : List Nat) : List Nat :=
  (List.range' 1 kMaxCodeLength).flatMap fun l => List.replicate (ms.count l) l

theorem lengthsOf_eq (ms : List Nat) :
    lengthsOf (histogram (kMaxCodeLength + 1) ms) = .ok (ascending ms) := by
  have hloop : ∀ (xs : List Nat), (∀ l ∈ xs, l < kMaxCodeLength + 1) → ∀ acc : List Nat,
      xs.foldlM (fun ls length => do
          let n ← fetch (histogram (kMaxCodeLength + 1) ms) length
          pure (ls ++ List.replicate n length)) acc
        = (.ok (acc ++ xs.flatMap fun l => List.replicate (ms.count l) l) : Result (List Nat)) := by
    intro xs
    induction xs with
    | nil => intro _ acc; simp
    | cons l xs ih =>
        intro hxs acc
        have hl : l < (histogram (kMaxCodeLength + 1) ms).length := by
          simpa using hxs l List.mem_cons_self
        rw [List.foldlM_cons, fetch_of_lt hl, bind_ok, getElem_histogram, pure_eq_ok, bind_ok,
          ih (fun k hk => hxs k (List.mem_cons_of_mem _ hk)), List.flatMap_cons, List.append_assoc]
  have h := hloop (List.range' 1 kMaxCodeLength) (by
    intro l hl
    have := List.mem_range'_1.mp hl
    omega) []
  rwa [List.nil_append] at h

theorem ascending_perm {ms : List Nat} (hms : Bucketed ms) : (ascending ms).Perm ms := by
  rw [List.perm_iff_count]
  intro k
  have hcount : ∀ xs : List Nat, xs.Nodup →
      (xs.flatMap fun l => List.replicate (ms.count l) l).count k
        = if k ∈ xs then ms.count k else 0 := by
    intro xs
    induction xs with
    | nil => simp
    | cons l xs ih =>
        intro hnd
        obtain ⟨hl, hnd⟩ := List.nodup_cons.mp hnd
        rw [List.flatMap_cons, List.count_append, ih hnd, List.count_replicate]
        by_cases hkl : l = k
        · subst hkl
          simp [hl]
        · simp [hkl, Ne.symm hkl]
  rw [ascending, hcount _ List.nodup_range']
  split
  case isTrue => rfl
  case isFalse hk =>
    refine (List.count_eq_zero.mpr fun hmem => hk ?_).symm
    have := hms k hmem
    exact List.mem_range'_1.mpr (by omega)

theorem ascending_pairwise (ms : List Nat) : (ascending ms).Pairwise (· ≤ ·) := by
  rw [ascending, List.pairwise_flatMap]
  refine ⟨fun l _ => List.pairwise_replicate.mpr (Or.inr le_rfl), ?_⟩
  have hlt : (List.range' 1 kMaxCodeLength).Pairwise (· < ·) := List.pairwise_lt_range'
  refine hlt.imp fun {a b} hab x hx y hy => ?_
  rw [(List.mem_replicate.mp hx).2, (List.mem_replicate.mp hy).2]
  exact Nat.le_of_lt hab

/-- What the last loops leave in the table. -/
structure Assigned (lengths : LengthTable) (present ls : List Nat) (lengths' : LengthTable) :
    Prop where
  length : lengths'.length = lengths.length
  slots : present.map (fun s => lengths'.getD s 0) = ls
  others : ∀ s ∉ present, lengths'.getD s 0 = lengths.getD s 0
  coded : (lengths'.filter (· ≠ 0)).Perm (lengths.filter (· ≠ 0) ++ ls)

/-- Filling an empty slot. -/
theorem filter_set_perm {lengths : LengthTable} {s l : Nat} (hs : s < lengths.length)
    (hzero : lengths.getD s 0 = 0) (hl : l ≠ 0) :
    ((lengths.set s l).filter (· ≠ 0)).Perm (l :: lengths.filter (· ≠ 0)) := by
  rw [List.getD_eq_getElem _ _ hs] at hzero
  have hset : lengths.set s l = lengths.take s ++ l :: lengths.drop (s + 1) :=
    List.set_eq_take_append_cons_drop.trans (if_pos hs)
  have hold : lengths = lengths.take s ++ lengths[s] :: lengths.drop (s + 1) := by
    rw [← List.drop_eq_getElem_cons hs, List.take_append_drop]
  have hnew : (lengths.set s l).filter (· ≠ 0)
      = (lengths.take s).filter (· ≠ 0) ++ l :: (lengths.drop (s + 1)).filter (· ≠ 0) := by
    rw [hset, List.filter_append, List.filter_cons_of_pos (by simpa using hl)]
  have hfilter : lengths.filter (· ≠ 0)
      = (lengths.take s).filter (· ≠ 0) ++ (lengths.drop (s + 1)).filter (· ≠ 0) := by
    conv_lhs => rw [hold]
    rw [List.filter_append, List.filter_cons_of_neg (by simp [hzero])]
  rw [hnew, hfilter]
  exact List.perm_middle

theorem getD_set {lengths : LengthTable} {s t l : Nat} (hs : s < lengths.length) :
    (lengths.set s l).getD t 0 = if s = t then l else lengths.getD t 0 := by
  rcases eq_or_ne s t with rfl | hne
  · simp [List.getD_eq_getElem?_getD, hs]
  · simp [List.getD_eq_getElem?_getD, hne]

theorem assignLengths_spec : ∀ (present ls : List Nat) (lengths : LengthTable),
    present.length = ls.length → present.Nodup →
    (∀ s ∈ present, s < lengths.length ∧ lengths.getD s 0 = 0) → (∀ l ∈ ls, l ≠ 0) →
    ∃ lengths', assignLengths lengths present ls = .ok lengths' ∧
      Assigned lengths present ls lengths' := by
  intro present
  induction present with
  | nil =>
      intro ls lengths hlen _ _ _
      cases ls with
      | nil =>
          exact ⟨lengths, rfl,
            { length := rfl, slots := rfl, others := fun _ _ => rfl, coded := by simp }⟩
      | cons l ls => cases hlen
  | cons s present ih =>
      intro ls lengths hlen hnd hslot hls
      cases ls with
      | nil => cases hlen
      | cons l ls =>
          obtain ⟨hs, hnd⟩ := List.nodup_cons.mp hnd
          obtain ⟨hslt, hszero⟩ := hslot s List.mem_cons_self
          have hl : l ≠ 0 := hls l List.mem_cons_self
          have hslot' : ∀ t ∈ present,
              t < (lengths.set s l).length ∧ (lengths.set s l).getD t 0 = 0 := by
            intro t ht
            have hne : s ≠ t := fun h => hs (h ▸ ht)
            have hold := hslot t (List.mem_cons_of_mem _ ht)
            rw [List.length_set, getD_set hslt, if_neg hne]
            exact hold
          obtain ⟨lengths', heq, ha⟩ := ih ls _ (by simpa using hlen) hnd hslot'
            fun k hk => hls k (List.mem_cons_of_mem _ hk)
          refine ⟨lengths', ?_, { length := ?_, slots := ?_, others := ?_, coded := ?_ }⟩
          · simp only [assignLengths, store_of_lt hslt, bind_ok, heq]
          · rw [ha.length, List.length_set]
          · rw [List.map_cons, ha.slots, ha.others s hs, getD_set hslt, if_pos rfl]
          · intro t ht
            obtain ⟨hne, ht⟩ := not_or.mp (fun h => ht (List.mem_cons.mpr h))
            rw [ha.others t ht, getD_set hslt, if_neg (Ne.symm hne)]
          · exact (ha.coded.trans ((filter_set_perm hslt hszero hl).append_right ls)).trans
              List.perm_middle.symm

/-! ## `buildLengths` -/

/-- What a table of code lengths for `freq` must satisfy to be usable. -/
structure Usable (freq : FreqTable) (ls : LengthTable) : Prop extends PrefixTable ls where
  length : ls.length = freq.length
  present : ∀ s, ls.getD s 0 ≠ 0 ↔ s ∈ presentSymbols freq

theorem Usable.present_iff {freq : FreqTable} {ls : LengthTable} (h : Usable freq ls)
    (hc : Covered freq) (s : Nat) : ls.getD s 0 ≠ 0 ↔ freq.getD s 0 ≠ 0 := by
  rw [h.present, hc.mem_presentSymbols]

/-- What the first loop over an alphabet finds, the later ones reach. -/
theorem Usable.covered {freq : FreqTable} {ls : LengthTable} (h : Usable freq ls) :
    Covered ls := by
  intro s hs
  rw [h.length]
  exact (mem_presentSymbols.mp ((h.present s).mp hs)).1

/-- Written into an empty table, the lengths are all its lengths. -/
theorem Assigned.coded_perm {n : Nat} {symbols ls : List Nat} {lengths' : LengthTable}
    (h : Assigned (List.replicate n 0) symbols ls lengths') :
    (lengths'.filter (· ≠ 0)).Perm ls := by
  have hempty : (List.replicate n 0).filter (· ≠ 0) = [] := by simp
  have hc := h.coded
  rwa [hempty, List.nil_append] at hc

/-- A table into which lengths within the Kraft bound were written for the present symbols. -/
theorem usable_of_assigned {freq : FreqTable} {symbols ls : List Nat} {lengths' : LengthTable}
    (h : Assigned (List.replicate freq.length 0) symbols ls lengths')
    (hsym : symbols.Perm (presentSymbols freq)) (hls : Bucketed ls)
    (hk : kraft kMaxCodeLength ls ≤ 2 ^ kMaxCodeLength) : Usable freq lengths' := by
  have hcoded := h.coded_perm
  refine { le_max := ?_, kraft_le := ?_, length := ?_, present := ?_ }
  · intro l hl
    rcases Nat.eq_zero_or_pos l with rfl | hpos
    · exact Nat.zero_le _
    · have hmem : l ∈ lengths'.filter (· ≠ 0) :=
        List.mem_filter.mpr ⟨hl, by simpa using hpos.ne'⟩
      exact (hls l (hcoded.subset hmem)).2
  · rw [kraft_perm hcoded]
    exact hk
  · rw [h.length, List.length_replicate]
  · intro s
    rw [← hsym.mem_iff]
    by_cases hs : s ∈ symbols
    · have hmem : lengths'.getD s 0 ∈ ls := by
        rw [← h.slots]
        exact List.mem_map_of_mem hs
      have := (hls _ hmem).1
      exact iff_of_true (by omega) hs
    · have hzero : lengths'.getD s 0 = 0 := by
        rw [h.others s hs]
        simp [List.getD_eq_getElem?_getD, List.getElem?_replicate]
        split <;> rfl
      exact iff_of_false (not_not.mpr hzero) hs

/-- The present symbols, the most frequent first. -/
def byFrequency (freq : FreqTable) : List Nat :=
  (presentSymbols freq).insertionSort fun a b => moreFrequent freq a b

theorem byFrequency_perm (freq : FreqTable) : (byFrequency freq).Perm (presentSymbols freq) :=
  List.perm_insertionSort _ _

/-- The clamped depths are a multiset of lengths for the present symbols. -/
theorem bucketed_bucketDepths {t : CodeTree Nat} (ht : 2 ≤ t.leaves.length) :
    Bucketed (bucketDepths t 0) := by
  intro l hl
  obtain ⟨d, hd, rfl⟩ := List.mem_map.mp hl
  have hpos := CodeTree.depthsFrom_pos ht hd
  have hmax : 1 ≤ kMaxCodeLength := by decide
  omega

theorem length_bucketDepths (t : CodeTree Nat) (d : Nat) :
    (bucketDepths t d).length = t.leaves.length := by
  rw [bucketDepths, List.length_map, CodeTree.length_depthsFrom]

/-- A symbol that is present has an empty slot. -/
theorem slot_of_mem {freq : FreqTable} {s : Nat} (hs : s ∈ presentSymbols freq) :
    s < (List.replicate freq.length 0).length ∧ (List.replicate freq.length 0).getD s 0 = 0 := by
  have hlt := lt_of_mem_presentSymbols hs
  refine ⟨by simpa using hlt, ?_⟩
  simp [List.getD_eq_getElem?_getD, hlt]

theorem buildLengths_of_two_le {freq : FreqTable} (h2 : 2 ≤ (presentSymbols freq).length) :
    buildLengths freq = (do
      let (nodes, root) ← mergeAll (leafNodes freq (presentSymbols freq))
        (initialHeap (leafNodes freq (presentSymbols freq)))
      let count ← leafDepthHistogram nodes root
      let count ← enforceLengthLimit count
      let ls ← lengthsOf count
      assignLengths (List.replicate freq.length 0) (byFrequency freq) ls) := by
  unfold byFrequency
  rw [buildLengths]
  cases hp : presentSymbols freq with
  | nil =>
      rw [hp] at h2
      cases h2
  | cons s present =>
      cases present with
      | nil =>
          rw [hp] at h2
          simp at h2
      | cons t rest => rfl

/-- Where there are two symbols or more, a tree `t` is built. -/
structure Merged (freq : FreqTable) (nodes : List Node) (root : Nat) (t : CodeTree Nat) :
    Prop where
  merged : mergeAll (leafNodes freq (presentSymbols freq))
      (initialHeap (leafNodes freq (presentSymbols freq))) = .ok (nodes, root)
  denotes : Denotes nodes root t
  leaves : t.leaves.Perm (List.range (presentSymbols freq).length)
  depths : leafDepthHistogram nodes root = .ok (histogram (kMaxCodeLength + 1) (bucketDepths t 0))

theorem initialHeap_ne_nil {freq : FreqTable} {present : List Nat} (h : present ≠ []) :
    initialHeap (leafNodes freq present) ≠ [] := by
  intro hnil
  have hlen := (initialHeap_perm (leafNodes freq present)).length_eq
  rw [hnil, List.length_nil, List.length_range, leafNodes, List.length_map] at hlen
  exact h (List.eq_nil_of_length_eq_zero hlen.symm)

theorem exists_merged {freq : FreqTable} (h : presentSymbols freq ≠ []) :
    ∃ nodes root t, Merged freq nodes root t := by
  obtain ⟨nodes, root, t, hmerge, hden, hsize, hleaves⟩ :=
    mergeAll_spec (initialHeap_ne_nil h) (forest_leafNodes freq (presentSymbols freq))
  exact ⟨nodes, root, t, hmerge, hden, hleaves, leafDepthHistogram_eq hden hsize⟩

theorem Merged.length_leaves {freq : FreqTable} {nodes : List Node} {root : Nat}
    {t : CodeTree Nat} (h : Merged freq nodes root t) :
    t.leaves.length = (presentSymbols freq).length := by
  rw [h.leaves.length_eq, List.length_range]

theorem Merged.length_buckets {freq : FreqTable} {nodes : List Node} {root : Nat}
    {t : CodeTree Nat} (h : Merged freq nodes root t) :
    (bucketDepths t 0).length = (presentSymbols freq).length := by
  rw [length_bucketDepths, h.length_leaves]

/-- How the table comes about from the tree: its clamped depths, limited, are `ms`, and these
are handed out to the symbols by frequency. -/
structure Allotted (freq : FreqTable) (nodes : List Node) (root : Nat) (t : CodeTree Nat)
    (ms : List Nat) (ls : LengthTable) : Prop extends Merged freq nodes root t where
  limited : enforceLengthLimit (histogram (kMaxCodeLength + 1) (bucketDepths t 0))
      = .ok (histogram (kMaxCodeLength + 1) ms)
  bucketed : Bucketed ms
  size : ms.length = (presentSymbols freq).length
  kraft_le : kraft kMaxCodeLength ms ≤ 2 ^ kMaxCodeLength
  unlimited : kraft kMaxCodeLength (bucketDepths t 0) ≤ 2 ^ kMaxCodeLength → ms = bucketDepths t 0
  assigned : Assigned (List.replicate freq.length 0) (byFrequency freq) (ascending ms) ls

theorem ne_nil_of_two_le {l : List Nat} (h2 : 2 ≤ l.length) : l ≠ [] :=
  List.ne_nil_of_length_pos (Nat.lt_of_lt_of_le Nat.two_pos h2)

/-- Two symbols or more: a tree is built, and the limiter succeeds whatever the counts. -/
theorem buildLengths_allotted {freq : FreqTable} (h2 : 2 ≤ (presentSymbols freq).length)
    (hcard : (presentSymbols freq).length ≤ 2 ^ kMaxCodeLength) :
    ∃ nodes root t ms ls, buildLengths freq = .ok ls ∧ Allotted freq nodes root t ms ls := by
  obtain ⟨nodes, root, t, hm⟩ := exists_merged (ne_nil_of_two_le h2)
  obtain ⟨ms, hlimit, hms, hmslen, hkraft, hunlimited⟩ :=
    enforceLengthLimit_spec (bucketed_bucketDepths (hm.length_leaves ▸ h2))
      (hm.length_buckets.trans_le hcard)
  rw [hm.length_buckets] at hmslen
  have hperm := ascending_perm hms
  obtain ⟨ls, hassign, ha⟩ := assignLengths_spec (byFrequency freq) (ascending ms)
    (List.replicate freq.length 0)
    (by rw [(byFrequency_perm freq).length_eq, hperm.length_eq, hmslen])
    ((byFrequency_perm freq).nodup_iff.mpr (nodup_presentSymbols freq))
    (fun s hs => slot_of_mem ((byFrequency_perm freq).subset hs))
    (fun l hl => Nat.ne_of_gt (hms l (hperm.subset hl)).1)
  refine ⟨nodes, root, t, ms, ls, ?_, ⟨hm, hlimit, hms, hmslen, hkraft, hunlimited, ha⟩⟩
  rw [buildLengths_of_two_le h2]
  simp only [hm.merged, bind_ok, hm.depths, hlimit, lengthsOf_eq, hassign]

/-- No symbols have no lengths, a single one has length 1. -/
theorem buildLengths_of_lt_two {freq : FreqTable} (h2 : (presentSymbols freq).length < 2) :
    ∃ ls, buildLengths freq = .ok ls ∧
      Assigned (List.replicate freq.length 0) (presentSymbols freq)
        ((presentSymbols freq).map fun _ => 1) ls := by
  rw [buildLengths]
  cases hp : presentSymbols freq with
  | nil => exact ⟨_, rfl, ⟨rfl, rfl, fun _ _ => rfl, by simp⟩⟩
  | cons s present =>
      cases present with
      | nil =>
          have hs : s < (List.replicate freq.length 0).length ∧
              (List.replicate freq.length 0).getD s 0 = 0 := slot_of_mem (by simp [hp])
          obtain ⟨ls, heq, ha⟩ := assignLengths_spec [s] [1] _ rfl (by simp)
            (fun t ht => List.mem_singleton.mp ht ▸ hs) (by simp)
          have hstore := store_of_lt hs.1 1
          rw [assignLengths, hstore, bind_ok, assignLengths, pure_eq_ok, Except.ok.injEq] at heq
          exact ⟨ls, by simp only [hstore, heq], ha⟩
      | cons t rest =>
          rw [hp] at h2
          simp at h2

theorem bucketed_ones (symbols : List Nat) : Bucketed (symbols.map fun _ => 1) := by
  intro l hl
  obtain ⟨s, -, rfl⟩ := List.mem_map.mp hl
  decide

theorem kraft_ones (symbols : List Nat) :
    kraft kMaxCodeLength (symbols.map fun _ => 1)
      = symbols.length * 2 ^ (kMaxCodeLength - 1) := by
  rw [List.map_const', kraft, List.map_replicate, List.sum_replicate, smul_eq_mul]

theorem Allotted.usable {freq : FreqTable} {nodes : List Node} {root : Nat} {t : CodeTree Nat}
    {ms : List Nat} {ls : LengthTable} (h : Allotted freq nodes root t ms ls) : Usable freq ls := by
  have hperm := ascending_perm h.bucketed
  refine usable_of_assigned h.assigned (byFrequency_perm freq)
    (fun l hl => h.bucketed l (hperm.subset hl)) ?_
  rw [kraft_perm hperm]
  exact h.kraft_le

/-- **Length-limited code lengths.** Whatever the counts, the limiter succeeds and the
table is usable. -/
theorem buildLengths_spec {freq : FreqTable}
    (hcard : (presentSymbols freq).length ≤ 2 ^ kMaxCodeLength) :
    ∃ ls, buildLengths freq = .ok ls ∧ Usable freq ls := by
  rcases Nat.lt_or_ge (presentSymbols freq).length 2 with h2 | h2
  · obtain ⟨ls, hok, ha⟩ := buildLengths_of_lt_two h2
    refine ⟨ls, hok, usable_of_assigned ha (List.Perm.refl _) (bucketed_ones _) ?_⟩
    rw [kraft_ones]
    have hpow : 2 ^ kMaxCodeLength = 2 * 2 ^ (kMaxCodeLength - 1) := by decide
    rw [hpow]
    exact Nat.mul_le_mul_right _ (Nat.le_of_lt h2)
  · obtain ⟨nodes, root, t, ms, ls, hok, ha⟩ := buildLengths_allotted h2 hcard
    exact ⟨ls, hok, ha.usable⟩

/-- A code of at most 15 bits has room for `2 ^ 15` symbols; with more of them there is no
result. -/
theorem buildLengths_ok_iff {freq : FreqTable} :
    (∃ ls, buildLengths freq = .ok ls) ↔ (presentSymbols freq).length ≤ 2 ^ kMaxCodeLength := by
  constructor
  · rintro ⟨ls, hok⟩
    refine Nat.le_of_not_lt fun hgt => ?_
    have h2 : 2 ≤ (presentSymbols freq).length := by
      have hpow : 2 ≤ 2 ^ kMaxCodeLength := by decide
      exact hpow.trans hgt.le
    obtain ⟨nodes, root, t, hm⟩ := exists_merged (ne_nil_of_two_le h2)
    have hbuckets := bucketed_bucketDepths (hm.length_leaves ▸ h2)
    have hlimit : enforceLengthLimit (histogram (kMaxCodeLength + 1) (bucketDepths t 0))
        = .error .fault := by
      rw [enforceLengthLimit, histogramKraft_eq hbuckets, bind_ok]
      exact limitLoop_error _ rfl hbuckets (hm.length_buckets ▸ hgt)
    rw [buildLengths_of_two_le h2] at hok
    simp only [hm.merged, bind_ok, hm.depths, hlimit] at hok
    cases hok
  · intro hcard
    obtain ⟨ls, hok, -⟩ := buildLengths_spec hcard
    exact ⟨ls, hok⟩

/-- Small alphabets are covered. -/
theorem covered_histogram {n : Nat} (hn : n ≤ 2 ^ kMaxCodeLength) (symbols : List Nat) :
    Covered (histogram n symbols) := by
  refine covered_of_lt ?_
  rw [length_histogram]
  exact Nat.lt_of_le_of_lt hn (by decide)

/-- A symbol that was counted has a code. -/
theorem Usable.of_mem {n : Nat} {symbols : List Nat} {ls : LengthTable}
    (h : Usable (histogram n symbols) ls) (hn : n ≤ 2 ^ kMaxCodeLength) {s : Nat}
    (hs : s ∈ symbols) (hlt : s < n) : ls.getD s 0 ≠ 0 := by
  rw [h.present_iff (covered_histogram hn symbols), List.getD_eq_getElem _ _ (by simpa using hlt),
    getElem_histogram]
  exact (List.count_pos_iff.mpr hs).ne'

/-- Lengths for the frequencies of a symbol list over a small alphabet. -/
theorem buildLengths_histogram {n : Nat} (hn : n ≤ 2 ^ kMaxCodeLength) (symbols : List Nat) :
    ∃ ls, buildLengths (histogram n symbols) = .ok ls ∧ Usable (histogram n symbols) ls := by
  have hle := length_presentSymbols_le (histogram n symbols)
  rw [length_histogram] at hle
  exact buildLengths_spec (hle.trans hn)

end Compressly.Huffman

/-
# `Compressly.Huffman.LengthLimit` — what `buildLengths` promises

For every frequency table with at most `2 ^ 15` symbols present, whatever their
counts:

    one length per symbol, 0 exactly for the absent ones, none above 15
    the Kraft sum within the limit, and equal to it while no leaf is clamped
    the more frequent symbol never has the longer code

The limiter is followed round by round: in every state its loop reaches
(`LimitReaches`) the variable `kraft` is the Kraft sum of the histogram, and
while it exceeds the limit the scan stops at one of the levels 1 to 14 and the
round goes through.  Each round lowers the sum, so the loop ends.
-/
import Compressly.Huffman.Lengths

namespace Compressly.Huffman

open Kraft

/-! ## The limiter's loop -/

/-- A state of the loop: the histogram and the variable `kraft`. -/
abbrev LimitState := List Nat × Nat

/-- The loop condition holds and a round leads from one state to the next. -/
def LimitStep (s s' : LimitState) : Prop :=
  2 ^ kMaxCodeLength < s.2 ∧ limitRound s.1 s.2 = .ok s'

/-- The states of the loop, from the first on. -/
def LimitReaches : LimitState → LimitState → Prop := Relation.ReflTransGen LimitStep

/-- The scan from level 14 down stops inside the array, at a level with a leaf to push down,
and the round goes through without an underflow. -/
structure RoundSafe (s : LimitState) : Prop where
  scan : ∃ l, 1 ≤ l ∧ l ≤ kMaxCodeLength - 1 ∧
    deepestLeaf s.1 (kMaxCodeLength - 1) = .ok l ∧ s.1.getD l 0 ≠ 0 ∧
    2 ^ (kMaxCodeLength - l - 1) ≤ s.2
  step : ∃ s', LimitStep s s' ∧ s'.2 < s.2

/-- The loop invariant: the state stands for a multiset of lengths, as many as there are
symbols. -/
def Counted (n : Nat) (s : LimitState) : Prop :=
  ∃ ms, s = (histogram (kMaxCodeLength + 1) ms, kraft kMaxCodeLength ms) ∧
    Bucketed ms ∧ ms.length = n

theorem Counted.kraft {n : Nat} {s : LimitState} (h : Counted n s) :
    histogramKraft s.1 = .ok s.2 := by
  obtain ⟨ms, rfl, hms, -⟩ := h
  exact histogramKraft_eq hms

theorem Counted.step {n : Nat} {s s' : LimitState} (h : Counted n s) (hn : n ≤ 2 ^ kMaxCodeLength)
    (hstep : LimitStep s s') : Counted n s' := by
  obtain ⟨ms, rfl, hms, hlen⟩ := h
  obtain ⟨hover, hround⟩ := hstep
  obtain ⟨l, hl, hle, -, -, heq⟩ := limitRound_spec hms (exists_short (hlen.trans_le hn) hover)
  rw [heq] at hround
  cases hround
  exact ⟨_, rfl, hms.lengthen hle, (length_lengthen hl).trans hlen⟩

theorem Counted.reaches {n : Nat} {s s' : LimitState} (h : Counted n s)
    (hn : n ≤ 2 ^ kMaxCodeLength) (hreach : LimitReaches s s') : Counted n s' := by
  induction hreach with
  | refl => exact h
  | tail _ hstep ih => exact ih.step hn hstep

theorem Counted.safe {n : Nat} {s : LimitState} (h : Counted n s) (hn : n ≤ 2 ^ kMaxCodeLength)
    (hover : 2 ^ kMaxCodeLength < s.2) : RoundSafe s := by
  obtain ⟨ms, rfl, hms, hlen⟩ := h
  obtain ⟨l, hl, hle, hscan, hpow, hround⟩ := limitRound_spec hms (exists_short (hlen.trans_le hn) hover)
  refine { scan := ⟨l, (hms l hl).1, hle, hscan, ?_, hpow⟩, step := ⟨_, ⟨hover, hround⟩, ?_⟩ }
  · have hslot : l < (histogram (kMaxCodeLength + 1) ms).length := by
      rw [length_histogram]
      exact Nat.lt_succ_of_le (hms l hl).2
    rw [List.getD_eq_getElem _ _ hslot, getElem_histogram]
    exact (List.count_pos_iff.mpr hl).ne'
  · exact kraft_lengthen_lt hl hle

/-! ## The order of the lengths -/

/-- The order of `std::sort` is lexicographic. -/
theorem moreFrequent_iff {freq : FreqTable} {a b : Nat} :
    moreFrequent freq a b ↔
      freq.getD b 0 < freq.getD a 0 ∨ freq.getD a 0 = freq.getD b 0 ∧ a ≤ b := by
  rw [moreFrequent]
  split
  case isTrue hne =>
    rw [decide_eq_true_iff]
    exact ⟨Or.inl, fun h => h.resolve_right fun heq => hne heq.1⟩
  case isFalse heq =>
    rw [decide_eq_true_iff]
    rw [not_not] at heq
    exact ⟨fun h => .inr ⟨heq, h⟩, fun h => (h.resolve_left heq.not_gt).2⟩

theorem moreFrequent_total (freq : FreqTable) (a b : Nat) :
    moreFrequent freq a b ∨ moreFrequent freq b a := by
  rw [moreFrequent_iff, moreFrequent_iff]
  omega

theorem moreFrequent_trans {freq : FreqTable} {a b c : Nat} (hab : moreFrequent freq a b)
    (hbc : moreFrequent freq b c) : moreFrequent freq a c := by
  rw [moreFrequent_iff] at *
  omega

theorem pairwise_byFrequency (freq : FreqTable) :
    (byFrequency freq).Pairwise fun a b => moreFrequent freq a b := by
  have : Std.Total fun a b : Nat => moreFrequent freq a b = true := ⟨moreFrequent_total freq⟩
  have : IsTrans Nat fun a b => moreFrequent freq a b := ⟨fun _ _ _ => moreFrequent_trans⟩
  exact List.pairwise_insertionSort _ _

/-- The symbols by falling frequency have rising lengths. -/
theorem Allotted.pairwise_slots {freq : FreqTable} {nodes : List Node} {root : Nat}
    {t : CodeTree Nat} {ms : List Nat} {ls : LengthTable} (h : Allotted freq nodes root t ms ls) :
    (byFrequency freq).Pairwise fun a b => ls.getD a 0 ≤ ls.getD b 0 := by
  rw [← List.pairwise_map (f := fun s => ls.getD s 0), h.assigned.slots]
  exact ascending_pairwise ms

theorem Allotted.le_of_lt {freq : FreqTable} {nodes : List Node} {root : Nat} {t : CodeTree Nat}
    {ms : List Nat} {ls : LengthTable} (h : Allotted freq nodes root t ms ls)
    (hc : Covered freq) {a b : Nat} (hb : freq.getD b 0 ≠ 0)
    (hlt : freq.getD b 0 < freq.getD a 0) : ls.getD a 0 ≤ ls.getD b 0 := by
  have hmem : ∀ s, freq.getD s 0 ≠ 0 → s ∈ byFrequency freq := fun s hs =>
    (byFrequency_perm freq).mem_iff.mpr (hc.mem_presentSymbols.mpr hs)
  have hboth := h.pairwise_slots.and (pairwise_byFrequency freq)
  -- made symmetric, the relation holds between any two places of the list
  have hsymm : (byFrequency freq).Pairwise fun a b =>
      (freq.getD b 0 < freq.getD a 0 → ls.getD a 0 ≤ ls.getD b 0) ∧
      (freq.getD a 0 < freq.getD b 0 → ls.getD b 0 ≤ ls.getD a 0) := by
    refine hboth.imp fun {a b} hab => ⟨fun _ => hab.1, fun hba => ?_⟩
    have := moreFrequent_iff.mp hab.2
    omega
  have hne : a ≠ b := by
    rintro rfl
    exact Nat.lt_irrefl _ hlt
  have hswap : Std.Symm fun a b => (freq.getD b 0 < freq.getD a 0 → ls.getD a 0 ≤ ls.getD b 0) ∧
      (freq.getD a 0 < freq.getD b 0 → ls.getD b 0 ≤ ls.getD a 0) :=
    ⟨fun _ _ hab => ⟨hab.2, hab.1⟩⟩
  exact (hsymm.forall (hmem a (Nat.ne_zero_of_lt hlt)) (hmem b hb) hne).1 hlt

/-- While no depth is clamped, the limiter changes nothing. -/
theorem Allotted.eq_depths {freq : FreqTable} {nodes : List Node} {root : Nat} {t : CodeTree Nat}
    {ms : List Nat} {ls : LengthTable} (h : Allotted freq nodes root t ms ls)
    (hdepth : ∀ d ∈ t.depthsFrom 0, d ≤ kMaxCodeLength) : ms = t.depthsFrom 0 := by
  have hclamp : bucketDepths t 0 = t.depthsFrom 0 := by
    rw [bucketDepths, List.map_congr_left fun d hd => Nat.min_eq_left (hdepth d hd), List.map_id']
  rw [← hclamp]
  refine h.unlimited ?_
  rw [hclamp, CodeTree.kraft_depthsFrom hdepth, Nat.sub_zero]

/-- And the table uses up the code space. -/
theorem Allotted.kraft_eq {freq : FreqTable} {nodes : List Node} {root : Nat} {t : CodeTree Nat}
    {ms : List Nat} {ls : LengthTable} (h : Allotted freq nodes root t ms ls)
    (hdepth : ∀ d ∈ t.depthsFrom 0, d ≤ kMaxCodeLength) :
    kraft kMaxCodeLength (ls.filter (· ≠ 0)) = 2 ^ kMaxCodeLength := by
  rw [kraft_perm h.assigned.coded_perm, kraft_perm (ascending_perm h.bucketed), h.eq_depths hdepth,
    CodeTree.kraft_depthsFrom hdepth, Nat.sub_zero]

/-! ## The table -/

/-- What a table of code lengths for `freq` is to be. -/
structure LengthLimited (freq : FreqTable) (ls : LengthTable) : Prop where
  length : ls.length = freq.length
  absent : ∀ s, ls.getD s 0 = 0 ↔ freq.getD s 0 = 0
  le_max : ∀ s, ls.getD s 0 ≤ kMaxCodeLength
  kraft_le : kraft kMaxCodeLength (ls.filter (· ≠ 0)) ≤ 2 ^ kMaxCodeLength
  ordered : ∀ a b, freq.getD b 0 ≠ 0 → freq.getD b 0 < freq.getD a 0 → ls.getD a 0 ≤ ls.getD b 0

/-- The passes between the tree and the table: the limiter is safe in every state its loop
reaches, the lengths it leaves are as many as there are symbols, and they use up the code
space where no leaf of the tree lies too deep. -/
structure PassesSafe (freq : FreqTable) (nodes : List Node) (root : Nat) (t : CodeTree Nat)
    (ls : LengthTable) : Prop where
  merged : mergeAll (leafNodes freq (presentSymbols freq))
      (initialHeap (leafNodes freq (presentSymbols freq))) = .ok (nodes, root)
  denotes : Denotes nodes root t
  limiter : ∃ count kraft, leafDepthHistogram nodes root = .ok count ∧
    histogramKraft count = .ok kraft ∧
    ∀ s, LimitReaches (count, kraft) s →
      histogramKraft s.1 = .ok s.2 ∧ (2 ^ kMaxCodeLength < s.2 → RoundSafe s)
  handed : ∃ count count' ms, leafDepthHistogram nodes root = .ok count ∧
    enforceLengthLimit count = .ok count' ∧ lengthsOf count' = .ok ms ∧
    ms.length = (presentSymbols freq).length
  kraft_eq : (∀ d ∈ t.depthsFrom 0, d ≤ kMaxCodeLength) →
    kraft kMaxCodeLength (ls.filter (· ≠ 0)) = 2 ^ kMaxCodeLength

theorem Allotted.passesSafe {freq : FreqTable} {nodes : List Node} {root : Nat}
    {t : CodeTree Nat} {ms : List Nat} {ls : LengthTable}
    (h : Allotted freq nodes root t ms ls) (h2 : 2 ≤ (presentSymbols freq).length)
    (hcard : (presentSymbols freq).length ≤ 2 ^ kMaxCodeLength) :
    PassesSafe freq nodes root t ls := by
  have hbuckets : Bucketed (bucketDepths t 0) := bucketed_bucketDepths (h.length_leaves ▸ h2)
  have hstart : Counted (presentSymbols freq).length
      (histogram (kMaxCodeLength + 1) (bucketDepths t 0),
        kraft kMaxCodeLength (bucketDepths t 0)) :=
    ⟨_, rfl, hbuckets, h.length_buckets⟩
  refine ⟨h.merged, h.denotes, ?_, ?_, h.kraft_eq⟩
  · refine ⟨_, _, h.depths, histogramKraft_eq hbuckets, fun s hs => ?_⟩
    have hcounted := hstart.reaches hcard hs
    exact ⟨hcounted.kraft, hcounted.safe hcard⟩
  · refine ⟨_, _, _, h.depths, h.limited, lengthsOf_eq ms, ?_⟩
    rw [(ascending_perm h.bucketed).length_eq, h.size]

theorem Usable.lengthLimited {freq : FreqTable} {ls : LengthTable} (h : Usable freq ls)
    (hc : Covered freq) (hordered : ∀ a b, freq.getD b 0 ≠ 0 → freq.getD b 0 < freq.getD a 0 →
      ls.getD a 0 ≤ ls.getD b 0) : LengthLimited freq ls where
  length := h.length
  absent s := not_iff_not.mp (h.present_iff hc s)
  le_max s := by
    rcases Nat.lt_or_ge s ls.length with hs | hs
    · rw [List.getD_eq_getElem _ _ hs]
      exact h.le_max _ (List.getElem_mem hs)
    · rw [List.getD_eq_default _ _ hs]
      exact Nat.zero_le _
  kraft_le := h.kraft_le
  ordered := hordered

/-- **`buildLengths` builds a length-limited prefix code**, if its loop runs over the whole
table. -/
theorem Covered.lengthLimited {freq : FreqTable} (hc : Covered freq)
    (hcard : (presentSymbols freq).length ≤ 2 ^ kMaxCodeLength) :
    ∃ ls, buildLengths freq = .ok ls ∧ LengthLimited freq ls ∧
      (2 ≤ (presentSymbols freq).length → ∃ nodes root t, PassesSafe freq nodes root t ls) := by
  rcases Nat.lt_or_ge (presentSymbols freq).length 2 with h2 | h2
  · obtain ⟨ls, hok, hu⟩ := buildLengths_spec hcard
    refine ⟨ls, hok, hu.lengthLimited hc fun a b hb hlt => ?_, fun hge => ?_⟩
    · have hnodup : [a, b].Nodup := by
        have hne : a ≠ b := by
          rintro rfl
          exact Nat.lt_irrefl _ hlt
        simp [hne]
      have hsub : [a, b] ⊆ presentSymbols freq := by
        intro s hs
        rcases List.mem_pair.mp hs with rfl | rfl
        · exact hc.mem_presentSymbols.mpr (Nat.ne_zero_of_lt hlt)
        · exact hc.mem_presentSymbols.mpr hb
      exact absurd (hnodup.subperm hsub).length_le (Nat.not_le.mpr h2)
    · exact absurd h2 (Nat.not_lt.mpr hge)
  · obtain ⟨nodes, root, t, ms, ls, hok, ha⟩ := buildLengths_allotted h2 hcard
    exact ⟨ls, hok, ha.usable.lengthLimited hc fun a b => ha.le_of_lt hc,
      fun _ => ⟨nodes, root, t, ha.passesSafe h2 hcard⟩⟩

/-- A table that has its lengths was covered: what the loop does not reach has none. -/
theorem LengthLimited.covered {freq : FreqTable} {ls : LengthTable}
    (hcard : (presentSymbols freq).length ≤ 2 ^ kMaxCodeLength)
    (hok : buildLengths freq = .ok ls) (h : LengthLimited freq ls) : Covered freq := by
  intro s hs
  obtain ⟨ls', hok', hu⟩ := buildLengths_spec hcard
  rw [hok, Except.ok.injEq] at hok'
  subst hok'
  have hcoded : ls.getD s 0 ≠ 0 := fun hzero => hs ((h.absent s).mp hzero)
  exact (mem_presentSymbols.mp ((hu.present s).mp hcoded)).1

/-- **When `buildLengths` builds a length-limited prefix code.** -/
theorem buildLengths_lengthLimited_iff {freq : FreqTable}
    (hcount : (freq.filter (· ≠ 0)).length ≤ 2 ^ kMaxCodeLength) :
    (∃ ls, buildLengths freq = .ok ls ∧ LengthLimited freq ls ∧
      (2 ≤ (presentSymbols freq).length → ∃ nodes root t, PassesSafe freq nodes root t ls)) ↔
    Covered freq := by
  have hcard := (length_presentSymbols_le_count freq).trans hcount
  constructor
  · rintro ⟨ls, hok, hlimited, -⟩
    exact hlimited.covered hcard hok
  · exact fun hc => hc.lengthLimited hcard

theorem buildLengths_lengthLimited_iff_run :
    (∃ ls, buildLengths [5, 0, 3, 1] = .ok ls ∧ LengthLimited [5, 0, 3, 1] ls ∧
      (2 ≤ (presentSymbols [5, 0, 3, 1]).length →
        ∃ nodes root t, PassesSafe [5, 0, 3, 1] nodes root t ls)) ↔
    Covered [5, 0, 3, 1] :=
  buildLengths_lengthLimited_iff (by decide)

/-- With `2 ^ 31` entries the loop makes no round, and a symbol that occurs has length 0. -/
theorem buildLengths_one_zeros :
    ((1 :: List.replicate (2 ^ 31 - 1) 0).filter (· ≠ 0)).length ≤ 2 ^ kMaxCodeLength ∧
      ¬ ∃ ls, buildLengths (1 :: List.replicate (2 ^ 31 - 1) 0) = .ok ls ∧
        LengthLimited (1 :: List.replicate (2 ^ 31 - 1) 0) ls := by
  have hcount : ((1 :: List.replicate (2 ^ 31 - 1) 0).filter (· ≠ 0)).length
      ≤ 2 ^ kMaxCodeLength := by
    rw [List.filter_cons_of_pos (by decide), List.filter_replicate]
    decide
  refine ⟨hcount, ?_⟩
  rintro ⟨ls, hok, hlimited⟩
  exact not_covered_one_zeros
    (hlimited.covered ((length_presentSymbols_le_count _).trans hcount) hok)

end Compressly.Huffman

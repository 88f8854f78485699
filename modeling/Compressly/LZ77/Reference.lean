/-
# `Compressly.LZ77.Reference` — the tokenizer against a quadratic parser

The reference parser has no chains, no ring buffer and no pruning.  At `p` it
takes all positions before `p`, newest first, keeps those in the window that
hash as `p` does, cuts the list at `maxChainLength`, and picks the position with
the longest common run (`List.argmax`, which prefers the earlier on ties).  It
takes that match unless it is too short, or lazy matching finds a longer one at
`p + 1`.

The tokenizer computes the same parse (`tokenize_reference`).  A budget of
`windowSize - 1` never cuts a list, and a position with a run of three bytes
hashes as `p` does; then the match is the longest in the window
(`search_eq_exhaustive`).
-/
import Compressly.LZ77.Tokenize

namespace Compressly.LZ77

open Chain Replay

/-! ## The parser -/

section Reference
variable (data : List UInt8) (config : Config)

/-- The common run of `data` from `q` and from `p`, up to the end and to the longest match. -/
def commonAt (p q : Nat) : Nat :=
  min (commonRun (data.drop q) (data.drop p))
    (min (data.length - p) (config.minMatch.toNat + 255))

/-- The positions before `p` in the window, newest first. -/
def inWindow (p : Nat) : List Nat :=
  (List.range p).reverse.filter fun q => p - q < 2 ^ config.windowBits.toNat

/-- Those with the hash of `p`, as many as may be looked at. -/
def hashedAlike (p : Nat) : List Nat :=
  ((inWindow config p).filter fun q => bucketOf data config q = bucketOf data config p).take
    config.maxChainLength.toNat

/-- Distance and length of the match at `p` with the longest run among `qs`, if it is long enough. -/
def bestAmong (qs : List Nat) (p : Nat) : Option (Nat × Nat) :=
  if p + config.minMatch.toNat ≤ data.length then do
    let q ← qs.argmax (commonAt data config p)
    if config.minMatch.toNat ≤ commonAt data config p q then some (p - q, commonAt data config p q)
    else none
  else none

/-- The search of the tokenizer, and the one that leaves no position out. -/
def search (p : Nat) : Option (Nat × Nat) := bestAmong data config (hashedAlike data config p) p

def exhaustive (p : Nat) : Option (Nat × Nat) := bestAmong data config (inWindow config p) p

/-- The match taken at `p`: with lazy matching, none if the one at `p + 1` is longer. -/
def taken (find : Nat → Option (Nat × Nat)) (p : Nat) : Option (Nat × Nat) :=
  (find p).filter fun m =>
    !(config.lazyMatching && decide (p + 1 < data.length) && (find (p + 1)).any fun next => m.2 < next.2)

/-- The parse from `p` on. -/
def parseBy (find : Nat → Option (Nat × Nat)) (p : Nat) : List (Item UInt8) :=
  if h : p < data.length then
    match taken data config find p with
    | none => .lit data[p] :: parseBy find (p + 1)
    | some (distance, length) => .copy distance length :: parseBy find (p + max 1 length)
  else []
termination_by data.length - p

end Reference

/-! ## The candidates -/

theorem commonRun_comm {α : Type} [DecidableEq α] (as bs : List α) :
    commonRun as bs = commonRun bs as := by
  refine eq_of_forall_le_iff fun n => ?_
  rw [le_commonRun, le_commonRun]
  constructor
  · exact fun h => ⟨h.2.1, h.1, fun k hk => (h.2.2 k hk).symm⟩
  · exact fun h => ⟨h.2.1, h.1, fun k hk => (h.2.2 k hk).symm⟩

theorem commonRun_take {α : Type} [DecidableEq α] (n : Nat) (as bs : List α) :
    commonRun (as.take n) bs = min n (commonRun as bs) := by
  refine eq_of_forall_le_iff fun m => ?_
  rw [Nat.le_min, le_commonRun, le_commonRun, List.length_take, Nat.le_min, and_assoc]
  refine and_congr_right fun hm => and_congr_right fun _ => and_congr_right fun _ => ?_
  refine forall_congr' fun k => imp_congr_right fun hk => ?_
  rw [List.getElem?_take_of_lt (hk.trans_le hm)]

section Search
variable {data : List UInt8} {config : Config}

theorem commonAt_eq (hc : config.Valid) (p q : Nat) :
    commonAt data config p q = runAt data p q (matchLimit data config p) := by
  rw [commonAt, runAt, commonRun_take, commonRun_comm, Nat.min_comm, matchLimit, hc.maxMatch_eq]

theorem mem_inWindow {p q : Nat} : q ∈ inWindow config p ↔ q < p ∧ p - q < config.windowSize := by
  rw [inWindow, List.mem_filter, List.mem_reverse, List.mem_range, decide_eq_true_iff]
  rfl

/-- The chain holds what the reference parser looks at. -/
theorem candidates_eq {p : Nat} (hp : p + kHashBytes ≤ data.length) :
    candidates data config p = hashedAlike data config p := by
  have hpos := config.windowSize_pos
  rw [candidates, hashedAlike, recent_eq_filter, inWindow, List.filter_filter]
  refine congrArg (List.take _) (List.filter_congr fun q hq => ?_)
  have hqp : q < p := List.mem_range.mp (List.mem_reverse.mp hq)
  rw [← Bool.decide_and, decide_eq_decide]
  have hwindow : p + 1 - config.windowSize ≤ q ↔ p - q < config.windowSize := by omega
  have hroom : q + kHashBytes ≤ data.length := by omega
  rw [hwindow, InBucket, and_comm]
  exact and_congr_left fun _ => and_iff_right hroom

/-! ## The match found -/

/-- A match as the source returns it. -/
def matchOf : Option (Nat × Nat) → Match
  | none => {}
  | some (distance, length) =>
      { distance := UInt16.ofNat distance, length := UInt16.ofNat length }

/-- The match of a position with run `n`. -/
def bestAt (p n q : Nat) : Match := if n = 0 then {} else matchOf (some (p - q, n))

theorem length_bestAt {p n q : Nat} (hn : n < 65536) : (bestAt p n q).length.toNat = n := by
  unfold bestAt
  split
  case isTrue h0 => exact h0.symm
  case isFalse => exact toNat_ofNat_of_lt hn

theorem runAt_le_limit (data : List UInt8) (a b limit : Nat) : runAt data a b limit ≤ limit :=
  (le_commonRun.mp le_rfl).1.trans (List.length_take_le _ _)

/-- Keeping the better of two matches is looking for the longest run. -/
theorem foldl_improve_argmax {p limit : Nat} (hlimit : limit < 65536) (qs : List Nat) :
    qs.foldl (improve data p limit) {}
      = match qs.argmax fun q => runAt data p q limit with
        | none => {}
        | some q => bestAt p (runAt data p q limit) q := by
  have hsmall : ∀ q, runAt data p q limit < 65536 := fun q =>
    (runAt_le_limit data p q limit).trans_lt hlimit
  induction qs using List.reverseRecOn with
  | nil => rfl
  | append_singleton qs q ih =>
      rw [List.foldl_append, ih, List.foldl_cons, List.foldl_nil, List.argmax_concat]
      cases List.argmax (fun q => runAt data p q limit) qs with
      | none =>
          simp only [improve, bestAt, UInt16.toNat_zero]
          by_cases h0 : runAt data p q limit = 0
          · rw [h0]
            rfl
          · rw [if_neg h0, if_pos (Nat.pos_of_ne_zero h0)]
            rfl
      | some c =>
          simp only [improve, length_bestAt (hsmall c)]
          by_cases hbetter : runAt data p c limit < runAt data p q limit
          · rw [if_pos hbetter, if_pos hbetter]
            simp only [bestAt, if_neg (Nat.ne_zero_of_lt hbetter)]
            rfl
          · rw [if_neg hbetter, if_neg hbetter]

theorem longest_eq (data : List UInt8) (hc : config.Valid) (p : Nat) :
    longest data config p = matchOf (search data config p) := by
  have hmin := hc.toNat_minMatch.1
  have hpos : 0 < config.minMatch.toNat := Nat.lt_of_lt_of_le (by decide) hmin
  have hlimit : matchLimit data config p < 65536 := by
    have := hc.toNat_minMatch.2
    have := hc.maxMatch_eq
    unfold matchLimit
    omega
  have hcommon : commonAt data config p = fun q => runAt data p q (matchLimit data config p) :=
    funext (commonAt_eq hc p)
  unfold longest search bestAmong
  by_cases hroom : p + config.minMatch.toNat ≤ data.length
  · have h3 : p + kHashBytes ≤ data.length := (Nat.add_le_add_left hmin p).trans hroom
    rw [if_neg (Nat.not_lt.mpr hroom), if_pos hroom, candidates_eq h3, foldl_improve_argmax hlimit,
      hcommon]
    cases (hashedAlike data config p).argmax
        (fun q => runAt data p q (matchLimit data config p)) with
    | none =>
        exact if_pos hpos
    | some q =>
        have hsmall : runAt data p q (matchLimit data config p) < 65536 :=
          (runAt_le_limit data p q _).trans_lt hlimit
        simp only [length_bestAt hsmall, Option.bind_eq_bind, Option.bind_some]
        by_cases hlong : config.minMatch.toNat ≤ runAt data p q (matchLimit data config p)
        · rw [if_neg (Nat.not_lt.mpr hlong), if_pos hlong, bestAt,
            if_neg (Nat.ne_zero_of_lt (hpos.trans_le hlong))]
        · rw [if_pos (Nat.lt_of_not_le hlong), if_neg hlong]
          rfl
  · rw [if_pos (Nat.lt_of_not_le hroom), if_neg hroom]
    rfl

theorem bestAmong_eq_some {qs : List Nat} {p distance length : Nat} :
    bestAmong data config qs p = some (distance, length) ↔
      p + config.minMatch.toNat ≤ data.length ∧ ∃ q, qs.argmax (commonAt data config p) = some q ∧
        config.minMatch.toNat ≤ commonAt data config p q ∧ distance = p - q ∧
        length = commonAt data config p q := by
  unfold bestAmong
  by_cases hroom : p + config.minMatch.toNat ≤ data.length
  · rw [if_pos hroom, Option.bind_eq_bind, Option.bind_eq_some_iff]
    refine ⟨?_, ?_⟩
    · rintro ⟨q, hq, hfound⟩
      by_cases hlong : config.minMatch.toNat ≤ commonAt data config p q
      · rw [if_pos hlong] at hfound
        cases hfound
        exact ⟨hroom, q, hq, hlong, rfl, rfl⟩
      · rw [if_neg hlong] at hfound
        cases hfound
    · rintro ⟨-, q, hq, hlong, rfl, rfl⟩
      exact ⟨q, hq, if_pos hlong⟩
  · rw [if_neg hroom]
    exact ⟨fun h => (by cases h), fun h => absurd h.1 hroom⟩

/-- What a search finds is in the window and fits the fields of a token. -/
theorem search_bounds (hc : config.Valid) {p distance length : Nat}
    (h : search data config p = some (distance, length)) :
    (0 < distance ∧ distance < 2 ^ 16) ∧ 0 < length ∧ length < 2 ^ 16 := by
  have hmin := hc.toNat_minMatch
  have hwindow := hc.windowSize_le
  obtain ⟨-, q, hq, hlong, rfl, rfl⟩ := bestAmong_eq_some.mp h
  have hmem := List.mem_of_mem_filter (List.mem_of_mem_take (List.argmax_mem hq))
  obtain ⟨hqp, hdist⟩ := mem_inWindow.mp hmem
  have hshort : commonAt data config p q ≤ config.minMatch.toNat + 255 :=
    (Nat.min_le_right _ _).trans (Nat.min_le_right _ _)
  omega

/-! ## The parse -/

theorem length_matchOf {distance length : Nat} (h : length < 2 ^ 16) :
    (matchOf (some (distance, length))).length.toNat = length := toNat_ofNat_of_lt h

theorem chosen_eq (data : List UInt8) (hc : config.Valid) (p : Nat) :
    chosen data config p = matchOf (taken data config (search data config) p) := by
  rw [chosen, longest_eq data hc, longest_eq data hc, taken]
  cases hfound : search data config p with
  | none => exact if_neg fun h => h.1 rfl
  | some m =>
      obtain ⟨distance, length⟩ := m
      obtain ⟨-, hpos, hsmall⟩ := search_bounds hc hfound
      have hlen : (matchOf (some (distance, length))).length.toNat = length :=
        length_matchOf hsmall
      have h0 : (matchOf (some (distance, length))).length ≠ 0 := by
        intro h
        rw [h] at hlen
        exact absurd hlen (Nat.ne_of_lt hpos)
      have hnext : (matchOf (some (distance, length))).length
            < (matchOf (search data config (p + 1))).length ↔
          ((search data config (p + 1)).any fun next => length < next.2) = true := by
        rw [UInt16.lt_iff_toNat_lt, hlen]
        cases hfound' : search data config (p + 1) with
        | none => exact ⟨fun h => absurd h (Nat.not_lt_zero _), fun h => (by cases h)⟩
        | some m' =>
            obtain ⟨distance', length'⟩ := m'
            rw [length_matchOf (search_bounds hc hfound').2.2]
            exact (decide_eq_true_iff).symm
      simp only [hnext, Option.filter_some]
      by_cases hlazy : config.lazyMatching = true ∧ p + 1 < data.length ∧
          ((search data config (p + 1)).any fun next => length < next.2) = true
      · rw [if_pos ⟨h0, hlazy⟩, if_neg]
        · rfl
        · simp only [hlazy.1, hlazy.2.1, hlazy.2.2, decide_true, Bool.and_self, Bool.not_true]
          exact Bool.false_ne_true
      · rw [if_neg fun h => hlazy h.2, if_pos]
        rw [Bool.not_eq_true', ← Bool.not_eq_true, Bool.and_eq_true, Bool.and_eq_true,
          decide_eq_true_iff, and_assoc]
        exact hlazy

theorem taken_mem {find : Nat → Option (Nat × Nat)} {p : Nat} {m : Nat × Nat}
    (h : taken data config find p = some m) : find p = some m :=
  (Option.filter_eq_some_iff.mp h).1

/-- The parse of the tokenizer is the reference parse, item by item. -/
theorem parse_eq (hc : config.Valid) (p : Nat) :
    parse data config p = (parseBy data config (search data config) p).map tokenOf := by
  fun_induction parseBy data config (search data config) p with
  | case1 p hp hnone ih =>
      have hchosen := chosen_eq data hc p
      rw [hnone] at hchosen
      have h0 : (matchOf none).length = 0 := rfl
      rw [parse_of_lt hp, hchosen, List.map_cons, ← ih, tokenFor, if_pos h0,
        List.getD_eq_getElem _ _ hp]
      rfl
  | case2 p hp distance length hsome ih =>
      have hchosen := chosen_eq data hc p
      rw [hsome] at hchosen
      obtain ⟨-, hpos, hsmall⟩ := search_bounds hc (taken_mem hsome)
      have hlen : (matchOf (some (distance, length))).length.toNat = length :=
        length_matchOf hsmall
      have h0 : (matchOf (some (distance, length))).length ≠ 0 := by
        intro h
        rw [h] at hlen
        exact absurd hlen (Nat.ne_of_lt hpos)
      rw [parse_of_lt hp, hchosen, hlen, List.map_cons, ← ih, tokenFor, if_neg h0]
      rfl
  | case3 p hge => exact parse_of_le (Nat.le_of_not_lt hge)

/-- The fields of the tokens hold the numbers of the items. -/
theorem map_item_tokenOf (hc : config.Valid) (p : Nat) :
    ((parseBy data config (search data config) p).map tokenOf).map Token.item
      = parseBy data config (search data config) p := by
  fun_induction parseBy data config (search data config) p with
  | case1 p hp hnone ih =>
      rw [List.map_cons, List.map_cons, ih]
      rfl
  | case2 p hp distance length hsome ih =>
      obtain ⟨hdist, -, hsmall⟩ := search_bounds hc (taken_mem hsome)
      rw [List.map_cons, List.map_cons, ih, item_tokenOf]
      rintro distance' length' hcopy
      cases hcopy
      exact ⟨hdist, hsmall⟩
  | case3 p hge => rfl

/-! ## Without the hash -/

/-- An element below `t` in front does not decide a maximum that reaches `t`. -/
theorem argmax_cons_low {α : Type} {f : α → Nat} {t : Nat} {a m : α} (l : List α) (ha : f a < t) :
    ((a :: l).argmax f = some m ∧ t ≤ f m) ↔ (l.argmax f = some m ∧ t ≤ f m) := by
  rw [List.argmax_cons]
  refine and_congr_left fun hm => ?_
  cases l.argmax f with
  | none =>
      refine ⟨fun h => ?_, fun h => (by cases h)⟩
      cases h
      exact absurd ha (Nat.not_lt.mpr hm)
  | some c =>
      show (if f a < f c then some c else some a) = some m ↔ some c = some m
      by_cases hac : f a < f c
      · rw [if_pos hac]
      · rw [if_neg hac]
        constructor
        · intro h
          cases h
          exact absurd ha (Nat.not_lt.mpr hm)
        · intro h
          cases h
          exact absurd (ha.trans_le hm) hac

/-- One that reaches `t` is beaten only by a maximum that does. -/
theorem argmax_cons_high {α : Type} {f : α → Nat} {t : Nat} {a m : α} (l : List α) (ha : t ≤ f a) :
    (a :: l).argmax f = some m ↔ (l.argmax f = some m ∧ t ≤ f m) ∧ f a < f m ∨
      (∀ c, l.argmax f = some c ∧ t ≤ f c → ¬ f a < f c) ∧ m = a := by
  rw [List.argmax_cons]
  cases l.argmax f with
  | none =>
      constructor
      · intro h
        cases h
        exact Or.inr ⟨fun c hc => (by cases hc.1), rfl⟩
      · rintro (⟨⟨h, -⟩, -⟩ | ⟨-, rfl⟩)
        · cases h
        · rfl
  | some c =>
      show (if f a < f c then some c else some a) = some m ↔ _
      by_cases hac : f a < f c
      · rw [if_pos hac]
        constructor
        · intro h
          cases h
          exact Or.inl ⟨⟨rfl, ha.trans hac.le⟩, hac⟩
        · rintro (⟨⟨h, -⟩, -⟩ | ⟨hnone, -⟩)
          · exact h
          · exact absurd hac (hnone c ⟨rfl, ha.trans hac.le⟩)
      · rw [if_neg hac]
        constructor
        · intro h
          cases h
          refine Or.inr ⟨?_, rfl⟩
          rintro d ⟨hd, -⟩
          cases hd
          exact hac
        · rintro (⟨⟨h, -⟩, hlt⟩ | ⟨-, rfl⟩)
          · cases h
            exact absurd hlt hac
          · rfl

/-- A maximum that reaches `t` is found among those that may reach it. -/
theorem argmax_filter {α : Type} {f : α → Nat} {t : Nat} {P : α → Bool} {l : List α}
    (h : ∀ a ∈ l, t ≤ f a → P a) (m : α) :
    ((l.filter P).argmax f = some m ∧ t ≤ f m) ↔ (l.argmax f = some m ∧ t ≤ f m) := by
  induction l generalizing m with
  | nil => exact Iff.rfl
  | cons a l ih =>
      have hrest := ih fun b hb => h b (List.mem_cons_of_mem _ hb)
      by_cases ha : t ≤ f a
      · rw [List.filter_cons_of_pos (h a List.mem_cons_self ha), argmax_cons_high _ ha,
          argmax_cons_high _ ha]
        simp only [hrest]
      · rw [argmax_cons_low l (Nat.lt_of_not_le ha), ← hrest]
        by_cases hP : P a
        · rw [List.filter_cons_of_pos hP, argmax_cons_low _ (Nat.lt_of_not_le ha)]
        · rw [List.filter_cons_of_neg hP]

/-- The window before a position holds fewer than `windowSize` others. -/
theorem length_inWindow_lt (config : Config) (p : Nat) :
    (inWindow config p).length < config.windowSize := by
  have hnodup : (inWindow config p).Nodup := (List.nodup_reverse.mpr List.nodup_range).filter _
  have hsub : (inWindow config p).toFinset ⊆ Finset.Ico (p + 1 - config.windowSize) p := by
    intro q hq
    obtain ⟨hqp, hdist⟩ := mem_inWindow.mp (List.mem_toFinset.mp hq)
    rw [Finset.mem_Ico]
    omega
  have hcard := Finset.card_le_card hsub
  have hpos := config.windowSize_pos
  rw [List.toFinset_card_of_nodup hnodup, Nat.card_Ico] at hcard
  omega

/-- Three equal bytes hash alike. -/
theorem bucketOf_congr {p q : Nat} (h : 3 ≤ commonAt data config p q) :
    bucketOf data config q = bucketOf data config p := by
  obtain ⟨-, -, hrun⟩ := le_commonRun.mp (h.trans (Nat.min_le_left _ _))
  have hbyte : ∀ k < 3, data.getD (q + k) 0 = data.getD (p + k) 0 := by
    intro k hk
    have hagree := hrun k hk
    rw [List.getElem?_drop, List.getElem?_drop] at hagree
    rw [List.getD_eq_getElem?_getD, List.getD_eq_getElem?_getD, hagree]
  have h0 := hbyte 0 (by decide)
  rw [Nat.add_zero, Nat.add_zero] at h0
  rw [bucketOf, bucketOf, h0, hbyte 1 (by decide), hbyte 2 (by decide)]

/-- With a budget for the whole window, a search leaves no position out. -/
theorem search_eq_exhaustive (data : List UInt8) (hc : config.Valid)
    (hchain : 2 ^ config.windowBits.toNat - 1 ≤ config.maxChainLength.toNat) (p : Nat) :
    search data config p = exhaustive data config p := by
  have hmin := hc.toNat_minMatch.1
  have hall : hashedAlike data config p
      = (inWindow config p).filter fun q => bucketOf data config q = bucketOf data config p := by
    refine List.take_of_length_le ((List.length_filter_le _ _).trans ?_)
    exact (Nat.le_sub_one_of_lt (length_inWindow_lt config p)).trans hchain
  have hfilter := argmax_filter (l := inWindow config p) (f := commonAt data config p)
    (t := config.minMatch.toNat) (P := fun q => bucketOf data config q = bucketOf data config p)
    fun q _ hq => decide_eq_true (bucketOf_congr (hmin.trans hq))
  refine Option.ext fun m => ?_
  obtain ⟨distance, length⟩ := m
  rw [search, exhaustive, bestAmong_eq_some, bestAmong_eq_some, hall]
  refine and_congr_right fun _ => exists_congr fun q => ?_
  rw [← and_assoc, hfilter q, and_assoc]

/-- The match of an exhaustive search is the longest in the window, the nearest on ties. -/
theorem exhaustive_longest {p distance length : Nat}
    (h : exhaustive data config p = some (distance, length)) {q : Nat} (hq : q < p)
    (hwindow : p - q < config.windowSize) : commonAt data config p q ≤ length := by
  obtain ⟨-, best, hbest, -, -, rfl⟩ := bestAmong_eq_some.mp h
  exact List.le_of_mem_argmax (mem_inWindow.mpr ⟨hq, hwindow⟩) hbest

end Search

/-- **The tokenizer is the reference parser.** -/
theorem tokenize_reference (data : List UInt8) (config : Config) (h : config.validate = .ok ()) :
    (∃ stats, tokenize data config
      = .ok ((parseBy data config (search data config) 0).map tokenOf, stats)) ∧
    ((parseBy data config (search data config) 0).map tokenOf).map Token.item
      = parseBy data config (search data config) 0 ∧
    -- with a budget for the whole window, every search is exhaustive
    (2 ^ config.windowBits.toNat - 1 ≤ config.maxChainLength.toNat → ∀ p,
      search data config p = exhaustive data config p ∧
        ∀ distance length, search data config p = some (distance, length) →
          ∀ q < p, p - q < 2 ^ config.windowBits.toNat → commonAt data config p q ≤ length) := by
  have hc := Config.validate_eq_ok.mp h
  obtain ⟨examined, htokens⟩ := tokenize_eq data hc
  rw [parse_eq hc] at htokens
  refine ⟨⟨_, htokens⟩, map_item_tokenOf hc 0, fun hchain p => ?_⟩
  have hsearch := search_eq_exhaustive data hc hchain p
  refine ⟨hsearch, fun distance length hfound q hq hwindow => ?_⟩
  rw [hsearch] at hfound
  exact exhaustive_longest hfound hq hwindow

/-- The theorem at a configuration whose chains hold the whole window. -/
theorem tokenize_reference_run :
    (∃ stats, tokenize [1, 2, 3, 1, 2, 3, 9] { maxChainLength := 32767 }
      = .ok ((parseBy [1, 2, 3, 1, 2, 3, 9] { maxChainLength := 32767 }
          (search [1, 2, 3, 1, 2, 3, 9] { maxChainLength := 32767 }) 0).map tokenOf, stats)) ∧
      search [1, 2, 3, 1, 2, 3, 9] { maxChainLength := 32767 } 3
        = exhaustive [1, 2, 3, 1, 2, 3, 9] { maxChainLength := 32767 } 3 := by
  obtain ⟨htokens, -, hexhaustive⟩ :=
    tokenize_reference [1, 2, 3, 1, 2, 3, 9] { maxChainLength := 32767 } rfl
  exact ⟨htokens, (hexhaustive (by decide) 3).1⟩

end Compressly.LZ77

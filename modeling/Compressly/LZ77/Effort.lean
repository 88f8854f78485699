/-
# `Compressly.LZ77.Effort` — the cost of a parse, in chain steps

`candidatesExamined` is the cost measure of the tokenizer.  A search takes one step
for each candidate it visits: the members of its bucket in the window, up to the first
one with a match of full length and `maxChainLength` at most (`steps_le`).  A round of
the loop makes one search, and a second one where it looks ahead; the counter is the
sum of their steps over the positions of the tokens (`search_effort`).
-/
import Compressly.LZ77.Repeats

namespace Compressly.LZ77

open Chain Replay

section Effort
variable (data : List UInt8) (config : Config)

/-- The candidates visited: none after the first with a match of `limit` bytes. -/
def visited (p limit : Nat) (best : Match) : List Nat → Nat
  | [] => 0
  | q :: qs =>
      if limit ≤ (improve data p limit best q).length.toNat then 1
      else 1 + visited p limit (improve data p limit best q) qs

/-- The steps of the search at `p`. -/
def steps (p : Nat) : Nat :=
  if data.length < p + config.minMatch.toNat then 0
  else visited data p (matchLimit data config p) {} (candidates data config p)

/-- The round at `p` also searches at `p + 1`. -/
def LooksAhead (p : Nat) : Prop :=
  (longest data config p).length ≠ 0 ∧ config.lazyMatching ∧ p + 1 < data.length

instance (p : Nat) : Decidable (LooksAhead data config p) :=
  inferInstanceAs (Decidable (_ ∧ _))

def roundSteps (p : Nat) : Nat :=
  steps data config p + if LooksAhead data config p then steps data config (p + 1) else 0

/-- The steps of the rounds from `p` on. -/
def effort (p : Nat) : Nat :=
  if p < data.length then
    roundSteps data config p + effort (p + max 1 (chosen data config p).length.toNat)
  else 0
termination_by data.length - p

variable {data config}

theorem visited_le (p limit : Nat) (best : Match) (qs : List Nat) :
    visited data p limit best qs ≤ qs.length := by
  induction qs generalizing best with
  | nil => exact Nat.le_refl _
  | cons q qs ih =>
      rw [visited, List.length_cons]
      have hrest := ih (improve data p limit best q)
      split
      case isTrue => omega
      case isFalse => omega

/-- No search takes more than the budget, or than the window has positions. -/
theorem steps_le (data : List UInt8) (hc : config.Valid) (p : Nat) :
    steps data config p ≤ config.maxChainLength.toNat ∧
      steps data config p < config.windowSize := by
  have hpos := config.windowSize_pos
  have hmin := hc.toNat_minMatch.1
  unfold steps
  split
  case isTrue => exact ⟨Nat.zero_le _, hpos⟩
  case isFalse hroom =>
    have hvisited : visited data p (matchLimit data config p) {} (candidates data config p)
        ≤ (candidates data config p).length := visited_le _ _ _ _
    have hbudget : (candidates data config p).length ≤ config.maxChainLength.toNat :=
      List.length_take_le _ _
    have hwindow : (candidates data config p).length ≤ (inWindow config p).length := by
      rw [candidates_eq (Nat.le_of_not_lt fun h => hroom (by unfold kHashBytes at h; omega)),
        hashedAlike]
      exact (List.length_take_le' _ _).trans (List.length_filter_le _ _)
    have hlt := length_inWindow_lt config p
    omega

/-! ## The counter -/

def Stats.count (stats : Stats) (n : Nat) : Stats :=
  { stats with candidatesExamined := u64 (stats.candidatesExamined + n) }

/-- The counter is a word. -/
def Stats.Word (stats : Stats) : Prop := stats.candidatesExamined < 2 ^ 64

theorem count_zero {stats : Stats} (h : stats.Word) : stats.count 0 = stats := by
  rw [Stats.count, Nat.add_zero, u64_of_lt h]

theorem count_count (stats : Stats) (a b : Nat) :
    (stats.count a).count b = stats.count (a + b) := by
  simp only [Stats.count, u64, Nat.mod_add_mod, Nat.add_assoc]

theorem word_count (stats : Stats) (n : Nat) : (stats.count n).Word :=
  Nat.mod_lt _ (Nat.two_pow_pos 64)

/-- The walk counts what it visits. -/
theorem walk_visited {p limit : Nat} (hp : p + limit ≤ data.length) (hlimit : limit < 65536) :
    ∀ (chain c : Nat) (best : Match) (stats : Stats), c ≤ p → best.length.toNat < limit →
      stats.Word → ∃ m, (finderAt data config (p + 1)).walk p limit chain
          (latest (InBucket data config (bucketOf data config p)) c) best stats
        = .ok (m, stats.count (visited data p limit best
            ((recent (InBucket data config (bucketOf data config p))
              (p + 1 - config.windowSize) c).take chain))) := by
  intro chain
  induction chain with
  | zero =>
      intro c best stats _ _ hstats
      rw [List.take_zero, visited, count_zero hstats]
      cases latest (InBucket data config (bucketOf data config p)) c with
      | none => exact ⟨best, rfl⟩
      | some q => exact ⟨best, rfl⟩
  | succ chain ih =>
      intro c best stats hc hbest hstats
      rw [recent_eq]
      cases hlatest : latest (InBucket data config (bucketOf data config p)) c with
      | none =>
          simp only [List.take_nil, visited, count_zero hstats]
          exact ⟨best, rfl⟩
      | some q =>
          have hqc := latest_lt hlatest
          obtain ⟨hq3, hbucket⟩ := of_latest hlatest
          have hqp : q ≤ p := by omega
          by_cases hwin : p - q < config.windowSize
          · have hlink : fetch (finderAt data config (p + 1)).prev (MatchFinder.slot config q)
                = .ok (latest (InBucket data config (bucketOf data config p)) q) := by
              rw [link_eq hq3 hqp (by omega), link, hbucket]
            rw [walk_visit stats hqp hwin hp hlimit hbest hlink]
            simp only [if_pos (show p + 1 - config.windowSize ≤ q by omega)]
            rw [List.take_succ_cons, visited]
            by_cases hfull : limit ≤ (improve data p limit best q).length.toNat
            · rw [if_pos hfull, if_pos hfull]
              exact ⟨_, rfl⟩
            · rw [if_neg hfull, if_neg hfull, ← count_count]
              exact ih q (improve data p limit best q) (stats.count 1) hqp
                (Nat.lt_of_not_le hfull) (word_count _ _)
          · simp only [MatchFinder.walk, minus_of_le hqp, bind_ok]
            rw [if_pos (Nat.le_of_not_lt hwin), if_neg (by omega), List.take_nil, visited,
              count_zero hstats]
            exact ⟨best, rfl⟩

theorem findLongest_steps (data : List UInt8) (hc : config.Valid) (p : Nat) {stats : Stats}
    (hstats : stats.Word) :
    (finderAt data config (p + 1)).findLongest p stats
      = .ok (longest data config p, stats.count (steps data config p)) := by
  obtain ⟨n, hfind⟩ := findLongest_eq data hc p stats
  have hmin := hc.toNat_minMatch
  rw [hfind]
  rw [MatchFinder.findLongest] at hfind
  by_cases hroom : data.length < p + config.minMatch.toNat
  · rw [if_pos hroom] at hfind
    rw [steps, if_pos hroom, count_zero hstats]
    exact congrArg _ (Prod.ext rfl (Prod.ext_iff.mp (Except.ok.inj hfind)).2.symm)
  · rw [if_neg hroom] at hfind
    have h3 : p + kHashBytes ≤ data.length := by
      unfold kHashBytes
      omega
    have hlimit : matchLimit data config p = min (data.length - p) config.maxMatch := rfl
    have hmax := hc.maxMatch_eq
    obtain ⟨m, hwalk⟩ := @walk_visited data config p (matchLimit data config p)
      (by omega) (by omega) config.maxChainLength.toNat p {} stats le_rfl (by simp; omega) hstats
    have hstart : fetch (finderAt data config (p + 1)).prev (MatchFinder.slot config p)
        = .ok (latest (InBucket data config (bucketOf data config p)) p) :=
      link_eq h3 le_rfl (by have := config.windowSize_pos; omega)
    simp only [minus_of_le (show p ≤ data.length by omega), bind_ok, hstart, ← hlimit, hwalk]
      at hfind
    rw [steps, if_neg hroom, candidates]
    refine congrArg _ (Prod.ext rfl ?_)
    by_cases hshort : m.length.toNat < config.minMatch.toNat
    · rw [if_pos hshort] at hfind
      exact (Prod.ext_iff.mp (Except.ok.inj hfind)).2.symm
    · rw [if_neg hshort] at hfind
      exact (Prod.ext_iff.mp (Except.ok.inj hfind)).2.symm

theorem chooseMatch_steps (data : List UInt8) (hc : config.Valid) {n p : Nat} (hn : n ≤ p + 1)
    {stats : Stats} (hstats : stats.Word) :
    ∃ n', (finderAt data config n).chooseMatch p stats
        = .ok (chosen data config p, finderAt data config n',
            stats.count (roundSteps data config p)) ∧ n' ≤ p + 2 := by
  rw [MatchFinder.chooseMatch, insertUpTo_finderAt hc, bind_ok, Nat.max_eq_right hn,
    findLongest_steps data hc p hstats, bind_ok, chosen, roundSteps]
  simp only
  by_cases hlazy : LooksAhead data config p
  · have hguard : (longest data config p).length ≠ 0 ∧ config.lazyMatching = true ∧
        p + 1 < data.length := hlazy
    rw [if_pos hlazy, if_pos hguard]
    rw [insertUpTo_finderAt hc, bind_ok, Nat.max_eq_right (by omega),
      findLongest_steps data hc (p + 1) (word_count _ _), bind_ok, count_count]
    simp only
    refine ⟨p + 2, ?_, le_rfl⟩
    by_cases hnext : (longest data config p).length < (longest data config (p + 1)).length
    · rw [if_pos hnext, if_pos ⟨hlazy.1, hlazy.2.1, hlazy.2.2, hnext⟩]
      rfl
    · rw [if_neg hnext, if_neg fun h => hnext h.2.2.2]
      rfl
  · have hguard : ¬ ((longest data config p).length ≠ 0 ∧ config.lazyMatching = true ∧
        p + 1 < data.length) := hlazy
    rw [if_neg hlazy, if_neg hguard, if_neg fun h => hlazy ⟨h.1, h.2.1, h.2.2.1⟩, Nat.add_zero]
    exact ⟨p + 1, rfl, by omega⟩

theorem effort_of_lt {p : Nat} (h : p < data.length) :
    effort data config p
      = roundSteps data config p
        + effort data config (p + max 1 (chosen data config p).length.toNat) := by
  rw [effort, if_pos h]

/-- The main loop counts the steps of its rounds. -/
theorem tokenizeLoop_effort (hc : config.Valid) :
    ∀ (k n p : Nat) (tokens : List Token) (stats : Stats), data.length - p ≤ k → n ≤ p + 1 →
      stats.Word → ∃ tokens' stats', tokenizeLoop (finderAt data config n) p tokens stats
          = .ok (tokens', stats') ∧
        stats'.candidatesExamined = u64 (stats.candidatesExamined + effort data config p) := by
  intro k
  induction k with
  | zero =>
      intro n p tokens stats hk hn hstats
      refine ⟨tokens, stats, ?_, ?_⟩
      · rw [tokenizeLoop, if_neg (by omega)]
        rfl
      · rw [effort, if_neg (by omega), Nat.add_zero, u64_of_lt hstats]
  | succ k ih =>
      intro n p tokens stats hk hn hstats
      by_cases hp : p < data.length
      · obtain ⟨n', hchoose, hn'⟩ := chooseMatch_steps data hc hn hstats
        have hsum : ∀ rest, u64 ((stats.count (roundSteps data config p)).candidatesExamined + rest)
            = u64 (stats.candidatesExamined + (roundSteps data config p + rest)) := by
          intro rest
          simp only [Stats.count, u64, Nat.mod_add_mod, Nat.add_assoc]
        rw [tokenizeLoop, if_pos hp, hchoose, bind_ok, effort_of_lt hp]
        simp only
        by_cases h0 : (chosen data config p).length = 0
        · rw [if_pos h0, fetch_of_lt hp, bind_ok, h0, ← hsum]
          exact ih n' (p + 1) _ _ (by omega) hn' (word_count stats (roundSteps data config p))
        · have hlong := (isMatch_chosen hc h0).minMatch_le
          have hmin := hc.toNat_minMatch.1
          rw [if_neg h0, Nat.max_eq_right (by omega), ← hsum]
          exact ih n' (p + (chosen data config p).length.toNat) _ _ (by omega) (by omega)
            (word_count stats (roundSteps data config p))
      · refine ⟨tokens, stats, ?_, ?_⟩
        · rw [tokenizeLoop, if_neg hp]
          rfl
        · rw [effort, if_neg hp, Nat.add_zero, u64_of_lt hstats]

/-- A round makes one search, or two with lazy matching. -/
theorem roundSteps_le (data : List UInt8) (hc : config.Valid) (p : Nat) :
    roundSteps data config p
      ≤ (if config.lazyMatching then 2 else 1) * config.maxChainLength.toNat := by
  have hhere := (steps_le data hc p).1
  have hnext := (steps_le data hc (p + 1)).1
  unfold roundSteps
  by_cases hlazy : LooksAhead data config p
  · rw [if_pos hlazy, if_pos hlazy.2.1]
    omega
  · rw [if_neg hlazy]
    split
    case isTrue => omega
    case isFalse => omega

theorem effort_le (hc : config.Valid) (p : Nat) :
    effort data config p ≤ (if config.lazyMatching then 2 else 1)
      * config.maxChainLength.toNat * (parse data config p).length := by
  fun_induction effort data config p with
  | case1 p hlt ih =>
      have hround := roundSteps_le data hc p
      rw [parse_of_lt hlt, List.length_cons, Nat.mul_succ]
      omega
  | case2 p hge => exact Nat.zero_le _

end Effort

/-- **What a parse costs.**  The counter is the sum of the steps of the searches, as a 64-bit word;
a search takes `maxChainLength` steps at most and fewer than the window has positions, and a
token takes one search, or two with lazy matching. -/
theorem search_effort (data : List UInt8) {config : Config} (h : config.validate = .ok ()) :
    ∃ tokens stats, tokenize data config = .ok (tokens, stats) ∧
      stats.candidatesExamined = effort data config 0 % 2 ^ 64 ∧
      effort data config 0 ≤ (if config.lazyMatching then 2 else 1)
        * config.maxChainLength.toNat * tokens.length ∧
      ∀ p, steps data config p ≤ config.maxChainLength.toNat ∧
        steps data config p < 2 ^ config.windowBits.toNat := by
  have hc := Config.validate_eq_ok.mp h
  obtain ⟨examined, htokens⟩ := tokenize_eq data hc
  refine ⟨_, _, htokens, ?_, effort_le hc 0, steps_le data hc⟩
  rw [tokenize, h, bind_ok] at htokens
  by_cases hnil : data.length = 0
  · rw [if_pos hnil] at htokens
    refine (congrArg (fun r => r.2.candidatesExamined) (Except.ok.inj htokens)).symm.trans ?_
    rw [effort, if_neg (by omega)]
    rfl
  · rw [if_neg hnil, create_eq] at htokens
    obtain ⟨tokens', stats', hloop, hcount⟩ :=
      @tokenizeLoop_effort data config hc data.length 0 0 [] {} (by omega) (by omega)
        (Nat.two_pow_pos 64)
    rw [hloop] at htokens
    refine (congrArg (fun r => r.2.candidatesExamined) (Except.ok.inj htokens)).symm.trans ?_
    simp only [hcount, Nat.zero_add, u64]

theorem search_effort_nine :
    ∃ tokens stats, tokenize [7, 7, 7, 7, 7, 7, 7, 7, 9] {} = .ok (tokens, stats) ∧
      stats.candidatesExamined = effort [7, 7, 7, 7, 7, 7, 7, 7, 9] {} 0 % 2 ^ 64 ∧
      effort [7, 7, 7, 7, 7, 7, 7, 7, 9] {} 0 ≤ 2 * 128 * tokens.length ∧
      ∀ p, steps [7, 7, 7, 7, 7, 7, 7, 7, 9] {} p ≤ 128 ∧
        steps [7, 7, 7, 7, 7, 7, 7, 7, 9] {} p < 2 ^ 15 :=
  search_effort _ rfl

/-! ## Repetitive data -/

section Periodic
variable {data : List UInt8} {config : Config}

/-- A search ends at a match of full length. -/
theorem visited_le_of_full {p limit q : Nat} (hlimit : limit < 65536)
    (hfull : limit ≤ runAt data p q limit) {qs : List Nat} {k : Nat} (hq : q ∈ qs.take k)
    (best : Match) : visited data p limit best qs ≤ k := by
  induction qs generalizing k best with
  | nil =>
      rw [List.take_nil] at hq
      cases hq
  | cons q' qs ih =>
      obtain ⟨k, rfl⟩ : ∃ k', k = k' + 1 := by
        cases k with
        | zero =>
            rw [List.take_zero] at hq
            cases hq
        | succ k => exact ⟨k, rfl⟩
      rw [List.take_succ_cons] at hq
      rw [visited]
      rcases List.mem_cons.mp hq with rfl | hrest
      · have hreached : limit ≤ (improve data p limit best q).length.toNat := by
          have hsmall := (runAt_le_limit data p q limit).trans_lt hlimit
          unfold improve
          split
          case isTrue => rwa [toNat_ofNat_of_lt hsmall]
          case isFalse => omega
        rw [if_pos hreached]
        omega
      · have hle := ih hrest (improve data p limit best q')
        split
        case isTrue => omega
        case isFalse => omega

/-- With a period behind it, a search takes no more steps than the period is long. -/
theorem Reaches.steps_le {d : Nat} (h : Reaches data config d) (hc : config.Valid) {p : Nat}
    (hdp : d ≤ p) : steps data config p ≤ d := by
  have hmin := hc.toNat_minMatch
  have hmax := hc.maxMatch_eq
  unfold steps
  split
  case isTrue => exact Nat.zero_le _
  case isFalse hroom =>
    have h3 : p + kHashBytes ≤ data.length := by
      unfold kHashBytes
      omega
    have hfull := @commonAt_period data config d h.period p hdp
    have hmem : p - d ∈ (candidates data config p).take d := by
      rw [candidates_eq h3, hashedAlike, List.take_take, Nat.min_eq_left h.chain]
      exact mem_hashedAlike hc h.pos hdp h.window le_rfl (by omega)
    have hlimit : matchLimit data config p = min (data.length - p) config.maxMatch := rfl
    refine visited_le_of_full (by omega) ?_ hmem {}
    rw [← commonAt_eq hc, hfull]
    omega

theorem Reaches.effort_le {d : Nat} (h : Reaches data config d) (hc : config.Valid) (p : Nat) :
    effort data config p
      ≤ 2 * config.maxChainLength.toNat * (d - p) + 2 * d * (parse data config p).length := by
  fun_induction effort data config p with
  | case1 p hlt ih =>
      rw [parse_of_lt hlt, List.length_cons, Nat.mul_succ]
      rcases Nat.lt_or_ge p d with hpd | hdp
      · have hround := roundSteps_le data hc p
        have htwo : (if config.lazyMatching then 2 else 1) * config.maxChainLength.toNat
            ≤ 2 * config.maxChainLength.toNat := Nat.mul_le_mul_right _ (by split <;> omega)
        have hless : 2 * config.maxChainLength.toNat
            * (d - (p + max 1 (chosen data config p).length.toNat))
              + 2 * config.maxChainLength.toNat ≤ 2 * config.maxChainLength.toNat * (d - p) := by
          rw [← Nat.mul_succ]
          exact Nat.mul_le_mul_left _ (by omega)
        omega
      · have hhere := h.steps_le hc hdp
        have hnext : steps data config (p + 1) ≤ d := h.steps_le hc (Nat.le_succ_of_le hdp)
        have hround : roundSteps data config p ≤ 2 * d := by
          unfold roundSteps
          split
          case isTrue => omega
          case isFalse => omega
        have hzero : d - (p + max 1 (chosen data config p).length.toNat) = 0 := by omega
        rw [hzero, Nat.mul_zero] at ih
        omega
  | case2 p hge => exact Nat.zero_le _

end Periodic

/-- **Repetition does not cost chain steps.**  After one period a search ends within as many steps
as the period is long. -/
theorem periodic_effort {data : List UInt8} {config : Config} {d : Nat}
    (hvalid : config.validate = .ok ()) (h : Reaches data config d) :
    ∃ tokens stats, tokenize data config = .ok (tokens, stats) ∧
      stats.candidatesExamined ≤ 2 * config.maxChainLength.toNat * d
        + 2 * d * (d + (data.length - d) / (config.minMatch.toNat + 255)
          + config.minMatch.toNat) ∧
      ∀ p, d ≤ p → steps data config p ≤ d := by
  have hc := Config.validate_eq_ok.mp hvalid
  obtain ⟨tokens, stats, htokens, hcount, -⟩ := search_effort data hvalid
  refine ⟨tokens, stats, htokens, ?_, fun p hdp => h.steps_le hc hdp⟩
  have heffort := h.effort_le hc 0
  have hlength := h.length_parse_start hc (Nat.zero_le _)
  have hmul := Nat.mul_le_mul_left (2 * d) hlength
  rw [Nat.sub_zero] at heffort hmul
  rw [hcount]
  exact (Nat.mod_le _ _).trans (heffort.trans (Nat.add_le_add_left hmul _))

theorem periodic_effort_run :
    ∃ tokens stats, tokenize (List.replicate 2000 7) {} = .ok (tokens, stats) ∧
      stats.candidatesExamined ≤ 278 ∧
      ∀ p, 1 ≤ p → steps (List.replicate 2000 7) {} p ≤ 1 := by
  have hreaches : Reaches (List.replicate 2000 7) {} 1 := reaches_replicate (by decide) 2000 7
  obtain ⟨tokens, stats, htokens, hcount, hsteps⟩ := periodic_effort rfl hreaches
  rw [List.length_replicate] at hcount
  exact ⟨tokens, stats, htokens, hcount, hsteps⟩

end Compressly.LZ77

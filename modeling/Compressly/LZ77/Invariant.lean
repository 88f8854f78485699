/-
# `Compressly.LZ77.Invariant` — the hash chains at every search of a run

The tokenizer's run is a sequence of rounds from `loopStart` on (`Round`,
`Reached`).  Each round searches at its position and, with lazy matching, perhaps
at the next one; `Searched f p` says that `findLongest` is called on `f` at `p`.

The look-ahead inserts one position early, and no more: at the head of the loop
at most `position + 1` positions are in the tables (`reached_finderAt`), so a
search at `p` finds exactly `0 .. p` there (`searched_finderAt`).  The chain of
`p` then enumerates its bucket within the window, through links that are still
what their insertion wrote (`chain_invariant`).
-/
import Compressly.LZ77.Tokenize

namespace Compressly.LZ77

open Chain Replay

/-! ## The run of the tokenizer -/

section Run
variable {data : List UInt8} {config : Config}

/-- The variables of the main loop, at its head. -/
structure LoopState (data : List UInt8) (config : Config) where
  finder : MatchFinder data config
  position : Nat
  tokens : List Token
  stats : Stats

def loopStart (data : List UInt8) (config : Config) : LoopState data config where
  finder := MatchFinder.create data config
  position := 0
  tokens := []
  stats := {}

/-- A round of the loop emits a literal or a match. -/
inductive Round : LoopState data config → LoopState data config → Prop
  | literal {s : LoopState data config} {found : Match} {f : MatchFinder data config}
      {stats : Stats} {literal : UInt8} :
      s.position < data.length →
      s.finder.chooseMatch s.position s.stats = .ok (found, f, stats) →
      found.length = 0 →
      fetch data s.position = .ok literal →
      Round s
        { finder := f
          position := s.position + 1
          tokens := s.tokens ++ [{ literal := literal }]
          stats := { stats with literals := stats.literals + 1 } }
  | copy {s : LoopState data config} {found : Match} {f : MatchFinder data config}
      {stats : Stats} :
      s.position < data.length →
      s.finder.chooseMatch s.position s.stats = .ok (found, f, stats) →
      found.length ≠ 0 →
      Round s
        { finder := f
          position := s.position + found.length.toNat
          tokens := s.tokens ++ [{ distance := found.distance, length := found.length }]
          stats :=
            { stats with
              matchCount := stats.matchCount + 1
              matchedBytes := stats.matchedBytes + found.length.toNat } }

/-- The states at the head of the loop in a run of `tokenize`. -/
def Reached (s : LoopState data config) : Prop :=
  config.validate = .ok () ∧ Relation.ReflTransGen Round (loopStart data config) s

/-- In a run of `tokenize`, `findLongest` is called on `f` at `p`. -/
inductive Searched : MatchFinder data config → Nat → Prop
  | first {s : LoopState data config} {f : MatchFinder data config} :
      Reached s →
      s.position < data.length →
      s.finder.insertUpTo s.position = .ok f →
      Searched f s.position
  | ahead {s : LoopState data config} {f g : MatchFinder data config} {found : Match}
      {stats : Stats} :
      Reached s →
      s.position < data.length →
      s.finder.insertUpTo s.position = .ok f →
      f.findLongest s.position s.stats = .ok (found, stats) →
      found.length ≠ 0 → config.lazyMatching → s.position + 1 < data.length →
      f.insertUpTo (s.position + 1) = .ok g →
      Searched g (s.position + 1)

/-- A round is what `tokenizeLoop` does before it calls itself. -/
theorem tokenizeLoop_round {s s' : LoopState data config} (h : Round s s') :
    tokenizeLoop s.finder s.position s.tokens s.stats
      = tokenizeLoop s'.finder s'.position s'.tokens s'.stats := by
  rw [tokenizeLoop]
  cases h with
  | literal hmore hchoose hnone hliteral =>
      rw [if_pos hmore, hchoose, bind_ok]
      simp only
      rw [if_pos hnone, hliteral, bind_ok]
  | copy hmore hchoose hsome =>
      rw [if_pos hmore, hchoose, bind_ok]
      simp only
      rw [if_neg hsome]

/-- The states reached are those of the run: from each of them on, `tokenize` goes on to
what it returns. -/
theorem tokenize_of_reached {s : LoopState data config} (hdata : data.length ≠ 0)
    (h : Reached s) :
    tokenize data config = tokenizeLoop s.finder s.position s.tokens s.stats := by
  obtain ⟨hvalid, hrun⟩ := h
  have hstart : tokenize data config
      = tokenizeLoop (MatchFinder.create data config) 0 [] {} := by
    rw [tokenize, hvalid, bind_ok, if_neg hdata]
  rw [hstart]
  induction hrun with
  | refl => rfl
  | tail _ hround ih => rw [ih, tokenizeLoop_round hround]

/-! ## The tables of the run -/

/-- What a round keeps: the tables hold the positions below some `n ≤ position + 1`. -/
theorem round_finderAt (hc : config.Valid) {s s' : LoopState data config} (h : Round s s')
    {n : Nat} (hf : s.finder = finderAt data config n) (hn : n ≤ s.position + 1) :
    ∃ n', s'.finder = finderAt data config n' ∧ n' ≤ s'.position + 1 := by
  obtain ⟨n', k, hchosen, hn'⟩ := chooseMatch_eq data hc hn s.stats
  cases h with
  | literal _ hchoose _ _ =>
      rw [hf, hchosen] at hchoose
      cases hchoose
      exact ⟨n', rfl, hn'⟩
  | copy _ hchoose hsome =>
      rw [hf, hchosen] at hchoose
      cases hchoose
      -- at most one position has been inserted early, and the match covers it
      have hpos : 0 < (chosen data config s.position).length.toNat :=
        Nat.pos_of_ne_zero fun h0 => hsome (UInt16.toNat_inj.mp h0)
      exact ⟨n', rfl, by simp only; omega⟩

theorem reached_finderAt {s : LoopState data config} (h : Reached s) :
    ∃ n, s.finder = finderAt data config n ∧ n ≤ s.position + 1 := by
  obtain ⟨hvalid, hrun⟩ := h
  have hc := Config.validate_eq_ok.mp hvalid
  induction hrun with
  | refl => exact ⟨0, create_eq, Nat.zero_le _⟩
  | tail _ hround ih =>
      obtain ⟨n, hf, hn⟩ := ih
      exact round_finderAt hc hround hf hn

/-- A search at `p` finds the tables of the positions up to `p`. -/
theorem searched_finderAt {f : MatchFinder data config} {p : Nat} (h : Searched f p) :
    config.Valid ∧ f = finderAt data config (p + 1) := by
  have hfirst : ∀ {s : LoopState data config} {f : MatchFinder data config}, Reached s →
      s.finder.insertUpTo s.position = .ok f →
      config.Valid ∧ f = finderAt data config (s.position + 1) := by
    intro s f hreached hinsert
    have hc := Config.validate_eq_ok.mp hreached.1
    obtain ⟨n, hf, hn⟩ := reached_finderAt hreached
    rw [hf, insertUpTo_finderAt hc, Nat.max_eq_right hn] at hinsert
    cases hinsert
    exact ⟨hc, rfl⟩
  cases h with
  | first hreached _ hinsert => exact hfirst hreached hinsert
  | ahead hreached _ hinsert _ _ _ _ hahead =>
      obtain ⟨hc, hf⟩ := hfirst hreached hinsert
      rw [hf, insertUpTo_finderAt hc, Nat.max_eq_right (by omega)] at hahead
      cases hahead
      exact ⟨hc, rfl⟩

end Run

/-! ## The chain of a position -/

section Chains
variable {data : List UInt8} {config : Config}

/-- The positions inserted one after the other. -/
def insertAll (f : MatchFinder data config) (positions : List Nat) :
    Result (MatchFinder data config) :=
  positions.foldlM (fun f q => f.insertOne q) f

/-- Following `prev_` from `first` on visits `qs`, and then reaches `kNone` or a position at
distance `windowSize` or more from `p`. -/
def MatchFinder.Visits (f : MatchFinder data config) (p : Nat) :
    Option Nat → List Nat → Prop :=
  Follows (fun q next => fetch f.prev (MatchFinder.slot config q) = .ok next)
    fun q => p - q < config.windowSize

/-- The link of `q` is the one its insertion wrote, and no position up to `p` has been inserted
into its slot since. -/
structure LinkKept (f : MatchFinder data config) (p q : Nat) : Prop where
  slot : ∀ r, q < r → r ≤ p → MatchFinder.slot config r ≠ MatchFinder.slot config q
  link : ∃ before hash next, insertAll (MatchFinder.create data config) (List.range q) = .ok before ∧
    before.hashAt q = .ok hash ∧ fetch before.head hash = .ok next ∧
    fetch f.prev (MatchFinder.slot config q) = .ok next

/-- What a search at `p` relies on. -/
structure ChainInvariant (f : MatchFinder data config) (p : Nat) : Prop where
  /-- `0 .. p` have been inserted, each once and in this order, and no later position. -/
  inserted : f.inserted = p + 1 ∧
    insertAll (MatchFinder.create data config) (List.range (p + 1)) = .ok { f with inserted := 0 }
  /-- From the slot of `p` on, the links visit its bucket within the window, newest first. -/
  chain : ∃ first qs, fetch f.prev (MatchFinder.slot config p) = .ok first ∧
    f.Visits p first qs ∧ qs.Pairwise (· > ·) ∧
    (∀ q, q ∈ qs ↔ q < p ∧ p - q < config.windowSize ∧ f.hashAt q = f.hashAt p) ∧
    ∀ q ∈ p :: qs, LinkKept f p q
  /-- Inserting again changes nothing. -/
  again : ∀ q ≤ p, f.insertUpTo q = .ok f

/-- One insertion after the other fills the tables. -/
theorem insertAll_range (hc : config.Valid) (n : Nat) :
    insertAll (MatchFinder.create data config) (List.range n)
      = .ok { finderAt data config n with inserted := 0 } := by
  induction n with
  | zero =>
      rw [create_eq]
      rfl
  | succ n ih =>
      rw [insertAll] at ih
      rw [insertAll, List.range_succ, List.foldlM_append, ih, bind_ok, List.foldlM_cons,
        insertOne_finderAt hc]
      rfl

/-- Within the window every link is kept. -/
theorem linkKept_finderAt (hc : config.Valid) {p q : Nat} (hq : q + kHashBytes ≤ data.length)
    (hle : q ≤ p) (hwin : p < q + config.windowSize) :
    LinkKept (finderAt data config (p + 1)) p q where
  slot r hqr hrp := slot_ne hqr (by omega)
  link := by
    have hb := bucketOf_lt data hc q
    refine ⟨_, _, link data config q, insertAll_range hc q, hashAt_eq _ hq, ?_,
      link_eq hq hle hwin⟩
    rw [fetch_of_lt (by simpa [finderAt] using hb)]
    simp [finderAt, headTable, link]

/-- The chain of `p` is its bucket within the window. -/
theorem visits_finderAt (p : Nat) :
    (finderAt data config (p + 1)).Visits p (link data config p)
      (recent (InBucket data config (bucketOf data config p)) (p + 1 - config.windowSize) p) := by
  have hpos := config.windowSize_pos
  refine follows_recent p (fun q hq => ?_) fun q hq hlo hbucket => ?_
  · omega
  · rw [link_eq hbucket.1 (Nat.le_of_lt hq) (by omega), link, hbucket.2]

/-- The members of the chain, by the hash the source computes. -/
theorem mem_chain {f : MatchFinder data config} {p q : Nat} (hp : p + kHashBytes ≤ data.length) :
    q ∈ recent (InBucket data config (bucketOf data config p)) (p + 1 - config.windowSize) p ↔
      q < p ∧ p - q < config.windowSize ∧ f.hashAt q = f.hashAt p := by
  have hpos := config.windowSize_pos
  rw [mem_recent]
  constructor
  · rintro ⟨hlo, hqp, hq, hbucket⟩
    exact ⟨hqp, by omega, by rw [hashAt_eq f hq, hashAt_eq f hp, hbucket]⟩
  · rintro ⟨hqp, hwin, hhash⟩
    have hq : q + kHashBytes ≤ data.length := by omega
    rw [hashAt_eq f hq, hashAt_eq f hp, Except.ok.injEq] at hhash
    exact ⟨by omega, hqp, hq, hhash⟩

/-- What a search at `p` examines: the chain, as far as the budget goes. -/
theorem candidates_of_visits {f : MatchFinder data config} {p : Nat} (h : Searched f p)
    (hp : p + kHashBytes ≤ data.length) {first : Option Nat} {qs : List Nat}
    (hfirst : fetch f.prev (MatchFinder.slot config p) = .ok first) (hqs : f.Visits p first qs) :
    candidates data config p = qs.take config.maxChainLength.toNat := by
  obtain ⟨-, rfl⟩ := searched_finderAt h
  rw [link_eq hp le_rfl (by have := config.windowSize_pos; omega), Except.ok.injEq] at hfirst
  subst hfirst
  have hunique := Follows.unique (fun q next next' hnext hnext' => ?_) (visits_finderAt p) hqs
  · rw [candidates, hunique]
  · rw [hnext, Except.ok.injEq] at hnext'
    exact hnext'

/-- **The representation invariant of the hash chains**, at every search the tokenizer makes. -/
theorem chain_invariant {f : MatchFinder data config} {p : Nat} (h : Searched f p)
    (hroom : p + config.minMatch.toNat ≤ data.length) : ChainInvariant f p := by
  obtain ⟨hc, rfl⟩ := searched_finderAt h
  have hpos := config.windowSize_pos
  have hp : p + kHashBytes ≤ data.length :=
    (Nat.add_le_add_left hc.toNat_minMatch.1 p).trans hroom
  constructor
  case inserted => exact ⟨rfl, insertAll_range hc (p + 1)⟩
  case chain =>
    refine ⟨link data config p, _, link_eq hp le_rfl (by omega), visits_finderAt p,
      pairwise_recent _ _, fun q => mem_chain hp, fun q hq => ?_⟩
    rcases List.mem_cons.mp hq with rfl | hmem
    · exact linkKept_finderAt hc hp le_rfl (by omega)
    · obtain ⟨hlo, hqp, hbucket⟩ := mem_recent.mp hmem
      exact linkKept_finderAt hc hbucket.1 (Nat.le_of_lt hqp) (by omega)
  case again =>
    intro q hq
    rw [insertUpTo_finderAt hc, Nat.max_eq_left (by omega)]

/-- The second search of a run, over a chain of one link. -/
theorem chain_invariant_run :
    ChainInvariant (finderAt [7, 7, 7, 7] {} 2) 1 := by
  have hc : ({} : Config).Valid := by decide
  have hnone : (chosen [7, 7, 7, 7] {} 0).length = 0 := by decide +kernel
  obtain ⟨n, k, hchoose, hn⟩ := chooseMatch_eq [7, 7, 7, 7] hc (Nat.zero_le (0 + 1)) {}
  rw [← create_eq] at hchoose
  have hbyte : fetch [7, 7, 7, 7] 0 = .ok (7 : UInt8) := rfl
  have hround := Round.literal (s := loopStart [7, 7, 7, 7] {}) (by decide) hchoose hnone hbyte
  have hinsert : (finderAt [7, 7, 7, 7] {} n).insertUpTo 1
      = .ok (finderAt [7, 7, 7, 7] {} (max n 2)) := insertUpTo_finderAt hc n 1
  rw [Nat.max_eq_right hn] at hinsert
  exact chain_invariant (Searched.first ⟨rfl, .single hround⟩ (by decide : 0 + 1 < 4) hinsert)
    (by decide)

end Chains

end Compressly.LZ77

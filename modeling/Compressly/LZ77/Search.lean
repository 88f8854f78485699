/-
# `Compressly.LZ77.Search` — what a search returns

`longest data config p` is the search without its data structures: among the
positions before `p` in the window that hash as `p` does, newest first and no
more than `maxChainLength` of them, the one with the longest run in common with
`p`.  `findLongest_eq` says that the match finder returns exactly this.

Three shortcuts of the source are what the proof is about:

    the chain          enumerates the bucket, newest first       (`recent_eq`)
    quick reject       a candidate that differs at the byte past the best run
                       cannot improve on it                      (`examine_eq`)
    early exit         nothing improves on a run at the limit    (`foldl_improve_full`)
-/
import Compressly.LZ77.Finder
import Compressly.Lib.Replay

namespace Compressly.LZ77

open Chain Replay

section Run
variable (data : List UInt8)

/-- The common run of `data` from `a` and from `b`, up to `limit`. -/
def runAt (a b limit : Nat) : Nat := commonRun ((data.drop a).take limit) (data.drop b)

variable {data}

theorem le_runAt {a b limit n : Nat} (hba : b ≤ a) (ha : a + limit ≤ data.length) :
    n ≤ runAt data a b limit ↔ n ≤ limit ∧ ∀ k < n, data[a + k]? = data[b + k]? := by
  have hleft : ((data.drop a).take limit).length = limit := by simp; omega
  have hright : limit ≤ (data.drop b).length := by simp; omega
  rw [runAt, le_commonRun, hleft]
  constructor
  · rintro ⟨hn, -, hrun⟩
    refine ⟨hn, fun k hk => ?_⟩
    have := hrun k hk
    rwa [List.getElem?_take_of_lt (by omega), List.getElem?_drop, List.getElem?_drop] at this
  · rintro ⟨hn, hrun⟩
    refine ⟨hn, by omega, fun k hk => ?_⟩
    rw [List.getElem?_take_of_lt (by omega), List.getElem?_drop, List.getElem?_drop]
    exact hrun k hk

theorem runAt_le {a b limit : Nat} (hba : b ≤ a) (ha : a + limit ≤ data.length) :
    runAt data a b limit ≤ limit :=
  ((le_runAt hba ha).mp le_rfl).1

theorem runAt_agree {a b limit k : Nat} (hba : b ≤ a) (ha : a + limit ≤ data.length)
    (hk : k < runAt data a b limit) : data[a + k]? = data[b + k]? :=
  ((le_runAt hba ha).mp le_rfl).2 k hk

/-- The comparison loop, once the first `n` bytes are known to agree. -/
theorem matchLength_eq {a b limit n : Nat} (hba : b ≤ a) (ha : a + limit ≤ data.length)
    (hn : n ≤ runAt data a b limit) :
    matchLength data a b limit n = .ok (runAt data a b limit) := by
  have hle := runAt_le hba ha
  fun_induction matchLength data a b limit n with
  | case1 n hlt ih =>
      rw [fetch_of_lt (by omega), bind_ok, fetch_of_lt (by omega), bind_ok]
      split
      case isTrue heq =>
        refine ih ((le_runAt hba ha).mpr ⟨by omega, fun k hk => ?_⟩)
        rcases Nat.lt_succ_iff_lt_or_eq.mp hk with hk | rfl
        · exact runAt_agree hba ha (by omega)
        · rw [List.getElem?_eq_getElem (by omega), List.getElem?_eq_getElem (by omega), heq]
      case isFalse hne =>
        have hnot : ¬ n < runAt data a b limit := fun hlt' => hne (by
          have hagree := runAt_agree hba ha hlt'
          rwa [List.getElem?_eq_getElem (by omega), List.getElem?_eq_getElem (by omega),
            Option.some.injEq] at hagree)
        rw [pure_eq_ok, Nat.le_antisymm (Nat.le_of_not_lt hnot) hn]
  | case2 n hge => rw [pure_eq_ok, Nat.le_antisymm (by omega) hn]

end Run

section Search
variable (data : List UInt8) (config : Config)

/-- The better of the best match so far and the one at `q`, ties going to the former. -/
def improve (position limit : Nat) (best : Match) (q : Nat) : Match :=
  if best.length.toNat < runAt data position q limit then
    { length := UInt16.ofNat (runAt data position q limit)
      distance := UInt16.ofNat (position - q) }
  else best

/-- The candidates examined at `p`: the window's members of its bucket, newest first. -/
def candidates (p : Nat) : List Nat :=
  (recent (InBucket data config (bucketOf data config p)) (p + 1 - config.windowSize) p).take
    config.maxChainLength.toNat

/-- How long a match at `p` may become. -/
def matchLimit (p : Nat) : Nat := min (data.length - p) config.maxMatch

/-- The longest match at `p`, the nearest on ties; length 0 if it is too short to use. -/
def longest (p : Nat) : Match :=
  if data.length < p + config.minMatch.toNat then {}
  else
    let best := (candidates data config p).foldl (improve data p (matchLimit data config p)) {}
    if best.length.toNat < config.minMatch.toNat then {} else best

/-- The match taken at `p`: none if lazy matching finds a longer one at `p + 1`. -/
def chosen (p : Nat) : Match :=
  let found := longest data config p
  if found.length ≠ 0 ∧ config.lazyMatching ∧ p + 1 < data.length ∧
      found.length < (longest data config (p + 1)).length then {}
  else found

variable {data config}

theorem toNat_ofNat_of_lt {n : Nat} (h : n < 65536) : (UInt16.ofNat n).toNat = n := by
  rw [UInt16.toNat_ofNat']
  exact Nat.mod_eq_of_lt h

/-- Whatever holds of the best match so far and of every candidate holds at the end. -/
theorem foldl_improve (data : List UInt8) (position limit : Nat) {P : Match → Prop}
    (qs : List Nat) (best : Match) (hbest : P best)
    (hq : ∀ q ∈ qs, 0 < runAt data position q limit →
      P { length := UInt16.ofNat (runAt data position q limit)
          distance := UInt16.ofNat (position - q) }) :
    P (qs.foldl (improve data position limit) best) := by
  induction qs generalizing best with
  | nil => exact hbest
  | cons q qs ih =>
      refine ih _ ?_ fun q' h' => hq q' (List.mem_cons_of_mem _ h')
      unfold improve
      split
      case isTrue hlt => exact hq q List.mem_cons_self (by omega)
      case isFalse => exact hbest

/-- Nothing improves on a match at the limit. -/
theorem foldl_improve_full {p limit : Nat} (hp : p + limit ≤ data.length) {qs : List Nat}
    (hqs : ∀ q ∈ qs, q ≤ p) {best : Match} (hbest : limit ≤ best.length.toNat) :
    qs.foldl (improve data p limit) best = best := by
  induction qs with
  | nil => rfl
  | cons q qs ih =>
      have hle := runAt_le (hqs q List.mem_cons_self) hp
      rw [List.foldl_cons, improve, if_neg (by omega)]
      exact ih fun q' h' => hqs q' (List.mem_cons_of_mem _ h')

/-- The quick reject and the comparison together: the run if it is longer than the
best one, and otherwise something that is not. -/
theorem examine_eq {f : MatchFinder data config} {p q limit : Nat} {best : Match} (hqp : q ≤ p)
    (hp : p + limit ≤ data.length) (hbest : best.length.toNat < limit) :
    ∃ n, f.examine p q limit best = .ok n ∧
      (best.length.toNat < runAt data p q limit → n = runAt data p q limit) ∧
      (runAt data p q limit ≤ best.length.toNat → n ≤ best.length.toNat) := by
  have hmatch := matchLength_eq hqp hp (Nat.zero_le _)
  rw [MatchFinder.examine]
  split
  case isTrue h0 =>
    exact ⟨_, hmatch, fun _ => rfl, fun h => h⟩
  case isFalse h0 =>
    have hq' : q + best.length.toNat < data.length := by omega
    have hp' : p + best.length.toNat < data.length := by omega
    rw [fetch_of_lt hq', bind_ok, fetch_of_lt hp', bind_ok]
    by_cases heq : data[q + best.length.toNat] = data[p + best.length.toNat]
    · rw [if_pos heq]
      exact ⟨_, hmatch, fun _ => rfl, fun h => h⟩
    · rw [if_neg heq]
      refine ⟨0, rfl, fun hlt => ?_, fun _ => Nat.zero_le _⟩
      have hagree := runAt_agree hqp hp hlt
      rw [List.getElem?_eq_getElem hp', List.getElem?_eq_getElem hq', Option.some.injEq] at hagree
      exact absurd hagree.symm heq

/-- One candidate in the window: the best match is improved, and the walk goes on unless
nothing could improve on it any more. -/
theorem walk_visit {f : MatchFinder data config} {p q limit chain : Nat} {best : Match}
    {next : Option Nat} (stats : Stats) (hqp : q ≤ p) (hwin : p - q < config.windowSize)
    (hp : p + limit ≤ data.length) (hlimit : limit < 65536) (hbest : best.length.toNat < limit)
    (hlink : fetch f.prev (MatchFinder.slot config q) = .ok next) :
    f.walk p limit (chain + 1) (some q) best stats
      = if limit ≤ (improve data p limit best q).length.toNat then
          .ok (improve data p limit best q,
            { stats with candidatesExamined := u64 (stats.candidatesExamined + 1) })
        else f.walk p limit chain next (improve data p limit best q)
          { stats with candidatesExamined := u64 (stats.candidatesExamined + 1) } := by
  obtain ⟨length, hlength, hlong, hshort⟩ := examine_eq (f := f) hqp hp hbest
  have hrun := runAt_le hqp hp
  simp only [MatchFinder.walk, minus_of_le hqp, bind_ok, if_neg (Nat.not_le.mpr hwin), hlength]
  by_cases hbetter : best.length.toNat < runAt data p q limit
  · have hnew : (UInt16.ofNat (runAt data p q limit)).toNat = runAt data p q limit :=
      toNat_ofNat_of_lt (by omega)
    rw [hlong hbetter, improve, if_pos hbetter, if_pos hbetter]
    simp only [hnew, hlink, bind_ok]
    rfl
  · have hle := hshort (Nat.le_of_not_lt hbetter)
    rw [improve, if_neg hbetter, if_neg (Nat.not_lt.mpr hle), if_neg (Nat.not_le.mpr hbest), hlink,
      bind_ok]

/-- The walk along a chain folds `improve` over the members it visits. -/
theorem walk_eq (config : Config) {p limit : Nat} (hp : p + limit ≤ data.length)
    (hlimit : limit < 65536) :
    ∀ (chain c : Nat) (best : Match) (stats : Stats), c ≤ p → best.length.toNat < limit →
      ∃ n, (finderAt data config (p + 1)).walk p limit chain
          (latest (InBucket data config (bucketOf data config p)) c) best stats
        = .ok (((recent (InBucket data config (bucketOf data config p))
              (p + 1 - config.windowSize) c).take chain).foldl (improve data p limit) best,
            { stats with candidatesExamined := n }) := by
  intro chain
  induction chain with
  | zero =>
      intro c best stats _ _
      refine ⟨stats.candidatesExamined, ?_⟩
      cases latest (InBucket data config (bucketOf data config p)) c with
      | none => rfl
      | some q => rfl
  | succ chain ih =>
      intro c best stats hc hbest
      rw [recent_eq]
      cases hlatest : latest (InBucket data config (bucketOf data config p)) c with
      | none => exact ⟨stats.candidatesExamined, rfl⟩
      | some q =>
          have hqc := latest_lt hlatest
          obtain ⟨hq3, hbucket⟩ := of_latest hlatest
          have hqp : q ≤ p := by omega
          by_cases hwin : p - q < config.windowSize
          · have hlink : fetch (finderAt data config (p + 1)).prev (MatchFinder.slot config q)
                = .ok (latest (InBucket data config (bucketOf data config p)) q) := by
              rw [link_eq hq3 hqp (by omega), link, hbucket]
            rw [walk_visit stats hqp hwin hp hlimit hbest hlink]
            simp only [if_pos (show p + 1 - config.windowSize ≤ q by omega)]
            rw [List.take_succ_cons, List.foldl_cons]
            by_cases hfull : limit ≤ (improve data p limit best q).length.toNat
            · -- the limit is reached: the remaining candidates change nothing
              rw [if_pos hfull, foldl_improve_full hp _ hfull]
              · exact ⟨_, rfl⟩
              · intro q' hq'
                have hq'q := (mem_recent.mp (List.mem_of_mem_take hq')).2.1
                omega
            · rw [if_neg hfull]
              exact ih q _ _ hqp (Nat.lt_of_not_le hfull)
          · simp only [MatchFinder.walk, minus_of_le hqp, bind_ok]
            rw [if_pos (Nat.le_of_not_lt hwin), if_neg (by omega)]
            exact ⟨stats.candidatesExamined, rfl⟩

/-- The match finder returns the match the specification names. -/
theorem findLongest_eq (data : List UInt8) (hc : config.Valid) (p : Nat) (stats : Stats) :
    ∃ n, (finderAt data config (p + 1)).findLongest p stats
      = .ok (longest data config p, { stats with candidatesExamined := n }) := by
  have hmin := hc.toNat_minMatch
  rw [MatchFinder.findLongest, longest]
  split
  case isTrue => exact ⟨stats.candidatesExamined, rfl⟩
  case isFalse hroom =>
    have h3 : p + kHashBytes ≤ data.length := by
      unfold kHashBytes
      omega
    have hlimit : matchLimit data config p = min (data.length - p) config.maxMatch := rfl
    have hmax := hc.maxMatch_eq
    obtain ⟨n, hwalk⟩ := walk_eq config (by omega : p + matchLimit data config p ≤ data.length)
      (by omega) config.maxChainLength.toNat p {} stats le_rfl (by simp; omega)
    have hstart : fetch (finderAt data config (p + 1)).prev (MatchFinder.slot config p)
        = .ok (latest (InBucket data config (bucketOf data config p)) p) :=
      link_eq h3 le_rfl (by have := config.windowSize_pos; omega)
    refine ⟨n, ?_⟩
    simp only [minus_of_le (show p ≤ data.length by omega), bind_ok, hstart, ← hlimit, hwalk]
    rw [candidates]
    split <;> rfl

/-! ## Every match is one -/

/-- What is promised of a match at `p`. -/
structure IsMatch (data : List UInt8) (config : Config) (p : Nat) (m : Match) : Prop where
  minMatch_le : config.minMatch.toNat ≤ m.length.toNat
  le_maxMatch : m.length.toNat ≤ config.minMatch.toNat + 255
  distance_lt : m.distance.toNat < config.windowSize
  fits : Fits data p (.copy m.distance.toNat m.length.toNat)

theorem isMatch_longest (hc : config.Valid) {p : Nat}
    (h : (longest data config p).length ≠ 0) :
    IsMatch data config p (longest data config p) := by
  have hmin := hc.toNat_minMatch
  have hmax := hc.maxMatch_eq
  have hwindow := hc.windowSize_le
  rw [longest] at h ⊢
  by_cases hroom : data.length < p + config.minMatch.toNat
  · rw [if_pos hroom] at h
    exact absurd rfl h
  · rw [if_neg hroom] at h ⊢
    simp only at h ⊢
    by_cases hshort : ((candidates data config p).foldl
        (improve data p (matchLimit data config p)) {}).length.toNat < config.minMatch.toNat
    · rw [if_pos hshort] at h
      exact absurd rfl h
    · rw [if_neg hshort]
      have hlimit : matchLimit data config p = min (data.length - p) config.maxMatch := rfl
      have hp : p + matchLimit data config p ≤ data.length := by omega
      -- the best match is no match yet, or it stems from a candidate
      have hbest := foldl_improve data p (matchLimit data config p) (candidates data config p) {}
        (P := fun m => m.length = 0 ∨
          m.length.toNat ≤ config.minMatch.toNat + 255 ∧ m.distance.toNat < config.windowSize ∧
            Fits data p (.copy m.distance.toNat m.length.toNat))
        (Or.inl rfl) fun q hq hpos => Or.inr (by
        obtain ⟨hlo, hqp, -⟩ := mem_recent.mp (List.mem_of_mem_take hq)
        have hle := runAt_le (Nat.le_of_lt hqp) hp
        rw [toNat_ofNat_of_lt (by omega), toNat_ofNat_of_lt (by omega)]
        refine ⟨by omega, by omega, by omega, by omega, hpos, by omega, fun k hk => ?_⟩
        rw [Nat.sub_sub_self (Nat.le_of_lt hqp)]
        exact (runAt_agree (Nat.le_of_lt hqp) hp hk).symm)
      rcases hbest with h0 | ⟨hle, hdist, hfits⟩
      · rw [h0] at hshort
        exact absurd (show (0 : UInt16).toNat < config.minMatch.toNat by simp; omega) hshort
      · exact { minMatch_le := Nat.le_of_not_lt hshort, le_maxMatch := hle, distance_lt := hdist,
                fits := hfits }

theorem isMatch_chosen (hc : config.Valid) {p : Nat} (h : (chosen data config p).length ≠ 0) :
    IsMatch data config p (chosen data config p) := by
  rw [chosen] at h ⊢
  split at h
  case isTrue => exact absurd rfl h
  case isFalse hkeep =>
    rw [if_neg hkeep]
    exact isMatch_longest hc h

/-- One round's choice; the look-ahead inserts at most one position beyond `p`. -/
theorem chooseMatch_eq (data : List UInt8) (hc : config.Valid) {n p : Nat} (hn : n ≤ p + 1)
    (stats : Stats) :
    ∃ n' k, (finderAt data config n).chooseMatch p stats
        = .ok (chosen data config p, finderAt data config n',
            { stats with candidatesExamined := k }) ∧ n' ≤ p + 2 := by
  obtain ⟨k, hfind⟩ := findLongest_eq data hc p stats
  rw [MatchFinder.chooseMatch, insertUpTo_finderAt hc, bind_ok, Nat.max_eq_right hn, hfind, bind_ok,
    chosen]
  simp only
  split
  case isTrue hlazy =>
    obtain ⟨k', hfind'⟩ := findLongest_eq data hc (p + 1)
      { stats with candidatesExamined := k }
    rw [insertUpTo_finderAt hc, bind_ok, Nat.max_eq_right (by omega), hfind', bind_ok]
    simp only
    refine ⟨p + 2, k', ?_, le_rfl⟩
    by_cases hnext : (longest data config p).length < (longest data config (p + 1)).length
    · rw [if_pos hnext, if_pos ⟨hlazy.1, hlazy.2.1, hlazy.2.2, hnext⟩]
      rfl
    · rw [if_neg hnext, if_neg fun h => hnext h.2.2.2]
      rfl
  case isFalse hgreedy =>
    rw [if_neg fun h => hgreedy ⟨h.1, h.2.1, h.2.2.1⟩]
    exact ⟨p + 1, k, rfl, by omega⟩

end Search

end Compressly.LZ77

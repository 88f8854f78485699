/-
# `Compressly.LZ77.Repeats` — repetition within reach is found

A search looks at the newest `maxChainLength` positions that hash alike, so no
repeat that is at most that far back is missed (`search_repeat`).  Data with a
period in reach then takes one match after the other of full length: the number
of tokens grows by one for `minMatch + 255` bytes (`periodic_tokens`).
-/
import Compressly.LZ77.Reference

namespace Compressly.LZ77

open Chain Replay

/-- A member at most `k` below the top is among the first `k`. -/
theorem mem_take_newest {P : Nat → Bool} {p q k : Nat} (hqp : q < p) (hP : P q = true)
    (hk : p - q ≤ k) : q ∈ ((List.range p).reverse.filter P).take k := by
  induction p generalizing k with
  | zero => cases hqp
  | succ p ih =>
      rw [List.range_succ, List.reverse_append, List.reverse_singleton, List.singleton_append]
      rcases Nat.lt_succ_iff_lt_or_eq.mp hqp with hlt | rfl
      · obtain ⟨k, rfl⟩ : ∃ k', k = k' + 1 := ⟨k - 1, by omega⟩
        by_cases hp : P p = true
        · rw [List.filter_cons_of_pos hp, List.take_succ_cons]
          exact List.mem_cons_of_mem _ (ih hlt (by omega))
        · rw [List.filter_cons_of_neg hp]
          exact ih hlt (by omega)
      · obtain ⟨k, rfl⟩ : ∃ k', k = k' + 1 := ⟨k - 1, by omega⟩
        rw [List.filter_cons_of_pos hP, List.take_succ_cons]
        exact List.mem_cons_self

section Repeats
variable {data : List UInt8} {config : Config}

/-- A position that repeats is among the newest that hash alike. -/
theorem mem_hashedAlike (hc : config.Valid) {p d k : Nat} (hd : 0 < d) (hdp : d ≤ p)
    (hwindow : d < 2 ^ config.windowBits.toNat) (hdk : d ≤ k)
    (hrun : config.minMatch.toNat ≤ commonAt data config p (p - d)) :
    p - d ∈ ((inWindow config p).filter fun q =>
      bucketOf data config q = bucketOf data config p).take k := by
  rw [inWindow, List.filter_filter]
  refine mem_take_newest (by omega) ?_ (by omega)
  have hbucket := bucketOf_congr (hc.toNat_minMatch.1.trans hrun)
  have hnear : p - (p - d) < 2 ^ config.windowBits.toNat := by
    rw [Nat.sub_sub_self hdp]
    exact hwindow
  simp [hbucket, hnear]

/-- **A repeat within the budget is not missed.** -/
theorem search_repeat (hc : config.Valid) {p d : Nat} (hd : 0 < d) (hdp : d ≤ p)
    (hwindow : d < 2 ^ config.windowBits.toNat) (hchain : d ≤ config.maxChainLength.toNat)
    (hroom : p + config.minMatch.toNat ≤ data.length)
    (hrun : config.minMatch.toNat ≤ commonAt data config p (p - d)) :
    ∃ distance length, search data config p = some (distance, length) ∧
      commonAt data config p (p - d) ≤ length := by
  have hmin := hc.toNat_minMatch.1
  have hmem : p - d ∈ hashedAlike data config p :=
    mem_hashedAlike hc hd hdp hwindow hchain hrun
  cases hbest : (hashedAlike data config p).argmax (commonAt data config p) with
  | none =>
      rw [List.argmax_eq_none.mp hbest] at hmem
      cases hmem
  | some q =>
      have hle := List.le_of_mem_argmax hmem hbest
      exact ⟨_, _, bestAmong_eq_some.mpr ⟨hroom, q, hbest, hrun.trans hle, rfl, rfl⟩, hle⟩

/-- The longest match there can be at `p`. -/
theorem commonAt_le (p q : Nat) : commonAt data config p q ≤ data.length - p ∧
    commonAt data config p q ≤ config.minMatch.toNat + 255 :=
  ⟨(Nat.min_le_right _ _).trans (Nat.min_le_left _ _),
    (Nat.min_le_right _ _).trans (Nat.min_le_right _ _)⟩

/-- A period repeats up to the end. -/
theorem commonAt_period {d : Nat} (hperiod : data.HasPeriod d) {p : Nat} (hdp : d ≤ p) :
    commonAt data config p (p - d) = min (data.length - p) (config.minMatch.toNat + 255) := by
  refine Nat.min_eq_right ((Nat.min_le_left _ _).trans ?_)
  rw [le_commonRun]
  refine ⟨?_, ?_, fun k hk => ?_⟩
  · rw [List.length_drop]
    omega
  · rw [List.length_drop]
  · have hagree := List.hasPeriod_iff_getElem?.mp hperiod (p - d + k) (by omega)
    rw [List.getElem?_drop, List.getElem?_drop, hagree]
    exact congrArg (data[·]?) (by omega)

/-- What is in reach of a period: from one period on, every search finds a match of full
length. -/
structure Reaches (data : List UInt8) (config : Config) (d : Nat) : Prop where
  pos : 0 < d
  period : data.HasPeriod d
  window : d < 2 ^ config.windowBits.toNat
  chain : d ≤ config.maxChainLength.toNat

theorem Reaches.finds {d : Nat} (h : Reaches data config d) (hc : config.Valid) {p : Nat}
    (hdp : d ≤ p) (hroom : p + config.minMatch.toNat ≤ data.length) :
    ∃ distance, search data config p
      = some (distance, min (data.length - p) (config.minMatch.toNat + 255)) := by
  have hfull : commonAt data config p (p - d)
      = min (data.length - p) (config.minMatch.toNat + 255) := commonAt_period h.period hdp
  have hlong : config.minMatch.toNat ≤ commonAt data config p (p - d) := by omega
  obtain ⟨distance, length, hsearch, hle⟩ :=
    search_repeat hc h.pos hdp h.window h.chain hroom hlong
  obtain ⟨-, q, -, -, -, rfl⟩ := bestAmong_eq_some.mp hsearch
  obtain ⟨hleft, hmax⟩ := @commonAt_le data config p q
  have heq : commonAt data config p q
      = min (data.length - p) (config.minMatch.toNat + 255) := by omega
  exact ⟨distance, by rw [hsearch, heq]⟩

/-- Lazy matching does not give up a match of full length. -/
theorem Reaches.takes {d : Nat} (h : Reaches data config d) (hc : config.Valid) {p : Nat}
    (hdp : d ≤ p) (hroom : p + config.minMatch.toNat ≤ data.length) :
    ∃ distance, taken data config (search data config) p
      = some (distance, min (data.length - p) (config.minMatch.toNat + 255)) := by
  obtain ⟨distance, hsearch⟩ := h.finds hc hdp hroom
  refine ⟨distance, ?_⟩
  have hnext : ((search data config (p + 1)).any fun next =>
      min (data.length - p) (config.minMatch.toNat + 255) < next.2) = false := by
    cases hfound : search data config (p + 1) with
    | none => rfl
    | some next =>
        obtain ⟨distance', length'⟩ := next
        obtain ⟨-, q, -, -, -, rfl⟩ := bestAmong_eq_some.mp hfound
        obtain ⟨hleft, hmax⟩ := @commonAt_le data config (p + 1) q
        refine decide_eq_false (Nat.not_lt.mpr ?_)
        change commonAt data config (p + 1) q ≤ _
        omega
  rw [taken, hsearch, Option.filter_some, hnext]
  simp

/-- As many tokens as there are bytes at most. -/
theorem length_parse_le (hc : config.Valid) {p : Nat} (hp : p ≤ data.length) :
    (parse data config p).length ≤ data.length - p := by
  have hle := (parse_describes hc hp).length_le
  rw [List.length_map] at hle
  omega

/-- Tokens of full length, then those for what is too short to match. -/
theorem Reaches.length_parse_le {d : Nat} (h : Reaches data config d) (hc : config.Valid)
    {p : Nat} (hdp : d ≤ p) (hp : p ≤ data.length) :
    (parse data config p).length
      ≤ (data.length - p) / (config.minMatch.toNat + 255) + config.minMatch.toNat := by
  have hmin := hc.toNat_minMatch.1
  fun_induction parse data config p with
  | case1 p hlt ih =>
      rcases Nat.lt_or_ge data.length (p + config.minMatch.toNat) with hshort | hroom
      · have hrest := LZ77.length_parse_le hc hp
        rw [parse_of_lt hlt] at hrest
        refine hrest.trans ?_
        have hdiv := Nat.zero_le ((data.length - p) / (config.minMatch.toNat + 255))
        omega
      · obtain ⟨distance, htaken⟩ := h.takes hc hdp hroom
        have hspan : (chosen data config p).length.toNat
            = min (data.length - p) (config.minMatch.toNat + 255) := by
          rw [chosen_eq data hc, htaken, length_matchOf]
          have := hc.toNat_minMatch.2
          omega
        rw [hspan] at ih ⊢
        rw [List.length_cons]
        rcases Nat.lt_or_ge (config.minMatch.toNat + 255) (data.length - p) with hmore | hlast
        · have hnext := ih (by omega) (by omega)
          have hdiv : (data.length - p) / (config.minMatch.toNat + 255)
              = (data.length - (p + (config.minMatch.toNat + 255)))
                  / (config.minMatch.toNat + 255) + 1 := by
            rw [← Nat.sub_sub]
            exact Nat.div_eq_sub_div (by omega) hmore.le
          have hmax : max 1 (min (data.length - p) (config.minMatch.toNat + 255))
              = config.minMatch.toNat + 255 := by omega
          rw [hmax] at hnext ⊢
          omega
        · have hend : data.length ≤ p + max 1 (min (data.length - p)
              (config.minMatch.toNat + 255)) := by omega
          rw [parse_of_le hend, List.length_nil]
          have hdiv := Nat.zero_le ((data.length - p) / (config.minMatch.toNat + 255))
          omega
  | case2 p hge => exact Nat.zero_le _

/-- Before there is a period to repeat, a token covers a byte at least. -/
theorem Reaches.length_parse_start {d : Nat} (h : Reaches data config d) (hc : config.Valid)
    {p : Nat} (hp : p ≤ data.length) :
    (parse data config p).length
      ≤ (d - p) + (data.length - d) / (config.minMatch.toNat + 255) + config.minMatch.toNat := by
  fun_induction parse data config p with
  | case1 p hlt ih =>
      rcases Nat.lt_or_ge p d with hpd | hdp
      · have hend := (tokenFor_spec hc hlt).2.1.le
        rw [(tokenFor_spec hc hlt).2.2] at hend
        have hnext := ih hend
        rw [List.length_cons]
        omega
      · have hall := h.length_parse_le hc hdp hp
        rw [parse_of_lt hlt] at hall
        have hmono : (data.length - p) / (config.minMatch.toNat + 255)
            ≤ (data.length - d) / (config.minMatch.toNat + 255) :=
          Nat.div_le_div_right (by omega)
        omega
  | case2 p hge => exact Nat.zero_le _

/-- Each token is the one of the round where it starts. -/
theorem getElem_parse (hc : config.Valid) (p : Nat) :
    ∀ (i : Nat) (hi : i < (parse data config p).length),
      (parse data config p)[i]
        = tokenFor data (p + produced (parse data config p) i)
            (chosen data config (p + produced (parse data config p) i)) := by
  intro i
  induction i generalizing p with
  | zero =>
      intro hi
      have hlt : p < data.length := by
        by_contra hge
        rw [parse_of_le (Nat.le_of_not_lt hge)] at hi
        cases hi
      simp only [parse_of_lt hlt, produced, List.take_zero, List.map_nil, List.sum_nil,
        Nat.add_zero, List.getElem_cons_zero]
  | succ i ih =>
      intro hi
      have hlt : p < data.length := by
        by_contra hge
        rw [parse_of_le (Nat.le_of_not_lt hge)] at hi
        cases hi
      have hrest := ih (p + max 1 (chosen data config p).length.toNat)
        (by rw [parse_of_lt hlt, List.length_cons] at hi; omega)
      rw [produced] at hrest
      simp only [parse_of_lt hlt, produced, List.take_succ_cons, List.map_cons, List.sum_cons,
        (tokenFor_spec hc hlt).2.2, List.getElem_cons_succ, ← Nat.add_assoc]
      exact hrest

end Repeats

/-- **Data with a period in reach.**  After one period every token that has room is a match of
full length, so the tokens are one for `minMatch + 255` bytes, and `d + minMatch` more. -/
theorem periodic_tokens {data : List UInt8} {config : Config} {d : Nat}
    (hvalid : config.validate = .ok ()) (h : Reaches data config d) :
    ∃ tokens stats, tokenize data config = .ok (tokens, stats) ∧
      (∀ (i : Nat) (hi : i < tokens.length), d ≤ produced tokens i →
        produced tokens i + config.minMatch.toNat ≤ data.length →
          tokens[i].length.toNat
            = min (data.length - produced tokens i) (config.minMatch.toNat + 255)) ∧
      tokens.length
        ≤ d + (data.length - d) / (config.minMatch.toNat + 255) + config.minMatch.toNat := by
  have hc := Config.validate_eq_ok.mp hvalid
  obtain ⟨examined, htokens⟩ := tokenize_eq data hc
  refine ⟨_, _, htokens, fun i hi hdp hroom => ?_, h.length_parse_start hc (Nat.zero_le _)⟩
  have hparse := getElem_parse hc 0 i hi
  rw [Nat.zero_add] at hparse
  obtain ⟨distance, htaken⟩ := h.takes hc hdp hroom
  have hmin := hc.toNat_minMatch
  have hlength : (chosen data config (produced (parse data config 0) i)).length.toNat
      = min (data.length - produced (parse data config 0) i) (config.minMatch.toNat + 255) := by
    rw [chosen_eq data hc, htaken, length_matchOf]
    omega
  have hne : (chosen data config (produced (parse data config 0) i)).length ≠ 0 := by
    intro h0
    rw [h0, UInt16.toNat_zero] at hlength
    omega
  rw [hparse, tokenFor, if_neg hne]
  exact hlength

/-- A run of one byte is in reach of every configuration. -/
theorem reaches_replicate {config : Config} (hc : config.Valid) (n : Nat) (b : UInt8) :
    Reaches (List.replicate n b) config 1 where
  pos := Nat.one_pos
  period := by
    refine List.hasPeriod_iff_getElem?.mpr fun i hi => ?_
    rw [List.length_replicate] at hi
    rw [List.getElem?_replicate, List.getElem?_replicate, if_pos (by omega), if_pos (by omega)]
  window := Nat.one_lt_two_pow (by have := hc.toNat_windowBits; omega)
  chain := by
    have := hc.maxChainLength
    omega

theorem periodic_tokens_run :
    ∃ tokens stats, tokenize (List.replicate 2000 7) {} = .ok (tokens, stats) ∧
      tokens.length ≤ 11 := by
  have hreaches : Reaches (List.replicate 2000 7) {} 1 := reaches_replicate (by decide) 2000 7
  obtain ⟨tokens, stats, htokens, -, hcount⟩ := periodic_tokens rfl hreaches
  rw [List.length_replicate] at hcount
  exact ⟨tokens, stats, htokens, hcount⟩

end Compressly.LZ77

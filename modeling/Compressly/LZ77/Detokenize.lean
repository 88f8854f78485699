/-
# `Compressly.LZ77.Detokenize` — the replay of any token list

Whatever the tokens are, `produced tokens i` bytes are there when token `i` is
replayed.  So

    a distance exceeds what is there     `CorruptInput`
    none does                            `produced tokens tokens.length` bytes

and no byte is read that has not been produced (`detokenize_eq`).  The expected
size is only what the vector is asked to hold, which it refuses from `2 ^ 63`
on.  The replay keeps to it where the tokens do, and where they are corrupt in
the other way (`detokenize_bounded_iff`).
-/
import Compressly.LZ77.Tokenize

namespace Compressly.LZ77

open Replay

/-- Some token reaches back to before the start of the output. -/
def Underruns (tokens : List Token) : Prop :=
  ∃ (i : Nat) (hi : i < tokens.length), produced tokens i < tokens[i].distance.toNat

theorem produced_succ (t : Token) (tokens : List Token) (i : Nat) :
    produced (t :: tokens) (i + 1) = t.item.span + produced tokens i := by
  rw [produced, List.take_succ_cons, List.map_cons, List.sum_cons, produced]

/-- A literal has distance 0, so the check in front of a copy covers it too. -/
theorem reaches_item {t : Token} {p : Nat} : t.item.Reaches p ↔ t.distance.toNat ≤ p := by
  by_cases h : t.isMatch
  · rw [item_of_isMatch h]
    exact and_iff_right (isMatch_iff.mp h)
  · rw [item_of_literal h]
    have h0 : t.distance.toNat = 0 := Nat.eq_zero_of_not_pos (mt isMatch_iff.mpr h)
    exact iff_of_true trivial (h0.trans_le (Nat.zero_le p))

theorem backed_iff {tokens : List Token} : ∀ {p : Nat}, Backed p (tokens.map Token.item) ↔
    ∀ (i : Nat) (hi : i < tokens.length), tokens[i].distance.toNat ≤ p + produced tokens i := by
  induction tokens with
  | nil =>
      intro p
      exact iff_of_true trivial fun i hi => absurd hi (Nat.not_lt_zero i)
  | cons t tokens ih =>
      intro p
      rw [List.map_cons, Backed, reaches_item, ih]
      constructor
      · rintro ⟨hfirst, hrest⟩ i hi
        cases i with
        | zero => exact hfirst
        | succ i =>
            rw [produced_succ, ← Nat.add_assoc]
            exact hrest i (Nat.lt_of_succ_lt_succ hi)
      · intro h
        refine ⟨h 0 (Nat.succ_pos _), fun i hi => ?_⟩
        have hi' := h (i + 1) (Nat.succ_lt_succ hi)
        rwa [produced_succ, ← Nat.add_assoc] at hi'

theorem backed_iff_not_underruns {tokens : List Token} :
    Backed 0 (tokens.map Token.item) ↔ ¬ Underruns tokens := by
  rw [backed_iff]
  simp only [Underruns, not_exists, Nat.not_lt, Nat.zero_add]

/-- A token that reaches too far back is refused. -/
theorem detokenizeOne_of_lt {out : List UInt8} {t : Token} (h : out.length < t.distance.toNat) :
    detokenizeOne out t
      = .error (.corruptInput "back-reference points before the start of the output") := by
  have hmatch : t.isMatch := isMatch_iff.mpr (Nat.zero_lt_of_lt h)
  rw [detokenizeOne, hmatch, if_neg (by decide), if_pos h]
  rfl

/-- The first such token ends the replay. -/
theorem foldlM_detokenizeOne_error {tokens : List Token} :
    ∀ {out : List UInt8}, ¬ Backed out.length (tokens.map Token.item) →
      tokens.foldlM detokenizeOne out
        = .error (.corruptInput "back-reference points before the start of the output") := by
  induction tokens with
  | nil => exact fun h => absurd trivial h
  | cons t tokens ih =>
      intro out h
      rw [List.foldlM_cons]
      by_cases hfirst : t.distance.toNat ≤ out.length
      · have hreach : t.item.Reaches out.length := reaches_item.mpr hfirst
        rw [detokenizeOne_eq fun _ => hfirst, bind_ok]
        refine ih fun hrest => h ⟨hreach, ?_⟩
        rwa [length_play hreach] at hrest
      · rw [detokenizeOne_of_lt (Nat.lt_of_not_le hfirst), bind_error]

/-- The ways a replay ends. -/
theorem detokenize_eq (tokens : List Token) {expectedSize : Nat} (hsize : expectedSize ≤ maxSize) :
    (¬ Underruns tokens → ∃ out, detokenize tokens expectedSize = .ok out ∧
      out.length = produced tokens tokens.length) ∧
    (Underruns tokens → detokenize tokens expectedSize
      = .error (.corruptInput "back-reference points before the start of the output")) := by
  rw [detokenize, reserve_of_le hsize, bind_ok]
  constructor
  · intro h
    have hback := backed_iff_not_underruns.mpr h
    have hall : tokens.foldlM detokenizeOne [] = .ok (replay [] (tokens.map Token.item)) :=
      foldlM_detokenizeOne hback
    refine ⟨_, hall, ?_⟩
    rw [hback.length_replay, produced, List.take_length, List.map_map]
    rfl
  · intro h
    exact foldlM_detokenizeOne_error fun hback => backed_iff_not_underruns.mp hback h

theorem detokenize_of_lt (tokens : List Token) {expectedSize : Nat}
    (hsize : maxSize < expectedSize) :
    detokenize tokens expectedSize = .error (.lengthError "vector::reserve") := by
  rw [detokenize, reserve_of_lt hsize, bind_error]

/-- **Where the replay keeps to the expected size.**  It is never out of its own bytes, but the
expected size binds it only where the tokens keep to it, and one that no vector can hold is
refused by the vector. -/
theorem detokenize_bounded_iff (tokens : List Token) (expectedSize : Nat) :
    (Decodes (detokenize tokens expectedSize) (fun out => out.length ≤ expectedSize) ↔
      expectedSize ≤ maxSize ∧
        (produced tokens tokens.length ≤ expectedSize ∨ Underruns tokens)) ∧
    detokenize tokens expectedSize ≠ .error .fault := by
  rcases Nat.lt_or_ge maxSize expectedSize with hlarge | hsize
  · rw [detokenize_of_lt tokens hlarge]
    refine ⟨iff_of_false id fun h => Nat.not_le.mpr hlarge h.1, fun hfault => ?_⟩
    cases hfault
  rw [and_iff_right hsize]
  obtain ⟨hok, herr⟩ := detokenize_eq tokens hsize
  by_cases h : Underruns tokens
  · rw [herr h]
    refine ⟨iff_of_true trivial (Or.inr h), fun hfault => ?_⟩
    cases hfault
  · obtain ⟨out, hout, hlen⟩ := hok h
    rw [hout, decodes_ok, hlen, or_iff_left h]
    refine ⟨Iff.rfl, fun hfault => ?_⟩
    cases hfault

/-- A literal and a copy of four make five bytes where three are expected. -/
theorem detokenize_overruns :
    ¬ Decodes (detokenize [{ literal := 7 }, { distance := 1, length := 4 }] 3)
      (fun out => out.length ≤ 3) := by
  have hout : detokenize [{ literal := 7 }, { distance := 1, length := 4 }] 3
      = .ok [7, 7, 7, 7, 7] := by decide
  rw [hout]
  exact Nat.not_le.mpr (by decide : 3 < 5)

end Compressly.LZ77

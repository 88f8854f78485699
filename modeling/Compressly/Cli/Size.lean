/-
# `Compressly.Cli.Size` — the sizes that `--block-size` takes

A size is a numeral of `strtoull` (leading blanks, a sign, digits) and a suffix, of
which only the first letter counts.  Without digits `strtoull` leaves the text as it
is, so a text that begins with a suffix is the size 0 (`parseSize_iff`).
-/
import Compressly.Cli.Arguments

namespace Compressly.Cli

open Parse

/-! ## Numerals -/

/-- What `strtoull` reads: blanks, a sign and digits. -/
structure Numeral where
  blanks : List Char
  sign : Option Bool
  digits : List Char
  blanks_space : ∀ c ∈ blanks, isSpace c = true
  digits_ne : digits ≠ []
  digits_digit : ∀ c ∈ digits, c.isDigit = true

namespace Numeral

def signText : Option Bool → List Char
  | none => []
  | some true => ['-']
  | some false => ['+']

def text (n : Numeral) : List Char := n.blanks ++ (signText n.sign ++ n.digits)

/-- Too large a number is the largest; a negative one wraps around. -/
def value (n : Numeral) : UInt64 :=
  if 2 ^ 64 ≤ digitsValue n.digits then UInt64.ofNat (2 ^ 64 - 1)
  else if n.sign = some true then 0 - UInt64.ofNat (digitsValue n.digits)
  else UInt64.ofNat (digitsValue n.digits)

end Numeral

theorem not_isSpace_of_isDigit {c : Char} (h : c.isDigit = true) :
    isSpace c = false ∧ c ≠ '-' ∧ c ≠ '+' := by
  refine ⟨?_, ?_, ?_⟩
  · unfold isSpace
    simp only [Bool.or_eq_false_iff, decide_eq_false_iff_not]
    refine ⟨⟨⟨⟨⟨?_, ?_⟩, ?_⟩, ?_⟩, ?_⟩, ?_⟩ <;> (rintro rfl; exact absurd h (by decide))
  · rintro rfl
    exact absurd h (by decide)
  · rintro rfl
    exact absurd h (by decide)

/-- A stretch of characters of one kind ends before one of another. -/
theorem span_boundary {kind : Char → Bool} {inside tail : List Char}
    (hin : ∀ c ∈ inside, kind c = true) (htail : ∀ c ∈ tail.head?, kind c = false) :
    (inside ++ tail).takeWhile kind = inside ∧ (inside ++ tail).dropWhile kind = tail := by
  induction inside with
  | nil =>
      cases tail with
      | nil => exact ⟨rfl, rfl⟩
      | cons c tail =>
          have hc := htail c rfl
          simp [hc]
  | cons c inside ih =>
      have hc := hin c List.mem_cons_self
      obtain ⟨htake, hdrop⟩ := ih fun c' h' => hin c' (List.mem_cons_of_mem _ h')
      simp [hc, htake, hdrop]

/-- A numeral is read to its end, if no digit follows. -/
theorem strtoull_numeral (n : Numeral) {tail : List Char}
    (htail : ∀ c ∈ tail.head?, c.isDigit = false) :
    strtoull (n.text ++ tail) = (n.value, tail) := by
  obtain ⟨blanks, sgn, digits, hblanks, hne, hdigits⟩ := n
  obtain ⟨htake, hdrop⟩ := span_boundary hdigits htail
  -- a sign is no blank, and a digit is neither a blank nor a sign
  have hhead : ∀ c ∈ (digits ++ tail).head?, isSpace c = false ∧ c ≠ '-' ∧ c ≠ '+' := by
    obtain ⟨c, digits', rfl⟩ := List.exists_cons_of_ne_nil hne
    intro c' hc'
    cases hc'
    exact not_isSpace_of_isDigit (hdigits c List.mem_cons_self)
  have hsign : sign (Numeral.signText sgn ++ (digits ++ tail))
      = (decide (sgn = some true), digits ++ tail) := by
    match sgn with
    | some true => rfl
    | some false => rfl
    | none =>
        change sign (digits ++ tail) = (false, digits ++ tail)
        unfold sign
        split
        case h_1 rest heq => exact absurd rfl (hhead '-' (by rw [heq]; rfl)).2.1
        case h_2 rest heq => exact absurd rfl (hhead '+' (by rw [heq]; rfl)).2.2
        case h_3 => rfl
  have hblank : (blanks ++ (Numeral.signText sgn ++ (digits ++ tail))).dropWhile isSpace
      = Numeral.signText sgn ++ (digits ++ tail) := by
    refine (span_boundary hblanks ?_).2
    match sgn with
    | some true => simp [Numeral.signText, isSpace]
    | some false => simp [Numeral.signText, isSpace]
    | none => exact fun c hc => (hhead c hc).1
  have htext : Numeral.text ⟨blanks, sgn, digits, hblanks, hne, hdigits⟩ ++ tail
      = blanks ++ (Numeral.signText sgn ++ (digits ++ tail)) := by
    simp [Numeral.text]
  rw [htext, strtoull, hblank, hsign]
  simp only [htake, hdrop, if_neg hne, Numeral.value, decide_eq_true_eq]

/-- Any text begins with a numeral, or `strtoull` reads nothing of it. -/
theorem strtoull_cases (text : List Char) :
    (∃ (n : Numeral) (tail : List Char), text = n.text ++ tail ∧
      ∀ c ∈ tail.head?, c.isDigit = false) ∨ strtoull text = (0, text) := by
  have hblanks := List.takeWhile_append_dropWhile (p := isSpace) (l := text)
  obtain ⟨sgn, hsgn⟩ : ∃ sgn, text.dropWhile isSpace
      = Numeral.signText sgn ++ (sign (text.dropWhile isSpace)).2 := by
    unfold sign
    split
    case h_1 rest heq => exact ⟨some true, heq⟩
    case h_2 rest heq => exact ⟨some false, heq⟩
    case h_3 => exact ⟨none, rfl⟩
  by_cases hne : (sign (text.dropWhile isSpace)).2.takeWhile Char.isDigit = []
  · refine Or.inr ?_
    rw [strtoull]
    simp only [if_pos hne]
  · refine Or.inl ⟨⟨text.takeWhile isSpace, sgn, _, fun c hc => List.mem_takeWhile_imp hc, hne,
      fun c hc => List.mem_takeWhile_imp hc⟩,
      (sign (text.dropWhile isSpace)).2.dropWhile Char.isDigit, ?_, fun c hc => ?_⟩
    · simp only [Numeral.text, List.append_assoc, List.takeWhile_append_dropWhile]
      rw [← hsgn, List.takeWhile_append_dropWhile]
    · have hnot := List.head?_dropWhile_not Char.isDigit (sign (text.dropWhile isSpace)).2
      rw [hc] at hnot
      simpa using hnot

/-! ## Sizes -/

/-- What may follow a number, and its scale: nothing, or a letter and whatever comes after it. -/
inductive Suffix : List Char → UInt64 → Prop
  | none : Suffix [] 1
  | letter {c : Char} {scale : UInt64} (rest : List Char) : scaleOf c = some scale →
      Suffix (c :: rest) scale

/-- A suffix does not begin as a numeral does. -/
theorem letter_of_scaleOf {c : Char} {scale : UInt64} (h : scaleOf c = some scale) :
    isSpace c = false ∧ c ≠ '-' ∧ c ≠ '+' ∧ c.isDigit = false := by
  unfold scaleOf at h
  split at h
  all_goals first | exact ⟨by decide, by decide, by decide, by decide⟩ | cases h

theorem Suffix.head {tail : List Char} {scale : UInt64} (h : Suffix tail scale) :
    ∀ c ∈ tail.head?, c.isDigit = false := by
  cases h with
  | none =>
      intro c hc
      cases hc
  | letter rest hscale =>
      intro c hc
      cases hc
      exact (letter_of_scaleOf hscale).2.2.2

theorem Numeral.head (n : Numeral) (tail : List Char) :
    ∃ c rest, n.text ++ tail = c :: rest ∧
      (isSpace c = true ∨ c = '-' ∨ c = '+' ∨ c.isDigit = true) := by
  obtain ⟨blanks, sgn, digits, hblanks, hne, hdigits⟩ := n
  cases blanks with
  | cons c blanks => exact ⟨c, _, rfl, Or.inl (hblanks c List.mem_cons_self)⟩
  | nil =>
      match sgn with
      | some true => exact ⟨'-', _, rfl, Or.inr (Or.inl rfl)⟩
      | some false => exact ⟨'+', _, rfl, Or.inr (Or.inr (Or.inl rfl))⟩
      | none =>
          obtain ⟨c, digits', rfl⟩ := List.exists_cons_of_ne_nil hne
          exact ⟨c, _, rfl, Or.inr (Or.inr (Or.inr (hdigits c List.mem_cons_self)))⟩

/-- Nothing is read of a suffix. -/
theorem strtoull_letter {c : Char} {scale : UInt64} (h : scaleOf c = some scale)
    (rest : List Char) : strtoull (c :: rest) = (0, c :: rest) := by
  obtain ⟨hspace, hminus, hplus, hdigit⟩ := letter_of_scaleOf h
  rcases strtoull_cases (c :: rest) with ⟨n, tail, htext, -⟩ | hnone
  · obtain ⟨c', rest', hhead, hkind⟩ := n.head tail
    rw [hhead] at htext
    cases htext
    rcases hkind with hk | hk | hk | hk
    · rw [hspace] at hk
      cases hk
    · exact absurd hk hminus
    · exact absurd hk hplus
    · rw [hdigit] at hk
      cases hk
  · exact hnone

/-- **The sizes accepted.**  A numeral and a suffix, of which one letter counts, and the product
wraps; or a suffix alone, which is 0.  Any other text is refused. -/
theorem parseSize_iff {text : String} {size : UInt64} :
    parseSize text = .ok size ↔
      (∃ (n : Numeral) (tail : List Char) (scale : UInt64), text.toList = n.text ++ tail ∧
        Suffix tail scale ∧ size = n.value * scale) ∨
      ∃ (c : Char) (rest : List Char) (scale : UInt64), text.toList = c :: rest ∧
        scaleOf c = some scale ∧ size = 0 := by
  unfold parseSize
  constructor
  · intro h
    by_cases hnil : text.toList = []
    · rw [if_pos hnil] at h
      cases h
    rw [if_neg hnil] at h
    rcases strtoull_cases text.toList with ⟨n, tail, htext, htail⟩ | hnone
    · rw [htext, strtoull_numeral n htail] at h
      refine Or.inl ⟨n, tail, ?_⟩
      cases tail with
      | nil =>
          cases h
          exact ⟨1, htext, .none, (UInt64.mul_one _).symm⟩
      | cons c rest =>
          cases hscale : scaleOf c with
          | none =>
              simp only [hscale] at h
              cases h
          | some scale =>
              simp only [hscale] at h
              cases h
              exact ⟨scale, htext, .letter rest hscale, rfl⟩
    · rw [hnone] at h
      obtain ⟨c, rest, htext⟩ := List.exists_cons_of_ne_nil hnil
      rw [htext] at h
      cases hscale : scaleOf c with
      | none =>
          simp only [hscale] at h
          cases h
      | some scale =>
          simp only [hscale] at h
          cases h
          exact Or.inr ⟨c, rest, scale, htext, hscale, UInt64.zero_mul⟩
  · rintro (⟨n, tail, scale, htext, hsuffix, rfl⟩ | ⟨c, rest, scale, htext, hscale, rfl⟩)
    · obtain ⟨c, rest, hhead, -⟩ := n.head tail
      rw [if_neg (by rw [htext, hhead]; exact List.cons_ne_nil _ _), htext,
        strtoull_numeral n hsuffix.head]
      cases hsuffix with
      | none => exact congrArg _ (UInt64.mul_one _).symm
      | letter rest hscale =>
          simp only [hscale]
          rfl
    · rw [if_neg (by rw [htext]; exact List.cons_ne_nil _ _), htext, strtoull_letter hscale]
      simp only [hscale, UInt64.zero_mul]
      rfl

end Compressly.Cli

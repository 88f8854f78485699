/-
# `Compressly.Lib.ReplayLoop` — loops that read items and replay them

A decoder of a dictionary format reads one item after the other until it has
produced `n` elements.  `word s item w s'` says that in state `s` the item is
spelled `w`, and leads to `s'`; `Words` is the spelling of a list of items.
A loop whose rounds read exactly the spelled items that find their source and
do not overrun (`ReadsItems`) reads exactly the spellings of the lists whose replay
has `n` elements (`ReadsItems.run_iff`).  `Plain` is the case of a loop whose only
state is its output.
-/
import Compressly.Lib.Loop
import Compressly.Lib.Replay

namespace Replay

open Parse Loop

variable {α σ τ ε : Type}

/-- The spelling of a list of items, from one state to another. -/
inductive Words (word : σ → Item α → List τ → σ → Prop) : σ → List (Item α) → List τ → σ → Prop
  | nil {s : σ} : Words word s [] [] s
  | cons {s s' s'' : σ} {item : Item α} {items : List (Item α)} {w ws : List τ} :
      word s item w s' → Words word s' items ws s'' → Words word s (item :: items) (w ++ ws) s''

/-- The rounds of the parser `g` read spelled items and replay them, up to `n` elements. -/
structure ReadsItems (out : σ → List α) (word : σ → Item α → List τ → σ → Prop) (n : Nat)
    (g : σ → Parser ε τ σ) : Prop where
  plays : ∀ {s s' : σ} {item : Item α} {w : List τ}, word s item w s' →
    out s' = play (out s) item ∧ 0 < item.span
  round_iff : ∀ {s s' : σ} {p rest : List τ}, (out s).length < n →
    (g s p = .ok (s', rest) ↔ ∃ item w, word s item w s' ∧ p = w ++ rest ∧
      item.Reaches (out s).length ∧ (out s).length + item.span ≤ n)

section ReadsItems
variable {out : σ → List α} {word : σ → Item α → List τ → σ → Prop} {n : Nat}
  {g : σ → Parser ε τ σ} (h : ReadsItems out word n g)
include h

theorem ReadsItems.replays {s s' : σ} {items : List (Item α)} {w : List τ}
    (hw : Words word s items w s') : out s' = replay (out s) items := by
  induction hw with
  | nil => rfl
  | cons hword _ ih =>
      rw [ih, (h.plays hword).1]
      rfl

/-- What a run of the loop reads. -/
theorem ReadsItems.run_iff {s s' : σ} {p rest : List τ} (hs : (out s).length ≤ n) :
    Run (fun s => decide ((out s).length < n)) g s p s' rest ↔
      ∃ items w, Words word s items w s' ∧ p = w ++ rest ∧ Backed (out s).length items ∧
        (out s).length + (items.map Item.span).sum = n := by
  constructor
  · intro hrun
    induction hrun with
    | done hmore => exact ⟨[], [], .nil, rfl, trivial, Nat.le_antisymm hs
        (Nat.le_of_not_lt (of_decide_eq_false hmore))⟩
    | step hmore hround _ ih =>
        obtain ⟨item, w, hword, rfl, hreach, hle⟩ := (h.round_iff (of_decide_eq_true hmore)).mp hround
        have hlen : (out _).length = _ := (congrArg List.length (h.plays hword).1).trans
          (length_play hreach)
        obtain ⟨items, ws, hws, rfl, hback, hsum⟩ := ih (hlen.trans_le hle)
        rw [hlen] at hback hsum
        refine ⟨item :: items, w ++ ws, .cons hword hws, ?_, ⟨hreach, hback⟩, ?_⟩
        · rw [List.append_assoc]
        · rw [List.map_cons, List.sum_cons, ← Nat.add_assoc]
          exact hsum
  · rintro ⟨items, w, hw, rfl, hback, hsum⟩
    induction hw with
    | nil => exact .done (decide_eq_false (Nat.not_lt.mpr hsum.ge))
    | @cons s s₁ s₂ item items w ws hword _ ih =>
        obtain ⟨hout, hspan⟩ := h.plays hword
        rw [List.map_cons, List.sum_cons, ← Nat.add_assoc] at hsum
        have hle : (out s).length + item.span ≤ n := hsum ▸ Nat.le_add_right _ _
        have hlt : (out s).length < n := Nat.lt_of_lt_of_le (Nat.lt_add_of_pos_right hspan) hle
        have hlen : (out s₁).length = (out s).length + item.span :=
          (congrArg List.length hout).trans (length_play hback.1)
        refine .step (decide_eq_true hlt) ((h.round_iff hlt).mpr ⟨item, w, hword,
          List.append_assoc _ _ _, hback.1, hle⟩) (ih (hlen.trans_le hle) ?_ ?_)
        · exact hlen ▸ hback.2
        · exact hlen ▸ hsum

end ReadsItems

/-! ## Where the state is the output -/

/-- Items spelled the same way everywhere, in a loop that carries nothing but its output. -/
def Plain (spelling : Item α → List τ → Prop) (out : List α) (item : Item α) (w : List τ)
    (out' : List α) : Prop :=
  spelling item w ∧ out' = play out item

theorem words_plain {spelling : Item α → List τ → Prop} {items : List (Item α)} :
    ∀ {out out' : List α} {w : List τ}, Words (Plain spelling) out items w out' ↔
      ∃ ws, List.Forall₂ spelling items ws ∧ w = ws.flatten ∧ out' = replay out items := by
  induction items with
  | nil =>
      intro out out' w
      constructor
      · intro h
        cases h
        exact ⟨[], .nil, rfl, rfl⟩
      · rintro ⟨ws, hws, rfl, rfl⟩
        cases hws
        exact .nil
  | cons item items ih =>
      intro out out' w
      constructor
      · intro h
        cases h with
        | cons hword hrest =>
            obtain ⟨hitem, rfl⟩ := hword
            obtain ⟨ws, hws, rfl, rfl⟩ := ih.mp hrest
            exact ⟨_ :: ws, .cons hitem hws, rfl, rfl⟩
      · rintro ⟨ws, hws, rfl, rfl⟩
        cases hws with
        | cons hitem hws => exact .cons ⟨hitem, rfl⟩ (ih.mpr ⟨_, hws, rfl, rfl⟩)

/-- What such a loop reads from its start. -/
theorem ReadsItems.run_plain {spelling : Item α → List τ → Prop} {n : Nat}
    {g : List α → Parser ε τ (List α)} (h : ReadsItems id (Plain spelling) n g) {out : List α}
    {p rest : List τ} :
    Run (fun out => decide (out.length < n)) g [] p out rest ↔
      ∃ items ws, List.Forall₂ spelling items ws ∧ p = ws.flatten ++ rest ∧
        ReplaysTo items n out := by
  refine (h.run_iff (s := []) (Nat.zero_le n)).trans ?_
  constructor
  · rintro ⟨items, w, hw, rfl, hback, hsum⟩
    obtain ⟨ws, hws, rfl, rfl⟩ := words_plain.mp hw
    exact ⟨items, ws, hws, rfl, hback, rfl, (length_replay hback).trans hsum⟩
  · rintro ⟨items, ws, hws, rfl, hreplay⟩
    exact ⟨items, ws.flatten, words_plain.mpr ⟨ws, hws, rfl, hreplay.replay.symm⟩, rfl,
      hreplay.backed, (Nat.zero_add _).trans hreplay.sum_span⟩

end Replay

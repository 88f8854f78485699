/-
# `Compressly.Lib.Replay` — dictionary parses and their replay

A dictionary coder describes a list by *items*: an element as it is, or a copy
of `length` elements starting `distance` places back.  A copy may overlap its
own output, so it is made one element at a time (`copy`).

`Describes x p items` says that `items` describe `x` from position `p` on; the
elements before `p` are known already.  Replaying a description gives `x` back
(`replay_of_describes`), and a copy is described by nothing more than the
agreement of `x` with itself, shifted (`copy_take`).
-/
import Mathlib

namespace Replay

variable {α : Type}

inductive Item (α : Type) where
  | lit (a : α)
  | copy (distance length : Nat)
deriving DecidableEq

/-- How many elements an item produces. -/
def Item.span : Item α → Nat
  | .lit _ => 1
  | .copy _ length => length

/-! ## Copying -/

/-- `n` more elements, each the one `distance` places before it. -/
def copy (distance : Nat) : Nat → List α → List α
  | 0, out => out
  | n + 1, out =>
      match out[out.length - distance]? with
      | some a => copy distance n (out ++ [a])
      | none => out

section Copy
variable {distance : Nat} {out : List α} (h0 : 0 < distance) (h : distance ≤ out.length)

theorem copy_succ {a : α} (ha : out[out.length - distance]? = some a) (n : Nat) :
    copy distance (n + 1) out = copy distance n (out ++ [a]) := by
  rw [copy, ha]

include h0 h in
/-- The element copied first. -/
theorem exists_source : ∃ a, out[out.length - distance]? = some a :=
  ⟨_, List.getElem?_eq_getElem (by omega)⟩

include h0 h

theorem length_copy (n : Nat) : (copy distance n out).length = out.length + n := by
  induction n generalizing out with
  | zero => rfl
  | succ n ih =>
      obtain ⟨a, ha⟩ := exists_source h0 h
      rw [copy_succ ha, ih (by simp; omega), List.length_append, List.length_singleton]
      omega

/-- Copying only appends. -/
theorem prefix_copy (n : Nat) : out <+: copy distance n out := by
  induction n generalizing out with
  | zero => exact List.prefix_rfl
  | succ n ih =>
      obtain ⟨a, ha⟩ := exists_source h0 h
      rw [copy_succ ha]
      exact (List.prefix_append _ _).trans (ih (by simp; omega))

/-- Each copied element is the one `distance` places before it. -/
theorem getElem?_copy {n i : Nat} (hi : out.length ≤ i) (hn : i < out.length + n) :
    (copy distance n out)[i]? = (copy distance n out)[i - distance]? := by
  induction n generalizing out with
  | zero => omega
  | succ n ih =>
      obtain ⟨a, ha⟩ := exists_source h0 h
      have h' : distance ≤ (out ++ [a]).length := by
        simp
        omega
      rw [copy_succ ha]
      rcases Nat.eq_or_lt_of_le hi with rfl | hlt
      · -- the first of them has just been appended
        obtain ⟨more, hmore⟩ := prefix_copy h0 h' n
        have hback : out.length - distance < out.length := by omega
        rw [← hmore, List.append_assoc, List.getElem?_append_left hback, ha]
        simp
      · exact ih h' (by simp; omega) (by simp; omega)

end Copy

/-- Copying what `x` repeats: `n` elements that agree with those `distance` places back. -/
theorem copy_take {x : List α} {distance p n : Nat} (h0 : 0 < distance) (h : distance ≤ p)
    (hn : p + n ≤ x.length) (hrun : ∀ k < n, x[p - distance + k]? = x[p + k]?) :
    copy distance n (x.take p) = x.take (p + n) := by
  induction n generalizing p with
  | zero => rfl
  | succ n ih =>
      have hlen : (x.take p).length = p := by simp; omega
      have hlt : p < x.length := by omega
      have hfirst : (x.take p)[(x.take p).length - distance]? = some x[p] := by
        have hagree := hrun 0 (by omega)
        rw [Nat.add_zero, Nat.add_zero, List.getElem?_eq_getElem hlt] at hagree
        rw [hlen, List.getElem?_take_of_lt (by omega), hagree]
      have hrun' : ∀ k < n, x[p + 1 - distance + k]? = x[p + 1 + k]? := by
        intro k hk
        have hagree := hrun (k + 1) (by omega)
        rwa [show p - distance + (k + 1) = p + 1 - distance + k by omega,
          show p + (k + 1) = p + 1 + k by omega] at hagree
      rw [copy_succ hfirst, ← List.take_succ_eq_append_getElem hlt,
        ih (by omega) (by omega) hrun', show p + 1 + n = p + (n + 1) by omega]

/-! ## Replaying -/

/-- One item. -/
def play (out : List α) : Item α → List α
  | .lit a => out ++ [a]
  | .copy distance length => copy distance length out

def replay (out : List α) (items : List (Item α)) : List α := items.foldl play out

/-- With `p` elements there, a copy finds its source. -/
def Item.Reaches (p : Nat) : Item α → Prop
  | .lit _ => True
  | .copy distance _ => 0 < distance ∧ distance ≤ p

/-- With `p` elements there, each copy reaches back no further than to the start. -/
def Backed : Nat → List (Item α) → Prop
  | _, [] => True
  | p, item :: items => item.Reaches p ∧ Backed (p + item.span) items

theorem length_play {out : List α} {item : Item α} (h : item.Reaches out.length) :
    (play out item).length = out.length + item.span := by
  cases item with
  | lit a => simp [play, Item.span]
  | copy distance length => exact length_copy h.1 h.2 length

theorem prefix_play {out : List α} {item : Item α} (h : item.Reaches out.length) :
    out <+: play out item := by
  cases item with
  | lit a => exact List.prefix_append _ _
  | copy distance length => exact prefix_copy h.1 h.2 length

theorem length_replay {items : List (Item α)} : ∀ {out : List α}, Backed out.length items →
    (replay out items).length = out.length + (items.map Item.span).sum := by
  induction items with
  | nil => exact fun _ => rfl
  | cons item items ih =>
      intro out h
      have hplay := length_play h.1
      rw [replay, List.foldl_cons, List.map_cons, List.sum_cons, ← Nat.add_assoc, ← hplay]
      exact ih (hplay ▸ h.2)

theorem Backed.length_replay {items : List (Item α)} (h : Backed 0 items) :
    (replay [] items).length = (items.map Item.span).sum := by
  have hlen : (replay [] items).length = 0 + (items.map Item.span).sum := Replay.length_replay h
  rwa [Nat.zero_add] at hlen

theorem prefix_replay {items : List (Item α)} : ∀ {out : List α}, Backed out.length items →
    out <+: replay out items := by
  induction items with
  | nil => exact fun _ => List.prefix_refl _
  | cons item items ih =>
      intro out h
      exact (prefix_play h.1).trans (ih (length_play h.1 ▸ h.2))

theorem backed_append {before after : List (Item α)} : ∀ {p : Nat},
    Backed p (before ++ after)
      ↔ Backed p before ∧ Backed (p + (before.map Item.span).sum) after := by
  induction before with
  | nil => exact fun {p} => ⟨fun h => ⟨trivial, h⟩, fun h => h.2⟩
  | cons item before ih =>
      intro p
      rw [List.cons_append, Backed, Backed, ih, List.map_cons, List.sum_cons, Nat.add_assoc,
        and_assoc]

/-- Each element of a copy is the one `distance` places before it, in the whole replay. -/
theorem getElem?_replay {before after : List (Item α)} {distance length k : Nat}
    (h : Backed 0 (before ++ .copy distance length :: after)) (hk : k < length) :
    (replay [] (before ++ .copy distance length :: after))[(before.map Item.span).sum + k]?
      = (replay [] (before ++ .copy distance length :: after))[
          (before.map Item.span).sum + k - distance]? := by
  obtain ⟨hbefore, ⟨h0, hreach⟩, hafter⟩ := backed_append.mp h
  have hlen := hbefore.length_replay
  rw [Nat.zero_add, ← hlen] at hreach hafter
  have hcopy := length_copy h0 hreach length
  obtain ⟨tail, htail⟩ : copy distance length (replay [] before)
      <+: replay (copy distance length (replay [] before)) after := prefix_replay (hcopy ▸ hafter)
  have hwhole : replay [] (before ++ .copy distance length :: after)
      = copy distance length (replay [] before) ++ tail := by
    rw [htail, replay, List.foldl_append]
    rfl
  rw [hwhole, ← hlen, List.getElem?_append_left (by omega), List.getElem?_append_left (by omega)]
  exact getElem?_copy h0 hreach (Nat.le_add_right _ _) (Nat.add_lt_add_left hk _)

/-- An item that describes `x` at position `p`. -/
def Fits (x : List α) (p : Nat) : Item α → Prop
  | .lit a => x[p]? = some a
  | .copy distance length =>
      0 < distance ∧ distance ≤ p ∧ 0 < length ∧ p + length ≤ x.length ∧
        ∀ k < length, x[p - distance + k]? = x[p + k]?

/-- `items` describe `x` from position `p` to its end. -/
def Describes (x : List α) (p : Nat) : List (Item α) → Prop
  | [] => p = x.length
  | item :: items => Fits x p item ∧ Describes x (p + item.span) items

theorem Fits.play {x : List α} {p : Nat} {item : Item α} (h : Fits x p item) :
    play (x.take p) item = x.take (p + item.span) := by
  cases item with
  | lit a =>
      obtain ⟨hp, ha⟩ := List.getElem?_eq_some_iff.mp h
      rw [Replay.play, Item.span, List.take_succ_eq_append_getElem hp, ha]
  | copy distance length =>
      obtain ⟨h0, hd, -, hn, hrun⟩ := h
      exact copy_take h0 hd hn hrun

theorem Fits.span_pos {x : List α} {p : Nat} {item : Item α} (h : Fits x p item) :
    0 < item.span := by
  cases item with
  | lit a => exact Nat.one_pos
  | copy distance length => exact h.2.2.1

theorem Fits.le {x : List α} {p : Nat} {item : Item α} (h : Fits x p item) :
    p + item.span ≤ x.length := by
  cases item with
  | lit a => exact (List.getElem?_eq_some_iff.mp h).1
  | copy distance length => exact h.2.2.2.1

/-- A description replays to what it describes. -/
theorem replay_of_describes {x : List α} {p : Nat} {items : List (Item α)}
    (h : Describes x p items) : replay (x.take p) items = x := by
  induction items generalizing p with
  | nil =>
      have hp : p = x.length := h
      rw [hp, List.take_length]
      rfl
  | cons item items ih =>
      have hrest := ih h.2
      rw [← h.1.play] at hrest
      exact hrest

theorem Describes.le {x : List α} {p : Nat} {items : List (Item α)} (h : Describes x p items) :
    p ≤ x.length := by
  cases items with
  | nil => exact le_of_eq h
  | cons item items =>
      have := h.1.le
      omega

/-- The items of a description cover what is left of `x`. -/
theorem Describes.sum_span {x : List α} {p : Nat} {items : List (Item α)}
    (h : Describes x p items) : p + (items.map Item.span).sum = x.length := by
  induction items generalizing p with
  | nil => exact h
  | cons item items ih =>
      rw [List.map_cons, List.sum_cons, ← Nat.add_assoc]
      exact ih h.2

/-- Each item covers an element at least. -/
theorem Describes.length_le {x : List α} {p : Nat} {items : List (Item α)}
    (h : Describes x p items) : p + items.length ≤ x.length := by
  induction items generalizing p with
  | nil => exact le_of_eq h
  | cons item items ih =>
      have hpos := h.1.span_pos
      have hrest := ih h.2
      rw [List.length_cons]
      omega

/-- `items` find their sources, and replay to `out`, of `n` elements. -/
structure ReplaysTo (items : List (Item α)) (n : Nat) (out : List α) : Prop where
  backed : Backed 0 items
  replay : replay [] items = out
  length : out.length = n

theorem ReplaysTo.sum_span {items : List (Item α)} {n : Nat} {out : List α}
    (h : ReplaysTo items n out) : (items.map Item.span).sum = n := by
  rw [← h.backed.length_replay, h.replay, h.length]

/-- Literals stand for themselves. -/
theorem replaysTo_map_lit {as out : List α} {n : Nat} :
    ReplaysTo (as.map Item.lit) n out ↔ as = out ∧ out.length = n := by
  have hreplay : ∀ (as out : List α), replay out (as.map Item.lit) = out ++ as := by
    intro as
    induction as with
    | nil => exact fun out => (List.append_nil out).symm
    | cons a as ih =>
        intro out
        exact (ih (out ++ [a])).trans (List.append_assoc _ _ _)
  have hback : ∀ (as : List α) (p : Nat), Backed p (as.map Item.lit) := by
    intro as
    induction as with
    | nil => exact fun _ => trivial
    | cons a as ih => exact fun p => ⟨trivial, ih _⟩
  constructor
  · intro h
    exact ⟨(hreplay as []).symm.trans h.replay, h.length⟩
  · rintro ⟨rfl, rfl⟩
    exact ⟨hback as 0, hreplay as [], rfl⟩

theorem Describes.backed {x : List α} {p : Nat} {items : List (Item α)} (h : Describes x p items) :
    Backed p items := by
  induction items generalizing p with
  | nil => trivial
  | cons item items ih =>
      refine ⟨?_, ih h.2⟩
      cases item with
      | lit a => trivial
      | copy distance length => exact ⟨h.1.1, h.1.2.1⟩

theorem Describes.replaysTo {x : List α} {items : List (Item α)} (h : Describes x 0 items) :
    ReplaysTo items x.length x where
  backed := h.backed
  replay := replay_of_describes h
  length := rfl

/-! ## Common runs -/

/-- The length of the longest common prefix. -/
def commonRun [DecidableEq α] : List α → List α → Nat
  | a :: as, b :: bs => if a = b then commonRun as bs + 1 else 0
  | _, _ => 0

theorem le_commonRun [DecidableEq α] {as bs : List α} {n : Nat} :
    n ≤ commonRun as bs ↔ n ≤ as.length ∧ n ≤ bs.length ∧ ∀ k < n, as[k]? = bs[k]? := by
  induction as generalizing bs n with
  | nil =>
      simp only [commonRun, List.length_nil, Nat.le_zero]
      exact ⟨fun h => ⟨h, by omega, fun k hk => by omega⟩, fun h => h.1⟩
  | cons a as ih =>
      cases bs with
      | nil =>
          simp only [commonRun, List.length_nil, Nat.le_zero]
          exact ⟨fun h => ⟨by omega, h, fun k hk => by omega⟩, fun h => h.2.1⟩
      | cons b bs =>
          cases n with
          | zero => simp
          | succ n =>
              rw [commonRun, Nat.forall_lt_succ_left]
              by_cases hab : a = b
              · simp [hab, ih]
              · simp [hab]

end Replay

/-
# `Compressly.Lib.Chunks` — a list in pieces of one size

`piece size xs i` is the `i`-th piece, the last one may be shorter.  There are
`count size xs.length` of them, the ceiling of the quotient (`lt_count`), none
is empty, and one after the other they are `xs` (`flatten_chunks`).
-/
import Mathlib

namespace Chunks

variable {α : Type} {size : Nat}

def piece (size : Nat) (xs : List α) (i : Nat) : List α := (xs.drop (i * size)).take size

/-- How many pieces there are: the quotient, rounded up. -/
def count (size total : Nat) : Nat := (total + size - 1) / size

def chunks (size : Nat) (xs : List α) : List (List α) :=
  (List.range (count size xs.length)).map (piece size xs)

@[simp] theorem length_chunks (xs : List α) : (chunks size xs).length = count size xs.length := by
  rw [chunks, List.length_map, List.length_range]

/-- The pieces are those that begin inside the list. -/
theorem lt_count (h : 0 < size) {total i : Nat} : i < count size total ↔ i * size < total := by
  have hstep : (i + 1) * size = i * size + size := Nat.succ_mul i size
  rw [count, Nat.lt_iff_add_one_le, Nat.le_div_iff_mul_le h, hstep]
  omega

theorem length_piece (xs : List α) (i : Nat) :
    (piece size xs i).length = min size (xs.length - i * size) := by
  rw [piece, List.length_take, List.length_drop]

theorem piece_ne_nil (h : 0 < size) {xs : List α} {i : Nat} (hi : i < count size xs.length) :
    piece size xs i ≠ [] := by
  have hlt := (lt_count h).mp hi
  refine List.ne_nil_of_length_pos ?_
  rw [length_piece]
  omega

theorem take_succ_mul (xs : List α) (i : Nat) :
    xs.take ((i + 1) * size) = xs.take (i * size) ++ piece size xs i := by
  rw [Nat.succ_mul, List.take_add, piece]

/-- The pieces from the front. -/
theorem flatten_range (xs : List α) (m : Nat) :
    ((List.range m).map (piece size xs)).flatten = xs.take (m * size) := by
  induction m with
  | zero => simp
  | succ m ih =>
      rw [List.range_succ, List.map_append, List.flatten_append, ih, take_succ_mul]
      simp

theorem flatten_chunks (h : 0 < size) (xs : List α) : (chunks size xs).flatten = xs := by
  have hall : xs.length ≤ count size xs.length * size := by
    by_contra hlt
    exact Nat.lt_irrefl _ ((lt_count h).mpr (Nat.lt_of_not_le hlt))
  rw [chunks, flatten_range, List.take_of_length_le hall]

/-- Behind a piece begins the next. -/
theorem piece_append_drop (xs : List α) (i : Nat) :
    piece size xs i ++ xs.drop ((i + 1) * size) = xs.drop (i * size) := by
  rw [piece, Nat.succ_mul, ← List.drop_drop, List.take_append_drop]

theorem sum_length_chunks (h : 0 < size) (xs : List α) :
    ((chunks size xs).map List.length).sum = xs.length := by
  rw [← List.length_flatten, flatten_chunks h]

end Chunks

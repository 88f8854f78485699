/-
# `Compressly.Lib.CodeTree` — full binary trees and the depths of their leaves

The tree a Huffman construction builds, with its leaves labelled.  A tree with
`n` leaves has `2n - 1` nodes (`size_eq`); a leaf of a tree with a proper node
lies below the root (`depthsFrom_pos`).  The leaves share out the code space
without a remainder (`kraft_depthsFrom`).
-/
import Compressly.Lib.Kraft

inductive CodeTree (α : Type) where
  | leaf (a : α)
  | node (l r : CodeTree α)

namespace CodeTree

variable {α : Type}

/-- The labels, left to right. -/
def leaves : CodeTree α → List α
  | leaf a => [a]
  | node l r => l.leaves ++ r.leaves

/-- The number of nodes, leaves included. -/
def size : CodeTree α → Nat
  | leaf _ => 1
  | node l r => 1 + l.size + r.size

/-- The depths of the leaves, left to right, when the root lies at depth `d`. -/
def depthsFrom (d : Nat) : CodeTree α → List Nat
  | leaf _ => [d]
  | node l r => l.depthsFrom (d + 1) ++ r.depthsFrom (d + 1)

@[simp] theorem length_depthsFrom (t : CodeTree α) (d : Nat) :
    (t.depthsFrom d).length = t.leaves.length := by
  induction t generalizing d with
  | leaf _ => rfl
  | node l r ihl ihr => simp [depthsFrom, leaves, ihl, ihr]

theorem size_eq (t : CodeTree α) : t.size + 1 = 2 * t.leaves.length := by
  induction t with
  | leaf _ => rfl
  | node l r ihl ihr =>
      rw [size, leaves, List.length_append]
      omega

theorem size_pos (t : CodeTree α) : 0 < t.size := by
  cases t with
  | leaf _ => exact Nat.one_pos
  | node l r =>
      rw [size]
      omega

theorem le_of_mem_depthsFrom {t : CodeTree α} {d k : Nat} (h : k ∈ t.depthsFrom d) : d ≤ k := by
  induction t generalizing d with
  | leaf _ => exact (List.mem_singleton.mp h).ge
  | node l r ihl ihr =>
      rcases List.mem_append.mp h with h | h
      · exact Nat.le_of_succ_le (ihl h)
      · exact Nat.le_of_succ_le (ihr h)

/-- Below a proper node no leaf is at the root. -/
theorem depthsFrom_pos {t : CodeTree α} (ht : 2 ≤ t.leaves.length) {k : Nat}
    (h : k ∈ t.depthsFrom 0) : 0 < k := by
  cases t with
  | leaf _ => exact absurd ht (by simp [leaves])
  | node l r =>
      rcases List.mem_append.mp h with h | h
      · exact le_of_mem_depthsFrom h
      · exact le_of_mem_depthsFrom h

/-- The leaves use up the code space exactly. -/
theorem kraft_depthsFrom {D d : Nat} {t : CodeTree α} (h : ∀ k ∈ t.depthsFrom d, k ≤ D) :
    Kraft.kraft D (t.depthsFrom d) = 2 ^ (D - d) := by
  induction t generalizing d with
  | leaf a => simp [depthsFrom]
  | node l r ihl ihr =>
      have hl : ∀ k ∈ l.depthsFrom (d + 1), k ≤ D := fun k hk => h k (List.mem_append_left _ hk)
      have hr : ∀ k ∈ r.depthsFrom (d + 1), k ≤ D := fun k hk => h k (List.mem_append_right _ hk)
      obtain ⟨k, hk⟩ : ∃ k, k ∈ l.depthsFrom (d + 1) := by
        refine List.exists_mem_of_ne_nil _ fun hnil => ?_
        have hlen := l.length_depthsFrom (d + 1)
        have hsize := l.size_eq
        have hpos := l.size_pos
        rw [hnil, List.length_nil] at hlen
        omega
      have hd : d + 1 ≤ D := Nat.le_trans (le_of_mem_depthsFrom hk) (hl k hk)
      have hpow : D - d = D - (d + 1) + 1 := by omega
      rw [depthsFrom, Kraft.kraft_append, ihl hl, ihr hr, hpow, Nat.pow_succ]
      omega

end CodeTree

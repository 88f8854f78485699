/-
# `Compressly.Lib.TreeHeight` — how deep a tree of merges can be

Where only the two lightest trees are merged, a tree weighs no less than a half
of any other tree there (`Fair`).  This holds again after each merge, and leaves
behind, in the tree of all merges, that each subtree weighs no less than the
halves of its sibling (`Grown`).

So along the deepest path the weights grow like the Fibonacci numbers: a tree of
height `h` weighs at least `fib (h + 2)` times its lightest leaf (`Grown.fib_le`).
-/
import Compressly.Lib.OptimalCode

namespace CodeTree

open OptimalCode

variable {α : Type}

def height : CodeTree α → Nat
  | leaf _ => 0
  | node l r => max l.height r.height + 1

/-- The two halves of a tree; a leaf has none. -/
def halves : CodeTree α → List (CodeTree α)
  | leaf _ => []
  | node l r => [l, r]

theorem le_height {t : CodeTree α} {d k : Nat} (h : k ∈ t.depthsFrom d) : k ≤ d + t.height := by
  induction t generalizing d with
  | leaf _ => exact (List.mem_singleton.mp h).le
  | node l r ihl ihr =>
      rw [height]
      rcases List.mem_append.mp h with h | h
      · have hl := ihl h
        omega
      · have hr := ihr h
        omega

theorem height_mem (t : CodeTree α) (d : Nat) : d + t.height ∈ t.depthsFrom d := by
  induction t generalizing d with
  | leaf _ => exact List.mem_singleton.mpr rfl
  | node l r ihl ihr =>
      rw [height, depthsFrom]
      rcases Nat.le_total l.height r.height with hle | hle
      · rw [Nat.max_eq_right hle, Nat.add_comm r.height, ← Nat.add_assoc]
        exact List.mem_append_right _ (ihr (d + 1))
      · rw [Nat.max_eq_left hle, Nat.add_comm l.height, ← Nat.add_assoc]
        exact List.mem_append_left _ (ihl (d + 1))

section Weights
variable (w : α → Nat)

/-- `t` weighs no less than the halves of `s`. -/
def Fair (s t : CodeTree α) : Prop := ∀ c ∈ s.halves, treeWeight w c ≤ treeWeight w t

/-- Each subtree weighs no less than the halves of its sibling. -/
inductive Grown : CodeTree α → Prop
  | leaf (a : α) : Grown (.leaf a)
  | node {l r : CodeTree α} : Grown l → Grown r → Fair w l r → Fair w r l → Grown (.node l r)

/-- The trees before a merge: each has grown so, and is fair to the others. -/
structure Grove (trees : List (CodeTree α)) : Prop where
  grown : ∀ t ∈ trees, Grown w t
  fair : trees.Pairwise fun s t => Fair w s t ∧ Fair w t s

variable {w}

theorem fair_leaf (a : α) (t : CodeTree α) : Fair w (.leaf a) t := fun _ hc => by cases hc

theorem grove_leaves (as : List α) : Grove w (as.map .leaf) where
  grown t ht := by
    obtain ⟨a, -, rfl⟩ := List.mem_map.mp ht
    exact .leaf a
  fair := by
    rw [List.pairwise_map]
    exact List.pairwise_of_forall fun a b => ⟨fair_leaf a _, fair_leaf b _⟩

theorem Grove.perm {ts ts' : List (CodeTree α)} (h : Grove w ts) (hp : ts'.Perm ts) :
    Grove w ts' where
  grown t ht := h.grown t (hp.subset ht)
  fair := (hp.pairwise_iff fun hab => And.symm hab).mpr h.fair

/-- **The merge of the two lightest** is fair to the rest. -/
theorem Grove.merge {a b : CodeTree α} {ts : List (CodeTree α)} (h : Grove w (a :: b :: ts))
    (hab : treeWeight w a ≤ treeWeight w b) (hb : ∀ t ∈ ts, treeWeight w b ≤ treeWeight w t) :
    Grove w (.node a b :: ts) := by
  obtain ⟨ha, hrest⟩ := List.pairwise_cons.mp h.fair
  obtain ⟨-, hts⟩ := List.pairwise_cons.mp hrest
  refine { grown := fun t ht => ?_, fair := List.pairwise_cons.mpr ⟨fun t ht => ⟨?_, ?_⟩, hts⟩ }
  · rcases List.mem_cons.mp ht with rfl | ht
    · obtain ⟨hfair, hfair'⟩ := ha b List.mem_cons_self
      exact .node (h.grown a (by simp)) (h.grown b (by simp)) hfair hfair'
    · exact h.grown t (by simp [ht])
  · intro c hc
    rcases List.mem_pair.mp hc with rfl | rfl
    · exact hab.trans (hb t ht)
    · exact hb t ht
  · intro c hc
    have hca := (ha t (List.mem_cons_of_mem _ ht)).2 c hc
    rw [treeWeight_node]
    exact hca.trans (Nat.le_add_right _ _)

/-- Along the deepest path: the tree, and the deeper of its halves. -/
theorem Grown.fib_le_both {t : CodeTree α} {c : Nat} (h : Grown w t)
    (hleast : ∀ a ∈ t.leaves, c ≤ w a) :
    c * Nat.fib (t.height + 2) ≤ treeWeight w t ∧
      (t.height ≠ 0 → ∃ u ∈ t.halves, c * Nat.fib (t.height + 1) ≤ treeWeight w u) := by
  induction h with
  | leaf a =>
      refine ⟨?_, fun h0 => absurd rfl h0⟩
      have ha : c ≤ w a := hleast a (by simp [leaves])
      rw [treeWeight, leaves, List.map_singleton, List.sum_singleton]
      exact (Nat.mul_one c).le.trans ha
  | @node l r hl hr hlr hrl ihl ihr =>
      obtain ⟨hweightl, hhalfl⟩ := ihl fun a ha => hleast a (List.mem_append_left _ ha)
      obtain ⟨hweightr, hhalfr⟩ := ihr fun a ha => hleast a (List.mem_append_right _ ha)
      -- the sibling of the deeper half weighs no less than the deeper half of that
      have hboth : ∀ {s s' : CodeTree α}, c * Nat.fib (s.height + 2) ≤ treeWeight w s →
          c * Nat.fib (s'.height + 2) ≤ treeWeight w s' →
          (s.height ≠ 0 → ∃ u ∈ s.halves, c * Nat.fib (s.height + 1) ≤ treeWeight w u) →
          Fair w s s' → c * Nat.fib (s.height + 3) ≤ treeWeight w s + treeWeight w s' := by
        intro s s' hs hs' hhalf hfair
        have hsib : c * Nat.fib (s.height + 1) ≤ treeWeight w s' := by
          by_cases h0 : s.height = 0
          · rw [h0]
            have hone : Nat.fib 1 ≤ Nat.fib (s'.height + 2) := Nat.fib_mono (by omega)
            exact (Nat.mul_le_mul_left c hone).trans hs'
          · obtain ⟨u, hu, hle⟩ := hhalf h0
            exact hle.trans (hfair u hu)
        have hfib : Nat.fib (s.height + 3) = Nat.fib (s.height + 1) + Nat.fib (s.height + 2) :=
          Nat.fib_add_two
        rw [hfib, Nat.mul_add]
        omega
      rw [treeWeight_node, height]
      rcases Nat.le_total l.height r.height with hle | hle
      · rw [Nat.max_eq_right hle]
        refine ⟨?_, fun _ => ⟨r, by simp [halves], hweightr⟩⟩
        rw [Nat.add_comm (treeWeight w l)]
        exact hboth hweightr hweightl hhalfr hrl
      · rw [Nat.max_eq_left hle]
        exact ⟨hboth hweightl hweightr hhalfl hlr, fun _ => ⟨l, by simp [halves], hweightl⟩⟩

theorem Grown.fib_le {t : CodeTree α} {c : Nat} (h : Grown w t)
    (hleast : ∀ a ∈ t.leaves, c ≤ w a) :
    c * Nat.fib (t.height + 2) ≤ treeWeight w t := (h.fib_le_both hleast).1

end Weights

end CodeTree

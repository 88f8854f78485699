/-
# `Compressly.Lib.OptimalCode` — the lengths of an optimal code

A code is a multiset of items, each the weight of a symbol and the length of its
code; it costs the sum of their products and takes the space `∑ 2 ^ -length`.
`Merges W c` says that merging the two smallest weights of `W` over and over
costs `c` in all.  No code for `W` within the unit space costs less
(`Merges.le_cost`):

    exists_longest_first   the smallest weight may be given a longest code
    exists_shorter         the code next to a longest one may be a bit shorter
                           than the two of them, in the space they leave
    exists_siblings        so the two smallest weights are siblings

Where the lengths are given, the heavier symbol is to have the shorter code
(`cost_le_of_sorted`).  A tree is a code by the depths of its leaves (`treeItems`);
merging two trees costs the weight of both (`treeCost_node`).
-/
import Compressly.Lib.CodeTree

namespace OptimalCode

/-- The weight of a symbol and the length of its code. -/
abbrev Item := Nat × Nat

def weights (P : Multiset Item) : Multiset Nat := P.map Prod.fst

def lengths (P : Multiset Item) : Multiset Nat := P.map Prod.snd

def cost (P : Multiset Item) : Nat := (P.map fun p => p.1 * p.2).sum

/-- The space codes of these lengths take. -/
def space (L : Multiset Nat) : ℚ := (L.map fun l => (1 / 2 : ℚ) ^ l).sum

@[simp] theorem weights_cons (p : Item) (P : Multiset Item) :
    weights (p ::ₘ P) = p.1 ::ₘ weights P := Multiset.map_cons ..

@[simp] theorem lengths_cons (p : Item) (P : Multiset Item) :
    lengths (p ::ₘ P) = p.2 ::ₘ lengths P := Multiset.map_cons ..

@[simp] theorem cost_cons (p : Item) (P : Multiset Item) :
    cost (p ::ₘ P) = p.1 * p.2 + cost P := by
  simp [cost]

@[simp] theorem space_cons (l : Nat) (L : Multiset Nat) :
    space (l ::ₘ L) = (1 / 2 : ℚ) ^ l + space L := by
  simp [space]

/-- Counted in units of `2 ^ -D` the space is a natural number. -/
theorem space_eq_div {D : Nat} {L : Multiset Nat} (h : ∀ l ∈ L, l ≤ D) :
    space L = ((L.map fun l => 2 ^ (D - l)).sum : Nat) / 2 ^ D := by
  induction L using Multiset.induction with
  | empty => simp [space]
  | cons l L ih =>
      have hl : l ≤ D := h l (Multiset.mem_cons_self l L)
      have hpow : (1 / 2 : ℚ) ^ l = 2 ^ (D - l) / 2 ^ D := by
        rw [eq_div_iff (by positivity), one_div, inv_pow, inv_mul_eq_div, div_eq_iff (by positivity),
          ← pow_add, Nat.sub_add_cancel hl]
      rw [space_cons, ih fun k hk => h k (Multiset.mem_cons_of_mem hk), hpow, Multiset.map_cons,
        Multiset.sum_cons]
      push_cast
      ring

/-! ## Given lengths -/

/-- Of two ways to hand two lengths to two weights, the heavier weight with the shorter code
costs less. -/
theorem cost_swap {w x l m : Nat} (hw : w ≤ x) (hl : l ≤ m) (P : Multiset Item) :
    cost ((w, m) ::ₘ (x, l) ::ₘ P) ≤ cost ((w, l) ::ₘ (x, m) ::ₘ P) := by
  have h : w * m + x * l ≤ w * l + x * m := mul_add_mul_le_mul_add_mul hw hl
  simp only [cost_cons]
  omega

/-- A weight and a length that occur can be made one item, with the rest of both kept. -/
theorem exists_paired {P : Multiset Item} {w m : Nat} (hw : w ∈ weights P) (hm : m ∈ lengths P) :
    (∃ Q, P = (w, m) ::ₘ Q) ∨ ∃ x l Q, P = (w, l) ::ₘ (x, m) ::ₘ Q := by
  obtain ⟨⟨w', l⟩, hp, rfl⟩ := Multiset.mem_map.mp hw
  obtain ⟨⟨x, m'⟩, hq, rfl⟩ := Multiset.mem_map.mp hm
  obtain ⟨R, rfl⟩ := Multiset.exists_cons_of_mem hp
  rcases Multiset.mem_cons.mp hq with heq | hq
  · left
    rw [heq]
    exact ⟨R, rfl⟩
  · obtain ⟨Q, rfl⟩ := Multiset.exists_cons_of_mem hq
    exact .inr ⟨x, l, Q, rfl⟩

/-- **The rearrangement inequality for codes.**  Items listed with the weights falling and the
lengths rising cost no more than the same weights and lengths in any other combination. -/
theorem cost_le_of_sorted {ps : List Item}
    (hps : ps.Pairwise fun p q => q.1 ≤ p.1 ∧ p.2 ≤ q.2) :
    ∀ {P : Multiset Item}, weights P = weights ps → lengths P = lengths ps → cost ps ≤ cost P := by
  induction ps with
  | nil => exact fun _ _ => Nat.zero_le _
  | cons p ps ih =>
      obtain ⟨w, m⟩ := p
      obtain ⟨hp, hps⟩ := List.pairwise_cons.mp hps
      intro P hw hl
      rw [← Multiset.cons_coe] at hw hl ⊢
      replace hw : weights P = w ::ₘ weights ps := hw
      replace hl : lengths P = m ::ₘ lengths ps := hl
      have hpw : w ∈ weights P := by simp [hw]
      have hpl : m ∈ lengths P := by simp [hl]
      rcases exists_paired hpw hpl with ⟨Q, rfl⟩ | ⟨x, l, Q, rfl⟩
      · have hih := ih hps (by simpa using hw) (by simpa using hl)
        rw [cost_cons, cost_cons]
        exact Nat.add_le_add_left hih _
      · have hw' : weights ((x, l) ::ₘ Q) = weights ps := by
          simpa using hw
        have hl' : lengths ((x, l) ::ₘ Q) = lengths ps := by
          rw [lengths_cons, lengths_cons, Multiset.cons_swap] at hl
          simpa using hl
        -- the other two halves come later in the list
        have hx : x ≤ w := by
          have hmem : x ∈ weights (ps : Multiset Item) := by simp [← hw']
          obtain ⟨q, hq, rfl⟩ := Multiset.mem_map.mp hmem
          exact (hp q hq).1
        have hm : m ≤ l := by
          have hmem : l ∈ lengths (ps : Multiset Item) := by simp [← hl']
          obtain ⟨q, hq, rfl⟩ := Multiset.mem_map.mp hmem
          exact (hp q hq).2
        calc cost ((w, m) ::ₘ ps) ≤ cost ((w, m) ::ₘ (x, l) ::ₘ Q) := by
              rw [cost_cons, cost_cons]
              exact Nat.add_le_add_left (ih hps hw' hl') _
          _ = cost ((x, l) ::ₘ (w, m) ::ₘ Q) := by rw [Multiset.cons_swap]
          _ ≤ cost ((x, m) ::ₘ (w, l) ::ₘ Q) := cost_swap hx hm Q
          _ = cost ((w, l) ::ₘ (x, m) ::ₘ Q) := by rw [Multiset.cons_swap]

/-! ## Merging -/

/-- The smallest weight may be given a longest code. -/
theorem exists_longest_first {P : Multiset Item} {a : Nat} (ha : a ∈ weights P)
    (hmin : ∀ x ∈ weights P, a ≤ x) :
    ∃ m Q, weights P = a ::ₘ weights Q ∧ lengths P = m ::ₘ lengths Q ∧
      (∀ l ∈ lengths Q, l ≤ m) ∧ cost ((a, m) ::ₘ Q) ≤ cost P := by
  obtain ⟨m, hm, hmax⟩ : ∃ m ∈ lengths P, ∀ l ∈ lengths P, l ≤ m := by
    obtain ⟨p, hp, -⟩ := Multiset.mem_map.mp ha
    have hne : (lengths P).toFinset.Nonempty :=
      ⟨p.2, Multiset.mem_toFinset.mpr (Multiset.mem_map_of_mem _ hp)⟩
    obtain ⟨m, hm, hmax⟩ := (lengths P).toFinset.exists_max_image id hne
    exact ⟨m, Multiset.mem_toFinset.mp hm, fun l hl => hmax l (Multiset.mem_toFinset.mpr hl)⟩
  rcases exists_paired ha hm with ⟨Q, rfl⟩ | ⟨x, l, Q, rfl⟩
  · refine ⟨m, Q, weights_cons _ _, lengths_cons _ _, fun l hl => hmax l ?_, le_rfl⟩
    rw [lengths_cons]
    exact Multiset.mem_cons_of_mem hl
  · have hl : l ≤ m := hmax l (by simp)
    have hx : a ≤ x := hmin x (by simp)
    refine ⟨m, (x, l) ::ₘ Q, by simp, ?_, fun k hk => hmax k ?_, cost_swap hx hl Q⟩
    · rw [lengths_cons, lengths_cons, lengths_cons, Multiset.cons_swap]
    · rw [lengths_cons, lengths_cons, Multiset.cons_swap]
      rw [lengths_cons] at hk
      exact Multiset.mem_cons_of_mem hk

/-- In the space of two codes, of which none of the others is longer than the second, there
is room for one that is a bit shorter than the second. -/
theorem exists_shorter {M m : Nat} {L : Multiset Nat} (h : space (M ::ₘ m ::ₘ L) ≤ 1)
    (hm : ∀ l ∈ L, l ≤ m) : ∃ k, m = k + 1 ∧ space (k ::ₘ L) ≤ 1 := by
  rw [space_cons, space_cons, space_eq_div hm] at h
  have hunit : (1 / 2 : ℚ) ^ m = 1 / 2 ^ m := one_div_pow ..
  have hlast : (0 : ℚ) < (1 / 2) ^ M := by positivity
  have hpow : (0 : ℚ) < 2 ^ m := by positivity
  -- the others end on a multiple of the unit, so what the longest takes is rounded up to one
  have hcast : (((L.map fun l => 2 ^ (m - l)).sum + 1 : Nat) : ℚ) < (2 ^ m : Nat) := by
    have hlt : (((L.map fun l => 2 ^ (m - l)).sum : Nat) : ℚ) / 2 ^ m + 1 / 2 ^ m < 1 := by
      rw [← hunit]
      linarith
    rw [← add_div, div_lt_one hpow] at hlt
    push_cast at hlt ⊢
    exact hlt
  have hroom : (L.map fun l => 2 ^ (m - l)).sum + 1 < 2 ^ m := by exact_mod_cast hcast
  cases m with
  | zero => simp at hroom
  | succ k =>
      refine ⟨k, rfl, ?_⟩
      have htwo : (1 / 2 : ℚ) ^ k = 2 / 2 ^ (k + 1) := by
        rw [pow_succ, one_div_pow]
        field_simp
      have hle : (((L.map fun l => 2 ^ (k + 1 - l)).sum + 2 : Nat) : ℚ) ≤ (2 ^ (k + 1) : Nat) := by
        exact_mod_cast hroom
      rw [space_cons, space_eq_div hm, htwo, ← add_div, div_le_one hpow, add_comm]
      push_cast at hle ⊢
      exact hle

/-- The two smallest weights may be taken as one symbol, whose code is a bit shorter. -/
theorem exists_siblings {a b : Nat} {s : Multiset Nat} {P : Multiset Item} (hab : a ≤ b)
    (hb : ∀ x ∈ s, b ≤ x) (hw : weights P = a ::ₘ b ::ₘ s) (hspace : space (lengths P) ≤ 1) :
    ∃ P', weights P' = (a + b) ::ₘ s ∧ space (lengths P') ≤ 1 ∧ cost P' + (a + b) ≤ cost P := by
  have ha : ∀ x ∈ weights P, a ≤ x := by
    intro x hx
    rw [hw] at hx
    rcases Multiset.mem_cons.mp hx with rfl | hx
    · exact le_rfl
    · rcases Multiset.mem_cons.mp hx with rfl | hx
      · exact hab
      · exact hab.trans (hb x hx)
  obtain ⟨M, Q, hwQ, hlQ, hM, hcostQ⟩ := exists_longest_first (by simp [hw]) ha
  have hwQ' : weights Q = b ::ₘ s := by
    rw [hw] at hwQ
    exact ((Multiset.cons_inj_right a).mp hwQ).symm
  obtain ⟨m, R, hwR, hlR, hm, hcostR⟩ := exists_longest_first (P := Q) (a := b) (by simp [hwQ'])
    (by simpa [hwQ'] using hb)
  have hwR' : weights R = s := by
    rw [hwQ'] at hwR
    exact ((Multiset.cons_inj_right b).mp hwR).symm
  rw [hlQ, hlR] at hspace
  obtain ⟨k, rfl, hk⟩ := exists_shorter hspace hm
  have hkM : k + 1 ≤ M := hM _ (by simp [hlR])
  refine ⟨(a + b, k) ::ₘ R, by simp [hwR'], by simpa using hk, ?_⟩
  simp only [cost_cons] at hcostQ hcostR ⊢
  have haM : a * (k + 1) ≤ a * M := Nat.mul_le_mul_left a hkM
  have hsum : (a + b) * k + (a + b) = a * (k + 1) + b * (k + 1) := by ring
  omega

/-- Merging the two smallest of the weights `W` over and over costs `c`: each merge costs the
weight it makes. -/
inductive Merges : Multiset Nat → Nat → Prop
  | single (w : Nat) : Merges {w} 0
  | merge {a b c : Nat} {s : Multiset Nat} : a ≤ b → (∀ x ∈ s, b ≤ x) →
      Merges ((a + b) ::ₘ s) c → Merges (a ::ₘ b ::ₘ s) (a + b + c)

/-- **Huffman's theorem.**  No lengths within the unit space cost less than merging. -/
theorem Merges.le_cost {W : Multiset Nat} {c : Nat} (h : Merges W c) :
    ∀ {P : Multiset Item}, weights P = W → space (lengths P) ≤ 1 → c ≤ cost P := by
  induction h with
  | single w => exact fun _ _ => Nat.zero_le _
  | merge hab hb _ ih =>
      intro P hw hspace
      obtain ⟨P', hw', hspace', hcost⟩ := exists_siblings hab hb hw hspace
      have hle := ih hw' hspace'
      omega

/-! ## Trees -/

section Trees

variable {α : Type} (w : α → Nat)

/-- The weight of all leaves. -/
def treeWeight (t : CodeTree α) : Nat := (t.leaves.map w).sum

/-- The leaves of a tree as items, the root at depth `d`. -/
def treeItems : Nat → CodeTree α → List Item
  | d, .leaf a => [(w a, d)]
  | d, .node l r => treeItems (d + 1) l ++ treeItems (d + 1) r

def treeCost (t : CodeTree α) : Nat := cost (treeItems w 0 t)

theorem weights_treeItems (d : Nat) (t : CodeTree α) :
    weights (treeItems w d t) = (t.leaves.map w : Multiset Nat) := by
  induction t generalizing d with
  | leaf a => rfl
  | node l r ihl ihr =>
      have hl := ihl (d + 1)
      have hr := ihr (d + 1)
      simp only [weights, Multiset.map_coe, Multiset.coe_eq_coe] at hl hr ⊢
      rw [treeItems, CodeTree.leaves, List.map_append, List.map_append]
      exact hl.append hr

theorem lengths_treeItems (d : Nat) (t : CodeTree α) :
    lengths (treeItems w d t) = (t.depthsFrom d : Multiset Nat) := by
  induction t generalizing d with
  | leaf a => rfl
  | node l r ihl ihr =>
      have hl := ihl (d + 1)
      have hr := ihr (d + 1)
      simp only [lengths, Multiset.map_coe, Multiset.coe_eq_coe] at hl hr ⊢
      rw [treeItems, CodeTree.depthsFrom, List.map_append]
      exact hl.append hr

theorem cost_append (ps qs : List Item) :
    cost ((ps ++ qs : List Item) : Multiset Item) = cost ps + cost qs := by
  simp [cost]

@[simp] theorem treeWeight_node (l r : CodeTree α) :
    treeWeight w (.node l r) = treeWeight w l + treeWeight w r := by
  simp [treeWeight, CodeTree.leaves]

/-- Below an edge everything costs its weight once more. -/
theorem cost_treeItems_succ (d : Nat) (t : CodeTree α) :
    cost (treeItems w (d + 1) t) = cost (treeItems w d t) + treeWeight w t := by
  induction t generalizing d with
  | leaf a => simp [treeItems, cost, treeWeight, CodeTree.leaves, Nat.mul_add]
  | node l r ihl ihr =>
      rw [treeItems, treeItems, cost_append, cost_append, ihl, ihr, treeWeight_node]
      omega

@[simp] theorem treeCost_leaf (a : α) : treeCost w (.leaf a) = 0 := by
  simp [treeCost, treeItems, cost]

@[simp] theorem treeCost_node (l r : CodeTree α) :
    treeCost w (.node l r) = treeCost w l + treeCost w r + (treeWeight w l + treeWeight w r) := by
  rw [treeCost, treeItems, cost_append, cost_treeItems_succ, cost_treeItems_succ]
  simp only [treeCost]
  omega

end Trees

end OptimalCode

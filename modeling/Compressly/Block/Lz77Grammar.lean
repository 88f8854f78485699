/-
# `Compressly.Block.Lz77Grammar` — what the dictionary decoder accepts

    stream  =  group*          every group but the last of eight items
    group   =  flags item*     a flag for each item, the first in the highest
                               bit; a copy is 1, a literal is 0
    item    =  byte                              a literal
            |  distance - 1 (2), length - m (1)  a copy

The unused flags of the last group may be anything.  A payload is accepted if
and only if its legal parameters are followed by such a stream, of items within
the window that find their source and that replay to as many bytes as declared;
what is returned is the replay (`decodeLz77_eq_ok_iff`).

The decoder reads an item at a time, whatever group it is in; `Grouped` is what
is still to come of a stream in the middle of a group.
-/
import Compressly.Block.Lz77
import Compressly.Lib.ReplayLoop
import Compressly.Lib.Endian

namespace Compressly.Block

open Bits Parse Loop LZ77 Replay Endian

/-! ## The grammar -/

def isCopy : Item UInt8 → Bool
  | .lit _ => false
  | .copy _ _ => true

/-- The bytes of an item. -/
def spelled (minMatch : Nat) : Item UInt8 → List UInt8
  | .lit b => [b]
  | .copy distance length => leBytes 2 (distance - 1) ++ [UInt8.ofNat (length - minMatch)]

/-- The items the format has bytes for. -/
def Lz77Params.Allows (params : Lz77Params) : Item UInt8 → Prop
  | .lit _ => True
  | .copy distance length => (1 ≤ distance ∧ distance ≤ params.windowSize) ∧
      params.minMatch ≤ length ∧ length ≤ params.minMatch + 255

/-- Groups of eight items, each group behind its flags. -/
inductive Framed (minMatch : Nat) : List (Item UInt8) → List UInt8 → Prop
  | nil : Framed minMatch [] []
  | group {flags : UInt8} {g items : List (Item UInt8)} {body : List UInt8} :
      g ≠ [] → g.length ≤ 8 → (g.length = 8 ∨ items = []) →
      g.map isCopy <+: byteBits flags → Framed minMatch items body →
      Framed minMatch (g ++ items) (flags :: (g.flatMap (spelled minMatch) ++ body))

theorem length_spelled (minMatch : Nat) {i : Item UInt8} (hi : isCopy i) :
    (spelled minMatch i).length = 3 := by
  cases i with
  | lit b => cases hi
  | copy distance length => simp [spelled]

/-! ## One item -/

/-- Three bytes ask for a copy: the distance less one, then the length less the minimum. -/
theorem copyOf_append (params : Lz77Params) (originalSize : Nat) (s : GroupReader)
    {w : List UInt8} (hw : w.length = 2) (third : UInt8) :
    copyOf params originalSize s (w ++ [third])
      = (do
          let out ← copyBack params.windowSize originalSize (leValue w + 1)
            (third.toNat + params.minMatch) s.out
          pure { s with out := out }) := by
  obtain ⟨low, high, rfl⟩ := List.length_eq_two.mp hw
  have hvalue : low.toNat ||| high.toNat <<< 8 = leValue [low, high] := by
    rw [or_shiftLeft_eq_add (show low.toNat < 2 ^ 8 from low.toNat_lt)]
    simp [leValue]
  rw [← hvalue]
  rfl

theorem copyOf_eq_ok_iff {params : Lz77Params} (hwindow : params.windowSize ≤ 2 ^ 16)
    {originalSize : Nat} {s s' : GroupReader} {p : List UInt8} (hp : p.length = 3) :
    copyOf params originalSize s p = .ok s' ↔ ∃ i, isCopy i ∧ p = spelled params.minMatch i ∧
      params.Allows i ∧ i.Reaches s.out.length ∧ s.out.length + i.span ≤ originalSize ∧
      s' = { s with out := play s.out i } := by
  constructor
  · intro h
    obtain ⟨low, high, third, rfl⟩ := List.length_eq_three.mp hp
    rw [show [low, high, third] = [low, high] ++ [third] from rfl, copyOf_append _ _ _ rfl] at h
    obtain ⟨out, hcopy, h⟩ := bind_eq_ok.mp h
    cases h
    obtain ⟨hreach, hle, hspan, rfl⟩ := (copyBack_eq_ok_iff (Nat.succ_pos _)).mp hcopy
    have hthird := third.toNat_lt
    have hbytes := leBytes_leValue [low, high]
    refine ⟨.copy (leValue [low, high] + 1) (third.toNat + params.minMatch), rfl, ?_,
      ⟨⟨Nat.succ_pos _, hle⟩, Nat.le_add_left _ _, by omega⟩, ⟨Nat.succ_pos _, hreach⟩, hspan, rfl⟩
    rw [spelled, Nat.add_sub_cancel, Nat.add_sub_cancel, UInt8.ofNat_toNat]
    exact congrArg (· ++ [third]) hbytes.symm
  · rintro ⟨i, hi, rfl, hallow, hreach, hspan, rfl⟩
    cases i with
    | lit b => cases hi
    | copy distance length =>
        obtain ⟨⟨h0, hle⟩, hlow, hhigh⟩ := hallow
        have hspan : s.out.length + length ≤ originalSize := hspan
        have hvalue : leValue (leBytes 2 (distance - 1)) + 1 = distance := by
          rw [leValue_leBytes, Nat.mod_eq_of_lt (by omega), Nat.sub_add_cancel h0]
        have hthird : (UInt8.ofNat (length - params.minMatch)).toNat + params.minMatch = length := by
          rw [UInt8.toNat_ofNat_of_lt' (by simp only [UInt8.size]; omega), Nat.sub_add_cancel hlow]
        rw [spelled, copyOf_append _ _ _ (length_leBytes 2 _), hvalue, hthird,
          copyBack_eq h0 hreach.2 hle hspan]
        rfl

/-- The refill, on a byte string. -/
def Refilled (s : GroupReader) (w : List UInt8) (s' : GroupReader) : Prop :=
  if s.remainingInGroup = 0 then ∃ flags, w = [flags] ∧ s' = s.openGroup flags
  else w = [] ∧ s' = s

theorem refilled_eq_ok_iff {s s' : GroupReader} {p rest : List UInt8} :
    refilled s p = .ok (s', rest) ↔ ∃ w, Refilled s w s' ∧ p = w ++ rest := by
  unfold refilled Refilled
  split
  case isTrue =>
    cases p with
    | nil =>
        refine ⟨fun h => (by cases h), ?_⟩
        rintro ⟨w, ⟨flags, rfl, -⟩, hp⟩
        cases hp
    | cons flags p =>
        constructor
        · intro h
          cases h
          exact ⟨[flags], ⟨flags, rfl, rfl⟩, rfl⟩
        · rintro ⟨w, ⟨flags, rfl, rfl⟩, hp⟩
          cases hp
          rfl
  case isFalse =>
    constructor
    · intro h
      cases h
      exact ⟨[], ⟨rfl, rfl⟩, rfl⟩
    · rintro ⟨w, ⟨rfl, rfl⟩, hp⟩
      cases hp
      rfl

/-- The item the next flag announces, spelled out. -/
theorem item_eq_ok_iff {params : Lz77Params} (hwindow : params.windowSize ≤ 2 ^ 16)
    {originalSize : Nat} {s s' : GroupReader} (hs : s.out.length < originalSize)
    {p rest : List UInt8} :
    item params originalSize s p = .ok (s', rest) ↔ ∃ i, (isCopy i ↔ s.flags &&& 0x80 ≠ 0) ∧
      p = spelled params.minMatch i ++ rest ∧ params.Allows i ∧ i.Reaches s.out.length ∧
      s.out.length + i.span ≤ originalSize ∧ s' = { s.shift with out := play s.out i } := by
  unfold item
  split
  case isTrue hflag =>
    constructor
    · intro h
      obtain ⟨⟨w, p'⟩, hchunk, h⟩ := bind_eq_ok.mp h
      obtain ⟨s₁, hcopy, h⟩ := bind_eq_ok.mp h
      cases h
      obtain ⟨i, hi, rfl, hallow, hreach, hspan, rfl⟩ :=
        (copyOf_eq_ok_iff hwindow (chunk_length hchunk).1).mp hcopy
      exact ⟨i, iff_of_true hi hflag, (chunk_eq_ok_iff.mp hchunk).2, hallow, hreach, hspan, rfl⟩
    · rintro ⟨i, hi, rfl, hallow, hreach, hspan, rfl⟩
      have hlen := length_spelled params.minMatch (hi.mpr hflag)
      have hcopy := (copyOf_eq_ok_iff (s := s.shift) hwindow hlen).mpr
        ⟨i, hi.mpr hflag, rfl, hallow, hreach, hspan, rfl⟩
      rw [chunk_eq_ok_iff.mpr ⟨hlen, rfl⟩]
      simp only [bind_ok, hcopy]
      rfl
  case isFalse hflag =>
    constructor
    · intro h
      cases p with
      | nil => cases h
      | cons b p =>
          cases h
          exact ⟨.lit b, iff_of_false Bool.false_ne_true hflag, rfl, trivial, trivial, hs, rfl⟩
    · rintro ⟨i, hi, rfl, -, -, -, rfl⟩
      cases i with
      | lit b => rfl
      | copy => exact absurd (hi.mp rfl) hflag

/-! ## The loop -/

/-- An item as a round reads it, behind the flags where a group begins. -/
def lz77Word (params : Lz77Params) (s : GroupReader) (i : Item UInt8) (w : List UInt8)
    (s' : GroupReader) : Prop :=
  ∃ f s₁, Refilled s f s₁ ∧ (isCopy i ↔ s₁.flags &&& 0x80 ≠ 0) ∧ params.Allows i ∧
    w = f ++ spelled params.minMatch i ∧ s' = { s₁.shift with out := play s.out i }

theorem Refilled.out {s s' : GroupReader} {w : List UInt8} (h : Refilled s w s') :
    s'.out = s.out := by
  unfold Refilled at h
  split at h
  · obtain ⟨flags, -, rfl⟩ := h
    rfl
  · rw [h.2]

theorem Lz77Params.Allows.span_pos {params : Lz77Params} (hmin : 1 ≤ params.minMatch)
    {i : Item UInt8} (h : params.Allows i) : 0 < i.span := by
  cases i with
  | lit b => exact Nat.one_pos
  | copy distance length => exact Nat.lt_of_lt_of_le hmin h.2.1

theorem readsItems_round {params : Lz77Params} (hwindow : params.windowSize ≤ 2 ^ 16)
    (hmin : 1 ≤ params.minMatch) (originalSize : Nat) :
    ReadsItems GroupReader.out (lz77Word params) originalSize (round params originalSize) where
  plays := by
    rintro s s' i w ⟨f, s₁, -, -, hallow, -, rfl⟩
    exact ⟨rfl, hallow.span_pos hmin⟩
  round_iff := by
    intro s s' p rest hs
    constructor
    · intro h
      obtain ⟨⟨s₁, p₁⟩, hrefill, hitem⟩ := bind_eq_ok.mp h
      obtain ⟨f, hf, rfl⟩ := refilled_eq_ok_iff.mp hrefill
      have hout := hf.out
      obtain ⟨i, hi, rfl, hallow, hreach, hspan, rfl⟩ :=
        (item_eq_ok_iff hwindow (hout ▸ hs)).mp hitem
      rw [hout] at hreach hspan ⊢
      exact ⟨i, _, ⟨f, s₁, hf, hi, hallow, rfl, rfl⟩, (List.append_assoc _ _ _).symm, hreach, hspan⟩
    · rintro ⟨i, w, ⟨f, s₁, hf, hi, hallow, rfl, rfl⟩, rfl, hreach, hspan⟩
      have hout := hf.out
      rw [← hout] at hreach hspan hs
      have hrefill := refilled_eq_ok_iff.mpr
        ⟨f, hf, List.append_assoc f (spelled params.minMatch i) rest⟩
      rw [round, hrefill, bind_ok, ← hout]
      exact (item_eq_ok_iff hwindow hs).mpr ⟨i, hi, rfl, hallow, hreach, hspan, rfl⟩

/-! ## The groups -/

/-- What is still to come of a stream, in the middle of a group. -/
def Grouped (minMatch : Nat) (s : GroupReader) (items : List (Item UInt8)) (w : List UInt8) :
    Prop :=
  ∃ body, w = (items.take s.remainingInGroup).flatMap (spelled minMatch) ++ body ∧
    Framed minMatch (items.drop s.remainingInGroup) body ∧
    (items.take s.remainingInGroup).map isCopy <+: byteBits s.flags

/-- The next item of a group, and its flag. -/
theorem grouped_succ {minMatch : Nat} {s : GroupReader} {k : Nat} (hs : s.remainingInGroup = k + 1)
    (hk : k + 1 ≤ 8) {i : Item UInt8} {items : List (Item UInt8)} {w : List UInt8} :
    Grouped minMatch s (i :: items) w ↔ (isCopy i ↔ s.flags &&& 0x80 ≠ 0) ∧
      ∃ ws, w = spelled minMatch i ++ ws ∧ Grouped minMatch s.shift items ws := by
  obtain ⟨b, more, hbits⟩ : ∃ b more, byteBits s.flags = b :: more := ⟨_, _, rfl⟩
  have hmore : more.length = 7 := by
    have hlen := length_byteBits s.flags
    rw [hbits, List.length_cons] at hlen
    omega
  have hlen : ((items.take k).map isCopy).length ≤ more.length := by
    rw [List.length_map, hmore]
    exact (List.length_take_le _ _).trans (by omega)
  have hflags : ((i :: items).take (k + 1)).map isCopy <+: byteBits s.flags ↔
      (isCopy i ↔ s.flags &&& 0x80 ≠ 0) ∧
        (items.take k).map isCopy <+: byteBits (s.flags <<< 1) := by
    have hb : isCopy i = b ↔ (isCopy i ↔ s.flags &&& 0x80 ≠ 0) := by
      rw [flag_iff hbits, Bool.eq_iff_iff]
    have hshift : (items.take k).map isCopy <+: more ↔
        (items.take k).map isCopy <+: byteBits (s.flags <<< 1) := by
      rw [byteBits_shift hbits]
      exact ⟨fun h => h.trans (List.prefix_append _ _),
        fun h => List.prefix_of_prefix_length_le h (List.prefix_append _ _) hlen⟩
    rw [hbits, List.take_succ_cons, List.map_cons, List.cons_prefix_cons, hb, hshift]
  have hrest : s.shift.remainingInGroup = k := by
    rw [GroupReader.shift, hs, Nat.add_sub_cancel]
  unfold Grouped
  rw [hs, hrest, hflags, List.take_succ_cons, List.drop_succ_cons, List.flatMap_cons]
  constructor
  · rintro ⟨body, rfl, hbody, hi, hflag⟩
    exact ⟨hi, _, List.append_assoc _ _ _, body, rfl, hbody, hflag⟩
  · rintro ⟨hi, ws, rfl, body, rfl, hbody, hflag⟩
    exact ⟨body, (List.append_assoc _ _ _).symm, hbody, hi, hflag⟩

/-- Where a group is over, the flags of the next one come first. -/
theorem grouped_zero {minMatch : Nat} {s : GroupReader} (hs : s.remainingInGroup = 0)
    {i : Item UInt8} {items : List (Item UInt8)} {w : List UInt8} :
    Grouped minMatch s (i :: items) w ↔
      ∃ flags ws, w = flags :: ws ∧ Grouped minMatch (s.openGroup flags) (i :: items) ws := by
  unfold Grouped
  rw [hs, List.take_zero, List.drop_zero]
  constructor
  · rintro ⟨body, rfl, hbody, -⟩
    generalize hitems : i :: items = all at hbody
    cases hbody with
    | nil => cases hitems
    | @group flags g rest body h0 h8 hfull hflags hrest =>
        have htake : (i :: items).take 8 = g ∧ (i :: items).drop 8 = rest := by
          rw [hitems]
          rcases hfull with hlen | rfl
          · rw [← hlen]
            exact ⟨List.take_left, List.drop_left⟩
          · rw [List.append_nil]
            exact ⟨List.take_of_length_le h8, List.drop_eq_nil_of_le h8⟩
        refine ⟨flags, _, rfl, body, ?_⟩
        have hopen : (s.openGroup flags).remainingInGroup = 8 := rfl
        rw [← hitems, hopen, htake.1, htake.2]
        exact ⟨rfl, hrest, hflags⟩
  · rintro ⟨flags, ws, rfl, body, rfl, hbody, hflags⟩
    refine ⟨_, rfl, ?_, List.nil_prefix⟩
    have hfull : ((i :: items).take 8).length = 8 ∨ (i :: items).drop 8 = [] := by
      rcases Nat.lt_or_ge (i :: items).length 8 with hlt | hge
      · exact .inr (List.drop_eq_nil_of_le hlt.le)
      · exact .inl (List.length_take_of_le hge)
    have hgroup := Framed.group (by simp) (List.length_take_le _ _) hfull hflags hbody
    rw [GroupReader.openGroup, List.take_append_drop] at hgroup
    exact hgroup

/-- The next item of a stream. -/
theorem grouped_cons {minMatch : Nat} {s : GroupReader} (h8 : s.remainingInGroup ≤ 8)
    {i : Item UInt8} {items : List (Item UInt8)} {w : List UInt8} :
    Grouped minMatch s (i :: items) w ↔ ∃ f s₁ ws, Refilled s f s₁ ∧
      (isCopy i ↔ s₁.flags &&& 0x80 ≠ 0) ∧ w = f ++ spelled minMatch i ++ ws ∧
      Grouped minMatch s₁.shift items ws := by
  rcases Nat.eq_zero_or_eq_succ_pred s.remainingInGroup with hs | hs
  · rw [grouped_zero hs]
    constructor
    · rintro ⟨flags, ws, rfl, hgrouped⟩
      obtain ⟨hi, ws, rfl, hrest⟩ := (grouped_succ (k := 7) rfl le_rfl).mp hgrouped
      have hrefill : Refilled s [flags] (s.openGroup flags) := by
        rw [Refilled, if_pos hs]
        exact ⟨flags, rfl, rfl⟩
      exact ⟨[flags], _, ws, hrefill, hi, rfl, hrest⟩
    · rintro ⟨f, s₁, ws, hrefill, hi, rfl, hrest⟩
      rw [Refilled, if_pos hs] at hrefill
      obtain ⟨flags, rfl, rfl⟩ := hrefill
      exact ⟨flags, _, rfl, (grouped_succ (k := 7) rfl le_rfl).mpr ⟨hi, ws, rfl, hrest⟩⟩
  · have hne : s.remainingInGroup ≠ 0 := by
      rw [hs]
      exact Nat.succ_ne_zero _
    rw [grouped_succ hs (hs ▸ h8)]
    constructor
    · rintro ⟨hi, ws, rfl, hrest⟩
      have hrefill : Refilled s [] s := by
        rw [Refilled, if_neg hne]
        exact ⟨rfl, rfl⟩
      exact ⟨[], s, ws, hrefill, hi, rfl, hrest⟩
    · rintro ⟨f, s₁, ws, hrefill, hi, rfl, hrest⟩
      rw [Refilled, if_neg hne] at hrefill
      obtain ⟨rfl, rfl⟩ := hrefill
      exact ⟨hi, ws, rfl, hrest⟩

theorem Refilled.shift_le {s s₁ : GroupReader} {f : List UInt8} (h : Refilled s f s₁)
    (h8 : s.remainingInGroup ≤ 8) : s₁.shift.remainingInGroup ≤ 8 := by
  unfold Refilled at h
  split at h
  · obtain ⟨flags, -, rfl⟩ := h
    exact Nat.sub_le 8 1
  · rw [h.2]
    exact (Nat.sub_le _ 1).trans h8

/-- The items that rounds read one by one are those of the stream. -/
theorem words_iff_grouped {params : Lz77Params} {items : List (Item UInt8)} :
    ∀ {s : GroupReader} {w : List UInt8}, s.remainingInGroup ≤ 8 →
      ((∃ s', Words (lz77Word params) s items w s') ↔
        Grouped params.minMatch s items w ∧ ∀ i ∈ items, params.Allows i) := by
  induction items with
  | nil =>
      intro s w _
      constructor
      · rintro ⟨s', hw⟩
        cases hw
        exact ⟨⟨[], by simp, by simpa using .nil, by simp⟩, by simp⟩
      · rintro ⟨⟨body, rfl, hbody, -⟩, -⟩
        rw [List.drop_nil] at hbody
        generalize hnil : ([] : List (Item UInt8)) = items at hbody
        cases hbody with
        | nil => exact ⟨s, by simpa using .nil⟩
        | group h0 => exact absurd (List.append_eq_nil_iff.mp hnil.symm).1 h0
  | cons i items ih =>
      intro s w h8
      rw [grouped_cons h8, List.forall_mem_cons]
      constructor
      · rintro ⟨s', hw⟩
        cases hw with
        | cons hword hrest =>
            obtain ⟨f, s₁, hrefill, hi, hallow, rfl, rfl⟩ := hword
            have h8' : ({ s₁.shift with out := play s.out i } : GroupReader).remainingInGroup ≤ 8 :=
              hrefill.shift_le h8
            obtain ⟨hgrouped, hall⟩ := (ih h8').mp ⟨s', hrest⟩
            exact ⟨⟨f, s₁, _, hrefill, hi, rfl, hgrouped⟩, hallow, hall⟩
      · rintro ⟨⟨f, s₁, ws, hrefill, hi, rfl, hgrouped⟩, hallow, hall⟩
        have h8' : ({ s₁.shift with out := play s.out i } : GroupReader).remainingInGroup ≤ 8 :=
          hrefill.shift_le h8
        have hnext : Grouped params.minMatch { s₁.shift with out := play s.out i } items ws := hgrouped
        obtain ⟨s', hrest⟩ := (ih h8').mpr ⟨hnext, hall⟩
        exact ⟨s', .cons ⟨f, s₁, hrefill, hi, hallow, rfl, rfl⟩ hrest⟩

theorem grouped_start {minMatch : Nat} {items : List (Item UInt8)} {w : List UInt8} :
    Grouped minMatch {} items w ↔ Framed minMatch items w := by
  constructor
  · rintro ⟨body, rfl, hbody, -⟩
    exact hbody
  · exact fun h => ⟨w, rfl, h, List.nil_prefix⟩

/-! ## The decoder -/

theorem Headed.bounds {payload tail : List UInt8} {params : Lz77Params}
    (h : Headed payload params tail) : params.windowSize ≤ 2 ^ 16 ∧ 1 ≤ params.minMatch := by
  obtain ⟨windowBits, minMatch, ⟨-, hw⟩, ⟨hm, -⟩, rfl, -⟩ := h
  exact ⟨Nat.pow_le_pow_right Nat.two_pos hw, Nat.le_trans (by decide) hm⟩

theorem Headed.minMatch_le {payload tail : List UInt8} {params : Lz77Params}
    (h : Headed payload params tail) : params.minMatch ≤ 8 := by
  obtain ⟨windowBits, minMatch, -, ⟨-, hm⟩, rfl, -⟩ := h
  exact hm

/-- What the decoder accepts, and what it leaves unread. -/
theorem decodeLz77Stream_eq_ok_iff {payload rest : List UInt8} {originalSize : Nat}
    {out : List UInt8} :
    (∃ c, decodeLz77Stream payload originalSize = .ok (out, c) ∧ c.rest = rest) ↔
      ∃ params body items, Headed payload params (body ++ rest) ∧
        Framed params.minMatch items body ∧ (∀ i ∈ items, params.Allows i) ∧
        ReplaysTo items originalSize out := by
  constructor
  · rintro ⟨c, h, rfl⟩
    obtain ⟨⟨params, c₀⟩, hread, h⟩ := bind_eq_ok.mp h
    obtain ⟨⟨s, c₁⟩, hloop, h⟩ := bind_eq_ok.mp h
    cases h
    have hhead := readParams_headed hread
    have hreads := readsItems_round hhead.bounds.1 hhead.bounds.2 originalSize
    have hrun := loop_run (simulates_lz77Round params originalSize) hloop
    obtain ⟨items, body, hwords, hbody, hback, hsum⟩ := (hreads.run_iff (Nat.zero_le _)).mp hrun
    obtain ⟨hgrouped, hallow⟩ := (words_iff_grouped (Nat.zero_le _)).mp ⟨s, hwords⟩
    have hout : s.out = replay [] items := hreads.replays hwords
    refine ⟨params, body, items, hbody ▸ hhead, grouped_start.mp hgrouped, hallow, hback, hout.symm, ?_⟩
    rw [hout, length_replay hback]
    exact hsum
  · rintro ⟨params, body, items, hhead, hframed, hallow, hreplay⟩
    have hreads := readsItems_round hhead.bounds.1 hhead.bounds.2 originalSize
    obtain ⟨s, hwords⟩ := (words_iff_grouped (Nat.zero_le _)).mpr ⟨grouped_start.mpr hframed, hallow⟩
    have hrun : Run (fun s : GroupReader => decide (s.out.length < originalSize))
        (round params originalSize) {} (body ++ rest) s rest :=
      (hreads.run_iff (Nat.zero_le _)).mpr ⟨items, body, hwords, rfl, hreplay.backed,
        (Nat.zero_add _).trans hreplay.sum_span⟩
    obtain ⟨c, hread, hrest⟩ := hhead.readParams
    obtain ⟨c', hloop, hleft⟩ := loop_of_run
      (b := lz77Body params originalSize) (simulates_lz77Round params originalSize) hrun hrest
    have hout : s.out = out := (hreads.replays hwords).trans hreplay.replay
    refine ⟨c', ?_, hleft⟩
    rw [decodeLz77Stream, hread, bind_ok]
    refine (congrArg (fun r => r >>= fun sc => pure (sc.1.out, sc.2)) hloop).trans ?_
    rw [bind_ok, hout]
    rfl

/-- **What `decodeLz77` accepts**, and what it returns. -/
theorem decodeLz77_eq_ok_iff {payload : List UInt8} {originalSize : Nat} {out : List UInt8} :
    decodeLz77 payload originalSize = .ok out ↔
      ∃ params body rest items, Headed payload params (body ++ rest) ∧
        Framed params.minMatch items body ∧ (∀ i ∈ items, params.Allows i) ∧
        ReplaysTo items originalSize out := by
  rw [decodeLz77, map_eq_ok]
  constructor
  · rintro ⟨⟨out', c⟩, h, rfl⟩
    obtain ⟨params, body, items, h⟩ := decodeLz77Stream_eq_ok_iff.mp ⟨c, h, rfl⟩
    exact ⟨params, body, c.rest, items, h⟩
  · rintro ⟨params, body, rest, items, h⟩
    obtain ⟨c, h, -⟩ := decodeLz77Stream_eq_ok_iff.mpr ⟨params, body, items, h⟩
    exact ⟨_, h, rfl⟩

end Compressly.Block

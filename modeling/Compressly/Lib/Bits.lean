/-
# `Compressly.Lib.Bits` — bit strings, most significant bit first

The denotation side of bit-level I/O: a number of known width is the list of
its bits, a byte string is the concatenation of its bytes' bits.  Everything
that shifts, masks or ORs machine words is compared with these lists and with
nothing else, so the layers above never mention a shift again.

`natBits n v` reads only the low `n` bits of `v` (`natBits_congr`), splits at
any midpoint (`natBits_add`), and is injective below `2 ^ n` (`natBits_inj`).
-/
import Mathlib

namespace Bits

/-- The low `n` bits of `v`, most significant of those first. -/
def natBits : Nat → Nat → List Bool
  | 0, _ => []
  | n + 1, v => v.testBit n :: natBits n v

@[simp] theorem natBits_zero (v : Nat) : natBits 0 v = [] := rfl

theorem natBits_succ (n v : Nat) : natBits (n + 1) v = v.testBit n :: natBits n v := rfl

@[simp] theorem length_natBits (n v : Nat) : (natBits n v).length = n := by
  induction n with
  | zero => rfl
  | succ n ih => simp [natBits, ih]

/-- Only the low `n` bits are read. -/
theorem natBits_congr {n a b : Nat} (h : ∀ i < n, a.testBit i = b.testBit i) :
    natBits n a = natBits n b := by
  induction n with
  | zero => rfl
  | succ n ih =>
      rw [natBits_succ, natBits_succ, h n (Nat.lt_succ_self n),
        ih fun i hi => h i (Nat.lt_succ_of_lt hi)]

theorem natBits_mod {n m : Nat} (h : n ≤ m) (v : Nat) : natBits n (v % 2 ^ m) = natBits n v := by
  refine natBits_congr fun i hi => ?_
  have him : i < m := by omega
  simp [Nat.testBit_mod_two_pow, him]

/-- Splitting a number at a midpoint: high bits first. -/
theorem natBits_add (m k v : Nat) : natBits (m + k) v = natBits m (v >>> k) ++ natBits k v := by
  induction m with
  | zero => simp
  | succ m ih =>
      rw [Nat.succ_add, natBits_succ, natBits_succ, ih, Nat.testBit_shiftRight, Nat.add_comm k m]
      rfl

/-- Shifting a number up and ORing `k` fresh bits below it appends those bits. -/
theorem natBits_shiftLeft_or {k m : Nat} (hm : m < 2 ^ k) (n a : Nat) :
    natBits (n + k) (a <<< k ||| m) = natBits n a ++ natBits k m := by
  rw [natBits_add]
  congr 1
  · refine natBits_congr fun i _ => ?_
    have hlow : m.testBit (k + i) = false :=
      Nat.testBit_lt_two_pow (lt_of_lt_of_le hm (Nat.pow_le_pow_right (by omega) (by omega)))
    simp [Nat.testBit_shiftRight, Nat.testBit_or, Nat.testBit_shiftLeft, hlow]
  · refine natBits_congr fun i hi => ?_
    have hik : ¬ k ≤ i := by omega
    simp [Nat.testBit_or, Nat.testBit_shiftLeft, hik]

/-- The low bits of a number shifted up are zeros. -/
theorem natBits_shiftLeft (n k a : Nat) :
    natBits (n + k) (a <<< k) = natBits n a ++ List.replicate k false := by
  have hzero : ∀ k, natBits k 0 = List.replicate k false := by
    intro k
    induction k with
    | zero => rfl
    | succ k ih => rw [natBits_succ, ih, Nat.zero_testBit, List.replicate_succ]
  have h := natBits_shiftLeft_or (m := 0) (k := k) (Nat.two_pow_pos k) n a
  rwa [Nat.or_zero, hzero] at h

/-- The number a bit string spells. -/
def ofBits (bs : List Bool) : Nat := bs.foldl (fun v b => 2 * v + b.toNat) 0

@[simp] theorem ofBits_nil : ofBits [] = 0 := rfl

theorem ofBits_append_singleton (bs : List Bool) (b : Bool) :
    ofBits (bs ++ [b]) = 2 * ofBits bs + b.toNat := by
  simp [ofBits]

theorem ofBits_lt (bs : List Bool) : ofBits bs < 2 ^ bs.length := by
  induction bs using List.reverseRecOn with
  | nil => simp
  | append_singleton bs b ih =>
      rw [ofBits_append_singleton, List.length_append, List.length_singleton, Nat.pow_succ]
      have hb : b.toNat ≤ 1 := Bool.toNat_le b
      omega

theorem natBits_snoc (n v : Nat) : natBits (n + 1) v = natBits n (v / 2) ++ [v.testBit 0] := by
  rw [natBits_add n 1 v, Nat.shiftRight_one]
  rfl

/-- Spelling out the low `n` bits of `v` and reading them back. -/
theorem ofBits_natBits (n v : Nat) : ofBits (natBits n v) = v % 2 ^ n := by
  induction n generalizing v with
  | zero => simp [Nat.mod_one]
  | succ n ih =>
      rw [natBits_snoc, ofBits_append_singleton, ih, Nat.testBit_zero, Nat.pow_succ',
        Nat.mod_mul]
      have hbit : (decide (v % 2 = 1)).toNat = v % 2 := by
        rcases Nat.mod_two_eq_zero_or_one v with h | h <;> simp [h]
      omega

/-- Reading a bit string and spelling it out again. -/
theorem natBits_ofBits (bs : List Bool) : natBits bs.length (ofBits bs) = bs := by
  induction bs using List.reverseRecOn with
  | nil => rfl
  | append_singleton bs b ih =>
      have hhalf : (2 * ofBits bs + b.toNat) / 2 = ofBits bs := by
        have hb : b.toNat ≤ 1 := Bool.toNat_le b
        omega
      have hlow : (2 * ofBits bs + b.toNat).testBit 0 = b := by
        cases b <;> simp [Nat.testBit_zero, Nat.add_mod]
      rw [List.length_append, List.length_singleton, ofBits_append_singleton, natBits_snoc, hhalf,
        ih, hlow]

theorem natBits_inj {n a b : Nat} (ha : a < 2 ^ n) (hb : b < 2 ^ n)
    (h : natBits n a = natBits n b) : a = b := by
  have := congrArg ofBits h
  rwa [ofBits_natBits, ofBits_natBits, Nat.mod_eq_of_lt ha, Nat.mod_eq_of_lt hb] at this

/-- If one spelling is a prefix of another, the longer number lies in the block of
numbers that begin with the shorter one. -/
theorem shiftRight_eq_of_prefix {n m a b : Nat} (hnm : n ≤ m) (ha : a < 2 ^ n) (hb : b < 2 ^ m)
    (h : natBits n a <+: natBits m b) : b >>> (m - n) = a := by
  obtain ⟨k, rfl⟩ := Nat.exists_eq_add_of_le hnm
  rw [natBits_add] at h
  have heq : natBits n a = natBits n (b >>> k) :=
    List.prefix_of_prefix_length_le h (List.prefix_append _ _) (by simp) |>.eq_of_length (by simp)
  have hlt : b >>> k < 2 ^ n := by
    rw [Nat.shiftRight_eq_div_pow]
    exact Nat.div_lt_of_lt_mul (by rwa [Nat.pow_add, Nat.mul_comm] at hb)
  rw [Nat.add_sub_cancel_left]
  exact (natBits_inj ha hlt heq).symm

/-! ## Byte strings -/

/-- A byte as eight bits. -/
def byteBits (b : UInt8) : List Bool := natBits 8 b.toNat

@[simp] theorem length_byteBits (b : UInt8) : (byteBits b).length = 8 := length_natBits 8 _

/-- A byte string as its bits, in order. -/
def bytesBits (bs : List UInt8) : List Bool := bs.flatMap byteBits

@[simp] theorem bytesBits_nil : bytesBits [] = [] := rfl

@[simp] theorem bytesBits_cons (b : UInt8) (bs : List UInt8) :
    bytesBits (b :: bs) = byteBits b ++ bytesBits bs := rfl

@[simp] theorem bytesBits_append (as bs : List UInt8) :
    bytesBits (as ++ bs) = bytesBits as ++ bytesBits bs :=
  List.flatMap_append

@[simp] theorem length_bytesBits (bs : List UInt8) : (bytesBits bs).length = 8 * bs.length := by
  induction bs with
  | nil => rfl
  | cons b bs ih => simp [ih]; omega

/-- The byte a word's low eight bits make. -/
theorem byteBits_ofNat (v : Nat) : byteBits (UInt8.ofNat (v &&& 0xFF)) = natBits 8 v := by
  have hand : v &&& 0xFF = v % 2 ^ 8 := Nat.and_two_pow_sub_one_eq_mod v 8
  rw [byteBits, hand, UInt8.toNat_ofNat', Nat.mod_mod, natBits_mod le_rfl]

theorem byteBits_inj {a b : UInt8} (h : byteBits a = byteBits b) : a = b :=
  UInt8.toNat_inj.mp (natBits_inj a.toNat_lt b.toNat_lt h)

/-- A byte string whose bits begin with those of `as` begins with `as`. -/
theorem exists_append_of_bytesBits {as bs : List UInt8} {rest : List Bool}
    (h : bytesBits bs = bytesBits as ++ rest) : ∃ cs, bs = as ++ cs ∧ bytesBits cs = rest := by
  induction as generalizing bs with
  | nil => exact ⟨bs, rfl, h⟩
  | cons a as ih =>
      cases bs with
      | nil =>
          have hlen := congrArg List.length h
          simp at hlen
          omega
      | cons b bs =>
          rw [bytesBits_cons, bytesBits_cons, List.append_assoc] at h
          obtain ⟨hbyte, htail⟩ := List.append_inj h (by simp)
          obtain ⟨cs, rfl, hcs⟩ := ih htail
          exact ⟨cs, by rw [byteBits_inj hbyte, List.cons_append], hcs⟩

end Bits

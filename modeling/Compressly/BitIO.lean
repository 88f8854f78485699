/-
# `Compressly.BitIO` — the bit writer and the bit reader

`BitWriter` packs bits most significant first through a 64-bit accumulator
whose consumed bits are never cleared: they are shifted upwards until the
word drops them.  Only the low `nbits` bits of it mean anything, and
`BitWriter.bits` reads no others.  `BitReader` refills a byte at a time.

Both are compared with plain bit strings:

    writer    denotes    the bytes written, then the pending low bits
    reader    denotes    the pending low bits, then the bytes not yet read

`writeBits` appends the `count` low bits of its value (`writeBits_bits`),
`flush` pads with zeros to a byte boundary (`bytesBits_flush`), and `readBit`
takes the first bit or throws `CorruptInput` when there is none
(`reads_readBit`).  `Reads f g` says that the reader function `f` does to the
reader what the bit-string parser `g` does to its bits; it composes, so every
decoder above is compared with a parser once.
-/
import Compressly.Format
import Compressly.Lib.Bits
import Compressly.Lib.Parse

namespace Compressly

open Bits Parse

/-! ## Writing -/

theorem noBits_lt : 0 < 8 := by decide

structure BitWriter where
  out : List UInt8
  /-- Pending bits, right-aligned in the low `nbits` positions of 64. -/
  acc : Nat := 0
  nbits : Nat := 0
  /-- A 64-bit count. -/
  written : Nat := 0
  nbits_lt : nbits < 8 := by exact noBits_lt

namespace BitWriter

/-- `while (nbits_ >= 8)`: whole bytes leave the accumulator. -/
def drain (acc : Nat) (out : List UInt8) (nbits : Nat) : List UInt8 × Nat :=
  if 8 ≤ nbits then
    drain acc (out ++ [UInt8.ofNat ((acc >>> (nbits - 8)) &&& 0xFF)]) (nbits - 8)
  else (out, nbits)
termination_by nbits

theorem drain_lt (acc : Nat) (out : List UInt8) (nbits : Nat) : (drain acc out nbits).2 < 8 := by
  fun_induction drain acc out nbits with
  | case1 _ _ _ ih => exact ih
  | case2 _ _ h => exact Nat.lt_of_not_le h

/-- Writes the low `count` bits of `value`, most significant of those first;
`value` is a `std::uint32_t` and `count` is in `[0, 32]`. -/
def writeBits (w : BitWriter) (value count : Nat) : BitWriter :=
  if count = 0 then w
  else
    let value := value % 2 ^ 32
    let masked := if 32 ≤ count then value else value &&& (2 ^ count - 1)
    let acc := u64 (w.acc <<< count) ||| masked
    let drained := drain acc w.out (w.nbits + count)
    { out := drained.1
      acc := acc
      nbits := drained.2
      written := u64 (w.written + count)
      nbits_lt := drain_lt _ _ _ }

def flush (w : BitWriter) : BitWriter :=
  if 0 < w.nbits then
    { w with
      out := w.out ++ [UInt8.ofNat (u64 (w.acc <<< (8 - w.nbits)) &&& 0xFF)]
      acc := 0
      nbits := 0
      nbits_lt := by decide }
  else w

/-- Bits written since construction, padding excluded. -/
def bitsWritten (w : BitWriter) : Nat := w.written

/-- The bit string a writer has been given so far. -/
def bits (w : BitWriter) : List Bool := bytesBits w.out ++ natBits w.nbits w.acc

theorem drain_bits (acc : Nat) (out : List UInt8) (nbits : Nat) :
    bytesBits (drain acc out nbits).1 ++ natBits (drain acc out nbits).2 acc
      = bytesBits out ++ natBits nbits acc := by
  fun_induction drain acc out nbits with
  | case1 out nbits h ih =>
      have hsplit : natBits nbits acc = natBits 8 (acc >>> (nbits - 8)) ++ natBits (nbits - 8) acc := by
        rw [← natBits_add, Nat.add_sub_cancel' h]
      rw [ih, bytesBits_append, bytesBits_cons, bytesBits_nil, List.append_nil, byteBits_ofNat,
        List.append_assoc, ← hsplit]
  | case2 => rfl

/-- The accumulator after a write: stale bits above the word are lost, the
pending bits and the new ones are kept. -/
theorem natBits_acc {n count : Nat} (hn : n < 8) (hcount : count ≤ 32) (acc value : Nat) :
    natBits (n + count) (u64 (acc <<< count) |||
        (if 32 ≤ count then value % 2 ^ 32 else value % 2 ^ 32 &&& (2 ^ count - 1)))
      = natBits n acc ++ natBits count value := by
  have hmasked : (if 32 ≤ count then value % 2 ^ 32 else value % 2 ^ 32 &&& (2 ^ count - 1))
      = value % 2 ^ count := by
    split
    · have hc : count = 32 := by omega
      rw [hc]
    · rw [Nat.and_two_pow_sub_one_eq_mod, Nat.mod_mod_of_dvd _ (Nat.pow_dvd_pow 2 hcount)]
  have hword : natBits (n + count) (u64 (acc <<< count) ||| value % 2 ^ count)
      = natBits (n + count) (acc <<< count ||| value % 2 ^ count) := by
    refine natBits_congr fun i hi => ?_
    have hi64 : i < 64 := by omega
    rw [Nat.testBit_or, Nat.testBit_or, u64, Nat.testBit_mod_two_pow]
    simp [hi64]
  rw [hmasked, hword, natBits_shiftLeft_or (Nat.mod_lt _ (Nat.two_pow_pos count)),
    natBits_mod le_rfl]

/-- A write appends the low `count` bits of `value`, whatever lies above them. -/
theorem writeBits_bits (w : BitWriter) {count : Nat} (hcount : count ≤ 32) (value : Nat) :
    (w.writeBits value count).bits = w.bits ++ natBits count value := by
  unfold writeBits
  split
  case isTrue h => simp [h]
  case isFalse h =>
    show bytesBits (drain _ w.out (w.nbits + count)).1
        ++ natBits (drain _ w.out (w.nbits + count)).2 _ = _
    rw [drain_bits, natBits_acc w.nbits_lt hcount, bits, List.append_assoc]

/-- Flushing pads the last byte with zeros, fewer than eight of them. -/
theorem bytesBits_flush (w : BitWriter) :
    bytesBits w.flush.out = w.bits ++ List.replicate ((8 - w.nbits) % 8) false := by
  have hlt := w.nbits_lt
  unfold flush bits
  split
  case isTrue h =>
    have hmod : (8 - w.nbits) % 8 = 8 - w.nbits := Nat.mod_eq_of_lt (by omega)
    have hbyte : natBits 8 (u64 (w.acc <<< (8 - w.nbits)))
        = natBits w.nbits w.acc ++ List.replicate (8 - w.nbits) false := by
      rw [u64, natBits_mod (by decide), ← natBits_shiftLeft, Nat.add_sub_cancel' (by omega)]
    simp only [bytesBits_append, bytesBits_cons, bytesBits_nil, List.append_nil]
    rw [byteBits_ofNat, hbyte, hmod, List.append_assoc]
  case isFalse h =>
    have hzero : w.nbits = 0 := by omega
    simp [hzero]

/-- What a flushed writer has appended to `out`: the bits it was given, padded. -/
theorem flush_spec {w : BitWriter} {out : List UInt8} {given : List Bool}
    (h : w.bits = bytesBits out ++ given) :
    ∃ body pad, w.flush.out = out ++ body ∧ pad < 8 ∧
      bytesBits body = given ++ List.replicate pad false ∧ body.length = (given.length + 7) / 8 := by
  have hflush := bytesBits_flush w
  rw [h, List.append_assoc] at hflush
  obtain ⟨body, hout, hbody⟩ := exists_append_of_bytesBits hflush
  have hpad : (8 - w.nbits) % 8 < 8 := Nat.mod_lt _ (by decide)
  have hlen := congrArg List.length hbody
  rw [length_bytesBits, List.length_append, List.length_replicate] at hlen
  exact ⟨body, _, hout, hpad, hbody, by omega⟩

/-- The writes of one run of the writer, one `(value, count)` pair each. -/
def writeAll (w : BitWriter) (writes : List (Nat × Nat)) : BitWriter :=
  writes.foldl (fun w vc => w.writeBits vc.1 vc.2) w

theorem writeAll_bits (writes : List (Nat × Nat)) (h : ∀ vc ∈ writes, vc.2 ≤ 32)
    (w : BitWriter) :
    (w.writeAll writes).bits = w.bits ++ writes.flatMap fun vc => natBits vc.2 vc.1 := by
  induction writes generalizing w with
  | nil => simp [writeAll]
  | cons vc writes ih =>
      have hrest := ih (fun vc' h' => h vc' (List.mem_cons_of_mem _ h')) (w.writeBits vc.1 vc.2)
      rw [writeBits_bits w (h vc List.mem_cons_self)] at hrest
      rw [List.flatMap_cons, ← List.append_assoc]
      exact hrest

end BitWriter

/-! ## Reading -/

structure BitReader where
  data : List UInt8
  pos : Nat := 0
  acc : Nat := 0
  nbits : Nat := 0

namespace BitReader

def refill (r : BitReader) : Result BitReader := do
  if r.data.length ≤ r.pos then throw (.corruptInput "bit stream ended early")
  let byte ← fetch r.data r.pos
  pure { r with pos := r.pos + 1, acc := byte.toNat, nbits := 8 }

/-- Reads one bit; the source's `int` 0 or 1 as a `Bool`. -/
def readBit (r : BitReader) : Result (Bool × BitReader) := do
  let r ← if r.nbits = 0 then r.refill else pure r
  let nbits := r.nbits - 1
  pure (r.acc.testBit nbits, { r with nbits := nbits })

/-- The loop of `readBits`, with the value read so far. -/
def readBitsLoop (value : Nat) : Nat → BitReader → Result (Nat × BitReader)
  | 0, r => pure (value, r)
  | count + 1, r => do
      let (bit, r) ← r.readBit
      readBitsLoop ((value <<< 1 ||| bit.toNat) % 2 ^ 32) count r

/-- Reads `count` bits, most significant first. -/
def readBits (count : Nat) (r : BitReader) : Result (Nat × BitReader) := readBitsLoop 0 count r

/-- The bits a reader has not handed out yet. -/
def bits (r : BitReader) : List Bool := natBits r.nbits r.acc ++ bytesBits (r.data.drop r.pos)

/-- How many those are, as the loops over a reader count down. -/
def remaining (r : BitReader) : Nat := r.nbits + 8 * (r.data.length - r.pos)

theorem length_bits (r : BitReader) : r.bits.length = r.remaining := by
  simp [bits, remaining]

theorem readBit_of_nil {r : BitReader} (h : r.bits = []) :
    r.readBit = .error (.corruptInput "bit stream ended early") := by
  have hlen := length_bits r
  rw [h, List.length_nil, remaining] at hlen
  have hnbits : r.nbits = 0 := by omega
  have hpos : r.data.length ≤ r.pos := by omega
  simp [readBit, refill, hnbits, hpos]

theorem readBit_of_cons {r : BitReader} {b : Bool} {bs : List Bool} (h : r.bits = b :: bs) :
    ∃ r', r.readBit = .ok (b, r') ∧ r'.bits = bs := by
  rcases Nat.eq_zero_or_pos r.nbits with hzero | hpos
  · -- the accumulator is empty: the bit is the first of a fresh byte
    have hbits : r.bits = bytesBits (r.data.drop r.pos) := by simp [bits, hzero]
    have hlt : r.pos < r.data.length := by
      by_contra hge
      rw [hbits, List.drop_eq_nil_of_le (Nat.le_of_not_lt hge)] at h
      cases h
    have hdrop : r.data.drop r.pos = r.data[r.pos] :: r.data.drop (r.pos + 1) :=
      List.drop_eq_getElem_cons hlt
    rw [hbits, hdrop, bytesBits_cons, byteBits, natBits_succ, List.cons_append] at h
    obtain ⟨hb, hbs⟩ := List.cons.inj h
    refine ⟨{ r with pos := r.pos + 1, acc := r.data[r.pos].toNat, nbits := 7 }, ?_, hbs⟩
    simp [readBit, refill, hzero, Nat.not_le.mpr hlt, fetch_of_lt hlt, hb]
  · -- the bit is the highest pending one
    obtain ⟨n, hn⟩ : ∃ n, r.nbits = n + 1 := ⟨r.nbits - 1, by omega⟩
    rw [bits, hn, natBits_succ, List.cons_append] at h
    obtain ⟨hb, hbs⟩ := List.cons.inj h
    exact ⟨{ r with nbits := n }, by simp [readBit, hn, hb], hbs⟩

/-- Every bit read brings a loop over the reader closer to its end. -/
theorem readBit_remaining {r r' : BitReader} {b : Bool} (h : r.readBit = .ok (b, r')) :
    r'.remaining < r.remaining := by
  cases hbits : r.bits with
  | nil =>
      rw [readBit_of_nil hbits] at h
      cases h
  | cons b' bs =>
      obtain ⟨r'', hr, hbs⟩ := readBit_of_cons hbits
      rw [hr] at h
      cases h
      have h1 := length_bits r
      have h2 := length_bits r'
      rw [hbits, List.length_cons] at h1
      rw [hbs] at h2
      omega

end BitReader

/-! ## Readers as parsers of bit strings -/

/-- `f` does to a reader what `g` does to the bits it denotes. -/
abbrev Reads {α : Type} (f : BitReader → Result (α × BitReader)) (g : Parser Error Bool α) :
    Prop :=
  Simulates BitReader.bits f g

section Reads

theorem reads_readBit :
    Reads BitReader.readBit (token (.corruptInput "bit stream ended early")) := by
  intro r
  cases hbits : r.bits with
  | nil => rw [BitReader.readBit_of_nil hbits]; rfl
  | cons b bs =>
      obtain ⟨r', hr, hbs⟩ := BitReader.readBit_of_cons hbits
      rw [hr, map_ok, hbs]
      rfl

/-- The parser `readBits` is: a number spelled in the next `count` bits. -/
def number : Nat → Nat → Parser Error Bool Nat
  | value, 0 => fun bs => .ok (value, bs)
  | value, count + 1 => fun bs =>
      token (.corruptInput "bit stream ended early") bs >>= fun ar =>
        number ((value <<< 1 ||| ar.1.toNat) % 2 ^ 32) count ar.2

theorem reads_readBits (count : Nat) : Reads (BitReader.readBits count) (number 0 count) := by
  suffices h : ∀ value, Reads (BitReader.readBitsLoop value count) (number value count) from h 0
  induction count with
  | zero => exact fun value => simulates_pure _ value
  | succ count ih =>
      exact fun value => reads_readBit.bind fun bit => ih ((value <<< 1 ||| bit.toNat) % 2 ^ 32)

theorem stable_number (value count : Nat) : Stable (number value count) := by
  induction count generalizing value with
  | zero => exact stable_pure value
  | succ count ih =>
      exact (stable_token _).bind fun bit => ih ((value <<< 1 ||| bit.toNat) % 2 ^ 32)

theorem shrinks_number (value count : Nat) : Shrinks (number value count) := by
  induction count generalizing value with
  | zero => exact shrinks_pure value
  | succ count ih =>
      intro p a rest h
      cases p with
      | nil => cases h
      | cons b p => exact Nat.le_succ_of_le (ih _ _ _ _ h)

/-- A number is read, or the bits run out. -/
theorem number_decodes (count : Nat) (bs : List Bool) :
    Decodes (number 0 count bs) fun ar => ar.1 < 2 ^ count ∧ ar.2.length ≤ bs.length := by
  suffices h : ∀ (value : Nat) (bs : List Bool), Decodes (number value count bs) fun ar =>
      ar.1 < (value + 1) * 2 ^ count ∧ ar.2.length ≤ bs.length by
    simpa only [Nat.zero_add, Nat.one_mul] using h 0 bs
  induction count with
  | zero => exact fun value bs => ⟨by simp, le_rfl⟩
  | succ count ih =>
      intro value bs
      cases bs with
      | nil => trivial
      | cons b bs =>
          refine (ih _ bs).mono fun ar h => ⟨lt_of_lt_of_le h.1 ?_, Nat.le_succ_of_le h.2⟩
          have hbit : value <<< 1 ||| b.toNat ≤ 2 * value + 1 := by
            rw [Nat.or_comm, or_shiftLeft_eq_add (by simpa using Bool.toNat_lt b)]
            have := Bool.toNat_le b
            omega
          have hword := Nat.mod_le (value <<< 1 ||| b.toNat) (2 ^ 32)
          calc ((value <<< 1 ||| b.toNat) % 2 ^ 32 + 1) * 2 ^ count
              ≤ ((value + 1) * 2) * 2 ^ count := Nat.mul_le_mul_right _ (by omega)
            _ = (value + 1) * 2 ^ (count + 1) := by rw [Nat.pow_succ', Nat.mul_assoc]

/-- Reading back `count` bits that were written from `value`. -/
theorem number_natBits {count : Nat} (hcount : count ≤ 32) (value : Nat) (rest : List Bool) :
    number 0 count (natBits count value ++ rest) = .ok (value % 2 ^ count, rest) := by
  -- after `k` of the bits, the value is what those `k` bits spell
  suffices h : ∀ n k : Nat, k + n ≤ 32 → ∀ hi, hi < 2 ^ k →
      number hi n (natBits n value ++ rest) = .ok (hi * 2 ^ n + value % 2 ^ n, rest) by
    simpa using h count 0 (by omega) 0 (by decide)
  intro n
  induction n with
  | zero =>
      intro k _ hi _
      simp [number, Nat.mod_one]
  | succ n ih =>
      intro k hk hi hhi
      have hshift : hi <<< 1 ||| (value.testBit n).toNat = 2 * hi + (value.testBit n).toNat := by
        rw [Nat.or_comm, or_shiftLeft_eq_add (by simpa using Bool.toNat_lt _)]
        omega
      have hsmall : 2 * hi + (value.testBit n).toNat < 2 ^ (k + 1) := by
        have := Bool.toNat_le (value.testBit n)
        rw [Nat.pow_succ]
        omega
      have hword : (2 * hi + (value.testBit n).toNat) % 2 ^ 32
          = 2 * hi + (value.testBit n).toNat :=
        Nat.mod_eq_of_lt (lt_of_lt_of_le hsmall (Nat.pow_le_pow_right (by decide) (by omega)))
      have hmod : value % 2 ^ (n + 1) = (value.testBit n).toNat * 2 ^ n + value % 2 ^ n := by
        rw [Nat.pow_succ, Nat.mod_mul, Nat.toNat_testBit]
        ring
      rw [number, natBits_succ, List.cons_append]
      show number ((hi <<< 1 ||| (value.testBit n).toNat) % 2 ^ 32) n (natBits n value ++ rest) = _
      rw [hshift, hword, ih (k + 1) (by omega) _ hsmall, hmod]
      congr 2
      ring

/-- What `readBits` reads: the spelling of a number that fits. -/
theorem number_eq_ok_iff {count : Nat} (hcount : count ≤ 32) {x : Nat} {bs rest : List Bool} :
    number 0 count bs = .ok (x, rest) ↔ x < 2 ^ count ∧ bs = natBits count x ++ rest := by
  constructor
  · intro h
    have hsplit : ∀ (count value : Nat) (bs : List Bool), number value count bs = .ok (x, rest) →
        ∃ w, w.length = count ∧ bs = w ++ rest := by
      intro count
      induction count with
      | zero =>
          intro value bs h
          cases h
          exact ⟨[], rfl, rfl⟩
      | succ count ih =>
          intro value bs h
          cases bs with
          | nil => cases h
          | cons b bs =>
              obtain ⟨w, hw, rfl⟩ := ih _ _ h
              exact ⟨b :: w, congrArg Nat.succ hw, rfl⟩
    obtain ⟨w, rfl, rfl⟩ := hsplit count 0 bs h
    have hread := number_natBits hcount (ofBits w) rest
    rw [natBits_ofBits, h] at hread
    cases hread
    exact ⟨Nat.mod_lt _ (Nat.two_pow_pos _), by rw [natBits_mod le_rfl, natBits_ofBits]⟩
  · rintro ⟨hx, rfl⟩
    rw [number_natBits hcount, Nat.mod_eq_of_lt hx]

end Reads

end Compressly

/-
# `Compressly.BitIO.RoundTrip` — what is written is read back

A run of the writer is a list of `(value, count)` pairs; a value may carry bits
above its `count`.  Once flushed, the run has appended

    the low bits of the values, in order, then zeros up to a whole byte

A reader over these bytes that is asked for the same counts returns each value
modulo `2 ^ count`, then the zeros, and throws `CorruptInput` at the first bit
after them and not before (`writes_read_back`).

`bitsWritten` is a 64-bit word: it is the number of bits written modulo `2 ^ 64`
(`writeAll_written`), and short of it from `2 ^ 64` bits on (`bitsWritten_wraps`).
-/
import Compressly.BitIO

namespace Compressly

open Bits Parse

/-- How many bits a run of writes writes. -/
def totalBits (writes : List (Nat × Nat)) : Nat := (writes.map Prod.snd).sum

/-- Those bits. -/
def spelling (writes : List (Nat × Nat)) : List Bool :=
  writes.flatMap fun vc => natBits vc.2 vc.1

/-- The zeros that complete the last byte. -/
def padding (writes : List (Nat × Nat)) : Nat := 8 * ((totalBits writes + 7) / 8) - totalBits writes

theorem totalBits_cons (vc : Nat × Nat) (writes : List (Nat × Nat)) :
    totalBits (vc :: writes) = vc.2 + totalBits writes := by
  rw [totalBits, List.map_cons, List.sum_cons, totalBits]

theorem length_spelling (writes : List (Nat × Nat)) :
    (spelling writes).length = totalBits writes := by
  induction writes with
  | nil => rfl
  | cons vc writes ih =>
      rw [spelling] at ih
      rw [spelling, List.flatMap_cons, List.length_append, length_natBits, ih, totalBits_cons]

/-! ## The counter -/

namespace BitWriter

theorem writeBits_written {w : BitWriter} (hw : w.written < 2 ^ 64) (value count : Nat) :
    (w.writeBits value count).written = u64 (w.written + count) := by
  unfold writeBits
  split
  case isTrue h => rw [h, Nat.add_zero, u64_of_lt hw]
  case isFalse => rfl

theorem flush_written (w : BitWriter) : w.flush.written = w.written := by
  unfold flush
  split <;> rfl

/-- The counter after a run: it never counts the padding. -/
theorem writeAll_written (writes : List (Nat × Nat)) :
    ∀ {w : BitWriter}, w.written < 2 ^ 64 →
      (w.writeAll writes).written = u64 (w.written + totalBits writes) := by
  induction writes with
  | nil =>
      intro w hw
      exact (u64_of_lt hw).symm
  | cons vc writes ih =>
      intro w hw
      have hfirst := writeBits_written hw vc.1 vc.2
      have hlt : (w.writeBits vc.1 vc.2).written < 2 ^ 64 := by
        rw [hfirst]
        exact Nat.mod_lt _ (by decide)
      have hrest := ih hlt
      rw [hfirst, u64, u64, Nat.mod_add_mod, Nat.add_assoc, ← totalBits_cons] at hrest
      exact hrest

end BitWriter

/-! ## Reading with the same counts -/

namespace BitReader

/-- One `readBits` for each count. -/
def readAll : List Nat → BitReader → Result (List Nat × BitReader)
  | [], r => pure ([], r)
  | count :: counts, r => do
      let (value, r) ← r.readBits count
      let (values, r) ← readAll counts r
      pure (value :: values, r)

/-- `readBit`, `n` times. -/
def readBitTimes : Nat → BitReader → Result (List Bool × BitReader)
  | 0, r => pure ([], r)
  | n + 1, r => do
      let (bit, r) ← r.readBit
      let (bits, r) ← readBitTimes n r
      pure (bit :: bits, r)

end BitReader

/-- The numbers spelled at the front of a bit string, of the given widths. -/
def numbers : List Nat → Parser Error Bool (List Nat)
  | [] => fun bs => .ok ([], bs)
  | count :: counts => fun bs =>
      number 0 count bs >>= fun ar => numbers counts ar.2 >>= fun vs => .ok (ar.1 :: vs.1, vs.2)

theorem reads_readAll (counts : List Nat) : Reads (BitReader.readAll counts) (numbers counts) := by
  induction counts with
  | nil => exact simulates_pure _ []
  | cons count counts ih =>
      exact (reads_readBits count).bind fun value => ih.bind fun values =>
        simulates_pure _ (value :: values)

/-- A single bit at a time, a chunk of the bit string is read. -/
theorem reads_readBitTimes (n : Nat) :
    Reads (BitReader.readBitTimes n) (chunk (.corruptInput "bit stream ended early") n) := by
  induction n with
  | zero => exact simulates_pure _ []
  | succ n ih =>
      rw [chunk_succ]
      exact reads_readBit.bind fun bit => ih.bind fun bits => simulates_pure _ (bit :: bits)

theorem numbers_spelling {writes : List (Nat × Nat)} (h : ∀ vc ∈ writes, vc.2 ≤ 32)
    (rest : List Bool) :
    numbers (writes.map Prod.snd) (spelling writes ++ rest)
      = .ok (writes.map fun vc => vc.1 % 2 ^ vc.2, rest) := by
  induction writes with
  | nil => rfl
  | cons vc writes ih =>
      have hfirst := number_natBits (h vc List.mem_cons_self) vc.1 (spelling writes ++ rest)
      have hrest := ih fun vc' h' => h vc' (List.mem_cons_of_mem _ h')
      have hsplit : spelling (vc :: writes) ++ rest
          = natBits vc.2 vc.1 ++ (spelling writes ++ rest) := List.append_assoc _ _ _
      rw [List.map_cons, numbers, hsplit]
      simp only [hfirst, bind_ok, hrest, List.map_cons]

/-! ## The round trip -/

/-- What the bytes appended by a run of writes are, and how they read back. -/
structure ReadsBack (writes : List (Nat × Nat)) (body : List UInt8) : Prop where
  length : body.length = (totalBits writes + 7) / 8
  padded : bytesBits body = spelling writes ++ List.replicate (padding writes) false
  /-- The same counts give the values; then there are the zeros, and nothing else. -/
  values : ∃ r, BitReader.readAll (writes.map Prod.snd) { data := body }
      = .ok (writes.map fun vc => vc.1 % 2 ^ vc.2, r) ∧
    (∀ n ≤ padding writes, ∃ r', r.readBitTimes n = .ok (List.replicate n false, r')) ∧
    ∀ n, padding writes < n →
      r.readBitTimes n = .error (.corruptInput "bit stream ended early")

theorem readsBack_of_padded {writes : List (Nat × Nat)} (h : ∀ vc ∈ writes, vc.2 ≤ 32)
    {body : List UInt8} (hlen : body.length = (totalBits writes + 7) / 8)
    (hbody : bytesBits body = spelling writes ++ List.replicate (padding writes) false) :
    ReadsBack writes body := by
  have hnumbers := numbers_spelling h (List.replicate (padding writes) false)
  rw [← hbody] at hnumbers
  obtain ⟨r, hread, hrest⟩ := (reads_readAll (writes.map Prod.snd)).of_ok
    (r := { data := body }) hnumbers
  refine ⟨hlen, hbody, r, hread, fun n hn => ?_, fun n hn => ?_⟩
  · have hzeros : chunk (Error.corruptInput "bit stream ended early") n r.bits
        = .ok (List.replicate n false, List.replicate (padding writes - n) false) := by
      rw [hrest, chunk, if_neg (by simpa using hn), List.take_replicate, List.drop_replicate,
        Nat.min_eq_left hn]
    obtain ⟨r', hr', -⟩ := (reads_readBitTimes n).of_ok hzeros
    exact ⟨r', hr'⟩
  · refine (reads_readBitTimes n).of_error ?_
    rw [hrest, chunk, if_pos (by simpa using hn)]

/-- **Bit I/O round trip.** -/
theorem writes_read_back (out : List UInt8) (writes : List (Nat × Nat))
    (h : ∀ vc ∈ writes, vc.2 ≤ 32) :
    ∃ body, (BitWriter.writeAll { out := out } writes).flush.out = out ++ body ∧
      ReadsBack writes body ∧
      (BitWriter.writeAll { out := out } writes).bitsWritten = totalBits writes % 2 ^ 64 ∧
      (BitWriter.writeAll { out := out } writes).flush.bitsWritten = totalBits writes % 2 ^ 64 := by
  have hcount : (BitWriter.writeAll { out := out } writes).bitsWritten
      = totalBits writes % 2 ^ 64 := by
    have hwritten := BitWriter.writeAll_written writes (w := { out := out }) (Nat.two_pow_pos 64)
    rwa [Nat.zero_add] at hwritten
  have hbits := BitWriter.writeAll_bits writes h { out := out }
  have hstart : (BitWriter.bits { out := out }) = bytesBits out := List.append_nil _
  rw [hstart] at hbits
  obtain ⟨body, pad, hout, hpad, hbody, hlen⟩ := BitWriter.flush_spec hbits
  rw [← spelling] at hbody hlen
  rw [length_spelling] at hlen
  have hpadding : pad = padding writes := by
    have hall := congrArg List.length hbody
    rw [length_bytesBits, List.length_append, length_spelling, List.length_replicate] at hall
    rw [padding]
    omega
  rw [hpadding] at hbody
  exact ⟨body, hout, readsBack_of_padded h hlen hbody, hcount,
    (BitWriter.flush_written _).trans hcount⟩

/-- A value with stray bits, none at all, and a whole word. -/
theorem writes_read_back_run :
    ∃ body, (BitWriter.writeAll { out := [1] } [(13, 3), (7, 0), (4294967295, 32)]).flush.out
        = [1] ++ body ∧
      ReadsBack [(13, 3), (7, 0), (4294967295, 32)] body ∧
      (BitWriter.writeAll { out := [1] } [(13, 3), (7, 0), (4294967295, 32)]).bitsWritten
        = totalBits [(13, 3), (7, 0), (4294967295, 32)] % 2 ^ 64 ∧
      (BitWriter.writeAll { out := [1] } [(13, 3), (7, 0), (4294967295, 32)]).flush.bitsWritten
        = totalBits [(13, 3), (7, 0), (4294967295, 32)] % 2 ^ 64 :=
  writes_read_back [1] [(13, 3), (7, 0), (4294967295, 32)] (by decide)

/-- `2 ^ 59` words are `2 ^ 64` bits, and the counter reads 0. -/
theorem bitsWritten_wraps :
    (∀ vc ∈ List.replicate (2 ^ 59) ((0 : Nat), 32), vc.2 ≤ 32) ∧
      (BitWriter.writeAll { out := [] } (List.replicate (2 ^ 59) (0, 32))).flush.bitsWritten
        ≠ totalBits (List.replicate (2 ^ 59) (0, 32)) := by
  have htotal : totalBits (List.replicate (2 ^ 59) (0, 32)) = 2 ^ 64 := by
    rw [totalBits, List.map_replicate, List.sum_replicate, smul_eq_mul]
    rfl
  have hwritten := BitWriter.writeAll_written (List.replicate (2 ^ 59) (0, 32))
    (w := { out := [] }) (Nat.two_pow_pos 64)
  refine ⟨fun vc hvc => ?_, ?_⟩
  · rw [List.eq_of_mem_replicate hvc]
  · rw [BitWriter.bitsWritten, BitWriter.flush_written, hwritten, htotal]
    decide

end Compressly

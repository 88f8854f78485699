/-
# `Compressly.Format` — the container format's constants, and how a run ends

    offset  size  field
    0       4     magic "CMPR"
    4       1     format version
    5       1     method
    6       8     uncompressed size, little-endian
    14      ..    method-specific payload

A run of the codec ends in a value or in an `Error`.  Three of the errors are
the exceptions the C++ throws itself, and `lengthError` is the one a vector
throws that is asked to hold more than it can.  The last, `fault`, is not an
exception: it stands for everything the C++ would do silently wrong — an index outside its
array, an unsigned subtraction that wraps, a failed `assert`.  The model checks
each such step (`fetch`, `store`, `minus`, `slice`), so "no access is ever out
of range" is the statement that `fault` never comes out.

`Decodes r P` is the contract of every decoder: a value satisfying `P`, or
`CorruptInput`, and nothing else.

Byte buffers are lists and sizes are natural numbers.  The bound that `size_t`
arithmetic on real buffers relies on is `maxSize`: no C++ object, vector or
stream position exceeds `PTRDIFF_MAX` bytes.
-/
import Compressly.Lib.Endian
import Compressly.Lib.Loop

namespace Compressly

open Endian Parse Loop

/-! ## How a run ends -/

/-- The exceptions of a run, with their texts, and `fault`. -/
inductive Error where
  | corruptInput (what : String)
  | invalidArgument (what : String)
  | runtimeError (what : String)
  | lengthError (what : String)
  | fault
deriving DecidableEq, Repr

abbrev Result (α : Type) := Except Error α

instance decResult {α : Type} [DecidableEq α] : DecidableEq (Result α)
  | .ok a, .ok b => decidable_of_iff (a = b) (by simp)
  | .error e, .error f => decidable_of_iff (e = f) (by simp)
  | .ok _, .error _ => isFalse (by simp)
  | .error _, .ok _ => isFalse (by simp)

/-- Whether a run ended in `std::invalid_argument`. -/
def Rejects {α : Type} (r : Result α) : Prop := ∃ what, r = .error (.invalidArgument what)

/-- `r` is a value satisfying `P`, or `CorruptInput` was thrown; nothing else. -/
def Decodes {α : Type} (r : Result α) (P : α → Prop) : Prop :=
  match r with
  | .ok a => P a
  | .error (.corruptInput _) => True
  | .error _ => False

section Decodes
variable {α β : Type} {P : α → Prop} {Q : β → Prop}

@[simp] theorem bind_ok (a : α) (f : α → Result β) : (Except.ok a >>= f) = f a := rfl

@[simp] theorem bind_error (e : Error) (f : α → Result β) :
    ((Except.error e : Result α) >>= f) = .error e := rfl

@[simp] theorem map_ok (a : α) (f : α → β) : (f <$> (Except.ok a : Result α)) = .ok (f a) := rfl

@[simp] theorem map_error (e : Error) (f : α → β) :
    (f <$> (Except.error e : Result α)) = .error e := rfl

@[simp] theorem pure_eq_ok (a : α) : (pure a : Result α) = .ok a := rfl

@[simp] theorem throw_eq_error (e : Error) : (throw e : Result α) = .error e := rfl

theorem map_eq_ok {r : Result α} {f : α → β} {b : β} :
    f <$> r = .ok b ↔ ∃ a, r = .ok a ∧ f a = b := by
  cases r with
  | error e => simp
  | ok a => simp

/-- A sequence returns only if both halves do. -/
theorem bind_eq_ok {r : Result α} {f : α → Result β} {b : β} :
    (r >>= f) = .ok b ↔ ∃ a, r = .ok a ∧ f a = .ok b := by
  cases r with
  | error e => simp
  | ok a => simp

@[simp] theorem decodes_ok (a : α) : Decodes (.ok a) P ↔ P a := Iff.rfl

@[simp] theorem decodes_corruptInput (what : String) :
    Decodes (.error (.corruptInput what) : Result α) P := trivial

/-- The two ways a decoder ends. -/
theorem Decodes.cases {r : Result α} (hr : Decodes r P) :
    (∃ a, r = .ok a ∧ P a) ∨ ∃ what, r = .error (.corruptInput what) := by
  match r, hr with
  | .ok a, ha => exact Or.inl ⟨a, rfl, ha⟩
  | .error (.corruptInput what), _ => exact Or.inr ⟨what, rfl⟩

theorem Decodes.bind {r : Result α} {f : α → Result β} (hr : Decodes r P)
    (hf : ∀ a, P a → Decodes (f a) Q) : Decodes (r >>= f) Q := by
  match r, hr with
  | .ok a, ha => exact hf a ha
  | .error (.corruptInput _), _ => trivial

theorem Decodes.map {r : Result α} {f : α → β} (hr : Decodes r fun a => Q (f a)) :
    Decodes (f <$> r) Q := by
  match r, hr with
  | .ok a, ha => exact ha
  | .error (.corruptInput _), _ => trivial

theorem Decodes.mono {r : Result α} {P' : α → Prop} (hr : Decodes r P)
    (h : ∀ a, P a → P' a) : Decodes r P' := by
  match r, hr with
  | .ok a, ha => exact h a ha
  | .error (.corruptInput _), _ => trivial

/-- A decoder that does not return has thrown `CorruptInput`. -/
theorem Decodes.eq_corruptInput {r : Result α} (hr : Decodes r P)
    (h : ∃ e, r = .error e) : ∃ what, r = .error (.corruptInput what) := by
  obtain ⟨e, rfl⟩ := h
  match e, hr with
  | .corruptInput what, _ => exact ⟨what, rfl⟩

/-- A fold whose rounds decode, and keep `I`, decodes and keeps `I`. -/
theorem decodes_foldlM {σ ι : Type} {f : σ → ι → Result σ} {I : σ → Prop} {l : List ι}
    (hround : ∀ s, I s → ∀ i ∈ l, Decodes (f s i) I) {s : σ} (h : I s) :
    Decodes (l.foldlM f s) I := by
  induction l generalizing s with
  | nil => exact h
  | cons i l ih =>
      rw [List.foldlM_cons]
      exact (hround s h i List.mem_cons_self).bind fun s' hs' =>
        ih (fun s hs j hj => hround s hs j (List.mem_cons_of_mem _ hj)) hs'

/-- Folds whose rounds agree. -/
theorem foldlM_congr {σ ι : Type} {f g : σ → ι → Result σ} {l : List ι}
    (h : ∀ s, ∀ i ∈ l, f s i = g s i) (s : σ) : l.foldlM f s = l.foldlM g s := by
  induction l generalizing s with
  | nil => rfl
  | cons i l ih =>
      rw [List.foldlM_cons, List.foldlM_cons, h s i List.mem_cons_self]
      exact bind_congr fun s' => ih (fun s j hj => h s j (List.mem_cons_of_mem _ hj)) s'

/-- What a parser decodes, a reader function that simulates it decodes. -/
theorem Decodes.of_simulates {ρ τ : Type} {den : ρ → List τ} {f : ρ → Result (α × ρ)}
    {g : Parser Error τ α} (h : Simulates den f g) {r : ρ}
    (hdec : Decodes (g (den r)) fun ar => P ar.1) : Decodes (f r) fun ar => P ar.1 := by
  cases hf : f r with
  | ok ar =>
      rw [h.ok hf] at hdec
      exact hdec
  | error e =>
      rw [h.error hf] at hdec
      match e, hdec with
      | .corruptInput _, _ => trivial

/-- A loop whose rounds decode, and keep `I`, decodes and keeps `I`. -/
theorem decodes_loop {ρ σ : Type} {b : Body Error ρ σ} {more : σ → Bool} {I : σ → Prop}
    (hround : ∀ s r, I s → more s = true → Decodes (b.run s r) fun sr => I sr.1) {s : σ} (h : I s)
    (r : ρ) : Decodes (b.loop more s r) fun sr => I sr.1 ∧ more sr.1 = false := by
  have hok : ∀ s r s' r', I s → more s = true → b.run s r = .ok (s', r') → I s' := by
    intro s r s' r' hs hmore hrun
    have hdec := hround s r hs hmore
    rwa [hrun] at hdec
  have herr : ∀ s r e, I s → more s = true → b.run s r = .error e → ∃ what, e = .corruptInput what := by
    intro s r e hs hmore hrun
    obtain ⟨what, hwhat⟩ := (hround s r hs hmore).eq_corruptInput ⟨e, hrun⟩
    rw [hrun] at hwhat
    exact ⟨what, Except.error.inj hwhat⟩
  have hrule := loop_rule hok herr h (r := r)
  revert hrule
  cases b.loop more s r with
  | ok sr => exact id
  | error e =>
      rintro ⟨what, rfl⟩
      trivial

end Decodes

/-! ## Checked access -/

section Checked
variable {α : Type}

/-- `xs[i]`. -/
def fetch (xs : List α) (i : Nat) : Result α :=
  match xs[i]? with
  | some a => .ok a
  | none => .error .fault

/-- `xs[i] = a`. -/
def store (xs : List α) (i : Nat) (a : α) : Result (List α) :=
  if i < xs.length then .ok (xs.set i a) else .error .fault

/-- An unsigned subtraction the source relies on not to wrap. -/
def minus (a b : Nat) : Result Nat := if b ≤ a then .ok (a - b) else .error .fault

/-- The `count` elements from `offset` on, as a pointer and a length give them. -/
def slice (xs : List α) (offset count : Nat) : Result (List α) :=
  if offset + count ≤ xs.length then .ok ((xs.drop offset).take count) else .error .fault

theorem fetch_of_getElem? {xs : List α} {i : Nat} {a : α} (h : xs[i]? = some a) :
    fetch xs i = .ok a := by
  simp [fetch, h]

@[simp] theorem fetch_of_lt {xs : List α} {i : Nat} (h : i < xs.length) :
    fetch xs i = .ok xs[i] :=
  fetch_of_getElem? (List.getElem?_eq_getElem h)

/-- What follows an array does not change what is read from it. -/
theorem fetch_append {xs : List α} {i : Nat} (h : i < xs.length) (ys : List α) :
    fetch (xs ++ ys) i = fetch xs i := by
  rw [fetch, fetch, List.getElem?_append_left h]

@[simp] theorem store_of_lt {xs : List α} {i : Nat} (h : i < xs.length) (a : α) :
    store xs i a = .ok (xs.set i a) :=
  if_pos h

@[simp] theorem minus_of_le {a b : Nat} (h : b ≤ a) : minus a b = .ok (a - b) := if_pos h

@[simp] theorem slice_of_le {xs : List α} {offset count : Nat} (h : offset + count ≤ xs.length) :
    slice xs offset count = .ok ((xs.drop offset).take count) :=
  if_pos h

/-- The rest of a buffer, behind a known beginning. -/
theorem slice_append (pre post : List α) :
    slice (pre ++ post) pre.length post.length = .ok post := by
  rw [slice_of_le (by simp), List.drop_left, List.take_length]

end Checked

/-! ## Taking bytes off the front -/

/-- A payload and how far it has been read: the `at` of the source's loops. -/
structure Cursor where
  data : List UInt8
  pos : Nat := 0
  pos_le : pos ≤ data.length := by exact Nat.zero_le _

namespace Cursor

/-- What has not been read yet. -/
def rest (c : Cursor) : List UInt8 := c.data.drop c.pos

/-- The next `count` bytes, if so many are left. -/
def take (what : String) (count : Nat) (c : Cursor) : Result (List UInt8 × Cursor) := do
  let left ← minus c.data.length c.pos
  if left < count then throw (.corruptInput what)
  if h : c.pos + count ≤ c.data.length then
    pure ((c.data.drop c.pos).take count, { c with pos := c.pos + count, pos_le := h })
  else throw .fault

theorem simulates_take (what : String) (count : Nat) :
    Simulates rest (take what count) (chunk (.corruptInput what) count) := by
  intro c
  have hle := c.pos_le
  have hlen : c.rest.length = c.data.length - c.pos := List.length_drop
  unfold take chunk
  rw [minus_of_le hle, bind_ok, hlen]
  by_cases h : c.data.length - c.pos < count
  · rw [if_pos h, if_pos h]
    rfl
  · rw [if_neg h, if_neg h, dif_pos (by omega), rest, List.drop_drop]
    rfl

/-- `*take(1)`. -/
def takeByte (what : String) (c : Cursor) : Result (UInt8 × Cursor) := do
  let (p, c) ← c.take what 1
  let byte ← fetch p 0
  pure (byte, c)

theorem simulates_takeByte (what : String) :
    Simulates rest (takeByte what) (token (.corruptInput what)) := by
  have hbyte := (simulates_take what 1).bind fun p =>
    simulates_lift_bind rest (fetch p 0) fun byte => simulates_pure rest byte
  intro c
  refine (hbyte c).trans ?_
  cases c.rest with
  | nil => rfl
  | cons b bs => rfl

end Cursor

/-! ## The container format -/

def kMagic : List UInt8 := [0x43, 0x4D, 0x50, 0x52]

def kFormatVersion : UInt8 := 1

def kHeaderSize : Nat := 14

/-- The longest buffer or stream there is: `PTRDIFF_MAX` bytes. -/
def maxSize : Nat := 2 ^ 63 - 1

/-- `out.reserve(size)` on a vector of bytes. -/
def reserve (size : Nat) : Result Unit :=
  if maxSize < size then throw (.lengthError "vector::reserve") else pure ()

theorem reserve_of_le {size : Nat} (h : size ≤ maxSize) : reserve size = .ok () :=
  if_neg (Nat.not_lt.mpr h)

theorem reserve_of_lt {size : Nat} (h : maxSize < size) :
    reserve size = .error (.lengthError "vector::reserve") :=
  if_pos h

/-- Arithmetic in `std::uint64_t` and `std::size_t`, where a wrap is possible. -/
def u64 (n : Nat) : Nat := n % 2 ^ 64

theorem u64_of_lt {n : Nat} (h : n < 2 ^ 64) : u64 n = n := Nat.mod_eq_of_lt h

/-- The method byte.  A byte that names no enumerator is still a value of the
enumeration's type; only the `default` branches see it. -/
inductive Method where
  | stored
  | huffman
  | lz77
  | deflate
  | blocked
  | unnamed (byte : UInt8)
deriving DecidableEq, Repr

/-- `static_cast<Method>(byte)`. -/
def Method.ofByte (byte : UInt8) : Method :=
  match byte.toNat with
  | 0 => .stored
  | 1 => .huffman
  | 2 => .lz77
  | 3 => .deflate
  | 4 => .blocked
  | _ => .unnamed byte

/-- `static_cast<std::uint8_t>(method)`. -/
def Method.toByte : Method → UInt8
  | .stored => 0
  | .huffman => 1
  | .lz77 => 2
  | .deflate => 3
  | .blocked => 4
  | .unnamed byte => byte

@[simp] theorem Method.ofByte_toByte {m : Method} (h : ∀ byte, m ≠ .unnamed byte) :
    Method.ofByte m.toByte = m := by
  cases m with
  | unnamed byte => exact absurd rfl (h byte)
  | stored => rfl
  | huffman => rfl
  | lz77 => rfl
  | deflate => rfl
  | blocked => rfl

/-! ## Little-endian fields -/

/-- The `n` bytes `p[at] .. p[at + n - 1]` as a little-endian number. -/
def readLE (n : Nat) (p : List UInt8) (start : Nat) : Result Nat :=
  (List.range n).foldlM
    (fun value i => do
      let byte ← fetch p (start + i)
      pure (value ||| byte.toNat <<< (8 * i)))
    0

def readU64LE (p : List UInt8) (start : Nat) : Result Nat := readLE 8 p start

def readU32LE (p : List UInt8) (start : Nat) : Result Nat := readLE 4 p start

/-- The low `n` bytes of `value`, appended a byte at a time. -/
def appendLE (n : Nat) (out : List UInt8) (value : Nat) : List UInt8 :=
  (List.range n).foldl (fun out i => out ++ [UInt8.ofNat ((value >>> (8 * i)) &&& 0xFF)]) out

def appendU32LE (out : List UInt8) (value : Nat) : List UInt8 := appendLE 4 out value

theorem or_shiftLeft_eq_add {a k : Nat} (ha : a < 2 ^ k) (b : Nat) :
    a ||| b <<< k = a + 2 ^ k * b := by
  rw [Nat.or_comm, ← Nat.shiftLeft_add_eq_or_of_lt ha, Nat.shiftLeft_eq]
  ring

/-- What a little-endian field reads as, whatever the bytes. -/
theorem readLE_eq {n start : Nat} {p : List UInt8} (h : start + n ≤ p.length) :
    readLE n p start = .ok (leValue ((p.drop start).take n)) := by
  induction n with
  | zero => simp [readLE, leValue]
  | succ n ih =>
      have hlt : start + n < p.length := by omega
      have hn : n < (p.drop start).length := by simp; omega
      have htake : (p.drop start).take (n + 1) = (p.drop start).take n ++ [p[start + n]] := by
        rw [List.take_succ_eq_append_getElem hn]
        simp
      have hlow : leValue ((p.drop start).take n) < 2 ^ (8 * n) := by
        have hlen : ((p.drop start).take n).length = n := by simp; omega
        have hv := leValue_lt ((p.drop start).take n)
        rwa [hlen, show (256 : Nat) = 2 ^ 8 from rfl, ← Nat.pow_mul] at hv
      have hlen : ((p.drop start).take n).length = n := by simp; omega
      rw [htake, leValue_append, hlen]
      rw [readLE] at ih
      rw [readLE, List.range_succ, List.foldlM_append, ih (by omega)]
      simp only [bind_ok, List.foldlM_cons, List.foldlM_nil, fetch_of_lt hlt, pure_eq_ok]
      rw [or_shiftLeft_eq_add hlow, show (256 : Nat) = 2 ^ 8 from rfl, ← Nat.pow_mul]
      simp [leValue]

theorem appendLE_eq (n : Nat) (out : List UInt8) (value : Nat) :
    appendLE n out value = out ++ leBytes n value := by
  induction n with
  | zero => simp [appendLE, leBytes]
  | succ n ih =>
      rw [appendLE] at ih
      have hbyte : UInt8.ofNat ((value >>> (8 * n)) &&& 0xFF) = UInt8.ofNat (value / 256 ^ n) := by
        rw [Nat.shiftRight_eq_div_pow, show (256 : Nat) = 2 ^ 8 from rfl, ← Nat.pow_mul,
          show (0xFF : Nat) = 2 ^ 8 - 1 from rfl, Nat.and_two_pow_sub_one_eq_mod]
        exact UInt8.toNat_inj.mp (by simp)
      rw [appendLE, List.range_succ, List.foldl_append, ih, leBytes_append n 1,
        ← List.append_assoc]
      simp only [List.foldl_cons, List.foldl_nil, leBytes, hbyte]

theorem readU64LE_eq {start : Nat} {p : List UInt8} (h : start + 8 ≤ p.length) :
    readU64LE p start = .ok (leValue ((p.drop start).take 8)) :=
  readLE_eq h

theorem readU32LE_eq {start : Nat} {p : List UInt8} (h : start + 4 ≤ p.length) :
    readU32LE p start = .ok (leValue ((p.drop start).take 4)) :=
  readLE_eq h

theorem appendU32LE_eq (out : List UInt8) (value : Nat) :
    appendU32LE out value = out ++ leBytes 4 value :=
  appendLE_eq 4 out value

end Compressly

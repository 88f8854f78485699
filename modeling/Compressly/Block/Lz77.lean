/-
# `Compressly.Block.Lz77` — method 2, byte-aligned token groups

    +0      1     window bits
    +1      1     minimum match length
    +2      ..    groups of eight tokens, each behind a flag byte

The encoder reserves the flag byte of a group and patches it at the end of the
group.  On any payload the decoder gives the declared number of bytes or throws
`CorruptInput` (`decodeLz77_decodes`), and it does not look beyond the bytes it
consumes (`tight_of_decodeLz77Stream`).  `Block.Lz77Grammar` says which payloads
it accepts, `Block.Lz77Encode` what the encoder writes.
-/
import Compressly.LZ77.Tokenize
import Compressly.Lib.Bits

namespace Compressly.Block

open Bits Parse Loop LZ77 Replay

/-! ## The coder, as the source computes it -/

/-- Window bits, then minimum match length. -/
def kLz77ParamBytes : Nat := 2

structure Lz77Plan where
  tokens : List Token
  total : Nat

def planLz77 (data : List UInt8) (config : Config) : Result Lz77Plan := do
  let (tokens, _) ← tokenize data config
  let (literals, matched) := tokens.foldl
    (fun (n : Nat × Nat) token => if token.isMatch then (n.1, n.2 + 1) else (n.1 + 1, n.2)) (0, 0)
  let flagBytes := (tokens.length + 7) / 8
  pure { tokens := tokens, total := kLz77ParamBytes + flagBytes + literals + 3 * matched }

/-- The state of the writing loop: the flag byte of the current group is patched at the end
of the group. -/
structure GroupWriter where
  out : List UInt8
  flagIndex : Nat := 0
  flags : UInt8 := 0
  inGroup : Nat := 0

/-- `if (inGroup == 0)`: reserve a byte for the flags. -/
def GroupWriter.openGroup (w : GroupWriter) : GroupWriter :=
  if w.inGroup = 0 then { w with flagIndex := w.out.length, out := w.out ++ [0], flags := 0 } else w

def GroupWriter.push (config : Config) (token : Token) (w : GroupWriter) : GroupWriter :=
  if token.isMatch then
    let encodedDistance := token.distance.toNat - 1
    { w with
      flags := w.flags ||| UInt8.ofNat (0x80 >>> w.inGroup)
      out := w.out ++ [UInt8.ofNat (encodedDistance &&& 0xFF)] ++ [UInt8.ofNat (encodedDistance >>> 8)]
        ++ [UInt8.ofNat (((token.length.toNat : Int) - config.minMatch) % 256).toNat] }
  else { w with out := w.out ++ [token.literal] }

/-- `if (++inGroup == 8)`: patch the flags. -/
def GroupWriter.closeGroup (w : GroupWriter) : Result GroupWriter := do
  let inGroup := w.inGroup + 1
  if inGroup = 8 then
    let out ← store w.out w.flagIndex w.flags
    pure { w with out := out, inGroup := 0 }
  else pure { w with inGroup := inGroup }

def GroupWriter.writeToken (config : Config) (w : GroupWriter) (token : Token) :
    Result GroupWriter :=
  (w.openGroup.push config token).closeGroup

def Lz77Plan.emit (p : Lz77Plan) (config : Config) : Result (List UInt8) := do
  let out := [UInt8.ofNat config.windowBits.toNat] ++ [UInt8.ofNat config.minMatch.toNat]
  let w ← p.tokens.foldlM (GroupWriter.writeToken config) { out := out }
  if w.inGroup ≠ 0 then store w.out w.flagIndex w.flags else pure w.out

def encodeLz77 (data : List UInt8) (config : Config) (budgetBytes : Nat) :
    Result (List UInt8) := do
  let p ← planLz77 data config
  if budgetBytes ≤ p.total then pure [] else p.emit config

/-- What the loop of the decoder carries. -/
structure GroupReader where
  out : List UInt8 := []
  flags : UInt8 := 0
  remainingInGroup : Nat := 0

structure Lz77Params where
  windowSize : Nat
  minMatch : Nat

def kTruncated : String := "truncated LZ77 token stream"

/-- `remainingInGroup = 8`, under a new flag byte. -/
def GroupReader.openGroup (s : GroupReader) (flags : UInt8) : GroupReader :=
  { s with flags := flags, remainingInGroup := 8 }

/-- `out.push_back`. -/
def GroupReader.append (s : GroupReader) (literal : UInt8) : GroupReader :=
  { s with out := s.out ++ [literal] }

/-- The flag byte of the next group, if a group is over. -/
def GroupReader.refill (s : GroupReader) (c : Cursor) : Result (GroupReader × Cursor) :=
  if s.remainingInGroup = 0 then do
    let (flags, c) ← c.takeByte kTruncated
    pure (s.openGroup flags, c)
  else pure (s, c)

/-- `flags <<= 1` and `--remainingInGroup`, behind the test of the flag. -/
def GroupReader.shift (s : GroupReader) : GroupReader :=
  { s with flags := s.flags <<< 1, remainingInGroup := s.remainingInGroup - 1 }

/-- The copy three bytes ask for. -/
def copyOf (params : Lz77Params) (originalSize : Nat) (s : GroupReader) (p : List UInt8) :
    Result GroupReader := do
  let low ← fetch p 0
  let high ← fetch p 1
  let distance := (low.toNat ||| high.toNat <<< 8) + 1
  let third ← fetch p 2
  let length := third.toNat + params.minMatch
  let out ← copyBack params.windowSize originalSize distance length s.out
  pure { s with out := out }

/-- A literal or a match, by the flag. -/
def lz77Item (params : Lz77Params) (originalSize : Nat) (s : GroupReader) (c : Cursor) :
    Result (GroupReader × Cursor) :=
  if s.flags &&& 0x80 ≠ 0 then do
    let (p, c) ← c.take kTruncated 3
    let s ← copyOf params originalSize s.shift p
    pure (s, c)
  else do
    let (literal, c) ← c.takeByte kTruncated
    pure (s.shift.append literal, c)

/-- One round of the decoder's loop. -/
def lz77Round (params : Lz77Params) (originalSize : Nat) (s : GroupReader) (c : Cursor) :
    Result (GroupReader × Cursor) := do
  let (s, c) ← s.refill c
  lz77Item params originalSize s c

/-- The parameters, and the cursor behind them. -/
def readParams (payload : List UInt8) : Result (Lz77Params × Cursor) := do
  if payload.length < kLz77ParamBytes then throw (.corruptInput "truncated LZ77 parameters")
  let windowBits ← fetch payload 0
  let minMatch ← fetch payload 1
  if windowBits.toNat < 8 ∨ 16 < windowBits.toNat then
    throw (.corruptInput "illegal window size")
  if minMatch.toNat < 3 ∨ 8 < minMatch.toNat then
    throw (.corruptInput "illegal minimum match length")
  if h : kLz77ParamBytes ≤ payload.length then
    pure ({ windowSize := 2 ^ windowBits.toNat, minMatch := minMatch.toNat },
      { data := payload, pos := kLz77ParamBytes, pos_le := h })
  else throw .fault

/-! ## One round, on a byte string -/

def refilled (s : GroupReader) : Parser Error UInt8 GroupReader := fun p =>
  if s.remainingInGroup = 0 then do
    let (flags, p) ← token (.corruptInput kTruncated) p
    pure (s.openGroup flags, p)
  else pure (s, p)

def item (params : Lz77Params) (originalSize : Nat) (s : GroupReader) :
    Parser Error UInt8 GroupReader := fun p =>
  if s.flags &&& 0x80 ≠ 0 then do
    let (w, p) ← chunk (.corruptInput kTruncated) 3 p
    let s ← copyOf params originalSize s.shift w
    pure (s, p)
  else do
    let (literal, p) ← token (.corruptInput kTruncated) p
    pure (s.shift.append literal, p)

def round (params : Lz77Params) (originalSize : Nat) (s : GroupReader) :
    Parser Error UInt8 GroupReader := fun p => do
  let (s, p) ← refilled s p
  item params originalSize s p

section Twins
variable (params : Lz77Params) (originalSize : Nat) (s : GroupReader)

theorem simulates_refill : Simulates Cursor.rest s.refill (refilled s) :=
  simulates_ite ((Cursor.simulates_takeByte kTruncated).bind fun flags =>
    simulates_pure _ (s.openGroup flags)) (simulates_pure _ s)

theorem simulates_lz77Item :
    Simulates Cursor.rest (lz77Item params originalSize s) (item params originalSize s) :=
  simulates_ite
    ((Cursor.simulates_take kTruncated 3).bind fun w =>
      simulates_lift_bind _ (copyOf params originalSize s.shift w) fun s => simulates_pure _ s)
    ((Cursor.simulates_takeByte kTruncated).bind fun literal =>
      simulates_pure _ (s.shift.append literal))

theorem simulates_lz77Round :
    Simulates Cursor.rest (lz77Round params originalSize s) (round params originalSize s) :=
  (simulates_refill s).bind fun s => simulates_lz77Item params originalSize s

theorem stable_round : Stable (round params originalSize s) := by
  have hcopy : ∀ (s : GroupReader) (w : List UInt8), Stable (fun p : List UInt8 =>
      copyOf params originalSize s w >>= fun s => .ok (s, p)) :=
    fun s w => stable_lift_bind fun s => stable_pure s
  have hrefill : Stable (refilled s) :=
    stable_ite ((stable_token _).bind fun flags =>
      stable_pure (s.openGroup flags)) (stable_pure s)
  have hitem : ∀ s, Stable (item params originalSize s) := fun s =>
    stable_ite ((stable_chunk _ 3).bind fun w => hcopy s.shift w)
      ((stable_token _).bind fun literal =>
        stable_pure (s.shift.append literal))
  exact hrefill.bind hitem

theorem shrinks_refilled : Shrinks (refilled s) :=
  shrinks_ite ((shrinks_token _).bind fun flags =>
    shrinks_pure (s.openGroup flags)) (shrinks_pure s)

/-- An item costs at least one byte. -/
theorem item_length_lt {s s' : GroupReader} {p rest : List UInt8}
    (h : item params originalSize s p = .ok (s', rest)) : rest.length < p.length := by
  unfold item at h
  by_cases hmatch : s.flags &&& 0x80 ≠ 0
  · rw [if_pos hmatch] at h
    obtain ⟨⟨w, p'⟩, hchunk, h⟩ := bind_eq_ok.mp h
    obtain ⟨s'', -, h⟩ := bind_eq_ok.mp h
    cases h
    have hlen := (chunk_length hchunk).2
    omega
  · rw [if_neg hmatch] at h
    cases p with
    | nil => cases h
    | cons literal p =>
        cases h
        exact Nat.lt_succ_self _

theorem round_length_lt {s s' : GroupReader} {p rest : List UInt8}
    (h : round params originalSize s p = .ok (s', rest)) : rest.length < p.length := by
  obtain ⟨⟨s₁, p₁⟩, hrefill, hitem⟩ := bind_eq_ok.mp h
  exact Nat.lt_of_lt_of_le (item_length_lt params originalSize hitem)
    (shrinks_refilled s p s₁ p₁ hrefill)

end Twins

/-! ## The decoder -/

/-- The loop body. -/
def lz77Body (params : Lz77Params) (originalSize : Nat) : Body Error Cursor GroupReader where
  run := lz77Round params originalSize
  size c := c.rest.length
  decreases hrun := round_length_lt params originalSize
    ((simulates_lz77Round params originalSize _).ok hrun)

/-- `decodeLz77`, together with the cursor where it stopped. -/
def decodeLz77Stream (payload : List UInt8) (originalSize : Nat) : Result (List UInt8 × Cursor) := do
  let (params, c) ← readParams payload
  let (s, c) ← (lz77Body params originalSize).loop (fun s => s.out.length < originalSize) {} c
  pure (s.out, c)

def decodeLz77 (payload : List UInt8) (originalSize : Nat) : Result (List UInt8) :=
  Prod.fst <$> decodeLz77Stream payload originalSize

/-! ## Hostile payloads -/

/-- `payload` begins with the bytes of legal parameters. -/
def Headed (payload : List UInt8) (params : Lz77Params) (tail : List UInt8) : Prop :=
  ∃ windowBits minMatch : UInt8, (8 ≤ windowBits.toNat ∧ windowBits.toNat ≤ 16) ∧
    (3 ≤ minMatch.toNat ∧ minMatch.toNat ≤ 8) ∧
    params = { windowSize := 2 ^ windowBits.toNat, minMatch := minMatch.toNat } ∧
    payload = windowBits :: minMatch :: tail

theorem Headed.append {payload tail : List UInt8} {params : Lz77Params}
    (h : Headed payload params tail) (t : List UInt8) : Headed (payload ++ t) params (tail ++ t) := by
  obtain ⟨windowBits, minMatch, hw, hm, rfl, rfl⟩ := h
  exact ⟨windowBits, minMatch, hw, hm, rfl, rfl⟩

/-- The parameters can be read off the payload. -/
theorem Headed.unique {payload tail tail' : List UInt8} {params params' : Lz77Params}
    (h : Headed payload params tail) (h' : Headed payload params' tail') :
    params = params' ∧ tail = tail' := by
  obtain ⟨windowBits, minMatch, -, -, rfl, rfl⟩ := h
  obtain ⟨windowBits', minMatch', -, -, rfl, hpayload⟩ := h'
  cases hpayload
  exact ⟨rfl, rfl⟩

theorem Headed.readParams {payload tail : List UInt8} {params : Lz77Params}
    (h : Headed payload params tail) :
    ∃ c, readParams payload = .ok (params, c) ∧ c.rest = tail := by
  obtain ⟨windowBits, minMatch, hw, hm, rfl, rfl⟩ := h
  have h0 : fetch (windowBits :: minMatch :: tail) 0 = .ok windowBits := rfl
  have h1 : fetch (windowBits :: minMatch :: tail) 1 = .ok minMatch := rfl
  have hlen : kLz77ParamBytes ≤ (windowBits :: minMatch :: tail).length :=
    Nat.le_add_left _ _
  refine ⟨⟨_, kLz77ParamBytes, hlen⟩, ?_, rfl⟩
  rw [Block.readParams, if_neg (Nat.not_lt.mpr hlen), h0, bind_ok, h1, bind_ok, if_neg (by omega),
    if_neg (by omega), dif_pos hlen]
  rfl

theorem readParams_decodes (payload : List UInt8) :
    Decodes (readParams payload) fun pc => Headed payload pc.1 pc.2.rest := by
  match payload with
  | [] => trivial
  | [_] => trivial
  | windowBits :: minMatch :: tail =>
      by_cases hw : 8 ≤ windowBits.toNat ∧ windowBits.toNat ≤ 16
      · by_cases hm : 3 ≤ minMatch.toNat ∧ minMatch.toNat ≤ 8
        · obtain ⟨c, hread, hrest⟩ := Headed.readParams ⟨windowBits, minMatch, hw, hm, rfl, rfl⟩
          rw [hread]
          exact ⟨windowBits, minMatch, hw, hm, rfl, by rw [hrest]⟩
        · have h0 : fetch (windowBits :: minMatch :: tail) 0 = .ok windowBits := rfl
          have h1 : fetch (windowBits :: minMatch :: tail) 1 = .ok minMatch := rfl
          rw [readParams, if_neg (by simp [kLz77ParamBytes]), h0, bind_ok, h1, bind_ok,
            if_neg (by omega), if_pos (by omega)]
          trivial
      · have h0 : fetch (windowBits :: minMatch :: tail) 0 = .ok windowBits := rfl
        have h1 : fetch (windowBits :: minMatch :: tail) 1 = .ok minMatch := rfl
        rw [readParams, if_neg (by simp [kLz77ParamBytes]), h0, bind_ok, h1, bind_ok,
          if_pos (by omega)]
        trivial

theorem readParams_headed {payload : List UInt8} {params : Lz77Params} {c : Cursor}
    (h : readParams payload = .ok (params, c)) : Headed payload params c.rest := by
  have hdec := readParams_decodes payload
  rwa [h] at hdec

theorem copyOf_decodes (params : Lz77Params) (originalSize : Nat) (s : GroupReader)
    {w : List UInt8} (hw : w.length = 3) :
    Decodes (copyOf params originalSize s w) fun s' => s'.out.length ≤ originalSize := by
  match w, hw with
  | [low, high, third], _ =>
      have h0 : fetch [low, high, third] 0 = .ok low := rfl
      have h1 : fetch [low, high, third] 1 = .ok high := rfl
      have h2 : fetch [low, high, third] 2 = .ok third := rfl
      rw [copyOf, h0, bind_ok, h1, bind_ok, h2, bind_ok]
      exact (copyBack_decodes (Nat.succ_pos _) _ _ _ _).bind fun out hout => hout.2

/-- One round does not overrun the declared size. -/
theorem round_decodes (params : Lz77Params) {originalSize : Nat} {s : GroupReader}
    (hs : s.out.length < originalSize) (p : List UInt8) :
    Decodes (round params originalSize s p) fun ar => ar.1.out.length ≤ originalSize := by
  have hitem : ∀ (s : GroupReader) (p : List UInt8), s.out.length < originalSize →
      Decodes (item params originalSize s p) fun ar => ar.1.out.length ≤ originalSize := by
    intro s p hs
    unfold item
    by_cases hmatch : s.flags &&& 0x80 ≠ 0
    · rw [if_pos hmatch]
      unfold chunk
      by_cases hlen : p.length < 3
      · rw [if_pos hlen]
        trivial
      · have hw : (p.take 3).length = 3 := by
          rw [List.length_take]
          omega
        rw [if_neg hlen]
        exact (copyOf_decodes params originalSize s.shift hw).bind fun s' hs' => hs'
    · rw [if_neg hmatch]
      cases p with
      | nil => trivial
      | cons literal p =>
          show (s.out ++ [literal]).length ≤ originalSize
          rw [List.length_append]
          exact hs
  unfold round refilled
  by_cases hgroup : s.remainingInGroup = 0
  · rw [if_pos hgroup]
    cases p with
    | nil => trivial
    | cons flags p => exact hitem (s.openGroup flags) p hs
  · rw [if_neg hgroup]
    exact hitem s p hs

/-- On every payload and every declared size, the decoder returns exactly that many bytes
or throws `CorruptInput`. -/
theorem decodeLz77_decodes (payload : List UInt8) (originalSize : Nat) :
    Decodes (decodeLz77 payload originalSize) fun out => out.length = originalSize := by
  have hstream : Decodes (decodeLz77Stream payload originalSize) fun ar =>
      ar.1.length = originalSize := by
    refine (readParams_decodes payload).bind fun pc _ => ?_
    have hround : ∀ (s : GroupReader) (c : Cursor), s.out.length ≤ originalSize →
        decide (s.out.length < originalSize) = true →
        Decodes ((lz77Body pc.1 originalSize).run s c) fun ar =>
          ar.1.out.length ≤ originalSize := by
      intro s c _ hmore
      exact Decodes.of_simulates (P := fun s => s.out.length ≤ originalSize)
        (simulates_lz77Round pc.1 originalSize s)
        (round_decodes pc.1 (of_decide_eq_true hmore) c.rest)
    refine (decodes_loop hround (Nat.zero_le _) pc.2).bind fun sc hsc => ?_
    exact Nat.le_antisymm hsc.1 (Nat.le_of_not_lt (of_decide_eq_false hsc.2))
  exact hstream.map

/-! ## Truncation -/

theorem decodeLz77Stream_append {payload : List UInt8} {originalSize : Nat} {out : List UInt8}
    {c : Cursor} (h : decodeLz77Stream payload originalSize = .ok (out, c)) (t : List UInt8) :
    ∃ c', decodeLz77Stream (payload ++ t) originalSize = .ok (out, c') ∧
      c'.rest = c.rest ++ t := by
  obtain ⟨⟨params, c₀⟩, hread, h⟩ := bind_eq_ok.mp h
  obtain ⟨⟨s, c₁⟩, hloop, h⟩ := bind_eq_ok.mp h
  cases h
  obtain ⟨c₀', hread', hrest⟩ := ((readParams_headed hread).append t).readParams
  obtain ⟨c', hloop', hleft⟩ := loop_append (simulates_lz77Round params originalSize)
    (stable_round params originalSize) hloop hrest
  refine ⟨c', ?_, hleft⟩
  rw [decodeLz77Stream, hread', bind_ok]
  exact congrArg (fun x => x >>= fun sc => pure (sc.1.out, sc.2)) hloop'

/-- A payload of which nothing is left unread is needed to its last byte. -/
theorem tight_of_decodeLz77Stream {payload : List UInt8} {originalSize : Nat} {out : List UInt8}
    {c : Cursor} (h : decodeLz77Stream payload originalSize = .ok (out, c)) (hleft : c.rest = []) :
    Tight (fun p => decodeLz77 p originalSize) out payload := by
  refine tight_of_stream (fun c => c.rest.length) 1 (fun p a c t hp => ?_) h (by simp [hleft])
  obtain ⟨c', hc', hrest⟩ := decodeLz77Stream_append hp t
  exact ⟨c', hc', by rw [hrest, List.length_append, Nat.one_mul]⟩

/-! ## Flag bytes -/

/-- The flags of a group, the first in the highest bit. -/
def flagByte (g : List Bool) : UInt8 := UInt8.ofNat (ofBits g <<< (8 - g.length))

theorem flagByte_toNat {g : List Bool} (hg : g.length ≤ 8) :
    (flagByte g).toNat = ofBits g <<< (8 - g.length) := by
  have hlt : ofBits g <<< (8 - g.length) < 2 ^ 8 := by
    calc ofBits g <<< (8 - g.length) = ofBits g * 2 ^ (8 - g.length) := Nat.shiftLeft_eq _ _
      _ < 2 ^ g.length * 2 ^ (8 - g.length) :=
          Nat.mul_lt_mul_of_pos_right (ofBits_lt g) (Nat.two_pow_pos _)
      _ = 2 ^ 8 := by rw [← Nat.pow_add, Nat.add_sub_cancel' hg]
  exact UInt8.toNat_ofNat_of_lt' hlt

/-- The bits of a flag byte: the flags, then zeros. -/
theorem byteBits_flagByte {g : List Bool} (hg : g.length ≤ 8) :
    byteBits (flagByte g) = g ++ List.replicate (8 - g.length) false := by
  have hbits := natBits_shiftLeft g.length (8 - g.length) (ofBits g)
  rw [Nat.add_sub_cancel' hg, natBits_ofBits] at hbits
  rw [byteBits, flagByte_toNat hg, hbits]

/-- Another flag that is not set. -/
theorem flagByte_snoc_false {g : List Bool} (hg : g.length < 8) :
    flagByte (g ++ [false]) = flagByte g := by
  obtain ⟨k, hk⟩ : ∃ k, 8 - g.length = k + 1 := ⟨7 - g.length, by omega⟩
  have hlen : 8 - (g ++ [false]).length = k := by
    rw [List.length_append, List.length_singleton]
    omega
  rw [flagByte, flagByte, hlen, hk, ofBits_append_singleton, Nat.shiftLeft_eq, Nat.shiftLeft_eq,
    Nat.pow_succ]
  congr 1
  simp only [Bool.toNat_false]
  ring

/-- Another flag that is set. -/
theorem flagByte_snoc_true {g : List Bool} (hg : g.length < 8) :
    flagByte g ||| UInt8.ofNat (0x80 >>> g.length) = flagByte (g ++ [true]) := by
  obtain ⟨k, hk⟩ : ∃ k, 8 - g.length = k + 1 := ⟨7 - g.length, by omega⟩
  have hlen : 8 - (g ++ [true]).length = k := by
    rw [List.length_append, List.length_singleton]
    omega
  have hbit : 0x80 >>> g.length = 2 ^ k := by
    rw [Nat.shiftRight_eq_div_pow, show (0x80 : Nat) = 2 ^ 7 from rfl, Nat.pow_div (by omega) (by decide)]
    congr 1
    omega
  have hsmall : 2 ^ k < 2 ^ 8 := Nat.pow_lt_pow_right (by decide) (by omega)
  refine UInt8.toNat_inj.mp ?_
  rw [UInt8.toNat_or, flagByte_toNat (by omega), flagByte_toNat (by simp; omega), hlen, hk, hbit,
    UInt8.toNat_ofNat_of_lt' hsmall, ofBits_append_singleton, Nat.or_comm,
    or_shiftLeft_eq_add (Nat.pow_lt_pow_right (by decide) (Nat.lt_succ_self k)), Nat.shiftLeft_eq,
    Bool.toNat_true, Nat.pow_succ]
  ring

/-- The test of the highest flag. -/
theorem flag_iff {flags : UInt8} {b : Bool} {more : List Bool}
    (h : byteBits flags = b :: more) : flags &&& 0x80 ≠ 0 ↔ b = true := by
  have hb : flags.toNat.testBit 7 = b := (List.cons.inj h).1
  have hand : (flags &&& 0x80).toNat = (flags.toNat.testBit 7).toNat * 2 ^ 7 := by
    rw [UInt8.toNat_and]
    exact Nat.and_two_pow _ 7
  rw [hb] at hand
  rw [Ne, ← UInt8.toNat_inj, hand]
  cases b with
  | false => simp
  | true => simp

/-- Shifting to the next flag. -/
theorem byteBits_shift {flags : UInt8} {b : Bool} {more : List Bool}
    (h : byteBits flags = b :: more) : byteBits (flags <<< 1) = more ++ [false] := by
  have hmore : natBits 7 flags.toNat = more := (List.cons.inj h).2
  have hnat : (flags <<< 1).toNat = flags.toNat <<< 1 % 2 ^ 8 := UInt8.toNat_shiftLeft _ _
  rw [byteBits, hnat, natBits_mod le_rfl, natBits_shiftLeft 7 1, hmore]
  rfl

end Compressly.Block

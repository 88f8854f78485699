/-
# `Compressly.Deflate.Decode` — what the combined decoder accepts

    readHeader    splits a payload into header and bit stream; the header alone
                  decides, whatever follows it                (`readHeader_decodes`)
    decodeToken   one round: a literal, or a checked copy      (`token_decodes`)
    decode        rounds until the declared size is reached

On hostile input the decoder ends, stays inside every array, and returns exactly
the declared number of bytes or throws `CorruptInput` (`decode_decodes`).  It
does not look beyond the bits it consumes (`decodeStream_append`).
-/
import Compressly.Deflate.Tables
import Compressly.LZ77.Tokenize

namespace Compressly.Deflate

open Bits Kraft Parse Loop Huffman LZ77 Replay

/-! ## The header -/

/-- The parts of a payload before its bit stream. -/
structure Parts where
  windowBits : UInt8
  hlitLow : UInt8
  hlitHigh : UInt8
  hdist : UInt8
  litLen : List UInt8
  dist : List UInt8

def Parts.bytes (q : Parts) : List UInt8 :=
  q.windowBits :: q.hlitLow :: q.hlitHigh :: q.hdist :: (q.litLen ++ q.dist)

/-- What the decoder checks of them. -/
structure Parts.Ok (q : Parts) : Prop where
  windowBits : 8 ≤ q.windowBits.toNat ∧ q.windowBits.toNat ≤ kMaxWindowBits
  hlit : q.litLen.length = q.hlitLow.toNat + 256 * q.hlitHigh.toNat
  litLen : 1 ≤ q.litLen.length ∧ q.litLen.length ≤ kLitLenAlphabetSize
  hdist : q.dist.length = q.hdist.toNat
  dist : q.dist.length ≤ kDistAlphabetSize
  litLen_le : ∀ b ∈ q.litLen, b.toNat ≤ kMaxCodeLength
  dist_le : ∀ b ∈ q.dist, b.toNat ≤ kMaxCodeLength

/-- A stored table, with the lengths that were dropped. -/
def padded (size : Nat) (bytes : List UInt8) : LengthTable :=
  bytes.map UInt8.toNat ++ List.replicate (size - bytes.length) 0

theorem length_padded {size : Nat} {bytes : List UInt8} (h : bytes.length ≤ size) :
    (padded size bytes).length = size := by
  simp only [padded, List.length_append, List.length_map, List.length_replicate]
  omega

theorem padded_le (size : Nat) {bytes : List UInt8} (h : ∀ b ∈ bytes, b.toNat ≤ kMaxCodeLength) :
    ∀ l ∈ padded size bytes, l ≤ kMaxCodeLength := by
  intro l hl
  rcases List.mem_append.mp hl with hl | hl
  · obtain ⟨b, hb, rfl⟩ := List.mem_map.mp hl
    exact h b hb
  · rw [(List.mem_replicate.mp hl).2]
    exact Nat.zero_le _

/-- The trie of a table over a small alphabet. -/
theorem build_padded {size : Nat} {bytes : List UInt8} (hsize : size < 2 ^ 31)
    (hfit : bytes.length ≤ size) (h : ∀ b ∈ bytes, b.toNat ≤ kMaxCodeLength) :
    ∃ tree, DecodeTree.build (padded size bytes) = .ok tree ∧
      Trie tree.nodes (entriesOf (padded size bytes)) :=
  build_trie (padded_le size h) (covered_of_lt ((length_padded hfit).trans_lt hsize))

/-- One more stored length takes the place of the first zero. -/
theorem padded_set {size : Nat} {bytes : List UInt8} (h : bytes.length < size) (b : UInt8) :
    (padded size bytes).set bytes.length b.toNat = padded size (bytes ++ [b]) := by
  obtain ⟨k, hk⟩ : ∃ k, size - bytes.length = k + 1 := ⟨size - bytes.length - 1, by omega⟩
  have hk' : size - (bytes ++ [b]).length = k := by
    simp
    omega
  rw [padded, padded, hk, hk', List.replicate_succ, List.set_append_right _ _ (by simp),
    List.length_map, Nat.sub_self, List.set_cons_zero, List.map_append, List.append_assoc]
  rfl

/-- Reading a table: the bytes in place, unless one of them is too long. -/
theorem readLengths_eq {payload : List UInt8} {start count size : Nat}
    (hpayload : start + count ≤ payload.length) (hsize : count ≤ size) :
    readLengths payload start count (List.replicate size 0)
      = if ∀ b ∈ (payload.drop start).take count, b.toNat ≤ kMaxCodeLength then
          .ok (padded size ((payload.drop start).take count))
        else .error (.corruptInput "illegal code length") := by
  induction count with
  | zero => simp [readLengths, padded]
  | succ count ih =>
      have hlt : start + count < payload.length := by omega
      have hdrop : count < (payload.drop start).length := by
        rw [List.length_drop]
        omega
      have htake : (payload.drop start).take (count + 1)
          = (payload.drop start).take count ++ [payload[start + count]] := by
        rw [List.take_succ_eq_append_getElem hdrop, List.getElem_drop]
      have hlen : ((payload.drop start).take count).length = count :=
        List.length_take_of_le (Nat.le_of_lt hdrop)
      rw [readLengths] at ih
      rw [readLengths, List.range_succ, List.foldlM_append, ih (by omega) (by omega), htake]
      simp only [List.forall_mem_append, List.forall_mem_singleton]
      generalize (payload.drop start).take count = front at hlen ⊢
      by_cases hall : ∀ b ∈ front, b.toNat ≤ kMaxCodeLength
      · rw [if_pos hall, bind_ok, List.foldlM_cons, fetch_of_lt hlt, bind_ok]
        by_cases hlast : payload[start + count].toNat ≤ kMaxCodeLength
        · have hfront : front.length < size := by omega
          have hslot : count < (padded size front).length := by
            rw [length_padded (Nat.le_of_lt hfront)]
            omega
          have hset := padded_set hfront payload[start + count]
          rw [hlen] at hset
          rw [if_neg (Nat.not_lt.mpr hlast), if_pos ⟨hall, hlast⟩, store_of_lt hslot, hset]
          rfl
        · rw [if_pos (Nat.lt_of_not_le hlast), if_neg fun h => hlast h.2]
          rfl
      · rw [if_neg hall, if_neg fun h => hall h.1]
        rfl

/-- The header, over the bytes that follow its parameters. -/
theorem readHeader_cons (windowBits hlitLow hlitHigh hdist : UInt8) (rest : List UInt8) :
    readHeader (windowBits :: hlitLow :: hlitHigh :: hdist :: rest) =
      let hlit := hlitLow.toNat + 256 * hlitHigh.toNat
      if windowBits.toNat < 8 ∨ kMaxWindowBits < windowBits.toNat then
        .error (.corruptInput "illegal window size")
      else if hlit < 1 ∨ kLitLenAlphabetSize < hlit then
        .error (.corruptInput "illegal literal/length table size")
      else if kDistAlphabetSize < hdist.toNat then
        .error (.corruptInput "illegal distance table size")
      else if rest.length < hlit + hdist.toNat then
        .error (.corruptInput "truncated code length tables")
      else if ∀ b ∈ rest.take hlit, b.toNat ≤ kMaxCodeLength then
        if ∀ b ∈ (rest.drop hlit).take hdist.toNat, b.toNat ≤ kMaxCodeLength then do
          let litLenTree ← DecodeTree.build (padded kLitLenAlphabetSize (rest.take hlit))
          let distTree ←
            DecodeTree.build (padded kDistAlphabetSize ((rest.drop hlit).take hdist.toNat))
          pure
            { windowSize := 2 ^ windowBits.toNat
              litLenTree := litLenTree
              distTree := distTree
              bits := rest.drop (hlit + hdist.toNat) }
        else .error (.corruptInput "illegal code length")
      else .error (.corruptInput "illegal code length") := by
  have hfield : hlitLow.toNat ||| hlitHigh.toNat <<< 8 = hlitLow.toNat + 256 * hlitHigh.toNat :=
    or_shiftLeft_eq_add (by simpa using hlitLow.toNat_lt) _
  have h0 : fetch (windowBits :: hlitLow :: hlitHigh :: hdist :: rest) 0 = .ok windowBits := rfl
  have h1 : fetch (windowBits :: hlitLow :: hlitHigh :: hdist :: rest) 1 = .ok hlitLow := rfl
  have h2 : fetch (windowBits :: hlitLow :: hlitHigh :: hdist :: rest) 2 = .ok hlitHigh := rfl
  have h3 : fetch (windowBits :: hlitLow :: hlitHigh :: hdist :: rest) 3 = .ok hdist := rfl
  have hlen : (windowBits :: hlitLow :: hlitHigh :: hdist :: rest).length
      = kParamBytes + rest.length := by
    simp only [List.length_cons, kParamBytes]
    omega
  have hdrop : ∀ n, (windowBits :: hlitLow :: hlitHigh :: hdist :: rest).drop (kParamBytes + n)
      = rest.drop n := fun n => by rw [← List.drop_drop]; rfl
  rw [readHeader, if_neg (by omega)]
  simp only [h0, h1, h2, h3, bind_ok, hfield]
  generalize hlitLow.toNat + 256 * hlitHigh.toNat = hlit
  generalize windowBits :: hlitLow :: hlitHigh :: hdist :: rest = payload at hlen hdrop ⊢
  refine ite_congr rfl (fun _ => rfl) fun hwin => ?_
  refine ite_congr rfl (fun _ => rfl) fun hlitRange => ?_
  refine ite_congr rfl (fun _ => rfl) fun hdistRange => ?_
  refine ite_congr (by simp [hlen, Nat.add_assoc]) (fun _ => rfl) fun hlong => ?_
  have hbits : slice payload (kParamBytes + hlit + hdist.toNat)
      (payload.length - (kParamBytes + hlit + hdist.toNat)) = .ok (rest.drop (hlit + hdist.toNat)) := by
    rw [slice_of_le (by omega), Nat.add_assoc, hdrop, List.take_of_length_le]
    rw [List.length_drop]
    omega
  rw [readLengths_eq (by omega) (by omega), readLengths_eq (by omega) (by omega),
    minus_of_le (by omega), show payload.drop kParamBytes = rest from hdrop 0, hdrop]
  simp only [bind_ok, hbits]
  by_cases hall₁ : ∀ b ∈ rest.take hlit, b.toNat ≤ kMaxCodeLength
  · rw [if_pos hall₁, if_pos hall₁, bind_ok]
    by_cases hall₂ : ∀ b ∈ (rest.drop hlit).take hdist.toNat, b.toNat ≤ kMaxCodeLength
    · rw [if_pos hall₂, if_pos hall₂, bind_ok]
    · rw [if_neg hall₂, if_neg hall₂]
      rfl
  · rw [if_neg hall₁, if_neg hall₁]
    rfl

/-- A payload whose header passes the checks. -/
theorem readHeader_bytes {q : Parts} (hq : q.Ok) (bits : List UInt8) :
    ∃ litLenTree distTree,
      DecodeTree.build (padded kLitLenAlphabetSize q.litLen) = .ok litLenTree ∧
      DecodeTree.build (padded kDistAlphabetSize q.dist) = .ok distTree ∧
      readHeader (q.bytes ++ bits) = .ok
        { windowSize := 2 ^ q.windowBits.toNat
          litLenTree := litLenTree
          distTree := distTree
          bits := bits } := by
  obtain ⟨litLenTree, hlit, -⟩ := build_padded (by decide) hq.litLen.2 hq.litLen_le
  obtain ⟨distTree, hdist, -⟩ := build_padded (by decide) hq.dist hq.dist_le
  refine ⟨litLenTree, distTree, hlit, hdist, ?_⟩
  have hpayload : q.bytes ++ bits
      = q.windowBits :: q.hlitLow :: q.hlitHigh :: q.hdist :: (q.litLen ++ (q.dist ++ bits)) := by
    simp only [Parts.bytes, List.cons_append, List.append_assoc]
  have hrest : (q.litLen ++ (q.dist ++ bits)).drop (q.litLen.length + q.dist.length) = bits := by
    rw [← List.drop_drop, List.drop_left, List.drop_left]
  obtain ⟨hwin, hlitEq, hlitRange, hdistEq, hdistLe, hlitAll, hdistAll⟩ := hq
  rw [hpayload, readHeader_cons]
  simp only [← hlitEq, ← hdistEq, List.take_left, List.drop_left, hrest]
  rw [if_neg (by omega), if_neg (by omega), if_neg (by omega), if_neg (by simp), if_pos hlitAll,
    if_pos hdistAll, hlit, bind_ok, hdist, bind_ok]
  rfl

/-- The header of any payload: accepted with its parts, or `CorruptInput`. -/
theorem readHeader_decodes (payload : List UInt8) :
    Decodes (readHeader payload) fun h => ∃ q : Parts, q.Ok ∧ payload = q.bytes ++ h.bits := by
  by_cases h4 : payload.length < kParamBytes
  · rw [readHeader, if_pos h4]
    trivial
  obtain ⟨windowBits, hlitLow, hlitHigh, hdist, rest, rfl⟩ :
      ∃ a b c d rest, payload = a :: b :: c :: d :: rest := by
    rcases payload with _ | ⟨a, _ | ⟨b, _ | ⟨c, _ | ⟨d, rest⟩⟩⟩⟩ <;> simp [kParamBytes] at h4 ⊢
  rw [readHeader_cons]
  generalize hhlit : hlitLow.toNat + 256 * hlitHigh.toNat = hlit
  dsimp only
  by_cases hwin : windowBits.toNat < 8 ∨ kMaxWindowBits < windowBits.toNat
  · rw [if_pos hwin]
    trivial
  by_cases hlitRange : hlit < 1 ∨ kLitLenAlphabetSize < hlit
  · rw [if_neg hwin, if_pos hlitRange]
    trivial
  by_cases hdistRange : kDistAlphabetSize < hdist.toNat
  · rw [if_neg hwin, if_neg hlitRange, if_pos hdistRange]
    trivial
  by_cases hlong : rest.length < hlit + hdist.toNat
  · rw [if_neg hwin, if_neg hlitRange, if_neg hdistRange, if_pos hlong]
    trivial
  rw [if_neg hwin, if_neg hlitRange, if_neg hdistRange, if_neg hlong]
  by_cases hall₁ : ∀ b ∈ rest.take hlit, b.toNat ≤ kMaxCodeLength
  case neg =>
    rw [if_neg hall₁]
    trivial
  by_cases hall₂ : ∀ b ∈ (rest.drop hlit).take hdist.toNat, b.toNat ≤ kMaxCodeLength
  case neg =>
    rw [if_pos hall₁, if_neg hall₂]
    trivial
  -- all checks passed: these are the parts
  have hlen₁ : (rest.take hlit).length = hlit := List.length_take_of_le (by omega)
  have hlen₂ : ((rest.drop hlit).take hdist.toNat).length = hdist.toNat :=
    List.length_take_of_le (by rw [List.length_drop]; omega)
  have hfit₁ : (rest.take hlit).length ≤ kLitLenAlphabetSize := by omega
  have hfit₂ : ((rest.drop hlit).take hdist.toNat).length ≤ kDistAlphabetSize := by omega
  obtain ⟨litLenTree, hbuild₁, -⟩ := build_padded (by decide) hfit₁ hall₁
  obtain ⟨distTree, hbuild₂, -⟩ := build_padded (by decide) hfit₂ hall₂
  rw [if_pos hall₁, if_pos hall₂, hbuild₁, bind_ok, hbuild₂, bind_ok]
  refine ⟨⟨windowBits, hlitLow, hlitHigh, hdist, rest.take hlit,
    (rest.drop hlit).take hdist.toNat⟩, ?_, ?_⟩
  · exact { windowBits := by simp only; omega
            hlit := hlen₁.trans hhlit.symm
            litLen := by simp only [hlen₁]; omega
            hdist := hlen₂
            dist := by simp only [hlen₂]; omega
            litLen_le := hall₁
            dist_le := hall₂ }
  · simp only [Parts.bytes, List.cons_append, List.append_assoc]
    rw [← List.drop_drop, List.take_append_drop, List.take_append_drop]

/-! ## One round, on a bit string -/

def lengthOf (symbol : Nat) : Parser Error Bool Nat := fun bs => do
  let base ← lengthBase symbol
  let extraBits ← lengthExtraBits symbol
  let (extra, bs) ← number 0 extraBits bs
  pure (base + extra, bs)

def distanceOfCode (distanceCode : Nat) : Parser Error Bool Nat := fun bs =>
  if kDistAlphabetSize ≤ distanceCode then
    throw (.corruptInput "distance symbol out of range")
  else do
    let base ← distanceBase distanceCode
    let extraBits ← distanceExtraBits distanceCode
    let (extra, bs) ← number 0 extraBits bs
    pure (base + extra, bs)

def distanceOf (h : Header) : Parser Error Bool Nat := fun bs => do
  let (distanceCode, bs) ← symbol h.distTree bs
  distanceOfCode distanceCode bs

def matchOf (h : Header) (originalSize : Nat) (out : List UInt8) (symbol : Nat) :
    Parser Error Bool (List UInt8) := fun bs => do
  let (length, bs) ← lengthOf symbol bs
  let (distance, bs) ← distanceOf h bs
  let out ← copyBack h.windowSize originalSize distance length out
  pure (out, bs)

def restOf (h : Header) (originalSize : Nat) (out : List UInt8) (symbol : Nat) :
    Parser Error Bool (List UInt8) := fun bs =>
  if symbol < 256 then pure (out ++ [UInt8.ofNat symbol], bs)
  else if symbol = kEndOfBlockSymbol then
    throw (.corruptInput "unexpected end-of-block symbol")
  else if kLitLenAlphabetSize ≤ symbol then
    throw (.corruptInput "literal/length symbol out of range")
  else matchOf h originalSize out symbol bs

def token (h : Header) (originalSize : Nat) (out : List UInt8) :
    Parser Error Bool (List UInt8) := fun bs => do
  let (symbol, bs) ← symbol h.litLenTree bs
  restOf h originalSize out symbol bs

section Reads
variable (h : Header) (originalSize : Nat) (out : List UInt8)

theorem reads_decodeLength (symbol : Nat) : Reads (decodeLength symbol) (lengthOf symbol) :=
  simulates_lift_bind _ _ fun base => simulates_lift_bind _ _ fun extraBits =>
    (reads_readBits extraBits).bind fun extra => simulates_pure _ (base + extra)

theorem reads_decodeDistance : Reads (decodeDistance h) (distanceOf h) := by
  have hof : ∀ code, Reads (decodeDistanceOf code) (distanceOfCode code) := fun code =>
    simulates_ite (simulates_throw _ _) (simulates_lift_bind _ _ fun base =>
      simulates_lift_bind _ _ fun extraBits =>
        (reads_readBits extraBits).bind fun extra => simulates_pure _ (base + extra))
  exact (reads_decodeSymbol h.distTree).bind hof

theorem reads_decodeMatch (symbol : Nat) :
    Reads (decodeMatch h originalSize out symbol) (matchOf h originalSize out symbol) :=
  (reads_decodeLength symbol).bind fun length => (reads_decodeDistance h).bind fun distance =>
    simulates_lift_bind _ (copyBack h.windowSize originalSize distance length out) fun out =>
      simulates_pure _ out

theorem reads_decodeToken :
    Reads (decodeToken h originalSize out) (token h originalSize out) := by
  have hrest : ∀ symbol,
      Reads (decodeRest h originalSize out symbol) (restOf h originalSize out symbol) :=
    fun symbol => simulates_ite (simulates_pure _ _) (simulates_ite (simulates_throw _ _)
      (simulates_ite (simulates_throw _ _) (reads_decodeMatch h originalSize out symbol)))
  exact (reads_decodeSymbol h.litLenTree).bind hrest

theorem stable_lengthOf (symbol : Nat) : Stable (lengthOf symbol) :=
  stable_lift_bind fun base => stable_lift_bind fun extraBits =>
    (stable_number 0 extraBits).bind fun extra => stable_pure (base + extra)

theorem stable_distanceOf : Stable (distanceOf h) := by
  have hof : ∀ code, Stable (distanceOfCode code) := fun code =>
    stable_ite (stable_throw _) (stable_lift_bind fun base => stable_lift_bind fun extraBits =>
      (stable_number 0 extraBits).bind fun extra => stable_pure (base + extra))
  exact (stable_symbol h.distTree).bind hof

theorem stable_matchOf (symbol : Nat) : Stable (matchOf h originalSize out symbol) := by
  have hcopy : ∀ length distance, Stable (fun bs : List Bool =>
      copyBack h.windowSize originalSize distance length out >>= fun out => .ok (out, bs)) :=
    fun length distance => stable_lift_bind fun out => stable_pure out
  exact (stable_lengthOf symbol).bind fun length =>
    (stable_distanceOf h).bind fun distance => hcopy length distance

theorem stable_token : Stable (token h originalSize out) := by
  have hrest : ∀ symbol, Stable (restOf h originalSize out symbol) := fun symbol =>
    stable_ite (stable_pure _) (stable_ite (stable_throw _)
      (stable_ite (stable_throw _) (stable_matchOf h originalSize out symbol)))
  exact (stable_symbol h.litLenTree).bind hrest

/-- A round consumes at least one bit. -/
theorem token_length_lt {bs rest : List Bool} {out' : List UInt8}
    (ht : token h originalSize out bs = .ok (out', rest)) : rest.length < bs.length := by
  have hlength : ∀ symbol, Shrinks (lengthOf symbol) := fun symbol =>
    shrinks_lift_bind fun base => shrinks_lift_bind fun extraBits =>
      (shrinks_number 0 extraBits).bind fun extra => shrinks_pure (base + extra)
  have hcode : ∀ code, Shrinks (distanceOfCode code) := fun code =>
    shrinks_ite (shrinks_throw _) (shrinks_lift_bind fun base => shrinks_lift_bind fun extraBits =>
      (shrinks_number 0 extraBits).bind fun extra => shrinks_pure (base + extra))
  have hdistance : Shrinks (distanceOf h) := (shrinks_symbol h.distTree).bind hcode
  have hcopy : ∀ length distance, Shrinks (fun bs : List Bool =>
      copyBack h.windowSize originalSize distance length out >>= fun out => .ok (out, bs)) :=
    fun length distance => shrinks_lift_bind fun out => shrinks_pure out
  have hmatch : ∀ symbol, Shrinks (matchOf h originalSize out symbol) := fun symbol =>
    (hlength symbol).bind fun length => hdistance.bind fun distance => hcopy length distance
  have hrest : ∀ symbol, Shrinks (restOf h originalSize out symbol) := fun symbol =>
    shrinks_ite (shrinks_pure _) (shrinks_ite (shrinks_throw _)
      (shrinks_ite (shrinks_throw _) (hmatch symbol)))
  obtain ⟨⟨s, bs'⟩, hs, hbs'⟩ := bind_eq_ok.mp ht
  exact lt_of_le_of_lt (hrest s _ _ _ hbs') (symbol_length_lt hs)

end Reads

/-! ## The decoder -/

/-- The loop body. -/
def body (h : Header) (originalSize : Nat) : Body Error BitReader (List UInt8) where
  run := decodeToken h originalSize
  size r := r.bits.length
  decreases hrun := token_length_lt h originalSize _ ((reads_decodeToken h originalSize _).ok hrun)

/-- `decode`, together with the reader where it stopped. -/
def decodeStream (payload : List UInt8) (originalSize : Nat) : Result (List UInt8 × BitReader) := do
  let h ← readHeader payload
  (body h originalSize).loop (fun out => out.length < originalSize) [] { data := h.bits }

def decode (payload : List UInt8) (originalSize : Nat) : Result (List UInt8) :=
  Prod.fst <$> decodeStream payload originalSize

/-! ## Hostile input -/

/-- A header whose tries are those of two length tables of the right sizes. -/
structure Built (h : Header) : Prop where
  litLen : ∃ ls : LengthTable, ls.length = kLitLenAlphabetSize ∧
    Trie h.litLenTree.nodes (entriesOf ls)
  dist : ∃ ls : LengthTable, ls.length = kDistAlphabetSize ∧ Trie h.distTree.nodes (entriesOf ls)

theorem readHeader_built (payload : List UInt8) : Decodes (readHeader payload) Built := by
  rcases (readHeader_decodes payload).cases with ⟨h, hread, q, hq, hpayload⟩ | ⟨what, hread⟩
  · obtain ⟨litLenTree, distTree, hlit, hdist, hbytes⟩ := readHeader_bytes hq h.bits
    obtain ⟨tree₁, hbuild₁, htrie₁⟩ := build_padded (by decide) hq.litLen.2 hq.litLen_le
    obtain ⟨tree₂, hbuild₂, htrie₂⟩ := build_padded (by decide) hq.dist hq.dist_le
    rw [← hpayload, hread, Except.ok.injEq] at hbytes
    rw [hlit, Except.ok.injEq] at hbuild₁
    rw [hdist, Except.ok.injEq] at hbuild₂
    rw [hread, hbytes]
    exact ⟨⟨_, length_padded hq.litLen.2, hbuild₁ ▸ htrie₁⟩,
      ⟨_, length_padded hq.dist, hbuild₂ ▸ htrie₂⟩⟩
  · rw [hread]
    trivial

theorem lengthOf_decodes {i : Nat} (hi : i < kLengthBase.length) (bs : List Bool) :
    Decodes (lengthOf (kFirstLengthSymbol + i) bs) fun ar => 3 ≤ ar.1 ∧ ar.1 ≤ 258 := by
  simp only [lengthOf, lengthBase_row hi, lengthExtraBits_row hi, bind_ok]
  exact (number_decodes _ bs).bind fun ar har => length_range hi har.1

theorem distanceOf_decodes {h : Header} (hb : Built h) (bs : List Bool) :
    Decodes (distanceOf h bs) fun ar => 0 < ar.1 := by
  obtain ⟨ls, hlen, htrie⟩ := hb.dist
  refine (symbol_decodes htrie bs).bind fun ar har => ?_
  have hcode : ar.1 < kDistAlphabetSize := (lt_length_of_getD har.1).trans_eq hlen
  simp only [distanceOfCode, if_neg (Nat.not_le.mpr hcode), distanceBase_row hcode,
    distanceExtraBits_row hcode, bind_ok]
  exact (number_decodes _ ar.2).bind fun er _ => dist_pos hcode er.1

/-- One round adds between 1 and 258 bytes and does not overrun the declared size. -/
theorem token_decodes {h : Header} (hb : Built h) {originalSize : Nat} {out : List UInt8}
    (hout : out.length < originalSize) (bs : List Bool) :
    Decodes (token h originalSize out bs) fun ar =>
      ar.1.length ≤ originalSize ∧ out.length < ar.1.length ∧ ar.1.length ≤ out.length + 258 := by
  obtain ⟨ls, hlen, htrie⟩ := hb.litLen
  refine (symbol_decodes htrie bs).bind fun ar har => ?_
  have hsymbol : ar.1 < kLitLenAlphabetSize := (lt_length_of_getD har.1).trans_eq hlen
  show Decodes (if ar.1 < 256 then _ else _) _
  by_cases hlit : ar.1 < 256
  · rw [if_pos hlit]
    have hlen : (out ++ [UInt8.ofNat ar.1]).length = out.length + 1 := List.length_append
    refine ⟨?_, ?_, ?_⟩
    · rw [hlen]
      exact hout
    · rw [hlen]
      exact Nat.lt_succ_self _
    · rw [hlen]
      exact Nat.add_le_add_left (by decide) _
  by_cases hend : ar.1 = kEndOfBlockSymbol
  · rw [if_neg hlit, if_pos hend]
    trivial
  · rw [if_neg hlit, if_neg hend, if_neg (Nat.not_le.mpr hsymbol)]
    have h256 : 256 < ar.1 := by
      unfold kEndOfBlockSymbol at hend
      omega
    obtain ⟨i, hi, hrow⟩ := exists_row h256 hsymbol
    rw [hrow]
    refine (lengthOf_decodes hi ar.2).bind fun lr hl => ?_
    refine (distanceOf_decodes hb lr.2).bind fun dr hd => ?_
    refine (copyBack_decodes hd h.windowSize originalSize lr.1 out).bind fun out' hout' => ?_
    refine ⟨hout'.2, ?_, ?_⟩ <;> simp only [hout'.1] <;> omega

/-- The loop keeps to the declared size, reaches it, and throws nothing but `CorruptInput`. -/
theorem body_decodes {h : Header} (hb : Built h) {originalSize : Nat} {out : List UInt8}
    (hout : out.length ≤ originalSize) (r : BitReader) :
    Decodes ((body h originalSize).loop (fun out => out.length < originalSize) out r) fun ar =>
      ar.1.length = originalSize := by
  have hround : ∀ (out : List UInt8) (r : BitReader), out.length ≤ originalSize →
      decide (out.length < originalSize) = true →
      Decodes ((body h originalSize).run out r) fun ar => ar.1.length ≤ originalSize := by
    intro out r _ hmore
    have hdec : Decodes (token h originalSize out r.bits) fun ar => ar.1.length ≤ originalSize :=
      (token_decodes hb (of_decide_eq_true hmore) r.bits).mono fun _ har => har.1
    exact Decodes.of_simulates (P := fun out => out.length ≤ originalSize)
      (reads_decodeToken h originalSize out) hdec
  refine (decodes_loop hround hout r).mono fun ar har => ?_
  exact Nat.le_antisymm har.1 (Nat.le_of_not_lt (of_decide_eq_false har.2))

/-- On every payload and every declared size, the decoder returns exactly that many bytes
or throws `CorruptInput`. -/
theorem decode_decodes (payload : List UInt8) (originalSize : Nat) :
    Decodes (decode payload originalSize) fun out => out.length = originalSize := by
  have hstream : Decodes (decodeStream payload originalSize) fun ar =>
      ar.1.length = originalSize :=
    (readHeader_built payload).bind fun h hb => body_decodes hb (Nat.zero_le _) _
  exact hstream.map

/-! ## Truncation -/

/-- What follows a header only lengthens its bit stream. -/
theorem readHeader_append {payload : List UInt8} {h : Header} (hread : readHeader payload = .ok h)
    (s : List UInt8) : readHeader (payload ++ s) = .ok { h with bits := h.bits ++ s } := by
  have hdec := readHeader_decodes payload
  rw [hread] at hdec
  obtain ⟨q, hq, hpayload⟩ := hdec
  obtain ⟨litLenTree, distTree, hlit, hdist, hshort⟩ := readHeader_bytes hq h.bits
  obtain ⟨litLenTree', distTree', hlit', hdist', hlong⟩ := readHeader_bytes hq (h.bits ++ s)
  rw [hlit, Except.ok.injEq] at hlit'
  rw [hdist, Except.ok.injEq] at hdist'
  rw [← hpayload, hread, Except.ok.injEq] at hshort
  rw [hpayload, List.append_assoc, hlong, hshort, hlit', hdist']

/-- The decoder does the same on a longer payload, and leaves the rest of it. -/
theorem decodeStream_append {payload : List UInt8} {originalSize : Nat} {out : List UInt8}
    {r : BitReader} (h : decodeStream payload originalSize = .ok (out, r)) (s : List UInt8) :
    ∃ r', decodeStream (payload ++ s) originalSize = .ok (out, r') ∧
      r'.bits = r.bits ++ bytesBits s := by
  obtain ⟨hdr, hread, hloop⟩ := bind_eq_ok.mp h
  have hbits : ({ data := hdr.bits ++ s } : BitReader).bits
      = ({ data := hdr.bits } : BitReader).bits ++ bytesBits s := by
    simp [BitReader.bits]
  rw [decodeStream, readHeader_append hread, bind_ok]
  exact loop_append (reads_decodeToken hdr originalSize) (stable_token hdr originalSize) hloop hbits

/-- A payload of which less than a byte is left unread is needed to its last byte. -/
theorem tight_of_decodeStream {payload : List UInt8} {originalSize : Nat} {out : List UInt8}
    {r : BitReader} (h : decodeStream payload originalSize = .ok (out, r))
    (hleft : r.bits.length < 8) : Tight (fun p => decode p originalSize) out payload := by
  refine tight_of_stream (fun r => r.bits.length) 8 (fun p a r s hp => ?_) h hleft
  obtain ⟨r', hr', hbits⟩ := decodeStream_append hp s
  exact ⟨r', hr', by rw [hbits, List.length_append, length_bytesBits]⟩

end Compressly.Deflate

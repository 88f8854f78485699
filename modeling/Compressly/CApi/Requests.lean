/-
# `Compressly.CApi.Requests` — what `Compressor` asks of the library, and is answered

The methods of `Compressor` in `cmpr.py`: the arguments as `ctypes` converts them, the
reply as `_call` hands it on.  A thread that calls on its own is answered as `MayAnswer`
says, whatever threads and memory the system has.
-/
import Compressly.CApi.Decompress

namespace Compressly

open Parse LZ77 ThreadPool

/-! ## What is asked -/

/-- A method of `Compressor` with its arguments. -/
inductive Request where
  | compress (data : List UInt8) (threads blockSize : Int)
  | decompress (data : List UInt8)

/-- What the method gives: bytes, or a `CompressionError`. -/
inductive Answer where
  | bytes (result : List UInt8)
  | compressionError (status : Status) (message : String)
deriving DecidableEq

/-- A `c_int` made of an integer; there is no overflow check. -/
def cInt (n : Int) : Int := (BitVec.ofInt 32 n).toInt

/-- A `c_size_t` made of an integer. -/
def cSize (n : Int) : UInt64 := UInt64.ofInt n

def asBuffer (data : List UInt8) : Input := if data.isEmpty then .null 0 else .bytes data

/-- The call `compress` makes; the pointers to `out` and `out_size` are not null. -/
def compressCall (data : List UInt8) (threads blockSize : Int) : Call where
  input := asBuffer data
  threads := cInt threads
  blockSize := cSize blockSize

def decompressCall (data : List UInt8) : DecompressCall where
  input := asBuffer data

/-- What the library may reply, whatever threads and memory the system has for it. -/
def MayReply (request : Request) (r : Reply) : Prop :=
  match request with
  | .compress data threads blockSize =>
      ∃ spawn malloc env,
        cmprCompress spawn malloc env (compressCall data threads blockSize) = .ok r
  | .decompress data => ∃ malloc, cmprDecompress malloc (decompressCall data) = .ok r

/-- How a call may stop without a reply. -/
def MayStop (request : Request) (stop : Stop) : Prop :=
  match request with
  | .compress data threads blockSize =>
      ∃ spawn malloc env,
        cmprCompress spawn malloc env (compressCall data threads blockSize) = throw stop
  | .decompress data => ∃ malloc, cmprDecompress malloc (decompressCall data) = throw stop

/-- The library may make a pool for the request. -/
def Request.Pools : Request → Prop
  | .compress data threads blockSize => ∃ env, (compressCall data threads blockSize).Pooled env
  | .decompress _ => False

/-- `_call` on its own. -/
def Reply.answer (r : Reply) : Answer :=
  if r.status = .ok then .bytes (r.out.getD []) else .compressionError r.status r.lastError

def MayAnswer (request : Request) (a : Answer) : Prop := ∃ r, MayReply request r ∧ a = r.answer

/-! ## Answers -/

theorem MayReply.answers {request : Request} {r : Reply} (h : MayReply request r)
    (hstatus : r.status ≠ .ok) : MayAnswer request (.compressionError r.status r.lastError) :=
  ⟨r, h, by rw [Reply.answer, if_neg hstatus]⟩

theorem compressCall_data (data : List UInt8) (threads blockSize : Int) :
    (compressCall data threads blockSize).data = data := by
  cases data with
  | nil => rfl
  | cons b data => rfl

theorem cmprDecompress_asBuffer (malloc : Nat → Bool) (data : List UInt8) :
    cmprDecompress malloc (decompressCall data)
      = match decompress data with
        | .ok restored => pure (handOff malloc restored)
        | .error e => caughtDecoding e := by
  cases data with
  | nil => rfl
  | cons b data => rfl

theorem caught_status (e : Exception) :
    (caught e).status ≠ .ok ∧ (caught e).status ≠ .errCorruptInput := by
  cases e with
  | badAlloc => simp [caught]
  | standard what => simp [caught]
  | other => simp [caught]

theorem compress_of_mayReply {data : List UInt8} {threads blockSize : Int} {r : Reply}
    (h : MayReply (.compress data threads blockSize) r) :
    (∃ env c, compress env data (compressCall data threads blockSize).options = .ok c ∧
      r = { status := .ok, out := some c, outSize := c.length }) ∨
      (r.status ≠ .ok ∧ r.status ≠ .errCorruptInput) := by
  obtain ⟨spawn, malloc, env, hr⟩ := h
  rcases cmprCompress_cases hr with rfl | ⟨c, hc, rfl⟩ | ⟨e, rfl⟩
  · exact Or.inr ⟨by decide, by decide⟩
  · rw [compressCall_data] at hc
    rcases handOff_cases malloc c with heq | heq
    · exact Or.inl ⟨env, c, hc, heq⟩
    · rw [heq]
      exact Or.inr ⟨by simp, by simp⟩
  · exact Or.inr (caught_status e)

theorem decompress_of_mayReply {data : List UInt8} {r : Reply} (h : MayReply (.decompress data) r) :
    (∃ x, decompress data = .ok x ∧ (r = { status := .ok, out := some x, outSize := x.length } ∨
      r = { status := .errOutOfMemory, lastError := "out of memory" })) ∨
      ∃ what, decompress data = .error (.corruptInput what) ∧
        r = { status := .errCorruptInput, lastError := what } := by
  obtain ⟨malloc, hr⟩ := h
  rw [cmprDecompress_asBuffer] at hr
  rcases decompress_agree data with ⟨x, hx, -⟩ | ⟨what, -, hwhat, -⟩
  · rw [hx] at hr
    cases hr
    exact Or.inl ⟨x, hx, handOff_cases malloc x⟩
  · rw [hwhat] at hr
    cases hr
    exact Or.inr ⟨what, hwhat, rfl⟩

/-- It is the requests with a pool that may end the process, and the same that may hang. -/
theorem mayStop_iff {request : Request} {stop : Stop} (hstop : stop = .terminate ∨ stop = .hang) :
    MayStop request stop ↔ request.Pools := by
  cases request with
  | compress data threads blockSize =>
      constructor
      · rintro ⟨spawn, malloc, env, h⟩
        exact ⟨env, pooled_of_stop spawn malloc env hstop h⟩
      · rintro ⟨env, hpool⟩
        have hends := fun waits => cmprCompress_of_fails (secondFails waits) (fun _ => true) env
          hpool (secondFails_failsAt waits hpool.2.2)
        rcases hstop with rfl | rfl
        · exact ⟨secondFails false, _, env, hends false⟩
        · exact ⟨secondFails true, _, env, hends true⟩
  | decompress data =>
      refine ⟨?_, False.elim⟩
      rintro ⟨malloc, h⟩
      rw [cmprDecompress_asBuffer] at h
      rcases decompress_agree data with ⟨x, hx, -⟩ | ⟨what, -, hwhat, -⟩
      · rw [hx] at h
        cases h
      · rw [hwhat] at h
        cases h

/-- The library hands out a buffer where it replies `CMPR_OK`, and nowhere else. -/
theorem MayReply.buffer {request : Request} {r : Reply} (h : MayReply request r)
    (hstatus : r.status = .ok) :
    ∃ buffer, r.out = some buffer ∧ r.outSize = buffer.length := by
  cases request with
  | compress data threads blockSize =>
      rcases compress_of_mayReply h with ⟨env, c, -, rfl⟩ | ⟨hne, -⟩
      · exact ⟨c, rfl, rfl⟩
      · exact absurd hstatus hne
  | decompress data =>
      rcases decompress_of_mayReply h with ⟨x, -, rfl | rfl⟩ | ⟨what, -, rfl⟩
      · exact ⟨x, rfl, rfl⟩
      · cases hstatus
      · cases hstatus

theorem mayAnswer_decompress (data : List UInt8) (a : Answer) :
    MayAnswer (.decompress data) a ↔
      (∃ x, decompress data = .ok x ∧
        (a = .bytes x ∨ a = .compressionError .errOutOfMemory "out of memory")) ∨
      ∃ what, decompress data = .error (.corruptInput what) ∧
        a = .compressionError .errCorruptInput what := by
  constructor
  · rintro ⟨r, hr, rfl⟩
    rcases decompress_of_mayReply hr with ⟨x, hx, rfl | rfl⟩ | ⟨what, hwhat, rfl⟩
    · exact Or.inl ⟨x, hx, Or.inl rfl⟩
    · exact Or.inl ⟨x, hx, Or.inr rfl⟩
    · exact Or.inr ⟨what, hwhat, rfl⟩
  · rintro (⟨x, hx, rfl | rfl⟩ | ⟨what, hwhat, rfl⟩)
    · exact ⟨handOff (fun _ => true) x, ⟨fun _ => true, by rw [cmprDecompress_asBuffer, hx]; rfl⟩,
        rfl⟩
    · exact ⟨handOff (fun _ => false) x, ⟨fun _ => false, by rw [cmprDecompress_asBuffer, hx]; rfl⟩,
        rfl⟩
    · exact ⟨{ status := .errCorruptInput, lastError := what },
        ⟨fun _ => true, by rw [cmprDecompress_asBuffer, hwhat]; rfl⟩, rfl⟩

/-- No data is corrupt input to `cmpr_compress`. -/
theorem mayAnswer_compress {data : List UInt8} {threads blockSize : Int} {a : Answer}
    (h : MayAnswer (.compress data threads blockSize) a) :
    (∃ env c, compress env data (compressCall data threads blockSize).options = .ok c ∧
      a = .bytes c) ∨
      ∃ status message, status ≠ .errCorruptInput ∧ a = .compressionError status message := by
  obtain ⟨r, hr, rfl⟩ := h
  rcases compress_of_mayReply hr with ⟨env, c, hc, rfl⟩ | ⟨hok, hcorrupt⟩
  · exact Or.inl ⟨env, c, hc, rfl⟩
  · exact Or.inr ⟨r.status, r.lastError, hcorrupt, by rw [Reply.answer, if_neg hok]⟩

/-- The containers of `compress` decode, whatever the arguments. -/
theorem mayAnswer_lossless {data c : List UInt8} {threads blockSize : Int}
    (hlen : data.length < 2 ^ 32) (hc : MayAnswer (.compress data threads blockSize) (.bytes c)) :
    decompress c = .ok data := by
  rcases mayAnswer_compress hc with ⟨env, c', hc', heq⟩ | ⟨status, message, -, heq⟩
  · cases heq
    have hok : Algorithm.deflate.Accepts ({} : Config) := by decide
    exact decompress_compress hok hlen hc'
  · cases heq

end Compressly

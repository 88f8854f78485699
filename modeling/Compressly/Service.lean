/-
# `Compressly.Service` — the HTTP handler

`do_GET` and `do_POST` of `server.py`.  What `http.server`, `urlparse` and `parse_qs`
make of the bytes of a request is an `HttpRequest`; what `int` makes of a text is a
parameter, and nothing is assumed of it.  The codec behind `/compress` and
`/decompress` gives any answer that `MayAnswer` allows, which is what the threads
over the C boundary see (`session_safe`).

A 4xx is the client's doing and a 500 the server's: the request decides which of
404, 413, 400 or none of these it is (`post_status`).  A result of `/compress` comes
back through `/decompress`, if it is not too large to be posted (`post_lossless`).
-/
import Compressly.CApi.Session
import Compressly.Codec.Trailing

namespace Compressly.Service

open Parse Chunks LZ77

/-! ## The method of a container -/

/-- `methodName` of the codec. -/
def methodName : Method → String
  | .stored => "stored"
  | .huffman => "huffman"
  | .lz77 => "lz77"
  | .deflate => "deflate"
  | .blocked => "blocked"
  | .unnamed _ => "unknown"

/-- `_METHOD_NAMES`. -/
def methodNames (byte : UInt8) : Option String :=
  match byte.toNat with
  | 0 => some "stored"
  | 1 => some "huffman"
  | 2 => some "lz77"
  | 3 => some "deflate-style"
  | 4 => some "blocked"
  | _ => none

/-- `method_name` of the server. -/
def containerMethodName (container : List UInt8) : String :=
  if container.length < 6 || container.take 4 ≠ kMagic then "unknown"
  else
    let byte := container.getD 5 0
    (methodNames byte).getD ("method " ++ toString byte.toNat)

/-! ## Requests and responses -/

inductive HttpStatus where
  | ok
  | badRequest
  | notFound
  | requestEntityTooLarge
  | internalServerError
  /-- What `http.server` answers on its own. -/
  | other (code : Nat)
deriving DecidableEq, Repr

/-- A request without its body.  Headers and parameters that are missing are `none`. -/
structure HttpRequest where
  route : String
  threads : Option String := none
  block : Option String := none
  contentLength : Option String := none

inductive Response where
  /-- `{"error": text}`. -/
  | error (status : HttpStatus) (text : String)
  | health (version : String) (defaultThreads : Int) (maxUploadBytes : Nat) (cpus : Option Nat)
  | page (html : String)
  /-- The octets, with `X-Original-Bytes`, `X-Result-Bytes` and `X-Method`. -/
  | result (body : List UInt8) (originalBytes resultBytes : Nat) (method : String)
  /-- `send_error` of `http.server`. -/
  | sendError (code : Nat)

def Response.status : Response → HttpStatus
  | .error status _ => status
  | .sendError code => .other code
  | .health .. | .page _ | .result .. => .ok

def maxUpload : Nat := 256 * 1024 * 1024

/-- The fields `main` sets. -/
structure Server where
  defaultThreads : Int := 0
  indexPage : String := ""
  cpuCount : Option Nat := none

def doGet (server : Server) (request : HttpRequest) : Response :=
  if request.route = "/health" then
    .health "Compressly 1.0" server.defaultThreads maxUpload server.cpuCount
  else if request.route = "/" then .page server.indexPage
  else .error .notFound "not found"

/-- What `do_POST` does: an exception escapes it, it sends, or it calls the codec and sends what
it makes of the answer.  What it leaves of the connection's bytes follows. -/
inductive Plan where
  | raises
  | sends (response : Response) (rest : List UInt8)
  | calls (request : Request) (respond : Answer → Response) (rest : List UInt8)

/-- The plan ends with `response` and leaves `rest`, for an answer that the codec may give. -/
def Plan.Allows (response : Response) (rest : List UInt8) : Plan → Prop
  | .raises => False
  | .sends response' rest' => response = response' ∧ rest = rest'
  | .calls request answered rest' =>
      ∃ a, MayAnswer request a ∧ response = answered a ∧ rest = rest'

/-- `_STATUS`. -/
def statusText : Status → String
  | .ok => "ok"
  | .errInvalidArgument => "invalid argument"
  | .errCorruptInput => "corrupt input"
  | .errOutOfMemory => "out of memory"
  | .errInternal => "internal error"

/-- The response to a `CompressionError`. -/
def failure (status : Status) (message : String) : Response :=
  .error (if status = .errCorruptInput then .badRequest else .internalServerError)
    (statusText status ++ ": " ++ message)

/-- The response to an answer; `container` is the side of the exchange that is one. -/
def respond (body : List UInt8) (container : List UInt8 → List UInt8) : Answer → Response
  | .bytes result =>
      .result result body.length result.length (containerMethodName (container result))
  | .compressionError status message => failure status message

section Handler
variable (server : Server) (int : String → Option Int)

/-- `int(self.headers.get("Content-Length") or 0)`; `none` for a `ValueError`. -/
def contentLength (request : HttpRequest) : Option Int :=
  match request.contentLength with
  | none => some 0
  | some text => if text = "" then some 0 else int text

/-- `int(query.get(name, [default])[0])`. -/
def parameter (default : Int) : Option String → Option Int
  | none => some default
  | some text => int text

/-- What follows `_read_body`, when there is a body. -/
def dispatch (request : HttpRequest) (body rest : List UInt8) : Plan :=
  match parameter int server.defaultThreads request.threads, parameter int 0 request.block with
  | some threads, some block =>
      if request.route = "/compress" then
        .calls (.compress body threads block) (respond body id) rest
      else .calls (.decompress body) (respond body fun _ => body) rest
  | _, _ => .sends (.error .badRequest "threads and block must be integers") rest

def doPost (request : HttpRequest) (rfile : List UInt8) : Plan :=
  if request.route ≠ "/compress" ∧ request.route ≠ "/decompress" then
    .sends (.error .notFound "not found") rfile
  else
    match contentLength int request with
    | none => .raises
    | some length =>
        if length ≤ 0 then .sends (.error .badRequest "empty body") rfile
        else if (maxUpload : Int) < length then
          .sends (.error .requestEntityTooLarge s!"body exceeds {maxUpload} bytes") rfile
        else dispatch server int request (rfile.take length.toNat) (rfile.drop length.toNat)

/-- The request, with these bytes behind it, may be sent `response`, and then `rest` is left. -/
def MayPost (request : HttpRequest) (rfile : List UInt8) (response : Response)
    (rest : List UInt8) : Prop :=
  (doPost server int request rfile).Allows response rest

end Handler

/-! ## What is accepted has a name -/

/-- The name the server shows for a method of the codec. -/
def shownName (m : Method) : String := if m = .deflate then "deflate-style" else methodName m

theorem methodNames_ofByte {byte : UInt8} (h : ∀ b, Method.ofByte byte ≠ .unnamed b) :
    methodNames byte = some (shownName (Method.ofByte byte)) := by
  unfold Method.ofByte at h ⊢
  unfold methodNames
  match byte.toNat, h with
  | 0, _ => rfl
  | 1, _ => rfl
  | 2, _ => rfl
  | 3, _ => rfl
  | 4, _ => rfl
  | n + 5, h => exact absurd rfl (h byte)

theorem magic_of_readHeader {header : List UInt8} {mn : Method × Nat}
    (h : readHeader header = .ok mn) : header.take 4 = kMagic := by
  unfold readHeader slice at h
  by_contra hne
  split at h
  case isTrue =>
    rw [bind_ok, if_pos (show (header.drop 0).take kMagic.length ≠ kMagic from hne)] at h
    cases h
  case isFalse => cases h

/-- A container that decodes is named by both sides, and by one method. -/
theorem containerMethodName_of_ok {c x : List UInt8} (h : decompress c = .ok x) :
    ∃ m, methodOf c = .ok m ∧ methodName m ≠ "unknown" ∧ containerMethodName c = shownName m := by
  obtain ⟨hge, hread, hpayload⟩ := decompress_eq_ok h
  have hnamed : ∀ b, Method.ofByte (c.getD 5 0) ≠ .unnamed b := by
    intro b hb
    rw [hb] at hpayload
    cases hpayload
  have hmagic : c.take 4 = kMagic := by
    have htake := magic_of_readHeader hread
    rwa [List.take_take] at htake
  have hlen : ¬ c.length < 6 := Nat.not_lt.mpr (le_trans (by decide) hge)
  refine ⟨Method.ofByte (c.getD 5 0), methodOf_eq hge, ?_, ?_⟩
  · cases hm : Method.ofByte (c.getD 5 0) with
    | unnamed b => exact absurd hm (hnamed b)
    | stored => decide
    | huffman => decide
    | lz77 => decide
    | deflate => decide
    | blocked => decide
  · unfold containerMethodName
    rw [if_neg (by simp [hmagic, hlen])]
    change (methodNames (c.getD 5 0)).getD _ = _
    rw [methodNames_ofByte hnamed]
    rfl

/-! ## Whose doing a status is -/

section Status
variable (server : Server) (int : String → Option Int) (request : HttpRequest)

def Known (request : HttpRequest) : Prop :=
  request.route = "/compress" ∨ request.route = "/decompress"

/-- Both parameters are integers, as far as they are given. -/
def Integers : Prop :=
  (∃ threads, parameter int server.defaultThreads request.threads = some threads) ∧
    ∃ block, parameter int 0 request.block = some block

/-- `_read_body` returns `body` and leaves `rest`. -/
def Reads (rfile body rest : List UInt8) : Prop :=
  ∃ length, contentLength int request = some length ∧ 0 < length ∧ length ≤ (maxUpload : Int) ∧
    body = rfile.take length.toNat ∧ rest = rfile.drop length.toNat

/-- A container, the bytes it decodes to, and its name. -/
def Packs (container data : List UInt8) (name : String) : Prop :=
  decompress container = .ok data ∧
    ∃ m, methodOf container = .ok m ∧ methodName m ≠ "unknown" ∧ name = shownName m

/-- What a status says of a request and of the response that has it. -/
def Says (rfile : List UInt8) (response : Response) (rest : List UInt8) : HttpStatus → Prop
  | .notFound => ¬ Known request ∧ rest = rfile
  | .requestEntityTooLarge => Known request ∧ rest = rfile ∧
      ∃ length, contentLength int request = some length ∧ (maxUpload : Int) < length
  | .badRequest => Known request ∧
      ((rest = rfile ∧ ∃ length, contentLength int request = some length ∧ length ≤ 0) ∨
        ∃ body, Reads int request rfile body rest ∧
          (¬ Integers server int request ∨
            (request.route = "/decompress" ∧ ∃ what, decompress body = .error (.corruptInput what) ∧
              response = .error .badRequest ("corrupt input: " ++ what))))
  | .internalServerError => ∃ body, Reads int request rfile body rest ∧
      Integers server int request ∧
      (request.route = "/compress" ∨
        (request.route = "/decompress" ∧ (∃ x, decompress body = .ok x) ∧
          response = .error .internalServerError "out of memory: out of memory"))
  | .ok => ∃ body, Reads int request rfile body rest ∧ Integers server int request ∧
      ((request.route = "/compress" ∧ ∃ c name, Packs c body name ∧
          response = .result c body.length c.length name) ∨
        (request.route = "/decompress" ∧ ∃ x name, Packs body x name ∧
          response = .result x body.length x.length name))
  | .other _ => False

variable {server : Server} {int : String → Option Int} {request : HttpRequest}

theorem packs_of_ok {c x : List UInt8} (h : decompress c = .ok x) :
    Packs c x (containerMethodName c) := ⟨h, containerMethodName_of_ok h⟩

theorem Reads.length_lt {rfile body rest : List UInt8} (h : Reads int request rfile body rest) :
    body.length < 2 ^ 32 := by
  obtain ⟨length, -, -, hmax, rfl, -⟩ := h
  rw [List.length_take]
  unfold maxUpload at hmax
  omega

/-- What becomes of a body on its way through the codec. -/
theorem says_of_dispatch {rfile body rest rest' : List UInt8} {response : Response}
    (hknown : Known request) (hreads : Reads int request rfile body rest')
    (h : (dispatch server int request body rest').Allows response rest) :
    Says server int request rfile response rest response.status := by
  unfold dispatch at h
  cases hthreads : parameter int server.defaultThreads request.threads with
  | none =>
      rw [hthreads] at h
      obtain ⟨rfl, rfl⟩ := h
      refine ⟨hknown, Or.inr ⟨body, hreads, Or.inl ?_⟩⟩
      rintro ⟨⟨threads, hsome⟩, -⟩
      rw [hthreads] at hsome
      cases hsome
  | some threads =>
  cases hblock : parameter int 0 request.block with
  | none =>
      rw [hthreads, hblock] at h
      obtain ⟨rfl, rfl⟩ := h
      refine ⟨hknown, Or.inr ⟨body, hreads, Or.inl ?_⟩⟩
      rintro ⟨-, block, hsome⟩
      rw [hblock] at hsome
      cases hsome
  | some block =>
  have hints : Integers server int request := ⟨⟨threads, hthreads⟩, block, hblock⟩
  rw [hthreads, hblock] at h
  dsimp only at h
  by_cases hroute : request.route = "/compress"
  · rw [if_pos hroute] at h
    obtain ⟨a, ha, rfl, rfl⟩ := h
    rcases mayAnswer_compress ha with ⟨env, c, hc, rfl⟩ | ⟨status, message, hne, rfl⟩
    · have hpacks := packs_of_ok (mayAnswer_lossless hreads.length_lt ha)
      exact ⟨body, hreads, hints, Or.inl ⟨hroute, c, _, hpacks, rfl⟩⟩
    · have hstatus : (respond body id (.compressionError status message)).status
          = .internalServerError := by
        simp only [respond, failure, Response.status, if_neg hne]
      rw [hstatus]
      exact ⟨body, hreads, hints, Or.inl hroute⟩
  · have hroute' : request.route = "/decompress" := hknown.resolve_left hroute
    rw [if_neg hroute] at h
    obtain ⟨a, ha, rfl, rfl⟩ := h
    rcases (mayAnswer_decompress body a).mp ha with ⟨x, hx, rfl | rfl⟩ | ⟨what, hwhat, rfl⟩
    · exact ⟨body, hreads, hints, Or.inr ⟨hroute', x, _, packs_of_ok hx, rfl⟩⟩
    · exact ⟨body, hreads, hints, Or.inr ⟨hroute', ⟨x, hx⟩, rfl⟩⟩
    · exact ⟨hknown, Or.inr ⟨body, hreads, Or.inr ⟨hroute', what, hwhat, rfl⟩⟩⟩

/-- **A 4xx is the client's doing, a 500 the server's.**  404, 413 and 400 say what is wrong with
the request, and `/decompress` refuses exactly the bodies that do not decode; a 500 is sent for
requests with nothing wrong, by `/decompress` only when it is out of memory; and a 200 carries what
was asked for, with the name of the container's method. -/
theorem post_status {rfile rest : List UInt8} {response : Response}
    (h : MayPost server int request rfile response rest) :
    Says server int request rfile response rest response.status := by
  unfold MayPost doPost at h
  by_cases hroute : request.route ≠ "/compress" ∧ request.route ≠ "/decompress"
  · rw [if_pos hroute] at h
    obtain ⟨rfl, rfl⟩ := h
    exact ⟨fun hknown => hknown.elim hroute.1 hroute.2, rfl⟩
  have hknown : Known request := by
    by_contra hne
    exact hroute ⟨fun hc => hne (Or.inl hc), fun hd => hne (Or.inr hd)⟩
  rw [if_neg hroute] at h
  cases hlength : contentLength int request with
  | none =>
      rw [hlength] at h
      exact h.elim
  | some length =>
  rw [hlength] at h
  dsimp only at h
  by_cases hempty : length ≤ 0
  · rw [if_pos hempty] at h
    obtain ⟨rfl, rfl⟩ := h
    exact ⟨hknown, Or.inl ⟨rfl, length, hlength, hempty⟩⟩
  rw [if_neg hempty] at h
  by_cases hlarge : (maxUpload : Int) < length
  · rw [if_pos hlarge] at h
    obtain ⟨rfl, rfl⟩ := h
    exact ⟨hknown, rfl, length, hlength, hlarge⟩
  rw [if_neg hlarge] at h
  exact says_of_dispatch hknown
    ⟨length, hlength, Int.not_le.mp hempty, Int.not_lt.mp hlarge, rfl, rfl⟩ h

end Status

/-! ## There and back -/

section Lossless
variable {server server' : Server} {int int' : String → Option Int}
  {request request' : HttpRequest} {body tail : List UInt8}

/-- The body of a request that says how long it is. -/
theorem reads_framed {body' rest : List UInt8}
    (hlen : contentLength int request = some (body.length : Int))
    (h : Reads int request (body ++ tail) body' rest) :
    body' = body ∧ rest = tail ∧ body.length ≤ maxUpload := by
  obtain ⟨length, hlength, -, hmax, rfl, rfl⟩ := h
  rw [hlen] at hlength
  cases hlength
  rw [Int.toNat_natCast, List.take_left, List.drop_left]
  exact ⟨rfl, rfl, by omega⟩

/-- A result of `/compress` is what `compress` makes of the body. -/
theorem compress_of_post {c rest : List UInt8} {originalBytes resultBytes : Nat} {name : String}
    (hroute : request.route = "/compress")
    (hlen : contentLength int request = some (body.length : Int))
    (h : MayPost server int request (body ++ tail) (.result c originalBytes resultBytes name)
      rest) :
    ∃ threads block env, parameter int 0 request.block = some block ∧
      compress env body (compressCall body threads block).options = .ok c := by
  have hstatus := post_status h
  obtain ⟨body', hreads, ⟨⟨threads, hthreads⟩, block, hblock⟩, -⟩ := hstatus
  have hbody := (reads_framed hlen hreads).1
  obtain ⟨length, hlength, hpos, hmax, hbody', hrest⟩ := hreads
  unfold MayPost doPost at h
  rw [if_neg (by simp [hroute]), hlength] at h
  dsimp only at h
  rw [if_neg (Int.not_le.mpr hpos), if_neg (Int.not_lt.mpr hmax), dispatch, hthreads, hblock] at h
  dsimp only at h
  rw [if_pos hroute, ← hbody', hbody] at h
  obtain ⟨a, ha, heq, -⟩ := h
  rcases mayAnswer_compress ha with ⟨env, c', hc', rfl⟩ | ⟨status, message, -, rfl⟩
  · cases heq
    exact ⟨threads, block, env, hblock, hc'⟩
  · cases heq

/-- Room that the containers of the default block size need: a header, and nine bytes for each
mebibyte. -/
def headroom : Nat := kHeaderSize + kBlockHeaderSize * 256

theorem length_default_le {env : Environment} {c : List UInt8} {threads : Int}
    (hc : compress env body (compressCall body threads 0).options = .ok c)
    (hbody : body.length ≤ maxUpload) : c.length ≤ body.length + headroom := by
  have hok : Algorithm.deflate.Accepts ({} : Config) := by decide
  have hlt : body.length < 2 ^ 32 := by
    unfold maxUpload at hbody
    omega
  have hsize : (compressCall body threads 0).options.blockSize = kDefaultBlockSize := rfl
  have hle := length_compress_le hok hlt (by rw [hsize]; decide) hc
  have hcount : count kDefaultBlockSize body.length ≤ 256 := by
    unfold count kDefaultBlockSize
    unfold maxUpload at hbody
    omega
  rw [hsize] at hle
  calc c.length ≤ body.length + kHeaderSize
        + kBlockHeaderSize * count kDefaultBlockSize body.length := hle
    _ ≤ body.length + kHeaderSize + kBlockHeaderSize * 256 :=
        Nat.add_le_add_left (Nat.mul_le_mul_left _ hcount) _
    _ = body.length + headroom := Nat.add_assoc ..

/-- **What `/compress` returns, `/decompress` turns back**, on any server and connection: a 200
with the bytes that were posted and the same method, or a 500 where memory is out.  It refuses the
container exactly when that is larger than an upload may be, which it is not if the body was
`headroom` smaller and the block size the default. -/
theorem post_lossless {c rest tail' rest' : List UInt8} {originalBytes resultBytes : Nat}
    {name : String} {response : Response} (hroute : request.route = "/compress")
    (hlen : contentLength int request = some (body.length : Int))
    (h : MayPost server int request (body ++ tail) (.result c originalBytes resultBytes name) rest)
    (hroute' : request'.route = "/decompress")
    (hlen' : contentLength int' request' = some (c.length : Int))
    (hints : Integers server' int' request')
    (h' : MayPost server' int' request' (c ++ tail') response rest') :
    (if c.length ≤ maxUpload then
        rest' = tail' ∧ (response = .result body c.length body.length name ∨
          response = .error .internalServerError "out of memory: out of memory")
      else response.status = .requestEntityTooLarge ∧ rest' = c ++ tail') ∧
      (parameter int 0 request.block = some 0 → body.length + headroom ≤ maxUpload →
        c.length ≤ maxUpload) := by
  obtain ⟨threads, block, env, hblock, hc⟩ := compress_of_post hroute hlen h
  obtain ⟨body', hreads, -, hpacks⟩ := post_status h
  obtain ⟨hsame, -, hbody⟩ := reads_framed hlen hreads
  have hpacked : Packs c body name := by
    rcases hpacks with ⟨-, c', name', hpacks, heq⟩ | ⟨hd, -⟩
    · cases heq
      rwa [hsame] at hpacks
    · rw [hroute] at hd
      exact absurd hd (by decide)
  obtain ⟨hdecodes, m, hmethod, -, hname⟩ := hpacked
  have hknown : Known request' := Or.inr hroute'
  have hback := post_status h'
  refine ⟨?_, fun hdefault hroom => ?_⟩
  · cases hstatus : response.status with
    | notFound =>
        rw [hstatus] at hback
        exact absurd hknown hback.1
    | requestEntityTooLarge =>
        rw [hstatus] at hback
        obtain ⟨-, hrest, length, hlength, hlt⟩ := hback
        rw [hlen'] at hlength
        cases hlength
        rw [if_neg (by omega)]
        exact ⟨rfl, hrest⟩
    | badRequest =>
        rw [hstatus] at hback
        obtain ⟨-, ⟨-, length, hlength, hle⟩ | ⟨d, hreads', hbad⟩⟩ := hback
        · rw [hlen'] at hlength
          cases hlength
          have hge := (decompress_eq_ok hdecodes).1
          unfold kHeaderSize at hge
          omega
        · rcases hbad with hbad | ⟨-, what, hwhat, -⟩
          · exact absurd hints hbad
          · rw [(reads_framed hlen' hreads').1, hdecodes] at hwhat
            cases hwhat
    | internalServerError =>
        rw [hstatus] at hback
        obtain ⟨d, hreads', -, hcompress | ⟨-, -, hresponse⟩⟩ := hback
        · rw [hroute'] at hcompress
          exact absurd hcompress (by decide)
        · obtain ⟨-, hrest, hmax⟩ := reads_framed hlen' hreads'
          rw [if_pos hmax]
          exact ⟨hrest, Or.inr hresponse⟩
    | ok =>
        rw [hstatus] at hback
        obtain ⟨d, hreads', -, ⟨hcompress, -⟩ | ⟨-, x, name', ⟨hx, m', hm', -, hname'⟩,
          hresponse⟩⟩ := hback
        · rw [hroute'] at hcompress
          exact absurd hcompress (by decide)
        · obtain ⟨hd, hrest, hmax⟩ := reads_framed hlen' hreads'
          rw [hd, hdecodes] at hx
          rw [hd, hmethod] at hm'
          cases hx
          cases hm'
          rw [if_pos hmax, hresponse, hname, hname', hd]
          exact ⟨hrest, Or.inl rfl⟩
    | other code =>
        rw [hstatus] at hback
        exact hback.elim
  · rw [hdefault] at hblock
    cases hblock
    exact (length_default_le hc hbody).trans hroom

end Lossless

/-! ## One byte, there and back -/

/-- `int`, on a few texts. -/
def intOf (text : String) : Option Int :=
  if text = "1" then some 1
  else if text = "2" then some 2
  else if text = "3" then some 3
  else if text = "15" then some 15
  else none

def postOne : HttpRequest where
  route := "/compress"
  contentLength := some "1"

def postBack : HttpRequest where
  route := "/decompress"
  contentLength := some "15"

theorem mayPost_one : MayPost {} intOf postOne [7] (.result storedSeven 1 15 "stored") [] :=
  ⟨.bytes storedSeven, ⟨_, mayReply_storedSeven, rfl⟩, rfl, rfl⟩

theorem mayPost_back :
    MayPost {} intOf postBack storedSeven (.result [7] 15 1 "stored") [] :=
  ⟨.bytes [7], ⟨_, mayReply_seven, rfl⟩, rfl, rfl⟩

theorem post_status_one : Says {} intOf postOne [7] (.result storedSeven 1 15 "stored") [] .ok :=
  post_status mayPost_one

theorem post_lossless_one :
    (if storedSeven.length ≤ maxUpload then
        ([] : List UInt8) = [] ∧
          (Response.result [7] 15 1 "stored" = .result [7] storedSeven.length 1 "stored" ∨
          Response.result [7] 15 1 "stored"
            = .error .internalServerError "out of memory: out of memory")
      else (Response.result [7] 15 1 "stored").status = .requestEntityTooLarge ∧
        [] = storedSeven ++ []) ∧
      (parameter intOf 0 postOne.block = some 0 → [(7 : UInt8)].length + headroom ≤ maxUpload →
        storedSeven.length ≤ maxUpload) := by
  have h : MayPost {} intOf postOne ([7] ++ []) (.result storedSeven 1 15 "stored") [] :=
    mayPost_one
  have h' : MayPost {} intOf postBack (storedSeven ++ []) (.result [7] 15 1 "stored") [] :=
    mayPost_back
  exact post_lossless rfl rfl h rfl rfl ⟨⟨0, rfl⟩, 0, rfl⟩ h'

end Compressly.Service

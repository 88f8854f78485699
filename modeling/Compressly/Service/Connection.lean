/-
# `Compressly.Service.Connection` — requests on one connection

`protocol_version` is HTTP/1.1, so a connection is kept: `handle` of `http.server` reads
one request after the other from it, each from where the handler of the last one
stopped.  How a request line and its headers are read is a parameter (`readHead`), and
so is which bytes `http.server` answers with an error of its own, before it closes; a
`Message` is a request that is read as one whatever follows.

Messages whose bodies the handler reads are answered one by one, as if each had a
connection of its own; but the body of a request that is refused unread is read as
requests (`connection_framing`).
-/
import Compressly.Service

namespace Compressly.Service

inductive Verb where
  | get
  | post
deriving DecidableEq

/-- A request line with its headers, as it is read, and the bytes behind it. -/
structure Head where
  verb : Verb
  request : HttpRequest
  keepAlive : Bool := true
  rest : List UInt8

/-- What `handle_one_request` reads. -/
inductive Incoming where
  /-- The end of the input, or a blank line. -/
  | nothing
  /-- No request, or none that there is a method of the handler for. -/
  | unreadable (code : Nat)
  | request (head : Head)

section Connection
variable (server : Server) (int : String → Option Int) (readHead : List UInt8 → Incoming)

/-- The handler sends `response` and leaves `left` of the connection. -/
def Sends (head : Head) (response : Response) (left : List UInt8) : Prop :=
  match head.verb with
  | .get => response = doGet server head.request ∧ left = head.rest
  | .post => MayPost server int head.request head.rest response left

/-- `handle`: the responses to the bytes of a connection.  It ends where no request is read, where
an exception escapes the handler, and where the client asked for it. -/
inductive Serves : List UInt8 → List Response → Prop
  | ends {bytes : List UInt8} : readHead bytes = .nothing → Serves bytes []
  | errs {bytes : List UInt8} {code : Nat} : readHead bytes = .unreadable code →
      Serves bytes [.sendError code]
  | raises {bytes : List UInt8} {head : Head} : readHead bytes = .request head → head.verb = .post →
      doPost server int head.request head.rest = .raises → Serves bytes []
  | closes {bytes left : List UInt8} {head : Head} {response : Response} :
      readHead bytes = .request head → head.keepAlive = false →
      Sends server int head response left → Serves bytes [response]
  | goesOn {bytes left : List UInt8} {head : Head} {response : Response}
      {responses : List Response} : readHead bytes = .request head → head.keepAlive = true →
      Sends server int head response left → Serves left responses →
      Serves bytes (response :: responses)

/-- A request on a connection that is kept. -/
structure Message where
  raw : List UInt8
  verb : Verb
  request : HttpRequest
  body : List UInt8
  reads : ∀ rest,
    readHead (raw ++ rest) = .request { verb := verb, request := request, rest := rest }

end Connection

section Framing
variable {server : Server} {int : String → Option Int} {readHead : List UInt8 → Incoming}

def Message.wire (m : Message readHead) : List UInt8 := m.raw ++ m.body

/-- The handler reads the body of the message, and no more; a `GET` has none. -/
def Message.Framed (int : String → Option Int) (m : Message readHead) : Prop :=
  match m.verb with
  | .get => m.body = []
  | .post => Known m.request ∧ contentLength int m.request = some (m.body.length : Int) ∧
      m.body ≠ [] ∧ m.body.length ≤ maxUpload

/-- A response to the message alone. -/
def Message.MaySend (server : Server) (int : String → Option Int) (m : Message readHead)
    (response : Response) : Prop :=
  Sends server int { verb := m.verb, request := m.request, rest := m.body } response []

/-- A `POST` that is answered before its body is read. -/
def Message.Refused (int : String → Option Int) (m : Message readHead) (response : Response) :
    Prop :=
  m.verb = .post ∧
    ((¬ Known m.request ∧ response = .error .notFound "not found") ∨
      (Known m.request ∧ (∃ length, contentLength int m.request = some length ∧
        (maxUpload : Int) < length) ∧
        response = .error .requestEntityTooLarge s!"body exceeds {maxUpload} bytes"))

theorem not_unknown {request : HttpRequest} (h : Known request) :
    ¬ (request.route ≠ "/compress" ∧ request.route ≠ "/decompress") :=
  fun hne => h.elim hne.1 hne.2

theorem doPost_framed {request : HttpRequest} {body : List UInt8} (hknown : Known request)
    (hlength : contentLength int request = some (body.length : Int)) (hbody : body ≠ [])
    (hmax : body.length ≤ maxUpload) (tail : List UInt8) :
    doPost server int request (body ++ tail) = dispatch server int request body tail := by
  have hpos := List.length_pos_iff.mpr hbody
  unfold doPost
  rw [if_neg (not_unknown hknown), hlength]
  dsimp only
  rw [if_neg (by omega), if_neg (by omega), Int.toNat_natCast, List.take_left, List.drop_left]

/-- What is behind the body is left, and has nothing to do with the response. -/
theorem dispatch_tail {request : HttpRequest} {body tail left : List UInt8} {response : Response} :
    (dispatch server int request body tail).Allows response left ↔
      left = tail ∧ (dispatch server int request body []).Allows response [] := by
  unfold dispatch
  cases parameter int server.defaultThreads request.threads with
  | none => simp [Plan.Allows, and_comm]
  | some threads =>
  cases parameter int 0 request.block with
  | none => simp [Plan.Allows, and_comm]
  | some block =>
  dsimp only
  by_cases hroute : request.route = "/compress"
  · rw [if_pos hroute, if_pos hroute]
    constructor
    · rintro ⟨a, ha, hresponse, hleft⟩
      exact ⟨hleft, a, ha, hresponse, rfl⟩
    · rintro ⟨hleft, a, ha, hresponse, -⟩
      exact ⟨a, ha, hresponse, hleft⟩
  · rw [if_neg hroute, if_neg hroute]
    constructor
    · rintro ⟨a, ha, hresponse, hleft⟩
      exact ⟨hleft, a, ha, hresponse, rfl⟩
    · rintro ⟨hleft, a, ha, hresponse, -⟩
      exact ⟨a, ha, hresponse, hleft⟩

/-- A framed message is answered as if it were alone. -/
theorem sends_framed {m : Message readHead} (hm : m.Framed int) {tail left : List UInt8}
    {response : Response} :
    Sends server int { verb := m.verb, request := m.request, rest := m.body ++ tail } response left
      ↔ left = tail ∧ m.MaySend server int response := by
  unfold Message.MaySend Sends
  unfold Message.Framed at hm
  cases hverb : m.verb with
  | get =>
      rw [hverb] at hm
      dsimp only at hm ⊢
      rw [hm, List.nil_append]
      constructor
      · rintro ⟨hresponse, hleft⟩
        exact ⟨hleft, hresponse, rfl⟩
      · rintro ⟨hleft, hresponse, -⟩
        exact ⟨hresponse, hleft⟩
  | post =>
      rw [hverb] at hm
      dsimp only at hm ⊢
      obtain ⟨hknown, hlength, hbody, hmax⟩ := hm
      have hself : doPost server int m.request (m.body ++ []) = _ :=
        doPost_framed hknown hlength hbody hmax []
      rw [List.append_nil] at hself
      unfold MayPost
      rw [doPost_framed hknown hlength hbody hmax tail, hself]
      exact dispatch_tail

theorem framed_not_raises {m : Message readHead} (hm : m.Framed int) (hverb : m.verb = .post)
    {tail : List UInt8} : doPost server int m.request (m.body ++ tail) ≠ .raises := by
  unfold Message.Framed at hm
  rw [hverb] at hm
  obtain ⟨hknown, hlength, hbody, hmax⟩ := hm
  rw [doPost_framed hknown hlength hbody hmax]
  unfold dispatch
  cases parameter int server.defaultThreads m.request.threads with
  | none => simp
  | some threads =>
  cases parameter int 0 m.request.block with
  | none => simp
  | some block =>
  dsimp only
  by_cases hroute : m.request.route = "/compress"
  · simp [hroute]
  · simp [hroute]

/-- An unread body is left on the connection. -/
theorem sends_refused {m : Message readHead} {refusal : Response} (hm : m.Refused int refusal)
    {rest left : List UInt8} {response : Response} :
    Sends server int { verb := m.verb, request := m.request, rest := rest } response left
      ↔ left = rest ∧ response = refusal := by
  obtain ⟨hverb, ⟨hunknown, rfl⟩ | ⟨hknown, ⟨length, hlength, hlarge⟩, rfl⟩⟩ := hm
  · have hroute : m.request.route ≠ "/compress" ∧ m.request.route ≠ "/decompress" :=
      ⟨fun h => hunknown (Or.inl h), fun h => hunknown (Or.inr h)⟩
    unfold Sends MayPost doPost
    rw [hverb]
    dsimp only
    rw [if_pos hroute]
    exact and_comm
  · have hpos : ¬ length ≤ 0 := by omega
    unfold Sends MayPost doPost
    rw [hverb]
    dsimp only
    rw [if_neg (not_unknown hknown), hlength]
    dsimp only
    rw [if_neg hpos, if_pos hlarge]
    exact and_comm

theorem refused_not_raises {m : Message readHead} {refusal : Response}
    (hm : m.Refused int refusal) (rest : List UInt8) :
    doPost server int m.request rest ≠ .raises := by
  intro hraises
  have hsends : Sends server int { verb := m.verb, request := m.request, rest := rest } refusal
      rest := (sends_refused hm).mpr ⟨rfl, rfl⟩
  unfold Sends MayPost at hsends
  rw [hm.1] at hsends
  dsimp only at hsends
  rw [hraises] at hsends
  exact hsends

/-- What the connection does at a message. -/
theorem serves_message (m : Message readHead) {rest : List UInt8} {responses : List Response} :
    Serves server int readHead (m.raw ++ rest) responses ↔
      (m.verb = .post ∧ doPost server int m.request rest = .raises ∧ responses = []) ∨
        ∃ response responses' left, responses = response :: responses' ∧
          Sends server int { verb := m.verb, request := m.request, rest := rest } response left ∧
          Serves server int readHead left responses' := by
  have hread := m.reads rest
  constructor
  · intro h
    cases h with
    | ends hnone =>
        rw [hread] at hnone
        cases hnone
    | errs herr =>
        rw [hread] at herr
        cases herr
    | raises hsome hverb hraises =>
        rw [hread] at hsome
        cases hsome
        exact Or.inl ⟨hverb, hraises, rfl⟩
    | closes hsome hclose =>
        rw [hread] at hsome
        cases hsome
        cases hclose
    | goesOn hsome _ hsends hrest =>
        rw [hread] at hsome
        cases hsome
        exact Or.inr ⟨_, _, _, rfl, hsends, hrest⟩
  · rintro (⟨hverb, hraises, rfl⟩ | ⟨response, responses', left, rfl, hsends, hrest⟩)
    · exact .raises hread hverb hraises
    · exact .goesOn hread rfl hsends hrest

/-- One message after the other. -/
theorem serves_framed (hend : readHead [] = .nothing) (messages : List (Message readHead))
    (hframed : ∀ m ∈ messages, m.Framed int) {responses : List Response} :
    Serves server int readHead (messages.flatMap Message.wire) responses ↔
      List.Forall₂ (Message.MaySend server int) messages responses := by
  induction messages generalizing responses with
  | nil =>
      rw [List.flatMap_nil, List.forall₂_nil_left_iff]
      constructor
      · intro h
        cases h with
        | ends => rfl
        | raises => rfl
        | errs herr =>
            rw [hend] at herr
            cases herr
        | closes hsome =>
            rw [hend] at hsome
            cases hsome
        | goesOn hsome =>
            rw [hend] at hsome
            cases hsome
      · rintro rfl
        exact .ends hend
  | cons m messages ih =>
      have hm := hframed m List.mem_cons_self
      have ih' := @ih fun m' hm' => hframed m' (List.mem_cons_of_mem _ hm')
      rw [List.flatMap_cons, Message.wire, List.append_assoc, serves_message,
        List.forall₂_cons_left_iff]
      constructor
      · rintro (⟨hverb, hraises, -⟩ | ⟨response, responses', left, rfl, hsends, hrest⟩)
        · exact absurd hraises (framed_not_raises hm hverb)
        · obtain ⟨rfl, hsend⟩ := (sends_framed hm).mp hsends
          exact ⟨response, responses', hsend, ih'.mp hrest, rfl⟩
      · rintro ⟨response, responses', hsend, hrest, rfl⟩
        exact Or.inr ⟨response, responses', _, rfl, (sends_framed hm).mpr ⟨rfl, hsend⟩,
          ih'.mpr hrest⟩

/-- **Where a connection goes on.**  Messages whose bodies are read are answered one by one and in
order, each as if it were alone.  But what comes with a request that is refused unread, with 404 or
413, is served as the requests it spells. -/
theorem connection_framing (hend : readHead [] = .nothing) (messages : List (Message readHead))
    (hframed : ∀ m ∈ messages, m.Framed int) :
    (∀ responses, Serves server int readHead (messages.flatMap Message.wire) responses ↔
        List.Forall₂ (Message.MaySend server int) messages responses) ∧
      ∀ (m : Message readHead) (refusal : Response) (behind : List UInt8), m.Refused int refusal →
        m.body ++ behind = messages.flatMap Message.wire →
        ∀ responses, Serves server int readHead (m.wire ++ behind) responses ↔
          ∃ responses', responses = refusal :: responses' ∧
            List.Forall₂ (Message.MaySend server int) messages responses' := by
  refine ⟨fun responses => serves_framed hend messages hframed,
    fun m refusal behind hm hbody responses => ?_⟩
  rw [Message.wire, List.append_assoc, hbody, serves_message]
  constructor
  · rintro (⟨-, hraises, -⟩ | ⟨response, responses', left, rfl, hsends, hrest⟩)
    · exact absurd hraises (refused_not_raises hm _)
    · obtain ⟨rfl, rfl⟩ := (sends_refused hm).mp hsends
      exact ⟨responses', rfl, (serves_framed hend messages hframed).mp hrest⟩
  · rintro ⟨responses', rfl, hrest⟩
    refine Or.inr ⟨refusal, responses', _, rfl, (sends_refused hm).mpr ⟨rfl, rfl⟩, ?_⟩
    exact (serves_framed hend messages hframed).mpr hrest

end Framing

/-! ## A refused upload that holds a request -/

/-- `GET /health HTTP/1.1`, and a blank line. -/
def rawHealth : List UInt8 :=
  [71, 69, 84, 32, 47, 104, 101, 97, 108, 116, 104, 32, 72, 84, 84, 80, 47, 49, 46, 49, 13, 10, 13,
    10]

/-- `POST /zip HTTP/1.1`, and a blank line. -/
def rawZip : List UInt8 :=
  [80, 79, 83, 84, 32, 47, 122, 105, 112, 32, 72, 84, 84, 80, 47, 49, 46, 49, 13, 10, 13, 10]

/-- How the two are read. -/
def readTwo (bytes : List UInt8) : Incoming :=
  if rawHealth <+: bytes then
    .request
      { verb := .get, request := { route := "/health" }, rest := bytes.drop rawHealth.length }
  else if rawZip <+: bytes then
    .request { verb := .post, request := { route := "/zip" }, rest := bytes.drop rawZip.length }
  else if bytes = [] then .nothing
  else .unreadable 400

def getHealth : Message readTwo where
  raw := rawHealth
  verb := .get
  request := { route := "/health" }
  body := []
  reads rest := by
    unfold readTwo
    rw [if_pos (List.prefix_append _ _), List.drop_left]

def postZip : Message readTwo where
  raw := rawZip
  verb := .post
  request := { route := "/zip" }
  body := getHealth.wire
  reads rest := by
    unfold readTwo
    have hne : ¬ rawHealth <+: rawZip ++ rest := by
      rintro ⟨t, ht⟩
      cases ht
    rw [if_neg hne, if_pos (List.prefix_append _ _), List.drop_left]

theorem connection_framing_health :
    Serves {} intOf readTwo (postZip.wire ++ [])
      [.error .notFound "not found", .health "Compressly 1.0" 0 maxUpload none] := by
  have hframed : ∀ m ∈ [getHealth], m.Framed intOf := by
    intro m hm
    rw [List.mem_singleton.mp hm]
    rfl
  have hrefused : postZip.Refused intOf (.error .notFound "not found") :=
    ⟨rfl, Or.inl ⟨by unfold Known; decide, rfl⟩⟩
  refine ((connection_framing rfl [getHealth] hframed).2 postZip _ [] hrefused rfl _).mpr
    ⟨_, rfl, .cons ⟨rfl, rfl⟩ .nil⟩

end Compressly.Service

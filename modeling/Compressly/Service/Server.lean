/-
# `Compressly.Service.Server` — all connections at once

`ThreadingHTTPServer` runs `handle` in a thread of its own for every connection, and the
handlers share one `Compressor`.  A `Site` is the library with its threads (`Session`)
and, for each connection, where its handler is and what it has sent.  A handler goes on
alone until it calls the codec; then it waits for the answer, while the library and the
other handlers go on.  A call that ends the process ends them all.

Seen from the library, the handlers are threads like any others (`site_refines`); seen
from a connection, it is served as if it were the only one (`server_isolated`).
-/
import Compressly.Service.Connection

namespace Compressly.Service

open Threads Calls

/-! ## The steps -/

/-- Where the handler of a connection is. -/
inductive Handler where
  | reading (bytes : List UInt8)
  | calling (head : Head) (request : Request) (answered : Answer → Response) (rest : List UInt8)
  | closed

/-- Behind a response. -/
def Head.next (head : Head) (rest : List UInt8) : Handler :=
  if head.keepAlive then .reading rest else .closed

structure Site (W : Type) where
  session : Session W := {}
  handler : W → Handler
  sent : W → List Response := fun _ => []

/-- A handler goes on alone, or the library takes part. -/
inductive Activity (W : Type)
  | alone (w : W)
  | library (event : Option (Event W Request Answer))

def Activity.library? {W : Type} : Activity W → Option (Option (Event W Request Answer))
  | .alone _ => none
  | .library event => some event

variable {W : Type} [DecidableEq W]

def Site.goto (s : Site W) (w : W) (handler : Handler) : Site W :=
  { s with handler := Function.update s.handler w handler }

/-- `w` sends a response and goes on. -/
def Site.respond (s : Site W) (w : W) (response : Response) (handler : Handler) : Site W :=
  { s with
    handler := Function.update s.handler w handler
    sent := Function.update s.sent w (s.sent w ++ [response]) }

section Steps
variable (server : Server) (int : String → Option Int) (readHead : List UInt8 → Incoming)

inductive SiteStep : Site W → Activity W → Site W → Prop
  | ends {s : Site W} {w : W} {bytes : List UInt8} : s.session.client w = .idle →
      s.handler w = .reading bytes → readHead bytes = .nothing →
      SiteStep s (.alone w) (s.goto w .closed)
  | errs {s : Site W} {w : W} {bytes : List UInt8} {code : Nat} : s.session.client w = .idle →
      s.handler w = .reading bytes → readHead bytes = .unreadable code →
      SiteStep s (.alone w) (s.respond w (.sendError code) .closed)
  | raises {s : Site W} {w : W} {bytes : List UInt8} {head : Head} :
      s.session.client w = .idle → s.handler w = .reading bytes →
      readHead bytes = .request head → head.verb = .post →
      doPost server int head.request head.rest = .raises →
      SiteStep s (.alone w) (s.goto w .closed)
  | gets {s : Site W} {w : W} {bytes : List UInt8} {head : Head} :
      s.session.client w = .idle → s.handler w = .reading bytes →
      readHead bytes = .request head → head.verb = .get →
      SiteStep s (.alone w) (s.respond w (doGet server head.request) (head.next head.rest))
  | refuses {s : Site W} {w : W} {bytes rest : List UInt8} {head : Head} {response : Response} :
      s.session.client w = .idle → s.handler w = .reading bytes →
      readHead bytes = .request head → head.verb = .post →
      doPost server int head.request head.rest = .sends response rest →
      SiteStep s (.alone w) (s.respond w response (head.next rest))
  | calls {s : Site W} {w : W} {bytes rest : List UInt8} {head : Head} {request : Request}
      {answered : Answer → Response} {t : Session W} : s.handler w = .reading bytes →
      readHead bytes = .request head → head.verb = .post →
      doPost server int head.request head.rest = .calls request answered rest →
      SessionStep s.session (some (.call w request)) t →
      SiteStep s (.library (some (.call w request)))
        { s.goto w (.calling head request answered rest) with session := t }
  | inside {s : Site W} {t : Session W} : SessionStep s.session none t →
      SiteStep s (.library none) { s with session := t }
  | answers {s : Site W} {w : W} {head : Head} {request : Request}
      {answered : Answer → Response} {rest : List UInt8} {a : Answer} {t : Session W} :
      s.handler w = .calling head request answered rest →
      SessionStep s.session (some (.answer w a)) t →
      SiteStep s (.library (some (.answer w a)))
        { s.respond w (answered a) (head.next rest) with session := t }

/-- The server, at the moment when its connections carry `input`. -/
def site (input : W → List UInt8) : Machine (Site W) (Activity W) where
  start s := s = { handler := fun w => .reading (input w) }
  step := SiteStep server int readHead

/-- To the library the handlers are threads like any others. -/
theorem site_refines (input : W → List UInt8) :
    Refines (site server int readHead input) (session W) Site.session Activity.library? where
  start hs := by
    cases hs
    rfl
  step hs he := by
    cases hs with
    | calls _ _ _ _ ht =>
        cases he
        exact ht
    | inside ht =>
        cases he
        exact ht
    | answers _ ht =>
        cases he
        exact ht
    | ends => cases he
    | errs => cases he
    | raises => cases he
    | gets => cases he
    | refuses => cases he
  stutter hs he := by
    cases hs with
    | calls => cases he
    | inside => cases he
    | answers => cases he
    | ends => rfl
    | errs => rfl
    | raises => rfl
    | gets => rfl
    | refuses => rfl

end Steps

/-! ## What a connection has had so far -/

section Served
variable (server : Server) (int : String → Option Int) (readHead : List UInt8 → Incoming)

/-- Of `bytes` all but `left` are read, and these responses are sent. -/
inductive Served (bytes : List UInt8) : List Response → List UInt8 → Prop
  | start : Served bytes [] bytes
  | next {sent : List Response} {left rest : List UInt8} {head : Head} {response : Response} :
      Served bytes sent left → readHead left = .request head → head.keepAlive = true →
      Sends server int head response rest → Served bytes (sent ++ [response]) rest

/-- What the handler of a connection has behind it. -/
def Handler.Kept (bytes : List UInt8) (sent : List Response) : Handler → Prop
  | .reading left => Served server int readHead bytes sent left
  | .calling head request answered rest => ∃ left, Served server int readHead bytes sent left ∧
      readHead left = .request head ∧ head.verb = .post ∧
      doPost server int head.request head.rest = .calls request answered rest
  | .closed => Serves server int readHead bytes sent

variable {server : Server} {int : String → Option Int} {readHead : List UInt8 → Incoming}
  {bytes left : List UInt8} {sent : List Response}

theorem Served.serves (h : Served server int readHead bytes sent left) {responses : List Response}
    (hrest : Serves server int readHead left responses) :
    Serves server int readHead bytes (sent ++ responses) := by
  induction h generalizing responses with
  | start => exact hrest
  | @next sent left rest head response _ hread hkeep hsends ih =>
      rw [List.append_assoc]
      exact ih (.goesOn hread hkeep hsends hrest)

theorem Served.closes (h : Served server int readHead bytes sent left)
    (hend : Serves server int readHead left []) : Serves server int readHead bytes sent := by
  have hserves := h.serves hend
  rwa [List.append_nil] at hserves

/-- One response more, and the connection is kept or closed. -/
theorem Served.responds (h : Served server int readHead bytes sent left) {head : Head}
    {response : Response} {rest : List UInt8} (hread : readHead left = .request head)
    (hsends : Sends server int head response rest) :
    (head.next rest).Kept server int readHead bytes (sent ++ [response]) := by
  unfold Head.next
  by_cases hkeep : head.keepAlive = true
  · rw [if_pos hkeep]
    exact h.next hread hkeep hsends
  · rw [if_neg hkeep]
    exact h.serves (.closes hread (Bool.eq_false_of_not_eq_true hkeep) hsends)

/-- So far each message has had its response, in order. -/
theorem Served.framed (hend : readHead [] = .nothing) {messages : List (Message readHead)}
    (hframed : ∀ m ∈ messages, m.Framed int)
    (h : Served server int readHead (messages.flatMap Message.wire) sent left) :
    ∃ done todo, messages = done ++ todo ∧ left = todo.flatMap Message.wire ∧
      List.Forall₂ (Message.MaySend server int) done sent := by
  induction h with
  | start => exact ⟨[], messages, rfl, rfl, .nil⟩
  | @next sent left rest head response _ hread _ hsends ih =>
      obtain ⟨done, todo, hmessages, hleft, hdone⟩ := ih
      cases todo with
      | nil =>
          rw [hleft, List.flatMap_nil, hend] at hread
          cases hread
      | cons m todo =>
          rw [hleft, List.flatMap_cons, Message.wire, List.append_assoc, m.reads] at hread
          cases hread
          have hm : m.Framed int := hframed m (by
            rw [hmessages]
            exact List.mem_append_right done List.mem_cons_self)
          obtain ⟨hrest, hsend⟩ := (sends_framed hm).mp hsends
          refine ⟨done ++ [m], todo, ?_, hrest, List.rel_append hdone (.cons hsend .nil)⟩
          rw [hmessages, List.append_assoc, List.singleton_append]

end Served

/-! ## What holds of every run -/

section Runs
variable {server : Server} {int : String → Option Int} {readHead : List UInt8 → Incoming}
  {input : W → List UInt8}

def Handler.request? : Handler → Option Request
  | .calling _ request _ _ => some request
  | .reading _ | .closed => none

/-- The threads are inside the library for what their handlers have asked, and every connection has
had what it alone could have. -/
structure SiteInv (server : Server) (int : String → Option Int)
    (readHead : List UInt8 → Incoming) (input : W → List UInt8) (s : Site W) : Prop where
  owned : Owned s.session
  asks : ∀ w, (s.handler w).request? = s.session.pending w
  kept : ∀ w, (s.handler w).Kept server int readHead (input w) (s.sent w)

theorem head_next_request? (head : Head) (rest : List UInt8) :
    (head.next rest).request? = none := by
  unfold Head.next
  split
  case isTrue => rfl
  case isFalse => rfl

/-- One handler goes on, with what it has asked and what it has behind it. -/
theorem SiteInv.move {s t : Site W} (h : SiteInv server int readHead input s) {w : W}
    {handler : Handler} {sent : List Response} (howned : Owned t.session)
    (hhandler : t.handler = Function.update s.handler w handler)
    (hsent : t.sent = Function.update s.sent w sent)
    (hpending : t.session.pending = Function.update s.session.pending w handler.request?)
    (hkept : handler.Kept server int readHead (input w) sent) :
    SiteInv server int readHead input t := by
  refine ⟨howned, fun v => ?_, fun v => ?_⟩
  · rw [hhandler, hpending]
    by_cases hv : v = w
    · rw [hv, Function.update_self, Function.update_self]
    · rw [Function.update_of_ne hv, Function.update_of_ne hv]
      exact h.asks v
  · rw [hhandler, hsent]
    by_cases hv : v = w
    · rw [hv, Function.update_self, Function.update_self]
      exact hkept
    · rw [Function.update_of_ne hv, Function.update_of_ne hv]
      exact h.kept v

/-- A handler that goes on alone asks for nothing. -/
theorem SiteInv.alone {s : Site W} (h : SiteInv server int readHead input s) {w : W}
    {bytes : List UInt8} (hw : s.handler w = .reading bytes) {handler : Handler}
    (hnone : handler.request? = none) :
    s.session.pending = Function.update s.session.pending w handler.request? := by
  have hpending := h.asks w
  rw [hw] at hpending
  rw [hnone]
  exact (Function.update_eq_self w s.session.pending).symm.trans
    (congrArg (Function.update s.session.pending w) hpending.symm)

omit [DecidableEq W] in
theorem SiteInv.served {s : Site W} (h : SiteInv server int readHead input s) {w : W}
    {bytes : List UInt8} (hw : s.handler w = .reading bytes) :
    Served server int readHead (input w) (s.sent w) bytes := by
  have hkept := h.kept w
  rwa [hw] at hkept

theorem SiteInv.step {s t : Site W} {e : Activity W}
    (h : SiteInv server int readHead input s) (hs : SiteStep server int readHead s e t) :
    SiteInv server int readHead input t := by
  cases hs with
  | @ends w bytes hidle hw hread =>
      exact h.move h.owned rfl (Function.update_eq_self w s.sent).symm (h.alone hw rfl)
        ((h.served hw).closes (.ends hread))
  | @errs w bytes code hidle hw hread =>
      exact h.move h.owned rfl rfl (h.alone hw rfl) ((h.served hw).serves (.errs hread))
  | @raises w bytes head hidle hw hread hverb hraises =>
      exact h.move h.owned rfl (Function.update_eq_self w s.sent).symm (h.alone hw rfl)
        ((h.served hw).closes (.raises hread hverb hraises))
  | @gets w bytes head hidle hw hread hverb =>
      have hsends : Sends server int head (doGet server head.request) head.rest := by
        unfold Sends
        rw [hverb]
        exact ⟨rfl, rfl⟩
      exact h.move h.owned rfl rfl (h.alone hw (head_next_request? _ _))
        ((h.served hw).responds hread hsends)
  | @refuses w bytes rest head response hidle hw hread hverb hplan =>
      have hsends : Sends server int head response rest := by
        unfold Sends MayPost
        rw [hverb, hplan]
        exact ⟨rfl, rfl⟩
      exact h.move h.owned rfl rfl (h.alone hw (head_next_request? _ _))
        ((h.served hw).responds hread hsends)
  | @calls w bytes rest head request answered u hw hread hverb hplan hu =>
      have hstep : Calls.Step MayAnswer s.session.pending (.call w request) u.pending :=
        session_refines.step ⟨h.owned, hu⟩ rfl
      refine h.move (h.owned.step hu) rfl (Function.update_eq_self w s.sent).symm ?_
        ⟨bytes, h.served hw, hread, hverb, hplan⟩
      generalize u.pending = after at hstep
      cases hstep with
      | call => rfl
  | @inside u hu =>
      have hsame : u.pending = s.session.pending := session_refines.stutter ⟨h.owned, hu⟩ rfl
      exact ⟨h.owned.step hu, fun v => (h.asks v).trans (congrFun hsame v).symm, h.kept⟩
  | @answers w head request answered rest a u hw hu =>
      have hstep : Calls.Step MayAnswer s.session.pending (.answer w a) u.pending :=
        session_refines.step ⟨h.owned, hu⟩ rfl
      have hasked := h.asks w
      have hkept := h.kept w
      rw [hw] at hasked hkept
      obtain ⟨left, hserved, hread, hverb, hplan⟩ := hkept
      refine h.move (h.owned.step hu) rfl rfl ?_ (hserved.responds hread ?_)
      · rw [head_next_request?]
        generalize u.pending = after at hstep
        cases hstep with
        | answer => rfl
      · -- the answer is to the request that the handler made
        have hmay : MayAnswer request a := by
          generalize u.pending = after at hstep
          cases hstep with
          | answer hpending hmay =>
              rw [← hasked] at hpending
              cases hpending
              exact hmay
        unfold Sends MayPost
        rw [hverb, hplan]
        exact ⟨a, hmay, rfl, rfl⟩

theorem site_run {log : List (Activity W)} {s : Site W}
    (h : Run (site server int readHead input) log s) : SiteInv server int readHead input s := by
  refine Run.invariant (I := fun _ s => SiteInv server int readHead input s) ?_ ?_ h
  · intro s hs
    cases hs
    exact ⟨(session_run (.start rfl)).1, fun w => rfl, fun w => .start⟩
  · intro log s e t hs he
    exact hs.step he

/-- When the process has ended, no handler goes on. -/
theorem site_over {s t : Site W} {e : Activity W} (h : Stopped s.session) {w : W}
    {open? : Option Request} (hw : s.session.client w = .ended open?) :
    ¬ SiteStep server int readHead s e t := by
  intro hs
  have hbusy : ∀ v, s.session.client v ≠ .idle := by
    intro v hv
    rw [h.all hw v] at hv
    cases hv
  cases hs with
  | ends hidle => exact hbusy _ hidle
  | errs hidle => exact hbusy _ hidle
  | raises hidle => exact hbusy _ hidle
  | gets hidle => exact hbusy _ hidle
  | refuses hidle => exact hbusy _ hidle
  | calls _ _ _ _ hu => exact h.over hw hu
  | inside hu => exact h.over hw hu
  | answers _ hu => exact h.over hw hu

/-- **Connections do not meet**, except where one ends the process.  In every run of the server, in
any interleaving, the library is used safely; a connection that is closed has had what it alone
could have; and on one that carries messages whose bodies are read, each of them has had its
response so far, in order, and all of them when it is closed.  A handler waits for good, or all are
gone, only where the library was asked to compress with a pool, and any such request may end the
process as long as it is inside. -/
theorem server_isolated {log : List (Activity W)} {s : Site W}
    (h : Run (site server int readHead input) log s) :
    ((∀ w, s.session.client w ≠ .faulted) ∧
      ∀ out, s.session.heap out ≠ none ↔ ∃! w, (s.session.client w).out? = some out) ∧
    ((∀ w, (s.handler w).request? = s.session.pending w) ∧ Stopped s.session ∧
      (∀ w open?, s.session.client w = .ended open? →
        ∀ e t, ¬ SiteStep server int readHead s e t) ∧
      ∀ w request, s.session.client w = .inside request → request.Pools →
        SiteStep server int readHead s (.library none)
          { s with session := s.session.terminated }) ∧
    ∀ w, (s.handler w = .closed → Serves server int readHead (input w) (s.sent w)) ∧
      ∀ messages : List (Message readHead), readHead [] = .nothing →
        (∀ m ∈ messages, m.Framed int) → input w = messages.flatMap Message.wire →
        ∃ done todo, messages = done ++ todo ∧
          List.Forall₂ (Message.MaySend server int) done (s.sent w) ∧
          (s.handler w = .closed → todo = []) := by
  have hinv := site_run h
  have hsession := h.refine (site_refines server int readHead input)
  obtain ⟨hfaults, hheap, -⟩ := session_safe hsession
  have hstopped := session_stopped hsession
  have hclosed : ∀ w, s.handler w = .closed →
      Serves server int readHead (input w) (s.sent w) := by
    intro w hw
    have hkept := hinv.kept w
    rwa [hw] at hkept
  refine ⟨⟨hfaults, hheap⟩, ⟨hinv.asks, hstopped, fun w open? hw e t => site_over hstopped hw,
    fun w request hw hpools => .inside (.ends hw ((mayStop_iff (Or.inl rfl)).mpr hpools))⟩,
    fun w => ⟨hclosed w, fun messages hend hframed hinput => ?_⟩⟩
  have hkept := hinv.kept w
  cases hw : s.handler w with
  | closed =>
      have hserves := hclosed w hw
      rw [hinput, serves_framed hend messages hframed] at hserves
      exact ⟨messages, [], (List.append_nil _).symm, hserves, fun _ => rfl⟩
  | reading left =>
      rw [hw, hinput] at hkept
      obtain ⟨done, todo, hmessages, -, hdone⟩ := Served.framed hend hframed hkept
      exact ⟨done, todo, hmessages, hdone, nofun⟩
  | calling head request answered rest =>
      rw [hw, hinput] at hkept
      obtain ⟨left, hserved, -⟩ := hkept
      obtain ⟨done, todo, hmessages, -, hdone⟩ := hserved.framed hend hframed
      exact ⟨done, todo, hmessages, hdone, nofun⟩

end Runs

/-! ## Two connections -/

/-- `POST /compress HTTP/1.1` with `Content-Length: 1`, and a blank line. -/
def rawOne : List UInt8 :=
  [80, 79, 83, 84, 32, 47, 99, 111, 109, 112, 114, 101, 115, 115, 32, 72, 84, 84, 80, 47, 49, 46,
    49, 13, 10, 67, 111, 110, 116, 101, 110, 116, 45, 76, 101, 110, 103, 116, 104, 58, 32, 49, 13,
    10, 13, 10]

/-- `POST /compress?threads=2&block=2 HTTP/1.1` with `Content-Length: 3`, and a blank line. -/
def rawThree : List UInt8 :=
  [80, 79, 83, 84, 32, 47, 99, 111, 109, 112, 114, 101, 115, 115, 63, 116, 104, 114, 101, 97, 100,
    115, 61, 50, 38, 98, 108, 111, 99, 107, 61, 50, 32, 72, 84, 84, 80, 47, 49, 46, 49, 13, 10, 67,
    111, 110, 116, 101, 110, 116, 45, 76, 101, 110, 103, 116, 104, 58, 32, 51, 13, 10, 13, 10]

def postThree : HttpRequest where
  route := "/compress"
  threads := some "2"
  block := some "2"
  contentLength := some "3"

/-- How these two and `rawHealth` are read. -/
def readAny (bytes : List UInt8) : Incoming :=
  if rawHealth <+: bytes then
    .request
      { verb := .get, request := { route := "/health" }, rest := bytes.drop rawHealth.length }
  else if rawOne <+: bytes then
    .request { verb := .post, request := postOne, rest := bytes.drop rawOne.length }
  else if rawThree <+: bytes then
    .request { verb := .post, request := postThree, rest := bytes.drop rawThree.length }
  else if bytes = [] then .nothing
  else .unreadable 400

/-- One connection posts `upload`, the other asks for the health. -/
def inputs (upload : List UInt8) : Bool → List UInt8
  | true => upload
  | false => rawHealth

/-- The second is answered while the first is inside the library.  Where the first asks for a pool,
it may end the process instead, and the second is not answered. -/
theorem server_isolated_two :
    (∃ log s, Run (site {} intOf readAny (inputs (rawOne ++ [7]))) log s ∧
      s.sent false = [.health "Compressly 1.0" 0 maxUpload none] ∧
      s.sent true = [.result storedSeven 1 15 "stored"] ∧
      ((∀ w, s.session.client w ≠ .faulted) ∧
        ∀ out, s.session.heap out ≠ none ↔ ∃! w, (s.session.client w).out? = some out) ∧
      ∀ w, Serves {} intOf readAny (inputs (rawOne ++ [7]) w) (s.sent w)) ∧
    ∃ log s, Run (site {} intOf readAny (inputs (rawThree ++ [7, 7, 7]))) log s ∧
      s.session.client true = .ended (some (.compress [7, 7, 7] 2 2)) ∧
      s.session.client false = .ended none ∧ s.sent false = [] ∧
      ∀ e t, ¬ SiteStep {} intOf readAny s e t := by
  constructor
  · have hpost : readAny (rawOne ++ [7])
        = .request { verb := .post, request := postOne, rest := [7] } := rfl
    have hget : readAny rawHealth
        = .request { verb := .get, request := { route := "/health" }, rest := [] } := rfl
    have h₀ : Run (site {} intOf readAny (inputs (rawOne ++ [7]))) []
        { handler := fun w => .reading (inputs (rawOne ++ [7]) w) } := .start rfl
    have h₁ := h₀.step (.calls (w := true) rfl hpost rfl rfl (.call rfl))
    have h₂ := h₁.step (.gets (w := false) rfl rfl hget rfl)
    have h₃ := h₂.step (.inside (.returns (w := true) rfl mayReply_storedSeven rfl
      (.buffer (by decide : (1 : Nat) ≠ 0) rfl)))
    have h₄ := h₃.step (.inside (.copy (w := true) rfl))
    have h₅ := h₄.step (.answers (w := true) rfl (.free rfl rfl))
    have h₆ := h₅.step (.ends (w := true) rfl rfl rfl)
    have h₇ := h₆.step (.ends (w := false) rfl rfl rfl)
    obtain ⟨hsafe, -, hconnections⟩ := server_isolated h₇
    refine ⟨_, _, h₇, rfl, rfl, hsafe, fun w => (hconnections w).1 ?_⟩
    cases w with
    | true => rfl
    | false => rfl
  · have hpost : readAny (rawThree ++ [7, 7, 7])
        = .request { verb := .post, request := postThree, rest := [7, 7, 7] } := rfl
    have hpools : (Request.compress [7, 7, 7] 2 2).Pools := ⟨reversed, rfl, rfl, by decide⟩
    have h₀ : Run (site {} intOf readAny (inputs (rawThree ++ [7, 7, 7]))) []
        { handler := fun w => .reading (inputs (rawThree ++ [7, 7, 7]) w) } := .start rfl
    have h₁ := h₀.step (.calls (w := true) rfl hpost rfl rfl (.call rfl))
    have h₂ := h₁.step ((server_isolated h₁).2.1.2.2.2 true _ rfl hpools)
    exact ⟨_, _, h₂, rfl, rfl, rfl, (server_isolated h₂).2.1.2.2.1 true _ rfl⟩

end Compressly.Service

/-
# `Compressly.CApi.Session` — threads over the C boundary

`Compressor` of `cmpr.py`, shared by threads: `_call` makes the foreign call, copies
the buffer it is given and frees it, or raises with `cmpr_last_error`.  Between any two
of these the other threads go on, on one heap:

    call      the arguments are converted, the thread is inside the library
    reply     the function returns: a fresh buffer, or a message for this thread
    copy      `out[: out_size.value]`
    answer    `cmpr_free` and the bytes, or `CompressionError`
    hangs     the function does not return
    ends      nor does any other: the process is gone, with its threads and its memory

A thread reads no memory that is not its own, each buffer is freed once and by its
owner, and every thread is answered as if it were alone (`session_safe`); so what one
thread compresses any other decompresses (`session_lossless`).  The last two steps are
for requests that a pool is made for, and for no others (`session_stopped`).
-/
import Compressly.CApi.Requests
import Compressly.Lib.Calls

namespace Compressly

open Threads Calls ThreadPool

/-! ## The steps -/

abbrev Address := Nat

/-- The buffers the library has allocated, with the bytes it copied into them. -/
abbrev Heap := Address → Option (List UInt8)

/-- Where a thread is in `_call`. -/
inductive Client where
  | idle
  | inside (request : Request)
  | failed (request : Request) (status : Status)
  | returned (request : Request) (out : Address) (outSize : Nat)
  | copied (request : Request) (out : Address) (result : List UInt8)
  /-- Memory was read or freed that is not allocated. -/
  | faulted
  | hung (request : Request)
  /-- The process has ended, with this request open. -/
  | ended (open? : Option Request)

def Client.request? : Client → Option Request
  | .idle | .faulted => none
  | .inside request => some request
  | .failed request _ => some request
  | .returned request _ _ => some request
  | .copied request _ _ => some request
  | .hung request => some request
  | .ended open? => open?

structure Session (W : Type) where
  heap : Heap := fun _ => none
  /-- `g_lastError`, which is `thread_local`. -/
  lastError : W → String := fun _ => ""
  client : W → Client := fun _ => .idle

/-- `*out` of a reply: null, or the address of a buffer that was not allocated. -/
inductive HandsOut : Heap → Option (List UInt8) → Address → Heap → Prop
  | null {heap : Heap} : HandsOut heap none 0 heap
  | buffer {heap : Heap} {source : List UInt8} {out : Address} : out ≠ 0 → heap out = none →
      HandsOut heap (some source) out (Function.update heap out (some source))

/-- `bytes(bytearray(out[: out_size.value])) if out_size.value else b""`. -/
def readOut (heap : Heap) (out : Address) (outSize : Nat) : Option (List UInt8) :=
  if outSize = 0 then some []
  else
    match heap out with
    | some buffer => if outSize ≤ buffer.length then some (buffer.take outSize) else none
    | none => none

def cmprFree (heap : Heap) (buffer : Address) : Option Heap :=
  if buffer = 0 then some heap
  else
    match heap buffer with
    | some _ => some (Function.update heap buffer none)
    | none => none

variable {W : Type} [DecidableEq W]

def Session.goto (s : Session W) (w : W) (c : Client) : Session W :=
  { s with client := Function.update s.client w c }

/-- What `std::terminate` leaves. -/
def Session.terminated (s : Session W) : Session W where
  lastError := s.lastError
  client w := .ended (s.client w).request?

inductive SessionStep : Session W → Option (Event W Request Answer) → Session W → Prop
  | call {s : Session W} {w : W} {request : Request} : s.client w = .idle →
      SessionStep s (some (.call w request)) (s.goto w (.inside request))
  | returns {s : Session W} {w : W} {request : Request} {r : Reply} {out : Address} {heap : Heap} :
      s.client w = .inside request → MayReply request r → r.status = .ok →
      HandsOut s.heap r.out out heap →
      SessionStep s none
        { heap := heap
          lastError := Function.update s.lastError w r.lastError
          client := Function.update s.client w (.returned request out r.outSize) }
  | fails {s : Session W} {w : W} {request : Request} {r : Reply} :
      s.client w = .inside request → MayReply request r → r.status ≠ .ok →
      SessionStep s none
        { heap := s.heap
          lastError := Function.update s.lastError w r.lastError
          client := Function.update s.client w (.failed request r.status) }
  | copy {s : Session W} {w : W} {request : Request} {out : Address} {outSize : Nat} :
      s.client w = .returned request out outSize →
      SessionStep s none
        (s.goto w (match readOut s.heap out outSize with
          | some result => .copied request out result
          | none => .faulted))
  | free {s : Session W} {w : W} {request : Request} {out : Address} {result : List UInt8}
      {heap : Heap} : s.client w = .copied request out result → cmprFree s.heap out = some heap →
      SessionStep s (some (.answer w (.bytes result))) { s.goto w .idle with heap := heap }
  | freeFaults {s : Session W} {w : W} {request : Request} {out : Address} {result : List UInt8} :
      s.client w = .copied request out result → cmprFree s.heap out = none →
      SessionStep s none (s.goto w .faulted)
  | raise {s : Session W} {w : W} {request : Request} {status : Status} :
      s.client w = .failed request status →
      SessionStep s (some (.answer w (.compressionError status (s.lastError w)))) (s.goto w .idle)
  | hangs {s : Session W} {w : W} {request : Request} : s.client w = .inside request →
      MayStop request .hang → SessionStep s none (s.goto w (.hung request))
  | ends {s : Session W} {w : W} {request : Request} : s.client w = .inside request →
      MayStop request .terminate → SessionStep s none s.terminated

def session (W : Type) [DecidableEq W] : Machine (Session W) (Option (Event W Request Answer)) where
  start s := s = {}
  step := SessionStep

/-! ## Whose the buffers are -/

/-- The buffer a thread has been handed out and has not freed. -/
def Client.out? : Client → Option Address
  | .returned _ out _ => some out
  | .copied _ out _ => some out
  | .idle | .inside _ | .failed _ _ | .faulted | .hung _ | .ended _ => none

/-- What a thread knows of the part of the state that is its own. -/
def Client.Sound (heap : Heap) (message : String) : Client → Prop
  | .idle | .inside _ | .hung _ | .ended _ => True
  | .failed request status => MayAnswer request (.compressionError status message)
  | .returned request out outSize => out ≠ 0 ∧
      ∃ buffer, heap out = some buffer ∧ outSize = buffer.length ∧ MayAnswer request (.bytes buffer)
  | .copied request out result => out ≠ 0 ∧ heap out ≠ none ∧ MayAnswer request (.bytes result)
  | .faulted => False

structure Owned (s : Session W) : Prop where
  sound : ∀ w, (s.client w).Sound s.heap (s.lastError w)
  /-- No buffer has two owners. -/
  apart : ∀ v w out, (s.client v).out? = some out → (s.client w).out? = some out → v = w
  /-- No buffer is left behind. -/
  owner : ∀ out, s.heap out ≠ none → ∃ w, (s.client w).out? = some out

/-- What other threads do to other buffers is nothing to a thread. -/
theorem Client.Sound.frame {heap heap' : Heap} {message : String} {c : Client}
    (h : c.Sound heap message) (hsame : ∀ out, c.out? = some out → heap' out = heap out) :
    c.Sound heap' message := by
  cases c with
  | idle => trivial
  | inside request => trivial
  | failed request status => exact h
  | returned request out outSize =>
      obtain ⟨hout, buffer, hbuffer, hrest⟩ := h
      exact ⟨hout, buffer, by rw [hsame out rfl, hbuffer], hrest⟩
  | copied request out result =>
      obtain ⟨hout, hlive, hrest⟩ := h
      exact ⟨hout, by rw [hsame out rfl]; exact hlive, hrest⟩
  | faulted => exact h
  | hung request => trivial
  | ended open? => trivial

theorem Client.Sound.live {heap : Heap} {message : String} {c : Client} (h : c.Sound heap message)
    {out : Address} (hout : c.out? = some out) : heap out ≠ none := by
  cases c with
  | returned request out' outSize =>
      cases hout
      obtain ⟨-, buffer, hbuffer, -⟩ := h
      rw [hbuffer]
      exact Option.some_ne_none buffer
  | copied request out' result =>
      cases hout
      exact h.2.1
  | idle => cases hout
  | inside request => cases hout
  | failed request status => cases hout
  | faulted => cases hout
  | hung request => cases hout
  | ended open? => cases hout

section Steps
variable {s t : Session W} {w : W}

/-- A thread moves, and no buffer changes hands. -/
theorem Owned.keep (h : Owned s) (hheap : t.heap = s.heap)
    (hothers : ∀ v, v ≠ w → t.client v = s.client v ∧ t.lastError v = s.lastError v)
    (hout : (t.client w).out? = (s.client w).out?)
    (hsound : (t.client w).Sound s.heap (t.lastError w)) : Owned t := by
  have houts : ∀ v, (t.client v).out? = (s.client v).out? := by
    intro v
    by_cases hv : v = w
    · rw [hv, hout]
    · rw [(hothers v hv).1]
  refine ⟨fun v => ?_, fun u v out hu hv => ?_, fun out hlive => ?_⟩
  · rw [hheap]
    by_cases hv : v = w
    · rw [hv]
      exact hsound
    · rw [(hothers v hv).1, (hothers v hv).2]
      exact h.sound v
  · rw [houts] at hu hv
    exact h.apart u v out hu hv
  · rw [hheap] at hlive
    obtain ⟨v, hv⟩ := h.owner out hlive
    exact ⟨v, by rw [houts, hv]⟩

theorem Owned.goto (h : Owned s) {c : Client} (hout : c.out? = (s.client w).out?)
    (hsound : c.Sound s.heap (s.lastError w)) : Owned (s.goto w c) := by
  have hself : (s.goto w c).client w = c := Function.update_self ..
  refine h.keep rfl (fun v hv => ⟨Function.update_of_ne hv .., rfl⟩) ?_ ?_
  · rw [hself, hout]
  · rw [hself]
    exact hsound

/-- A fresh buffer for a thread that had none. -/
theorem Owned.allocate (h : Owned s) {request : Request} {out : Address} {source : List UInt8}
    {message : String} (hnone : (s.client w).out? = none) (hnull : out ≠ 0)
    (hfree : s.heap out = none) (hmay : MayAnswer request (.bytes source)) :
    Owned { heap := Function.update s.heap out (some source)
            lastError := Function.update s.lastError w message
            client := Function.update s.client w (.returned request out source.length) } := by
  have hfresh : ∀ v, (s.client v).out? ≠ some out := fun v hv => (h.sound v).live hv hfree
  refine ⟨fun v => ?_, fun u v a hu hv => ?_, fun a hlive => ?_⟩
  · by_cases hv : v = w
    · subst hv
      simp only [Function.update_self]
      exact ⟨hnull, source, Function.update_self .., rfl, hmay⟩
    · simp only [Function.update_of_ne hv]
      refine (h.sound v).frame fun a ha => Function.update_of_ne ?_ ..
      intro heq
      exact hfresh v (heq ▸ ha)
  · by_cases hu' : u = w
    · by_cases hv' : v = w
      · rw [hu', hv']
      · subst hu'
        simp only [Function.update_self, Client.out?, Function.update_of_ne hv'] at hu hv
        cases hu
        exact absurd hv (hfresh v)
    · by_cases hv' : v = w
      · subst hv'
        simp only [Function.update_self, Client.out?, Function.update_of_ne hu'] at hu hv
        cases hv
        exact absurd hu (hfresh u)
      · simp only [Function.update_of_ne hu', Function.update_of_ne hv'] at hu hv
        exact h.apart u v a hu hv
  · by_cases ha : a = out
    · exact ⟨w, by simp only [Function.update_self, Client.out?, ha]⟩
    · simp only [Function.update_of_ne ha] at hlive
      obtain ⟨v, hv⟩ := h.owner a hlive
      have hvw : v ≠ w := by
        intro hvw
        rw [hvw, hnone] at hv
        cases hv
      exact ⟨v, by simp only [Function.update_of_ne hvw, hv]⟩

/-- The owner of a buffer frees it. -/
theorem Owned.release (h : Owned s) {out : Address} (hw : (s.client w).out? = some out) :
    Owned { s.goto w .idle with heap := Function.update s.heap out none } := by
  refine ⟨fun v => ?_, fun u v a hu hv => ?_, fun a hlive => ?_⟩
  · by_cases hv : v = w
    · subst hv
      simp only [Session.goto, Function.update_self]
      trivial
    · simp only [Session.goto, Function.update_of_ne hv]
      refine (h.sound v).frame fun a ha => Function.update_of_ne ?_ ..
      intro heq
      exact hv (h.apart v w out (heq ▸ ha) hw)
  · by_cases hu' : u = w
    · subst hu'
      simp only [Session.goto, Function.update_self, Client.out?] at hu
      cases hu
    · by_cases hv' : v = w
      · subst hv'
        simp only [Session.goto, Function.update_self, Client.out?] at hv
        cases hv
      · simp only [Session.goto, Function.update_of_ne hu', Function.update_of_ne hv'] at hu hv
        exact h.apart u v a hu hv
  · by_cases ha : a = out
    · rw [ha] at hlive
      exact absurd (Function.update_self ..) hlive
    · simp only [Function.update_of_ne ha] at hlive
      obtain ⟨v, hv⟩ := h.owner a hlive
      have hvw : v ≠ w := by
        intro hvw
        rw [hvw, hw] at hv
        cases hv
        exact ha rfl
      exact ⟨v, by simp only [Session.goto, Function.update_of_ne hvw, hv]⟩

omit [DecidableEq W] in
/-- No thread is left, and no buffer. -/
theorem Session.terminated_owned (s : Session W) : Owned s.terminated :=
  ⟨fun _ => trivial, nofun, fun _ hlive => absurd rfl hlive⟩

theorem readOut_buffer {heap : Heap} {out : Address} {buffer : List UInt8}
    (h : heap out = some buffer) : readOut heap out buffer.length = some buffer := by
  unfold readOut
  by_cases hempty : buffer.length = 0
  · rw [if_pos hempty, List.length_eq_zero_iff.mp hempty]
  · rw [if_neg hempty]
    simp [h]

theorem cmprFree_live {heap : Heap} {out : Address} (hnull : out ≠ 0) (hlive : heap out ≠ none) :
    cmprFree heap out = some (Function.update heap out none) := by
  unfold cmprFree
  rw [if_neg hnull]
  cases hout : heap out with
  | none => exact absurd hout hlive
  | some buffer => rfl

theorem Owned.step {e : Option (Event W Request Answer)} (h : Owned s) (hs : SessionStep s e t) :
    Owned t := by
  cases hs with
  | @call w request hw =>
      refine h.goto ?_ trivial
      rw [hw]
      rfl
  | @returns w request r out heap hw hr hstatus hout =>
      obtain ⟨buffer, hbuffer, hsize⟩ := hr.buffer hstatus
      rw [hbuffer] at hout
      rw [hsize]
      cases hout with
      | buffer hnull hfree =>
          refine h.allocate ?_ hnull hfree ⟨r, hr, ?_⟩
          · rw [hw]
            rfl
          · rw [Reply.answer, if_pos hstatus, hbuffer]
            rfl
  | @fails w request r hw hr hstatus =>
      refine h.keep (w := w) rfl (fun v hv => ⟨Function.update_of_ne hv ..,
        Function.update_of_ne hv ..⟩) ?_ ?_
      · rw [hw]
        simp only [Function.update_self, Client.out?]
      · simp only [Function.update_self]
        exact hr.answers hstatus
  | @copy w request out outSize hw =>
      have hsound := h.sound w
      rw [hw] at hsound
      obtain ⟨hnull, buffer, hbuffer, hsize, hmay⟩ := hsound
      rw [hsize, readOut_buffer hbuffer]
      refine h.goto ?_ ⟨hnull, ?_, hmay⟩
      · rw [hw]
        rfl
      · rw [hbuffer]
        exact Option.some_ne_none buffer
  | @free w request out result heap hw hfree =>
      have hsound := h.sound w
      rw [hw] at hsound
      rw [cmprFree_live hsound.1 hsound.2.1] at hfree
      cases hfree
      exact h.release (by rw [hw]; rfl)
  | @freeFaults w request out result hw hfree =>
      have hsound := h.sound w
      rw [hw] at hsound
      rw [cmprFree_live hsound.1 hsound.2.1] at hfree
      cases hfree
  | @raise w request status hw =>
      refine h.goto ?_ trivial
      rw [hw]
      rfl
  | @hangs w request hw =>
      refine h.goto ?_ trivial
      rw [hw]
      rfl
  | ends => exact s.terminated_owned

end Steps

/-! ## The service it is -/

/-- The requests that are open. -/
def Session.pending (s : Session W) (w : W) : Option Request := (s.client w).request?

theorem pending_update {s t : Session W} {w : W} {c : Client} {open? : Option Request}
    (h : t.client = Function.update s.client w c) (hc : c.request? = open?) :
    t.pending = Function.update s.pending w open? := by
  funext v
  rw [← hc]
  unfold Session.pending
  rw [h]
  by_cases hv : v = w
  · rw [hv, Function.update_self, Function.update_self]
  · rw [Function.update_of_ne hv, Function.update_of_ne hv]

/-- A step that no request is opened or answered by. -/
theorem pending_keeps {s t : Session W} {w : W} {c : Client}
    (h : t.client = Function.update s.client w c) (hsame : c.request? = (s.client w).request?) :
    t.pending = s.pending := by
  rw [pending_update h hsame]
  exact Function.update_eq_self w s.pending

/-- Seen through the open requests, the threads over the boundary are served one by one. -/
theorem session_refines :
    Refines ((session W).within Owned) (service W MayAnswer) Session.pending id where
  start hs := by
    cases hs
    exact fun _ => rfl
  step {s t e e'} hs he := by
    obtain ⟨h, hs⟩ := hs
    cases hs with
    | @call w request hw =>
        cases he
        have hpending : (s.goto w (.inside request)).pending
            = Function.update s.pending w (some request) := pending_update rfl rfl
        rw [hpending]
        exact .call (by rw [Session.pending, hw]; rfl)
    | @free w request out result heap hw hfree =>
        cases he
        have hsound := h.sound w
        rw [hw] at hsound
        have hpending : Session.pending { s.goto w .idle with heap := heap }
            = Function.update s.pending w none := pending_update rfl rfl
        rw [hpending]
        exact .answer (by rw [Session.pending, hw]; rfl) hsound.2.2
    | @raise w request status hw =>
        cases he
        have hsound := h.sound w
        rw [hw] at hsound
        have hpending : (s.goto w .idle).pending = Function.update s.pending w none :=
          pending_update rfl rfl
        rw [hpending]
        exact .answer (by rw [Session.pending, hw]; rfl) hsound
    | returns => cases he
    | fails => cases he
    | copy => cases he
    | freeFaults => cases he
    | hangs => cases he
    | ends => cases he
  stutter {s t e} hs he := by
    obtain ⟨h, hs⟩ := hs
    cases hs with
    | call => cases he
    | free => cases he
    | raise => cases he
    | @returns w request r out heap hw hr hstatus hout =>
        refine pending_keeps rfl ?_
        rw [hw]
        rfl
    | @fails w request r hw hr hstatus =>
        refine pending_keeps rfl ?_
        rw [hw]
        rfl
    | @copy w request out outSize hw =>
        have hsound := h.sound w
        rw [hw] at hsound
        obtain ⟨-, buffer, hbuffer, hsize, -⟩ := hsound
        rw [hsize, readOut_buffer hbuffer]
        refine pending_keeps rfl ?_
        rw [hw]
        rfl
    | @freeFaults w request out result hw hfree =>
        have hsound := h.sound w
        rw [hw] at hsound
        rw [cmprFree_live hsound.1 hsound.2.1] at hfree
        cases hfree
    | @hangs w request hw =>
        refine pending_keeps rfl ?_
        rw [hw]
        rfl
    | ends => rfl

/-- The state of every run is owned, and what the threads see is a run of the service. -/
theorem session_run {log : List (Option (Event W Request Answer))} {s : Session W}
    (h : Run (session W) log s) :
    Owned s ∧ Run (service W MayAnswer) (log.filterMap id) s.pending := by
  have hwithin := h.within (I := Owned) ?_ fun s e t hs he => hs.step he
  · exact ⟨hwithin.1, hwithin.2.refine session_refines⟩
  · intro s hs
    cases hs
    refine ⟨fun _ => trivial, fun v w out hv _ => ?_, fun out hlive => absurd rfl hlive⟩
    cases hv

/-! ## Who is answered no more -/

/-- The requests that have stopped their threads, or all. -/
structure Stopped (s : Session W) : Prop where
  hung : ∀ w request, s.client w = .hung request → request.Pools
  ended : ∀ w open?, s.client w = .ended open? →
    (∀ v, s.client v = .ended (s.pending v)) ∧
      ∃ v request, s.pending v = some request ∧ request.Pools

/-- A thread goes on, so the process has not ended. -/
theorem Stopped.update {s t : Session W} {w : W} {c : Client} (h : Stopped s)
    (ht : t.client = Function.update s.client w c)
    (hw : ∀ open?, s.client w ≠ .ended open?) (hc : ∀ open?, c ≠ .ended open?)
    (hhung : ∀ request, c = .hung request → request.Pools) : Stopped t := by
  have hself : t.client w = c := by rw [ht, Function.update_self]
  have hothers : ∀ v, v ≠ w → t.client v = s.client v := by
    intro v hv
    rw [ht, Function.update_of_ne hv]
  refine ⟨fun v request hv => ?_, fun v open? hv => ?_⟩
  · by_cases hvw : v = w
    · rw [hvw, hself] at hv
      exact hhung request hv
    · rw [hothers v hvw] at hv
      exact h.hung v request hv
  · by_cases hvw : v = w
    · rw [hvw, hself] at hv
      exact absurd hv (hc open?)
    · rw [hothers v hvw] at hv
      exact absurd ((h.ended v open? hv).1 w) (hw _)

theorem Stopped.step {s t : Session W} {e : Option (Event W Request Answer)} (h : Stopped s)
    (hs : SessionStep s e t) : Stopped t := by
  cases hs with
  | call hw => exact h.update rfl (by simp [hw]) (by simp) (by simp)
  | returns hw => exact h.update rfl (by simp [hw]) (by simp) (by simp)
  | fails hw => exact h.update rfl (by simp [hw]) (by simp) (by simp)
  | @copy w request out outSize hw =>
      refine h.update (w := w) rfl (by simp [hw]) ?_ ?_
      · cases readOut s.heap out outSize <;> simp
      · cases readOut s.heap out outSize <;> simp
  | free hw => exact h.update rfl (by simp [hw]) (by simp) (by simp)
  | freeFaults hw => exact h.update rfl (by simp [hw]) (by simp) (by simp)
  | raise hw => exact h.update rfl (by simp [hw]) (by simp) (by simp)
  | @hangs w request hw hstop =>
      refine h.update rfl (by simp [hw]) (by simp) fun request' heq => ?_
      cases heq
      exact (mayStop_iff (Or.inr rfl)).mp hstop
  | @ends w request hw hstop =>
      have hopen : s.terminated.pending w = some request := congrArg Client.request? hw
      exact ⟨nofun, fun _ _ _ =>
        ⟨fun _ => rfl, w, request, hopen, (mayStop_iff (Or.inl rfl)).mp hstop⟩⟩

omit [DecidableEq W] in
theorem Stopped.all {s : Session W} (h : Stopped s) {w : W} {open? : Option Request}
    (hw : s.client w = .ended open?) (v : W) : s.client v = .ended (s.pending v) :=
  (h.ended w open? hw).1 v

/-- When the process has ended, nothing happens any more. -/
theorem Stopped.over {s t : Session W} {e : Option (Event W Request Answer)} (h : Stopped s) {w : W}
    {open? : Option Request} (hw : s.client w = .ended open?) : ¬ SessionStep s e t := by
  intro hs
  have hall := h.all hw
  cases hs with
  | call hv => exact Client.noConfusion (hv.symm.trans (hall _))
  | returns hv => exact Client.noConfusion (hv.symm.trans (hall _))
  | fails hv => exact Client.noConfusion (hv.symm.trans (hall _))
  | copy hv => exact Client.noConfusion (hv.symm.trans (hall _))
  | free hv => exact Client.noConfusion (hv.symm.trans (hall _))
  | freeFaults hv => exact Client.noConfusion (hv.symm.trans (hall _))
  | raise hv => exact Client.noConfusion (hv.symm.trans (hall _))
  | hangs hv => exact Client.noConfusion (hv.symm.trans (hall _))
  | ends hv => exact Client.noConfusion (hv.symm.trans (hall _))

/-! ## What holds of every run -/

section Runs
variable {log : List (Option (Event W Request Answer))} {s : Session W}

/-- **Threads share the library safely.**  In every run, in any interleaving, no thread reads or
frees memory that is not allocated; every buffer is owned by one thread, so that none is left when
all are idle; and each thread is answered as if it were alone, with its own message where it
fails. -/
theorem session_safe (h : Run (session W) log s) :
    (∀ w, s.client w ≠ .faulted) ∧
      (∀ out, s.heap out ≠ none ↔ ∃! w, (s.client w).out? = some out) ∧
      ∀ w, Sequential MayAnswer w (log.filterMap id) (s.client w).request? := by
  obtain ⟨hs, hservice⟩ := session_run h
  refine ⟨fun w hw => ?_, fun out => ⟨fun hlive => ?_, ?_⟩, sequential_of_run hservice⟩
  · have hsound := hs.sound w
    rw [hw] at hsound
    exact hsound
  · obtain ⟨w, hw⟩ := hs.owner out hlive
    exact ⟨w, hw, fun v hv => hs.apart v w out hv hw⟩
  · rintro ⟨w, hw, -⟩
    exact (hs.sound w).live hw

/-- Only requests that a pool is made for keep a thread for good, or end the process. -/
theorem session_stopped (h : Run (session W) log s) : Stopped s := by
  refine Run.invariant (I := fun _ s => Stopped s) ?_ (fun _ _ _ _ hs he => hs.step he) h
  intro s hs
  cases hs
  exact ⟨nofun, nofun⟩

/-- **What one thread compresses any thread decompresses**, whatever the others do in between: to
the data, or it is out of memory. -/
theorem session_lossless (h : Run (session W) log s) {v w : W} {data c : List UInt8}
    {threads blockSize : Int} {a : Answer} (hlen : data.length < 2 ^ 32)
    (hc : Exchanged v (log.filterMap id) (.compress data threads blockSize) (.bytes c))
    (hd : Exchanged w (log.filterMap id) (.decompress c) a) :
    a = .bytes data ∨ a = .compressionError .errOutOfMemory "out of memory" := by
  obtain ⟨-, hservice⟩ := session_run h
  have hdecodes := mayAnswer_lossless hlen (hc.allowed hservice)
  rcases (mayAnswer_decompress c a).mp (hd.allowed hservice) with ⟨x, hx, ha⟩ | ⟨what, hwhat, -⟩
  · rw [hdecodes] at hx
    cases hx
    exact ha
  · rw [hdecodes] at hwhat
    cases hwhat

end Runs

/-! ## Two threads -/

/-- The byte 7, stored. -/
def storedSeven : List UInt8 := [67, 77, 80, 82, 1, 0, 1, 0, 0, 0, 0, 0, 0, 0, 7]

/-- One thread compresses a byte; meanwhile the other has no container, and then has that one. -/
def twoLog : List (Option (Event Bool Request Answer)) :=
  [some (.call true (.compress [7] 0 0)),
    some (.call false (.decompress [])),
    none,
    none,
    none,
    some (.answer false (.compressionError .errCorruptInput "input is shorter than the header")),
    some (.answer true (.bytes storedSeven)),
    some (.call false (.decompress storedSeven)),
    none,
    none,
    some (.answer false (.bytes [7]))]

theorem mayReply_storedSeven : MayReply (.compress [7] 0 0)
    { status := .ok, out := some storedSeven, outSize := 15 } :=
  ⟨⟨fun _ => none, fun _ => false⟩, fun _ => true, reversed, by decide +kernel⟩

theorem mayReply_short : MayReply (.decompress [])
    { status := .errCorruptInput, lastError := "input is shorter than the header" } :=
  ⟨fun _ => true, rfl⟩

theorem mayReply_seven : MayReply (.decompress storedSeven)
    { status := .ok, out := some [7], outSize := 1 } :=
  ⟨fun _ => true, by decide +kernel⟩

theorem run_two : ∃ s, Run (session Bool) twoLog s := by
  have h₀ : Run (session Bool) [] {} := .start rfl
  have h₁ := h₀.step (@SessionStep.call Bool _ _ true (.compress [7] 0 0) rfl)
  have h₂ := h₁.step (@SessionStep.call Bool _ _ false (.decompress []) rfl)
  have h₃ := h₂.step (.returns (w := true) rfl mayReply_storedSeven rfl
    (.buffer (by decide : (1 : Nat) ≠ 0) rfl))
  have h₄ := h₃.step (.fails (w := false) rfl mayReply_short (by decide))
  have h₅ := h₄.step (.copy (w := true) rfl)
  have h₆ := h₅.step (.raise (w := false) rfl)
  have h₇ := h₆.step (.free (w := true) rfl rfl)
  have h₈ := h₇.step (@SessionStep.call Bool _ _ false (.decompress storedSeven) rfl)
  have h₉ := h₈.step (.returns (w := false) rfl mayReply_seven rfl
    (.buffer (by decide : (1 : Nat) ≠ 0) rfl))
  have h₁₀ := h₉.step (.copy (w := false) rfl)
  exact ⟨_, h₁₀.step (.free (w := false) rfl rfl)⟩

theorem session_safe_two : ∃ s, Run (session Bool) twoLog s ∧
    (∀ w, s.client w ≠ .faulted) ∧
      (∀ out, s.heap out ≠ none ↔ ∃! w, (s.client w).out? = some out) ∧
      ∀ w, Sequential MayAnswer w (twoLog.filterMap id) (s.client w).request? := by
  obtain ⟨s, hs⟩ := run_two
  exact ⟨s, hs, session_safe hs⟩

theorem session_lossless_two :
    Exchanged true (twoLog.filterMap id) (.compress [7] 0 0) (.bytes storedSeven) ∧
      Exchanged false (twoLog.filterMap id) (.decompress storedSeven) (.bytes [7]) ∧
      (Answer.bytes [7] = .bytes [7] ∨
        Answer.bytes [7] = .compressionError .errOutOfMemory "out of memory") := by
  obtain ⟨s, hs⟩ := run_two
  have hc : Exchanged true (twoLog.filterMap id) (.compress [7] 0 0) (.bytes storedSeven) :=
    ⟨[], [], rfl⟩
  have hd : Exchanged false (twoLog.filterMap id) (.decompress storedSeven) (.bytes [7]) :=
    ⟨(own false (twoLog.filterMap id)).take 2, [], rfl⟩
  exact ⟨hc, hd, session_lossless hs (by decide) hc hd⟩

end Compressly

import JsonRpcServer.Lives
import JsonRpcServer.Commands
import JsonRpcServer.Serving

/-!
# One reply for each request

What holds in every state that handlers and the event loop reach, whatever the
order of their steps.
-/
namespace JsonRpcServer

open Programs

/-! ## The server -/

/-- Nothing has been written to a request yet, and there are no events. -/
structure World.Fresh (w : World) : Prop where
  events : w.events = []
  out : ∀ req, (w.request req).outputBuffer = [] ∧ (w.request req).sent = []

abbrev Server.Reaches : Server → Server → Prop := Pool.Reaches Reacts CallsBack

def firstStage : Thread → Stage
  | .request _ => .wrapped
  | .callback _ => .waiting

theorem orderly_initial (g : Process) {w : World} (hw : w.Fresh) :
    (Server.initial g w).Orderly conduct Ended Lives := by
  refine ⟨firstStage, ?_, fun _ => .wrapped, ?_, ?_, fun req => ?_⟩
  · rintro (req | id)
    · exact follows_serveRequest g req
    · exact .inl rfl
  · rintro (req | id)
    · rfl
    · simp only [Server.initial, parts, hw.events]
      rfl
  · intro id e
    simp [Server.initial, hw.events, Life.record]
  · simp [Server.initial, hw.out req, Life.out]

/-- The calls by which a handler gives its reply. -/
def giving (req : Req) (nStatus : Nat) (body : Bytes) (id : EventId) : List Call :=
  [.bufferAdd req body, .eventNew ⟨true, req, nStatus⟩, .eventActive id]

/-- The calls by which an event sends it. -/
def sending (id : EventId) (ev : HTTPEvent) : List Call :=
  [.sendReply ev.reqCopy ev.nStatus, .eventFree id]

/-- What a call adds to the buffer. -/
def Call.body : Call → Bytes
  | .bufferAdd _ data => data
  | _ => []

/-- The handler of the request has ended, and so has the callback of its event. -/
def Server.Over (s : Server) (req : Req) : Prop :=
  s.threads (.request req) = .done () ∧ ∀ (id : EventId) (e : EventRecord),
    s.state.events[id]? = some e → e.event.reqCopy = req →
      e.calledBack = 1 ∧ s.threads (.callback id) = .done ()

structure OneReply (s : Server) : Prop where
  /-- No assertion fails, and no null pointer is used. -/
  noFault : ∀ t f next, s.threads t ≠ .call (.fault f) next
  /-- Nothing is called once the request has been given back. -/
  givenBack : ∀ req id, .eventActive id ∈ replyCalls s.calls (.request req) →
    s.threads (.request req) = .done ()
  destroyed : ∀ req, s.threads (.request req) = .done () → ∃ nStatus body id,
    replyCalls s.calls (.request req) = giving req nStatus body id ∧
    (s.state.events[id]?).map EventRecord.event = some ⟨true, req, nStatus⟩
  oneEvent : ∀ (id id' : EventId) (e e' : EventRecord), s.state.events[id]? = some e →
    s.state.events[id']? = some e' → e.event.reqCopy = e'.event.reqCopy → id = id'
  /-- An event is called back and freed once at most, and has done both when its thread ends. -/
  event : ∀ id (e : EventRecord), s.state.events[id]? = some e →
    e.calledBack ≤ 1 ∧ e.freed ≤ 1 ∧
    replyCalls s.calls (.callback id) <+: sending id e.event ∧
    (e.calledBack = 1 → s.threads (.callback id) = .done () →
      e.freed = 1 ∧ replyCalls s.calls (.callback id) = sending id e.event)
  /-- What is sent is what the request's own thread has given, status and body. -/
  sent : ∀ req, (s.state.request req).sent = [] ∨ ∃ reply id,
    (s.state.request req).sent = [reply] ∧
    replyCalls s.calls (.request req) = giving req reply.nStatus reply.body id
  /-- A buffer holds what its own thread has added, until it is sent. -/
  buffer : ∀ req, (s.state.request req).outputBuffer =
    if (s.state.request req).sent = [] then (replyCalls s.calls (.request req)).flatMap Call.body
    else []
  answered : ∀ req, s.Over req → ∃ reply, (s.state.request req).sent = [reply]

section
variable {life : Req → Life} {stage : Thread → Stage} {s : Server} {req : Req} {id : EventId}

theorem not_allows_fault (t : Thread) (st : Stage) (f : Fault) :
    ¬ (conduct t).allows st (.fault f) := by
  intro h
  cases t <;> cases st <;> cases h

theorem done_of_given {p : Prog Unit} {body : Bytes} {nStatus : Nat} {ends : Unit → Stage → Prop}
    (h : p.Follows (handling req) (.given body nStatus id) ends) : p = .done () := by
  cases p with
  | done => rfl
  | call c next =>
    have hallows := h.1
    cases c <;> cases hallows

theorem Placed.given_of_active (h : Placed life stage s.state s.calls)
    (ha : .eventActive id ∈ replyCalls s.calls (.request req)) :
    ∃ body nStatus id, stage (.request req) = .given body nStatus id := by
  obtain ⟨hstage, hcalls⟩ := h.part_request rfl
  rw [hcalls] at ha
  rw [hstage]
  cases hl : life req with
  | event phase body nStatus id' =>
    rw [hl] at ha
    cases phase with
    | queued => simp [Life.handler] at ha
    | _ => exact ⟨_, _, _, rfl⟩
  | _ => simp [hl, Life.handler] at ha

theorem Placed.life_of_given (h : Placed life stage s.state s.calls) {body : Bytes} {nStatus : Nat}
    (hg : stage (.request req) = .given body nStatus id) :
    ∃ phase, phase ≠ .queued ∧ life req = .event phase body nStatus id := by
  obtain ⟨hstage, -⟩ := h.part_request rfl
  rw [hg] at hstage
  cases hl : life req with
  | event phase body' nStatus' id' =>
    rw [hl] at hstage
    cases phase with
    | queued => cases hstage
    | _ =>
      cases hstage
      exact ⟨_, by decide, rfl⟩
  | _ =>
    rw [hl] at hstage
    cases hstage

theorem Placed.destroyed (h : Placed life stage s.state s.calls) {body : Bytes} {nStatus : Nat}
    (hg : stage (.request req) = .given body nStatus id) :
    replyCalls s.calls (.request req) = giving req nStatus body id ∧
      (s.state.events[id]?).map EventRecord.event = some ⟨true, req, nStatus⟩ := by
  obtain ⟨phase, hne, hl⟩ := h.life_of_given hg
  refine ⟨?_, ?_⟩
  · rw [(h.part_request hl).2]
    cases phase <;> first | rfl | exact absurd rfl hne
  · obtain ⟨e, hr, he⟩ : ∃ e, (life req).record req = some (id, e) ∧
        e.event = ⟨true, req, nStatus⟩ := ⟨_, by rw [hl]; rfl, rfl⟩
    rw [h.event.of_record hr, Option.map_some, he]

/-- An event belongs to a request at its place. -/
theorem Placed.life_of_event (h : Placed life stage s.state s.calls) {e : EventRecord}
    (he : s.state.events[id]? = some e) :
    ∃ phase body nStatus, e = ⟨⟨true, e.event.reqCopy, nStatus⟩, phase.seen.1, phase.seen.2.1,
      phase.seen.2.2⟩ ∧ life e.event.reqCopy = .event phase body nStatus id := by
  have hr := (h.event id e).mp he
  cases hl : life e.event.reqCopy with
  | event phase body nStatus id' =>
    rw [hl] at hr
    obtain ⟨rfl, hrecord⟩ := Prod.mk.inj (Option.some.inj hr)
    exact ⟨phase, body, nStatus, hrecord.symm, rfl⟩
  | _ =>
    rw [hl] at hr
    cases hr

theorem Placed.oneEvent (h : Placed life stage s.state s.calls) {id' : EventId}
    {e e' : EventRecord} (he : s.state.events[id]? = some e) (he' : s.state.events[id']? = some e')
    (hsame : e.event.reqCopy = e'.event.reqCopy) : id = id' := by
  have hr := (h.event id e).mp he
  rw [hsame, (h.event id' e').mp he'] at hr
  exact (Prod.mk.inj (Option.some.inj hr)).1.symm

theorem Placed.seen (h : Placed life stage s.state s.calls) {e : EventRecord}
    (he : s.state.events[id]? = some e) :
    e.calledBack ≤ 1 ∧ e.freed ≤ 1 ∧
      replyCalls s.calls (.callback id) <+: sending id e.event ∧
      (e.calledBack = 1 → Ended (.callback id) (stage (.callback id)) →
        e.freed = 1 ∧ replyCalls s.calls (.callback id) = sending id e.event) := by
  obtain ⟨phase, body, nStatus, hrecord, hl⟩ := h.life_of_event he
  obtain ⟨hstage, hcalls⟩ := h.part_callback hl rfl
  rw [hstage, hcalls, hrecord]
  cases phase with
  | queued | active => simp [Phase.seen, Life.callback]
  | called | replied =>
    simp [Phase.seen, Life.callback, Ended, sending]
  | freed => simp [Phase.seen, Life.callback, sending]

theorem Placed.sent (h : Placed life stage s.state s.calls) (req : Req) :
    (s.state.request req).sent = [] ∨ ∃ reply id, (s.state.request req).sent = [reply] ∧
      replyCalls s.calls (.request req) = giving req reply.nStatus reply.body id := by
  have hout := (Prod.mk.inj (h.out req)).2
  have hcalls := (h.part_request (Eq.refl (life req))).2
  rw [hout, hcalls]
  cases life req with
  | event phase body nStatus id =>
    cases phase with
    | replied | freed => exact .inr ⟨⟨nStatus, _, body⟩, id, rfl, rfl⟩
    | _ => exact .inl rfl
  | _ => exact .inl rfl

theorem Placed.buffer (h : Placed life stage s.state s.calls) (req : Req) :
    (s.state.request req).outputBuffer =
      if (s.state.request req).sent = [] then
        (replyCalls s.calls (.request req)).flatMap Call.body
      else [] := by
  obtain ⟨hbuffer, hsent⟩ := Prod.mk.inj (h.out req)
  have hcalls := (h.part_request (Eq.refl (life req))).2
  rw [hbuffer, hsent, hcalls]
  cases life req with
  | event phase => cases phase <;> simp [Life.handler, Call.body]
  | _ => simp [Life.handler, Call.body]

theorem Placed.answered (h : Placed life stage s.state s.calls)
    (hended : ∀ t, s.threads t = .done () → Ended t (stage t)) (hover : s.Over req) :
    ∃ reply, (s.state.request req).sent = [reply] := by
  obtain ⟨hdone, hevents⟩ := hover
  obtain ⟨body, nStatus, id, hg⟩ := hended _ hdone
  obtain ⟨phase, hne, hl⟩ := h.life_of_given hg
  obtain ⟨e, hr, hreq, hseen⟩ : ∃ e, (life req).record req = some (id, e) ∧
      e.event.reqCopy = req ∧ e.calledBack = phase.seen.2.1 := ⟨_, by rw [hl]; rfl, rfl, rfl⟩
  obtain ⟨hcalled, hidle⟩ := hevents id e (h.event.of_record hr) hreq
  rw [hseen] at hcalled
  have hcallback := hended _ hidle
  rw [(h.part_callback hl rfl).1] at hcallback
  rw [(Prod.mk.inj (h.out_at hl)).2]
  cases phase with
  | queued => exact absurd rfl hne
  | active => cases hcalled
  | called | replied => simp [Life.callback, Ended] at hcallback
  | freed => exact ⟨_, rfl⟩

end

theorem every_request_one_reply {g : Process} {w : World} (hw : w.Fresh) {s : Server}
    (h : (Server.initial g w).Reaches s) : OneReply s := by
  obtain ⟨stage, hfollows, life, hplaced⟩ := (orderly_initial g hw).reaches lives_discipline h
  have hended : ∀ t, s.threads t = .done () → Ended t (stage t) := by
    intro t ht
    have hf := hfollows t
    rwa [ht] at hf
  have hfault : ∀ t f next, s.threads t ≠ .call (.fault f) next := by
    intro t f next ht
    have hf := hfollows t
    rw [ht] at hf
    exact not_allows_fault t _ f hf.1
  refine ⟨hfault, fun req id ha => ?_, fun req hdone => ?_, fun _ _ _ _ => hplaced.oneEvent,
    fun id e he => ?_, hplaced.sent, hplaced.buffer, fun _ => hplaced.answered hended⟩
  · obtain ⟨body, nStatus, id, hg⟩ := hplaced.given_of_active ha
    have hf := hfollows (.request req)
    rw [hg] at hf
    exact done_of_given hf
  · obtain ⟨body, nStatus, id, hg⟩ := hended _ hdone
    exact ⟨nStatus, body, id, hplaced.destroyed hg⟩
  · obtain ⟨hcalled, hfreed, hcalls, hend⟩ := hplaced.seen he
    exact ⟨hcalled, hfreed, hcalls, fun hone hdone => hend hone (hended _ hdone)⟩

/-- A request without headers and body that is not a POST. -/
def EvhttpRequest.bareGet : EvhttpRequest := ⟨.get, [], [], [], [], [], []⟩

theorem every_request_one_reply_bareGet :
    ∃ s, (Server.initial builtins (.holding .bareGet)).Reaches s ∧
      (s.state.request 0).sent =
        [⟨httpBadMethod, [], cstr "JSONRPC server handles only POST requests"⟩] ∧
      OneReply s := by
  let w : World := .holding .bareGet
  let w₁ := w.queued 0 httpBadMethod (cstr "JSONRPC server handles only POST requests")
  have hhandler : ((httpReqJsonrpc builtins).run.run (.new 0)).run serve w =
      some ((.ok false, ⟨none, true⟩), w₁) :=
    servedBy_badMethod (tryRequest builtins) (by decide)
  have hserve : (serveRequest builtins 0).run serve w = some ((), w₁) := by
    rw [serveRequest, Program.run_bind, hhandler]
    rfl
  let ev : HTTPEvent := ⟨true, 0, httpBadMethod⟩
  let w₂ := w₁.updateEvent 0 (fun e => { e with active := false, calledBack := e.calledBack + 1 })
  obtain ⟨w₃, hcallback, hsent⟩ : ∃ w₃, (httpeventCallbackFn 0 ev).run serve w₂ = some ((), w₃) ∧
      (w₃.request 0).sent =
        [⟨httpBadMethod, [], cstr "JSONRPC server handles only POST requests"⟩] := ⟨_, rfl, rfl⟩
  have hrun : ∀ {p : Server} {t : Thread} {prog : Prog Unit} {w' : World}, p.threads t = prog →
      prog.run serve p.state = some ((), w') → ∃ cs, p.Reaches (p.turn t (.done ()) w' cs) :=
    fun ht h => Pool.reaches_run (fun h => .answer h) ht h
  obtain ⟨cs, hrequest⟩ := hrun (p := Server.initial builtins w) (t := .request 0) rfl hserve
  let s₁ := (Server.initial builtins w).turn (.request 0) (.done ()) w₁ cs
  have hstart : Pool.Step Reacts CallsBack s₁
      (s₁.turn (.callback 0) (httpeventCallbackFn 0 ev) w₂ []) :=
    .start rfl (@CallsBack.intro w₁ 0 ⟨ev, true, 0, 0⟩ rfl rfl)
  obtain ⟨cs', hevent⟩ := hrun (p := s₁.turn (.callback 0) (httpeventCallbackFn 0 ev) w₂ [])
    (t := .callback 0) (by simp [Pool.turn]) hcallback
  have hreaches := (hrequest.tail hstart).trans hevent
  exact ⟨_, hreaches, hsent, every_request_one_reply ⟨rfl, fun _ => ⟨rfl, rfl⟩⟩ hreaches⟩

end JsonRpcServer

import JsonRpcServer.OneReply
import JsonRpcServer.Responses
import JsonRpcServer.Solo

/-!
# Requests do not disturb each other

The handler of a request among the others, and among the callbacks of the event
loop, comes to what it comes to alone.
-/
namespace JsonRpcServer

open Programs

/-- The actors are the functions of the commands; a connection may be gone. -/
inductive Performs : Reaction surroundings World where
  | answer {c : Call} {w w' : World} {r : c.Reply} (h : serve c w = some (r, w')) :
      Performs c w r w'
  | noConnection {req : Req} {w : World} : Performs (.requestConnection req) w false w
  | noBufferevent {req : Req} {w : World} : Performs (.connectionBufferevent req) w false w

theorem Performs.reacts {c : Call} {w w' : World} {r : c.Reply} (h : Performs c w r w') :
    Reacts c w r w' := by
  cases h with
  | answer h => exact .answer h
  | noConnection => exact .noConnection
  | noBufferevent => exact .noBufferevent

/-- The states that the handlers and the event loop reach together. -/
abbrev Server.Performs : Server → Server → Prop := Pool.Reaches JsonRpcServer.Performs CallsBack

theorem performs_discipline : Pool.Discipline Performs CallsBack conduct Ended Lives :=
  lives_discipline.mono Performs.reacts

/-! ## The calls of a thread -/

def Call.actorCall : Call → Option (CRPCCommand × JSONRPCRequest)
  | .actor pcmd request => some (pcmd, request)
  | _ => none

def Call.isActive : Call → Bool
  | .eventActive _ => true
  | _ => false

/-- The actors that the thread of a request has run. -/
def actorCalls (calls : List (Thread × Call)) (req : Req) : ActorCalls :=
  (calls.filter (fun tc => tc.1 = .request req)).filterMap (fun tc => tc.2.actorCall)

/-- What the thread of a request has added to the buffer. -/
def added (calls : List (Thread × Call)) (req : Req) : Bytes :=
  (replyCalls calls (.request req)).flatMap Call.body

/-- The thread of a request has made the event active. -/
def activated (calls : List (Thread × Call)) (req : Req) : Bool :=
  (replyCalls calls (.request req)).any Call.isActive

section
variable {calls : List (Thread × Call)} {req : Req} {t : Thread} {c : Call}

theorem replyCalls_one (t' : Thread) : replyCalls (calls ++ [(t, c)]) t' =
    replyCalls calls t' ++ if t = t' ∧ c.isReply then [c] else [] := by
  by_cases h : t = t' <;> by_cases hc : c.isReply <;> simp [replyCalls, h, hc]

theorem actorCalls_own :
    actorCalls (calls ++ [(.request req, c)]) req = actorCalls calls req ++ c.actorCall.toList := by
  cases hc : c.actorCall <;> simp [actorCalls, hc]

theorem actorCalls_other (ht : t ≠ .request req) :
    actorCalls (calls ++ [(t, c)]) req = actorCalls calls req := by
  simp [actorCalls, ht]

theorem added_own :
    added (calls ++ [(.request req, c)]) req = added calls req ++ c.body := by
  rw [added, added, replyCalls_one]
  cases c <;> simp [Call.isReply, Call.body]

theorem added_other (ht : t ≠ .request req) :
    added (calls ++ [(t, c)]) req = added calls req := by
  simp [added, replyCalls_one, ht]

theorem activated_own :
    activated (calls ++ [(.request req, c)]) req = (activated calls req || c.isActive) := by
  rw [activated, activated, replyCalls_one]
  cases c <;> simp [Call.isReply, Call.isActive]

theorem activated_other (ht : t ≠ .request req) :
    activated (calls ++ [(t, c)]) req = activated calls req := by
  simp [activated, replyCalls_one, ht]

end

/-! ## The request alone -/

/-- The request with so much in its buffer and nothing sent. -/
def EvhttpRequest.unsent (r : EvhttpRequest) (buffer : Bytes) : EvhttpRequest :=
  { r with outputBuffer := buffer, sent := [] }

/-- A world in which this request alone has been handled, as far as its thread has come. -/
structure Alone (req : Req) (v w : World) (calls : List (Thread × Call)) : Prop where
  request : v.request req = (w.request req).unsent (added calls req)
  actorRuns : v.actorRuns = actorCalls calls req
  event : ∀ (id : EventId) (e : EventRecord), w.events[id]? = some e → e.event.reqCopy = req →
    v.events.length = id + 1 ∧ v.events[id]? = some ⟨e.event, activated calls req, 0, 0⟩

section
variable {v v' w w' : World} {calls : List (Thread × Call)} {req : Req} {t : Thread} {c : Call}

/-- What another thread may do to the world, as far as a request's own thread can tell. -/
theorem Alone.frame (ht : t ≠ .request req)
    (hrequest : ∀ buffer, (w'.request req).unsent buffer = (w.request req).unsent buffer)
    (hevents : ∀ (id : EventId) (e : EventRecord), w.events[id]? = some e →
      ∃ e' : EventRecord, w'.events[id]? = some e' ∧ e'.event = e.event)
    (h : Alone req v w' (calls ++ [(t, c)])) : Alone req v w calls where
  request := by rw [h.request, hrequest, added_other ht]
  actorRuns := by rw [h.actorRuns, actorCalls_other ht]
  event := by
    intro id e he hreq
    obtain ⟨e', he', hsame⟩ := hevents id e he
    rw [← hsame, ← activated_other ht]
    exact h.event id e' he' (by rw [hsame, hreq])

/-- A call that changes what the handler of a request has before it. -/
def Call.touches (req : Req) : Call → Prop
  | .addHeader r _ _ | .bufferDrain r _ => r = req
  | _ => False

theorem unsent_updateRequest {f : EvhttpRequest → EvhttpRequest} {req' : Req}
    (hf : req' = req → ∀ buffer, (f (w.request req)).unsent buffer = (w.request req).unsent buffer)
    (buffer : Bytes) :
    ((w.updateRequest req' f).request req).unsent buffer = (w.request req).unsent buffer := by
  by_cases hr : req = req'
  · subst hr
    simpa [World.updateRequest] using hf rfl buffer
  · simp [World.updateRequest, hr]

theorem event_updateEvent (id' : EventId) {f : EventRecord → EventRecord}
    (hf : ∀ e, (f e).event = e.event) {id : EventId} {e : EventRecord}
    (he : w.events[id]? = some e) :
    ∃ e' : EventRecord, (w.updateEvent id' f).events[id]? = some e' ∧ e'.event = e.event := by
  simp only [World.updateEvent, List.getElem?_modify, he, Option.map_eq_map, Option.map_some]
  by_cases hid : id' = id
  · exact ⟨_, rfl, by simpa [hid] using hf e⟩
  · exact ⟨_, rfl, by simp [hid]⟩

theorem performs_frame {r : c.Reply} (hc : ¬ c.touches req) (h : Performs c w r w') :
    (∀ buffer, (w'.request req).unsent buffer = (w.request req).unsent buffer) ∧
      ∀ (id : EventId) (e : EventRecord), w.events[id]? = some e →
        ∃ e' : EventRecord, w'.events[id]? = some e' ∧ e'.event = e.event := by
  have hsame : ∀ (id : EventId) (e : EventRecord), w.events[id]? = some e →
      ∃ e' : EventRecord, w.events[id]? = some e' ∧ e'.event = e.event :=
    fun _ e he => ⟨e, he, rfl⟩
  cases h with
  | noConnection => exact ⟨fun _ => rfl, hsame⟩
  | noBufferevent => exact ⟨fun _ => rfl, hsame⟩
  | answer h =>
    cases c with
    | fault => cases h
    | addHeader | bufferDrain =>
      obtain ⟨-, rfl⟩ := Prod.mk.inj (Option.some.inj h)
      exact ⟨unsent_updateRequest fun hr => absurd hr hc, hsame⟩
    | bufferAdd | sendReply =>
      obtain ⟨-, rfl⟩ := Prod.mk.inj (Option.some.inj h)
      exact ⟨unsent_updateRequest fun _ _ => rfl, hsame⟩
    | eventNew =>
      obtain ⟨-, rfl⟩ := Prod.mk.inj (Option.some.inj h)
      refine ⟨fun _ => rfl, fun id e he => ⟨e, ?_, rfl⟩⟩
      exact (List.getElem?_append_left (List.getElem?_eq_some_iff.mp he).1).trans he
    | eventActive | eventFree =>
      obtain ⟨-, rfl⟩ := Prod.mk.inj (Option.some.inj h)
      refine ⟨fun _ => rfl, fun id e he => event_updateEvent _ ?_ he⟩
      exact fun _ => rfl
    | _ =>
      obtain ⟨-, rfl⟩ := Prod.mk.inj (Option.some.inj h)
      exact ⟨fun _ => rfl, hsame⟩

theorem not_touches {stage : Stage} (ht : t ≠ .request req)
    (hallows : (conduct t).allows stage c) : ¬ c.touches req := by
  intro htouches
  cases c with
  | addHeader req' | bufferDrain req' =>
    obtain rfl : req' = req := htouches
    cases t with
    | request r =>
      cases stage with
      | wrapped =>
        obtain rfl : req' = r := hallows
        exact ht rfl
      | _ => cases hallows
    | callback id => cases stage <;> cases hallows
  | _ => cases htouches

theorem Alone.other {stage : Stage} {r : c.Reply} (ht : t ≠ .request req)
    (hallows : (conduct t).allows stage c) (hr : Performs c w r w')
    (h : Alone req v w' (calls ++ [(t, c)])) : Alone req v w calls := by
  obtain ⟨hrequest, hevents⟩ := performs_frame (not_touches ht hallows) hr
  exact h.frame ht hrequest hevents

theorem Alone.start {prog : Prog Unit} (hs : CallsBack w t prog w') (h : Alone req v w' calls) :
    t ≠ .request req ∧ Alone req v w calls := by
  cases hs with
  | @intro id e he ha =>
    refine ⟨by simp, h.request, h.actorRuns, fun id' e' he' hreq => ?_⟩
    obtain ⟨e'', he'', hsame⟩ := event_updateEvent id
      (f := fun e => { e with active := false, calledBack := e.calledBack + 1 }) (fun _ => rfl) he'
    rw [← hsame]
    exact h.event id' e'' he'' (by rw [hsame, hreq])

/-! ## A step of its own -/

theorem modify_same {α : Type} {l : List α} {i : Nat} {f : α → α} {a : α} (h : l[i]? = some a)
    (hf : f a = a) : l.modify i f = l := by
  apply List.ext_getElem?
  intro j
  rw [List.getElem?_modify]
  by_cases hj : i = j
  · subst hj
    simp [h, hf]
  · simp [hj]

/-- A world before a call of the request's thread, read off the one after it. -/
def World.rewound (v w : World) (calls : List (Thread × Call)) (req : Req) : World :=
  { v with
    request := Function.update v.request req ((w.request req).unsent (added calls req))
    actorRuns := actorCalls calls req }

theorem updateRequest_rewound {f : EvhttpRequest → EvhttpRequest}
    (hf : f ((w.request req).unsent (added calls req)) = v.request req)
    (hruns : v.actorRuns = actorCalls calls req) :
    (v.rewound w calls req).updateRequest req f = v := by
  cases v
  simp_all [World.rewound, World.updateRequest]

theorem rewound_same (h : (w.request req).unsent (added calls req) = v.request req)
    (hruns : v.actorRuns = actorCalls calls req) : v.rewound w calls req = v := by
  cases v
  simp_all [World.rewound]

theorem alone_rewound (hevent : ∀ (id : EventId) (e : EventRecord), w.events[id]? = some e →
    e.event.reqCopy ≠ req) : Alone req (v.rewound w calls req) w calls where
  request := by simp [World.rewound]
  actorRuns := rfl
  event := fun id e he hreq => absurd hreq (hevent id e he)

theorem Placed.no_event {life : Req → Life} {stage : Thread → Stage}
    (h : Placed life stage w calls) (hl : (life req).record req = none) (id : EventId)
    (e : EventRecord) (he : w.events[id]? = some e) : e.event.reqCopy ≠ req := by
  intro hreq
  have hr := (h.event id e).mp he
  rw [hreq, hl] at hr
  cases hr

/-- Before the reply is begun. -/
theorem Alone.own_wrapped {r : c.Reply} (hc : HandlerCall req c) (hr : Performs c w r w')
    (h : Alone req v' w' (calls ++ [(.request req, c)])) :
    serve c (v'.rewound w calls req) = some (r, v') := by
  have hrequest := h.request
  have hruns := h.actorRuns
  rw [added_own] at hrequest
  rw [actorCalls_own] at hruns
  cases hr with
  | noConnection => cases hc
  | noBufferevent => cases hc
  | answer hr =>
    cases c with
    | requestCommand | requestUri | requestPart | findHeader | bufferLength | bufferPullup =>
      have heq : req = _ := Eq.symm hc
      subst heq
      obtain ⟨rfl, rfl⟩ := Prod.mk.inj (Option.some.inj hr)
      have hsame : v'.rewound w calls req = v' :=
        rewound_same (by simp [hrequest, Call.body]) (by simp [hruns, Call.actorCall])
      rw [hsame]
      simp [serve, World.answer, hrequest, EvhttpRequest.unsent]
    | addHeader | bufferDrain | bufferAdd =>
      have heq : req = _ := Eq.symm hc
      subst heq
      obtain ⟨-, rfl⟩ := Prod.mk.inj (Option.some.inj hr)
      simp only [serve, World.answer]
      rw [updateRequest_rewound]
      · rw [hrequest]
        simp [EvhttpRequest.unsent, World.updateRequest, Call.body]
      · rw [hruns]
        simp [Call.actorCall]
    | actor pcmd request =>
      obtain ⟨rfl, rfl⟩ := Prod.mk.inj (Option.some.inj hr)
      have hr' : (w.request req).unsent (added calls req) = v'.request req := by
        simp [hrequest, Call.body]
      cases v'
      simp_all [World.rewound, serve, World.answer, Call.actorCall]
    | _ => cases hc

/-- The event of the reply is made. -/
theorem Alone.own_written {life : Req → Life} {stage : Thread → Stage}
    (hplaced : Placed life stage w calls) {body : Bytes} (hl : life req = .written body)
    {nStatus : Nat} (h : Alone req v' { w with events := w.events ++ [⟨⟨true, req, nStatus⟩, false,
      0, 0⟩] } (calls ++ [(.request req, .eventNew ⟨true, req, nStatus⟩)])) :
    ∃ v, Alone req v w calls ∧
      serve (.eventNew ⟨true, req, nStatus⟩) v = some (w.events.length, v') := by
  have hactive : activated calls req = false := by
    rw [activated, (hplaced.part_request hl).2]
    rfl
  obtain ⟨hlength, hrecord⟩ := h.event w.events.length ⟨⟨true, req, nStatus⟩, false, 0, 0⟩
    (by simp) rfl
  rw [activated_own, hactive] at hrecord
  have hrequest := h.request
  have hruns := h.actorRuns
  rw [added_own] at hrequest
  rw [actorCalls_own] at hruns
  have hevents : v'.events.take w.events.length ++ [⟨⟨true, req, nStatus⟩, false, 0, 0⟩] =
      v'.events := by
    have htake : v'.events.take (w.events.length + 1) = v'.events :=
      List.take_of_length_le hlength.le
    rwa [List.take_add_one, hrecord] at htake
  refine ⟨{ v' with events := v'.events.take w.events.length }, ⟨?_, ?_, ?_⟩, ?_⟩
  · simpa [Call.body] using hrequest
  · simpa [Call.actorCall] using hruns
  · exact fun id e he hreq => absurd hreq (hplaced.no_event (by rw [hl]; rfl) id e he)
  · simp [serve, World.answer, hevents, hlength]

/-- It is made active. -/
theorem Alone.own_queued {life : Req → Life} {stage : Thread → Stage}
    (hplaced : Placed life stage w calls) {body : Bytes} {nStatus : Nat} {id : EventId}
    (hl : life req = .event .queued body nStatus id)
    (h : Alone req v' (w.updateEvent id (fun e => { e with active := true }))
      (calls ++ [(.request req, .eventActive id)])) :
    ∃ v, Alone req v w calls ∧ serve (.eventActive id) v = some ((), v') := by
  have hactive : activated calls req = false := by
    rw [activated, (hplaced.part_request hl).2]
    rfl
  have he : w.events[id]? = some ⟨⟨true, req, nStatus⟩, false, 0, 0⟩ :=
    hplaced.event.of_record (by rw [hl]; rfl)
  have he' : (w.updateEvent id (fun e => { e with active := true })).events[id]? =
      some ⟨⟨true, req, nStatus⟩, true, 0, 0⟩ := by
    simp [World.updateEvent, he]
  obtain ⟨hlength, hrecord⟩ := h.event id _ he' rfl
  rw [activated_own, hactive] at hrecord
  have hrequest := h.request
  have hruns := h.actorRuns
  rw [added_own] at hrequest
  rw [actorCalls_own] at hruns
  refine ⟨v'.updateEvent id (fun e => { e with active := false }), ⟨?_, ?_, ?_⟩, ?_⟩
  · simpa [Call.body, World.updateEvent] using hrequest
  · simpa [Call.actorCall, World.updateEvent] using hruns
  · intro id' e' hid hreq
    have hr := (hplaced.event id' e').mp hid
    rw [hreq, hl] at hr
    obtain ⟨rfl, rfl⟩ := Prod.mk.inj (Option.some.inj hr)
    refine ⟨by simp [World.updateEvent, hlength], ?_⟩
    simp only [World.updateEvent, List.getElem?_modify, hrecord, hactive]
    rfl
  · have hsame : (v'.events.modify id (fun e => { e with active := false })).modify id
        (fun e => { e with active := true }) = v'.events := by
      rw [List.modify_modify_eq]
      exact modify_same hrecord rfl
    simp only [serve, World.answer, World.updateEvent, hsame]

theorem Alone.own {life : Req → Life} {stage : Thread → Stage}
    (hplaced : Placed life stage w calls) {r : c.Reply}
    (hallows : (handling req).allows (stage (.request req)) c) (hr : Performs c w r w')
    (h : Alone req v' w' (calls ++ [(.request req, c)])) :
    ∃ v, Alone req v w calls ∧ serve c v = some (r, v') := by
  have hstage := hplaced.part_request (Eq.refl (life req)) |>.1
  rw [hstage] at hallows
  cases hl : life req with
  | wrapped =>
    rw [hl] at hallows
    exact ⟨_, alone_rewound (hplaced.no_event (by rw [hl]; rfl)), h.own_wrapped hallows hr⟩
  | written body =>
    rw [hl] at hallows
    cases c with
    | eventNew ev =>
      obtain ⟨delete, reqCopy, nStatus⟩ := ev
      obtain ⟨rfl, rfl⟩ : delete = true ∧ reqCopy = req := hallows
      cases hr with
      | answer hr =>
        obtain ⟨rfl, rfl⟩ := Prod.mk.inj (Option.some.inj hr)
        exact h.own_written hplaced hl
    | _ => cases hallows
  | event phase body nStatus id =>
    rw [hl] at hallows
    cases phase with
    | queued =>
      cases c with
      | eventActive id' =>
        obtain rfl : id' = id := hallows
        cases hr with
        | answer hr =>
          obtain ⟨-, rfl⟩ := Prod.mk.inj (Option.some.inj hr)
          exact h.own_queued hplaced hl
      | _ => cases hallows
    | _ => cases c <;> cases hallows

theorem mirrors (req : Req) :
    Pool.Mirrors Performs CallsBack conduct Lives serve (.request req) (Alone req) where
  own := by
    rintro stage w calls c r w' v' ⟨life, hplaced⟩ hallows hr h
    exact h.own hplaced hallows hr
  other := fun ht _ hallows hr h => h.other ht hallows hr
  start := fun _ hs h => h.start hs

end

/-! ## What comes of each request -/

theorem serve_actorRuns {c : Call} {w w' : World} {r : c.Reply} (h : serve c w = some (r, w')) :
    w.actorRuns <+: w'.actorRuns := by
  cases c with
  | fault => cases h
  | actor =>
    obtain ⟨-, rfl⟩ := Prod.mk.inj (Option.some.inj h)
    exact List.prefix_append _ _
  | _ =>
    obtain ⟨-, rfl⟩ := Prod.mk.inj (Option.some.inj h)
    exact List.prefix_rfl

/-- The response to a request, in a world where the handling of it has ended. -/
structure EndsWith (req : Req) (res : Response) (v : World) : Prop where
  actorRuns : v.actorRuns = res.calls
  headers : (v.request req).outputHeaders = res.reply.headers
  body : (v.request req).outputBuffer = res.reply.body
  nStatus : v.events.getLast?.map (fun e => e.event.nStatus) = some res.reply.nStatus

section
variable {g : Process} {w : World} {s : Server} {req : Req}

theorem mirrored_initial (hw : w.Fresh) :
    (Server.initial g w).Mirrored serve (.request req) (Alone req)
      (EndsWith req (respond g (w.request req))) := by
  intro v hv
  have hrequest : v.request req = w.request req := by
    rw [hv.request]
    obtain ⟨hbuffer, hsent⟩ := hw.out req
    cases hr : w.request req
    simp_all [EvhttpRequest.unsent, Server.initial, added, replyCalls]
  obtain ⟨v', hrun, hhandled⟩ := serveRequest_responds g v req
  rw [hrequest] at hhandled
  refine ⟨v', hrun, ?_, hhandled.headers, ?_, ?_⟩
  · rw [hhandled.actorRuns, hv.actorRuns]
    rfl
  · rw [hhandled.body, hrequest, (hw.out req).1]
    rfl
  · rw [hhandled.events]
    simp

theorem mirrored (req : Req) (hw : w.Fresh) (h : (Server.initial g w).Performs s) :
    s.Mirrored serve (.request req) (Alone req) (EndsWith req (respond g (w.request req))) :=
  (mirrored_initial hw).reaches performs_discipline (mirrors req) (orderly_initial g hw) h

/-- There is always a run of the request alone that has come as far. -/
theorem exists_alone (req : Req) {life : Req → Life} {stage : Thread → Stage} {w : World}
    {calls : List (Thread × Call)} (h : Placed life stage w calls) :
    ∃ v, Alone req v w calls := by
  let pre : World :=
    ⟨fun _ => (w.request req).unsent (added calls req), [], actorCalls calls req, 0⟩
  cases hr : (life req).record req with
  | none => exact ⟨pre, rfl, rfl, fun id e he hreq => absurd hreq (h.no_event hr id e he)⟩
  | some record =>
    obtain ⟨id, e⟩ := record
    refine ⟨{ pre with events := List.replicate id e ++ [⟨e.event, activated calls req, 0, 0⟩] },
      rfl, rfl, fun id' e' he hreq => ?_⟩
    have hr' := (h.event id' e').mp he
    rw [hreq, hr] at hr'
    obtain ⟨rfl, rfl⟩ := Prod.mk.inj (Option.some.inj hr')
    simp

/-- Once its thread has ended, a request has come to what it comes to alone. -/
theorem ends_alone (hw : w.Fresh) (h : (Server.initial g w).Performs s)
    (hdone : s.threads (.request req) = .done ()) {v : World}
    (hv : Alone req v s.state s.calls) : EndsWith req (respond g (w.request req)) v := by
  obtain ⟨v', hrun, hend⟩ := mirrored req hw h v hv
  rw [hdone, Program.run_done] at hrun
  obtain ⟨-, rfl⟩ := Prod.mk.inj (Option.some.inj hrun)
  exact hend

theorem Placed.sent_headers {life : Req → Life} {stage : Thread → Stage}
    (hplaced : Placed life stage s.state s.calls) {reply : Reply}
    (hsent : (s.state.request req).sent = [reply]) :
    reply.headers = (s.state.request req).outputHeaders := by
  have hout := (Prod.mk.inj (hplaced.out req)).2
  rw [hsent] at hout
  cases hl : life req with
  | event phase body nStatus id =>
    rw [hl] at hout
    cases phase with
    | replied | freed => rw [List.singleton_inj.mp hout]
    | _ => cases hout
  | _ =>
    rw [hl] at hout
    cases hout

theorem sent_alone {life : Req → Life} {stage : Thread → Stage} {v : World} {res : Response}
    (hplaced : Placed life stage s.state s.calls) (hv : Alone req v s.state s.calls)
    (hend : EndsWith req res v) (hsent : (s.state.request req).sent ≠ []) :
    (s.state.request req).sent = [res.reply] := by
  obtain hnone | ⟨reply, id, hreply, hgiving⟩ := hplaced.sent req
  · exact absurd hnone hsent
  have hactive : .eventActive id ∈ replyCalls s.calls (.request req) := by simp [hgiving, giving]
  obtain ⟨body, nStatus, id', hg⟩ := hplaced.given_of_active hactive
  obtain ⟨hgiving', hevent⟩ := hplaced.destroyed hg
  obtain ⟨rfl, rfl, rfl⟩ : reply.body = body ∧ reply.nStatus = nStatus ∧ id = id' := by
    simpa [giving] using hgiving.symm.trans hgiving'
  obtain ⟨e, he, hrecord⟩ := Option.map_eq_some_iff.mp hevent
  obtain ⟨hlength, hlast⟩ := hv.event id e he (by rw [hrecord])
  have hstatus : reply.nStatus = res.reply.nStatus := by
    have hlast' := hend.nStatus
    rw [List.getLast?_eq_getElem?, hlength, Nat.add_sub_cancel, hlast] at hlast'
    simpa [hrecord] using hlast'
  have hbody : reply.body = res.reply.body := by
    rw [← hend.body, hv.request]
    simp [EvhttpRequest.unsent, added, hgiving, giving, Call.body]
  have hheaders : reply.headers = res.reply.headers := by
    rw [← hend.headers, hv.request, hplaced.sent_headers hreply]
    rfl
  rw [hreply]
  cases reply
  cases hres : res.reply
  simp_all

/-! ## Undisturbed runs -/

/-- Running a thread to its end is one of the ways to go on. -/
theorem performs_run {t : Thread} {prog : Prog Unit} {w' : World} (ht : s.threads t = prog)
    (hrun : prog.run serve s.state = some ((), w')) :
    ∃ cs, s.Performs (s.turn t (.done ()) w' cs) :=
  Pool.reaches_run (fun h => .answer h) ht hrun

/-- A request may be handled and answered in one go. -/
theorem answers_one (req : Req) (hthread : s.threads (.request req) = serveRequest g req)
    (hidle : ∀ id, s.threads (.callback id) = .done ()) :
    ∃ s', s.Performs s' ∧ (s'.state.request req).sent ≠ [] ∧
      (∀ other, other ≠ req → s'.state.request other = s.state.request other ∧
        s'.threads (.request other) = s.threads (.request other)) ∧
      ∀ id, s'.threads (.callback id) = .done () := by
  obtain ⟨w₁, hrun, hhandled⟩ := serveRequest_responds g s.state req
  obtain ⟨cs, hrequest⟩ := performs_run hthread hrun
  let id := s.state.events.length
  let ev : HTTPEvent := ⟨true, req, (respond g (s.state.request req)).reply.nStatus⟩
  let s₁ := s.turn (.request req) (.done ()) w₁ cs
  let w₂ := w₁.updateEvent id (fun e => { e with active := false, calledBack := e.calledBack + 1 })
  let s₂ := s₁.turn (.callback id) (httpeventCallbackFn id ev) w₂ []
  have hstart : Pool.Step Performs CallsBack s₁ s₂ := by
    refine .start ?_ (@CallsBack.intro w₁ id ⟨ev, true, 0, 0⟩ ?_ rfl)
    · simp [s₁, Pool.turn, hidle]
    · simp [hhandled.events, id, ev]
  obtain ⟨cs', hcallback⟩ := performs_run (s := s₂) (t := .callback id)
    (by simp [s₂, Pool.turn]) (run_callback w₂ id ev rfl)
  refine ⟨_, (hrequest.tail hstart).trans hcallback, ?_, fun other ho => ⟨?_, ?_⟩, fun id' => ?_⟩
  · simp [Pool.turn, World.calledBack, World.updateRequest, World.updateEvent, ev]
  · simp [Pool.turn, World.calledBack, World.updateRequest, World.updateEvent, ev, w₂, ho,
      hhandled.others other ho]
  · simp [Pool.turn, s₂, s₁, ho]
  · by_cases hid : id' = id
    · simp [Pool.turn, hid]
    · simp [Pool.turn, s₂, s₁, hid, hidle]

/-! ## Isolation -/

/-- What holds of a request in every state, whatever order the steps were made in. -/
structure AsAlone (g : Process) (w : World) (s : Server) (req : Req) : Prop where
  sent : (s.state.request req).sent = [] ∨
    (s.state.request req).sent = [(respond g (w.request req)).reply]
  actors : actorCalls s.calls req <+: (respond g (w.request req)).calls
  /-- All of them have run before anything is sent. -/
  finished : s.threads (.request req) = .done () ∨ (s.state.request req).sent ≠ [] →
    actorCalls s.calls req = (respond g (w.request req)).calls
  answered : s.Over req → (s.state.request req).sent = [(respond g (w.request req)).reply]

theorem done_of_sent (hw : w.Fresh) (h : (Server.initial g w).Performs s)
    (hsent : (s.state.request req).sent ≠ []) : s.threads (.request req) = .done () := by
  obtain ⟨stage, hfollows, life, hplaced⟩ := (orderly_initial g hw).reaches performs_discipline h
  obtain hnone | ⟨reply, id, -, hgiving⟩ := hplaced.sent req
  · exact absurd hnone hsent
  have hactive : .eventActive id ∈ replyCalls s.calls (.request req) := by simp [hgiving, giving]
  obtain ⟨body, nStatus, id', hg⟩ := hplaced.given_of_active hactive
  have hf := hfollows (.request req)
  rw [hg] at hf
  exact done_of_given hf

theorem sent_isolated (hw : w.Fresh) (h : (Server.initial g w).Performs s) (req : Req) :
    (s.state.request req).sent = [] ∨
      (s.state.request req).sent = [(respond g (w.request req)).reply] := by
  obtain ⟨stage, -, life, hplaced⟩ := (orderly_initial g hw).reaches performs_discipline h
  obtain ⟨v, hv⟩ := exists_alone req hplaced
  refine or_iff_not_imp_left.mpr fun hne => ?_
  exact sent_alone hplaced hv (ends_alone hw h (done_of_sent hw h hne) hv) hne

theorem answered_isolated (hw : w.Fresh) (h : (Server.initial g w).Performs s)
    (hover : s.Over req) : (s.state.request req).sent = [(respond g (w.request req)).reply] := by
  obtain ⟨stage, hfollows, life, hplaced⟩ := (orderly_initial g hw).reaches performs_discipline h
  have hended : ∀ t, s.threads t = .done () → Ended t (stage t) := by
    intro t ht
    have hf := hfollows t
    rwa [ht] at hf
  obtain ⟨reply, hreply⟩ := hplaced.answered hended hover
  exact (sent_isolated hw h req).resolve_left (by simp [hreply])

/-- A request whose reply has been sent is over when no callback is at work. -/
theorem over_of_sent (hw : w.Fresh) (h : (Server.initial g w).Performs s)
    (hsent : (s.state.request req).sent ≠ [])
    (hidle : ∀ id, s.threads (.callback id) = .done ()) : s.Over req := by
  obtain ⟨stage, -, life, hplaced⟩ := (orderly_initial g hw).reaches performs_discipline h
  refine ⟨done_of_sent hw h hsent, fun id e he hreq => ⟨?_, hidle id⟩⟩
  obtain ⟨phase, body, nStatus, hrecord, hl⟩ := hplaced.life_of_event he
  rw [hreq] at hl
  rw [(Prod.mk.inj (hplaced.out_at hl)).2] at hsent
  rw [hrecord]
  cases phase with
  | replied | freed => rfl
  | _ => exact absurd rfl hsent

theorem actors_isolated (hw : w.Fresh) (h : (Server.initial g w).Performs s) (req : Req) :
    actorCalls s.calls req <+: (respond g (w.request req)).calls := by
  obtain ⟨stage, -, life, hplaced⟩ := (orderly_initial g hw).reaches performs_discipline h
  obtain ⟨v, hv⟩ := exists_alone req hplaced
  obtain ⟨v', hrun, hend⟩ := mirrored req hw h v hv
  rw [← hv.actorRuns, ← hend.actorRuns]
  exact Program.run_keeps (R := fun v v' : World => v.actorRuns <+: v'.actorRuns)
    (fun _ => List.prefix_rfl) (fun _ _ _ => List.IsPrefix.trans) serve_actorRuns hrun

theorem finished_isolated (hw : w.Fresh) (h : (Server.initial g w).Performs s)
    (hfinished : s.threads (.request req) = .done () ∨ (s.state.request req).sent ≠ []) :
    actorCalls s.calls req = (respond g (w.request req)).calls := by
  obtain ⟨stage, -, life, hplaced⟩ := (orderly_initial g hw).reaches performs_discipline h
  obtain ⟨v, hv⟩ := exists_alone req hplaced
  rw [← hv.actorRuns]
  exact (ends_alone hw h (hfinished.elim id (done_of_sent hw h)) hv).actorRuns

/-- In every interleaving of the handlers with the event loop, each request gets the response it
gets alone. -/
theorem requests_isolated {g : Process} {w : World} (hw : w.Fresh) {s : Server}
    (h : (Server.initial g w).Performs s) (req : Req) : AsAlone g w s req where
  sent := sent_isolated hw h req
  actors := actors_isolated hw h req
  finished := finished_isolated hw h
  answered := answered_isolated hw h

/-- A request for the active commands and one that is not a POST, answered the other way round. -/
theorem requests_isolated_two :
    let w : World := ⟨fun req => if req = 0 then .post [] (cstr "\x7b\"method\":\"getrpcinfo\"\x7d")
      else .bareGet, [], [], 0⟩
    ∃ s, (Server.initial builtins w).Performs s ∧
      s.Over 0 ∧ s.Over 1 ∧ AsAlone builtins w s 0 ∧ AsAlone builtins w s 1 := by
  intro w
  have hw : w.Fresh := by
    refine ⟨rfl, fun req => ?_⟩
    by_cases hr : req = 0 <;> simp [w, hr, EvhttpRequest.post, EvhttpRequest.bareGet]
  obtain ⟨s₁, h₁, hsent₁, hothers₁, hidle₁⟩ :=
    answers_one (s := Server.initial builtins w) (g := builtins) 1 rfl fun _ => rfl
  obtain ⟨s₂, h₂, hsent₀, hothers₂, hidle₂⟩ :=
    answers_one (s := s₁) (g := builtins) 0 (hothers₁ 0 (by decide)).2 hidle₁
  have hreach := h₁.trans h₂
  have hkept : (s₂.state.request 1).sent ≠ [] := by
    rw [(hothers₂ 1 (by decide)).1]
    exact hsent₁
  exact ⟨s₂, hreach, over_of_sent hw hreach hsent₀ hidle₂, over_of_sent hw hreach hkept hidle₂,
    requests_isolated hw hreach 0, requests_isolated hw hreach 1⟩

/-! ## What a response depends on -/

/-- Requests that differ in what the handler never looks at: the value of the `Authorization`
header, which is only asked to be there, and all other headers. -/
structure SameButCredentials (r r' : EvhttpRequest) : Prop where
  command : r.command = r'.command
  uri : r.uri = r'.uri
  body : r.inputBuffer = r'.inputBuffer
  headers : r.outputHeaders = r'.outputHeaders
  authorization : World.lookupHeader r.inputHeaders (cstr "authorization") = none ↔
    World.lookupHeader r'.inputHeaders (cstr "authorization") = none

theorem respond_credentials {r r' : EvhttpRequest} (h : SameButCredentials r r') (g : Process) :
    respond g r = respond g r' := by
  have hjson : jsonRpcResponse g r = jsonRpcResponse g r' := by
    unfold jsonRpcResponse
    rw [h.uri, h.body, h.headers]
  unfold respond
  simp only [h.command, h.headers, h.authorization, hjson]

/-- Two runs, each in an order of its own and beside other requests of its own, that give a request
with other credentials: the client is sent the same, and the same actors run for it. -/
theorem credentials_ignored {g : Process} {w w' : World} (hw : w.Fresh) (hw' : w'.Fresh)
    {s s' : Server} (h : (Server.initial g w).Performs s) (h' : (Server.initial g w').Performs s')
    {req : Req} (hr : SameButCredentials (w.request req) (w'.request req))
    (hsent : (s.state.request req).sent ≠ []) (hsent' : (s'.state.request req).sent ≠ []) :
    (s.state.request req).sent = (s'.state.request req).sent ∧
      actorCalls s.calls req = actorCalls s'.calls req := by
  have hrespond := respond_credentials hr g
  constructor
  · rw [(sent_isolated hw h req).resolve_left hsent, (sent_isolated hw' h' req).resolve_left hsent',
      hrespond]
  · rw [finished_isolated hw h (.inr hsent), finished_isolated hw' h' (.inr hsent'), hrespond]

/-- A header with nothing in it, and one with a password. -/
theorem credentials_ignored_uptime :
    let r : EvhttpRequest := .post [] (cstr "\x7b\"method\":\"uptime\"\x7d")
    let r' : EvhttpRequest := { r with inputHeaders := [(cstr "authorization", cstr "Basic eDp5")] }
    ∃ s s', (Server.initial builtins (.holding r)).Performs s ∧
      (Server.initial builtins (.holding r')).Performs s' ∧
      (s.state.request 0).sent ≠ [] ∧ (s.state.request 0).sent = (s'.state.request 0).sent := by
  intro r r'
  have hfresh : ∀ r : EvhttpRequest, r.outputBuffer = [] → r.sent = [] → (World.holding r).Fresh :=
    fun r hbody hsent => ⟨rfl, fun _ => ⟨hbody, hsent⟩⟩
  have hsame : SameButCredentials r r' := ⟨rfl, rfl, rfl, rfl, by decide⟩
  obtain ⟨s, h, hsent, -⟩ :=
    answers_one (s := Server.initial builtins (.holding r)) (g := builtins) 0 rfl fun _ => rfl
  obtain ⟨s', h', hsent', -⟩ :=
    answers_one (s := Server.initial builtins (.holding r')) (g := builtins) 0 rfl fun _ => rfl
  exact ⟨s, s', h, h', hsent,
    (credentials_ignored (hfresh r rfl rfl) (hfresh r' rfl rfl) h h' hsame hsent hsent').1⟩

end

end JsonRpcServer

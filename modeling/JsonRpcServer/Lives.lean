import JsonRpcServer.EventLoop

/-!
# The life of a reply

A request moves along one line, from its wrapper to the freed event. Threads,
buffers and events are as its place there says, and every step of a handler or of
the event loop leaves it there or moves it on to the next place.
-/
namespace JsonRpcServer

open Programs

/-! ## The line -/

inductive Phase where
  | queued | active | called | replied | freed
  deriving DecidableEq, Repr

/-- The place of a request: its reply not begun, in the buffer, or on its way with an event. -/
inductive Life where
  | wrapped
  | written (body : Bytes)
  | event (phase : Phase) (body : Bytes) (nStatus : Nat) (id : EventId)

/-- What an event has seen by then: whether it is active, callbacks and frees. -/
def Phase.seen : Phase → Bool × Nat × Nat
  | .queued => (false, 0, 0)
  | .active => (true, 0, 0)
  | .called | .replied => (false, 1, 0)
  | .freed => (false, 1, 1)

namespace Life

/-- The event of a request, and where it stands. -/
def record (req : Req) : Life → Option (EventId × EventRecord)
  | .event phase _ nStatus id =>
    some (id, ⟨⟨true, req, nStatus⟩, phase.seen.1, phase.seen.2.1, phase.seen.2.2⟩)
  | _ => none

/-- The stage of the request's thread, and the calls of its reply. -/
def handler (req : Req) : Life → Stage × List Call
  | .wrapped => (.wrapped, [])
  | .written body => (.written body, [.bufferAdd req body])
  | .event .queued body nStatus id =>
    (.queued body nStatus id, [.bufferAdd req body, .eventNew ⟨true, req, nStatus⟩])
  | .event _ body nStatus id =>
    (.given body nStatus id,
      [.bufferAdd req body, .eventNew ⟨true, req, nStatus⟩, .eventActive id])

/-- The stage of its event's thread, and the calls it has made of that kind. -/
def callback (req : Req) : Life → Stage × List Call
  | .event .called _ nStatus _ => (.called ⟨true, req, nStatus⟩, [])
  | .event .replied _ nStatus _ => (.replied ⟨true, req, nStatus⟩, [.sendReply req nStatus])
  | .event .freed _ nStatus id =>
    (.freed ⟨true, req, nStatus⟩, [.sendReply req nStatus, .eventFree id])
  | _ => (.waiting, [])

/-- The output buffer, and what has been sent. -/
def out (headers : List (Bytes × Bytes)) : Life → Bytes × List Reply
  | .wrapped => ([], [])
  | .written body => (body, [])
  | .event .replied body nStatus _ | .event .freed body nStatus _ =>
    ([], [⟨nStatus, headers, body⟩])
  | .event _ body _ _ => (body, [])

theorem record_reqCopy {req : Req} {l : Life} {id : EventId} {e : EventRecord}
    (h : l.record req = some (id, e)) : e.event.reqCopy = req := by
  cases l <;> simp [record] at h
  simp [← h.2]

end Life

/-- The calls that make up a reply. -/
def Call.isReply : Call → Bool
  | .bufferAdd _ _ | .eventNew _ | .eventActive _ | .eventFree _ | .sendReply _ _ => true
  | _ => false

/-- Those a thread has made. -/
def replyCalls (calls : List (Thread × Call)) (t : Thread) : List Call :=
  (calls.filter (fun tc => tc.1 = t ∧ tc.2.isReply)).map Prod.snd

theorem replyCalls_append (calls : List (Thread × Call)) (t : Thread) {cs : List Call}
    (hcs : ∀ c ∈ cs, c.isReply) (t' : Thread) :
    replyCalls (calls ++ cs.map (t, ·)) t' = replyCalls calls t' ++ if t = t' then cs else [] := by
  have hfilter : cs.filter (fun c => c.isReply) = cs := List.filter_eq_self.mpr hcs
  by_cases h : t = t'
  · simp [replyCalls, h, List.filter_map, Function.comp_def, hfilter]
  · simp [replyCalls, h, List.filter_map, Function.comp_def]

theorem replyCalls_other (calls : List (Thread × Call)) {t : Thread} {c : Call}
    (hc : c.isReply = false) (t' : Thread) :
    replyCalls (calls ++ [(t, c)]) t' = replyCalls calls t' := by
  simp [replyCalls, hc]

/-! ## Threads, events and requests at their places -/

/-- The events are those that the lives of the requests tell of. -/
def Matches (life : Req → Life) (events : List EventRecord) : Prop :=
  ∀ id e, events[id]? = some e ↔ (life e.event.reqCopy).record e.event.reqCopy = some (id, e)

def parts (life : Req → Life) (events : List EventRecord) : Thread → Stage × List Call
  | .request req => (life req).handler req
  | .callback id =>
    match events[id]? with
    | none => (.waiting, [])
    | some e => (life e.event.reqCopy).callback e.event.reqCopy

structure Placed (life : Req → Life) (stage : Thread → Stage) (w : World)
    (calls : List (Thread × Call)) : Prop where
  part : ∀ t, (stage t, replyCalls calls t) = parts life w.events t
  event : Matches life w.events
  out : ∀ req, ((w.request req).outputBuffer, (w.request req).sent) =
    (life req).out (w.request req).outputHeaders

section
variable {life : Req → Life} {events : List EventRecord} {req : Req} {l l' : Life} {id : EventId}
  {e : EventRecord}

theorem Matches.of_record (h : Matches life events) (hr : (life req).record req = some (id, e)) :
    events[id]? = some e :=
  (h id e).mpr (by rw [Life.record_reqCopy hr]; exact hr)

theorem Matches.same (h : Matches life events) (hr : l'.record req = (life req).record req) :
    Matches (Function.update life req l') events := by
  intro id e
  rw [h id e]
  by_cases ho : e.event.reqCopy = req
  · rw [ho, Function.update_self, hr]
  · rw [Function.update_of_ne ho]

theorem Matches.modify (h : Matches life events) (hr : (life req).record req = some (id, e))
    {f : EventRecord → EventRecord} (hr' : l'.record req = some (id, f e)) :
    Matches (Function.update life req l') (events.modify id f) := by
  have he := h.of_record hr
  intro id' e'
  rw [List.getElem?_modify]
  by_cases hid : id = id'
  · subst hid
    simp only [he, if_true, Option.map_eq_map, Option.map_some, Option.some.injEq]
    by_cases ho : e'.event.reqCopy = req
    · rw [ho, Function.update_self, hr']
      simp
    · rw [Function.update_of_ne ho, ← h id e', he, Option.some.injEq]
      refine iff_of_false ?_ ?_
      · rintro rfl
        exact ho (Life.record_reqCopy hr')
      · rintro rfl
        exact ho (Life.record_reqCopy hr)
  · simp only [if_neg hid, Option.map_eq_map, Option.map_id']
    rw [h id' e']
    by_cases ho : e'.event.reqCopy = req
    · rw [ho, Function.update_self, hr, hr']
      simp [hid]
    · rw [Function.update_of_ne ho]

theorem Matches.append (h : Matches life events) (hr : (life req).record req = none)
    (hr' : l'.record req = some (events.length, e)) :
    Matches (Function.update life req l') (events ++ [e]) := by
  intro id' e'
  by_cases ho : e'.event.reqCopy = req
  · have hold : events[id']? ≠ some e' := by
      rw [Ne, h id' e', ho, hr]
      simp
    rw [ho, Function.update_self, hr', List.getElem?_append]
    split
    · refine iff_of_false hold ?_
      simp only [Option.some.injEq, Prod.mk.injEq]
      omega
    · rw [List.getElem?_singleton]
      split
      · simp only [Option.some.injEq, Prod.mk.injEq]
        exact (and_iff_right (by omega)).symm
      · simp only [reduceCtorEq, Option.some.injEq, Prod.mk.injEq, false_iff]
        omega
  · have hne : e ≠ e' := by
      rintro rfl
      exact ho (Life.record_reqCopy hr')
    rw [Function.update_of_ne ho, ← h id' e', List.getElem?_append]
    split
    · rfl
    · have hnone : events[id']? = none := List.getElem?_eq_none (by omega)
      rw [List.getElem?_singleton, hnone]
      split <;> simp [hne]

theorem parts_of_record (h : Matches life events) (hr : (life req).record req = some (id, e)) :
    parts life events (.callback id) = (life req).callback req := by
  simp only [parts, h.of_record hr, Life.record_reqCopy hr]

theorem Life.callback_of_record_none (h : l.record req = none) :
    l.callback req = (.waiting, []) := by
  cases l with
  | event => cases h
  | _ => rfl

/-- A request that moves on changes nothing for the threads that have no part in it. -/
theorem parts_frame {events' : List EventRecord} (h : Matches life events)
    (h' : Matches (Function.update life req l') events') {t : Thread} (ht : t ≠ .request req)
    (hown : ∀ id e, l'.record req = some (id, e) → t = .callback id →
      l'.callback req = (life req).callback req)
    (hkeep : ∀ id e, (life req).record req = some (id, e) → ∃ e', l'.record req = some (id, e')) :
    parts (Function.update life req l') events' t = parts life events t := by
  cases t with
  | request r =>
    have hr : r ≠ req := fun hr => ht (by rw [hr])
    simp only [parts, Function.update_of_ne hr]
  | callback id =>
    by_cases hex : ∃ r e, (life r).record r = some (id, e)
    · obtain ⟨r, e, hr⟩ := hex
      rw [parts_of_record h hr]
      by_cases hreq : r = req
      · subst hreq
        obtain ⟨e', he'⟩ := hkeep id e hr
        rw [parts_of_record h' (by rw [Function.update_self]; exact he'), Function.update_self]
        exact hown id e' he' rfl
      · rw [parts_of_record h' (by rw [Function.update_of_ne hreq]; exact hr),
          Function.update_of_ne hreq]
    · have hnone : events[id]? = none := by
        by_contra hsome
        obtain ⟨e, he⟩ := Option.ne_none_iff_exists'.mp hsome
        exact hex ⟨_, e, (h id e).mp he⟩
      have hwaiting : parts life events (.callback id) = (.waiting, []) := by
        simp only [parts, hnone]
      rw [hwaiting]
      by_cases hnew : ∃ e', l'.record req = some (id, e')
      · obtain ⟨e', he'⟩ := hnew
        rw [parts_of_record h' (by rw [Function.update_self]; exact he'), Function.update_self,
          hown id e' he' rfl]
        refine Life.callback_of_record_none ?_
        by_contra hsome
        obtain ⟨⟨id₀, e₀⟩, h₀⟩ := Option.ne_none_iff_exists'.mp hsome
        obtain ⟨e₁, h₁⟩ := hkeep id₀ e₀ h₀
        obtain ⟨rfl, -⟩ := Prod.mk.inj (Option.some.inj (h₁.symm.trans he'))
        exact hex ⟨req, e₀, h₀⟩
      · have hnone' : events'[id]? = none := by
          by_contra hsome
          obtain ⟨e, he⟩ := Option.ne_none_iff_exists'.mp hsome
          have hrecord := (h' id e).mp he
          by_cases ho : e.event.reqCopy = req
          · rw [ho, Function.update_self] at hrecord
            exact hnew ⟨e, hrecord⟩
          · rw [Function.update_of_ne ho] at hrecord
            exact hex ⟨_, e, hrecord⟩
        simp only [parts, hnone']

/-- When the request's own thread moves it on, and its event has not been called back. -/
theorem others_request {events' : List EventRecord} (h : Matches life events)
    (h' : Matches (Function.update life req l') events')
    (hcallback : l'.callback req = (life req).callback req)
    (hkeep : ∀ id e, (life req).record req = some (id, e) → ∃ e', l'.record req = some (id, e'))
    (t' : Thread) (ht : t' ≠ .request req) :
    parts (Function.update life req l') events' t' = parts life events t' :=
  parts_frame h h' ht (fun _ _ _ _ => hcallback) hkeep

/-- When the thread of its event does. -/
theorem others_callback {events' : List EventRecord} {e' : EventRecord}
    (h : Matches life events)
    (h' : Matches (Function.update life req l') events')
    (hhandler : l'.handler req = (life req).handler req)
    (hr : (life req).record req = some (id, e)) (hr' : l'.record req = some (id, e'))
    (t' : Thread) (ht : t' ≠ .callback id) :
    parts (Function.update life req l') events' t' = parts life events t' := by
  by_cases hreq : t' = .request req
  · subst hreq
    simp only [parts, Function.update_self, hhandler]
  · refine parts_frame h h' hreq (fun id' e₁ h₁ heq => ?_) (fun id' e₁ h₁ => ?_)
    · obtain ⟨rfl, -⟩ := Prod.mk.inj (Option.some.inj (hr'.symm.trans h₁))
      exact absurd heq ht
    · obtain ⟨rfl, -⟩ := Prod.mk.inj (Option.some.inj (hr.symm.trans h₁))
      exact ⟨e', hr'⟩

end

/-! ## Steps -/

section
variable {life : Req → Life} {stage : Thread → Stage} {w w' : World} {calls : List (Thread × Call)}
  {req : Req} {t : Thread}

theorem Placed.advance (h : Placed life stage w calls) {l' : Life} {st : Stage} (cs : List Call)
    (hevent : Matches (Function.update life req l') w'.events)
    (hpart : parts (Function.update life req l') w'.events t = (st, replyCalls calls t ++ cs))
    (hothers : ∀ t', t' ≠ t →
      parts (Function.update life req l') w'.events t' = parts life w.events t')
    (hcs : ∀ c ∈ cs, c.isReply) (hworld : ∀ r, r ≠ req → w'.request r = w.request r)
    (hout : ((w'.request req).outputBuffer, (w'.request req).sent) =
      l'.out (w'.request req).outputHeaders) :
    Placed (Function.update life req l') (Function.update stage t st) w'
      (calls ++ cs.map (t, ·)) := by
  refine ⟨fun t' => ?_, hevent, fun r => ?_⟩
  · rw [replyCalls_append calls t hcs]
    by_cases ht : t' = t
    · subst ht
      rw [Function.update_self, hpart, if_pos rfl]
    · rw [Function.update_of_ne ht, hothers t' ht, ← h.part t', if_neg (Ne.symm ht),
        List.append_nil]
  · by_cases hr : r = req
    · subst hr
      rw [Function.update_self, hout]
    · rw [Function.update_of_ne hr, hworld r hr, h.out r]

/-- A call that has no part in a reply, and changes no buffer. -/
theorem Placed.other (h : Placed life stage w calls) {st : Stage} {c : Call} (hst : st = stage t)
    (hc : c.isReply = false) (hevents : w'.events = w.events)
    (hworld : ∀ r, (w'.request r).outputBuffer = (w.request r).outputBuffer ∧
      (w'.request r).sent = (w.request r).sent)
    (hheaders : ∀ r, life r = .wrapped ∨
      (w'.request r).outputHeaders = (w.request r).outputHeaders) :
    Placed life (Function.update stage t st) w' (calls ++ [(t, c)]) := by
  subst hst
  rw [Function.update_eq_self]
  refine ⟨fun t' => ?_, ?_, fun r => ?_⟩
  · rw [replyCalls_other calls hc, hevents]
    exact h.part t'
  · rw [hevents]
    exact h.event
  · obtain ⟨hbuffer, hsent⟩ := hworld r
    have hout := h.out r
    rw [hbuffer, hsent, hout]
    rcases hheaders r with hl | hh
    · rw [hl]
      rfl
    · rw [hh]

theorem Placed.part_request (h : Placed life stage w calls) {l : Life} (hl : life req = l) :
    stage (.request req) = (l.handler req).1 ∧
      replyCalls calls (.request req) = (l.handler req).2 := by
  subst hl
  exact Prod.mk.inj (h.part (.request req))

theorem Placed.part_callback (h : Placed life stage w calls) {l : Life} (hl : life req = l)
    {id : EventId} {e : EventRecord} (hr : l.record req = some (id, e)) :
    stage (.callback id) = (l.callback req).1 ∧
      replyCalls calls (.callback id) = (l.callback req).2 := by
  subst hl
  have hp := h.part (.callback id)
  rw [parts_of_record h.event hr] at hp
  exact Prod.mk.inj hp

theorem Placed.out_at (h : Placed life stage w calls) {l : Life} (hl : life req = l) :
    ((w.request req).outputBuffer, (w.request req).sent) =
      l.out (w.request req).outputHeaders := by
  subst hl
  exact h.out req

theorem Placed.bufferAdd (h : Placed life stage w calls) (hl : life req = .wrapped)
    (data : Bytes) :
    Placed (Function.update life req (.written data))
      (Function.update stage (.request req) (.written data))
      (w.updateRequest req (fun r => { r with outputBuffer := r.outputBuffer ++ data }))
      (calls ++ [(.request req, .bufferAdd req data)]) := by
  obtain ⟨hbuffer, hsent⟩ := Prod.mk.inj (h.out_at hl)
  have hevent : Matches (Function.update life req (.written data)) w.events :=
    h.event.same (by rw [hl]; rfl)
  have hothers := others_request h.event hevent (by rw [hl]; rfl) (by simp [hl, Life.record])
  refine h.advance [.bufferAdd req data] hevent ?_ hothers (by simp [Call.isReply]) ?_ ?_
  · rw [(h.part_request hl).2]
    simp [parts, Life.handler]
  · exact fun r hr => by simp [World.updateRequest, hr]
  · simp [World.updateRequest, hbuffer, hsent, Life.out]

theorem Placed.eventNew (h : Placed life stage w calls) {body : Bytes}
    (hl : life req = .written body) (nStatus : Nat) :
    Placed (Function.update life req (.event .queued body nStatus w.events.length))
      (Function.update stage (.request req) (.queued body nStatus w.events.length))
      { w with events := w.events ++ [⟨⟨true, req, nStatus⟩, false, 0, 0⟩] }
      (calls ++ [(.request req, .eventNew ⟨true, req, nStatus⟩)]) := by
  have hevent : Matches (Function.update life req (.event .queued body nStatus w.events.length))
      (w.events ++ [⟨⟨true, req, nStatus⟩, false, 0, 0⟩]) :=
    h.event.append (by rw [hl]; rfl) rfl
  have hothers := others_request h.event hevent (by rw [hl]; rfl)
    (by simp [hl, Life.record])
  refine h.advance [.eventNew ⟨true, req, nStatus⟩] hevent ?_ hothers (by simp [Call.isReply])
    (fun _ _ => rfl) ?_
  · rw [(h.part_request hl).2]
    simp [parts, Life.handler]
  · exact (h.out_at hl).trans rfl

theorem Placed.eventActive (h : Placed life stage w calls) {body : Bytes} {nStatus : Nat}
    {id : EventId} (hl : life req = .event .queued body nStatus id) :
    Placed (Function.update life req (.event .active body nStatus id))
      (Function.update stage (.request req) (.given body nStatus id))
      (w.updateEvent id (fun e => { e with active := true }))
      (calls ++ [(.request req, .eventActive id)]) := by
  have hevent : Matches (Function.update life req (.event .active body nStatus id))
      (w.updateEvent id (fun e => { e with active := true })).events :=
    h.event.modify (by rw [hl]; rfl) rfl
  have hothers := others_request h.event hevent (by rw [hl]; rfl) (by simp [hl, Life.record])
  refine h.advance [.eventActive id] hevent ?_ hothers (by simp [Call.isReply]) (fun _ _ => rfl) ?_
  · rw [(h.part_request hl).2]
    simp [parts, Life.handler]
  · exact (h.out_at hl).trans rfl

theorem Placed.callBack (h : Placed life stage w calls) {body : Bytes} {nStatus : Nat}
    {id : EventId} (hl : life req = .event .active body nStatus id) :
    Placed (Function.update life req (.event .called body nStatus id))
      (Function.update stage (.callback id) (.called ⟨true, req, nStatus⟩))
      (w.updateEvent id (fun e => { e with active := false, calledBack := e.calledBack + 1 }))
      calls := by
  have hevent : Matches (Function.update life req (.event .called body nStatus id))
      (w.updateEvent id
        (fun e => { e with active := false, calledBack := e.calledBack + 1 })).events :=
    h.event.modify (by rw [hl]; rfl) rfl
  have hothers := others_callback h.event hevent (by rw [hl]; rfl) (by rw [hl]; rfl) rfl
  rw [← List.append_nil calls]
  refine h.advance [] hevent ?_ hothers (by simp) (fun _ _ => rfl) ?_
  · rw [(h.part_callback hl rfl).2, parts_of_record hevent (by rw [Function.update_self]; rfl)]
    simp [Life.callback]
  · exact (h.out_at hl).trans rfl

theorem Placed.sendReply (h : Placed life stage w calls) {body : Bytes} {nStatus : Nat}
    {id : EventId} (hl : life req = .event .called body nStatus id) :
    Placed (Function.update life req (.event .replied body nStatus id))
      (Function.update stage (.callback id) (.replied ⟨true, req, nStatus⟩))
      (w.updateRequest req (fun r =>
        { r with
          sent := r.sent ++ [⟨nStatus, r.outputHeaders, r.outputBuffer⟩]
          outputBuffer := [] }))
      (calls ++ [(.callback id, .sendReply req nStatus)]) := by
  obtain ⟨hbuffer, hsent⟩ := Prod.mk.inj (h.out_at hl)
  have hevent : Matches (Function.update life req (.event .replied body nStatus id)) w.events :=
    h.event.same (by rw [hl]; rfl)
  have hothers := others_callback h.event hevent (by rw [hl]; rfl) (by rw [hl]; rfl) rfl
  refine h.advance [.sendReply req nStatus] hevent ?_ hothers (by simp [Call.isReply]) ?_ ?_
  · rw [(h.part_callback hl rfl).2, World.updateRequest,
      parts_of_record hevent (by rw [Function.update_self]; rfl)]
    simp [Life.callback]
  · exact fun r hr => by simp [World.updateRequest, hr]
  · simp [World.updateRequest, hbuffer, hsent, Life.out]

theorem Placed.eventFree (h : Placed life stage w calls) {body : Bytes} {nStatus : Nat}
    {id : EventId} (hl : life req = .event .replied body nStatus id) :
    Placed (Function.update life req (.event .freed body nStatus id))
      (Function.update stage (.callback id) (.freed ⟨true, req, nStatus⟩))
      (w.updateEvent id (fun e => { e with freed := e.freed + 1 }))
      (calls ++ [(.callback id, .eventFree id)]) := by
  have hevent : Matches (Function.update life req (.event .freed body nStatus id))
      (w.updateEvent id (fun e => { e with freed := e.freed + 1 })).events :=
    h.event.modify (by rw [hl]; rfl) rfl
  have hothers := others_callback h.event hevent (by rw [hl]; rfl) (by rw [hl]; rfl) rfl
  refine h.advance [.eventFree id] hevent ?_ hothers (by simp [Call.isReply]) (fun _ _ => rfl) ?_
  · rw [(h.part_callback hl rfl).2, parts_of_record hevent (by rw [Function.update_self]; rfl)]
    simp [Life.callback]
  · exact (h.out_at hl).trans rfl

/-! ## Calls -/

/-- A call of a handler that does not begin a reply. -/
theorem reacts_handlerCall {c : Call} {r : c.Reply} (hc : HandlerCall req c)
    (hw : ∀ r data, c ≠ .bufferAdd r data) (h : Reacts c w r w') :
    c.isReply = false ∧ w'.events = w.events ∧
      (∀ r, (w'.request r).outputBuffer = (w.request r).outputBuffer ∧
        (w'.request r).sent = (w.request r).sent) ∧
      ∀ r, r ≠ req → (w'.request r).outputHeaders = (w.request r).outputHeaders := by
  have hupdate : ∀ f : EvhttpRequest → EvhttpRequest,
      (∀ r, (f r).outputBuffer = r.outputBuffer ∧ (f r).sent = r.sent) →
      (∀ r, ((w.updateRequest req f).request r).outputBuffer = (w.request r).outputBuffer ∧
        ((w.updateRequest req f).request r).sent = (w.request r).sent) ∧
      ∀ r, r ≠ req →
        ((w.updateRequest req f).request r).outputHeaders = (w.request r).outputHeaders := by
    refine fun f hf => ⟨fun r => ?_, fun r hr => by simp [World.updateRequest, hr]⟩
    by_cases hr : r = req
    · subst hr
      simp [World.updateRequest, hf]
    · simp [World.updateRequest, hr]
  cases h with
  | answer h =>
    cases c with
    | requestCommand | requestUri | requestPart | findHeader | bufferLength | bufferPullup
    | actor =>
      obtain ⟨-, rfl⟩ := Prod.mk.inj (Option.some.inj h)
      exact ⟨rfl, rfl, fun _ => ⟨rfl, rfl⟩, fun _ _ => rfl⟩
    | addHeader | bufferDrain =>
      obtain ⟨-, rfl⟩ := Prod.mk.inj (Option.some.inj h)
      obtain rfl := hc
      exact ⟨rfl, rfl, hupdate _ fun _ => ⟨rfl, rfl⟩⟩
    | bufferAdd => exact absurd rfl (hw _ _)
    | _ => cases hc
  | noConnection => cases hc
  | noBufferevent => cases hc

theorem reacts_expected {c : Call} {r : c.Reply} (h : Reacts c w r w') : Expected c r := by
  cases h with
  | answer h =>
    cases c with
    | requestPart =>
      obtain ⟨hr, -⟩ := Prod.mk.inj (Option.some.inj h)
      exact hr.symm
    | _ => trivial
  | noConnection => trivial
  | noBufferevent => trivial

/-- A call that only looks leaves the world alone. -/
def Call.looks : Call → Bool
  | .versionNumber | .requestConnection _ | .connectionBufferevent _ | .buffereventEnable _ => true
  | _ => false

theorem reacts_looks {c : Call} {r : c.Reply} (hc : c.looks) (h : Reacts c w r w') : w' = w := by
  cases h with
  | answer h =>
    cases c with
    | versionNumber | requestConnection | connectionBufferevent | buffereventEnable =>
      obtain ⟨-, rfl⟩ := Prod.mk.inj (Option.some.inj h)
      rfl
    | _ => cases hc
  | noConnection => rfl
  | noBufferevent => rfl

/-- The lives of the requests behind a state of the server. -/
def Lives (stage : Thread → Stage) (w : World) (calls : List (Thread × Call)) : Prop :=
  ∃ life, Placed life stage w calls

theorem lives_handling (h : Placed life stage w calls) {c : Call} {r : c.Reply}
    (hallows : (handling req).allows (stage (.request req)) c) (hreact : Reacts c w r w') :
    Lives (Function.update stage (.request req)
      ((handling req).after (stage (.request req)) c r)) w' (calls ++ [(.request req, c)]) := by
  cases hl : life req with
  | wrapped =>
    have hstage : stage (.request req) = .wrapped := (h.part_request hl).1
    rw [hstage] at hallows ⊢
    by_cases hw : ∃ req' data, c = .bufferAdd req' data
    · obtain ⟨req', data, rfl⟩ := hw
      obtain rfl : req' = req := hallows
      cases hreact with
      | answer h' =>
        obtain ⟨-, rfl⟩ := Prod.mk.inj (Option.some.inj h')
        exact ⟨_, h.bufferAdd hl data⟩
    · have hw' : ∀ req' data, c ≠ .bufferAdd req' data :=
        fun req' data hc => hw ⟨req', data, hc⟩
      obtain ⟨hc, hevents, hworld, hheaders⟩ := reacts_handlerCall hallows hw' hreact
      have hafter : (handling req).after .wrapped c r = .wrapped := by
        cases c <;> first | rfl | exact absurd rfl (hw' _ _)
      refine ⟨_, h.other (hafter.trans hstage.symm) hc hevents hworld fun req' => ?_⟩
      by_cases hr : req' = req
      · exact .inl (hr ▸ hl)
      · exact .inr (hheaders req' hr)
  | written body =>
    have hstage : stage (.request req) = .written body := (h.part_request hl).1
    rw [hstage] at hallows ⊢
    cases c with
    | eventNew ev =>
      obtain ⟨delete, reqCopy, nStatus⟩ := ev
      obtain ⟨rfl, rfl⟩ : delete = true ∧ reqCopy = req := hallows
      cases hreact with
      | answer h' =>
        obtain ⟨rfl, rfl⟩ := Prod.mk.inj (Option.some.inj h')
        exact ⟨_, h.eventNew hl nStatus⟩
    | _ => cases hallows
  | event phase body nStatus id =>
    cases phase with
    | queued =>
      have hstage : stage (.request req) = .queued body nStatus id := (h.part_request hl).1
      rw [hstage] at hallows ⊢
      cases c with
      | eventActive id' =>
        obtain rfl : id' = id := hallows
        cases hreact with
        | answer h' =>
          obtain ⟨-, rfl⟩ := Prod.mk.inj (Option.some.inj h')
          exact ⟨_, h.eventActive hl⟩
      | _ => cases hallows
    | _ =>
      -- nothing is left to call
      have hstage : stage (.request req) = .given body nStatus id := (h.part_request hl).1
      rw [hstage] at hallows
      cases c <;> cases hallows

theorem lives_callingBack (h : Placed life stage w calls) {id : EventId} {c : Call} {r : c.Reply}
    (hallows : (callingBack id).allows (stage (.callback id)) c) (hreact : Reacts c w r w') :
    Lives (Function.update stage (.callback id)
      ((callingBack id).after (stage (.callback id)) c r)) w' (calls ++ [(.callback id, c)]) := by
  have hpart := h.part (.callback id)
  cases he : w.events[id]? with
  | none =>
    have hstage : stage (.callback id) = .waiting := by
      simp only [parts, he] at hpart
      exact (Prod.mk.inj hpart).1
    rw [hstage] at hallows
    cases c <;> cases hallows
  | some e =>
    have hr := (h.event id e).mp he
    generalize e.event.reqCopy = req at hr
    cases hl : life req with
    | event phase body nStatus id' =>
      obtain rfl : id' = id := by
        rw [hl] at hr
        exact (Prod.mk.inj (Option.some.inj hr)).1
      cases phase with
      | called =>
        have hstage : stage (.callback id') = .called ⟨true, req, nStatus⟩ :=
          (h.part_callback hl rfl).1
        rw [hstage] at hallows ⊢
        cases c with
        | sendReply req' nStatus' =>
          obtain ⟨rfl, rfl⟩ : req' = req ∧ nStatus' = nStatus := hallows
          cases hreact with
          | answer h' =>
            obtain ⟨-, rfl⟩ := Prod.mk.inj (Option.some.inj h')
            exact ⟨_, h.sendReply hl⟩
        | _ => cases hallows
      | replied =>
        have hstage : stage (.callback id') = .replied ⟨true, req, nStatus⟩ :=
          (h.part_callback hl rfl).1
        rw [hstage] at hallows ⊢
        cases c with
        | eventFree id'' =>
          obtain rfl : id'' = id' := hallows
          cases hreact with
          | answer h' =>
            obtain ⟨-, rfl⟩ := Prod.mk.inj (Option.some.inj h')
            exact ⟨_, h.eventFree hl⟩
        | versionNumber | requestConnection | connectionBufferevent | buffereventEnable =>
          obtain rfl := reacts_looks rfl hreact
          exact ⟨_, h.other hstage.symm rfl rfl (fun _ => ⟨rfl, rfl⟩) fun _ => .inr rfl⟩
        | _ => cases hallows
      | _ =>
        have hstage := (h.part_callback hl rfl).1
        rw [hstage] at hallows
        cases c <;> cases hallows
    | _ =>
      rw [hl] at hr
      cases hr

theorem lives_callsBack (h : Placed life stage w calls)
    {prog : Prog Unit} (hs : CallsBack w t prog w') :
    ∃ st, prog.Follows (conduct t) st (fun _ => Ended t) ∧
      Lives (Function.update stage t st) w' calls := by
  cases hs with
  | @intro id e he ha =>
    have hr := (h.event id e).mp he
    cases hl : life e.event.reqCopy with
    | event phase body nStatus id' =>
      rw [hl] at hr
      obtain ⟨rfl, hrecord⟩ := Prod.mk.inj (Option.some.inj hr)
      have hactive : phase = .active := by
        rw [← hrecord] at ha
        cases phase <;> first | rfl | cases ha
      subst hactive
      refine ⟨_, ?_, _, h.callBack hl⟩
      rw [← hrecord]
      exact follows_callback id' rfl
    | _ =>
      rw [hl] at hr
      cases hr

theorem lives_discipline : Pool.Discipline Reacts CallsBack conduct Ended Lives where
  call := by
    rintro stage w calls (req | id) c r w' ⟨life, h⟩ hallows hreact
    · exact ⟨reacts_expected hreact, lives_handling h hallows hreact⟩
    · exact ⟨reacts_expected hreact, lives_callingBack h hallows hreact⟩
  start := by
    rintro stage w calls t prog w' ⟨life, h⟩ - hs
    exact lives_callsBack h hs

end

end JsonRpcServer

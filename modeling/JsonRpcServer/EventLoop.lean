import JsonRpcServer.HttpRpc
import JsonRpcServer.Threads

/-!
# Handlers and the event loop

A thread for each request, which wraps it, runs the handler and destroys the
wrapper, and a thread for each event, which the loop starts when the event is
active. The rules say how a thread may go about its reply; here the threads are
shown to follow them.
-/
namespace JsonRpcServer

open Programs UniValue HTTPRequest

inductive Thread where
  | request (req : Req)
  | callback (id : EventId)
  deriving DecidableEq, Repr

/-- The life of a wrapper: whatever comes of the handler, `~HTTPRequest` runs after it. -/
def serveRequest (g : Process) (req : Req) : Prog Unit := do
  let (_, http) ← (httpReqJsonrpc g).run.run (.new req)
  let _ ← destroy.run http

/-- An actor may do anything, another time something else, and a connection may be gone. -/
inductive Reacts : Reaction surroundings World where
  | answer {outcome : CRPCCommand → JSONRPCRequest → Except Exception UniValue} {c : Call}
      {w w' : World} {r : c.Reply} (h : World.answer outcome c w = some (r, w')) : Reacts c w r w'
  | noConnection {req : Req} {w : World} : Reacts (.requestConnection req) w false w
  | noBufferevent {req : Req} {w : World} : Reacts (.connectionBufferevent req) w false w

/-- The loop calls an active event back, once. -/
inductive CallsBack : World → Thread → Prog Unit → World → Prop where
  | intro {w : World} {id : EventId} {e : EventRecord} (he : w.events[id]? = some e)
      (ha : e.active) :
      CallsBack w (.callback id) (httpeventCallbackFn id e.event)
        (w.updateEvent id (fun e => { e with active := false, calledBack := e.calledBack + 1 }))

abbrev Server := Pool surroundings Thread World

/-- Requests that have come in, none of them handled yet. -/
def Server.initial (g : Process) (w : World) : Server where
  threads
    | .request req => serveRequest g req
    | .callback _ => .done ()
  state := w
  calls := []

/-! ## The rules -/

/-- How far the reply of a request is, in the thread of the request, and in that of its event. -/
inductive Stage where
  | wrapped
  | written (body : Bytes)
  | queued (body : Bytes) (nStatus : Nat) (id : EventId)
  | given (body : Bytes) (nStatus : Nat) (id : EventId)
  | waiting
  | called (ev : HTTPEvent)
  | replied (ev : HTTPEvent)
  | freed (ev : HTTPEvent)

/-- Calls of a handler before it replies, and the first call of its reply. -/
def HandlerCall (req : Req) : Call → Prop
  | .requestCommand r | .requestUri r | .requestPart r _ | .findHeader r _ | .addHeader r _ _
  | .bufferLength r | .bufferPullup r _ | .bufferDrain r _ | .bufferAdd r _ => r = req
  | .actor _ _ => True
  | _ => False

/-- The parts of a request are never null pointers. -/
def Expected : (c : Call) → c.Reply → Prop
  | .requestPart _ _, r => r = true
  | _, _ => True

/-- Body, event and activation, in this order, and nothing after them. -/
def handling (req : Req) : Rules surroundings Stage where
  allows
    | .wrapped, c => HandlerCall req c
    | .written _, .eventNew ev => ev.deleteWhenTriggered = true ∧ ev.reqCopy = req
    | .queued _ _ id, .eventActive id' => id' = id
    | _, _ => False
  expects := Expected
  after
    | .wrapped, .bufferAdd _ data, _ => .written data
    | .written body, .eventNew ev, id => .queued body ev.nStatus id
    | .queued body nStatus id, .eventActive _, _ => .given body nStatus id
    | stage, _, _ => stage

/-- One reply, what it takes to read on from the socket, and the end of the event. -/
def callingBack (id : EventId) : Rules surroundings Stage where
  allows
    | .called ev, .sendReply req nStatus => req = ev.reqCopy ∧ nStatus = ev.nStatus
    | .replied _, .versionNumber => True
    | .replied ev, .requestConnection req | .replied ev, .connectionBufferevent req
    | .replied ev, .buffereventEnable req => req = ev.reqCopy
    | .replied _, .eventFree id' => id' = id
    | _, _ => False
  expects := Expected
  after
    | .called ev, .sendReply _ _, _ => .replied ev
    | .replied ev, .eventFree _, _ => .freed ev
    | stage, _, _ => stage

def conduct : Thread → Rules surroundings Stage
  | .request req => handling req
  | .callback id => callingBack id

def Ended : Thread → Stage → Prop
  | .request _, stage => ∃ body nStatus id, stage = .given body nStatus id
  | .callback _, stage => stage = .waiting ∨ ∃ ev, stage = .freed ev

/-! ## The callback -/

theorem follows_ask {α : Type} {R : Rules surroundings Stage} {stage : Stage} {c : Call}
    {f : c.Reply → Prog α} {ends : α → Stage → Prop} (hc : R.allows stage c)
    (hf : ∀ r, R.expects c r → (f r).Follows R (R.after stage c r) ends) :
    (ask c >>= f).Follows R stage ends := ⟨hc, hf⟩

theorem follows_handler (id : EventId) (ev : HTTPEvent) :
    (HTTPEvent.handler ev).Follows (callingBack id) (.called ev)
      (fun _ stage => stage = .replied ev) := by
  unfold HTTPEvent.handler
  refine follows_ask ⟨rfl, rfl⟩ fun _ _ => follows_ask trivial fun version _ => ?_
  split
  · refine follows_ask rfl fun conn _ => ?_
    split
    · refine follows_ask rfl fun bev _ => ?_
      split
      · exact ⟨rfl, fun _ _ => rfl⟩
      · exact rfl
    · exact rfl
  · exact rfl

theorem follows_callback (id : EventId) {ev : HTTPEvent} (hd : ev.deleteWhenTriggered) :
    (httpeventCallbackFn id ev).Follows (callingBack id) (.called ev)
      (fun _ => Ended (.callback id)) := by
  unfold httpeventCallbackFn
  refine (follows_handler id ev).bind fun _ stage hstage => ?_
  subst hstage
  rw [if_pos hd]
  exact ⟨rfl, fun _ _ => .inr ⟨ev, rfl⟩⟩

/-! ## The methods of a wrapper -/

/-- The wrapper still has the request. -/
def Holds (req : Req) (http : HTTPRequest) (stage : Stage) : Prop :=
  http = ⟨some req, false⟩ ∧ stage = .wrapped

/-- The wrapper has given it back. -/
def GaveBack (http : HTTPRequest) (stage : Stage) : Prop :=
  http = ⟨none, true⟩ ∧ ∃ body nStatus id, stage = .given body nStatus id

/-- What a method does that is called while the wrapper has the request. -/
def Conducts {α : Type} (req : Req) (m : HTTPM α) (ends : α → HTTPRequest → Stage → Prop) : Prop :=
  (m.run ⟨some req, false⟩).Follows (handling req) .wrapped (fun r => ends r.1 r.2)

/-- The method leaves the wrapper the request, and returns what `P` says. -/
def Yields {α : Type} (req : Req) (m : HTTPM α) (P : α → Prop) : Prop :=
  Conducts req m (fun a http stage => P a ∧ Holds req http stage)

abbrev Keeps {α : Type} (req : Req) (m : HTTPM α) : Prop := Yields req m (fun _ => True)

section
variable {α β : Type} {req : Req}

theorem Yields.bind {m : HTTPM α} {f : α → HTTPM β} {P : α → Prop}
    {ends : β → HTTPRequest → Stage → Prop} (hm : Yields req m P)
    (hf : ∀ a, P a → Conducts req (f a) ends) : Conducts req (m >>= f) ends := by
  unfold Conducts
  rw [StateT.run_bind]
  refine Program.Follows.bind hm ?_
  rintro ⟨a, http⟩ stage ⟨ha, hhttp, hstage⟩
  simp only at hhttp
  subst hhttp hstage
  exact hf a ha

theorem yields_pure {P : α → Prop} {a : α} (h : P a) : Yields req (pure a) P := ⟨h, rfl, rfl⟩

/-- A call that the handler may make and that does not begin a reply. -/
theorem yields_ask {c : Call} (hc : HandlerCall req c) (hw : ∀ r data, c ≠ .bufferAdd r data) :
    Yields req (ask c) (Expected c) := by
  refine ⟨hc, fun r hr => ⟨hr, rfl, ?_⟩⟩
  cases c <;> first | rfl | exact absurd rfl (hw _ _)

theorem keeps_ask {c : Call} (hc : HandlerCall req c) (hw : ∀ r data, c ≠ .bufferAdd r data) :
    Keeps req (ask c) :=
  Program.Follows.mono (yields_ask hc hw) fun _ _ h => ⟨trivial, h.2⟩

theorem yields_deref : Yields req deref (fun r => r = req) := ⟨rfl, rfl, rfl⟩

theorem keeps_assert {b : Bool} (h : b = true) : Keeps req (HTTPRequest.assert b) := by
  subst h
  exact yields_pure trivial

theorem keeps_getHeader (hdr : Bytes) : Keeps req (getHeader hdr) := by
  refine yields_deref.bind fun r hr => ?_
  subst hr
  refine (yields_ask (by rfl) (by simp)).bind fun _ hb => (keeps_assert hb).bind fun _ _ => ?_
  refine (keeps_ask (by rfl) (by simp)).bind fun val _ => ?_
  cases val <;> exact yields_pure trivial

theorem keeps_readBody : Keeps req readBody := by
  refine yields_deref.bind fun r hr => ?_
  subst hr
  refine (yields_ask (by rfl) (by simp)).bind fun b hb => ?_
  obtain rfl : b = true := hb
  refine (keeps_ask (by rfl) (by simp)).bind fun size _ => ?_
  refine (keeps_ask (by rfl) (by simp)).bind fun rv _ => ?_
  cases rv with
  | none => exact yields_pure trivial
  | some rv => exact (keeps_ask (by rfl) (by simp)).bind fun _ _ => yields_pure trivial

theorem keeps_writeHeader (hdr value : Bytes) : Keeps req (writeHeader hdr value) := by
  refine yields_deref.bind fun r hr => ?_
  subst hr
  refine (yields_ask (by rfl) (by simp)).bind fun _ hb => (keeps_assert hb).bind fun _ _ => ?_
  exact keeps_ask (by rfl) (by simp)

theorem keeps_getURI : Keeps req getURI := by
  refine yields_deref.bind fun r hr => ?_
  subst hr
  exact keeps_ask (by rfl) (by simp)

theorem keeps_getRequestMethod : Keeps req getRequestMethod := by
  refine yields_deref.bind fun r hr => ?_
  subst hr
  refine (keeps_ask (by rfl) (by simp)).bind fun command _ => ?_
  cases command <;> exact yields_pure trivial

theorem conducts_writeReply (nStatus : Nat) (body : Bytes) :
    Conducts req (writeReply nStatus body) (fun _ => GaveBack) := by
  refine ⟨rfl, fun evb hevb => ?_⟩
  obtain rfl : evb = true := hevb
  exact ⟨rfl, fun _ _ => ⟨⟨rfl, rfl⟩, fun ev _ => ⟨rfl, fun _ _ => ⟨rfl, body, nStatus, ev, rfl⟩⟩⟩⟩

/-! ## Programs that run actors -/

/-- A program that calls nothing but actors. -/
def Quiet {α : Type} (p : Prog α) : Prop :=
  ∀ req, p.Follows (handling req) .wrapped (fun _ stage => stage = .wrapped)

theorem quiet_pure (a : α) : Quiet (pure a) := fun _ => rfl

theorem Quiet.bind {p : Prog α} {f : α → Prog β} (hp : Quiet p) (hf : ∀ a, Quiet (f a)) :
    Quiet (p >>= f) := by
  intro req
  refine (hp req).bind fun a stage hstage => ?_
  subst hstage
  exact hf a req

theorem quiet_callActor (pcmd : CRPCCommand) (request : JSONRPCRequest) :
    Quiet (callActor pcmd request).run := fun _ => ⟨trivial, fun _ _ => rfl⟩

theorem quiet_execute (t : CRPCTable) (g : Process) (request : JSONRPCRequest) :
    Quiet (t.execute g request).run := by
  have hcatch : ∀ (x : ExceptT Exception Prog UniValue) handle, Quiet x.run →
      (∀ e, Quiet (handle e : ExceptT Exception Prog UniValue).run) →
      Quiet (tryCatch x handle : ExceptT Exception Prog UniValue).run := by
    intro x handle hx hhandle
    refine Quiet.bind hx fun r => ?_
    cases r with
    | ok a => exact quiet_pure _
    | error e => exact hhandle e
  unfold CRPCTable.execute
  split
  · exact quiet_pure _
  · refine hcatch _ _ ?_ (fun e => by cases e <;> exact quiet_pure _)
    split
    · cases transformNamedArguments g.order request _ with
      | error e => exact quiet_pure _
      | ok named => exact quiet_callActor _ named
    · exact quiet_callActor _ request

theorem quiet_jsonrpcExecOne (g : Process) (jreq : JSONRPCRequest) (r : UniValue) :
    Quiet (jsonrpcExecOne g jreq r) := by
  rcases hp : jreq.parse r with ⟨parsed, jreq'⟩
  simp only [jsonrpcExecOne, hp]
  cases parsed with
  | error e => cases e <;> exact quiet_pure _
  | ok _ => exact (quiet_execute _ g jreq').bind fun result => by split <;> exact quiet_pure _

theorem quiet_execLoop (g : Process) (jreq : JSONRPCRequest) (ret : UniValue)
    (reqs : List UniValue) : Quiet (execLoop g jreq ret reqs) := by
  induction reqs generalizing ret with
  | nil => exact quiet_pure ret
  | cons r reqs ih => exact (quiet_jsonrpcExecOne g jreq r).bind fun reply => ih _

theorem quiet_jsonrpcExecBatch (g : Process) (jreq : JSONRPCRequest) (vReq : UniValue) :
    Quiet (jsonrpcExecBatch g jreq vReq).run := by
  refine Quiet.bind ((quiet_execLoop g jreq _ vReq.values).bind fun ret => quiet_pure _) fun r => ?_
  cases r with
  | error e => exact quiet_pure _
  | ok ret =>
    refine Quiet.bind (quiet_pure (ret.write 0 0)) fun s => ?_
    cases s <;> exact quiet_pure _

/-! ## The handler -/

/-- Something was thrown and the wrapper has the request, or a reply was given. -/
def Tried {ε α : Type} (req : Req) : Except ε α → HTTPRequest → Stage → Prop
  | .ok _, http, stage => GaveBack http stage
  | .error _, http, stage => Holds req http stage

def TryKeeps (req : Req) (m : TryM α) : Prop := ∀ jreq, Keeps req (m.run.run jreq)

def TryReplies (req : Req) (m : TryM α) : Prop :=
  ∀ jreq, Conducts req (m.run.run jreq) (fun r => Tried req r.1)

theorem TryKeeps.bind {m : TryM α} {f : α → TryM β} (hm : TryKeeps req m)
    (hf : ∀ a, TryKeeps req (f a)) : TryKeeps req (m >>= f) := by
  intro jreq
  rw [ExceptT.run_bind, StateT.run_bind]
  refine (hm jreq).bind ?_
  rintro ⟨r, jreq'⟩ _
  cases r with
  | ok a => exact hf a jreq'
  | error e => exact yields_pure trivial

theorem TryKeeps.replies {m : TryM α} {f : α → TryM β} (hm : TryKeeps req m)
    (hf : ∀ a, TryReplies req (f a)) : TryReplies req (m >>= f) := by
  intro jreq
  rw [ExceptT.run_bind, StateT.run_bind]
  refine (hm jreq).bind ?_
  rintro ⟨r, jreq'⟩ _
  cases r with
  | ok a => exact hf a jreq'
  | error e => exact ⟨rfl, rfl⟩

theorem tryReplies_throw (e : Exception) (f : α → TryM β) :
    TryReplies req ((throw e : TryM α) >>= f) := fun _ => ⟨rfl, rfl⟩

theorem tryKeeps_orThrow (r : Except Exception α) : TryKeeps req (orThrow r) :=
  fun _ => yields_pure trivial
theorem tryKeeps_get : TryKeeps req (get : TryM JSONRPCRequest) := fun _ => yields_pure trivial
theorem tryKeeps_set (jreq : JSONRPCRequest) : TryKeeps req (set jreq : TryM PUnit) :=
  fun _ => yields_pure trivial
theorem tryKeeps_modify (f : JSONRPCRequest → JSONRPCRequest) :
    TryKeeps req (modify f : TryM PUnit) := fun _ => yields_pure trivial

theorem run_liftHttp (m : HTTPM α) (jreq : JSONRPCRequest) :
    ((liftM m : TryM α).run.run jreq) = m >>= fun a => pure (.ok a, jreq) := by
  simp

theorem run_liftProg (p : Prog α) (jreq : JSONRPCRequest) (http : HTTPRequest) :
    (((liftM p : TryM α).run.run jreq).run http) = p >>= fun a => pure ((.ok a, jreq), http) := by
  simp

theorem Keeps.lift {m : HTTPM α} (hm : Keeps req m) : TryKeeps req (liftM m : TryM α) := by
  intro jreq
  rw [run_liftHttp]
  exact hm.bind fun a _ => yields_pure trivial

theorem Quiet.lift {p : Prog α} (hp : Quiet p) : TryKeeps req (liftM p : TryM α) := by
  intro jreq
  unfold Keeps Yields Conducts
  rw [run_liftProg]
  refine (hp req).bind fun a stage hstage => ?_
  exact ⟨trivial, rfl, hstage⟩

theorem tryKeeps_singleRequest (g : Process) (u : UniValue) : TryKeeps req (singleRequest g u) :=
  tryKeeps_get.bind fun _ => (tryKeeps_set _).bind fun _ => (tryKeeps_orThrow _).bind fun _ =>
    (quiet_execute _ g _).lift.bind fun result => (tryKeeps_orThrow result).bind fun _ =>
      tryKeeps_orThrow _

theorem tryKeeps_arrayOfRequests (g : Process) (u : UniValue) :
    TryKeeps req (arrayOfRequests g u) :=
  tryKeeps_get.bind fun jreq => (quiet_jsonrpcExecBatch g jreq u).lift.bind fun text =>
    tryKeeps_orThrow text

theorem tryReplies_writeReply (nStatus : Nat) (body : Bytes) :
    TryReplies req (liftM (writeReply nStatus body) : TryM Unit) := by
  intro jreq
  rw [run_liftHttp]
  unfold Conducts
  rw [StateT.run_bind]
  exact (conducts_writeReply nStatus body).bind fun _ _ h => h

theorem tryReplies_tryRequest (g : Process) : TryReplies req (tryRequest g) := by
  unfold tryRequest tryRequestWith
  refine keeps_readBody.lift.replies fun body => ?_
  rcases read body with ⟨accepted, valRequest⟩
  have hsend : ∀ strReply : Bytes, TryReplies req (do
      writeHeader (cstr "Content-Type") (cstr "application/json")
      writeReply httpOk strReply : TryM Unit) :=
    fun strReply => (keeps_writeHeader _ _).lift.replies fun _ => tryReplies_writeReply _ _
  cases accepted with
  | false => exact tryReplies_throw _ _
  | true =>
    refine keeps_getURI.lift.replies fun uri => (tryKeeps_modify _).replies fun _ => ?_
    simp only
    split
    · exact (tryKeeps_singleRequest g valRequest).replies hsend
    · split
      · exact (tryKeeps_arrayOfRequests g valRequest).replies hsend
      · exact tryReplies_throw _ _

/-- What the handler does outside its `try` block. -/
def HandlerReplies (req : Req) (m : HandlerM α) : Prop := Conducts req m.run (Tried req)

theorem Keeps.replies {m : HandlerM α} {f : α → HandlerM β} (hm : Keeps req m.run)
    (hf : ∀ a, HandlerReplies req (f a)) : HandlerReplies req (m >>= f) := by
  unfold HandlerReplies
  rw [ExceptT.run_bind]
  refine hm.bind fun r _ => ?_
  cases r with
  | ok a => exact hf a
  | error e => exact ⟨rfl, rfl⟩

theorem Keeps.liftReplies {m : HTTPM α} {f : α → HandlerM β} (hm : Keeps req m)
    (hf : ∀ a, HandlerReplies req (f a)) : HandlerReplies req (liftM m >>= f) := by
  refine Keeps.replies ?_ hf
  have hrun : (liftM m : HandlerM α).run = m >>= fun a => pure (.ok a) := by simp
  rw [hrun]
  exact hm.bind fun a _ => yields_pure trivial

theorem replies_writeReply (nStatus : Nat) (body : Bytes) (a : α) :
    HandlerReplies req (do writeReply nStatus body; return a) := by
  have hrun : (do writeReply nStatus body; return a : HandlerM α).run =
      writeReply nStatus body >>= fun _ => pure (.ok a) := by simp [Except.map]
  unfold HandlerReplies Conducts
  rw [hrun, StateT.run_bind]
  exact (conducts_writeReply nStatus body).bind fun _ _ h => h

theorem replies_jsonErrorReply (objError id : UniValue) (a : α) :
    HandlerReplies req (do jsonErrorReply objError id; return a) := by
  unfold jsonErrorReply
  simp only [bind_assoc]
  refine Keeps.replies (yields_pure trivial) fun code => ?_
  refine Keeps.replies (yields_pure trivial) fun strReply => ?_
  exact (keeps_writeHeader _ _).liftReplies fun _ => replies_writeReply _ _ a

/-- After a `try` block that has replied the handler only returns; else it still has to reply. -/
theorem replies_afterTry {m : TryM Unit} {f : Except Exception Unit × JSONRPCRequest → HandlerM α}
    {jreq : JSONRPCRequest} (hm : TryReplies req m) {a : α}
    (hok : ∀ jreq, f (.ok (), jreq) = return a)
    (herror : ∀ e jreq, HandlerReplies req (f (.error e, jreq))) :
    HandlerReplies req (liftM (m.run.run jreq) >>= f) := by
  have hrun : (liftM (m.run.run jreq) >>= f : HandlerM α).run =
      m.run.run jreq >>= fun r => (f r).run := by
    simp [ExceptT.run_bind]
  unfold HandlerReplies Conducts
  rw [hrun, StateT.run_bind]
  refine (hm jreq).bind ?_
  rintro ⟨⟨caught, jreq'⟩, http⟩ stage h
  cases caught with
  | ok _ =>
    simp only [hok]
    exact h
  | error e =>
    obtain ⟨hhttp, hstage⟩ := h
    simp only at hhttp
    subst hhttp hstage
    exact herror e jreq'

theorem replies_handler (g : Process) : HandlerReplies req (httpReqJsonrpc g) := by
  unfold httpReqJsonrpc httpReqJsonrpcWith
  refine keeps_getRequestMethod.liftReplies fun method => ?_
  split
  · exact replies_writeReply _ _ false
  refine (keeps_getHeader _).liftReplies fun authHeader => ?_
  split
  · exact (keeps_writeHeader _ _).liftReplies fun _ => replies_writeReply _ _ false
  refine replies_afterTry (tryReplies_tryRequest g) (a := true) (fun _ => rfl) fun e jreq => ?_
  cases e with
  | univalue objError => exact replies_jsonErrorReply objError jreq.id false
  | std what => exact replies_jsonErrorReply _ jreq.id false

theorem follows_serveRequest (g : Process) (req : Req) :
    (serveRequest g req).Follows (handling req) .wrapped (fun _ => Ended (.request req)) := by
  unfold serveRequest
  refine Program.Follows.bind (replies_handler g) ?_
  rintro ⟨r, http⟩ stage hr
  have hheld : Holds req http stage → (destroy.run http).Follows (handling req) stage
      (fun r => GaveBack r.2) := by
    rintro ⟨rfl, rfl⟩
    exact conducts_writeReply 500 (cstr "Unhandled request")
  have hgone : GaveBack http stage → (destroy.run http).Follows (handling req) stage
      (fun r => GaveBack r.2) := by
    rintro ⟨rfl, hstage⟩
    exact ⟨rfl, hstage⟩
  have hdestroy : (destroy.run http).Follows (handling req) stage (fun r => GaveBack r.2) := by
    cases r with
    | ok _ => exact hgone hr
    | error _ => exact hheld hr
  exact hdestroy.bind fun _ _ h => h.2

end

end JsonRpcServer

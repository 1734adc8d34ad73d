import JsonRpcServer.Layers
import JsonRpcServer.Responses

/-!
# The wrapper for any handler

`HTTPRequest` as a layer: what a handler may do with a request, whatever handler
it is, and what its requests get for it. One reply is sent, the handler's or the
one `~HTTPRequest` makes up, and the wrapper is of no use after the reply.
-/
namespace JsonRpcServer

open Programs HTTPRequest

/-- The methods of the wrapper, and the commands a handler may run besides. -/
inductive Use where
  | getURI
  | getRequestMethod
  | getHeader (hdr : Bytes)
  | readBody
  | writeHeader (hdr value : Bytes)
  | writeReply (nStatus : Nat) (strReply : Bytes)
  | actor (pcmd : CRPCCommand) (request : JSONRPCRequest)

@[reducible] def Use.Reply : Use → Type
  | .getURI | .readBody => Bytes
  | .getRequestMethod => RequestMethod
  | .getHeader _ => Bool × Bytes
  | .writeHeader _ _ | .writeReply _ _ => Unit
  | .actor _ _ => Except Exception UniValue

abbrev handlerUses : Interface := ⟨Use, Use.Reply⟩

def wrapper : Layer handlerUses surroundings HTTPRequest
  | .getURI => HTTPRequest.getURI
  | .getRequestMethod => HTTPRequest.getRequestMethod
  | .getHeader hdr => HTTPRequest.getHeader hdr
  | .readBody => HTTPRequest.readBody
  | .writeHeader hdr value => HTTPRequest.writeHeader hdr value
  | .writeReply nStatus strReply => HTTPRequest.writeReply nStatus strReply
  | .actor pcmd request => ask (.actor pcmd request)

/-- A request is wrapped, handled, and the wrapper destroyed, also when an exception has left the
handler: what the handler returns is of no account. -/
def wrapped {α : Type} (handler : Program handlerUses α) (req : Req) : Prog Unit := do
  let (_, http) ← (handler.over wrapper).run (.new req)
  let _ ← destroy.run http

/-! ## What a request is to a handler -/

/-- The body as far as it is not read, and what the handler has set, replied and run. -/
structure Exchange where
  unread : Bytes
  headers : List (Bytes × Bytes)
  reply : Option (Nat × Bytes)
  calls : ActorCalls

def requestMethodOf : EvhttpCommand → RequestMethod
  | .get => .get
  | .post => .post
  | .head => .head
  | .put => .put
  | .other => .unknown

/-- After the reply only commands can be run. -/
def exchange (r : EvhttpRequest) : Handler handlerUses Exchange
  | .actor pcmd request, x =>
    some (pcmd.actor request, { x with calls := x.calls ++ [(pcmd, request)] })
  | use, x =>
    if x.reply.isSome then none
    else
      match use with
      | .getURI => some (r.uri, x)
      | .getRequestMethod => some (requestMethodOf r.command, x)
      | .getHeader hdr =>
        let val := World.lookupHeader r.inputHeaders (asCString hdr)
        some ((val.isSome, val.getD []), x)
      | .readBody => some (x.unread, { x with unread := [] })
      | .writeHeader hdr value =>
        let headers := World.addHeader x.headers (asCString hdr) (asCString value)
        some ((), { x with headers })
      | .writeReply nStatus strReply => some ((), { x with reply := some (nStatus, strReply) })
      | .actor _ _ => none

/-- Before anything is done. -/
def Exchange.new (r : EvhttpRequest) : Exchange := ⟨r.inputBuffer, r.outputHeaders, none, []⟩

/-- The reply that is sent in the end. -/
def Exchange.response (x : Exchange) : Response :=
  let (nStatus, body) := x.reply.getD (500, cstr "Unhandled request")
  ⟨⟨nStatus, x.headers, body⟩, x.calls⟩

namespace World

/-- What becomes of the world in an exchange. -/
def exchanged (w : World) (req : Req) (x : Exchange) : World :=
  let w' := (w.updateRequest req (fun r =>
    { r with inputBuffer := x.unread, outputHeaders := x.headers })).ran x.calls
  match x.reply with
  | none => w'
  | some (nStatus, body) => w'.queued req nStatus body

end World

/-- The exchange, the wrapper and the world belong together. -/
def Exchanging (w : World) (req : Req) (x : Exchange) (http : HTTPRequest) (w' : World) : Prop :=
  http = (if x.reply.isSome then ⟨none, true⟩ else ⟨some req, false⟩) ∧ w' = w.exchanged req x

section
variable {w : World} {req : Req}

theorem exchanging_new (w : World) (req : Req) :
    Exchanging w req (.new (w.request req)) (.new req) w := by
  refine ⟨rfl, ?_⟩
  simp [World.exchanged, Exchange.new, World.updateRequest]

theorem run_getRequestMethod_eq (req : Req) (w : World) :
    (HTTPRequest.getRequestMethod.run ⟨some req, false⟩).run serve w =
      some ((requestMethodOf (w.request req).command, ⟨some req, false⟩), w) := by
  simp only [HTTPRequest.getRequestMethod, StateT.run_bind, StateT.run_monadLift, monadLift_self,
    bind_pure_comp, bind_map_left, Program.run_bind, run_deref, Option.bind_some]
  simp only [ask, Program.perform, Program.run_call, World.answer, Program.run_done, Prod.mk.eta,
    Option.bind_fun_some, Option.bind_some]
  cases (w.request req).command <;> rfl

/-! ## The contract -/

theorem exchanged_request (w : World) (req : Req) {x : Exchange} (h : x.reply = none) :
    (w.exchanged req x).request req =
      { w.request req with inputBuffer := x.unread, outputHeaders := x.headers } := by
  simp [World.exchanged, h, World.ran, World.updateRequest]

theorem exchanged_drained {x : Exchange} (h : x.reply = none) :
    (w.exchanged req x).drained req = w.exchanged req { x with unread := [] } := by
  simp [World.exchanged, h, World.drained, World.ran, World.updateRequest]

theorem exchanged_headed {x : Exchange} (h : x.reply = none) (hdr value : Bytes) :
    (w.exchanged req x).headed req hdr value =
      w.exchanged req
        { x with headers := World.addHeader x.headers (asCString hdr) (asCString value) } := by
  simp [World.exchanged, h, World.headed, World.ran, World.updateRequest]

theorem exchanged_actor (x : Exchange) (call : CRPCCommand × JSONRPCRequest) :
    (w.exchanged req x).ran [call] = w.exchanged req { x with calls := x.calls ++ [call] } := by
  cases hr : x.reply <;>
    simp [World.exchanged, hr, World.ran, World.queued, World.updateRequest]

/-- Once the reply is given, the methods of the wrapper do not return. -/
theorem run_after_reply {c : Use} (hc : ∀ pcmd request, c ≠ .actor pcmd request) (w : World) :
    ((wrapper c).run ⟨none, true⟩).run serve w = none := by
  cases c with
  | actor pcmd request => exact absurd rfl (hc pcmd request)
  | _ => rfl

theorem exchange_refuses {r : EvhttpRequest} {c : Use} {x : Exchange}
    (h : exchange r c x = none) : x.reply.isSome ∧ ∀ pcmd request, c ≠ .actor pcmd request := by
  cases hr : x.reply with
  | none => cases c <;> simp [exchange, hr] at h
  | some reply => cases c <;> simp [exchange] at h ⊢

theorem wrapper_implements (w : World) (req : Req) :
    wrapper.Implements (exchange (w.request req)) serve (Exchanging w req) where
  refuses := by
    rintro c x http w' ⟨rfl, rfl⟩ hc
    obtain ⟨hr, hne⟩ := exchange_refuses hc
    rw [if_pos hr]
    exact run_after_reply hne _
  answers := by
    rintro c x http w' r x' ⟨rfl, rfl⟩ hc
    by_cases hactor : ∃ pcmd request, c = .actor pcmd request
    · obtain ⟨pcmd, request, rfl⟩ := hactor
      obtain ⟨rfl, rfl⟩ := Prod.mk.inj (Option.some.inj hc)
      exact ⟨_, _, rfl, rfl, exchanged_actor x (pcmd, request)⟩
    cases hr : x.reply with
    | some reply => cases c <;> simp_all [exchange]
    | none =>
      have hrequest := exchanged_request w req hr
      have hopen : (if (none : Option (Nat × Bytes)).isSome then ⟨none, true⟩
          else ⟨some req, false⟩ : HTTPRequest) = ⟨some req, false⟩ := rfl
      rw [hopen]
      cases c with
      | actor pcmd request => exact absurd ⟨pcmd, request, rfl⟩ hactor
      | getURI =>
        obtain ⟨rfl, rfl⟩ : (w.request req).uri = r ∧ x = x' := by simpa [exchange, hr] using hc
        refine ⟨⟨some req, false⟩, w.exchanged req x, ?_, by simp [hr], rfl⟩
        rw [wrapper, run_getURI, hrequest]
      | getRequestMethod =>
        obtain ⟨rfl, rfl⟩ : requestMethodOf (w.request req).command = r ∧ x = x' := by
          simpa [exchange, hr] using hc
        refine ⟨⟨some req, false⟩, w.exchanged req x, ?_, by simp [hr], rfl⟩
        rw [wrapper, run_getRequestMethod_eq, hrequest]
      | getHeader hdr =>
        let val := World.lookupHeader (w.request req).inputHeaders (asCString hdr)
        obtain ⟨rfl, rfl⟩ : (val.isSome, val.getD []) = r ∧ x = x' := by
          simpa [exchange, hr] using hc
        refine ⟨⟨some req, false⟩, w.exchanged req x, ?_, by simp [hr], rfl⟩
        rw [wrapper, run_getHeader, hrequest]
      | readBody =>
        obtain ⟨rfl, rfl⟩ : x.unread = r ∧ { x with unread := [] } = x' := by
          simpa [exchange, hr] using hc
        refine ⟨⟨some req, false⟩, (w.exchanged req x).drained req, ?_, by simp [hr],
          exchanged_drained hr⟩
        rw [wrapper, run_readBody, hrequest]
      | writeHeader hdr value =>
        obtain rfl : { x with
            headers := World.addHeader x.headers (asCString hdr) (asCString value) } = x' := by
          simpa [exchange, hr] using hc
        exact ⟨⟨some req, false⟩, _, run_writeHeader req false _ hdr value, by simp [hr],
          exchanged_headed hr hdr value⟩
      | writeReply nStatus strReply =>
        obtain rfl : { x with reply := some (nStatus, strReply) } = x' := by
          simpa [exchange, hr] using hc
        refine ⟨⟨none, true⟩, _, run_writeReply req _ nStatus strReply, by simp, ?_⟩
        simp [World.exchanged, hr]

/-! ## The reply -/

/-- The loop calls the event back, and the callback runs to its end. -/
def TurnOf (id : EventId) (w w₂ : World) : Prop :=
  ∃ prog w₁, CallsBack w (.callback id) prog w₁ ∧ prog.run serve w₁ = some ((), w₂)

/-- The request has been sent one reply more, by one event more, which is called back and freed once
and for all. -/
structure RepliedWith (w w₂ : World) (req : Req) (res : Response) : Prop where
  sent : (w₂.request req).sent = (w.request req).sent ++
    [⟨res.reply.nStatus, res.reply.headers, (w.request req).outputBuffer ++ res.reply.body⟩]
  body : (w₂.request req).outputBuffer = []
  events : w₂.events = w.events ++ [⟨⟨true, req, res.reply.nStatus⟩, false, 1, 1⟩]
  others : ∀ other, other ≠ req → w₂.request other = w.request other
  actorRuns : w₂.actorRuns = w.actorRuns ++ res.calls

/-- What a handler leaves, the loop turns into the reply, and can do nothing else with it. -/
theorem HandledWith.turn {w' : World} {res : Response} (h : HandledWith w w' req res) :
    ∃ w₂, (∀ w₃, TurnOf w.events.length w' w₃ ↔ w₃ = w₂) ∧ RepliedWith w w₂ req res := by
  let ev : HTTPEvent := ⟨true, req, res.reply.nStatus⟩
  have hev : w'.events[w.events.length]? = some ⟨ev, true, 0, 0⟩ := by simp [h.events, ev]
  let w₁ := w'.updateEvent w.events.length
    (fun e => { e with active := false, calledBack := e.calledBack + 1 })
  have hrun := run_callback w₁ w.events.length ev rfl
  refine ⟨w₁.calledBack w.events.length ev, fun w₃ => ⟨?_, ?_⟩, ?_⟩
  · rintro ⟨prog, w₂, hstart, hprog⟩
    cases hstart with
    | intro he ha =>
      obtain rfl := Option.some.inj (he.symm.trans hev)
      exact (Prod.mk.inj (Option.some.inj (hprog.symm.trans hrun))).2
  · rintro rfl
    exact ⟨_, _, .intro hev rfl, hrun⟩
  · constructor <;> simp +contextual [World.calledBack, World.updateRequest, World.updateEvent,
      w₁, ev, h.sent, h.headers, h.body, h.events, h.others, h.actorRuns,
      List.modify_eq_take_cons_drop]

theorem run_wrapped {α : Type} {handler : Program handlerUses α} {a : α} {x : Exchange}
    (h : handler.run (exchange (w.request req)) (.new (w.request req)) = some (a, x)) :
    ∃ w', (wrapped handler req).run serve w = some ((), w') ∧ HandledWith w w' req x.response := by
  obtain ⟨http, w₁, hrun, rfl, rfl⟩ :=
    ((wrapper_implements w req).run handler (exchanging_new w req)).1 a x h
  simp only [wrapped, Program.run_bind, hrun, Option.bind_some]
  cases hr : x.reply with
  | some reply =>
    refine ⟨_, rfl, ?_⟩
    constructor <;> simp +contextual [World.exchanged, Exchange.response, hr, World.queued,
      World.ran, World.updateRequest]
  | none =>
    have hdestroy := run_writeReply req (w.exchanged req x) 500 (cstr "Unhandled request")
    refine ⟨(w.exchanged req x).queued req 500 (cstr "Unhandled request"), ?_, ?_⟩
    · simp [destroy, hdestroy]
    · constructor <;> simp +contextual [World.exchanged, Exchange.response, hr, World.queued,
        World.ran, World.updateRequest]

/-- Whatever a handler does, it dies of using the wrapper after its reply, or else the loop sends
its request one reply: the handler's with the headers it has written, or a 500 if it has made
none. -/
theorem any_handler_replies_once {α : Type} (handler : Program handlerUses α) (w : World)
    (req : Req) :
    (handler.run (exchange (w.request req)) (.new (w.request req)) = none ∧
        (wrapped handler req).run serve w = none) ∨
      ∃ a x w' w₂, handler.run (exchange (w.request req)) (.new (w.request req)) = some (a, x) ∧
        (wrapped handler req).run serve w = some ((), w') ∧ HandledWith w w' req x.response ∧
        (∀ w₃, TurnOf w.events.length w' w₃ ↔ w₃ = w₂) ∧
        RepliedWith w w₂ req x.response := by
  cases h : handler.run (exchange (w.request req)) (.new (w.request req)) with
  | none =>
    have hnone := ((wrapper_implements w req).run handler (exchanging_new w req)).2 h
    exact .inl ⟨rfl, by simp [wrapped, hnone]⟩
  | some result =>
    obtain ⟨w', hrun, hhandled⟩ := run_wrapped h
    obtain ⟨w₂, hturn, hreplied⟩ := hhandled.turn
    exact .inr ⟨result.1, result.2, w', w₂, rfl, hrun, hhandled, hturn, hreplied⟩

end

end JsonRpcServer

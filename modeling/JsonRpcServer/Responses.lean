import JsonRpcServer.EventLoop
import JsonRpcServer.Serving

/-!
# The response to a request

What a request comes to when its handler runs undisturbed, as a function of the
request alone: the reply that is sent, and the actors that are run on the way.
-/
namespace JsonRpcServer

open Programs UniValue HTTPRequest

/-- The calls of actors, with the requests they are given. -/
abbrev ActorCalls := List (CRPCCommand × JSONRPCRequest)

structure Response where
  reply : Reply
  calls : ActorCalls

/-- What the `try` block and the two `catch` clauses make of a body. -/
def bodyVerdict (g : Process) (jreq : JSONRPCRequest) (body : Bytes) :
    Except Exception (Bool × Nat × Bytes) × ActorCalls :=
  let (accepted, u) := read body
  if accepted && u.isObject then
    let a := answerTo g jreq u
    (verdict a.text a.id, a.calls)
  else if accepted && u.isArray then
    let answers := u.values.map (answerTo g jreq)
    (verdict (batchText answers) null, answers.flatMap Answer.calls)
  else
    (verdict (.error (.univalue (jsonrpcError rpcParseError (parseErrorMessage accepted)))) null,
      [])

/-- What is sent for a POST with an `Authorization` header. -/
def jsonRpcResponse (g : Process) (r : EvhttpRequest) : Response :=
  let (outcome, calls) := bodyVerdict g { JSONRPCRequest.new with uri := r.uri } r.inputBuffer
  match outcome with
  | .ok (_, nStatus, s) =>
    ⟨⟨nStatus, r.outputHeaders ++ [(cstr "Content-Type", cstr "application/json")], s⟩, calls⟩
  -- the handler is left by an exception, and `~HTTPRequest` replies
  | .error _ => ⟨⟨500, r.outputHeaders, cstr "Unhandled request"⟩, calls⟩

def respond (g : Process) (r : EvhttpRequest) : Response :=
  if r.command ≠ .post then
    ⟨⟨httpBadMethod, r.outputHeaders, cstr "JSONRPC server handles only POST requests"⟩, []⟩
  else if World.lookupHeader r.inputHeaders (cstr "authorization") = none then
    ⟨⟨httpUnauthorized, r.outputHeaders ++ [(cstr "WWW-Authenticate", wwwAuthHeaderData)], []⟩, []⟩
  else jsonRpcResponse g r

/-! ## The handler alone -/

/-- The handling of a request has put its reply in the buffer, queued the one event that will send
it, made its calls and touched no other request. -/
structure HandledWith (w w' : World) (req : Req) (res : Response) : Prop where
  headers : (w'.request req).outputHeaders = res.reply.headers
  body : (w'.request req).outputBuffer = (w.request req).outputBuffer ++ res.reply.body
  sent : (w'.request req).sent = (w.request req).sent
  events : w'.events = w.events ++ [⟨⟨true, req, res.reply.nStatus⟩, true, 0, 0⟩]
  others : ∀ other, other ≠ req → w'.request other = w.request other
  actorRuns : w'.actorRuns = w.actorRuns ++ res.calls

section
variable {g : Process} {w : World} {req : Req}

theorem served_post (ha : Authorized (w.request req)) :
    served g w req =
      let jreq := { JSONRPCRequest.new with uri := (w.request req).uri }
      let (outcome, calls) := bodyVerdict g jreq (w.request req).inputBuffer
      some (((w.drained req).ran calls).finish req outcome) := by
  rcases hr : read (w.request req).inputBuffer with ⟨accepted, u⟩
  simp only [bodyVerdict, hr]
  by_cases ho : accepted && u.isObject
  · obtain ⟨rfl, hu⟩ := Bool.and_eq_true_iff.mp ho
    rw [if_pos ho]
    exact served_object ha hr hu
  rw [if_neg ho]
  by_cases harr : accepted && u.isArray
  · obtain ⟨rfl, hu⟩ := Bool.and_eq_true_iff.mp harr
    rw [if_pos harr]
    exact served_array ha hr hu
  rw [if_neg harr, World.ran_nil]
  exact served_other ha hr (by rintro rfl; simpa using And.intro ho harr)

theorem run_destroy_sent (w : World) :
    (destroy.run ⟨none, true⟩).run serve w = some (((), ⟨none, true⟩), w) := rfl

theorem run_destroy_kept (w : World) :
    (destroy.run ⟨some req, false⟩).run serve w =
      some (((), ⟨none, true⟩), w.queued req 500 (cstr "Unhandled request")) :=
  run_writeReply req w 500 (cstr "Unhandled request")

theorem run_serveRequest {r : Except Exception Bool} {http : HTTPRequest} {w₁ w₂ : World}
    (hserved : served g w req = some ((r, http), w₁))
    (hdestroy : (destroy.run http).run serve w₁ = some (((), ⟨none, true⟩), w₂)) :
    (serveRequest g req).run serve w = some ((), w₂) := by
  have hhandler : ((httpReqJsonrpc g).run.run (.new req)).run serve w = some ((r, http), w₁) :=
    hserved
  simp only [serveRequest, Program.run_bind, hhandler, Option.bind_some, hdestroy]
  rfl

/-- The life of a wrapper, when nobody interferes. -/
theorem serveRequest_responds (g : Process) (w : World) (req : Req) :
    ∃ w', (serveRequest g req).run serve w = some ((), w') ∧
      HandledWith w w' req (respond g (w.request req)) := by
  unfold respond
  by_cases hpost : (w.request req).command = .post
  swap
  · rw [if_pos hpost]
    refine ⟨_, run_serveRequest (servedBy_badMethod (tryRequest g) hpost) (run_destroy_sent _), ?_⟩
    constructor <;> simp +contextual [World.queued, World.updateRequest]
  rw [if_neg (not_not_intro hpost)]
  by_cases hauth : World.lookupHeader (w.request req).inputHeaders (cstr "authorization") = none
  · rw [if_pos hauth]
    refine ⟨_, run_serveRequest (servedBy_unauthorized (tryRequest g) hpost hauth)
      (run_destroy_sent _), ?_⟩
    constructor <;> simp +contextual [World.queued, World.headed, World.updateRequest]
  rw [if_neg hauth]
  have hserved := served_post (g := g) ⟨hpost, Option.isSome_iff_ne_none.mpr hauth⟩
  unfold jsonRpcResponse
  rcases hverdict : bodyVerdict g { JSONRPCRequest.new with uri := (w.request req).uri }
    (w.request req).inputBuffer with ⟨outcome, calls⟩
  simp only [hverdict] at hserved
  cases outcome with
  | ok reply =>
    obtain ⟨ret, nStatus, s⟩ := reply
    refine ⟨_, run_serveRequest hserved (run_destroy_sent _), ?_⟩
    constructor <;> simp +contextual [World.replied, World.queued, World.headed, World.ran,
      World.drained, World.updateRequest]
  | error e =>
    refine ⟨_, run_serveRequest hserved (run_destroy_kept _), ?_⟩
    constructor <;> simp +contextual [World.queued, World.ran, World.drained, World.updateRequest]

end

/-! ## The callback of its event -/

/-- The world after the callback of an event. -/
def World.calledBack (w : World) (id : EventId) (ev : HTTPEvent) : World :=
  (w.updateRequest ev.reqCopy (fun r =>
    { r with
      sent := r.sent ++ [⟨ev.nStatus, r.outputHeaders, r.outputBuffer⟩]
      outputBuffer := [] })).updateEvent id (fun e => { e with freed := e.freed + 1 })

theorem run_callback (w : World) (id : EventId) (ev : HTTPEvent) (hd : ev.deleteWhenTriggered) :
    (httpeventCallbackFn id ev).run serve w = some ((), w.calledBack id ev) := by
  have hhandler : (HTTPEvent.handler ev).run serve w =
      some ((), w.updateRequest ev.reqCopy (fun r =>
        { r with
          sent := r.sent ++ [⟨ev.nStatus, r.outputHeaders, r.outputBuffer⟩]
          outputBuffer := [] })) := by
    unfold HTTPEvent.handler
    simp only [Program.run_bind, ask, Program.perform, Program.run_call, World.answer,
      Program.run_done, Option.bind_some]
    split <;> rfl
  simp only [httpeventCallbackFn, Program.run_bind, hhandler, Option.bind_some, hd, if_true]
  rfl

end JsonRpcServer

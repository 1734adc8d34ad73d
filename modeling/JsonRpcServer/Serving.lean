import JsonRpcServer.HttpRpc
import JsonRpcServer.NamedArguments

/-!
# Running the handler

What each function does to the world when nobody interferes and every actor is
the function its command holds.
-/
namespace JsonRpcServer

open Programs UniValue HTTPRequest

/-- The actors are the functions of the commands. -/
abbrev serve : Handler surroundings World := World.answer CRPCCommand.actor

namespace World

def drained (w : World) (req : Req) : World :=
  w.updateRequest req (fun r => { r with inputBuffer := [] })

def headed (w : World) (req : Req) (hdr value : Bytes) : World :=
  w.updateRequest req (fun r =>
    { r with outputHeaders := addHeader r.outputHeaders (asCString hdr) (asCString value) })

/-- The body is in the buffer and the event that sends it is active. -/
def queued (w : World) (req : Req) (nStatus : Nat) (body : Bytes) : World :=
  { w.updateRequest req (fun r => { r with outputBuffer := r.outputBuffer ++ body }) with
    events := w.events ++ [⟨⟨true, req, nStatus⟩, true, 0, 0⟩] }

def ran (w : World) (calls : List (CRPCCommand × JSONRPCRequest)) : World :=
  { w with actorRuns := w.actorRuns ++ calls }

@[simp] theorem ran_nil (w : World) : w.ran [] = w := by simp [ran]

/-- The two headers the handler writes are accepted. -/
@[simp] theorem addHeader_contentType (headers : List (Bytes × Bytes)) :
    addHeader headers (asCString (cstr "Content-Type")) (asCString (cstr "application/json")) =
      headers ++ [(cstr "Content-Type", cstr "application/json")] := rfl

@[simp] theorem addHeader_wwwAuthenticate (headers : List (Bytes × Bytes)) :
    addHeader headers (asCString (cstr "WWW-Authenticate")) (asCString wwwAuthHeaderData) =
      headers ++ [(cstr "WWW-Authenticate", wwwAuthHeaderData)] := rfl

@[simp] theorem asCString_authorization :
    asCString (cstr "authorization") = cstr "authorization" := rfl

end World

section
variable (req : Req) (b : Bool) (w : World)

@[simp] theorem run_deref :
    (deref.run ⟨some req, b⟩).run serve w = some ((req, ⟨some req, b⟩), w) := rfl

theorem run_getHeader (hdr : Bytes) :
    ((getHeader hdr).run ⟨some req, b⟩).run serve w =
      some ((((World.lookupHeader (w.request req).inputHeaders (asCString hdr)).isSome,
        (World.lookupHeader (w.request req).inputHeaders (asCString hdr)).getD []),
          ⟨some req, b⟩), w) := by
  simp only [getHeader, HTTPRequest.assert, StateT.run_bind, StateT.run_monadLift, monadLift_self,
    bind_pure_comp, bind_map_left, Program.run_bind, run_deref, Option.bind_some]
  simp only [ask, Program.perform, Program.run_call, World.answer, Program.run_done, Prod.mk.eta,
    Option.bind_fun_some, Option.bind_some, ↓reduceIte, StateT.run_pure, Program.run_pure]
  cases World.lookupHeader (w.request req).inputHeaders (asCString hdr) <;> rfl

theorem run_readBody :
    (readBody.run ⟨some req, b⟩).run serve w =
      some (((w.request req).inputBuffer, ⟨some req, b⟩), w.drained req) := by
  have hnil : (w.request req).inputBuffer = [] → w.drained req = w := by
    intro h
    have hr : { w.request req with inputBuffer := [] } = w.request req := by rw [← h]
    simp [World.drained, World.updateRequest, hr]
  simp only [readBody, Bool.not_eq_eq_eq_not, Bool.not_true, bind_pure_comp, StateT.run_bind,
    StateT.run_monadLift, monadLift_self, bind_map_left, Program.run_bind, run_deref,
    Option.bind_some]
  simp only [ask, Program.perform, Program.run_call, World.answer, Program.run_done, Prod.mk.eta,
    Option.bind_fun_some, Option.bind_some, Bool.true_eq_false, ↓reduceIte, StateT.run_bind,
    StateT.run_monadLift, monadLift_self, bind_pure_comp, bind_map_left, Program.run_bind,
    List.length_eq_zero_iff, lt_self_iff_false, or_false, List.take_length]
  by_cases h : (w.request req).inputBuffer = []
  · simp [h, hnil h]
  · simp only [h, ↓reduceIte, StateT.run_map, StateT.run_monadLift, monadLift_self,
      bind_pure_comp, Functor.map_map, Program.run_map, Program.run_call, Program.run_done,
      Prod.mk.eta, Option.bind_fun_some, World.drained, Option.map_eq_some_iff, Prod.mk.injEq,
      true_and, Prod.exists, exists_eq_right]
    exact ⟨(), by simp [World.answer, World.updateRequest]⟩

theorem run_writeHeader (hdr value : Bytes) :
    ((writeHeader hdr value).run ⟨some req, b⟩).run serve w =
      some (((), ⟨some req, b⟩), w.headed req hdr value) := rfl

theorem run_writeReply (nStatus : Nat) (body : Bytes) :
    ((writeReply nStatus body).run ⟨some req, false⟩).run serve w =
      some (((), ⟨none, true⟩), w.queued req nStatus body) := by
  simp only [writeReply, HTTPRequest.assert, Bool.and_eq_true, Bool.not_eq_eq_eq_not, Bool.not_true,
    StateT.run_bind, StateT.run_get, StateT.run_monadLift, monadLift_self, bind_pure_comp,
    StateT.run_set, Functor.map_map, bind_map_left, pure_bind, Option.isSome_some, and_self,
    ↓reduceIte, StateT.run_pure, Program.run_bind, run_deref, Program.run_map, Option.bind_some]
  simp [ask, Program.perform, World.answer, World.queued, World.updateRequest, World.updateEvent,
    List.modify_eq_take_cons_drop]

theorem run_getURI :
    (getURI.run ⟨some req, b⟩).run serve w = some (((w.request req).uri, ⟨some req, b⟩), w) := rfl

/-- The handler asks only whether it is a POST. -/
theorem run_getRequestMethod :
    ∃ method, (method = .post ↔ (w.request req).command = .post) ∧
      (getRequestMethod.run ⟨some req, b⟩).run serve w = some ((method, ⟨some req, b⟩), w) := by
  simp only [getRequestMethod, StateT.run_bind, StateT.run_monadLift, monadLift_self,
    bind_pure_comp, bind_map_left, Program.run_bind, run_deref, Option.bind_some]
  simp only [ask, Program.perform, Program.run_call, World.answer, Program.run_done, Prod.mk.eta,
    Option.bind_fun_some, Option.bind_some]
  cases (w.request req).command <;> exact ⟨_, by decide, rfl⟩

end

/-! ## Executing a request -/

/-- The call `execute` makes through a table: the command and the request its actor is given. -/
def CRPCTable.callOf (t : CRPCTable) (order : HashOrder) (request : JSONRPCRequest) :
    Except Exception (CRPCCommand × JSONRPCRequest) :=
  match t.find request.strMethod with
  | none => rpcThrow rpcMethodNotFound "Method not found"
  | some pcmd =>
    if request.params.isObject then
      (transformNamedArguments order request pcmd.argNames).map (pcmd, ·)
    else .ok (pcmd, request)

/-- What an exception is when it leaves `execute`. -/
def Exception.translated : Exception → UniValue
  | .std what => jsonrpcError rpcMiscError what
  | .univalue v => v

/-- An element of a batch, or a singleton request, as the handler goes through it: what comes out,
the id the request has by then, and the calls made. -/
structure Answer where
  result : Except Exception UniValue
  id : UniValue
  calls : List (CRPCCommand × JSONRPCRequest)

def executed (g : Process) (request : JSONRPCRequest) : Answer :=
  match g.tableRPC.callOf g.order request with
  | .error e => ⟨.error e, request.id, []⟩
  | .ok (pcmd, named) =>
    ⟨(pcmd.actor named).mapError (fun e => .univalue e.translated), request.id, [(pcmd, named)]⟩

theorem executed_id (g : Process) (request : JSONRPCRequest) :
    (executed g request).id = request.id := by
  unfold executed
  split <;> rfl

def answerTo (g : Process) (jreq : JSONRPCRequest) (req : UniValue) : Answer :=
  match jreq.parse req with
  | (.error e, jreq) => ⟨.error e, jreq.id, []⟩
  | (.ok (), jreq) => executed g jreq

theorem run_callActor (pcmd : CRPCCommand) (request : JSONRPCRequest) (w : World) :
    Program.run serve (callActor pcmd request) w =
      some (pcmd.actor request, w.ran [(pcmd, request)]) := rfl

theorem run_execute (t : CRPCTable) (g : Process) (request : JSONRPCRequest) (w : World) :
    (t.execute g request).run.run serve w =
      some ((executed g request).result, w.ran (executed g request).calls) := by
  unfold CRPCTable.execute executed CRPCTable.callOf
  cases g.tableRPC.find request.strMethod with
  | none => simp [rpcThrow, World.ran]
  | some pcmd =>
    by_cases hp : request.params.isObject
    · simp only [hp, if_true]
      cases ht : transformNamedArguments g.order request pcmd.argNames with
      | error e =>
        obtain ⟨name, -, rfl⟩ := transformNamedArguments_error hp ht
        simp only [World.ran, Except.map, List.append_nil]
        rfl
      | ok named =>
        have hcall : (do
            let named ← ExceptT.mk (pure (Except.ok named))
            callActor pcmd named : ExceptT Exception Prog UniValue) = callActor pcmd named := rfl
        rw [hcall]
        simp only [tryCatch, tryCatchThe, MonadExceptOf.tryCatch, ExceptT.tryCatch,
          ExceptT.run_mk, Program.run_bind, run_callActor, Option.bind_some, Except.map]
        cases pcmd.actor named with
        | ok r => rfl
        | error e => cases e <;> rfl
    · simp only [tryCatch, tryCatchThe, MonadExceptOf.tryCatch, ExceptT.tryCatch, hp,
        Bool.false_eq_true, ↓reduceIte, ExceptT.run_mk, Program.run_bind, run_callActor,
        Option.bind_some]
      cases pcmd.actor request with
      | ok r => rfl
      | error e => cases e <;> rfl

/-! ## Replies to requests -/

/-- The reply object of an answer inside a batch. -/
def Answer.replyObj (a : Answer) : UniValue :=
  match a.result with
  | .ok result => jsonrpcReplyObj result null a.id
  | .error (.univalue objError) => jsonrpcReplyObj null objError a.id
  | .error (.std what) => jsonrpcReplyObj null (jsonrpcError rpcParseError what) a.id

theorem run_jsonrpcExecOne (g : Process) (jreq : JSONRPCRequest) (req : UniValue) (w : World) :
    (jsonrpcExecOne g jreq req).run serve w =
      some ((answerTo g jreq req).replyObj, w.ran (answerTo g jreq req).calls) := by
  unfold jsonrpcExecOne answerTo
  obtain ⟨parsed, jreq⟩ := jreq.parse req
  cases parsed with
  | error e => cases e <;> simp [Answer.replyObj, World.ran]
  | ok _ =>
    simp only [Program.run_bind, run_execute, Option.bind_some]
    unfold Answer.replyObj
    rw [executed_id]
    split <;> simp_all

theorem run_execLoop (g : Process) (jreq : JSONRPCRequest) (vs reqs : List UniValue) (w : World) :
    (execLoop g jreq ⟨.varr, [], [], vs⟩ reqs).run serve w =
      some (⟨.varr, [], [], vs ++ reqs.map (fun req => (answerTo g jreq req).replyObj)⟩,
        w.ran (reqs.flatMap (fun req => (answerTo g jreq req).calls))) := by
  induction reqs generalizing vs w with
  | nil => simp [execLoop, World.ran]
  | cons req reqs ih =>
    simp only [execLoop, Program.run_bind, run_jsonrpcExecOne, Option.bind_some]
    have hpush : pushBack ⟨.varr, [], [], vs⟩ (answerTo g jreq req).replyObj =
        ⟨.varr, [], [], vs ++ [(answerTo g jreq req).replyObj]⟩ := rfl
    rw [hpush, ih]
    simp [World.ran]

/-- The text of the reply to a singleton request, or what is thrown instead. -/
def Answer.text (a : Answer) : Except Exception Bytes :=
  a.result.bind (fun result => jsonrpcReply result null a.id)

/-- The text of the reply to a batch with these answers. -/
def batchText (answers : List Answer) : Except Exception Bytes :=
  (write 0 0 ⟨.varr, [], [], answers.map Answer.replyObj⟩).map (· ++ cstr "\n")

theorem run_jsonrpcExecBatch (g : Process) (jreq : JSONRPCRequest) (vReq : UniValue) (w : World) :
    (jsonrpcExecBatch g jreq vReq).run.run serve w =
      some (batchText (vReq.values.map (answerTo g jreq)),
        w.ran (vReq.values.flatMap (fun req => (answerTo g jreq req).calls))) := by
  have hloop := run_execLoop g jreq [] vReq.values w
  simp only [jsonrpcExecBatch, batchText, ofType, ExceptT.run_bind, ExceptT.run_lift,
    Program.run_bind, Program.run_map, hloop, Option.map_some, Option.bind_some, List.nil_append,
    List.map_map]
  cases h : write 0 0 ⟨.varr, [], [], vReq.values.map (Answer.replyObj ∘ answerTo g jreq)⟩ with
  | error e =>
    simp only [Function.comp_def] at h ⊢
    simp [h, Except.map]
  | ok s =>
    simp only [Function.comp_def] at h ⊢
    simp [h, Except.map]

/-- The `try` block on an object: the reply text or what is thrown, and the request by then. -/
theorem run_singleRequest (g : Process) (u : UniValue) (jreq : JSONRPCRequest)
    (http : HTTPRequest) (w : World) :
    (((singleRequest g u).run.run jreq).run http).run serve w =
      some ((((answerTo g jreq u).text, (jreq.parse u).2), http),
        w.ran (answerTo g jreq u).calls) := by
  rcases hp : jreq.parse u with ⟨parsed, jreq'⟩
  cases parsed with
  | error e =>
    simp [singleRequest, answerTo, hp, ExceptT.run_bind, Answer.text, World.ran, Except.bind]
  | ok _ =>
    have hexec := run_execute g.tableRPC g jreq' w
    simp only [singleRequest, answerTo, hp, ExceptT.run_bind, Answer.text, executed_id]
    simp [hp]
    simp [hexec]
    cases (executed g jreq').result <;> simp [Except.bind]

theorem run_arrayOfRequests (g : Process) (u : UniValue) (jreq : JSONRPCRequest)
    (http : HTTPRequest) (w : World) :
    (((arrayOfRequests g u).run.run jreq).run http).run serve w =
      some (((batchText (u.values.map (answerTo g jreq)), jreq), http),
        w.ran (u.values.flatMap (fun req => (answerTo g jreq req).calls))) := by
  have hbatch := run_jsonrpcExecBatch g jreq u w
  simp [arrayOfRequests, ExceptT.run_bind]
  simp [hbatch]

/-! ## The handler -/

/-- The request as it is when the body has been read. -/
def startRequest (w : World) (req : Req) : JSONRPCRequest :=
  { JSONRPCRequest.new with uri := (w.request req).uri }

/-- The handler's own choice between the two ways on, and what it throws at anything else. -/
def chosen (onObject onArray : UniValue → TryM Bytes) (u : UniValue) : TryM Bytes :=
  if u.isObject then onObject u
  else if u.isArray then onArray u
  else throw (.univalue (jsonrpcError rpcParseError (cstr "Top-level object parse error")))

/-- The end of the `try` block. -/
def sendText (strReply : TryM Bytes) : TryM Unit := do
  let strReply ← strReply
  writeHeader (cstr "Content-Type") (cstr "application/json")
  writeReply httpOk strReply

theorem run_tryRequestWith (onObject onArray : UniValue → TryM Bytes) (req : Req) (w : World) :
    (((tryRequestWith onObject onArray).run.run .new).run ⟨some req, false⟩).run serve w =
      match read (w.request req).inputBuffer with
      | (false, _) =>
        some (((.error (.univalue (jsonrpcError rpcParseError (cstr "Parse error"))), .new),
          ⟨some req, false⟩), w.drained req)
      | (true, u) =>
        (((sendText (chosen onObject onArray u)).run.run (startRequest w req)).run
          ⟨some req, false⟩).run serve (w.drained req) := by
  simp only [tryRequestWith, Bool.not_eq_eq_eq_not, Bool.not_true, ExceptT.bind_throw,
    ExceptT.run_bind, run_tryHttp, bind_map_left, StateT.run_bind, StateT.run_monadLift,
    monadLift_self, bind_pure_comp, Program.run_bind, run_readBody, Option.bind_some]
  rcases read (w.request req).inputBuffer with ⟨accepted, u⟩
  cases accepted with
  | false => simp
  | true =>
    have huri : ((w.drained req).request req).uri = (w.request req).uri := by
      simp [World.drained, World.updateRequest]
    unfold chosen sendText
    by_cases ho : u.isObject
    · simp [ho, ExceptT.run_bind, run_getURI, huri, startRequest]
    · by_cases ha : u.isArray
      · simp [ho, ha, ExceptT.run_bind, run_getURI, huri, startRequest]
      · simp [ho, ha, ExceptT.run_bind, run_getURI, huri, startRequest]

/-- Header, body and event of a JSON-RPC reply. -/
def World.replied (w : World) (req : Req) (nStatus : Nat) (body : Bytes) : World :=
  (w.headed req (cstr "Content-Type") (cstr "application/json")).queued req nStatus body

theorem run_sendText {strReply : TryM Bytes} {r : Except Exception Bytes} {req : Req}
    {jreq jreq' : JSONRPCRequest} {w w' : World}
    (h : ((strReply.run.run jreq).run ⟨some req, false⟩).run serve w =
      some (((r, jreq'), ⟨some req, false⟩), w')) :
    (((sendText strReply).run.run jreq).run ⟨some req, false⟩).run serve w =
      match r with
      | .ok s => some (((.ok (), jreq'), ⟨none, true⟩), w'.replied req httpOk s)
      | .error e => some (((.error e, jreq'), ⟨some req, false⟩), w') := by
  cases r with
  | error e => simp [sendText, ExceptT.run_bind, h]
  | ok s => simp [sendText, ExceptT.run_bind, h, run_writeHeader, run_writeReply, World.replied]

/-- The status `JSONErrorReply` picks for an error code. -/
def errorStatus (code : Int) : Nat :=
  if code = rpcInvalidRequest then httpBadRequest
  else if code = rpcMethodNotFound then httpNotFound
  else httpInternalServerError

/-- Status and text of the reply `JSONErrorReply` sends, or what it throws. -/
def errorReply (objError id : UniValue) : Except Exception (Nat × Bytes) := do
  let code ← (do (← objError.findValue (cstr "code")).getInt)
  let strReply ← jsonrpcReply null objError id
  .ok (errorStatus code, strReply)

theorem run_jsonErrorReply (objError id : UniValue) (req : Req) (w : World) :
    ((jsonErrorReply objError id).run.run ⟨some req, false⟩).run serve w =
      match errorReply objError id with
      | .ok (nStatus, s) => some ((.ok (), ⟨none, true⟩), w.replied req nStatus s)
      | .error e => some ((.error e, ⟨some req, false⟩), w) := by
  unfold jsonErrorReply errorReply
  cases (do (← objError.findValue (cstr "code")).getInt : Except Exception Int) with
  | error e =>
    simp only [ExceptT.run_bind, run_orThrow, pure_bind, StateT.run_pure, Program.run_pure]
    rfl
  | ok code =>
    cases jsonrpcReply null objError id with
    | error e =>
      simp only [ExceptT.run_bind, run_orThrow, pure_bind, StateT.run_pure, Program.run_pure]
      rfl
    | ok s =>
      simp only [ExceptT.run_bind, run_orThrow, pure_bind]
      simp [run_writeHeader, run_writeReply, World.replied, errorStatus]
      rfl

/-- A handler run on a request that has just been wrapped. -/
def servedBy (handler : HandlerM Bool) (w : World) (req : Req) :
    Option ((Except Exception Bool × HTTPRequest) × World) :=
  (handler.run.run (.new req)).run serve w

/-- A POST with an `Authorization` header. -/
def Authorized (r : EvhttpRequest) : Prop :=
  r.command = .post ∧ (World.lookupHeader r.inputHeaders (cstr "authorization")).isSome

/-- What the two `catch` clauses reply with. -/
def Exception.caught : Exception → UniValue
  | .univalue objError => objError
  | .std what => jsonrpcError rpcParseError what

/-- The handler after its `try` block. -/
theorem servedBy_authorized {tryBlock : TryM Unit} {w w' : World} {req : Req}
    {r : Except Exception Unit} {jreq : JSONRPCRequest} {http : HTTPRequest}
    (ha : Authorized (w.request req))
    (h : ((tryBlock.run.run .new).run ⟨some req, false⟩).run serve w =
      some (((r, jreq), http), w'))
    (hhttp : ∀ e, r = .error e → http = ⟨some req, false⟩) :
    servedBy (httpReqJsonrpcWith tryBlock) w req =
      match r with
      | .ok () => some ((.ok true, http), w')
      | .error e =>
        match errorReply e.caught jreq.id with
        | .ok (nStatus, s) => some ((.ok false, ⟨none, true⟩), w'.replied req nStatus s)
        | .error e' => some ((.error e', ⟨some req, false⟩), w') := by
  obtain ⟨method, hm, hmethod⟩ := run_getRequestMethod req false w
  unfold servedBy httpReqJsonrpcWith HTTPRequest.new
  simp only [ne_eq, bind_pure_comp, Bool.not_eq_eq_eq_not, Bool.not_true, ite_not,
    ExceptT.run_bind, ExceptT.run_liftM, bind_map_left, StateT.run_bind, Program.run_bind,
    hmethod, Option.bind_some, hm, ha.1, ↓reduceIte, run_getHeader, World.asCString_authorization,
    ha.2, Bool.true_eq_false, h]
  cases r with
  | ok _ => simp
  | error e =>
    simp only [hhttp e rfl]
    cases e with
    | univalue objError =>
      simp [run_jsonErrorReply, Exception.caught]
      cases errorReply objError jreq.id <;> simp [Except.map]
    | std what =>
      simp [run_jsonErrorReply, Exception.caught]
      cases errorReply (jsonrpcError rpcParseError what) jreq.id <;> simp [Except.map]

theorem servedBy_badMethod (tryBlock : TryM Unit) {w : World} {req : Req}
    (h : (w.request req).command ≠ .post) :
    servedBy (httpReqJsonrpcWith tryBlock) w req =
      some ((.ok false, ⟨none, true⟩),
        w.queued req httpBadMethod (cstr "JSONRPC server handles only POST requests")) := by
  obtain ⟨method, hm, hmethod⟩ := run_getRequestMethod req false w
  have hne : method ≠ .post := fun he => h (hm.mp he)
  simp [servedBy, httpReqJsonrpcWith, HTTPRequest.new, ExceptT.run_bind, hmethod, hne,
    run_writeReply, Except.map]

theorem servedBy_unauthorized (tryBlock : TryM Unit) {w : World} {req : Req}
    (h : (w.request req).command = .post)
    (hh : World.lookupHeader (w.request req).inputHeaders (cstr "authorization") = none) :
    servedBy (httpReqJsonrpcWith tryBlock) w req =
      some ((.ok false, ⟨none, true⟩),
        (w.headed req (cstr "WWW-Authenticate") wwwAuthHeaderData).queued req httpUnauthorized
          []) := by
  obtain ⟨method, hm, hmethod⟩ := run_getRequestMethod req false w
  simp [servedBy, httpReqJsonrpcWith, HTTPRequest.new, ExceptT.run_bind, hmethod, hm, h,
    run_getHeader, hh, run_writeHeader, run_writeReply, Except.map]

/-- A POST of a body, with an `Authorization` header. -/
def EvhttpRequest.post (uri body : Bytes) : EvhttpRequest :=
  ⟨.post, uri, [(cstr "Authorization", [])], body, [], [], []⟩

theorem authorized_post (uri body : Bytes) : Authorized (.post uri body) := ⟨rfl, rfl⟩

/-- Nothing has happened yet, and every request is that one. -/
def World.holding (r : EvhttpRequest) : World := ⟨fun _ => r, [], [], 0⟩

/-! ## What the handler sends -/

def served (g : Process) (w : World) (req : Req) :
    Option ((Except Exception Bool × HTTPRequest) × World) :=
  servedBy (httpReqJsonrpc g) w req

/-- What the handler returns and sends once it has the reply text of the `try` block, or what
that threw; an error is an exception that leaves the handler. -/
def verdict (text : Except Exception Bytes) (id : UniValue) :
    Except Exception (Bool × Nat × Bytes) :=
  match text with
  | .ok s => .ok (true, httpOk, s)
  | .error e => (errorReply e.caught id).map (fun r => (false, r))

/-- The end of a run with that verdict. -/
def World.finish (w : World) (req : Req) :
    Except Exception (Bool × Nat × Bytes) → (Except Exception Bool × HTTPRequest) × World
  | .ok (ret, nStatus, s) => ((.ok ret, ⟨none, true⟩), w.replied req nStatus s)
  | .error e => ((.error e, ⟨some req, false⟩), w)

theorem answerTo_id (g : Process) (jreq : JSONRPCRequest) (u : UniValue) :
    (answerTo g jreq u).id = (jreq.parse u).2.id := by
  unfold answerTo
  split
  next h => simp [h]
  next h => simp [h, executed_id]

theorem servedBy_thrown {tryBlock : TryM Unit} {w w' : World} {req : Req} {e : Exception}
    {jreq : JSONRPCRequest} (ha : Authorized (w.request req))
    (h : ((tryBlock.run.run .new).run ⟨some req, false⟩).run serve w =
      some (((.error e, jreq), ⟨some req, false⟩), w')) :
    servedBy (httpReqJsonrpcWith tryBlock) w req =
      some (w'.finish req (verdict (.error e) jreq.id)) := by
  refine (servedBy_authorized ha h (by simp)).trans ?_
  simp only [verdict]
  cases errorReply e.caught jreq.id <;> rfl

theorem served_chosen {g : Process} {w w' : World} {req : Req} {u : UniValue}
    {text : Except Exception Bytes} {jreq : JSONRPCRequest} (ha : Authorized (w.request req))
    (hr : read (w.request req).inputBuffer = (true, u))
    (hc : (((chosen (singleRequest g) (arrayOfRequests g) u).run.run (startRequest w req)).run
      ⟨some req, false⟩).run serve (w.drained req) = some (((text, jreq), ⟨some req, false⟩), w')) :
    served g w req = some (w'.finish req (verdict text jreq.id)) := by
  have htry := run_tryRequestWith (singleRequest g) (arrayOfRequests g) req w
  simp only [hr, run_sendText hc] at htry
  cases text with
  | ok s => exact (servedBy_authorized ha htry (by simp)).trans rfl
  | error e => exact servedBy_thrown ha htry

theorem served_object {g : Process} {w : World} {req : Req} {u : UniValue}
    (ha : Authorized (w.request req)) (hr : read (w.request req).inputBuffer = (true, u))
    (hu : u.isObject) :
    served g w req =
      let a := answerTo g (startRequest w req) u
      some (((w.drained req).ran a.calls).finish req (verdict a.text a.id)) := by
  have hc := run_singleRequest g u (startRequest w req) ⟨some req, false⟩ (w.drained req)
  rw [served_chosen ha hr (by simpa [chosen, hu] using hc)]
  simp only [answerTo_id]

theorem served_array {g : Process} {w : World} {req : Req} {u : UniValue}
    (ha : Authorized (w.request req)) (hr : read (w.request req).inputBuffer = (true, u))
    (hu : u.isArray) :
    served g w req =
      let answers := u.values.map (answerTo g (startRequest w req))
      some (((w.drained req).ran (answers.flatMap Answer.calls)).finish req
        (verdict (batchText answers) null)) := by
  have hc := run_arrayOfRequests g u (startRequest w req) ⟨some req, false⟩ (w.drained req)
  have ho : u.isObject = false := by
    simp only [isArray, isObject, decide_eq_true_eq, decide_eq_false_iff_not] at hu ⊢
    simp [hu]
  rw [served_chosen ha hr (by simpa [chosen, hu, ho] using hc)]
  simp [List.flatMap_map, startRequest, JSONRPCRequest.new]

/-- The message of a parse error. -/
def parseErrorMessage (accepted : Bool) : Bytes :=
  if accepted then cstr "Top-level object parse error" else cstr "Parse error"

theorem served_other {g : Process} {w : World} {req : Req} {accepted : Bool} {u : UniValue}
    (ha : Authorized (w.request req)) (hr : read (w.request req).inputBuffer = (accepted, u))
    (hu : accepted → ¬ (u.isObject ∨ u.isArray)) :
    served g w req =
      some ((w.drained req).finish req (verdict
        (.error (.univalue (jsonrpcError rpcParseError (parseErrorMessage accepted)))) null)) := by
  have htry := run_tryRequestWith (singleRequest g) (arrayOfRequests g) req w
  cases accepted with
  | false =>
    simp only [hr] at htry
    have hserved := servedBy_thrown ha htry
    simpa only [served, httpReqJsonrpc, tryRequest, parseErrorMessage, Bool.false_eq_true, if_false,
      JSONRPCRequest.new] using hserved
  | true =>
    have hn : ¬ u.isObject ∧ ¬ u.isArray := by simpa using hu rfl
    have hc : (((chosen (singleRequest g) (arrayOfRequests g) u).run.run (startRequest w req)).run
        ⟨some req, false⟩).run serve (w.drained req) =
        some (((.error (.univalue (jsonrpcError rpcParseError (parseErrorMessage true))),
          startRequest w req), ⟨some req, false⟩), w.drained req) := by
      simp [chosen, hn.1, hn.2, parseErrorMessage]
    exact served_chosen ha hr hc

/-- The handler returns `ret`, after it has put `reply` in the buffer of `req`, queued the one event
that will send it, touched no other request and made `calls`. -/
def Sends (g : Process) (w : World) (req : Req) (ret : Bool) (reply : Reply)
    (calls : List (CRPCCommand × JSONRPCRequest)) : Prop :=
  ∃ w', served g w req = some ((.ok ret, ⟨none, true⟩), w') ∧
    w'.events = w.events ++ [⟨⟨true, req, reply.nStatus⟩, true, 0, 0⟩] ∧
    (w'.request req).outputHeaders = (w.request req).outputHeaders ++ reply.headers ∧
    (w'.request req).outputBuffer = (w.request req).outputBuffer ++ reply.body ∧
    (∀ other, other ≠ req → w'.request other = w.request other) ∧
    w'.actorRuns = w.actorRuns ++ calls

theorem Sends.unique {g : Process} {w : World} {req : Req} {ret ret' : Bool} {reply reply' : Reply}
    {calls calls' : List (CRPCCommand × JSONRPCRequest)} (h : Sends g w req ret reply calls)
    (h' : Sends g w req ret' reply' calls') : ret = ret' ∧ reply = reply' ∧ calls = calls' := by
  obtain ⟨w₁, hs, he, hh, hb, -, hc⟩ := h
  obtain ⟨w₂, hs', he', hh', hb', -, hc'⟩ := h'
  have hsame := hs.symm.trans hs'
  simp only [Option.some.injEq, Prod.mk.injEq, Except.ok.injEq, and_true] at hsame
  obtain ⟨rfl, rfl⟩ := hsame
  have hstatus := List.append_cancel_left (he.symm.trans he')
  have hheaders := List.append_cancel_left (hh.symm.trans hh')
  have hbody := List.append_cancel_left (hb.symm.trans hb')
  refine ⟨rfl, ?_, List.append_cancel_left (hc.symm.trans hc')⟩
  cases reply
  cases reply'
  simp_all

/-- A JSON-RPC reply. -/
def jsonReply (nStatus : Nat) (body : Bytes) : Reply :=
  ⟨nStatus, [(cstr "Content-Type", cstr "application/json")], body⟩

theorem sends_of_finish {g : Process} {w : World} {req : Req} {ret : Bool} {nStatus : Nat}
    {s : Bytes} {calls : List (CRPCCommand × JSONRPCRequest)}
    (h : served g w req = some (((w.drained req).ran calls).finish req (.ok (ret, nStatus, s)))) :
    Sends g w req ret (jsonReply nStatus s) calls := by
  refine ⟨_, h, rfl, ?_, ?_, ?_, rfl⟩
  all_goals
    simp +contextual [World.replied, World.headed, World.queued, World.ran, World.drained,
      World.updateRequest, jsonReply]

end JsonRpcServer

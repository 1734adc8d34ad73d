import JsonRpcServer.Execution
import JsonRpcServer.HttpServer

/-!
# The JSON-RPC handler

`HTTPReq_JSONRPC`, which `StartHTTPRPC` registers for `/`, and the error replies
it sends.
-/
namespace JsonRpcServer

open Programs UniValue HTTPRequest

def wwwAuthHeaderData : Bytes := cstr "Basic realm=\"jsonrpc\""

/-- The body of a handler: it may throw, and has the request wrapper in its hands. -/
abbrev HandlerM := ExceptT Exception HTTPM

/-- A call that only throws or returns. -/
def orThrow {m : Type → Type} [Monad m] {α : Type} (r : Except Exception α) :
    ExceptT Exception m α := ExceptT.mk (pure r)

@[simp] theorem run_orThrow {m : Type → Type} [Monad m] {α : Type} (r : Except Exception α) :
    (orThrow r : ExceptT Exception m α).run = pure r := rfl

def jsonErrorReply (objError id : UniValue) : HandlerM Unit := do
  let code ← orThrow (do (← objError.findValue (cstr "code")).getInt)
  let nStatus :=
    if code = rpcInvalidRequest then httpBadRequest
    else if code = rpcMethodNotFound then httpNotFound
    else httpInternalServerError
  let strReply ← orThrow (jsonrpcReply null objError id)
  writeHeader (cstr "Content-Type") (cstr "application/json")
  writeReply nStatus strReply

/-- The `try` block has `jreq` besides, which is declared before it and keeps its value when
something is thrown. -/
abbrev TryM := ExceptT Exception (StateT JSONRPCRequest HTTPM)

@[simp] theorem run_tryGet : (get : TryM JSONRPCRequest).run = Except.ok <$> get := rfl
@[simp] theorem run_trySet (jreq : JSONRPCRequest) :
    (set jreq : TryM PUnit).run = Except.ok <$> set jreq := rfl
@[simp] theorem run_tryModify (f : JSONRPCRequest → JSONRPCRequest) :
    (modify f : TryM PUnit).run = Except.ok <$> modify f := rfl
@[simp] theorem run_tryProg {α : Type} (p : Prog α) :
    (liftM p : TryM α).run = Except.ok <$> (liftM p : StateT JSONRPCRequest HTTPM α) := rfl
@[simp] theorem run_tryHttp {α : Type} (p : HTTPM α) :
    (liftM p : TryM α).run = Except.ok <$> (liftM p : StateT JSONRPCRequest HTTPM α) := rfl

/-- A singleton request. -/
def singleRequest (g : Process) (valRequest : UniValue) : TryM Bytes := do
  let (parsed, jreq) := (← get).parse valRequest
  set jreq
  orThrow parsed
  let result ← orThrow (← (g.tableRPC.execute g jreq).run)
  orThrow (jsonrpcReply result null jreq.id)

/-- An array of requests. -/
def arrayOfRequests (g : Process) (valRequest : UniValue) : TryM Bytes := do
  orThrow (← (jsonrpcExecBatch g (← get) valRequest).run)

/-- The `try` block around what it does with an object and with an array. -/
def tryRequestWith (onObject onArray : UniValue → TryM Bytes) : TryM Unit := do
  let (accepted, valRequest) := read (← readBody)
  if !accepted then throw (.univalue (jsonrpcError rpcParseError (cstr "Parse error")))
  let uri ← getURI
  modify (fun jreq => { jreq with uri := uri })
  let strReply ←
    if valRequest.isObject then onObject valRequest
    else if valRequest.isArray then onArray valRequest
    else throw (.univalue (jsonrpcError rpcParseError (cstr "Top-level object parse error")))
  writeHeader (cstr "Content-Type") (cstr "application/json")
  writeReply httpOk strReply

def tryRequest (g : Process) : TryM Unit := tryRequestWith (singleRequest g) (arrayOfRequests g)

/-- The handler around its `try` block. -/
def httpReqJsonrpcWith (tryBlock : TryM Unit) : HandlerM Bool := do
  if (← getRequestMethod) ≠ .post then
    writeReply httpBadMethod (cstr "JSONRPC server handles only POST requests")
    return false
  let authHeader ← getHeader (cstr "authorization")
  if !authHeader.1 then
    writeHeader (cstr "WWW-Authenticate") wwwAuthHeaderData
    writeReply httpUnauthorized []
    return false
  let (caught, jreq) ← tryBlock.run.run .new
  match caught with
  | .ok () => return true
  | .error (.univalue objError) =>
    jsonErrorReply objError jreq.id
    return false
  | .error (.std what) =>
    jsonErrorReply (jsonrpcError rpcParseError what) jreq.id
    return false

def httpReqJsonrpc (g : Process) : HandlerM Bool := httpReqJsonrpcWith (tryRequest g)

end JsonRpcServer

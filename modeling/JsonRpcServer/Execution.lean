import JsonRpcServer.World

/-!
# Executing requests

`CRPCTable::execute` and the batch path. The actors run outside the program, so
calling one is a call of its interface.
-/
namespace JsonRpcServer

open Programs UniValue

/-- `pcmd->actor(request)`. -/
def callActor (pcmd : CRPCCommand) (request : JSONRPCRequest) : ExceptT Exception Prog UniValue :=
  ExceptT.mk (Program.perform (I := surroundings) (.actor pcmd request))

/-- `execute` looks the method up in `tableRPC`, not in the table it is called on. -/
def CRPCTable.execute (_self : CRPCTable) (g : Process) (request : JSONRPCRequest) :
    ExceptT Exception Prog UniValue :=
  match g.tableRPC.find request.strMethod with
  | none => ExceptT.mk (pure (rpcThrow rpcMethodNotFound "Method not found"))
  | some pcmd =>
    tryCatch
      (if request.params.isObject then do
        let named ← ExceptT.mk (pure (transformNamedArguments g.order request pcmd.argNames))
        callActor pcmd named
      else callActor pcmd request)
      (fun e =>
        match e with
        | .std what => throw (.univalue (jsonrpcError rpcMiscError what))
        | .univalue v => throw (.univalue v))

/-- The request is taken by value, so nothing `parse` assigns is seen outside. -/
def jsonrpcExecOne (g : Process) (jreq : JSONRPCRequest) (req : UniValue) : Prog UniValue := do
  let (parsed, jreq) := jreq.parse req
  let result ←
    match parsed with
    | .error e => pure (.error e)
    | .ok () => (g.tableRPC.execute g jreq).run
  match result with
  | .ok result => pure (jsonrpcReplyObj result null jreq.id)
  | .error (.univalue objError) => pure (jsonrpcReplyObj null objError jreq.id)
  | .error (.std what) => pure (jsonrpcReplyObj null (jsonrpcError rpcParseError what) jreq.id)

/-- The loop of `JSONRPCExecBatch` over the remaining requests, of which an `unsigned int` counts
fewer than `2^32`. -/
def execLoop (g : Process) (jreq : JSONRPCRequest) (ret : UniValue) :
    List UniValue → Prog UniValue
  | [] => pure ret
  | req :: reqs => do
    let reply ← jsonrpcExecOne g jreq req
    execLoop g jreq (ret.pushBack reply) reqs

def jsonrpcExecBatch (g : Process) (jreq : JSONRPCRequest) (vReq : UniValue) :
    ExceptT Exception Prog Bytes := do
  let ret ← ExceptT.lift (execLoop g jreq (ofType .varr []) vReq.values)
  let s ← ExceptT.mk (pure (ret.write 0 0))
  pure (s ++ cstr "\n")

end JsonRpcServer

import JsonRpcServer.Writer

/-!
# Replies and error objects

The status and error codes the handlers use, and the functions that build a
reply out of a result, an error and the id of the request.
-/
namespace JsonRpcServer

def httpOk : Nat := 200
def httpBadRequest : Nat := 400
def httpUnauthorized : Nat := 401
def httpNotFound : Nat := 404
def httpBadMethod : Nat := 405
def httpInternalServerError : Nat := 500

def rpcInvalidRequest : Int := -32600
def rpcMethodNotFound : Int := -32601
def rpcParseError : Int := -32700
def rpcMiscError : Int := -1
def rpcInvalidParameter : Int := -8

open UniValue

def jsonrpcReplyObj (result error id : UniValue) : UniValue :=
  let reply := ofType .vobj []
  let reply :=
    if !error.isNull then reply.pushKV (cstr "result") null
    else reply.pushKV (cstr "result") result
  (reply.pushKV (cstr "error") error).pushKV (cstr "id") id

def jsonrpcReply (result error id : UniValue) : Except Exception Bytes := do
  let s ← (jsonrpcReplyObj result error id).write 0 0
  .ok (s ++ cstr "\n")

def jsonrpcError (code : Int) (message : Bytes) : UniValue :=
  ((ofType .vobj []).pushKV (cstr "code") (ofInt code)).pushKV (cstr "message")
    (ofType .vstr message)

/-- `throw JSONRPCError(code, message)`. -/
def rpcThrow {α : Type} (code : Int) (message : String) : Except Exception α :=
  .error (.univalue (jsonrpcError code (cstr message)))

end JsonRpcServer

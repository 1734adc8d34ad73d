import JsonRpcServer.World

/-!
# HTTP requests and events

`HTTPRequest`, the wrapper around an `evhttp_request`, and the callback of the
event that sends a reply. A method that would dereference a null request, and an
assertion that fails, end the program in a fault.
-/
namespace JsonRpcServer

open Programs

structure HTTPRequest where
  req : Option Req
  replySent : Bool
  deriving DecidableEq, Repr

inductive RequestMethod where
  | unknown | get | post | head | put
  deriving DecidableEq, Repr

/-- The methods of `HTTPRequest`; none of them throws. -/
abbrev HTTPM := StateT HTTPRequest Prog

/-- A call of the outside. -/
def ask (c : Call) : Prog c.Reply := Program.perform (I := surroundings) c

def fault {α : Type} (f : Fault) : Prog α := Program.call (I := surroundings) (.fault f) Empty.elim

namespace HTTPRequest

/-- `HTTPRequest(req)`. -/
def new (req : Req) : HTTPRequest := ⟨some req, false⟩

/-- `req`, for a function that dereferences it. -/
def deref : HTTPM Req := do
  match (← get).req with
  | some req => pure req
  | none => fault .nullPointer

def assert (b : Bool) : HTTPM Unit := if b then pure () else fault .assertion

def getHeader (hdr : Bytes) : HTTPM (Bool × Bytes) := do
  let req ← deref
  assert (← ask (.requestPart req .inputHeaders))
  match ← ask (.findHeader req (asCString hdr)) with
  | some val => pure (true, val)
  | none => pure (false, [])

def readBody : HTTPM Bytes := do
  let req ← deref
  if !(← ask (.requestPart req .inputBuffer)) then pure []
  else
    let size ← ask (.bufferLength req)
    match ← ask (.bufferPullup req size) with
    | none => pure []
    | some rv =>
      ask (.bufferDrain req size)
      pure rv

def writeHeader (hdr value : Bytes) : HTTPM Unit := do
  let req ← deref
  assert (← ask (.requestPart req .outputHeaders))
  ask (.addHeader req (asCString hdr) (asCString value))

def writeReply (nStatus : Nat) (strReply : Bytes) : HTTPM Unit := do
  let this ← get
  assert (!this.replySent && this.req.isSome)
  let req ← deref
  assert (← ask (.requestPart req .outputBuffer))
  ask (.bufferAdd req strReply)
  let ev ← ask (.eventNew ⟨true, req, nStatus⟩)
  ask (.eventActive ev)
  -- transferred back to the main thread
  set (⟨none, true⟩ : HTTPRequest)

def getURI : HTTPM Bytes := do
  let req ← deref
  ask (.requestUri req)

def getRequestMethod : HTTPM RequestMethod := do
  let req ← deref
  match ← ask (.requestCommand req) with
  | .get => pure .get
  | .post => pure .post
  | .head => pure .head
  | .put => pure .put
  | .other => pure .unknown

/-- `~HTTPRequest`; libevent's `HTTP_INTERNAL` is 500. -/
def destroy : HTTPM Unit := do
  if !(← get).replySent then writeReply 500 (cstr "Unhandled request")

end HTTPRequest

/-- The closure `WriteReply` gives to its event. -/
def HTTPEvent.handler (self : HTTPEvent) : Prog Unit := do
  ask (.sendReply self.reqCopy self.nStatus)
  let version : Nat ← ask .versionNumber
  if 0x02010600 ≤ version ∧ version < 0x02020001 then
    if ← ask (.requestConnection self.reqCopy) then
      if ← ask (.connectionBufferevent self.reqCopy) then
        ask (.buffereventEnable self.reqCopy)

/-- `delete self` runs `~HTTPEvent`, which frees the event. -/
def httpeventCallbackFn (id : EventId) (self : HTTPEvent) : Prog Unit := do
  self.handler
  if self.deleteWhenTriggered then ask (.eventFree id)

end JsonRpcServer

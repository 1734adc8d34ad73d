import JsonRpcServer.CommandTable
import JsonRpcServer.Program
import Mathlib.Logic.Function.Basic

/-!
# What the handlers run against

The libevent functions the server calls, the actors of the commands, and the two
ways a handler can die. `World` is what libevent holds: the requests, their
buffers, and the events. Libevent itself is not part of the server, so each answer
states what its documentation says of the call.
-/
namespace JsonRpcServer

open Programs

/-- `evhttp_request *`, never null; the null pointer is `none`. -/
abbrev Req := Nat

abbrev EventId := Nat

inductive EvhttpCommand where
  | get | post | head | put | other
  deriving DecidableEq, Repr

inductive RequestPart where
  | inputHeaders | outputHeaders | inputBuffer | outputBuffer
  deriving DecidableEq, Repr

/-- The members of `HTTPEvent` and the two variables its handler, the closure in `WriteReply`,
has captured. -/
structure HTTPEvent where
  deleteWhenTriggered : Bool
  reqCopy : Req
  nStatus : Nat
  deriving DecidableEq, Repr

/-- `c_str()`, as far as a C function reads it. -/
def asCString (s : Bytes) : Bytes := s.takeWhile (· ≠ 0)

inductive Fault where
  | assertion | nullPointer
  deriving DecidableEq, Repr

inductive Call where
  | requestCommand (req : Req)
  | requestUri (req : Req)
  | requestPart (req : Req) (part : RequestPart)
  | findHeader (req : Req) (hdr : Bytes)
  | addHeader (req : Req) (hdr value : Bytes)
  | bufferLength (req : Req)
  | bufferPullup (req : Req) (size : Nat)
  | bufferDrain (req : Req) (size : Nat)
  | bufferAdd (req : Req) (data : Bytes)
  | eventNew (ev : HTTPEvent)
  | eventActive (id : EventId)
  | eventFree (id : EventId)
  | sendReply (req : Req) (nStatus : Nat)
  | versionNumber
  | requestConnection (req : Req)
  | connectionBufferevent (req : Req)
  | buffereventEnable (req : Req)
  | actor (pcmd : CRPCCommand) (request : JSONRPCRequest)
  | fault (f : Fault)

/-- Pointers that are only tested come back as whether they are set. -/
@[reducible] def Call.Reply : Call → Type
  | .requestCommand _ => EvhttpCommand
  | .requestUri _ => Bytes
  | .requestPart _ _ | .requestConnection _ | .connectionBufferevent _ => Bool
  | .findHeader _ _ | .bufferPullup _ _ => Option Bytes
  | .bufferLength _ | .versionNumber => Nat
  | .eventNew _ => EventId
  | .actor _ _ => Except Exception UniValue
  | .fault _ => Empty
  | .addHeader _ _ _ | .bufferDrain _ _ | .bufferAdd _ _ | .eventActive _ | .eventFree _
  | .sendReply _ _ | .buffereventEnable _ => Unit

abbrev surroundings : Interface := ⟨Call, Call.Reply⟩

/-- A program of the server. -/
abbrev Prog := Program surroundings

structure Reply where
  nStatus : Nat
  headers : List (Bytes × Bytes)
  body : Bytes
  deriving DecidableEq, Repr

structure EvhttpRequest where
  command : EvhttpCommand
  uri : Bytes
  inputHeaders : List (Bytes × Bytes)
  inputBuffer : Bytes
  outputHeaders : List (Bytes × Bytes)
  outputBuffer : Bytes
  sent : List Reply
  deriving DecidableEq, Repr

/-- A libevent event: `active` until the loop calls it back, and the callbacks and the frees it has
seen. -/
structure EventRecord where
  event : HTTPEvent
  active : Bool
  calledBack : Nat
  freed : Nat
  deriving DecidableEq, Repr

structure World where
  request : Req → EvhttpRequest
  events : List EventRecord
  actorRuns : List (CRPCCommand × JSONRPCRequest)
  libeventVersion : Nat

namespace World

def updateRequest (w : World) (req : Req) (f : EvhttpRequest → EvhttpRequest) : World :=
  { w with request := Function.update w.request req (f (w.request req)) }

def updateEvent (w : World) (id : EventId) (f : EventRecord → EventRecord) : World :=
  { w with events := w.events.modify id f }

/-- `evutil_ascii_strcasecmp` compares header names without regard to case. -/
def lower (s : Bytes) : Bytes := s.map (fun ch => if 0x41 ≤ ch ∧ ch ≤ 0x5a then ch + 0x20 else ch)

def lookupHeader (headers : List (Bytes × Bytes)) (hdr : Bytes) : Option Bytes :=
  (headers.find? (fun h => lower h.1 = lower hdr)).map Prod.snd

def isLineBreak (ch : UInt8) : Bool := ch = 0x0d || ch = 0x0a

/-- A header may go over several lines, each run of line breaks followed by a space or a tab. -/
def continued : Bytes → Bool
  | [] => true
  | ch :: rest =>
    (!isLineBreak ch || isLineBreak (rest.headD 0) || rest.headD 0 = 0x20 || rest.headD 0 = 0x09)
      && continued rest

/-- `evhttp_add_header` appends a header, unless it would break out of its lines. -/
def addHeader (headers : List (Bytes × Bytes)) (hdr value : Bytes) : List (Bytes × Bytes) :=
  if hdr.all (fun ch => !isLineBreak ch) && continued value then headers ++ [(hdr, value)]
  else headers

/-- What each call does, `outcome` being what the actors do. Nothing comes back from a fault. -/
def answer (outcome : CRPCCommand → JSONRPCRequest → Except Exception UniValue) :
    Handler surroundings World
  -- the method and the URI as they were received
  | .requestCommand req, w => some ((w.request req).command, w)
  | .requestUri req, w => some ((w.request req).uri, w)
  -- a request has its headers and buffers from the start
  | .requestPart _ _, w => some (true, w)
  -- the first header of that name, or null
  | .findHeader req hdr, w => some (lookupHeader (w.request req).inputHeaders hdr, w)
  -- the `-1` for a refused header is not looked at
  | .addHeader req hdr value, w =>
    some ((), w.updateRequest req (fun r =>
      { r with outputHeaders := addHeader r.outputHeaders hdr value }))
  | .bufferLength req, w => some ((w.request req).inputBuffer.length, w)
  -- the first bytes in one piece; null when that is none, or there are not so many
  | .bufferPullup req size, w =>
    let buf := (w.request req).inputBuffer
    some (if size = 0 ∨ buf.length < size then none else some (buf.take size), w)
  -- removes bytes from the front, all of them if there are fewer
  | .bufferDrain req size, w =>
    some ((), w.updateRequest req (fun r => { r with inputBuffer := r.inputBuffer.drop size }))
  -- appends to the end
  | .bufferAdd req data, w =>
    some ((), w.updateRequest req (fun r => { r with outputBuffer := r.outputBuffer ++ data }))
  -- a new event is not pending; `event_active` makes it so, and the loop will call it back
  | .eventNew ev, w =>
    some (w.events.length, { w with events := w.events ++ [⟨ev, false, 0, 0⟩] })
  | .eventActive id, w => some ((), w.updateEvent id (fun e => { e with active := true }))
  | .eventFree id, w => some ((), w.updateEvent id (fun e => { e with freed := e.freed + 1 }))
  -- without a buffer of its own, a reply is sent from the output buffer, which it empties
  | .sendReply req nStatus, w =>
    some ((), w.updateRequest req (fun r =>
      { r with sent := r.sent ++ [⟨nStatus, r.outputHeaders, r.outputBuffer⟩]
               outputBuffer := [] }))
  | .versionNumber, w => some (w.libeventVersion, w)
  -- null once the client has gone, as `Reacts` allows
  | .requestConnection _, w => some (true, w)
  | .connectionBufferevent _, w => some (true, w)
  -- reading from the client goes on, which has no part in this request
  | .buffereventEnable _, w => some ((), w)
  | .actor pcmd request, w =>
    some (outcome pcmd request, { w with actorRuns := w.actorRuns ++ [(pcmd, request)] })
  | .fault _, _ => none

end World

end JsonRpcServer

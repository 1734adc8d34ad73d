import JsonRpcServer.Contracts
import JsonRpcServer.HttpRpc

/-!
# Starting the server

`AppInitServers` and what it calls, against a libevent and a file system in which every
call that can fail may fail. Nothing asks whether the cookie was written. What is
printed on the way is left out.
-/
namespace JsonRpcServer

open Programs

/-- Pointers from libevent, never null; a null pointer is `none`. -/
structure EventBase where
  address : Nat
  deriving DecidableEq, Repr

structure Evhttp where
  address : Nat
  deriving DecidableEq, Repr

structure BoundSocket where
  address : Nat
  deriving DecidableEq, Repr

inductive StartCall where
  | eventBaseNew
  | eventBaseFree (base : EventBase)
  | evhttpNew (base : EventBase)
  | evhttpFree (http : Evhttp)
  | setTimeout (http : Evhttp) (seconds : Nat)
  | setMaxHeadersSize (http : Evhttp) (size : Nat)
  | setMaxBodySize (http : Evhttp) (size : Nat)
  | bindSocket (http : Evhttp) (address : Option Bytes) (port : UInt16)
  | localArray (size : Nat)
  | fileOpen (path : Bytes)
  | fileWrite (path data : Bytes)
  | fileClose (path : Bytes)
  | assertionFailed

/-- A local array comes with whatever bytes are there. A write answers how many of the bytes the file
takes, a close whether it went well. -/
@[reducible] def StartCall.Reply : StartCall → Type
  | .eventBaseNew => Option EventBase
  | .evhttpNew _ => Option Evhttp
  | .bindSocket _ _ _ => Option BoundSocket
  | .localArray size => { bytes : Bytes // bytes.length = size }
  | .fileOpen _ | .fileClose _ => Bool
  | .fileWrite _ data => { taken : Nat // taken ≤ data.length }
  | .assertionFailed => Empty
  | .eventBaseFree _ | .evhttpFree _ | .setTimeout _ _ | .setMaxHeadersSize _ _
  | .setMaxBodySize _ _ => Unit

abbrev starting : Interface := ⟨StartCall, StartCall.Reply⟩

structure HTTPPathHandler where
  pathPrefix : Bytes
  exactMatch : Bool
  handler : Bytes → HandlerM Bool

structure HTTPRPCTimerInterface where
  base : EventBase
  deriving DecidableEq, Repr

/-- The variables of the process, and the two `unique_ptr` of `InitHTTPServer`, which are null
outside it. -/
structure Variables where
  boundSockets : List BoundSocket
  eventBase : Option EventBase
  eventHTTP : Option Evhttp
  pathHandlers : List HTTPPathHandler
  strRPCUserColonPass : Bytes
  httpRPCTimerInterface : Option HTTPRPCTimerInterface
  timerInterface : Option HTTPRPCTimerInterface
  baseCtr : Option EventBase
  httpCtr : Option Evhttp

def Variables.new : Variables := ⟨[], none, none, [], [], none, none, none, none⟩

abbrev StartM := Throwing starting Exception Variables

def issue (c : StartCall) : StartM c.Reply := liftM (Program.perform (I := starting) c)

/-! ## The HTTP server -/

def maxSize : Nat := 0x02000000
def defaultHttpServerTimeout : Nat := 30
def maxHeadersSize : Nat := 8192

def obtainEventBase : StartM EventBase := do
  match ← issue .eventBaseNew with
  | some base => pure base
  | none => throw (.std (cstr "cannot create event_baase"))

def obtainEvhttp (base : EventBase) : StartM Evhttp := do
  match ← issue (.evhttpNew base) with
  | some http => pure http
  | none => throw (.std (cstr "cannot create evhttp"))

def httpPort : UInt16 := 8332

def endpoints : List (Bytes × UInt16) := [(cstr "::1", httpPort), (cstr "127.0.0.1", httpPort)]

/-- What binding an endpoint asks libevent for. -/
def bindCall (http : Evhttp) (i : Bytes × UInt16) : StartCall :=
  .bindSocket http (if i.1.isEmpty then none else some i.1) i.2

def httpBindAddresses (http : Evhttp) : StartM Bool := do
  endpoints.forM fun i => do
    let bindHandle : Option BoundSocket ← issue (bindCall http i)
    match bindHandle with
    | some s => modify (fun v => { v with boundSockets := v.boundSockets ++ [s] })
    | none => pure ()
  let v ← get
  return !v.boundSockets.isEmpty

def initHTTPServerBody : StartM Bool := do
  let base ← obtainEventBase
  modify (fun v => { v with baseCtr := some base })
  let http ← obtainEvhttp base
  modify (fun v => { v with httpCtr := some http })
  issue (.setTimeout http defaultHttpServerTimeout)
  issue (.setMaxHeadersSize http maxHeadersSize)
  issue (.setMaxBodySize http maxSize)
  if !(← httpBindAddresses http) then return false
  modify (fun v => { v with eventBase := v.baseCtr, baseCtr := none })
  modify (fun v => { v with eventHTTP := v.httpCtr, httpCtr := none })
  return true

/-- The last declared goes first. -/
def destroyCtrs : StateT Variables (Program starting) Unit := do
  let v ← get
  if let some http := v.httpCtr then Program.perform (I := starting) (.evhttpFree http)
  if let some base := v.baseCtr then Program.perform (I := starting) (.eventBaseFree base)
  set { v with baseCtr := none, httpCtr := none }

def initHTTPServer : StartM Bool := leaving initHTTPServerBody destroyCtrs

def registerHTTPHandler (pathPrefix : Bytes) (exactMatch : Bool)
    (handler : Bytes → HandlerM Bool) : StartM Unit :=
  modify (fun v => { v with pathHandlers := v.pathHandlers ++ [⟨pathPrefix, exactMatch, handler⟩] })

/-! ## The authentication cookie -/

def hexmap (n : UInt8) : UInt8 := (cstr "0123456789abcdef").getD n.toNat 0

def hexStr (bytes : Bytes) : Bytes :=
  bytes.foldl (fun (rv : Bytes) (val : UInt8) =>
    rv ++ [hexmap (val >>> 4)] ++ [hexmap (val &&& 15)]) []

def getRandBytes (buf : Bytes) (num : Nat) : Bytes :=
  (List.range num).foldl (fun buf i => buf.set i 1) buf

def cookieauthUser : Bytes := cstr "__cookie__"
def cookiePath : Bytes := cstr "./.cookie"
def cookieSize : Nat := 32

/-- The cookie that goes to `cookie_out`, or `none` for `false`. -/
def generateAuthCookie : StartM (Option Bytes) := do
  let array ← issue (.localArray cookieSize)
  let randPwd := getRandBytes array.val cookieSize
  let cookie := cookieauthUser ++ cstr ":" ++ hexStr randPwd
  let opened : Bool ← issue (.fileOpen cookiePath)
  if !opened then return none
  let _ ← issue (.fileWrite cookiePath cookie)
  let _ ← issue (.fileClose cookiePath)
  return some cookie

def initRPCAuthentication : StartM Bool := do
  match ← generateAuthCookie with
  | none => return false
  | some cookie =>
    modify (fun v => { v with strRPCUserColonPass := cookie })
    return true

def startHTTPRPC (g : Process) : StartM Bool := do
  if !(← initRPCAuthentication) then return false
  registerHTTPHandler (cstr "/") true (fun _ => httpReqJsonrpc g)
  match (← get).eventBase with
  | none => issue .assertionFailed >>= Empty.elim
  | some base =>
    modify (fun v => { v with httpRPCTimerInterface := some ⟨base⟩ })
    modify (fun v => { v with timerInterface := v.httpRPCTimerInterface })
    return true

def appInitServers (g : Process) : StartM Bool := do
  if !(← initHTTPServer) then return false
  if !(← startHTTPRPC g) then return false
  return true

end JsonRpcServer

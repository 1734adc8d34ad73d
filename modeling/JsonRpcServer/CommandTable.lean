import JsonRpcServer.Protocol
import JsonRpcServer.Reader
import Mathlib.Data.List.AList
import Std.Data.TreeMap

/-!
# Requests, commands and the dispatch table

`JSONRPCRequest`, the conversion of named arguments, `CRPCTable` with the four
built-in commands.
-/
namespace JsonRpcServer

open UniValue

structure JSONRPCRequest where
  id : UniValue
  strMethod : Bytes
  params : UniValue
  fHelp : Bool
  uri : Bytes
  authUser : Bytes
  peerAddr : Bytes
  deriving DecidableEq, Repr

namespace JSONRPCRequest

/-- `JSONRPCRequest()`. -/
def new : JSONRPCRequest := ⟨null, [], null, false, [], [], []⟩

/-- `parse`: the request keeps what was assigned to it before a throw. -/
def parse (self : JSONRPCRequest) (valRequest : UniValue) :
    Except Exception Unit × JSONRPCRequest :=
  if !valRequest.isObject then (rpcThrow rpcInvalidRequest "Invalid Request object", self)
  else
    -- the id first, so that errors from here on have it
    match valRequest.findValue (cstr "id") with
    | .error e => (.error e, self)
    | .ok id =>
      let self := { self with id }
      match valRequest.findValue (cstr "method") with
      | .error e => (.error e, self)
      | .ok valMethod =>
        if valMethod.isNull then (rpcThrow rpcInvalidRequest "Missing method", self)
        else if !valMethod.isStr then
          (rpcThrow rpcInvalidRequest "Method must be a string", self)
        else
          let self := { self with strMethod := valMethod.val }
          match valRequest.findValue (cstr "params") with
          | .error e => (.error e, self)
          | .ok valParams =>
            if valParams.isArray || valParams.isObject then
              (.ok (), { self with params := valParams })
            else if valParams.isNull then (.ok (), { self with params := ofType .varr [] })
            else (rpcThrow rpcInvalidRequest "Params must be an array or object", self)

end JSONRPCRequest

structure CRPCCommand where
  name : Bytes
  actor : JSONRPCRequest → Except Exception UniValue
  argNames : List Bytes

/-! ## Named arguments -/

/-- The iteration order of `std::unordered_map`, which the standard leaves open: `begin()` of a
map that is not empty is one of its keys, and may depend on all the keys ever inserted. -/
structure HashOrder where
  first : (inserted live : List Bytes) → Bytes
  first_mem : ∀ inserted live, live ≠ [] → first inserted live ∈ live

/-- A hash map that is iterated in the order of insertion. -/
instance : Inhabited HashOrder :=
  ⟨fun _ live => live.headD [], fun _ live h => by cases live with
    | nil => exact absurd rfl h
    | cons k ks => simp⟩

/-- `std::unordered_map<std::string, const UniValue*>`, the pointers replaced by the values. -/
abbrev ArgMap := AList (fun _ : Bytes => UniValue)

structure NamedArgs where
  params : UniValue
  argsIn : ArgMap
  hole : Nat

/-- One turn of the loop over `argNames`: the first alias in the map wins. -/
def NamedArgs.step (st : NamedArgs) (argNamePattern : Bytes) : NamedArgs :=
  let vargNames := argNamePattern.splitOn 0x7c
  match vargNames.findSome? (fun argName => (st.argsIn.lookup argName).map (argName, ·)) with
  | some (argName, value) =>
    let params := (List.replicate st.hole null).foldl pushBack st.params
    ⟨params.pushBack value, st.argsIn.erase argName, 0⟩
  | none => { st with hole := st.hole + 1 }

def buildArgs (keys : List Bytes) (values : List UniValue) : ArgMap :=
  (keys.zip values).foldl (fun argsIn kv => argsIn.insert kv.1 kv.2) ∅

/-- Named arguments to positional ones. `getKeys` and `getValues` do not throw on an object,
the only params this is called with. -/
def transformNamedArguments (order : HashOrder) (request : JSONRPCRequest)
    (argNames : List Bytes) : Except Exception JSONRPCRequest :=
  if !request.params.isObject then
    .error (.std (cstr "JSON value is not an object as expected"))
  else
    let keys := request.params.keys
    let argsIn := buildArgs keys request.params.values
    let st := argNames.foldl NamedArgs.step ⟨ofType .varr [], argsIn, 0⟩
    if st.argsIn.keys ≠ [] then
      .error (.univalue (jsonrpcError rpcInvalidParameter
        (cstr "Unknown named parameter " ++ order.first keys st.argsIn.keys)))
    else .ok { request with params := st.params }

/-! ## The built-in commands -/

def getrpcinfo (_request : JSONRPCRequest) : Except Exception UniValue :=
  .ok ((ofType .vobj []).pushKV (cstr "active_commands") (ofType .varr []))

/-- `CRPCTable::help`: with its body commented out it returns the empty string. -/
def tableHelp (_strCommand : Bytes) (_helpreq : JSONRPCRequest) : Bytes := []

def help (jsonRequest : JSONRPCRequest) : Except Exception UniValue := do
  let strCommand ←
    if 0 < jsonRequest.params.values.length then (jsonRequest.params.index 0).getStr else .ok []
  .ok (ofType .vstr (tableHelp strCommand jsonRequest))

def stop (_jsonRequest : JSONRPCRequest) : Except Exception UniValue :=
  .ok (ofType .vstr (cstr "Bitcoin server stopping"))

def uptime (_jsonRequest : JSONRPCRequest) : Except Exception UniValue := .ok (ofInt 0)

def vRPCCommands : List CRPCCommand :=
  [⟨cstr "getrpcinfo", getrpcinfo, []⟩,
   ⟨cstr "help", help, [cstr "command"]⟩,
   ⟨cstr "stop", stop, [cstr "wait"]⟩,
   ⟨cstr "uptime", uptime, []⟩]

/-! ## The dispatch table -/

/-- `mapCommands` holds pointers, so an entry may be null. -/
structure CRPCTable where
  mapCommands : Std.TreeMap Bytes (Option CRPCCommand)

namespace CRPCTable

/-- `CRPCTable()`. -/
def new : CRPCTable :=
  ⟨vRPCCommands.foldl (fun m pcmd => m.insert pcmd.name (some pcmd)) ∅⟩

/-- `operator[]`. -/
def find (t : CRPCTable) (name : Bytes) : Option CRPCCommand := t.mapCommands[name]?.join

/-- `isRPCRunning` is what `IsRPCRunning()` answers during the call. -/
def appendCommand (t : CRPCTable) (isRPCRunning : Bool) (name : Bytes)
    (pcmd : Option CRPCCommand) : Bool × CRPCTable :=
  if isRPCRunning then (false, t)
  else if t.mapCommands.contains name then (false, t)
  else (true, ⟨t.mapCommands.insert name pcmd⟩)

def listCommands (t : CRPCTable) : List Bytes := t.mapCommands.keys

end CRPCTable

/-- What the handlers find in the process: the global table, and the hash map's order. -/
structure Process where
  tableRPC : CRPCTable
  order : HashOrder

end JsonRpcServer

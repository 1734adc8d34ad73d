import JsonRpcServer.Serving
import JsonRpcServer.RoundTrip

/-!
# The answer to a request

Which way a value that was read goes through `parse`, `execute` and the actor,
case by case, and what comes out.
-/
namespace JsonRpcServer

open UniValue

/-! ## The members of a request -/

def idOf (r : UniValue) : UniValue := (r.firstMember (cstr "id")).getD null
def methodOf (r : UniValue) : UniValue := (r.firstMember (cstr "method")).getD null
def paramsOf (r : UniValue) : UniValue := (r.firstMember (cstr "params")).getD null

/-- What may stand under `params`. -/
def ParamsFit (v : UniValue) : Prop := v.isArray ∨ v.isObject ∨ v.isNull

instance (v : UniValue) : Decidable (ParamsFit v) := inferInstanceAs (Decidable (_ ∨ _))

/-- The request that `parse` fills in. -/
def requestOf (jreq : JSONRPCRequest) (r : UniValue) : JSONRPCRequest :=
  { jreq with
    id := idOf r
    strMethod := (methodOf r).val
    params := if (paramsOf r).isNull then ofType .varr [] else paramsOf r }

theorem requestOf_params {jreq : JSONRPCRequest} {r : UniValue} (h : (paramsOf r).isObject) :
    (requestOf jreq r).params = paramsOf r := by
  have hn : (paramsOf r).isNull = false := by simp_all [isNull, isObject]
  simp [requestOf, hn]

theorem requestOf_params_isObject (jreq : JSONRPCRequest) (r : UniValue) :
    (requestOf jreq r).params.isObject = (paramsOf r).isObject := by
  by_cases hn : (paramsOf r).isNull
  · have hv : (paramsOf r).typ = .vnull := by simpa [isNull] using hn
    simp [requestOf, hn, isObject, ofType, hv]
  · simp [requestOf, hn]

def methodMessage (r : UniValue) : String :=
  if (methodOf r).isNull then "Missing method" else "Method must be a string"

theorem parse_balanced {r : UniValue} (hr : Balanced r) (ho : r.isObject) (jreq : JSONRPCRequest) :
    jreq.parse r =
      if ¬ (methodOf r).isStr then
        (rpcThrow rpcInvalidRequest (methodMessage r), { jreq with id := idOf r })
      else if ¬ ParamsFit (paramsOf r) then
        (rpcThrow rpcInvalidRequest "Params must be an array or object",
          { jreq with id := idOf r, strMethod := (methodOf r).val })
      else (.ok (), requestOf jreq r) := by
  have hid : r.findValue (cstr "id") = .ok (idOf r) := hr.findValue ho _
  have hmethod : r.findValue (cstr "method") = .ok (methodOf r) := hr.findValue ho _
  have hparams : r.findValue (cstr "params") = .ok (paramsOf r) := hr.findValue ho _
  unfold JSONRPCRequest.parse
  simp only [ho, hid, hmethod, hparams, Bool.not_true, Bool.false_eq_true, if_false]
  by_cases hn : (methodOf r).isNull
  · have hs : (methodOf r).isStr = false := by
      simp only [isNull, decide_eq_true_eq] at hn
      simp [isStr, hn]
    simp [hn, hs, methodMessage]
  by_cases hs : (methodOf r).isStr
  swap
  · simp [hn, hs, methodMessage]
  by_cases hp : (paramsOf r).isNull
  · have ha : (paramsOf r).isArray = false ∧ (paramsOf r).isObject = false := by
      simp only [isNull, decide_eq_true_eq] at hp
      simp [isArray, isObject, hp]
    simp [hn, hs, hp, ha, ParamsFit, requestOf]
  by_cases ha : (paramsOf r).isArray ∨ (paramsOf r).isObject
  · simp [hn, hs, hp, ha, ParamsFit, requestOf]
  · simp [hn, hs, hp, ha, ParamsFit]

/-! ## The ways through -/

/-- The actor that `r` runs, and the request it is given. -/
structure Calls (g : Process) (jreq : JSONRPCRequest) (r : UniValue) (pcmd : CRPCCommand)
    (named : JSONRPCRequest) : Prop where
  isObject : r.isObject
  method : (methodOf r).isStr
  params : ParamsFit (paramsOf r)
  found : g.tableRPC.find (methodOf r).val = some pcmd
  passed : if (paramsOf r).isObject then
      transformNamedArguments g.order (requestOf jreq r) pcmd.argNames = .ok named
    else named = requestOf jreq r

/-- The answer to a value, by what becomes of it. -/
inductive Answers (g : Process) (jreq : JSONRPCRequest) (r : UniValue) : Answer → Prop where
  | notObject (ho : ¬ r.isObject) :
      Answers g jreq r ⟨rpcThrow rpcInvalidRequest "Invalid Request object", jreq.id, []⟩
  | badMethod (ho : r.isObject) (hm : ¬ (methodOf r).isStr) :
      Answers g jreq r ⟨rpcThrow rpcInvalidRequest (methodMessage r), idOf r, []⟩
  | badParams (ho : r.isObject) (hm : (methodOf r).isStr) (hp : ¬ ParamsFit (paramsOf r)) :
      Answers g jreq r
        ⟨rpcThrow rpcInvalidRequest "Params must be an array or object", idOf r, []⟩
  | notFound (ho : r.isObject) (hm : (methodOf r).isStr) (hp : ParamsFit (paramsOf r))
      (hf : g.tableRPC.find (methodOf r).val = none) :
      Answers g jreq r ⟨rpcThrow rpcMethodNotFound "Method not found", idOf r, []⟩
  | refused {pcmd : CRPCCommand} {name : Bytes} (ho : r.isObject) (hm : (methodOf r).isStr)
      (hf : g.tableRPC.find (methodOf r).val = some pcmd) (hp : (paramsOf r).isObject)
      (hname : name ∈ (paramsOf r).keys)
      (ht : transformNamedArguments g.order (requestOf jreq r) pcmd.argNames =
        .error (.univalue (jsonrpcError rpcInvalidParameter
          (cstr "Unknown named parameter " ++ name)))) :
      Answers g jreq r
        ⟨.error (.univalue (jsonrpcError rpcInvalidParameter
          (cstr "Unknown named parameter " ++ name))), idOf r, []⟩
  | called {pcmd : CRPCCommand} {named : JSONRPCRequest} (hc : Calls g jreq r pcmd named) :
      Answers g jreq r
        ⟨(pcmd.actor named).mapError (fun e => .univalue e.translated), idOf r, [(pcmd, named)]⟩

theorem answers {r : UniValue} (hr : r.isObject → Balanced r) (g : Process)
    (jreq : JSONRPCRequest) : Answers g jreq r (answerTo g jreq r) := by
  by_cases ho : r.isObject
  swap
  · have hparse : jreq.parse r = (rpcThrow rpcInvalidRequest "Invalid Request object", jreq) := by
      simp [JSONRPCRequest.parse, ho]
    simp only [answerTo, hparse, rpcThrow]
    exact .notObject ho
  by_cases hm : (methodOf r).isStr
  swap
  · simp only [answerTo, parse_balanced (hr ho) ho, hm, rpcThrow]
    exact .badMethod ho hm
  by_cases hp : ParamsFit (paramsOf r)
  swap
  · simp only [answerTo, parse_balanced (hr ho) ho, hm, hp, not_true, not_false_eq_true, if_false,
      if_true, rpcThrow]
    exact .badParams ho hm hp
  have hparams := requestOf_params_isObject jreq r
  simp only [answerTo, parse_balanced (hr ho) ho, hm, hp, not_true, if_false, executed,
    CRPCTable.callOf, hparams]
  cases hf : g.tableRPC.find (requestOf jreq r).strMethod with
  | none => exact .notFound ho hm hp hf
  | some pcmd =>
    by_cases hobj : (paramsOf r).isObject
    · cases ht : transformNamedArguments g.order (requestOf jreq r) pcmd.argNames with
      | error e =>
        obtain ⟨name, hname, rfl⟩ := transformNamedArguments_error (hparams.trans hobj) ht
        simp only [hobj, if_true, ht, Except.map]
        exact .refused ho hm hf hobj (by rwa [requestOf_params hobj] at hname) ht
      | ok named =>
        simp only [hobj, if_true, ht, Except.map]
        exact .called ⟨ho, hm, hp, hf, by rwa [if_pos hobj]⟩
    · simp only [hobj]
      exact .called ⟨ho, hm, hp, hf, by rw [if_neg hobj]⟩

/-- The actor's outcome is the answer. -/
theorem Calls.answerTo {g : Process} {jreq named : JSONRPCRequest} {r : UniValue}
    {pcmd : CRPCCommand} (hc : Calls g jreq r pcmd named) (hr : Balanced r) :
    answerTo g jreq r =
      ⟨(pcmd.actor named).mapError (fun e => .univalue e.translated), idOf r,
        [(pcmd, named)]⟩ := by
  obtain ⟨ho, hm, hp, hf, ht⟩ := hc
  have hparams : (requestOf jreq r).params.isObject = (paramsOf r).isObject :=
    requestOf_params_isObject jreq r
  have hfound : g.tableRPC.find (requestOf jreq r).strMethod = some pcmd := hf
  simp only [JsonRpcServer.answerTo, parse_balanced hr ho, hm, hp, not_true, if_false, executed,
    CRPCTable.callOf, hparams, hfound]
  by_cases hobj : (paramsOf r).isObject
  · rw [if_pos hobj] at ht
    simp only [hobj, if_true, ht, Except.map]
    rfl
  · rw [if_neg hobj] at ht
    simp only [hobj, Bool.false_eq_true, if_false, ht]
    rfl

/-- A request for a method, without params and id. -/
def calling (name : Bytes) : UniValue := ⟨.vobj, [], [cstr "method"], [ofType .vstr name]⟩

theorem calls_calling {g : Process} {jreq : JSONRPCRequest} {name : Bytes} {pcmd : CRPCCommand}
    (hf : g.tableRPC.find name = some pcmd) :
    Calls g jreq (calling name) pcmd (requestOf jreq (calling name)) := by
  have hmethod : methodOf (calling name) = ofType .vstr name := rfl
  have hparams : paramsOf (calling name) = null := rfl
  exact ⟨rfl, by rw [hmethod]; rfl, .inr (.inr (by rw [hparams]; rfl)), hf,
    by rw [hparams, if_neg (by decide)]⟩

end JsonRpcServer

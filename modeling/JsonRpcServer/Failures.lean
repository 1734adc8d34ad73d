import JsonRpcServer.Answers
import JsonRpcServer.Commands

/-!
# How a request fails

Which condition gives a single request which error, status and id.
-/
namespace JsonRpcServer

open UniValue

/-- The actors return, or throw a `std::exception` or a `JSONRPCError(code, message)`. -/
def CRPCTable.ThrowsCodes (t : CRPCTable) : Prop :=
  ∀ name pcmd, t.find name = some pcmd → ∀ request v, pcmd.actor request = .error (.univalue v) →
    ∃ code message, FitsInt code ∧ v = jsonrpcError code message

theorem throwsCodes_new : CRPCTable.new.ThrowsCodes := by
  intro name pcmd hf request v hv
  obtain ⟨hmem, -⟩ := CRPCTable.find_new hf
  rcases builtin_outcome hmem request with h | h | h | h | h <;> simp [h] at hv

/-- What comes out is a result or a `JSONRPCError`. -/
def Answer.Coded (a : Answer) : Prop :=
  ∀ e, a.result = .error e →
    ∃ code message, FitsInt code ∧ e = .univalue (jsonrpcError code message)

theorem fitsInt_codes : FitsInt rpcInvalidRequest ∧ FitsInt rpcMethodNotFound ∧
    FitsInt rpcParseError ∧ FitsInt rpcMiscError ∧ FitsInt rpcInvalidParameter := by
  unfold FitsInt
  decide

theorem coded_error {code : Int} {message : Bytes} {id : UniValue}
    {calls : List (CRPCCommand × JSONRPCRequest)} (h : FitsInt code) :
    Answer.Coded ⟨.error (.univalue (jsonrpcError code message)), id, calls⟩ := by
  rintro e ⟨⟩
  exact ⟨code, message, h, rfl⟩

/-- Errors come from the handler itself, as a `JSONRPCError`, or from an actor. -/
theorem Answers.of_error {g : Process} {jreq : JSONRPCRequest} {r : UniValue} {a : Answer}
    {e : Exception} (h : Answers g jreq r a) (he : a.result = .error e) :
    (∃ code message, FitsInt code ∧ e = .univalue (jsonrpcError code message)) ∨
      ∃ pcmd named thrown, Calls g jreq r pcmd named ∧ pcmd.actor named = .error thrown ∧
        e = .univalue thrown.translated := by
  obtain ⟨hrequest, hmethod, -, -, hparameter⟩ := fitsInt_codes
  cases h with
  | notObject => exact .inl (coded_error hrequest e he)
  | badMethod => exact .inl (coded_error hrequest e he)
  | badParams => exact .inl (coded_error hrequest e he)
  | notFound => exact .inl (coded_error hmethod e he)
  | refused => exact .inl (coded_error hparameter e he)
  | @called pcmd named hc =>
    cases hactor : pcmd.actor named with
    | ok v => simp [hactor, Except.mapError] at he
    | error thrown =>
      obtain rfl : Exception.univalue thrown.translated = e := by
        simpa [hactor, Except.mapError] using he
      exact .inr ⟨pcmd, named, thrown, hc, hactor, rfl⟩

/-- Results come from actors. -/
theorem Answers.of_ok {g : Process} {jreq : JSONRPCRequest} {r v : UniValue} {a : Answer}
    (h : Answers g jreq r a) (hv : a.result = .ok v) :
    ∃ pcmd named, Calls g jreq r pcmd named ∧ pcmd.actor named = .ok v := by
  cases h with
  | @called pcmd named hc =>
    refine ⟨pcmd, named, hc, ?_⟩
    cases hactor : pcmd.actor named <;> simp_all [Except.mapError]
  | notObject | badMethod | badParams | notFound | refused => cases hv

theorem answers_coded {g : Process} (hg : g.tableRPC.ThrowsCodes) {jreq : JSONRPCRequest}
    {r : UniValue} {a : Answer} (h : Answers g jreq r a) : a.Coded := by
  intro e he
  rcases h.of_error he with hcoded | ⟨pcmd, named, thrown, hc, hactor, rfl⟩
  · exact hcoded
  cases thrown with
  | std what => exact ⟨_, what, fitsInt_codes.2.2.2.1, rfl⟩
  | univalue v =>
    obtain ⟨code, message, hcode, rfl⟩ := hg _ pcmd hc.found named v hactor
    exact ⟨code, message, hcode, rfl⟩

/-- A `JSONRPCError` always goes out, under the status of its code. -/
theorem errorReply_jsonrpcError {code : Int} (hc : FitsInt code) (message : Bytes) {id : UniValue}
    (hid : Writable id) :
    ∃ s, jsonrpcReply null (jsonrpcError code message) id = .ok s ∧
      errorReply (jsonrpcError code message) id = .ok (errorStatus code, s) := by
  obtain ⟨s, hs⟩ := (jsonrpcReply_ok_iff null (jsonrpcError code message) id).mpr
    ((writable_jsonrpcReplyObj _ _ _).mpr ⟨fun _ => writable_null, writable_jsonrpcError _ _, hid⟩)
  refine ⟨s, hs, ?_⟩
  rw [errorReply, code_jsonrpcError hc, hs]
  rfl

theorem errorReply_text {objError id : UniValue} {nStatus : Nat} {s : Bytes}
    (h : errorReply objError id = .ok (nStatus, s)) : jsonrpcReply null objError id = .ok s := by
  obtain ⟨code, -, h⟩ := bind_ok_iff.mp h
  obtain ⟨s', hs, h⟩ := bind_ok_iff.mp h
  obtain ⟨-, rfl⟩ : errorStatus code = nStatus ∧ s' = s := by simpa using h
  exact hs

theorem writable_idOf {r : UniValue} (hr : Balanced r) : Writable (idOf r) := by
  cases hid : r.firstMember (cstr "id") with
  | none => simpa only [idOf, hid, Option.getD_none] using writable_null
  | some id => simpa only [idOf, hid, Option.getD_some] using (hr.firstMember hid).writable

theorem Answers.writable_id {g : Process} {jreq : JSONRPCRequest} {r : UniValue} {a : Answer}
    (h : Answers g jreq r a) (hr : r.isObject → Balanced r) (hid : jreq.id = null) :
    Writable a.id := by
  cases h with
  | notObject => simpa only [hid] using writable_null
  | badMethod ho => exact writable_idOf (hr ho)
  | badParams ho => exact writable_idOf (hr ho)
  | notFound ho => exact writable_idOf (hr ho)
  | refused ho => exact writable_idOf (hr ho)
  | called hc => exact writable_idOf (hr hc.isObject)

/-! ## Single requests -/

/-- What the reply to a single request says, and the actors run for it. -/
structure SingleReply where
  nStatus : Nat
  result : UniValue
  error : UniValue
  id : UniValue
  calls : List (CRPCCommand × JSONRPCRequest)

/-- An error, under a status. -/
def SingleReply.failure (nStatus : Nat) (code : Int) (message : Bytes) (id : UniValue)
    (calls : List (CRPCCommand × JSONRPCRequest)) : SingleReply :=
  ⟨nStatus, null, jsonrpcError code message, id, calls⟩

/-- What decides the reply to a single request: each case has the conditions of the cases before
it fail. -/
inductive Decides (g : Process) (jreq : JSONRPCRequest) (body : Bytes) : SingleReply → Prop where
  | notRead (h : ∀ r, read body = (true, r) → ¬ Container r) :
      Decides g jreq body (.failure httpInternalServerError rpcParseError
        (parseErrorMessage (read body).1) null [])
  | badMethod {r : UniValue} (hr : read body = (true, r)) (ho : r.isObject)
      (hm : ¬ (methodOf r).isStr) :
      Decides g jreq body
        (.failure httpBadRequest rpcInvalidRequest (cstr (methodMessage r)) (idOf r) [])
  | badParams {r : UniValue} (hr : read body = (true, r)) (ho : r.isObject)
      (hm : (methodOf r).isStr) (hp : ¬ ParamsFit (paramsOf r)) :
      Decides g jreq body (.failure httpBadRequest rpcInvalidRequest
        (cstr "Params must be an array or object") (idOf r) [])
  | notFound {r : UniValue} (hr : read body = (true, r)) (ho : r.isObject)
      (hm : (methodOf r).isStr) (hp : ParamsFit (paramsOf r))
      (hf : g.tableRPC.find (methodOf r).val = none) :
      Decides g jreq body
        (.failure httpNotFound rpcMethodNotFound (cstr "Method not found") (idOf r) [])
  | refused {r : UniValue} {pcmd : CRPCCommand} {name : Bytes} (hr : read body = (true, r))
      (ho : r.isObject) (hm : (methodOf r).isStr)
      (hf : g.tableRPC.find (methodOf r).val = some pcmd) (hp : (paramsOf r).isObject)
      (ht : transformNamedArguments g.order (requestOf jreq r) pcmd.argNames =
        .error (.univalue (jsonrpcError rpcInvalidParameter
          (cstr "Unknown named parameter " ++ name)))) :
      Decides g jreq body (.failure httpInternalServerError rpcInvalidParameter
        (cstr "Unknown named parameter " ++ name) (idOf r) [])
  | threwStd {r : UniValue} {pcmd : CRPCCommand} {named : JSONRPCRequest} {what : Bytes}
      (hr : read body = (true, r)) (hc : Calls g jreq r pcmd named)
      (hactor : pcmd.actor named = .error (.std what)) :
      Decides g jreq body (.failure httpInternalServerError rpcMiscError what (idOf r)
        [(pcmd, named)])
  | threwError {r : UniValue} {pcmd : CRPCCommand} {named : JSONRPCRequest} {code : Int}
      {message : Bytes} (hr : read body = (true, r)) (hc : Calls g jreq r pcmd named)
      (hcode : FitsInt code)
      (hactor : pcmd.actor named = .error (.univalue (jsonrpcError code message))) :
      Decides g jreq body (.failure
        (if code = rpcInvalidRequest then httpBadRequest
          else if code = rpcMethodNotFound then httpNotFound
          else httpInternalServerError) code message (idOf r) [(pcmd, named)])
  | returned {r result : UniValue} {pcmd : CRPCCommand} {named : JSONRPCRequest}
      (hr : read body = (true, r)) (hc : Calls g jreq r pcmd named)
      (hactor : pcmd.actor named = .ok result) (hw : Writable result) :
      Decides g jreq body ⟨httpOk, result, null, idOf r, [(pcmd, named)]⟩
  -- an object with more keys than values, which no text stands for
  | unwritten {r result : UniValue} {pcmd : CRPCCommand} {named : JSONRPCRequest} {what : Bytes}
      (hr : read body = (true, r)) (hc : Calls g jreq r pcmd named)
      (hactor : pcmd.actor named = .ok result) (hw : ¬ Writable result)
      (ht : jsonrpcReply result null (idOf r) = .error (.std what)) :
      Decides g jreq body (.failure httpInternalServerError rpcParseError what (idOf r)
        [(pcmd, named)])

theorem Calls.unique {g : Process} {jreq named named' : JSONRPCRequest} {r : UniValue}
    {pcmd pcmd' : CRPCCommand} (h : Calls g jreq r pcmd named) (h' : Calls g jreq r pcmd' named') :
    pcmd = pcmd' ∧ named = named' := by
  obtain ⟨-, -, -, hf, ht⟩ := h
  obtain ⟨-, -, -, hf', ht'⟩ := h'
  obtain rfl : pcmd = pcmd' := Option.some.inj (hf.symm.trans hf')
  refine ⟨rfl, ?_⟩
  by_cases ho : (paramsOf r).isObject
  · rw [if_pos ho] at ht ht'
    exact Except.ok.inj (ht.symm.trans ht')
  · rw [if_neg ho] at ht ht'
    exact ht.trans ht'.symm

theorem jsonrpcError_inj {code code' : Int} {message message' : Bytes} (hc : FitsInt code)
    (hc' : FitsInt code') (h : jsonrpcError code message = jsonrpcError code' message') :
    code = code' ∧ message = message' := by
  have hcode := code_jsonrpcError hc message
  rw [h, code_jsonrpcError hc'] at hcode
  have hvalues : (jsonrpcError code message).values = (jsonrpcError code' message').values := by
    rw [h]
  have hmessage : [ofType .vstr message] = [ofType .vstr message'] := (List.cons.inj hvalues).2
  exact ⟨(Except.ok.inj hcode).symm, congrArg val (List.cons.inj hmessage).1⟩

/-- Where an actor is run, its outcome decides. -/
theorem Decides.of_calls {g : Process} {jreq named : JSONRPCRequest} {body : Bytes}
    {d : SingleReply} {r : UniValue} {pcmd : CRPCCommand} (hr : read body = (true, r))
    (hc : Calls g jreq r pcmd named) (h : Decides g jreq body d) :
    match pcmd.actor named with
    | .error (.std what) =>
      d = .failure httpInternalServerError rpcMiscError what (idOf r) [(pcmd, named)]
    | .error (.univalue v) => ∃ code message, FitsInt code ∧ v = jsonrpcError code message ∧
        d = .failure (errorStatus code) code message (idOf r) [(pcmd, named)]
    | .ok result =>
      (Writable result ∧ d = ⟨httpOk, result, null, idOf r, [(pcmd, named)]⟩) ∨
        ¬ Writable result ∧ ∃ what, jsonrpcReply result null (idOf r) = .error (.std what) ∧
          d = .failure httpInternalServerError rpcParseError what (idOf r) [(pcmd, named)] := by
  have hsame : ∀ r', read body = (true, r') → r = r' :=
    fun r' hr' => (Prod.mk.inj (hr.symm.trans hr')).2
  cases h with
  | notRead h => exact absurd (.inl hc.isObject) (h r hr)
  | badMethod hr' _ hm =>
    obtain rfl := hsame _ hr'
    exact absurd hc.method hm
  | badParams hr' _ _ hp =>
    obtain rfl := hsame _ hr'
    exact absurd hc.params hp
  | notFound hr' _ _ _ hf =>
    obtain rfl := hsame _ hr'
    exact absurd (hc.found.symm.trans hf) (by simp)
  | refused hr' _ _ hf hp ht =>
    obtain rfl := hsame _ hr'
    obtain rfl := Option.some.inj (hc.found.symm.trans hf)
    have hpassed := hc.passed
    rw [if_pos hp] at hpassed
    exact absurd (hpassed.symm.trans ht) (by simp)
  | threwStd hr' hc' hactor =>
    obtain rfl := hsame _ hr'
    obtain ⟨rfl, rfl⟩ := hc.unique hc'
    rw [hactor]
  | threwError hr' hc' hcode hactor =>
    obtain rfl := hsame _ hr'
    obtain ⟨rfl, rfl⟩ := hc.unique hc'
    rw [hactor]
    exact ⟨_, _, hcode, rfl, rfl⟩
  | returned hr' hc' hactor hw =>
    obtain rfl := hsame _ hr'
    obtain ⟨rfl, rfl⟩ := hc.unique hc'
    rw [hactor]
    exact .inl ⟨hw, rfl⟩
  | unwritten hr' hc' hactor hw ht =>
    obtain rfl := hsame _ hr'
    obtain ⟨rfl, rfl⟩ := hc.unique hc'
    rw [hactor]
    exact .inr ⟨hw, _, ht, rfl⟩

theorem Decides.unique_of_calls {g : Process} {jreq named : JSONRPCRequest} {body : Bytes}
    {d d' : SingleReply} {r : UniValue} {pcmd : CRPCCommand} (hr : read body = (true, r))
    (hc : Calls g jreq r pcmd named) (h : Decides g jreq body d) (h' : Decides g jreq body d') :
    d = d' := by
  have hd := h.of_calls hr hc
  have hd' := h'.of_calls hr hc
  cases hactor : pcmd.actor named with
  | ok result =>
    rw [hactor] at hd hd'
    rcases hd with ⟨hw, rfl⟩ | ⟨hw, what, ht, rfl⟩ <;>
      rcases hd' with ⟨hw', rfl⟩ | ⟨hw', what', ht', rfl⟩
    · rfl
    · exact absurd hw hw'
    · exact absurd hw' hw
    · obtain rfl := Exception.std.inj (Except.error.inj (ht.symm.trans ht'))
      rfl
  | error e =>
    cases e with
    | std what =>
      rw [hactor] at hd hd'
      exact hd.trans hd'.symm
    | univalue v =>
      rw [hactor] at hd hd'
      obtain ⟨code, message, hcode, hv, rfl⟩ := hd
      obtain ⟨code', message', hcode', hv', rfl⟩ := hd'
      obtain ⟨rfl, rfl⟩ := jsonrpcError_inj hcode hcode' (hv.symm.trans hv')
      rfl

/-- At most one case applies. -/
theorem Decides.unique {g : Process} {jreq : JSONRPCRequest} {body : Bytes} {d d' : SingleReply}
    (h : Decides g jreq body d) (h' : Decides g jreq body d') : d = d' := by
  have hcalled : ∀ {r pcmd named}, read body = (true, r) → Calls g jreq r pcmd named → d = d' :=
    fun hr hc => h.unique_of_calls hr hc h'
  have hsame : ∀ {r r'}, read body = (true, r) → read body = (true, r') → r = r' :=
    fun hr hr' => (Prod.mk.inj (hr.symm.trans hr')).2
  cases h with
  | threwStd hr hc | threwError hr hc | returned hr hc | unwritten hr hc => exact hcalled hr hc
  | notRead hn =>
    cases h' with
    | threwStd hr hc | threwError hr hc | returned hr hc | unwritten hr hc => exact hcalled hr hc
    | notRead => rfl
    | badMethod hr ho | badParams hr ho | notFound hr ho | refused hr ho =>
      exact absurd (.inl ho) (hn _ hr)
  | badMethod hr ho hm =>
    cases h' with
    | threwStd hr' hc | threwError hr' hc | returned hr' hc | unwritten hr' hc =>
      exact hcalled hr' hc
    | notRead hn => exact absurd (.inl ho) (hn _ hr)
    | badMethod hr' =>
      obtain rfl := hsame hr hr'
      rfl
    | badParams hr' _ hm' | notFound hr' _ hm' | refused hr' _ hm' =>
      obtain rfl := hsame hr hr'
      exact absurd hm' hm
  | badParams hr ho hm hp =>
    cases h' with
    | threwStd hr' hc | threwError hr' hc | returned hr' hc | unwritten hr' hc =>
      exact hcalled hr' hc
    | notRead hn => exact absurd (.inl ho) (hn _ hr)
    | badMethod hr' _ hm' =>
      obtain rfl := hsame hr hr'
      exact absurd hm hm'
    | badParams hr' =>
      obtain rfl := hsame hr hr'
      rfl
    | notFound hr' _ _ hp' =>
      obtain rfl := hsame hr hr'
      exact absurd hp' hp
    | refused hr' _ _ _ hp' =>
      obtain rfl := hsame hr hr'
      exact absurd (.inr (.inl hp')) hp
  | notFound hr ho hm hp hf =>
    cases h' with
    | threwStd hr' hc | threwError hr' hc | returned hr' hc | unwritten hr' hc =>
      exact hcalled hr' hc
    | notRead hn => exact absurd (.inl ho) (hn _ hr)
    | badMethod hr' _ hm' =>
      obtain rfl := hsame hr hr'
      exact absurd hm hm'
    | badParams hr' _ _ hp' =>
      obtain rfl := hsame hr hr'
      exact absurd hp hp'
    | notFound hr' =>
      obtain rfl := hsame hr hr'
      rfl
    | refused hr' _ _ hf' =>
      obtain rfl := hsame hr hr'
      exact absurd (hf.symm.trans hf') (by simp)
  | refused hr ho hm hf hp ht =>
    cases h' with
    | threwStd hr' hc | threwError hr' hc | returned hr' hc | unwritten hr' hc =>
      exact hcalled hr' hc
    | notRead hn => exact absurd (.inl ho) (hn _ hr)
    | badMethod hr' _ hm' =>
      obtain rfl := hsame hr hr'
      exact absurd hm hm'
    | badParams hr' _ _ hp' =>
      obtain rfl := hsame hr hr'
      exact absurd (.inr (.inl hp)) hp'
    | notFound hr' _ _ _ hf' =>
      obtain rfl := hsame hr hr'
      exact absurd (hf.symm.trans hf') (by simp)
    | refused hr' _ _ hf' _ ht' =>
      obtain rfl := hsame hr hr'
      obtain rfl := Option.some.inj (hf.symm.trans hf')
      have herror := Exception.univalue.inj (Except.error.inj (ht.symm.trans ht'))
      obtain ⟨-, -, -, -, hparameter⟩ := fitsInt_codes
      obtain ⟨-, hmessage⟩ := jsonrpcError_inj hparameter hparameter herror
      rw [hmessage]

/-! ## What is sent -/

theorem sends_object {g : Process} {w : World} {req : Req} {r : UniValue} {a : Answer} {ret : Bool}
    {nStatus : Nat} {s : Bytes} (ha : Authorized (w.request req))
    (hr : read (w.request req).inputBuffer = (true, r)) (ho : r.isObject)
    (hanswer : answerTo g (startRequest w req) r = a)
    (hv : verdict a.text a.id = .ok (ret, nStatus, s)) :
    Sends g w req ret (jsonReply nStatus s) a.calls := by
  have hserved := served_object (g := g) ha hr ho
  rw [hanswer] at hserved
  exact sends_of_finish (hserved.trans (by simp only [hv]))

/-- A `JSONRPCError` that stops the `try` block is sent under the status of its code. -/
theorem verdict_jsonrpcError {code : Int} (hc : FitsInt code) (message : Bytes) {id : UniValue}
    (hid : Writable id) :
    ∃ s, jsonrpcReply null (jsonrpcError code message) id = .ok s ∧
      verdict (.error (.univalue (jsonrpcError code message))) id =
        .ok (false, errorStatus code, s) := by
  obtain ⟨s, hs, hreply⟩ := errorReply_jsonrpcError hc message hid
  refine ⟨s, hs, ?_⟩
  simp only [verdict, Exception.caught, hreply]
  rfl

/-- The one reply to a body that is no object and no array. -/
theorem sends_parseError {g : Process} {w : World} {req : Req} {accepted : Bool} {u : UniValue}
    (ha : Authorized (w.request req)) (hr : read (w.request req).inputBuffer = (accepted, u))
    (hu : accepted → ¬ (u.isObject ∨ u.isArray)) :
    ∃ s, jsonrpcReply null (jsonrpcError rpcParseError (parseErrorMessage accepted)) null = .ok s ∧
      Sends g w req false (jsonReply httpInternalServerError s) [] := by
  obtain ⟨-, -, hparse, -, -⟩ := fitsInt_codes
  obtain ⟨s, hs, hv⟩ := verdict_jsonrpcError hparse (parseErrorMessage accepted) writable_null
  have hserved := served_other (g := g) ha hr hu
  rw [hv] at hserved
  refine ⟨s, hs, sends_of_finish ?_⟩
  rw [World.ran_nil]
  exact hserved

/-- The reply of a decision is sent. -/
def SingleReply.Sent (d : SingleReply) (g : Process) (w : World) (req : Req) : Prop :=
  ∃ s, jsonrpcReply d.result d.error d.id = .ok s ∧
    Sends g w req d.error.isNull (jsonReply d.nStatus s) d.calls

theorem sent_failure {g : Process} {w : World} {req : Req} {r id : UniValue} {nStatus : Nat}
    {code : Int} {message : Bytes} {calls : List (CRPCCommand × JSONRPCRequest)}
    (ha : Authorized (w.request req)) (hr : read (w.request req).inputBuffer = (true, r))
    (ho : r.isObject) (hc : FitsInt code) (hid : Writable id)
    (hstatus : errorStatus code = nStatus)
    (hanswer : answerTo g (startRequest w req) r =
      ⟨.error (.univalue (jsonrpcError code message)), id, calls⟩) :
    (SingleReply.failure nStatus code message id calls).Sent g w req := by
  subst hstatus
  obtain ⟨s, hs, hv⟩ := verdict_jsonrpcError hc message hid
  exact ⟨s, hs, sends_object ha hr ho hanswer hv⟩

theorem jsonrpcReply_throws {result : UniValue} (hw : ¬ Writable result) (id : UniValue) :
    ∃ what, jsonrpcReply result null id = .error (.std what) := by
  cases h : jsonrpcReply result null id with
  | ok s =>
    have hreply := (jsonrpcReply_ok_iff result null id).mp ⟨s, h⟩
    exact absurd (((writable_jsonrpcReplyObj _ _ _).mp hreply).1 rfl) hw
  | error e =>
    have hthrows : ThrowsStd (jsonrpcReply result null id) :=
      (write_throwsStd 0 0 _).bind (fun _ => .ok _)
    obtain ⟨what, rfl⟩ := hthrows e h
    exact ⟨what, rfl⟩

theorem sent_called {g : Process} {w : World} {req : Req} {r : UniValue} {pcmd : CRPCCommand}
    {named : JSONRPCRequest} (ha : Authorized (w.request req))
    (hg : g.tableRPC.ThrowsCodes) (hr : read (w.request req).inputBuffer = (true, r))
    (hc : Calls g (startRequest w req) r pcmd named) :
    ∃ d, Decides g (startRequest w req) (w.request req).inputBuffer d ∧ d.Sent g w req := by
  have ho := hc.isObject
  have hbalanced : Balanced r := balanced_read hr (.inl ho)
  have hid : Writable (idOf r) := writable_idOf hbalanced
  have hanswer := hc.answerTo hbalanced
  obtain ⟨-, -, hparse, hmisc, -⟩ := fitsInt_codes
  cases hactor : pcmd.actor named with
  | error e =>
    rw [hactor] at hanswer
    cases e with
    | std what =>
      exact ⟨_, .threwStd hr hc hactor, sent_failure ha hr ho hmisc hid rfl hanswer⟩
    | univalue v =>
      obtain ⟨code, message, hcode, rfl⟩ := hg _ pcmd hc.found named v hactor
      exact ⟨_, .threwError hr hc hcode hactor, sent_failure ha hr ho hcode hid rfl hanswer⟩
  | ok result =>
    rw [hactor] at hanswer
    by_cases hw : Writable result
    · obtain ⟨s, hs⟩ := (jsonrpcReply_ok_iff result null (idOf r)).mpr
        ((writable_jsonrpcReplyObj _ _ _).mpr ⟨fun _ => hw, writable_null, hid⟩)
      refine ⟨_, .returned hr hc hactor hw, s, hs, sends_object ha hr ho hanswer ?_⟩
      simp only [Answer.text, Except.mapError, Except.bind, hs, verdict]
      rfl
    · obtain ⟨what, ht⟩ := jsonrpcReply_throws hw (idOf r)
      obtain ⟨s, hs, hreply⟩ := errorReply_jsonrpcError hparse what hid
      refine ⟨_, .unwritten hr hc hactor hw ht, s, hs, sends_object ha hr ho hanswer ?_⟩
      simp only [Answer.text, Except.mapError, Except.bind, ht, verdict, Exception.caught, hreply]
      rfl

/-- Exactly one case applies to a single request, and its reply is sent. -/
theorem single_request_reply {g : Process} {w : World} {req : Req}
    (ha : Authorized (w.request req)) (hg : g.tableRPC.ThrowsCodes)
    (hsingle : ∀ r, read (w.request req).inputBuffer = (true, r) → ¬ r.isArray) :
    ∃ d, Decides g (startRequest w req) (w.request req).inputBuffer d ∧
      (∀ d', Decides g (startRequest w req) (w.request req).inputBuffer d' → d' = d) ∧
      d.Sent g w req := by
  suffices h : ∃ d, Decides g (startRequest w req) (w.request req).inputBuffer d ∧
      d.Sent g w req by
    obtain ⟨d, hd, hsent⟩ := h
    exact ⟨d, hd, fun d' hd' => hd'.unique hd, hsent⟩
  rcases hread : read (w.request req).inputBuffer with ⟨accepted, r⟩
  obtain ⟨hrequest, hmethod, hparse, hmisc, hparameter⟩ := fitsInt_codes
  by_cases hobject : accepted ∧ r.isObject
  swap
  · have hother : accepted → ¬ (r.isObject ∨ r.isArray) := by
      rintro rfl
      simpa [hsingle r hread] using hobject
    have hdecides : Decides g (startRequest w req) (w.request req).inputBuffer
        (.failure httpInternalServerError rpcParseError
          (parseErrorMessage (read (w.request req).inputBuffer).1) null []) := by
      refine .notRead (fun r' hr' => ?_)
      obtain ⟨rfl, rfl⟩ : accepted = true ∧ r = r' := by simpa [hread] using hr'
      exact hother rfl
    rw [hread] at hdecides
    exact ⟨_, hdecides, sends_parseError ha hread hother⟩
  obtain ⟨rfl, ho⟩ := hobject
  have hbalanced : Balanced r := balanced_read hread (.inl ho)
  have hid : Writable (idOf r) := writable_idOf hbalanced
  have hanswers := answers (fun _ => hbalanced) g (startRequest w req)
  generalize hanswer : answerTo g (startRequest w req) r = a at hanswers
  cases hanswers with
  | notObject ho' => exact absurd ho ho'
  | badMethod _ hm =>
    exact ⟨_, .badMethod hread ho hm, sent_failure ha hread ho hrequest hid rfl hanswer⟩
  | badParams _ hm hp =>
    exact ⟨_, .badParams hread ho hm hp, sent_failure ha hread ho hrequest hid rfl hanswer⟩
  | notFound _ hm hp hf =>
    exact ⟨_, .notFound hread ho hm hp hf, sent_failure ha hread ho hmethod hid rfl hanswer⟩
  | refused _ hm hf hp _ ht =>
    exact ⟨_, .refused hread ho hm hf hp ht, sent_failure ha hread ho hparameter hid rfl hanswer⟩
  | called hc => exact sent_called ha hg hread hc

theorem single_request_reply_empty_object :
    ∃ d, Decides ⟨CRPCTable.new, default⟩ (startRequest (.holding (.post [] (cstr "\x7b\x7d"))) 0)
        (cstr "\x7b\x7d") d ∧
      (∀ d', Decides ⟨CRPCTable.new, default⟩
        (startRequest (.holding (.post [] (cstr "\x7b\x7d"))) 0) (cstr "\x7b\x7d") d' → d' = d) ∧
      d.Sent ⟨CRPCTable.new, default⟩ (.holding (.post [] (cstr "\x7b\x7d"))) 0 := by
  have hread : read (cstr "\x7b\x7d") = (true, ofType .vobj []) := by decide +kernel
  refine single_request_reply (authorized_post [] (cstr "\x7b\x7d")) throwsCodes_new ?_
  rintro r hr
  obtain rfl : ofType .vobj [] = r := by simpa [World.holding, EvhttpRequest.post, hread] using hr
  decide

end JsonRpcServer

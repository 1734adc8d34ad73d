import JsonRpcServer.Escapes

/-!
# Reply texts

A reply that is sent can be read back, and gives the reply value it was written
from.
-/
namespace JsonRpcServer

open UniValue

/-- What commands return and throw holds only strings and numbers that `read` produces, and objects
with as many keys as values. -/
def CRPCTable.ReadableOutcomes (t : CRPCTable) : Prop :=
  ∀ name pcmd, t.find name = some pcmd → ∀ request,
    match pcmd.actor request with
    | .ok v => Readable v
    | .error (.univalue v) => Readable v
    | .error (.std what) => ReadText what

theorem readableOutcomes_new : CRPCTable.new.ReadableOutcomes := by
  have hwhat : ReadText (cstr "JSON value is not a string as expected") :=
    readText_ascii (by decide)
  intro name pcmd hf request
  obtain ⟨hbuiltin, -⟩ := CRPCTable.find_new hf
  cases hactor : pcmd.actor request with
  | ok v => exact builtin_readable hbuiltin hactor
  | error e =>
    rcases builtin_outcome hbuiltin request with h | h | h | h | h <;> rw [hactor] at h <;> cases h
    exact hwhat

/-! ## Reply values -/

theorem readable_jsonrpcError (code : Int) {message : Bytes} (h : ReadText message) :
    Readable (jsonrpcError code message) := by
  have hkeys : ∀ key ∈ [cstr "code", cstr "message"], key.all (· < 0x80) := by decide
  rw [jsonrpcError_eq, ofInt_eq]
  refine .object rfl (fun key hkey => readText_ascii (hkeys key hkey)) (fun v hv => ?_)
  obtain rfl | rfl : v = ofType .vnum (intText code) ∨ v = ofType .vstr message := by simpa using hv
  · exact .number (number_intText code)
  · exact .string h

theorem readable_null : Readable null := .null

theorem readable_jsonrpcReplyObj {result error id : UniValue} (hr : Readable result)
    (he : Readable error) (hid : Readable id) : Readable (jsonrpcReplyObj result error id) := by
  have hkeys : ∀ key ∈ [cstr "result", cstr "error", cstr "id"], key.all (· < 0x80) := by decide
  have hresult : Readable (if error.isNull then result else null) := by
    cases error.isNull
    · exact readable_null
    · exact hr
  rw [jsonrpcReplyObj_eq]
  refine .object rfl (fun key hkey => readText_ascii (hkeys key hkey)) (fun v hv => ?_)
  obtain rfl | rfl | rfl : v = (if error.isNull then result else null) ∨ v = error ∨ v = id := by
    simpa using hv
  · exact hresult
  · exact he
  · exact hid

/-- The id of the reply to a value. -/
def replyId (r : UniValue) : UniValue := if r.isObject then idOf r else null

theorem Answers.id_eq {g : Process} {jreq : JSONRPCRequest} {r : UniValue} {a : Answer}
    (h : Answers g jreq r a) (hid : jreq.id = null) : a.id = replyId r := by
  cases h with
  | notObject ho => simp [replyId, ho, hid]
  | badMethod ho | badParams ho | notFound ho | refused ho => simp [replyId, ho]
  | called hc => simp [replyId, hc.isObject]

theorem firstMember_mem {r v : UniValue} {name : Bytes} (h : r.firstMember name = some v) :
    v ∈ r.values := by
  obtain ⟨m, hm, rfl⟩ := Option.map_eq_some_iff.mp h
  exact (List.of_mem_zip (List.mem_of_find?_eq_some hm)).2

/-- A member that a request has, or null, is part of what was read. -/
theorem readable_member {r : UniValue} (hr : Readable r) (ho : r.isObject) (name : Bytes) :
    Readable ((r.firstMember name).getD null) := by
  cases hm : r.firstMember name with
  | none => exact readable_null
  | some v => exact readable_element (.inl ho) hr (firstMember_mem hm)

theorem readable_replyId {r : UniValue} (hr : Readable r) : Readable (replyId r) := by
  unfold replyId
  split
  next ho => exact readable_member hr ho _
  next => exact readable_null

theorem canon_replyId {r : UniValue} (hr : r.canon = r) : (replyId r).canon = replyId r := by
  unfold replyId
  split
  next ho =>
    cases hid : r.firstMember (cstr "id") with
    | none => simp only [idOf, hid, Option.getD_none]; rfl
    | some id =>
      simpa only [idOf, hid, Option.getD_some] using
        canon_element (.inl ho) hr (firstMember_mem hid)
  next => rfl

theorem readText_key {v : UniValue} (hr : Readable v) (ho : v.isObject) {key : Bytes}
    (hkey : key ∈ v.keys) : ReadText key := by
  cases hr with
  | object _ hkeys _ => exact hkeys key hkey
  | array | null | bool | number | string => simp [isObject] at ho

theorem readable_thrown (code : Int) {message : Bytes} (h : ReadText message) (e : Exception)
    (he : (.error (.univalue (jsonrpcError code message)) : Except Exception UniValue) = .error e) :
    Readable e.caught := by
  cases he
  exact readable_jsonrpcError code h

/-- What goes wrong is reported in readable text. -/
theorem Answers.readable_error {g : Process} (hg : g.tableRPC.ReadableOutcomes)
    {jreq : JSONRPCRequest} {r : UniValue} {a : Answer} (h : Answers g jreq r a) (hr : Readable r)
    (e : Exception) (he : a.result = .error e) : Readable e.caught := by
  have hmessages : ∀ message ∈ [cstr "Invalid Request object", cstr "Missing method",
      cstr "Method must be a string", cstr "Params must be an array or object",
      cstr "Method not found", cstr "Unknown named parameter "], message.all (· < 0x80) := by
    decide
  have hmessage := fun message hm => readText_ascii (hmessages message hm)
  cases h with
  | notObject => exact readable_thrown _ (hmessage _ (by simp)) e he
  | badMethod =>
    refine readable_thrown _ ?_ e he
    unfold methodMessage
    split <;> exact hmessage _ (by simp)
  | badParams => exact readable_thrown _ (hmessage _ (by simp)) e he
  | notFound => exact readable_thrown _ (hmessage _ (by simp)) e he
  | refused ho hm hf hp hname ht =>
    have hparams : Readable (paramsOf r) := readable_member hr ho _
    exact readable_thrown _ ((hmessage _ (by simp)).append (readText_key hparams hp hname)) e he
  | @called pcmd named hc =>
    have houtcome := hg _ pcmd hc.found named
    cases hactor : pcmd.actor named with
    | ok v => simp [hactor, Except.mapError] at he
    | error thrown =>
      obtain rfl : Exception.univalue thrown.translated = e := by
        simpa [hactor, Except.mapError] using he
      rw [hactor] at houtcome
      cases thrown with
      | std what => exact readable_jsonrpcError _ houtcome
      | univalue v => exact houtcome

theorem Answers.readable_ok {g : Process} (hg : g.tableRPC.ReadableOutcomes)
    {jreq : JSONRPCRequest} {r v : UniValue} {a : Answer} (h : Answers g jreq r a)
    (hv : a.result = .ok v) : Readable v := by
  obtain ⟨pcmd, named, hc, hactor⟩ := h.of_ok hv
  have houtcome := hg _ pcmd hc.found named
  rwa [hactor] at houtcome

theorem Answer.replyObj_eq (a : Answer) :
    a.replyObj = match a.result with
      | .ok v => jsonrpcReplyObj v null a.id
      | .error e => jsonrpcReplyObj null e.caught a.id := by
  unfold Answer.replyObj
  cases a.result with
  | ok v => rfl
  | error e => cases e <;> rfl

theorem isObject_jsonrpcReplyObj (result error id : UniValue) :
    (jsonrpcReplyObj result error id).isObject := by
  rw [jsonrpcReplyObj_eq]
  rfl

theorem Answer.isObject_replyObj (a : Answer) : a.replyObj.isObject := by
  rw [Answer.replyObj_eq]
  cases a.result <;> exact isObject_jsonrpcReplyObj _ _ _

theorem Answers.readable_replyObj {g : Process} (hg : g.tableRPC.ReadableOutcomes)
    {jreq : JSONRPCRequest} {r : UniValue} {a : Answer} (h : Answers g jreq r a) (hr : Readable r)
    (hid : jreq.id = null) : Readable a.replyObj := by
  have hreplyId : Readable a.id := by
    rw [h.id_eq hid]
    exact readable_replyId hr
  rw [Answer.replyObj_eq]
  cases hresult : a.result with
  | ok v => exact readable_jsonrpcReplyObj (h.readable_ok hg hresult) readable_null hreplyId
  | error e =>
    exact readable_jsonrpcReplyObj readable_null (h.readable_error hg hr e hresult) hreplyId

/-! ## What a reply says -/

/-- `v` has the keys of a reply, the id, and no more than one of a result and an error. -/
def IsReply (id v : UniValue) : Prop :=
  ∃ result error, (result.isNull ∨ error.isNull) ∧
    v = ⟨.vobj, [], [cstr "result", cstr "error", cstr "id"], [result, error, id]⟩

theorem isNull_canon (v : UniValue) : v.canon.isNull = v.isNull := by
  obtain ⟨typ, val, keys, values⟩ := v
  cases typ <;> rfl

theorem isReply_canon {result error id : UniValue} (hid : id.canon = id) :
    IsReply id (jsonrpcReplyObj result error id).canon := by
  rw [jsonrpcReplyObj_eq]
  refine ⟨(if error.isNull then result else null).canon, error.canon, ?_, ?_⟩
  · rw [isNull_canon, isNull_canon]
    cases error.isNull
    · exact .inl rfl
    · exact .inr rfl
  · simp [canon, canonList, hid]

theorem Answers.isReply {g : Process} {jreq : JSONRPCRequest} {r : UniValue} {a : Answer}
    (h : Answers g jreq r a) (hr : r.canon = r) (hid : jreq.id = null) :
    IsReply (replyId r) a.replyObj.canon := by
  have hcanon := canon_replyId hr
  rw [Answer.replyObj_eq, h.id_eq hid]
  cases a.result with
  | ok v => exact isReply_canon hcanon
  | error e => exact isReply_canon hcanon

/-! ## Sent and read back -/

/-- The reply value that is built for what was read. -/
def builtReply (g : Process) (jreq : JSONRPCRequest) : Bool × UniValue → UniValue
  | (accepted, u) =>
    if accepted && u.isObject then (answerTo g jreq u).replyObj
    else if accepted && u.isArray then
      ⟨.varr, [], [], u.values.map (fun r => (answerTo g jreq r).replyObj)⟩
    else jsonrpcReplyObj null (jsonrpcError rpcParseError (parseErrorMessage accepted)) null

/-- `v` is a reply to what was read: one, or one for each element of a batch. -/
def Replies : Bool × UniValue → UniValue → Prop
  | (accepted, u), v =>
    if accepted && u.isObject then IsReply (idOf u) v
    else if accepted && u.isArray then
      ∃ vs, v = ⟨.varr, [], [], vs⟩ ∧ List.Forall₂ (fun r v => IsReply (replyId r) v) u.values vs
    else IsReply null v

theorem Answer.write_of_verdict {a : Answer} (hw : ∀ v, a.result = .ok v → Writable v)
    (hid : Writable a.id) {ret : Bool} {nStatus : Nat} {s : Bytes}
    (h : verdict a.text a.id = .ok (ret, nStatus, s)) :
    ∃ o, write 0 0 a.replyObj = .ok o ∧ s = o ++ cstr "\n" := by
  unfold Answer.text at h
  rw [Answer.replyObj_eq]
  cases hresult : a.result with
  | ok v =>
    obtain ⟨t, ht⟩ := (jsonrpcReply_ok_iff v null a.id).mpr
      ((writable_jsonrpcReplyObj _ _ _).mpr ⟨fun _ => hw v hresult, writable_null, hid⟩)
    obtain ⟨o, ho, hs⟩ := bind_ok_iff.mp ht
    simp only [hresult, Except.bind, ht, verdict, Except.ok.injEq, Prod.mk.injEq] at h
    exact ⟨o, ho, h.2.2.symm.trans (Except.ok.inj hs).symm⟩
  | error e =>
    simp only [hresult, Except.bind, verdict] at h
    cases hreply : errorReply e.caught a.id with
    | error e' => simp [hreply, Except.map] at h
    | ok reply =>
      obtain ⟨n, t⟩ := reply
      obtain ⟨o, ho, hs⟩ := bind_ok_iff.mp (errorReply_text hreply)
      simp only [hreply, Except.map, Except.ok.injEq, Prod.mk.injEq] at h
      exact ⟨o, ho, h.2.2.symm.trans (Except.ok.inj hs).symm⟩

section
variable {g : Process} {w : World} {req : Req} {u : UniValue}

theorem builtReply_object (hg : g.tableRPC.ReadableOutcomes)
    (hr : read (w.request req).inputBuffer = (true, u)) (hu : u.isObject) :
    Readable (answerTo g (startRequest w req) u).replyObj ∧
      IsReply (idOf u) (answerTo g (startRequest w req) u).replyObj.canon := by
  have hbalanced := balanced_read hr (.inl hu)
  have hanswers := answers (fun _ => hbalanced) g (startRequest w req)
  have hreply := hanswers.isReply (canon_read hr (.inl hu)) rfl
  rw [replyId, if_pos hu] at hreply
  exact ⟨hanswers.readable_replyObj hg (readable_read hr (.inl hu)) rfl, hreply⟩

theorem builtReply_element {r : UniValue} (hg : g.tableRPC.ReadableOutcomes)
    (hr : read (w.request req).inputBuffer = (true, u)) (hu : Container u) (hmem : r ∈ u.values) :
    Readable (answerTo g (startRequest w req) r).replyObj ∧
      IsReply (replyId r) (answerTo g (startRequest w req) r).replyObj.canon := by
  obtain ⟨-, hanswers, -⟩ := batch_answer hr hu hmem g
  exact ⟨hanswers.readable_replyObj hg (readable_element hu (readable_read hr hu) hmem) rfl,
    hanswers.isReply (canon_element hu (canon_read hr hu) hmem) rfl⟩

/-- Every reply built is readable, and is one to what was read. -/
theorem builtReply_readable (hg : g.tableRPC.ReadableOutcomes) (r : Bool × UniValue)
    (hr : read (w.request req).inputBuffer = r) :
    Readable (builtReply g (startRequest w req) r) ∧
      Container (builtReply g (startRequest w req) r) ∧
      Replies r (builtReply g (startRequest w req) r).canon := by
  obtain ⟨accepted, u⟩ := r
  unfold builtReply Replies
  simp only
  split
  next ho =>
    obtain ⟨rfl, hobject⟩ : accepted = true ∧ u.isObject = true := by simpa using ho
    obtain ⟨hreadable, hreply⟩ := builtReply_object hg hr hobject
    exact ⟨hreadable, .inl (Answer.isObject_replyObj _), hreply⟩
  next =>
    split
    next ha =>
      obtain ⟨rfl, harray⟩ : accepted = true ∧ u.isArray = true := by simpa using ha
      have helement := fun r hmem => builtReply_element (r := r) hg hr (.inr harray) hmem
      refine ⟨.array ?_, .inr rfl, _, rfl, ?_⟩
      · simpa using fun r hmem => (helement r hmem).1
      · rw [canonList_eq_map, List.map_map, List.forall₂_map_right_iff, List.forall₂_same]
        exact fun r hmem => (helement r hmem).2
    next =>
      have hmessage : ReadText (parseErrorMessage accepted) := by
        cases accepted <;> exact readText_ascii (by decide)
      exact ⟨readable_jsonrpcReplyObj readable_null (readable_jsonrpcError _ hmessage)
        readable_null, .inl (isObject_jsonrpcReplyObj _ _ _), isReply_canon rfl⟩

/-- The text that is sent is the reply that was built, and a newline. -/
theorem sent_text {ret : Bool} {reply : Reply} {calls : List (CRPCCommand × JSONRPCRequest)}
    (ha : Authorized (w.request req)) (hg : g.tableRPC.ReadableOutcomes)
    (h : Sends g w req ret reply calls) :
    ∃ s, reply.body = s ++ cstr "\n" ∧
      write 0 0 (builtReply g (startRequest w req) (read (w.request req).inputBuffer)) = .ok s := by
  rcases hr : read (w.request req).inputBuffer with ⟨accepted, u⟩
  unfold builtReply
  simp only
  split
  next ho =>
    obtain ⟨rfl, hobject⟩ : accepted = true ∧ u.isObject = true := by simpa using ho
    have hbalanced := balanced_read hr (.inl hobject)
    have hanswers := answers (fun _ => hbalanced) g (startRequest w req)
    obtain ⟨⟨ret', nStatus, s⟩, hv⟩ := verdict_ok_of_sends ha hr hobject h
    obtain ⟨-, rfl, -⟩ := h.unique (sends_object ha hr hobject rfl hv)
    obtain ⟨o, ho, hs⟩ := Answer.write_of_verdict
      (fun v hv => (hanswers.readable_ok hg hv).writable)
      (hanswers.writable_id (fun _ => hbalanced) rfl) hv
    exact ⟨o, hs, ho⟩
  next =>
    split
    next hbatch =>
      obtain ⟨rfl, harray⟩ : accepted = true ∧ u.isArray = true := by simpa using hbatch
      have hreadable : Readable
          ⟨.varr, [], [], u.values.map (fun r => (answerTo g (startRequest w req) r).replyObj)⟩ :=
        .array (by simpa using fun r hmem => (builtReply_element hg hr (.inr harray) hmem).1)
      obtain ⟨s, hs⟩ := (write_ok_iff 0 0 _).mpr hreadable.writable
      have htext : batchText (u.values.map (answerTo g (startRequest w req))) =
          .ok (s ++ cstr "\n") := by
        rw [batchText, List.map_map, Function.comp_def, hs]
        rfl
      obtain ⟨-, rfl, -⟩ := h.unique (served_batch ha hr harray (by rw [htext, verdict]))
      exact ⟨s, rfl, hs⟩
    next hother =>
      have hu : accepted → ¬ (u.isObject ∨ u.isArray) := by
        rintro rfl
        simp_all
      obtain ⟨t, ht, hsends⟩ := sends_parseError ha hr hu
      obtain ⟨-, rfl, -⟩ := h.unique hsends
      obtain ⟨o, ho, hs⟩ := bind_ok_iff.mp ht
      exact ⟨o, (Except.ok.inj hs).symm, ho⟩

/-- Every JSON-RPC reply is one line of text that `read` accepts, and reads as the reply that was
built: under the id of the request, with no more than one of a result and an error. -/
theorem reply_read_back {ret : Bool} {reply : Reply}
    {calls : List (CRPCCommand × JSONRPCRequest)} (ha : Authorized (w.request req))
    (hg : g.tableRPC.ReadableOutcomes) (h : Sends g w req ret reply calls) :
    ∃ s built, reply.body = s ++ cstr "\n" ∧ (∀ c ∈ s, 0x20 ≤ c) ∧
      built = builtReply g (startRequest w req) (read (w.request req).inputBuffer) ∧
      write 0 0 built = .ok s ∧ read reply.body = (true, built.canon) ∧
      Replies (read (w.request req).inputBuffer) built.canon := by
  obtain ⟨s, hbody, hwrite⟩ := sent_text ha hg h
  obtain ⟨hreadable, hcontainer, hreplies⟩ := builtReply_readable hg _ rfl
  obtain ⟨hread, hge⟩ := read_written hreadable hcontainer hwrite
  exact ⟨s, _, hbody, hge, rfl, hwrite, by rw [hbody, hread], hreplies⟩

end

def uptimeBody : Bytes := cstr "\x7b\"id\":[1,\"a\\n\"],\"method\":\"uptime\"\x7d"

theorem reply_read_back_uptime :
    ∃ ret reply calls, Sends builtins (.holding (.post [] uptimeBody)) 0 ret reply calls ∧
      ∃ s built, reply.body = s ++ cstr "\n" ∧ (∀ c ∈ s, 0x20 ≤ c) ∧
        built = builtReply builtins (startRequest (.holding (.post [] uptimeBody)) 0)
          (read uptimeBody) ∧
        write 0 0 built = .ok s ∧ read reply.body = (true, built.canon) ∧
        Replies (read uptimeBody) built.canon := by
  have hread : read uptimeBody = (true, (read uptimeBody).2) ∧ (read uptimeBody).2.isObject := by
    decide +kernel
  have hbalanced := balanced_read hread.1 (.inl hread.2)
  have hanswers := answers (fun _ => hbalanced) builtins
    (startRequest (.holding (.post [] uptimeBody)) 0)
  obtain ⟨ret, nStatus, s, hv, -⟩ := verdict_of_tame hanswers
    (hanswers.writable_id (fun _ => hbalanced) rfl) (fun pcmd named e hc hactor => by
      obtain ⟨hbuiltin, -⟩ := CRPCTable.find_new hc.found
      rcases builtin_outcome hbuiltin named with h | h | h | h | h <;> rw [hactor] at h <;> cases h
      exact ⟨⟨_, code_jsonrpcError fitsInt_codes.2.2.2.1 _⟩, writable_jsonrpcError _ _⟩)
  have hsends := sends_object (authorized_post [] uptimeBody) hread.1 hread.2 rfl hv
  exact ⟨_, _, _, hsends, reply_read_back (authorized_post [] uptimeBody) readableOutcomes_new
    hsends⟩

end JsonRpcServer

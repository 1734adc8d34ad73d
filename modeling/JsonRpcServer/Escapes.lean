import JsonRpcServer.BatchReplies

/-!
# Exceptions and the handler

`JSONErrorReply` runs inside a `catch` clause and may throw itself: it asks the
error for its code and writes it. What it throws leaves the handler.
-/
namespace JsonRpcServer

open UniValue

/-- The code `JSONErrorReply` finds in an error. -/
def HasCode (objError : UniValue) : Prop :=
  ∃ code, (objError.findValue (cstr "code") >>= getInt) = .ok code

theorem errorReply_ok_iff {objError id : UniValue} (hid : Writable id) :
    (∃ reply, errorReply objError id = .ok reply) ↔ HasCode objError ∧ Writable objError := by
  have hwritable : Writable objError ↔ ∃ s, jsonrpcReply null objError id = .ok s := by
    rw [jsonrpcReply_ok_iff, writable_jsonrpcReplyObj]
    simp [writable_null, hid]
  rw [hwritable]
  constructor
  · rintro ⟨reply, h⟩
    obtain ⟨code, hcode, h⟩ := bind_ok_iff.mp h
    obtain ⟨s, hs, -⟩ := bind_ok_iff.mp h
    exact ⟨⟨code, hcode⟩, s, hs⟩
  · rintro ⟨⟨code, hcode⟩, s, hs⟩
    exact ⟨(errorStatus code, s), bind_ok_iff.mpr ⟨code, hcode, bind_ok_iff.mpr ⟨s, hs, rfl⟩⟩⟩

/-! ## Replies before the `try` block -/

theorem sends_badMethod (g : Process) {w : World} {req : Req}
    (h : (w.request req).command ≠ .post) :
    Sends g w req false
      ⟨httpBadMethod, [], cstr "JSONRPC server handles only POST requests"⟩ [] := by
  refine ⟨_, servedBy_badMethod (tryRequest g) h, rfl, ?_, ?_, ?_, ?_⟩
  all_goals simp +contextual [World.queued, World.updateRequest]

theorem sends_unauthorized (g : Process) {w : World} {req : Req}
    (h : (w.request req).command = .post)
    (hh : World.lookupHeader (w.request req).inputHeaders (cstr "authorization") = none) :
    Sends g w req false
      ⟨httpUnauthorized, [(cstr "WWW-Authenticate", wwwAuthHeaderData)], []⟩ [] := by
  refine ⟨_, servedBy_unauthorized (tryRequest g) h hh, rfl, ?_, ?_, ?_, ?_⟩
  all_goals simp +contextual [World.queued, World.headed, World.updateRequest]

/-! ## What is thrown and what is replied -/

def Threw (g : Process) (jreq : JSONRPCRequest) (r : UniValue) : Prop :=
  ∃ pcmd named e, Calls g jreq r pcmd named ∧ pcmd.actor named = .error e

/-- `o` is the reply object with what the actor of `r` has thrown. -/
def Carries (g : Process) (jreq : JSONRPCRequest) (r : UniValue) (o : Bytes) : Prop :=
  ∀ pcmd named e, Calls g jreq r pcmd named → pcmd.actor named = .error e →
    write 0 0 (jsonrpcReplyObj null e.translated (idOf r)) = .ok o

/-- The handler returns after it has sent a reply, and the reply carries what actors have thrown. -/
def Handled (g : Process) (w : World) (req : Req) : Prop :=
  ∃ ret reply calls, Sends g w req ret reply calls ∧
    (Authorized (w.request req) → ∀ u, read (w.request req).inputBuffer = (true, u) →
      (u.isObject → Threw g (startRequest w req) u →
        ∃ o, reply.body = o ++ cstr "\n" ∧ Carries g (startRequest w req) u o) ∧
      (u.isArray → (∃ r ∈ u.values, Threw g (startRequest w req) r) →
        ∃ os, reply.body = cstr "[" ++ (cstr ",").intercalate os ++ cstr "]" ++ cstr "\n" ∧
          List.Forall₂ (Carries g (startRequest w req)) u.values os))

/-- What an actor's outcome puts into a reply can be written. -/
def WritableOutcome : Except Exception UniValue → Prop
  | .ok v => Writable v
  | .error e => Writable e.translated

/-- A single request: what is thrown has a code and can be written. A batch in which something is
thrown: every outcome can be written. -/
def Tame (g : Process) (jreq : JSONRPCRequest) (u : UniValue) : Prop :=
  (u.isObject → ∀ pcmd named e, Calls g jreq u pcmd named → pcmd.actor named = .error e →
    HasCode e.translated ∧ Writable e.translated) ∧
  (u.isArray → (∃ r ∈ u.values, Threw g jreq r) → ∀ r ∈ u.values, ∀ pcmd named,
    Calls g jreq r pcmd named → WritableOutcome (pcmd.actor named))

theorem carries_of_write {g : Process} {jreq : JSONRPCRequest} {r : UniValue} {o : Bytes}
    (hr : Balanced r) (ho : write 0 0 (answerTo g jreq r).replyObj = .ok o) :
    Carries g jreq r o := by
  intro pcmd named e hc hactor
  rw [hc.answerTo hr, hactor] at ho
  exact ho

theorem verdict_ok_of_sends {g : Process} {w : World} {req : Req} {u : UniValue} {ret : Bool}
    {reply : Reply} {calls : List (CRPCCommand × JSONRPCRequest)} (ha : Authorized (w.request req))
    (hr : read (w.request req).inputBuffer = (true, u)) (hu : u.isObject)
    (h : Sends g w req ret reply calls) :
    ∃ v, verdict (answerTo g (startRequest w req) u).text (answerTo g (startRequest w req) u).id =
      .ok v := by
  obtain ⟨w', hserved, -⟩ := h
  rw [served_object ha hr hu] at hserved
  cases hv : verdict (answerTo g (startRequest w req) u).text
      (answerTo g (startRequest w req) u).id with
  | ok v => exact ⟨v, rfl⟩
  | error e => simp [hv, World.finish] at hserved

/-- A tame request is replied to, with the error if there is one. -/
theorem verdict_of_tame {g : Process} {jreq : JSONRPCRequest} {r : UniValue} {a : Answer}
    (h : Answers g jreq r a) (hid : Writable a.id)
    (htame : ∀ pcmd named e, Calls g jreq r pcmd named → pcmd.actor named = .error e →
      HasCode e.translated ∧ Writable e.translated) :
    ∃ ret nStatus s, verdict a.text a.id = .ok (ret, nStatus, s) ∧
      ∀ e, a.result = .error e → jsonrpcReply null e.caught a.id = .ok s := by
  obtain ⟨-, -, hparse, -, -⟩ := fitsInt_codes
  unfold Answer.text
  cases hresult : a.result with
  | ok v =>
    by_cases hw : Writable v
    · obtain ⟨s, hs⟩ := (jsonrpcReply_ok_iff v null a.id).mpr
        ((writable_jsonrpcReplyObj _ _ _).mpr ⟨fun _ => hw, writable_null, hid⟩)
      exact ⟨true, httpOk, s, by simp only [Except.bind, hs, verdict], by simp⟩
    · obtain ⟨what, hwhat⟩ := jsonrpcReply_throws hw a.id
      obtain ⟨s, -, hreply⟩ := errorReply_jsonrpcError hparse what hid
      refine ⟨false, errorStatus rpcParseError, s, ?_, by simp⟩
      simp only [Except.bind, hwhat, verdict, Exception.caught, hreply]
      rfl
  | error e =>
    have hreply : ∃ reply, errorReply e.caught a.id = .ok reply := by
      rcases h.of_error hresult with ⟨code, message, hcode, rfl⟩ |
        ⟨pcmd, named, thrown, hc, hactor, rfl⟩
      · obtain ⟨s, -, hreply⟩ := errorReply_jsonrpcError hcode message hid
        exact ⟨_, hreply⟩
      · exact (errorReply_ok_iff hid).mpr (htame pcmd named thrown hc hactor)
    obtain ⟨⟨nStatus, s⟩, hreply⟩ := hreply
    refine ⟨false, nStatus, s, ?_, ?_⟩
    · simp only [Except.bind, verdict, hreply]
      rfl
    · rintro e' ⟨⟩
      exact errorReply_text hreply

/-! ## Single requests and batches -/

theorem handled_object {g : Process} {w : World} {req : Req} {u : UniValue}
    (ha : Authorized (w.request req)) (hr : read (w.request req).inputBuffer = (true, u))
    (hu : u.isObject) (htame : Tame g (startRequest w req) u) : Handled g w req := by
  have hbalanced : Balanced u := balanced_read hr (.inl hu)
  have hanswers := answers (fun _ => hbalanced) g (startRequest w req)
  obtain ⟨ret, nStatus, s, hv, herror⟩ :=
    verdict_of_tame hanswers (hanswers.writable_id (fun _ => hbalanced) rfl) (htame.1 hu)
  refine ⟨_, _, _, sends_object ha hr hu rfl hv, fun _ u' hr' => ⟨?_, ?_⟩⟩
  · obtain rfl : u = u' := by simpa [hr] using hr'
    rintro - ⟨pcmd, named, e, hc, hactor⟩
    have hreply := herror (.univalue e.translated) (by rw [hc.answerTo hbalanced, hactor]; rfl)
    obtain ⟨o, ho, hs⟩ := bind_ok_iff.mp hreply
    refine ⟨o, (Except.ok.inj hs).symm, carries_of_write hbalanced ?_⟩
    rw [hc.answerTo hbalanced, hactor] at ho ⊢
    exact ho
  · obtain rfl : u = u' := by simpa [hr] using hr'
    intro harray
    simp_all [isObject, isArray]

theorem not_handled_object {g : Process} {w : World} {req : Req} {u : UniValue} {pcmd : CRPCCommand}
    {named : JSONRPCRequest} {e : Exception} (ha : Authorized (w.request req))
    (hr : read (w.request req).inputBuffer = (true, u))
    (hc : Calls g (startRequest w req) u pcmd named) (hactor : pcmd.actor named = .error e)
    (h : ¬ (HasCode e.translated ∧ Writable e.translated)) : ¬ Handled g w req := by
  rintro ⟨ret, reply, calls, hsends, -⟩
  have hbalanced : Balanced u := balanced_read hr (.inl hc.isObject)
  obtain ⟨v, hv⟩ := verdict_ok_of_sends ha hr hc.isObject hsends
  rw [hc.answerTo hbalanced, hactor] at hv
  cases hreply : errorReply e.translated (idOf u) with
  | ok reply => exact h ((errorReply_ok_iff (writable_idOf hbalanced)).mp ⟨reply, hreply⟩)
  | error e' =>
    simp [Answer.text, Except.mapError, Except.bind, verdict, Exception.caught, hreply,
      Except.map] at hv

/-- An element's reply object can be written when its actor's outcome can. -/
theorem writable_replyObj_iff {w : World} {req : Req} {u r : UniValue}
    (hr : read (w.request req).inputBuffer = (true, u)) (hu : Container u) (hmem : r ∈ u.values)
    (g : Process) :
    Writable (answerTo g (startRequest w req) r).replyObj ↔
      ∀ pcmd named, Calls g (startRequest w req) r pcmd named →
        WritableOutcome (pcmd.actor named) := by
  obtain ⟨hbalanced, hanswers, hid⟩ := batch_answer hr hu hmem g
  rw [Answer.writable_replyObj hid]
  constructor
  · rintro ⟨hok, herror⟩ pcmd named hc
    rw [hc.answerTo hbalanced] at hok herror
    cases hactor : pcmd.actor named with
    | ok v => exact hok v (by rw [hactor]; rfl)
    | error e => exact herror (.univalue e.translated) (by rw [hactor]; rfl)
  · intro h
    constructor
    · intro v hv
      obtain ⟨pcmd, named, hc, hactor⟩ := hanswers.of_ok hv
      have houtcome := h pcmd named hc
      rwa [hactor] at houtcome
    · intro e he
      rcases hanswers.of_error he with
        ⟨code, message, -, rfl⟩ | ⟨pcmd, named, thrown, hc, hactor, rfl⟩
      · exact writable_jsonrpcError code message
      · have houtcome := h pcmd named hc
        rwa [hactor] at houtcome

theorem handled_array {g : Process} {w : World} {req : Req} {u : UniValue}
    (ha : Authorized (w.request req)) (hr : read (w.request req).inputBuffer = (true, u))
    (hu : u.isArray) (htame : Tame g (startRequest w req) u) : Handled g w req := by
  have hobject : ¬ u.isObject := by simp_all [isObject, isArray]
  by_cases hall : ∀ r ∈ u.values, Writable (answerTo g (startRequest w req) r).replyObj
  · have hwritable : ∀ a ∈ u.values.map (answerTo g (startRequest w req)),
        Writable a.replyObj := by simpa using hall
    obtain ⟨os, hos, htext⟩ := batchText_writable hwritable
    refine ⟨_, _, _, served_batch ha hr hu (by rw [htext, verdict]), fun _ u' hr' => ?_⟩
    obtain rfl : u = u' := by simpa [hr] using hr'
    refine ⟨fun ho => absurd ho hobject, fun _ _ => ⟨os, rfl, ?_⟩⟩
    have helements := (List.forall₂_and_left _ _).mpr
      ⟨fun _ hmem => hmem, List.forall₂_map_left_iff.mp hos⟩
    refine helements.imp (fun r o h => ?_)
    exact carries_of_write (batch_answer hr (.inr hu) h.1 g).1 h.2
  · obtain ⟨r, hmem, hw⟩ : ∃ r ∈ u.values,
        ¬ Writable (answerTo g (startRequest w req) r).replyObj := by simpa using hall
    obtain ⟨reply, calls, hsends, -⟩ :=
      sends_unwritable (g := g) ha hr hu ⟨_, List.mem_map_of_mem hmem, hw⟩
    refine ⟨_, _, _, hsends, fun _ u' hr' => ?_⟩
    obtain rfl : u = u' := by simpa [hr] using hr'
    refine ⟨fun ho => absurd ho hobject, fun _ hthrew => absurd ?_ hw⟩
    exact (writable_replyObj_iff hr (.inr hu) hmem g).mpr (htame.2 hu hthrew r hmem)

theorem not_handled_array {g : Process} {w : World} {req : Req} {u r : UniValue}
    {pcmd : CRPCCommand} {named : JSONRPCRequest} (ha : Authorized (w.request req))
    (hr : read (w.request req).inputBuffer = (true, u)) (hu : u.isArray)
    (hthrew : ∃ r ∈ u.values, Threw g (startRequest w req) r) (hmem : r ∈ u.values)
    (hc : Calls g (startRequest w req) r pcmd named)
    (h : ¬ WritableOutcome (pcmd.actor named)) : ¬ Handled g w req := by
  rintro ⟨ret, reply, calls, hsends, hcarries⟩
  have hw : ¬ Writable (answerTo g (startRequest w req) r).replyObj :=
    fun hw => h ((writable_replyObj_iff hr (.inr hu) hmem g).mp hw pcmd named hc)
  obtain ⟨reply', calls', hsends', hhead⟩ :=
    sends_unwritable ha hr hu ⟨_, List.mem_map_of_mem hmem, hw⟩
  obtain ⟨-, rfl, -⟩ := hsends.unique hsends'
  obtain ⟨os, hbody, -⟩ := (hcarries ha u hr).2 hu hthrew
  rw [hbody, cstr_brackets.1] at hhead
  simp at hhead

/-- The handler returns with its reply sent, and the reply carries what was thrown, exactly when
the requests it reads are tame. -/
theorem handled_iff (g : Process) (w : World) (req : Req) :
    Handled g w req ↔
      (Authorized (w.request req) → ∀ u, read (w.request req).inputBuffer = (true, u) →
        Tame g (startRequest w req) u) := by
  constructor
  · intro h ha u hr
    constructor
    · intro hu pcmd named e hc hactor
      by_contra hbad
      exact not_handled_object ha hr hc hactor hbad h
    · intro hu hthrew r hmem pcmd named hc
      by_contra hbad
      exact not_handled_array ha hr hu hthrew hmem hc hbad h
  · intro htame
    by_cases hpost : (w.request req).command = .post
    swap
    · exact ⟨_, _, _, sends_badMethod g hpost, fun ha => absurd ha.1 hpost⟩
    cases hh : World.lookupHeader (w.request req).inputHeaders (cstr "authorization") with
    | none =>
      refine ⟨_, _, _, sends_unauthorized g hpost hh, fun ha => ?_⟩
      simp [Authorized, hh] at ha
    | some value =>
      have ha : Authorized (w.request req) := ⟨hpost, by rw [hh]; rfl⟩
      rcases hr : read (w.request req).inputBuffer with ⟨accepted, u⟩
      by_cases hu : accepted ∧ (u.isObject ∨ u.isArray)
      · obtain ⟨rfl, ho | harray⟩ := hu
        · exact handled_object ha hr ho (htame ha u hr)
        · exact handled_array ha hr harray (htame ha u hr)
      · obtain ⟨s, -, hsends⟩ := sends_parseError (g := g) ha hr (fun h h' => hu ⟨h, h'⟩)
        refine ⟨_, _, _, hsends, fun _ u' hr' => ?_⟩
        obtain ⟨rfl, rfl⟩ : accepted = true ∧ u = u' := by simpa [hr] using hr'
        simp only [true_and, not_or] at hu
        exact ⟨fun ho => absurd ho hu.1, fun harray => absurd harray hu.2⟩

/-- A command that throws a string. -/
def refuser : CRPCCommand :=
  ⟨cstr "refuse", fun _ => .error (.univalue (ofType .vstr (cstr "no"))), []⟩

def withRefuser : Process :=
  ⟨(CRPCTable.new.appendCommand false (cstr "refuse") (some refuser)).2, default⟩

def refuseBody : Bytes := cstr "\x7b\"method\":\"refuse\"\x7d"

theorem not_handled_refuser : ¬ Handled withRefuser (.holding (.post [] refuseBody)) 0 := by
  have hread : read refuseBody = (true, calling (cstr "refuse")) := by decide +kernel
  have hfound : withRefuser.tableRPC.find (cstr "refuse") = some refuser := by
    rw [withRefuser, CRPCTable.find_appendCommand, if_pos (by decide +kernel)]
  refine not_handled_object (authorized_post [] refuseBody) hread (calls_calling hfound) rfl ?_
  rintro ⟨⟨code, hcode⟩, -⟩
  cases hcode

end JsonRpcServer

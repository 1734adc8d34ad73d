import JsonRpcServer.Isolation
import JsonRpcServer.ReplyTexts

/-!
# Replies on the wire

What clients get from the running server, whatever the order of its steps: the
two refusals, or a line of JSON that reads as replies to what the client sent.
-/
namespace JsonRpcServer

open Programs UniValue

/-- A reply that a client of the JSON-RPC server can use. -/
inductive WireReply (r : EvhttpRequest) : Reply → Prop where
  | badMethod (h : r.command ≠ .post) : WireReply r
      ⟨httpBadMethod, r.outputHeaders, cstr "JSONRPC server handles only POST requests"⟩
  | unauthorized (h : r.command = .post)
      (hh : World.lookupHeader r.inputHeaders (cstr "authorization") = none) : WireReply r
      ⟨httpUnauthorized, r.outputHeaders ++ [(cstr "WWW-Authenticate", wwwAuthHeaderData)], []⟩
  | json {nStatus : Nat} {s : Bytes} {v : UniValue} (ha : Authorized r)
      (hline : ∀ c ∈ s, 0x20 ≤ c) (hread : read (s ++ cstr "\n") = (true, v))
      (hreplies : Replies (read r.inputBuffer) v) : WireReply r
      ⟨nStatus, r.outputHeaders ++ [(cstr "Content-Type", cstr "application/json")], s ++ cstr "\n"⟩

section
variable {g : Process} {w : World} {req : Req}

/-- Where a reply is sent, nothing has left the handler. -/
theorem bodyVerdict_of_sends {ret : Bool} {reply : Reply} {calls : ActorCalls}
    (ha : Authorized (w.request req)) (h : Sends g w req ret reply calls) :
    ∃ nStatus s, bodyVerdict g (startRequest w req) (w.request req).inputBuffer =
      (.ok (ret, nStatus, s), calls) ∧ reply = jsonReply nStatus s := by
  have hserved := served_post (g := g) ha
  obtain ⟨w', hsent, hrest⟩ := h
  rcases hv : bodyVerdict g { JSONRPCRequest.new with uri := (w.request req).uri }
    (w.request req).inputBuffer with ⟨outcome, calls'⟩
  simp only [hv] at hserved
  cases outcome with
  | error e =>
    have hsame := hserved.symm.trans hsent
    simp [World.finish] at hsame
  | ok r =>
    obtain ⟨ret', nStatus, s⟩ := r
    obtain ⟨rfl, rfl, rfl⟩ := (sends_of_finish hserved).unique ⟨w', hsent, hrest⟩
    exact ⟨nStatus, s, hv, rfl⟩

/-- Commands that throw `JSONRPCError` values, or what is no error object, and return and throw
readable values. -/
theorem tame_of_readable (hg : g.tableRPC.ReadableOutcomes) (hc : g.tableRPC.ThrowsCodes)
    (jreq : JSONRPCRequest) (u : UniValue) : Tame g jreq u := by
  have hthrown : ∀ r pcmd named e, Calls g jreq r pcmd named → pcmd.actor named = .error e →
      HasCode e.translated ∧ Writable e.translated := by
    intro r pcmd named e hcalls hactor
    cases e with
    | std what =>
      exact ⟨⟨_, code_jsonrpcError fitsInt_codes.2.2.2.1 what⟩, writable_jsonrpcError _ what⟩
    | univalue v =>
      obtain ⟨code, message, hfits, rfl⟩ := hc _ pcmd hcalls.found named v hactor
      exact ⟨⟨_, code_jsonrpcError hfits message⟩, writable_jsonrpcError code message⟩
  refine ⟨fun _ => hthrown u, fun _ _ r _ pcmd named hcalls => ?_⟩
  have houtcome := hg _ pcmd hcalls.found named
  cases hactor : pcmd.actor named with
  | ok v =>
    rw [hactor] at houtcome
    exact houtcome.writable
  | error e => exact (hthrown r pcmd named e hcalls hactor).2

theorem sends_authorized (ha : Authorized (w.request req)) (hg : g.tableRPC.ReadableOutcomes)
    (hc : g.tableRPC.ThrowsCodes) : ∃ ret reply calls, Sends g w req ret reply calls := by
  have htame := tame_of_readable hg hc (startRequest w req)
  rcases hr : read (w.request req).inputBuffer with ⟨accepted, u⟩
  by_cases hu : accepted ∧ (u.isObject ∨ u.isArray)
  · obtain ⟨rfl, hobject | harray⟩ := hu
    · obtain ⟨ret, reply, calls, hsends, -⟩ := handled_object ha hr hobject (htame u)
      exact ⟨ret, reply, calls, hsends⟩
    · obtain ⟨ret, reply, calls, hsends, -⟩ := handled_array ha hr harray (htame u)
      exact ⟨ret, reply, calls, hsends⟩
  · obtain ⟨s, -, hsends⟩ := sends_parseError (g := g) ha hr fun h h' => hu ⟨h, h'⟩
    exact ⟨_, _, _, hsends⟩

theorem wireReply_respond (hg : g.tableRPC.ReadableOutcomes) (hc : g.tableRPC.ThrowsCodes)
    (w : World) (req : Req) :
    WireReply (w.request req) (respond g (w.request req)).reply := by
  unfold respond
  by_cases hpost : (w.request req).command = .post
  swap
  · rw [if_pos hpost]
    exact .badMethod hpost
  rw [if_neg (not_not.mpr hpost)]
  by_cases hh : World.lookupHeader (w.request req).inputHeaders (cstr "authorization") = none
  · rw [if_pos hh]
    exact .unauthorized hpost hh
  rw [if_neg hh]
  have ha : Authorized (w.request req) := ⟨hpost, Option.isSome_iff_ne_none.mpr hh⟩
  obtain ⟨ret, reply, calls, hsends⟩ := sends_authorized ha hg hc
  obtain ⟨nStatus, s, hv, rfl⟩ := bodyVerdict_of_sends ha hsends
  obtain ⟨text, rfl, hwrite⟩ := sent_text ha hg hsends
  obtain ⟨hreadable, hcontainer, hreplies⟩ := builtReply_readable (g := g) hg _ rfl
  obtain ⟨hread, hline⟩ := read_written hreadable hcontainer hwrite
  have hreply : (jsonRpcResponse g (w.request req)).reply =
      ⟨nStatus, (w.request req).outputHeaders ++
        [(cstr "Content-Type", cstr "application/json")], text ++ cstr "\n"⟩ := by
    have hv' : bodyVerdict g { JSONRPCRequest.new with uri := (w.request req).uri }
        (w.request req).inputBuffer = (.ok (ret, nStatus, text ++ cstr "\n"), calls) := hv
    simp only [jsonRpcResponse, hv']
  rw [hreply]
  exact .json ha hline hread hreplies

/-- In every interleaving a request has got nothing yet, or one reply its client can use. -/
theorem replies_on_the_wire (hg : g.tableRPC.ReadableOutcomes) (hc : g.tableRPC.ThrowsCodes)
    (hw : w.Fresh) {s : Server} (h : (Server.initial g w).Performs s) (req : Req) :
    (s.state.request req).sent = [] ∨
      ∃ reply, (s.state.request req).sent = [reply] ∧ WireReply (w.request req) reply := by
  rcases sent_isolated hw h req with hnone | hsent
  · exact .inl hnone
  · exact .inr ⟨_, hsent, wireReply_respond hg hc w req⟩

theorem replies_on_the_wire_builtins :
    let body := cstr "[1,\x7b\"method\":\"uptime\",\"id\":7\x7d]"
    let w : World := ⟨fun _ => .post [] body, [], [], 0⟩
    ∃ s, (Server.initial builtins w).Performs s ∧ (s.state.request 0).sent ≠ [] ∧
      ∃ reply, (s.state.request 0).sent = [reply] ∧ WireReply (w.request 0) reply := by
  intro body w
  have hw : w.Fresh := ⟨rfl, by simp [w, EvhttpRequest.post]⟩
  obtain ⟨s, h, hsent, -⟩ :=
    answers_one (s := Server.initial builtins w) (g := builtins) 0 rfl fun _ => rfl
  have hreplies := replies_on_the_wire readableOutcomes_new throwsCodes_new hw h 0
  exact ⟨s, h, hsent, hreplies.resolve_left hsent⟩

end

end JsonRpcServer

import JsonRpcServer.Answers
import JsonRpcServer.Isolation
import JsonRpcServer.Registrations

/-!
# More commands

A request depends on the dispatch table only through the methods it names, so
registering commands changes nothing for the requests that do not name them.
-/
namespace JsonRpcServer

open Programs Registries UniValue

/-- The methods that a body asks for: of a request object, or of those in a batch. -/
def methodsNamed (body : Bytes) : List Bytes :=
  let (accepted, u) := read body
  if accepted && u.isObject then [(methodOf u).val]
  else if accepted && u.isArray then
    (u.values.filter isObject).map (fun r => (methodOf r).val)
  else []

section
variable {g g' : Process}

theorem executed_congr (horder : g'.order = g.order) {request : JSONRPCRequest}
    (hfind : g'.tableRPC.find request.strMethod = g.tableRPC.find request.strMethod) :
    executed g' request = executed g request := by
  simp only [executed, CRPCTable.callOf, hfind, horder]

theorem answerTo_congr (horder : g'.order = g.order) {r : UniValue}
    (hr : r.isObject → Balanced r)
    (hfind : r.isObject →
      g'.tableRPC.find (methodOf r).val = g.tableRPC.find (methodOf r).val)
    (jreq : JSONRPCRequest) : answerTo g' jreq r = answerTo g jreq r := by
  unfold answerTo
  by_cases ho : r.isObject
  swap
  · simp [JSONRPCRequest.parse, ho, rpcThrow]
  rw [parse_balanced (hr ho) ho]
  by_cases hm : (methodOf r).isStr
  swap
  · simp [hm, rpcThrow]
  by_cases hp : ParamsFit (paramsOf r)
  swap
  · simp [hm, hp, rpcThrow]
  simp only [hm, hp, not_true, if_false]
  exact executed_congr horder (hfind ho)

theorem bodyVerdict_congr (horder : g'.order = g.order) {body : Bytes}
    (hfind : ∀ name ∈ methodsNamed body, g'.tableRPC.find name = g.tableRPC.find name)
    (jreq : JSONRPCRequest) : bodyVerdict g' jreq body = bodyVerdict g jreq body := by
  rcases hread : read body with ⟨accepted, u⟩
  simp only [methodsNamed, hread] at hfind
  simp only [bodyVerdict, hread]
  by_cases ho : accepted && u.isObject
  · obtain ⟨rfl, hu⟩ := Bool.and_eq_true_iff.mp ho
    rw [if_pos ho, List.forall_mem_singleton] at hfind
    rw [if_pos ho, if_pos ho, answerTo_congr horder (fun _ => balanced_read hread (.inl hu))
      fun _ => hfind]
  rw [if_neg ho] at hfind
  rw [if_neg ho, if_neg ho]
  by_cases ha : accepted && u.isArray
  swap
  · rw [if_neg ha, if_neg ha]
  obtain ⟨rfl, hu⟩ := Bool.and_eq_true_iff.mp ha
  rw [if_pos ha] at hfind
  have hanswers : u.values.map (answerTo g' jreq) = u.values.map (answerTo g jreq) := by
    refine List.map_congr_left fun r hr => ?_
    refine answerTo_congr horder (fun _ => ?_) (fun hobject => ?_) jreq
    · cases balanced_read hread (.inr hu) with
      | mk hlen h => exact h r hr
    · exact hfind _ (List.mem_map.mpr ⟨r, List.mem_filter.mpr ⟨hr, hobject⟩, rfl⟩)
  rw [if_pos ha, if_pos ha, hanswers]

theorem respond_congr (horder : g'.order = g.order) {r : EvhttpRequest}
    (hfind : ∀ name ∈ methodsNamed r.inputBuffer, g'.tableRPC.find name = g.tableRPC.find name) :
    respond g' r = respond g r := by
  simp only [respond, jsonRpcResponse, bodyVerdict_congr horder hfind]

end

/-! ## Registering -/

/-- Later calls give a name nothing new: it is held already, or none of them offers it openly. -/
def Settles (calls more : List AppendCall) (name : Bytes) : Prop :=
  (tableAfter calls).find name ≠ none ∨ firstAppended more name = none

theorem tableAfter_settled {calls more : List AppendCall} {name : Bytes}
    (h : Settles calls more name) :
    (tableAfter (calls ++ more)).find name = (tableAfter calls).find name := by
  have hall := congrFun (tableAfter_registry (calls ++ more)) name
  have hsome := congrFun (tableAfter_registry calls) name
  rw [List.map_append, Registry.run_append, Registry.run_apply, firstOpen_offers, ← hsome] at hall
  rcases h with hheld | hnone
  · obtain ⟨pcmd, hheld⟩ := Option.ne_none_iff_exists'.mp hheld
    rw [CRPCTable.registry, CRPCTable.registry, hheld, Option.some_or] at hall
    rw [hall, hheld]
  · rw [hnone, Option.or_none] at hall
    exact hall

/-- A server with more commands does for a request that names none of them what the one without
them does. -/
theorem registering_conservative (order : HashOrder) {calls more : List AppendCall} {w : World}
    (hw : w.Fresh) {s : Server}
    (h : (Server.initial ⟨tableAfter (calls ++ more), order⟩ w).Performs s) {req : Req}
    (hsettled : ∀ name ∈ methodsNamed (w.request req).inputBuffer, Settles calls more name) :
    AsAlone ⟨tableAfter calls, order⟩ w s req := by
  have hrespond : respond ⟨tableAfter (calls ++ more), order⟩ (w.request req) =
      respond ⟨tableAfter calls, order⟩ (w.request req) := by
    apply respond_congr
    · rfl
    · exact fun name hname => tableAfter_settled (hsettled name hname)
  constructor
  · rw [← hrespond]
    exact sent_isolated hw h req
  · rw [← hrespond]
    exact actors_isolated hw h req
  · rw [← hrespond]
    exact finished_isolated hw h
  · rw [← hrespond]
    exact answered_isolated hw h

theorem registering_conservative_getrpcinfo :
    let body := cstr "\x7b\"method\":\"getrpcinfo\"\x7d"
    let more : List AppendCall := [⟨false, cstr "getrpcinfo", ⟨cstr "getrpcinfo", stop, []⟩⟩,
      ⟨false, cstr "new", ⟨cstr "new", stop, []⟩⟩]
    ∃ s, (Server.initial ⟨tableAfter ([] ++ more), default⟩ (.holding (.post [] body))).Performs s ∧
      (s.state.request 0).sent ≠ [] ∧
      AsAlone ⟨tableAfter [], default⟩ (.holding (.post [] body)) s 0 := by
  intro body more
  obtain ⟨s, h, hsent, -⟩ := answers_one
    (s := Server.initial ⟨tableAfter ([] ++ more), default⟩ (.holding (.post [] body)))
    0 rfl fun _ => rfl
  refine ⟨s, h, hsent, registering_conservative default ⟨rfl, fun _ => ⟨rfl, rfl⟩⟩ h ?_⟩
  have hnamed : methodsNamed body = [cstr "getrpcinfo"] := by decide +kernel
  intro name hname
  rw [show ((World.holding (.post [] body)).request 0).inputBuffer = body from rfl, hnamed,
    List.mem_singleton] at hname
  subst hname
  refine .inl ?_
  have hfind := CRPCTable.find_new_eq (cstr "getrpcinfo")
  rw [tableAfter, CRPCTable.appendAll, List.foldl_nil, hfind]
  decide

end JsonRpcServer

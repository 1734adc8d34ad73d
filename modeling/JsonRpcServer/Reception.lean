import JsonRpcServer.Failures

/-!
# Which bodies are acted on

The handler goes on to `JSONRPCRequest::parse` or `JSONRPCExecBatch` exactly with
the trees of the texts that the grammar derives as an object or an array.
-/
namespace JsonRpcServer

open Programs UniValue HTTPRequest JsonText

/-- A breakpoint: the program stops when it gets here with such a value. -/
def breakWhere (p : UniValue → Bool) (u : UniValue) : TryM Bytes :=
  if p u then liftM (fault .assertion : Prog Bytes) else throw (.std [])

/-- The handler calls `parse` with `u`: a breakpoint there is hit. -/
def ReachesParse (w : World) (req : Req) (u : UniValue) : Prop :=
  servedBy (httpReqJsonrpcWith (tryRequestWith (breakWhere (· = u)) (breakWhere fun _ => false)))
    w req = none

/-- The handler calls `JSONRPCExecBatch` with `u`. -/
def ReachesBatch (w : World) (req : Req) (u : UniValue) : Prop :=
  servedBy (httpReqJsonrpcWith (tryRequestWith (breakWhere fun _ => false) (breakWhere (· = u))))
    w req = none

theorem run_breakWhere (p : UniValue → Bool) (u : UniValue) (jreq : JSONRPCRequest) (req : Req)
    (w : World) :
    (((breakWhere p u).run.run jreq).run ⟨some req, false⟩).run serve w =
      if p u then none else some (((.error (.std []), jreq), ⟨some req, false⟩), w) := by
  unfold breakWhere
  split
  · simp only [run_tryProg, StateT.run_map, StateT.run_monadLift]
    rfl
  · rfl

theorem run_sendText_stopped {strReply : TryM Bytes} {http : HTTPRequest} {jreq : JSONRPCRequest}
    {w : World} (h : ((strReply.run.run jreq).run http).run serve w = none) :
    (((sendText strReply).run.run jreq).run http).run serve w = none := by
  simp [sendText, ExceptT.run_bind, h]

theorem servedBy_stopped {tryBlock : TryM Unit} {w : World} {req : Req}
    (ha : Authorized (w.request req))
    (h : ((tryBlock.run.run .new).run ⟨some req, false⟩).run serve w = none) :
    servedBy (httpReqJsonrpcWith tryBlock) w req = none := by
  obtain ⟨method, hm, hmethod⟩ := run_getRequestMethod req false w
  unfold servedBy httpReqJsonrpcWith HTTPRequest.new
  simp [ExceptT.run_bind, hmethod, hm, ha.1, run_getHeader, ha.2, h]

/-- Once a value has been read, the handler is what it does with this value. -/
theorem servedBy_congr {onObject onArray onObject' onArray' : UniValue → TryM Bytes} {w : World}
    {req : Req} {u : UniValue} (ha : Authorized (w.request req))
    (hr : read (w.request req).inputBuffer = (true, u))
    (h : (((chosen onObject onArray u).run.run (startRequest w req)).run ⟨some req, false⟩).run
        serve (w.drained req) =
      (((chosen onObject' onArray' u).run.run (startRequest w req)).run ⟨some req, false⟩).run
        serve (w.drained req)) :
    servedBy (httpReqJsonrpcWith (tryRequestWith onObject onArray)) w req =
      servedBy (httpReqJsonrpcWith (tryRequestWith onObject' onArray')) w req := by
  have htry := run_tryRequestWith onObject onArray req w
  have htry' := run_tryRequestWith onObject' onArray' req w
  simp only [hr, sendText, ExceptT.run_bind, StateT.run_bind, Program.run_bind, h] at htry htry'
  obtain ⟨method, hm, hmethod⟩ := run_getRequestMethod req false w
  unfold servedBy httpReqJsonrpcWith HTTPRequest.new
  simp [ExceptT.run_bind, hmethod, hm, ha.1, run_getHeader, ha.2, htry, htry']

/-- A breakpoint is hit exactly with the object or the array that was read. -/
theorem stopped_iff {w : World} {req : Req} (ha : Authorized (w.request req))
    (p q : UniValue → Bool) :
    servedBy (httpReqJsonrpcWith (tryRequestWith (breakWhere p) (breakWhere q))) w req = none ↔
      ∃ u, read (w.request req).inputBuffer = (true, u) ∧
        (u.isObject ∧ p u ∨ u.isArray ∧ q u) := by
  have htry := run_tryRequestWith (breakWhere p) (breakWhere q) req w
  rcases hr : read (w.request req).inputBuffer with ⟨accepted, u⟩
  cases accepted with
  | false =>
    simp only [hr] at htry
    rw [servedBy_thrown ha htry]
    simp
  | true =>
    simp only [hr] at htry
    have hexcl : u.isObject → ¬ u.isArray := by simp_all [isObject, isArray]
    by_cases hstop : u.isObject ∧ p u ∨ u.isArray ∧ q u
    · have hchosen : (((chosen (breakWhere p) (breakWhere q) u).run.run
          (startRequest w req)).run ⟨some req, false⟩).run serve (w.drained req) = none := by
        rcases hstop with ⟨ho, hp⟩ | ⟨harray, hq⟩
        · simp [chosen, ho, run_breakWhere, hp]
        · have ho : ¬ u.isObject := fun ho => hexcl ho harray
          simp [chosen, ho, harray, run_breakWhere, hq]
      rw [run_sendText_stopped hchosen] at htry
      exact iff_of_true (servedBy_stopped ha htry) ⟨u, rfl, hstop⟩
    · have hchosen : ∃ e, (((chosen (breakWhere p) (breakWhere q) u).run.run
          (startRequest w req)).run ⟨some req, false⟩).run serve (w.drained req) =
          some (((.error e, startRequest w req), ⟨some req, false⟩), w.drained req) := by
        by_cases ho : u.isObject
        · have hp : p u = false := by simp_all
          exact ⟨.std [], by simp [chosen, ho, run_breakWhere, hp]⟩
        · by_cases harray : u.isArray
          · have hq : q u = false := by simp_all
            exact ⟨.std [], by simp [chosen, ho, harray, run_breakWhere, hq]⟩
          · exact ⟨.univalue _, by simp [chosen, ho, harray]; rfl⟩
      obtain ⟨e, hchosen⟩ := hchosen
      rw [run_sendText hchosen] at htry
      rw [servedBy_thrown ha htry]
      simp_all

/-- The handler acts on `u`. -/
def Reaches (w : World) (req : Req) (u : UniValue) : Prop :=
  ReachesParse w req u ∨ ReachesBatch w req u

theorem reachesParse_iff {w : World} {req : Req} (ha : Authorized (w.request req)) (u : UniValue) :
    ReachesParse w req u ↔ read (w.request req).inputBuffer = (true, u) ∧ u.isObject := by
  rw [ReachesParse, stopped_iff ha]
  simp

theorem reachesBatch_iff {w : World} {req : Req} (ha : Authorized (w.request req)) (u : UniValue) :
    ReachesBatch w req u ↔ read (w.request req).inputBuffer = (true, u) ∧ u.isArray := by
  rw [ReachesBatch, stopped_iff ha]
  simp

theorem reaches_iff {w : World} {req : Req} (ha : Authorized (w.request req)) (u : UniValue) :
    Reaches w req u ↔ read (w.request req).inputBuffer = (true, u) ∧ Container u := by
  rw [Reaches, reachesParse_iff ha, reachesBatch_iff ha, ← and_or_left]
  rfl

/-- Where the breakpoint before `parse` is hit with `u`, the handler goes on with `u`, whatever it
does then: the real one with `singleRequest`, which gives `u` to `parse`. -/
theorem ReachesParse.calls {w : World} {req : Req} {u : UniValue}
    (ha : Authorized (w.request req)) (h : ReachesParse w req u)
    (onObject onArray other : UniValue → TryM Bytes) :
    servedBy (httpReqJsonrpcWith (tryRequestWith onObject onArray)) w req =
      servedBy (httpReqJsonrpcWith (tryRequestWith (fun _ => onObject u) other)) w req := by
  obtain ⟨hread, hu⟩ := (reachesParse_iff ha u).mp h
  exact servedBy_congr ha hread (by simp [chosen, hu])

/-- And in the same way `arrayOfRequests`, which gives `u` to `JSONRPCExecBatch`. -/
theorem ReachesBatch.calls {w : World} {req : Req} {u : UniValue}
    (ha : Authorized (w.request req)) (h : ReachesBatch w req u)
    (onObject onArray other : UniValue → TryM Bytes) :
    servedBy (httpReqJsonrpcWith (tryRequestWith onObject onArray)) w req =
      servedBy (httpReqJsonrpcWith (tryRequestWith other (fun _ => onArray u))) w req := by
  obtain ⟨hread, hu⟩ := (reachesBatch_iff ha u).mp h
  have ho : u.isObject = false := by simp_all [isArray, isObject]
  exact servedBy_congr ha hread (by simp [chosen, hu, ho])

/-- The handler acts on a body exactly when the grammar derives it as an object or an array, and
then on the tree of the derivation; any other body gets the one error reply, and no actor runs. -/
theorem acts_iff_accepted {w : World} {req : Req} (ha : Authorized (w.request req)) (g : Process) :
    (∀ u, Reaches w req u ↔
      ∃ t, AcceptedText (w.request req).inputBuffer t ∧ u = uniTree literalText t) ∧
    (∀ u, (ReachesParse w req u → u.isObject) ∧ (ReachesBatch w req u → u.isArray)) ∧
    ((¬ ∃ t, AcceptedText (w.request req).inputBuffer t) →
      ∃ message s, jsonrpcReply null (jsonrpcError rpcParseError message) null = .ok s ∧
        Sends g w req false (jsonReply httpInternalServerError s) []) := by
  refine ⟨fun u => ?_, fun u => ⟨fun h => ((reachesParse_iff ha u).mp h).2,
    fun h => ((reachesBatch_iff ha u).mp h).2⟩, ?_⟩
  · rw [reaches_iff ha, read_iff]
  · intro hnone
    rcases hr : read (w.request req).inputBuffer with ⟨accepted, u⟩
    have hu : accepted → ¬ (u.isObject ∨ u.isArray) := by
      rintro rfl hcontainer
      obtain ⟨t, ht, -⟩ := (read_iff _ u).mp ⟨hr, hcontainer⟩
      exact hnone ⟨t, ht⟩
    obtain ⟨s, hs, hsends⟩ := sends_parseError ha hr hu
    exact ⟨_, s, hs, hsends⟩

theorem acts_iff_accepted_empty_batch :
    ReachesBatch (.holding (.post [] (cstr "[]"))) 0 (ofType .varr []) ∧
      ∃ t, AcceptedText (cstr "[]") t ∧ ofType .varr [] = uniTree literalText t := by
  have hread : read (cstr "[]") = (true, ofType .varr []) := by decide +kernel
  have hreached : ReachesBatch (.holding (.post [] (cstr "[]"))) 0 (ofType .varr []) :=
    (stopped_iff (authorized_post [] (cstr "[]")) _ _).mpr
      ⟨_, hread, .inr ⟨rfl, decide_eq_true rfl⟩⟩
  exact ⟨hreached, ((acts_iff_accepted (authorized_post [] (cstr "[]"))
    ⟨CRPCTable.new, default⟩).1 _).mp (.inr hreached)⟩

end JsonRpcServer

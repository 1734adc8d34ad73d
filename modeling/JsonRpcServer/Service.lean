import JsonRpcServer.Isolation

/-!
# The service behind the server

The server as its clients see it: each request is owed one reply, a function of
the request, and the replies are given one at a time, in any order.
-/
namespace JsonRpcServer

open Programs Relation

/-- A request that has no reply is given its own. -/
inductive Gives (reply : Req → Reply) : (Req → Option Reply) → (Req → Option Reply) → Prop where
  | intro {given : Req → Option Reply} {req : Req} (h : given req = none) :
      Gives reply given (Function.update given req (some (reply req)))

/-- What the clients have. -/
def Server.given (s : Server) (req : Req) : Option Reply := (s.state.request req).sent.head?

section
variable {g : Process} {w : World} {s s' : Server} {given : Req → Option Reply}

/-- The reply that each request gets alone. -/
abbrev ownReply (g : Process) (w : World) (req : Req) : Reply := (respond g (w.request req)).reply

/-! ## Every run of the server is one of the service -/

/-- Only sending changes what has been sent, and only for one request. -/
theorem performs_sent {c : Call} {w w' : World} {r : c.Reply} (h : Performs c w r w') :
    (∀ req, (w'.request req).sent = (w.request req).sent) ∨
      ∃ req, (w'.request req).sent ≠ [] ∧
        ∀ other, other ≠ req → (w'.request other).sent = (w.request other).sent := by
  have hupdate : ∀ (f : EvhttpRequest → EvhttpRequest) (req' : Req), (∀ r, (f r).sent = r.sent) →
      ∀ req, ((w.updateRequest req' f).request req).sent = (w.request req).sent := by
    intro f req' hf req
    by_cases hr : req = req'
    · subst hr
      simp [World.updateRequest, hf]
    · simp [World.updateRequest, hr]
  cases h with
  | noConnection => exact .inl fun _ => rfl
  | noBufferevent => exact .inl fun _ => rfl
  | answer h =>
    cases c with
    | fault => cases h
    | addHeader | bufferDrain | bufferAdd =>
      obtain ⟨-, rfl⟩ := Prod.mk.inj (Option.some.inj h)
      exact .inl (hupdate _ _ fun _ => rfl)
    | sendReply req nStatus =>
      obtain ⟨-, rfl⟩ := Prod.mk.inj (Option.some.inj h)
      refine .inr ⟨req, by simp [World.updateRequest], fun other ho => ?_⟩
      simp [World.updateRequest, ho]
    | _ =>
      obtain ⟨-, rfl⟩ := Prod.mk.inj (Option.some.inj h)
      exact .inl fun _ => rfl

theorem step_sent (hstep : Pool.Step Performs CallsBack s s') :
    (∀ req, (s'.state.request req).sent = (s.state.request req).sent) ∨
      ∃ req, (s'.state.request req).sent ≠ [] ∧
        ∀ other, other ≠ req → (s'.state.request other).sent = (s.state.request other).sent := by
  cases hstep with
  | start ht hs =>
    cases hs with
    | intro he ha => exact .inl fun _ => rfl
  | call ht hr => exact performs_sent hr

theorem given_cases (hw : w.Fresh) (h : (Server.initial g w).Performs s) (req : Req) :
    s.given req = none ∨ s.given req = some (ownReply g w req) := by
  unfold Server.given
  rcases sent_isolated hw h req with hsent | hsent
  · exact .inl (by rw [hsent]; rfl)
  · exact .inr (by rw [hsent]; rfl)

/-- A step sends nothing, or one request its reply. -/
theorem given_step (hw : w.Fresh) (h : (Server.initial g w).Performs s)
    (hstep : Pool.Step Performs CallsBack s s') :
    s'.given = s.given ∨ Gives (ownReply g w) s.given s'.given := by
  have h' : (Server.initial g w).Performs s' := h.tail hstep
  rcases step_sent hstep with hsame | ⟨req, hsent, hothers⟩
  · exact .inl (funext fun req => by rw [Server.given, hsame req, Server.given])
  have hgiven : s'.given req = some (ownReply g w req) := by
    rw [Server.given, (sent_isolated hw h' req).resolve_left hsent]
    rfl
  have hupdate : s'.given = Function.update s.given req (some (ownReply g w req)) := by
    funext other
    by_cases ho : other = req
    · rw [ho, Function.update_self, hgiven]
    · rw [Function.update_of_ne ho, Server.given, hothers other ho, Server.given]
  rcases given_cases hw h req with hnone | hsome
  · rw [hupdate]
    exact .inr (.intro hnone)
  · exact .inl (by rw [hupdate, ← hsome, Function.update_eq_self])

theorem given_reaches (hw : w.Fresh) (h : (Server.initial g w).Performs s) :
    ReflTransGen (Gives (ownReply g w)) (fun _ => none) s.given := by
  induction h with
  | refl =>
    have hnone : (Server.initial g w).given = fun _ => none := by
      funext req
      simp [Server.given, Server.initial, (hw.out req).2]
    rw [hnone]
  | tail hto hstep ih =>
    rcases given_step hw hto hstep with hsame | hgives
    · rw [hsame]
      exact ih
    · exact ih.tail hgives

/-! ## Every run of the service is one of the server -/

/-- A state in which nothing is under way, as the service has it. -/
structure Realizes (g : Process) (w : World) (given : Req → Option Reply) (s : Server) : Prop where
  reached : (Server.initial g w).Performs s
  agrees : s.given = given
  waiting : ∀ req, given req = none → s.threads (.request req) = serveRequest g req
  idle : ∀ id, s.threads (.callback id) = .done ()

theorem realizes_initial (hw : w.Fresh) :
    Realizes g w (fun _ => none) (Server.initial g w) where
  reached := .refl
  agrees := by
    funext req
    simp [Server.given, Server.initial, (hw.out req).2]
  waiting := fun _ _ => rfl
  idle := fun _ => rfl

theorem Realizes.gives (hw : w.Fresh) (hs : Realizes g w given s) {req : Req}
    (hnone : given req = none) :
    ∃ s', Realizes g w (Function.update given req (some (ownReply g w req))) s' := by
  obtain ⟨s', h, hsent, hothers, hidle⟩ := answers_one req (hs.waiting req hnone) hs.idle
  have hreached := hs.reached.trans h
  refine ⟨s', hreached, funext fun other => ?_, fun other ho => ?_, hidle⟩
  · by_cases hr : other = req
    · subst hr
      rw [Function.update_self, Server.given, (sent_isolated hw hreached other).resolve_left hsent]
      rfl
    · rw [Function.update_of_ne hr, ← hs.agrees]
      simp only [Server.given, (hothers other hr).1]
  · by_cases hr : other = req
    · subst hr
      simp at ho
    · rw [Function.update_of_ne hr] at ho
      rw [(hothers other hr).2, hs.waiting other ho]

theorem realized (hw : w.Fresh) (h : ReflTransGen (Gives (ownReply g w)) (fun _ => none) given) :
    ∃ s, Realizes g w given s := by
  induction h with
  | refl => exact ⟨_, realizes_initial hw⟩
  | tail _ hstep ih =>
    obtain ⟨s, hs⟩ := ih
    cases hstep with
    | intro hnone => exact hs.gives hw hnone

/-- What the clients may have, while the server runs, is what the service may have given. -/
theorem server_refines_service {g : Process} {w : World} (hw : w.Fresh)
    (given : Req → Option Reply) :
    (∃ s, (Server.initial g w).Performs s ∧ s.given = given) ↔
      ReflTransGen (Gives fun req => (respond g (w.request req)).reply) (fun _ => none) given := by
  constructor
  · rintro ⟨s, h, rfl⟩
    exact given_reaches hw h
  · intro h
    obtain ⟨s, hs⟩ := realized hw h
    exact ⟨s, hs.reached, hs.agrees⟩

theorem server_refines_service_bareGet :
    ∃ s, (Server.initial builtins (.holding .bareGet)).Performs s ∧
      s.given = Function.update (fun _ => none) 3
        (some ⟨httpBadMethod, [], cstr "JSONRPC server handles only POST requests"⟩) :=
  (server_refines_service ⟨rfl, fun _ => ⟨rfl, rfl⟩⟩ _).mpr (.single (.intro rfl))

end

end JsonRpcServer

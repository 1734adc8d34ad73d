import JsonRpcServer.Fairness
import JsonRpcServer.Isolation

/-!
# Every request is answered

Nobody waits for anybody for ever: in a fair run each handler ends, its event is
called back and freed, and the request keeps the reply it gets.
-/
namespace JsonRpcServer

open Programs

/-- A run of the server without end. -/
abbrev ServerRun (g : Process) (w : World) := Pool.Run Performs CallsBack (Server.initial g w)

/-- A request that has its reply; its actors have all run, and its event is gone. -/
structure Answered (g : Process) (w : World) (s : Server) (req : Req) : Prop where
  sent : (s.state.request req).sent = [(respond g (w.request req)).reply]
  ended : s.threads (.request req) = .done ()
  actors : actorCalls s.calls req = (respond g (w.request req)).calls
  event : ∃ (id : EventId) (e : EventRecord), s.state.events[id]? = some e ∧
    e.event.reqCopy = req ∧ e.calledBack = 1 ∧ e.freed = 1

/-- An event of the request of which `P` holds. -/
def HasEvent (s : Server) (req : Req) (id : EventId) (P : EventRecord → Prop) : Prop :=
  ∃ e : EventRecord, s.state.events[id]? = some e ∧ e.event.reqCopy = req ∧ P e

/-- The loop will call the event back: it is active, and its thread is idle. -/
structure IsDue (s : Server) (req : Req) (id : EventId) : Prop where
  idle : s.threads (.callback id) = .done ()
  active : HasEvent s req id (fun e => e.active)

section
variable {g : Process} {w : World} {s s' : Server} {req : Req} {id : EventId} {t : Thread}

/-! ## Threads that are not stuck -/

/-- Every call of a handler or of an event gets its reply. -/
theorem ready_call (hw : w.Fresh) (h : (Server.initial g w).Performs s) {c : Call}
    {next : c.Reply → Prog Unit} (ht : s.threads t = .call c next) :
    Pool.Ready Performs CallsBack t s := by
  obtain ⟨stage, hfollows, -⟩ := (orderly_initial g hw).reaches performs_discipline h
  have hanswer : ∀ r w', serve c s.state = some (r, w') → Pool.Ready Performs CallsBack t s :=
    fun r w' hr => ⟨_, .call ht (.answer hr)⟩
  cases c with
  | fault f =>
    have hf := hfollows t
    rw [ht] at hf
    exact absurd hf.1 (not_allows_fault t _ f)
  | _ => exact hanswer _ _ rfl

theorem done_of_waiting {p : Prog Unit} {ends : Unit → Stage → Prop}
    (h : p.Follows (callingBack id) .waiting ends) : p = .done () := by
  cases p with
  | done => rfl
  | call c next =>
    have hallows := h.1
    cases c <;> cases hallows

/-! ## What happens to events -/

/-- What has happened to an event stays, whoever makes the call. -/
theorem performs_event {c : Call} {w w' : World} {r : c.Reply} (h : Performs c w r w')
    {e : EventRecord} (he : w.events[id]? = some e) :
    ∃ e' : EventRecord, w'.events[id]? = some e' ∧ e'.event = e.event ∧
      (e.active → e'.active) ∧ e.calledBack ≤ e'.calledBack ∧ e.freed ≤ e'.freed := by
  have hsame : ∃ e' : EventRecord, w.events[id]? = some e' ∧ e'.event = e.event ∧
      (e.active → e'.active) ∧ e.calledBack ≤ e'.calledBack ∧ e.freed ≤ e'.freed :=
    ⟨e, he, rfl, fun ha => ha, le_rfl, le_rfl⟩
  cases h with
  | noConnection => exact hsame
  | noBufferevent => exact hsame
  | answer h =>
    cases c with
    | fault => cases h
    | eventNew ev =>
      obtain ⟨-, rfl⟩ := Prod.mk.inj (Option.some.inj h)
      refine ⟨e, ?_, rfl, fun ha => ha, le_rfl, le_rfl⟩
      exact (List.getElem?_append_left (List.getElem?_eq_some_iff.mp he).1).trans he
    | eventActive id' | eventFree id' =>
      obtain ⟨-, rfl⟩ := Prod.mk.inj (Option.some.inj h)
      simp only [World.updateEvent, List.getElem?_modify, he, Option.map_eq_map, Option.map_some]
      by_cases hid : id' = id <;> simp [hid]
    | _ =>
      obtain ⟨-, rfl⟩ := Prod.mk.inj (Option.some.inj h)
      exact hsame

theorem callsBack_event {prog : Prog Unit} {w w' : World} (h : CallsBack w t prog w')
    {e : EventRecord} (he : w.events[id]? = some e) :
    w'.events[id]? = some (if t = .callback id then
      { e with active := false, calledBack := e.calledBack + 1 } else e) := by
  cases h with
  | @intro id' =>
    by_cases hid : id' = id <;> simp [World.updateEvent, he, hid]

theorem HasEvent.step {P : EventRecord → Prop} (h : HasEvent s req id P)
    (hP : ∀ {e e' : EventRecord}, e.calledBack ≤ e'.calledBack → e.freed ≤ e'.freed → P e → P e')
    (hstep : Pool.Step Performs CallsBack s s') : HasEvent s' req id P := by
  obtain ⟨e, he, hreq, hp⟩ := h
  cases hstep with
  | call ht hr =>
    obtain ⟨e', he', hsame, -, hcalled, hfreed⟩ := performs_event hr he
    exact ⟨e', he', by rw [hsame, hreq], hP hcalled hfreed hp⟩
  | @start t _ _ ht hs =>
    refine ⟨_, callsBack_event hs he, ?_, ?_⟩
    · split <;> exact hreq
    · split
      · exact hP (Nat.le_succ _) le_rfl hp
      · exact hp

theorem IsDue.other (h : IsDue s req id) (ht : t ≠ .callback id)
    (hturn : Pool.Turn Performs CallsBack t s s') : IsDue s' req id := by
  obtain ⟨hidle, e, he, hreq, ha⟩ := h
  refine ⟨(hturn.other ht).trans hidle, ?_⟩
  cases hturn with
  | call _ hr =>
    obtain ⟨e', he', hsame, hactive, -⟩ := performs_event hr he
    exact ⟨e', he', by rw [hsame, hreq], hactive ha⟩
  | start _ hs =>
    have he' := callsBack_event hs he
    rw [if_neg ht] at he'
    exact ⟨e, he', hreq, ha⟩

theorem IsDue.ready (h : IsDue s req id) : Pool.Ready Performs CallsBack (.callback id) s := by
  obtain ⟨hidle, e, he, -, ha⟩ := h
  exact ⟨_, .start hidle (.intro he ha)⟩

theorem IsDue.turn (h : IsDue s req id)
    (hturn : Pool.Turn Performs CallsBack (.callback id) s s') :
    HasEvent s' req id (fun e => 0 < e.calledBack) := by
  obtain ⟨hidle, e, he, hreq, -⟩ := h
  cases hturn with
  | call ht _ => cases hidle.symm.trans ht
  | start _ hs =>
    have he' := callsBack_event hs he
    rw [if_pos rfl] at he'
    exact ⟨_, he', hreq, Nat.succ_pos _⟩

/-! ## From the handler to the reply -/

/-- The event of a handler that has ended is due, or has been called back. -/
theorem due_of_done (hw : w.Fresh) (h : (Server.initial g w).Performs s)
    (hdone : s.threads (.request req) = .done ()) :
    ∃ id, IsDue s req id ∨ HasEvent s req id (fun e => 0 < e.calledBack) := by
  obtain ⟨stage, hfollows, life, hplaced⟩ := (orderly_initial g hw).reaches performs_discipline h
  have hended : Ended (.request req) (stage (.request req)) := by
    have hf := hfollows (.request req)
    rwa [hdone] at hf
  obtain ⟨body, nStatus, id, hg⟩ := hended
  obtain ⟨phase, hne, hl⟩ := hplaced.life_of_given hg
  obtain ⟨e, hr, hreq, hactive, hcalled⟩ : ∃ e, (life req).record req = some (id, e) ∧
      e.event.reqCopy = req ∧ e.active = phase.seen.1 ∧ e.calledBack = phase.seen.2.1 :=
    ⟨_, by rw [hl]; rfl, rfl, rfl, rfl⟩
  have he := hplaced.event.of_record hr
  refine ⟨id, ?_⟩
  cases phase with
  | queued => exact absurd rfl hne
  | active =>
    have hf := hfollows (.callback id)
    rw [(hplaced.part_callback hl rfl).1] at hf
    exact .inl ⟨done_of_waiting hf, e, he, hreq, hactive⟩
  | called | replied | freed => exact .inr ⟨e, he, hreq, by simp [hcalled, Phase.seen]⟩

theorem freed_of_calledBack (hw : w.Fresh) (h : (Server.initial g w).Performs s)
    (hcalled : HasEvent s req id (fun e => 0 < e.calledBack))
    (hdone : s.threads (.callback id) = .done ()) :
    HasEvent s req id (fun e => 0 < e.freed) := by
  obtain ⟨stage, hfollows, life, hplaced⟩ := (orderly_initial g hw).reaches performs_discipline h
  have hended : Ended (.callback id) (stage (.callback id)) := by
    have hf := hfollows (.callback id)
    rwa [hdone] at hf
  obtain ⟨e, he, hreq, hpos⟩ := hcalled
  obtain ⟨hcalled, -, -, hseen⟩ := hplaced.seen he
  have hfreed : e.freed = 1 := (hseen (by omega) hended).1
  exact ⟨e, he, hreq, by omega⟩

theorem answered_of_freed (hw : w.Fresh) (h : (Server.initial g w).Performs s)
    (hfreed : HasEvent s req id (fun e => 0 < e.freed)) : Answered g w s req := by
  obtain ⟨stage, -, life, hplaced⟩ := (orderly_initial g hw).reaches performs_discipline h
  obtain ⟨e, he, hreq, hpos⟩ := hfreed
  obtain ⟨phase, body, nStatus, hrecord, hl⟩ := hplaced.life_of_event he
  rw [hreq] at hl
  have hout := (Prod.mk.inj (hplaced.out_at hl)).2
  obtain rfl : phase = .freed := by
    rw [hrecord] at hpos
    cases phase <;> first | rfl | simp [Phase.seen] at hpos
  have hsent : (s.state.request req).sent ≠ [] := by simp [hout]
  refine ⟨(sent_isolated hw h req).resolve_left hsent, done_of_sent hw h hsent,
    finished_isolated hw h (.inr hsent), id, e, he, hreq, ?_⟩
  rw [hrecord]
  exact ⟨rfl, rfl⟩

/-! ## Fair runs -/

/-- Whatever the order of the turns, so long as no thread is left out for ever. -/
theorem fair_runs_answer {g : Process} {w : World} (hw : w.Fresh) (run : ServerRun g w)
    (hfair : run.Fair) (req : Req) : ∃ n, ∀ m ≥ n, Answered g w (run.pool m) req := by
  have hready : ∀ t m c next, (run.pool m).threads t = .call c next →
      Pool.Ready Performs CallsBack t (run.pool m) :=
    fun t m c next ht => ready_call hw (run.reaches m) ht
  -- the handler ends
  obtain ⟨n₁, -, hdone⟩ := hfair.ends (hready (.request req)) (Eq.refl ((run.pool 0).threads _))
  -- its event is called back
  obtain ⟨id, n₂, hcalled⟩ : ∃ id n,
      HasEvent (run.pool n) req id (fun e => 0 < e.calledBack) := by
    obtain ⟨id, hdue | hcalled⟩ := due_of_done hw (run.reaches n₁) hdone
    · obtain ⟨m, -, hdue', hturn⟩ := hfair.takes_turn (P := fun s => IsDue s req id) hdue
        (fun _ => IsDue.ready) fun _ _ ht hdue hturn => hdue.other ht hturn
      exact ⟨id, m + 1, hdue'.turn (Pool.Run.step_of_turn hturn)⟩
    · exact ⟨id, n₁, hcalled⟩
  -- the callback ends
  obtain ⟨n₃, hn₃, hidle⟩ := hfair.ends (hready (.callback id)) (Eq.refl ((run.pool n₂).threads _))
  have hcalled₃ : HasEvent (run.pool n₃) req id (fun e => 0 < e.calledBack) :=
    run.kept (P := fun s => HasEvent s req id _)
      (fun _ _ h => h.step fun hle _ hpos => Nat.lt_of_lt_of_le hpos hle) hcalled hn₃
  have hfreed := freed_of_calledBack hw (run.reaches n₃) hcalled₃ hidle
  refine ⟨n₃, fun m hm => ?_⟩
  have hfreed' : HasEvent (run.pool m) req id (fun e => 0 < e.freed) :=
    run.kept (P := fun s => HasEvent s req id _)
      (fun _ _ h => h.step fun _ hle hpos => Nat.lt_of_lt_of_le hpos hle) hfreed hm
  exact answered_of_freed hw (run.reaches m) hfreed'

def threadAt (n : Nat) : Thread := if n % 2 = 0 then .request (n / 2) else .callback (n / 2)

theorem threadAt_surjective : threadAt.Surjective := by
  intro t
  cases t with
  | request req => exact ⟨2 * req, by simp [threadAt]⟩
  | callback id =>
    have hhalf : ∀ k : Nat, (2 * k + 1) / 2 = k := by omega
    exact ⟨2 * id + 1, by simp [threadAt, hhalf]⟩

theorem fair_runs_answer_bareGet :
    ∃ run : ServerRun builtins (.holding .bareGet), run.Fair ∧
      ∀ req, ∃ n, ∀ m ≥ n, Answered builtins (.holding .bareGet) (run.pool m) req := by
  obtain ⟨run, hfair⟩ := Pool.exists_fair threadAt_surjective Performs CallsBack
    (Server.initial builtins (.holding .bareGet))
  exact ⟨run, hfair, fair_runs_answer ⟨rfl, fun _ => ⟨rfl, rfl⟩⟩ run hfair⟩

end

end JsonRpcServer

import JsonRpcServer.Failures
import JsonRpcServer.Commands

/-!
# Two tables

Registrations on the global table and on another one, in any order, and what
`execute` does on either of them.
-/
namespace JsonRpcServer

open UniValue

/-- The table asked: the global one or the other. -/
inductive Which where
  | tableRPC | other
  deriving DecidableEq, Repr

structure Tables where
  tableRPC : CRPCTable
  other : CRPCTable

/-- A call of `appendCommand` on one of them, with what `IsRPCRunning()` answers. -/
structure Registration where
  table : Which
  isRPCRunning : Bool
  name : Bytes
  pcmd : CRPCCommand

namespace Tables

def table (ts : Tables) : Which → CRPCTable
  | .tableRPC => ts.tableRPC
  | .other => ts.other

def register (ts : Tables) (r : Registration) : Tables :=
  let appended := ((ts.table r.table).appendCommand r.isRPCRunning r.name (some r.pcmd)).2
  match r.table with
  | .tableRPC => { ts with tableRPC := appended }
  | .other => { ts with other := appended }

def run (ts : Tables) (rs : List Registration) : Tables := rs.foldl register ts

end Tables

/-- What shows of a run of `execute`: a command is no more to it than its actor. -/
structure Shown where
  outcome : Except Exception UniValue
  calls : List ((JSONRPCRequest → Except Exception UniValue) × JSONRPCRequest)
  rest : World

/-- The run has ended in this world. -/
def World.shows (w : World) (outcome : Except Exception UniValue) : Shown where
  outcome := outcome
  calls := w.actorRuns.map (fun call => (call.1.actor, call.2))
  rest := { w with actorRuns := [] }

/-- `execute` on one of the tables. -/
def Tables.execute (ts : Tables) (order : HashOrder) (which : Which) (request : JSONRPCRequest)
    (w : World) : Option Shown :=
  (((ts.table which).execute ⟨ts.tableRPC, order⟩ request).run.run serve w).map
    (fun (outcome, w') => w'.shows outcome)

/-! ## Dispatch through a table -/

/-- The actor is called, and its outcome leaves `execute`. -/
def called (pcmd : CRPCCommand) (request : JSONRPCRequest) (w : World) : Shown :=
  (w.ran [(pcmd, request)]).shows
    ((pcmd.actor request).mapError (fun e => .univalue e.translated))

/-- `execute` on the table runs the command that this table holds for the method, with the
arguments that command names, and misses the method exactly when the table does. -/
structure Dispatches (ts : Tables) (order : HashOrder) (which : Which) (request : JSONRPCRequest) :
    Prop where
  positional : ∀ pcmd, (ts.table which).find request.strMethod = some pcmd →
    ¬ request.params.isObject →
    ∀ w, ts.execute order which request w = some (called pcmd request w)
  named : ∀ pcmd, (ts.table which).find request.strMethod = some pcmd →
    request.params.isObject → ∀ w, ts.execute order which request w =
      match transformNamedArguments order request pcmd.argNames with
      | .ok passed => some (called pcmd passed w)
      | .error e => some (w.shows (.error e))
  missing : (ts.table which).find request.strMethod = none ↔
    ∀ w, ts.execute order which request w =
      some (w.shows (rpcThrow rpcMethodNotFound "Method not found"))

/-- The actor that is called, and what it is given. -/
def calledActor (r : Except Exception (CRPCCommand × JSONRPCRequest)) :
    Except Exception ((JSONRPCRequest → Except Exception UniValue) × JSONRPCRequest) :=
  r.map (fun call => (call.1.actor, call.2))

theorem Tables.execute_eq (ts : Tables) (order : HashOrder) (which : Which)
    (request : JSONRPCRequest) (w : World) :
    ts.execute order which request w =
      match ts.tableRPC.callOf order request with
      | .error e => some (w.shows (.error e))
      | .ok (pcmd, passed) => some (called pcmd passed w) := by
  rw [Tables.execute, run_execute, executed]
  rcases ts.tableRPC.callOf order request with e | ⟨pcmd, passed⟩
  · simp only [World.ran_nil]
    rfl
  · rfl

theorem called_calls (pcmd : CRPCCommand) (request : JSONRPCRequest) (w : World)
    (r : Except Exception UniValue) :
    (called pcmd request w).calls = (w.shows r).calls ++ [(pcmd.actor, request)] := by
  simp [called, World.shows, World.ran]

theorem called_ne (pcmd : CRPCCommand) (request : JSONRPCRequest) (w : World)
    (r : Except Exception UniValue) : called pcmd request w ≠ w.shows r := by
  intro h
  have hcalls := called_calls pcmd request w r
  simp [h] at hcalls

theorem called_eq_iff {pcmd pcmd' : CRPCCommand} {request request' : JSONRPCRequest} {w : World} :
    called pcmd request w = called pcmd' request' w ↔
      pcmd.actor = pcmd'.actor ∧ request = request' := by
  constructor
  · intro h
    have hcalls := congrArg Shown.calls h
    rw [called_calls _ _ _ (.ok null), called_calls _ _ _ (.ok null)] at hcalls
    simpa using hcalls
  · rintro ⟨hactor, rfl⟩
    simp [called, World.shows, World.ran, hactor]

/-- What `execute` does gives away the call it makes. -/
theorem execute_eq_iff {ts ts' : Tables} {order : HashOrder} {which which' : Which}
    {request : JSONRPCRequest} :
    (∀ w, ts.execute order which request w = ts'.execute order which' request w) ↔
      calledActor (ts.tableRPC.callOf order request) =
        calledActor (ts'.tableRPC.callOf order request) := by
  have hworld : ∀ w, ts.execute order which request w = ts'.execute order which' request w ↔
      calledActor (ts.tableRPC.callOf order request) =
        calledActor (ts'.tableRPC.callOf order request) := by
    intro w
    simp only [Tables.execute_eq]
    rcases ts.tableRPC.callOf order request with e | ⟨pcmd, passed⟩ <;>
      rcases ts'.tableRPC.callOf order request with e' | ⟨pcmd', passed'⟩
    · simp [calledActor, Except.map, World.shows]
    · simpa [calledActor, Except.map] using (called_ne pcmd' passed' w (.error e)).symm
    · simpa [calledActor, Except.map] using called_ne pcmd passed w (.error e')
    · simp [calledActor, Except.map, called_eq_iff]
  exact ⟨fun h => (hworld (.holding (.post [] []))).mp (h _), fun h w => (hworld w).mpr h⟩

/-- The call of a command that has been found. -/
def callTo (order : HashOrder) (request : JSONRPCRequest) (pcmd : CRPCCommand) :
    Except Exception (CRPCCommand × JSONRPCRequest) :=
  if request.params.isObject then
    (transformNamedArguments order request pcmd.argNames).map (pcmd, ·)
  else .ok (pcmd, request)

theorem callOf_none {t : CRPCTable} {order : HashOrder} {request : JSONRPCRequest}
    (h : t.find request.strMethod = none) :
    t.callOf order request = rpcThrow rpcMethodNotFound "Method not found" := by
  rw [CRPCTable.callOf, h]

theorem callOf_some {t : CRPCTable} {order : HashOrder} {request : JSONRPCRequest}
    {pcmd : CRPCCommand} (h : t.find request.strMethod = some pcmd) :
    t.callOf order request = callTo order request pcmd := by
  rw [CRPCTable.callOf, h, callTo]

theorem callTo_ne_notFound (order : HashOrder) (request : JSONRPCRequest) (pcmd : CRPCCommand) :
    calledActor (callTo order request pcmd) ≠
      rpcThrow rpcMethodNotFound "Method not found" := by
  intro h
  by_cases hp : request.params.isObject
  · rw [callTo, if_pos hp] at h
    cases ht : transformNamedArguments order request pcmd.argNames with
    | ok passed =>
      rw [ht] at h
      cases h
    | error e =>
      obtain ⟨name, -, rfl⟩ := transformNamedArguments_error hp ht
      rw [ht] at h
      obtain ⟨-, hmethod, -, -, hparameter⟩ := fitsInt_codes
      obtain ⟨hcode, -⟩ := jsonrpcError_inj hparameter hmethod
        (Exception.univalue.inj (Except.error.inj h))
      exact absurd hcode (by decide)
  · rw [callTo, if_neg hp] at h
    cases h

/-- One actor, given the same. -/
def CallAlike (order : HashOrder) (request : JSONRPCRequest) (pcmd pcmd' : CRPCCommand) : Prop :=
  pcmd.actor = pcmd'.actor ∧ (request.params.isObject →
    transformNamedArguments order request pcmd.argNames =
      transformNamedArguments order request pcmd'.argNames)

/-- Both refuse the named arguments, with the same error. -/
def RefuseAlike (order : HashOrder) (request : JSONRPCRequest) (pcmd pcmd' : CRPCCommand) : Prop :=
  request.params.isObject ∧ ∃ e,
    transformNamedArguments order request pcmd.argNames = .error e ∧
    transformNamedArguments order request pcmd'.argNames = .error e

theorem callTo_eq_iff {order : HashOrder} {request : JSONRPCRequest} {pcmd pcmd' : CRPCCommand} :
    calledActor (callTo order request pcmd) = calledActor (callTo order request pcmd') ↔
      CallAlike order request pcmd pcmd' ∨ RefuseAlike order request pcmd pcmd' := by
  unfold CallAlike RefuseAlike
  by_cases hp : request.params.isObject
  · rw [callTo, callTo, if_pos hp, if_pos hp]
    cases ht : transformNamedArguments order request pcmd.argNames with
    | error e =>
      cases ht' : transformNamedArguments order request pcmd'.argNames with
      | error e' =>
        have hrefuse : e = e' ↔ pcmd.actor = pcmd'.actor ∧ e = e' ∨ e' = e :=
          ⟨fun he => .inr he.symm, fun h => h.elim And.right Eq.symm⟩
        simpa [calledActor, Except.map, hp] using hrefuse
      | ok passed' => simp [calledActor, Except.map, hp]
    | ok passed =>
      cases ht' : transformNamedArguments order request pcmd'.argNames with
      | error e' => simp [calledActor, Except.map, hp]
      | ok passed' => simp [calledActor, Except.map, hp]
  · simp [callTo, hp, calledActor, Except.map]

/-- Whether the table itself is asked shows in the call only. -/
theorem dispatches_iff {ts : Tables} {order : HashOrder} {which : Which}
    {request : JSONRPCRequest} :
    Dispatches ts order which request ↔
      calledActor (ts.tableRPC.callOf order request) =
        calledActor ((ts.table which).callOf order request) := by
  have hown : (∀ w, ts.execute order which request w =
        Tables.execute ⟨ts.table which, ts.other⟩ order .tableRPC request w) ↔
      calledActor (ts.tableRPC.callOf order request) =
        calledActor ((ts.table which).callOf order request) := execute_eq_iff
  rw [← hown]
  simp only [Tables.execute_eq ⟨ts.table which, ts.other⟩]
  constructor
  · intro h w
    cases hf : (ts.table which).find request.strMethod with
    | none =>
      rw [h.missing.mp hf w, callOf_none hf]
      rfl
    | some pcmd =>
      rw [callOf_some hf, callTo]
      by_cases hp : request.params.isObject
      · rw [h.named pcmd hf hp w, if_pos hp]
        cases transformNamedArguments order request pcmd.argNames <;> rfl
      · rw [h.positional pcmd hf hp w, if_neg hp]
  · intro h
    refine ⟨fun pcmd hf hp w => ?_, fun pcmd hf hp w => ?_, fun hf w => ?_, fun hn => ?_⟩
    · rw [h w, callOf_some hf, callTo, if_neg hp]
    · rw [h w, callOf_some hf, callTo, if_pos hp]
      cases transformNamedArguments order request pcmd.argNames <;> rfl
    · rw [h w, callOf_none hf]
      rfl
    · by_contra hsome
      obtain ⟨pcmd, hf⟩ := Option.ne_none_iff_exists'.mp hsome
      have hw := (h (.holding (.post [] []))).symm.trans (hn _)
      rw [callOf_some hf] at hw
      rcases hc : callTo order request pcmd with e | ⟨pcmd', passed⟩ <;> simp only [hc] at hw
      · have he : Except.error e = rpcThrow rpcMethodNotFound "Method not found" :=
          congrArg Shown.outcome (Option.some.inj hw)
        obtain rfl := Except.error.inj he
        exact callTo_ne_notFound order request pcmd (by rw [hc]; rfl)
      · exact called_ne _ _ _ _ (Option.some.inj hw)

/-! ## Tables alike -/

/-- The two tables have nothing for the method, or two commands that come to the same. -/
def Alike (ts : Tables) (order : HashOrder) (request : JSONRPCRequest) : Prop :=
  ts.tableRPC.find request.strMethod = none ∧ ts.other.find request.strMethod = none ∨
    ∃ pcmd pcmd', ts.tableRPC.find request.strMethod = some pcmd ∧
      ts.other.find request.strMethod = some pcmd' ∧
      (CallAlike order request pcmd pcmd' ∨ RefuseAlike order request pcmd pcmd')

theorem alike_iff {ts : Tables} {order : HashOrder} {request : JSONRPCRequest} :
    Alike ts order request ↔
      calledActor (ts.tableRPC.callOf order request) =
        calledActor (ts.other.callOf order request) := by
  have hmissing : ∀ t : CRPCTable, t.find request.strMethod = none →
      calledActor (t.callOf order request) =
        rpcThrow rpcMethodNotFound "Method not found" := by
    intro t ht
    rw [callOf_none ht]
    rfl
  unfold Alike
  cases hf : ts.tableRPC.find request.strMethod with
  | none =>
    cases hf' : ts.other.find request.strMethod with
    | none => simp [hmissing _ hf, hmissing _ hf']
    | some pcmd' =>
      simpa [hmissing _ hf, callOf_some hf'] using (callTo_ne_notFound order request pcmd').symm
  | some pcmd =>
    cases hf' : ts.other.find request.strMethod with
    | none => simpa [callOf_some hf, hmissing _ hf'] using callTo_ne_notFound order request pcmd
    | some pcmd' => simp [callOf_some hf, callOf_some hf', callTo_eq_iff]

/-! ## Runs of registrations -/

theorem Tables.find_register (ts : Tables) (r : Registration) {which : Which}
    (h : r.table ≠ which) : (ts.register r).table which = ts.table which := by
  unfold register table
  cases ht : r.table <;> cases which <;> simp_all

/-- In every state of the run the table dispatches on its own, and a registration on the one table
changes neither what the other finds nor what comes of a request to it. -/
structure OwnTable (ts : Tables) (rs : List Registration) (order : HashOrder) (which : Which)
    (request : JSONRPCRequest) : Prop where
  dispatches : ∀ rs', rs' <+: rs → Dispatches (ts.run rs') order which request
  lookup : ∀ rs' r, rs' ++ [r] <+: rs → r.table ≠ which → ∀ name,
    ((ts.run (rs' ++ [r])).table which).find name = ((ts.run rs').table which).find name
  result : ∀ rs' r, rs' ++ [r] <+: rs → r.table ≠ which → ∀ w,
    (ts.run (rs' ++ [r])).execute order which request w =
      (ts.run rs').execute order which request w

/-- `execute` on the global table goes through it; on the other one it does as long as the two
tables are alike for the request. -/
theorem own_table_iff (ts : Tables) (rs : List Registration) (order : HashOrder) (which : Which)
    (request : JSONRPCRequest) :
    OwnTable ts rs order which request ↔
      which = .tableRPC ∨ ∀ rs', rs' <+: rs → Alike (ts.run rs') order request := by
  have hstate : ∀ ts : Tables, Dispatches ts order which request ↔
      which = .tableRPC ∨ Alike ts order request := by
    intro ts
    rw [dispatches_iff, alike_iff]
    cases which <;> simp [Tables.table]
  constructor
  · intro h
    by_cases hw : which = .tableRPC
    · exact .inl hw
    · exact .inr fun rs' hrs => ((hstate _).mp (h.dispatches rs' hrs)).resolve_left hw
  · intro h
    have hdispatches : ∀ rs', rs' <+: rs → Dispatches (ts.run rs') order which request :=
      fun rs' hrs => (hstate _).mpr (h.imp_right fun h => h rs' hrs)
    have hframe : ∀ rs' r, r.table ≠ which →
        (ts.run (rs' ++ [r])).table which = (ts.run rs').table which := by
      intro rs' r hr
      rw [Tables.run, List.foldl_append]
      exact Tables.find_register _ r hr
    refine ⟨hdispatches, fun rs' r _ hr name => by rw [hframe rs' r hr], fun rs' r hrs hr => ?_⟩
    have hbefore := dispatches_iff.mp (hdispatches rs' ((List.prefix_append rs' [r]).trans hrs))
    have hafter := dispatches_iff.mp (hdispatches _ hrs)
    rw [execute_eq_iff, hafter, hbefore, hframe rs' r hr]

/-- A command that only the other table gets. -/
def ping : CRPCCommand := ⟨cstr "ping", uptime, []⟩

theorem not_own_table_ping :
    ¬ OwnTable ⟨.new, .new⟩ [⟨.other, false, cstr "ping", ping⟩] default .other
      { JSONRPCRequest.new with strMethod := cstr "ping" } := by
  intro h
  let ts := Tables.run ⟨.new, .new⟩ [⟨.other, false, cstr "ping", ping⟩]
  have hglobal : (ts.tableRPC.find (cstr "ping")).isNone := by decide +kernel
  have hother : ((ts.table .other).find (cstr "ping")).isSome := by decide +kernel
  have hnone := (h.dispatches _ List.prefix_rfl).missing.mpr fun w => by
    rw [Tables.execute_eq, callOf_none (Option.isNone_iff_eq_none.mp hglobal)]
    rfl
  exact absurd hother (by simp [ts, hnone])

end JsonRpcServer

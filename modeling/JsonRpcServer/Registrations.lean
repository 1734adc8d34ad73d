import JsonRpcServer.Commands
import JsonRpcServer.Registry

/-!
# Registering commands

The dispatch table is a registry: `appendCommand` offers a command under a name,
and the offer is open while RPC is not running.
-/
namespace JsonRpcServer

open Registries

/-- A call of `appendCommand` with a command, and what `IsRPCRunning()` answers during it. -/
structure AppendCall where
  isRPCRunning : Bool
  name : Bytes
  pcmd : CRPCCommand

def AppendCall.offer (c : AppendCall) : Offer Bytes CRPCCommand :=
  ⟨!c.isRPCRunning, c.name, c.pcmd⟩

namespace CRPCTable

def append (t : CRPCTable) (c : AppendCall) : Bool × CRPCTable :=
  t.appendCommand c.isRPCRunning c.name (some c.pcmd)

def appendAll (t : CRPCTable) (calls : List AppendCall) : CRPCTable :=
  calls.foldl (fun t c => (t.append c).2) t

/-- What the table finds under each name. -/
def registry (t : CRPCTable) : Registry Bytes CRPCCommand := t.find

/-- No name holds the null pointer. -/
def NoNull (t : CRPCTable) : Prop :=
  ∀ name, t.mapCommands.contains name = (t.find name).isSome

variable {t : CRPCTable}

theorem noNull_insert (h : t.NoNull) (name : Bytes) (pcmd : CRPCCommand) :
    NoNull ⟨t.mapCommands.insert name (some pcmd)⟩ := by
  intro name'
  rw [find_insert, Std.TreeMap.contains_insert, h name']
  by_cases hn : name = name'
  · simp [hn]
  · simp [hn, find]

theorem noNull_new : CRPCTable.new.NoNull := by
  have hfold : ∀ (pcmds : List CRPCCommand) (t : CRPCTable), t.NoNull →
      NoNull ⟨pcmds.foldl (fun m pcmd => m.insert pcmd.name (some pcmd)) t.mapCommands⟩ := by
    intro pcmds
    induction pcmds with
    | nil => exact fun t ht => ht
    | cons p ps ih => exact fun t ht => ih _ (noNull_insert ht p.name p)
  exact hfold vRPCCommands ⟨∅⟩ (fun name => by simp [find])

/-! ## The table as a registry -/

theorem noNull_append (h : t.NoNull) (c : AppendCall) : (t.append c).2.NoNull := by
  unfold append appendCommand
  split
  · exact h
  · split
    · exact h
    · exact noNull_insert h c.name c.pcmd

theorem append_returns (h : t.NoNull) (c : AppendCall) :
    (t.append c).1 = t.registry.takes c.offer := by
  have hname := h c.name
  unfold append appendCommand Registry.takes AppendCall.offer registry
  cases c.isRPCRunning with
  | true => rfl
  | false =>
    rw [hname]
    cases t.find c.name <;> rfl

theorem registry_append (h : t.NoNull) (c : AppendCall) :
    (t.append c).2.registry = t.registry.offer c.offer := by
  funext name
  have hfind := find_appendCommand t c.isRPCRunning c.name name (some c.pcmd)
  have hreturns := append_returns h c
  unfold append at hreturns ⊢
  rw [registry, hfind, hreturns]
  cases ht : t.registry.takes c.offer with
  | false =>
    rw [Registry.offer_refused ht]
    simp [registry]
  | true =>
    by_cases hn : c.name = name
    · subst hn
      rw [if_pos ⟨rfl, rfl⟩]
      exact (Registry.offer_taken ht).symm
    · rw [Registry.offer_other hn]
      simp [hn, registry]

/-- A run of calls is a run of offers. -/
theorem appendAll_registry (h : t.NoNull) (calls : List AppendCall) :
    (t.appendAll calls).NoNull ∧
      (t.appendAll calls).registry = t.registry.run (calls.map AppendCall.offer) := by
  induction calls generalizing t with
  | nil => exact ⟨h, rfl⟩
  | cons c calls ih =>
    have hrun := ih (noNull_append h c)
    rw [registry_append h c] at hrun
    exact hrun

end CRPCTable

/-! ## What is listed -/

/-- The order of the map is that of the strings, byte by byte. -/
theorem compare_bytes (a b : Bytes) : compare a b = .lt ↔ a < b := by
  induction a generalizing b with
  | nil => cases b <;> simp
  | cons x a ih =>
    cases b with
    | nil => simp
    | cons y b =>
      rw [List.compare_cons_cons, Ordering.then_eq_lt, List.cons_lt_cons_iff, ih,
        Std.compare_eq_lt, Std.LawfulEqCmp.compare_eq_iff_eq]

theorem listCommands_ordered (t : CRPCTable) : t.listCommands.Pairwise (· < ·) :=
  Std.TreeMap.ordered_keys.imp (fun {a b} h => (compare_bytes a b).mp h)

theorem mem_listCommands {t : CRPCTable} (h : t.NoNull) (name : Bytes) :
    name ∈ t.listCommands ↔ t.find name ≠ none := by
  rw [CRPCTable.listCommands, Std.TreeMap.mem_keys, Std.TreeMap.mem_iff_contains, h name,
    Option.isSome_iff_ne_none]

/-! ## Whole runs -/

/-- The table after some calls, from its constructor on. -/
def tableAfter (calls : List AppendCall) : CRPCTable := CRPCTable.new.appendAll calls

/-- Whether the call is answered with true when it follows the others. -/
def succeeds (before : List AppendCall) (c : AppendCall) : Bool := ((tableAfter before).append c).1

theorem tableAfter_noNull (calls : List AppendCall) : (tableAfter calls).NoNull :=
  (CRPCTable.appendAll_registry CRPCTable.noNull_new calls).1

theorem tableAfter_registry (calls : List AppendCall) :
    (tableAfter calls).registry = CRPCTable.new.registry.run (calls.map AppendCall.offer) :=
  (CRPCTable.appendAll_registry CRPCTable.noNull_new calls).2

theorem succeeds_eq (before : List AppendCall) (c : AppendCall) :
    succeeds before c =
      (CRPCTable.new.registry.run (before.map AppendCall.offer)).takes c.offer := by
  rw [succeeds, CRPCTable.append_returns (tableAfter_noNull before), tableAfter_registry]

theorem tableAfter_append (before : List AppendCall) (c : AppendCall) :
    tableAfter (before ++ [c]) = ((tableAfter before).append c).2 := by
  simp only [tableAfter, CRPCTable.appendAll, List.foldl_append, List.foldl_cons, List.foldl_nil]

theorem succeeds_iff (before : List AppendCall) (c : AppendCall) :
    succeeds before c = true ↔ c.isRPCRunning = false ∧
      CRPCTable.new.find c.name = none ∧
      ∀ before' earlier between, before = before' ++ earlier :: between →
        succeeds before' earlier = true → earlier.name ≠ c.name := by
  rw [succeeds_eq, Registry.takes_run_iff]
  refine and_congr (by simp [AppendCall.offer]) (and_congr_right (fun _ => ?_))
  constructor
  · rintro h before' earlier between rfl hs
    rw [succeeds_eq] at hs
    exact h _ earlier.offer _ (by rw [List.map_append, List.map_cons]) hs
  · intro h offers offer offers' hsplit htaken
    obtain ⟨before', rest, rfl, rfl, hrest⟩ := List.map_eq_append_iff.mp hsplit
    obtain ⟨earlier, between, rfl, rfl, rfl⟩ := List.map_eq_cons_iff.mp hrest
    rw [← succeeds_eq] at htaken
    exact h before' earlier between rfl htaken

/-- The command of the first call for a name that was made while RPC was not running. -/
def firstAppended (calls : List AppendCall) (name : Bytes) : Option CRPCCommand :=
  (calls.find? (fun c => !c.isRPCRunning && c.name = name)).map AppendCall.pcmd

theorem firstOpen_offers (calls : List AppendCall) (name : Bytes) :
    Registry.firstOpen (calls.map AppendCall.offer) name = firstAppended calls name := by
  rw [Registry.firstOpen, firstAppended, List.find?_map, Option.map_map]
  rfl

/-- The built-in command of a name. -/
def builtinOf (name : Bytes) : Option CRPCCommand :=
  vRPCCommands.find? (fun pcmd => pcmd.name = name)

/-- Over a whole run of registrations nothing is replaced and nothing is lost. -/
structure NeverReplaced (calls : List AppendCall) : Prop where
  succeeds_iff : ∀ before c after, calls = before ++ c :: after →
    (succeeds before c = true ↔ c.isRPCRunning = false ∧
      (∀ pcmd ∈ vRPCCommands, pcmd.name ≠ c.name) ∧
      ∀ before' earlier between, before = before' ++ earlier :: between →
        succeeds before' earlier = true → earlier.name ≠ c.name)
  refused : ∀ before c after, calls = before ++ c :: after → succeeds before c = false →
    ∀ name, (tableAfter (before ++ [c])).find name = (tableAfter before).find name
  found : ∀ name, (tableAfter calls).find name = (builtinOf name).or (firstAppended calls name)
  ordered : (tableAfter calls).listCommands.Pairwise (· < ·)
  listed : ∀ name, name ∈ (tableAfter calls).listCommands ↔ (tableAfter calls).find name ≠ none

/-- Registered commands are never replaced or lost. -/
theorem never_replaced (calls : List AppendCall) : NeverReplaced calls := by
  refine ⟨?_, ?_, ?_, listCommands_ordered _, mem_listCommands (tableAfter_noNull calls)⟩
  · intro before c after _
    rw [succeeds_iff, CRPCTable.find_new_eq, List.find?_eq_none]
    simp
  · intro before c after _ hrefused name
    have hstep := CRPCTable.registry_append (tableAfter_noNull before) c
    rw [succeeds_eq, ← tableAfter_registry] at hrefused
    rw [tableAfter_append]
    exact congrFun (hstep.trans (Registry.offer_refused hrefused)) name
  · intro name
    have hrun := congrFun (tableAfter_registry calls) name
    rw [Registry.run_apply, firstOpen_offers] at hrun
    rw [builtinOf, ← CRPCTable.find_new_eq]
    exact hrun

/-- A command may go by another name than its own, and nothing is registered while RPC runs. -/
example : (tableAfter [⟨false, cstr "alias", ⟨cstr "stop", uptime, []⟩⟩,
    ⟨true, cstr "late", ⟨cstr "late", uptime, []⟩⟩]).listCommands =
    [cstr "alias", cstr "getrpcinfo", cstr "help", cstr "stop", cstr "uptime"] := by
  decide +kernel

end JsonRpcServer

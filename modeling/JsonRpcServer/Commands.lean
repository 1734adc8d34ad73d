import JsonRpcServer.CommandTable
import JsonRpcServer.RoundTrip

/-!
# Lookups in the dispatch table

What a table finds after it is built and after a command is appended, and what
the built-in commands do.
-/
namespace JsonRpcServer

open UniValue

namespace CRPCTable

theorem find_insert (m : Std.TreeMap Bytes (Option CRPCCommand)) (name name' : Bytes)
    (pcmd : Option CRPCCommand) :
    CRPCTable.find ⟨m.insert name pcmd⟩ name' =
      if name = name' then pcmd else CRPCTable.find ⟨m⟩ name' := by
  unfold CRPCTable.find
  by_cases h : name = name'
  · simp [h]
  · simp [h, Std.TreeMap.getElem?_insert]

/-- The commands are inserted in order, and their names are all different. -/
theorem find_foldl {pcmds : List CRPCCommand} (h : (pcmds.map CRPCCommand.name).Nodup)
    (m : Std.TreeMap Bytes (Option CRPCCommand)) (name : Bytes) :
    CRPCTable.find ⟨pcmds.foldl (fun m pcmd => m.insert pcmd.name (some pcmd)) m⟩ name =
      (pcmds.find? (fun pcmd => pcmd.name = name)).or (CRPCTable.find ⟨m⟩ name) := by
  induction pcmds generalizing m with
  | nil => rfl
  | cons p ps ih =>
    rw [List.map_cons, List.nodup_cons] at h
    rw [List.foldl_cons, ih h.2, find_insert, List.find?_cons]
    by_cases hn : p.name = name
    · have hother : ps.find? (fun pcmd => pcmd.name = name) = none := by
        refine List.find?_eq_none.mpr (fun q hq hqn => h.1 ?_)
        rw [hn, ← of_decide_eq_true hqn]
        exact List.mem_map_of_mem hq
      simp [hn, hother]
    · simp [hn]

/-- The table as built holds the built-in commands under their own names. -/
theorem find_new_eq (name : Bytes) :
    CRPCTable.new.find name = vRPCCommands.find? (fun pcmd => pcmd.name = name) := by
  have hnodup : (vRPCCommands.map CRPCCommand.name).Nodup := by decide
  have hfold := find_foldl hnodup ∅ name
  simpa [CRPCTable.find, CRPCTable.new] using hfold

theorem find_new {name : Bytes} {pcmd : CRPCCommand} (h : CRPCTable.new.find name = some pcmd) :
    pcmd ∈ vRPCCommands ∧ pcmd.name = name := by
  rw [find_new_eq] at h
  exact ⟨List.mem_of_find?_eq_some h, by simpa using List.find?_some h⟩

theorem find_appendCommand (t : CRPCTable) (isRPCRunning : Bool) (name name' : Bytes)
    (pcmd : Option CRPCCommand) :
    (t.appendCommand isRPCRunning name pcmd).2.find name' =
      if (t.appendCommand isRPCRunning name pcmd).1 ∧ name = name' then pcmd else t.find name' := by
  unfold appendCommand
  by_cases hr : isRPCRunning
  · simp [hr]
  by_cases hc : t.mapCommands.contains name
  · simp [hr, hc]
  · simp [hr, hc, find_insert]

end CRPCTable

/-! ## The built-in commands -/

/-- A process in which nothing has been registered. -/
def builtins : Process := ⟨CRPCTable.new, default⟩

theorem help_outcome (request : JSONRPCRequest) :
    help request = .ok (ofType .vstr []) ∨
      help request = .error (.std (cstr "JSON value is not a string as expected")) := by
  unfold help
  by_cases hlen : 0 < request.params.values.length
  · simp only [hlen, if_true, getStr]
    by_cases hs : (request.params.index 0).typ = .vstr
    · simp only [hs, ne_eq, not_true, if_false]
      exact .inl rfl
    · simp only [hs, ne_eq, not_false_eq_true, if_true]
      exact .inr rfl
  · simp only [hlen, if_false]
    exact .inl rfl

/-- A built-in command returns the empty list of active commands, a short text or zero, or throws
a `std::exception`. -/
theorem builtin_outcome {pcmd : CRPCCommand} (h : pcmd ∈ vRPCCommands) (request : JSONRPCRequest) :
    pcmd.actor request = .ok ⟨.vobj, [], [cstr "active_commands"], [ofType .varr []]⟩ ∨
      pcmd.actor request = .ok (ofType .vstr []) ∨
      pcmd.actor request = .ok (ofType .vstr (cstr "Bitcoin server stopping")) ∨
      pcmd.actor request = .ok (ofInt 0) ∨
      pcmd.actor request = .error (.std (cstr "JSON value is not a string as expected")) := by
  simp only [vRPCCommands, List.mem_cons, List.not_mem_nil, or_false] at h
  obtain rfl | rfl | rfl | rfl := h
  · exact .inl rfl
  · rcases help_outcome request with hok | herror
    · exact .inr (.inl hok)
    · exact .inr (.inr (.inr (.inr herror)))
  · exact .inr (.inr (.inl rfl))
  · exact .inr (.inr (.inr (.inl rfl)))

theorem builtin_readable {pcmd : CRPCCommand} (h : pcmd ∈ vRPCCommands) {request : JSONRPCRequest}
    {v : UniValue} (hv : pcmd.actor request = .ok v) : Readable v := by
  have htext : ∀ s ∈ [cstr "active_commands", cstr "", cstr "Bitcoin server stopping"],
      s.all (· < 0x80) := by decide
  simp only [List.forall_mem_cons] at htext
  rcases builtin_outcome h request with ho | ho | ho | ho | ho <;> rw [ho] at hv <;> cases hv
  · exact .object rfl (by simpa using readText_ascii htext.1) (by simpa using .array (by simp))
  · exact .string (readText_ascii htext.2.1)
  · exact .string (readText_ascii htext.2.2.1)
  · rw [ofInt_eq]
    exact .number (number_intText 0)

end JsonRpcServer

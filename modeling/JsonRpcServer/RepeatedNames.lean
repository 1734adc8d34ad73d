import JsonRpcServer.Bindings
import JsonRpcServer.Execution
import JsonRpcServer.NamedArguments
import JsonRpcServer.RoundTrip

/-!
# Repeated names

`UniValue::read` keeps the members of an object whose names repeat. The map of
arguments holds the last one of each name, so the others are dropped without an
error.
-/
namespace JsonRpcServer

open UniValue Bindings

/-! ## The members in the map -/

/-- The object without the members that a later one of their name follows. -/
def latestParams (params : UniValue) : UniValue :=
  ⟨.vobj, [], (latest (members params)).map Prod.fst, (latest (members params)).map Prod.snd⟩

theorem members_latestParams (params : UniValue) :
    members (latestParams params) = latest (members params) :=
  (List.zip_of_prod rfl rfl).symm

theorem nodup_latestParams (params : UniValue) : (latestParams params).keys.Nodup :=
  nodup_keys_latest (members params)

theorem lookup_latest (params : UniValue) (name : Bytes) (v : UniValue) :
    (buildArgs params.keys params.values).lookup name = some v ↔
      (name, v) ∈ latest (members params) := by
  rw [lookup_buildArgs, mem_latest_iff]
  rfl

/-- Both make the same map. -/
theorem lookup_latestParams (params : UniValue) (name : Bytes) :
    (buildArgs params.keys params.values).lookup name =
      (buildArgs (latestParams params).keys (latestParams params).values).lookup name := by
  ext v
  rw [lookup_latest, lookup_buildArgs_iff (nodup_latestParams params), members_latestParams]

theorem supplied_latestParams (params : UniValue) (p : Bytes) :
    supplied (buildArgs params.keys params.values) p =
      supplied (buildArgs (latestParams params).keys (latestParams params).values) p :=
  supplied_congr (fun name _ => lookup_latestParams params name)

section
variable {params : UniValue} {argNames : List Bytes} {st : NamedArgs}

theorem nothing_left_latest (h : Converted (buildArgs params.keys params.values) argNames st)
    (ha : (argNames.flatMap aliases).Nodup) :
    st.argsIn.keys = [] ↔ Fits argNames (latest (members params)) := by
  have hlatest := converted_foldl
    (buildArgs (latestParams params).keys (latestParams params).values) ha
  rw [← members_latestParams, ← nothing_left_iff hlatest (nodup_latestParams params) ha,
    List.eq_nil_iff_forall_not_mem, List.eq_nil_iff_forall_not_mem]
  refine forall_congr' (fun name => not_congr ?_)
  rw [left_over_iff h, left_over_iff hlatest, ← lookup_latestParams]
  simp only [← supplied_latestParams]

/-- Every entry takes at most one member, and every member that is in the map is taken. -/
theorem taken_perm (ha : (argNames.flatMap aliases).Nodup)
    (hf : Fits argNames (latest (members params))) :
    (argNames.filterMap (supplied (buildArgs params.keys params.values))).Perm
      (latest (members params)) := by
  have hdistinct : (argNames.filterMap
      (supplied (buildArgs params.keys params.values))).Nodup := by
    refine List.pairwise_filterMap.mpr ((List.nodup_flatMap.mp ha).2.imp ?_)
    rintro p q hdisjoint m hm m' hm' rfl
    exact hdisjoint (supplied_some hm).1 (supplied_some hm').1
  have hmembers : (latest (members params)).Nodup :=
    (nodup_keys_latest (members params)).of_map
  refine (List.perm_ext_iff_of_nodup hdistinct hmembers).mpr (fun m => ?_)
  rw [List.mem_filterMap]
  constructor
  · rintro ⟨p, -, hm⟩
    exact (lookup_latest params m.1 m.2).mp (supplied_some hm).2
  · intro hm
    obtain ⟨p, hp, hnp⟩ := hf.1 m hm
    have hlookup := (lookup_latest params m.1 m.2).mpr hm
    obtain ⟨m', hm'⟩ := Option.isSome_iff_exists.mp (supplied_isSome hnp (by rw [hlookup]; rfl))
    obtain ⟨hnp', hlookup'⟩ := supplied_some hm'
    have heq := hf.2 p hp m hm m' ((lookup_latest params m'.1 m'.2).mp hlookup') hnp hnp'
    exact ⟨p, hp, heq ▸ hm'⟩

end

/-! ## Holes -/

/-- Some alias of the entry is supplied. -/
def named (ms : List (Bytes × UniValue)) (p : Bytes) : Bool :=
  ms.any (fun m => (aliases p).contains m.1)

/-- The entries before the last supplied one for which nothing is supplied. -/
def holes (argNames : List Bytes) (ms : List (Bytes × UniValue)) : Nat :=
  (argNames.rdropWhile (fun p => !named ms p)).countP (fun p => !named ms p)

theorem supplied_isNone (params : UniValue) (p : Bytes) :
    (supplied (buildArgs params.keys params.values) p).isNone = !named (members params) p := by
  rw [← Option.not_isSome]
  congr 1
  rw [Bool.eq_iff_iff, named, List.any_eq_true]
  constructor
  · intro hsome
    obtain ⟨m, hm⟩ := Option.isSome_iff_exists.mp hsome
    obtain ⟨hnp, hlookup⟩ := supplied_some hm
    have hlatest := (lookup_latest params m.1 m.2).mp hlookup
    exact ⟨m, (perm_latest (members params)).mem_iff.mpr (List.mem_append_left _ hlatest),
      by simpa using hnp⟩
  · rintro ⟨m, hm, hnp⟩
    have hkey := (mem_keys_latest (members params) m.1).mpr (List.mem_map_of_mem hm)
    obtain ⟨⟨name, v⟩, hlatest, rfl⟩ := List.mem_map.mp hkey
    refine supplied_isSome (by simpa using hnp) ?_
    rw [(lookup_latest params m.1 v).mpr hlatest]
    rfl

/-- The values by position are those in the map, and a null for every hole. -/
theorem positional_perm {params : UniValue} {argNames : List Bytes}
    (ha : (argNames.flatMap aliases).Nodup) (hf : Fits argNames (latest (members params))) :
    (positional (supply (buildArgs params.keys params.values) argNames)).Perm
      ((latest (members params)).map Prod.snd ++
        List.replicate (holes argNames (members params)) null) := by
  let argsIn := buildArgs params.keys params.values
  have hvalues : ((supply argsIn argNames).rdropWhile Option.isNone).reduceOption =
      (argNames.filterMap (supplied argsIn)).map Prod.snd := by
    rw [reduceOption_rdropWhile, supply, List.reduceOption, List.filterMap_map, List.map_filterMap]
    rfl
  have hholes : ((supply argsIn argNames).rdropWhile Option.isNone).countP Option.isNone =
      holes argNames (members params) := by
    have hnone : Option.isNone ∘ (fun p => (supplied argsIn p).map Prod.snd) =
        fun p => !named (members params) p := by
      funext p
      rw [Function.comp_apply, Option.isNone_map, supplied_isNone]
    rw [supply, rdropWhile_map, List.countP_map, hnone, holes]
  have hperm := perm_getD ((supply argsIn argNames).rdropWhile Option.isNone) null
  rw [hvalues, hholes] at hperm
  exact hperm.trans (((taken_perm ha hf).map Prod.snd).append_right _)

/-! ## What is dropped -/

section
variable {order : HashOrder} {request out : JSONRPCRequest} {argNames : List Bytes}

/-- Of members of one name the last one counts, whether the request is refused or not. -/
theorem transformNamedArguments_latest (hp : request.params.isObject)
    (ha : (argNames.flatMap aliases).Nodup) :
    transformNamedArguments order request argNames = .ok out ↔
      Fits argNames (latest (members request.params)) ∧
        out = { request with params := ⟨.varr, [], [], positional
          (supply (buildArgs request.params.keys request.params.values) argNames)⟩ } := by
  rw [transformNamedArguments_ok hp ha, nothing_left_latest (converted_foldl _ ha) ha]

/-- An error of the conversion leaves `execute` as it is, and no actor is called. -/
theorem execute_refused {g : Process} {pcmd : CRPCCommand} {e : UniValue}
    (hp : request.params.isObject) (hf : g.tableRPC.find request.strMethod = some pcmd)
    (ht : transformNamedArguments g.order request pcmd.argNames = .error (.univalue e))
    (t : CRPCTable) : (t.execute g request).run = pure (.error (.univalue e)) := by
  unfold CRPCTable.execute
  rw [hf]
  simp only [hp, if_true, ht]
  rfl

/-- Every supplied member has a position of its own, where its value stands, and the other
positions hold null; or the error is `RPC_INVALID_PARAMETER` and no actor is called. -/
structure NoneDropped (g : Process) (request : JSONRPCRequest) (argNames : List Bytes) :
    Prop where
  assigned : ∀ out, transformNamedArguments g.order request argNames = .ok out →
    out.params.isArray ∧ HasPlaces null ((members request.params).map Prod.snd) out.params.values
  refused : ∀ e, transformNamedArguments g.order request argNames = .error e →
    (∃ message, e = .univalue (jsonrpcError rpcInvalidParameter message)) ∧
      ∀ pcmd, g.tableRPC.find request.strMethod = some pcmd → pcmd.argNames = argNames →
        ∀ t : CRPCTable, (t.execute g request).run = pure (.error e)

/-- The members that do not count are null, and there is a hole for each of them. -/
def Spare (argNames : List Bytes) (ms : List (Bytes × UniValue)) : Prop :=
  (∀ m ∈ superseded ms, m.2 = null) ∧ (superseded ms).length ≤ holes argNames ms

theorem hasPlaces_positional_iff {params : UniValue} (ha : (argNames.flatMap aliases).Nodup)
    (hf : Fits argNames (latest (members params))) :
    HasPlaces null ((members params).map Prod.snd)
        (positional (supply (buildArgs params.keys params.values) argNames)) ↔
      Spare argNames (members params) := by
  have hmembers := (perm_latest (members params)).map Prod.snd
  rw [List.map_append] at hmembers
  rw [hasPlaces_iff_of_perm (positional_perm ha hf) hmembers, List.forall_mem_map, List.length_map]
  rfl

/-- No member is dropped exactly where the request is refused, or what does not count are nulls
for which there are holes. -/
theorem none_dropped_iff (g : Process) (hp : request.params.isObject)
    (ha : (argNames.flatMap aliases).Nodup) :
    NoneDropped g request argNames ↔
      ¬ Fits argNames (latest (members request.params)) ∨
        Spare argNames (members request.params) := by
  constructor
  · intro h
    by_cases hf : Fits argNames (latest (members request.params))
    · have hplaced := (h.assigned _ ((transformNamedArguments_latest hp ha).mpr ⟨hf, rfl⟩)).2
      exact .inr ((hasPlaces_positional_iff ha hf).mp hplaced)
    · exact .inl hf
  · intro h
    constructor
    · intro out hout
      obtain ⟨hf, rfl⟩ := (transformNamedArguments_latest hp ha).mp hout
      exact ⟨rfl, (hasPlaces_positional_iff ha hf).mpr (h.resolve_left (not_not.mpr hf))⟩
    · intro e he
      obtain ⟨name, -, rfl⟩ := transformNamedArguments_error hp he
      refine ⟨⟨_, rfl⟩, ?_⟩
      rintro pcmd hf rfl t
      exact execute_refused hp hf he t

end

/-- A null that a later member overrides passes for a hole. -/
theorem none_dropped_iff_hole :
    NoneDropped ⟨.new, default⟩
      { JSONRPCRequest.new with
        params := ⟨.vobj, [], [cstr "b", cstr "b"], [null, ofType .vstr (cstr "x")]⟩ }
      [cstr "a", cstr "b"] :=
  (none_dropped_iff ⟨.new, default⟩ rfl (by decide)).mpr (.inr ⟨by decide, by decide⟩)

/-- A request for `help` whose argument is supplied twice. -/
def helpTwice : Bytes := cstr "\x7b\"command\":\"stop\",\"command\":\"help\"\x7d"

theorem stop_dropped :
    (read helpTwice).1 = true ∧ (read helpTwice).2.isObject ∧
      ([cstr "command"].flatMap aliases).Nodup ∧
      ¬ NoneDropped ⟨.new, default⟩
        { JSONRPCRequest.new with strMethod := cstr "help", params := (read helpTwice).2 }
        [cstr "command"] := by
  have hread : read helpTwice = (true, ⟨.vobj, [], [cstr "command", cstr "command"],
      [ofType .vstr (cstr "stop"), ofType .vstr (cstr "help")]⟩) := by decide +kernel
  rw [hread]
  refine ⟨rfl, rfl, by decide, fun h => ?_⟩
  have hplaced := (h.assigned _ rfl).2
  exact absurd hplaced.length_le (by decide)

end JsonRpcServer

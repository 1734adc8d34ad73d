import JsonRpcServer.CommandTable
import Mathlib.Data.List.DropRight
import Mathlib.Data.List.Nodup

/-!
# Named arguments

What `transformNamedArguments` makes of the members of an object: the values by
position, with nulls where an entry between two supplied ones is not supplied.
-/
namespace JsonRpcServer

open UniValue

def members (params : UniValue) : List (Bytes × UniValue) := params.keys.zip params.values

/-- The names an entry of `argNames` goes by. -/
def aliases (argNamePattern : Bytes) : List Bytes := argNamePattern.splitOn 0x7c

/-! ## The map of arguments -/

/-- The last member of a name is the one in the map. -/
theorem lookup_buildArgs (keys : List Bytes) (values : List UniValue) (name : Bytes) :
    (buildArgs keys values).lookup name =
      ((keys.zip values).reverse.find? (fun m => m.1 = name)).map Prod.snd := by
  unfold buildArgs
  induction keys.zip values using List.reverseRecOn with
  | nil => rfl
  | append_singleton ms m ih =>
    rw [List.foldl_concat, List.reverse_concat, List.find?_cons]
    by_cases h : m.1 = name
    · subst h
      simp [AList.lookup_insert]
    · rw [AList.lookup_insert_ne (Ne.symm h), ih]
      simp [h]

theorem map_fst_zip_sublist {α β : Type} (ks : List α) (vs : List β) :
    ((ks.zip vs).map Prod.fst).Sublist ks := by
  induction ks generalizing vs with
  | nil => simp
  | cons k ks ih =>
    cases vs with
    | nil => simp
    | cons v vs => simpa using ih vs

theorem members_inj {params : UniValue} (h : params.keys.Nodup) {m m' : Bytes × UniValue}
    (hm : m ∈ members params) (hm' : m' ∈ members params) (heq : m.1 = m'.1) : m = m' := by
  have hnodup : ((members params).map Prod.fst).Nodup := h.sublist (map_fst_zip_sublist _ _)
  exact List.inj_on_of_nodup_map hnodup hm hm' heq

theorem lookup_buildArgs_iff {params : UniValue} (h : params.keys.Nodup) (name : Bytes)
    (v : UniValue) :
    (buildArgs params.keys params.values).lookup name = some v ↔ (name, v) ∈ members params := by
  rw [lookup_buildArgs]
  constructor
  · intro hv
    obtain ⟨m, hm, rfl⟩ := Option.map_eq_some_iff.mp hv
    obtain rfl : m.1 = name := by simpa using List.find?_some hm
    exact List.mem_reverse.mp (List.mem_of_find?_eq_some hm)
  · intro hv
    cases hf : (params.keys.zip params.values).reverse.find? (fun m => m.1 = name) with
    | none =>
      have hnone := List.find?_eq_none.mp hf (name, v) (List.mem_reverse.mpr hv)
      simp at hnone
    | some m =>
      have hname : m.1 = name := by simpa using List.find?_some hf
      have hm : m ∈ members params := List.mem_reverse.mp (List.mem_of_find?_eq_some hf)
      rw [members_inj h hm hv hname]
      rfl

theorem mem_keys_of_lookup {keys : List Bytes} {values : List UniValue} {name : Bytes}
    (h : ((buildArgs keys values).lookup name).isSome) : name ∈ keys := by
  rw [lookup_buildArgs, Option.isSome_map] at h
  obtain ⟨m, hm⟩ := Option.isSome_iff_exists.mp h
  obtain rfl : m.1 = name := by simpa using List.find?_some hm
  exact (List.of_mem_zip (List.mem_reverse.mp (List.mem_of_find?_eq_some hm))).1

/-! ## The values by position -/

theorem foldl_pushBack (vs xs : List UniValue) :
    xs.foldl pushBack ⟨.varr, [], [], vs⟩ = ⟨.varr, [], [], vs ++ xs⟩ := by
  induction xs generalizing vs with
  | nil => simp
  | cons x xs ih =>
    have hpush : pushBack ⟨.varr, [], [], vs⟩ x = ⟨.varr, [], [], vs ++ [x]⟩ := rfl
    rw [List.foldl_cons, hpush, ih, List.append_assoc, List.singleton_append]

/-- What is supplied, with nulls for what is not, up to the last that is. -/
def positional (supply : List (Option UniValue)) : List UniValue :=
  (supply.rdropWhile Option.isNone).map (·.getD null)

theorem positional_none (supply : List (Option UniValue)) :
    positional (supply ++ [none]) = positional supply := by
  rw [positional, List.rdropWhile_concat_pos _ _ _ rfl, positional]

theorem positional_some (supply : List (Option UniValue)) (v : UniValue) :
    positional (supply ++ [some v]) = supply.map (·.getD null) ++ [v] := by
  rw [positional, List.rdropWhile_concat_neg _ _ _ (by simp), List.map_append]
  rfl

theorem positional_append (supply : List (Option UniValue)) {hole : Nat}
    (h : (positional supply).length + hole = supply.length) :
    positional supply ++ List.replicate hole null = supply.map (·.getD null) := by
  have hsplit := List.rdropWhile_append_rtakeWhile (p := Option.isNone) (l := supply)
  have hlen : (supply.rtakeWhile Option.isNone).length = hole := by
    have htotal := congrArg List.length hsplit
    rw [List.length_append] at htotal
    rw [positional, List.length_map] at h
    omega
  have hnone : (supply.rtakeWhile Option.isNone).map (·.getD null) = List.replicate hole null := by
    refine List.eq_replicate_iff.mpr ⟨by rw [List.length_map, hlen], ?_⟩
    intro v hv
    obtain ⟨x, hx, rfl⟩ := List.mem_map.mp hv
    have hx' : x.isNone := List.mem_rtakeWhile_imp hx
    rw [Option.isNone_iff_eq_none.mp hx']
    rfl
  rw [positional, ← hnone, ← List.map_append, hsplit]

theorem positional_getElem {supply : List (Option UniValue)} {i : Nat}
    (h : i < (positional supply).length) :
    (positional supply)[i]? = some ((supply[i]?.getD none).getD null) := by
  have hi : i < (supply.rdropWhile Option.isNone).length := by simpa [positional] using h
  have hprefix := (List.rdropWhile_prefix (p := Option.isNone) (l := supply)).getElem hi
  have hsupply : i < supply.length :=
    hi.trans_le (List.rdropWhile_prefix (p := Option.isNone) (l := supply)).length_le
  simp [positional, hi, hsupply, hprefix]

/-- Nothing that is supplied is cut off. -/
theorem lt_positional {supply : List (Option UniValue)} {i : Nat} {v : UniValue}
    (h : supply[i]? = some (some v)) : i < (positional supply).length := by
  rw [positional, List.length_map]
  by_contra hi
  rw [← List.rdropWhile_append_rtakeWhile (p := Option.isNone) (l := supply),
    List.getElem?_append_right (Nat.le_of_not_lt hi)] at h
  have hnone := List.mem_rtakeWhile_imp (List.mem_of_getElem? h)
  simp at hnone

/-- The last value is one that is supplied. -/
theorem positional_last {supply : List (Option UniValue)} (h : positional supply ≠ []) :
    ∃ v, supply[(positional supply).length - 1]? = some (some v) := by
  induction supply using List.reverseRecOn with
  | nil => exact absurd rfl h
  | append_singleton supply x ih =>
    cases x with
    | none =>
      rw [positional_none] at h ⊢
      obtain ⟨v, hv⟩ := ih h
      have hi := (List.getElem?_eq_some_iff.mp hv).1
      exact ⟨v, by rw [List.getElem?_append_left hi, hv]⟩
    | some v => exact ⟨v, by simp [positional_some]⟩

/-! ## The loop -/

/-- The first alias of an entry that is in the map, with its value. -/
def supplied (argsIn : ArgMap) (argNamePattern : Bytes) : Option (Bytes × UniValue) :=
  (aliases argNamePattern).findSome? (fun argName =>
    (argsIn.lookup argName).map (argName, ·))

def supply (argsIn : ArgMap) (argNames : List Bytes) : List (Option UniValue) :=
  argNames.map (fun p => (supplied argsIn p).map Prod.snd)

theorem supplied_some {argsIn : ArgMap} {p name : Bytes} {v : UniValue}
    (h : supplied argsIn p = some (name, v)) :
    name ∈ aliases p ∧ argsIn.lookup name = some v := by
  obtain ⟨argName, hmem, hname⟩ := List.exists_of_findSome?_eq_some h
  obtain ⟨x, hx, heq⟩ := Option.map_eq_some_iff.mp hname
  obtain ⟨rfl, rfl⟩ : argName = name ∧ x = v := by simpa using heq
  exact ⟨hmem, hx⟩

theorem supplied_isSome {argsIn : ArgMap} {p name : Bytes} (hp : name ∈ aliases p)
    (h : (argsIn.lookup name).isSome) : (supplied argsIn p).isSome := by
  rw [supplied, List.findSome?_isSome_iff]
  exact ⟨name, hp, by simpa using h⟩

theorem supplied_congr {argsIn argsIn' : ArgMap} {p : Bytes}
    (h : ∀ name ∈ aliases p, argsIn.lookup name = argsIn'.lookup name) :
    supplied argsIn p = supplied argsIn' p := by
  unfold supplied
  generalize aliases p = names at h ⊢
  induction names with
  | nil => rfl
  | cons name names ih =>
    rw [List.findSome?_cons, List.findSome?_cons, h name (by simp),
      ih (fun n hn => h n (by simp [hn]))]

/-- The state of the loop after the entries `done`: their values by position, and the map without
the aliases that were found. -/
structure Converted (argsIn : ArgMap) (done : List Bytes) (st : NamedArgs) : Prop where
  params : st.params = ⟨.varr, [], [], positional (supply argsIn done)⟩
  hole : (positional (supply argsIn done)).length + st.hole = done.length
  taken : ∀ p ∈ done, ∀ m, supplied argsIn p = some m → st.argsIn.lookup m.1 = none
  left : ∀ name, (∀ p ∈ done, ∀ v, supplied argsIn p ≠ some (name, v)) →
    st.argsIn.lookup name = argsIn.lookup name

theorem converted_nil (argsIn : ArgMap) : Converted argsIn [] ⟨ofType .varr [], argsIn, 0⟩ :=
  ⟨rfl, rfl, by simp, fun _ _ => rfl⟩

theorem step_none {st : NamedArgs} {p : Bytes} (h : supplied st.argsIn p = none) :
    st.step p = { st with hole := st.hole + 1 } := by
  unfold supplied aliases at h
  simp only [NamedArgs.step, h]

theorem step_some {st : NamedArgs} {p argName : Bytes} {value : UniValue}
    (h : supplied st.argsIn p = some (argName, value)) :
    st.step p = ⟨((List.replicate st.hole null).foldl pushBack st.params).pushBack value,
      st.argsIn.erase argName, 0⟩ := by
  unfold supplied aliases at h
  simp only [NamedArgs.step, h]

theorem converted_step {argsIn : ArgMap} {done : List Bytes} {st : NamedArgs} {p : Bytes}
    (h : Converted argsIn done st) (hp : ∀ q ∈ done, ∀ name ∈ aliases q, name ∉ aliases p) :
    Converted argsIn (done ++ [p]) (st.step p) := by
  have hsupplied : supplied st.argsIn p = supplied argsIn p := by
    refine supplied_congr (fun name hname => h.left name (fun q hq v hv => ?_))
    exact hp q hq name (supplied_some hv).1 hname
  have hsupply : supply argsIn (done ++ [p]) =
      supply argsIn done ++ [(supplied argsIn p).map Prod.snd] := by simp [supply]
  cases hs : supplied argsIn p with
  | none =>
    simp only [hs, Option.map_none] at hsupply
    rw [step_none (hsupplied.trans hs)]
    refine ⟨?_, ?_, ?_, ?_⟩
    · rw [hsupply, positional_none]
      exact h.params
    · rw [hsupply, positional_none, List.length_append, List.length_singleton, ← h.hole]
      rfl
    · intro q hq m hm
      rcases List.mem_append.mp hq with hq | hq
      · exact h.taken q hq m hm
      · obtain rfl := List.mem_singleton.mp hq
        simp [hs] at hm
    · exact fun name hname => h.left name (fun q hq => hname q (List.mem_append_left _ hq))
  | some m =>
    obtain ⟨argName, value⟩ := m
    simp only [hs, Option.map_some] at hsupply
    rw [step_some (hsupplied.trans hs)]
    have hlength : (supply argsIn done).length = done.length := by simp [supply]
    refine ⟨?_, ?_, ?_, ?_⟩
    · rw [hsupply, positional_some, ← positional_append _ (h.hole.trans hlength.symm), h.params,
        foldl_pushBack]
      rfl
    · simp [hsupply, positional_some, hlength]
    · intro q hq m hm
      rcases List.mem_append.mp hq with hq | hq
      · by_cases hname : m.1 = argName
        · rw [hname, AList.lookup_erase]
        · rw [AList.lookup_erase_ne hname]
          exact h.taken q hq m hm
      · obtain rfl := List.mem_singleton.mp hq
        obtain rfl : (argName, value) = m := by simpa [hs] using hm
        exact AList.lookup_erase _ _
    · intro name hname
      have hne : name ≠ argName := by
        rintro rfl
        exact hname p (by simp) value hs
      rw [AList.lookup_erase_ne hne]
      exact h.left name (fun q hq => hname q (List.mem_append_left _ hq))

/-- The loop over all the entries, whose aliases are all different. -/
theorem converted_foldl (argsIn : ArgMap) {argNames : List Bytes}
    (h : (argNames.flatMap aliases).Nodup) :
    Converted argsIn argNames (argNames.foldl NamedArgs.step ⟨ofType .varr [], argsIn, 0⟩) := by
  induction argNames using List.reverseRecOn with
  | nil => exact converted_nil argsIn
  | append_singleton done p ih =>
    rw [List.flatMap_append, List.nodup_append] at h
    obtain ⟨hdone, -, hdisjoint⟩ := h
    rw [List.foldl_concat]
    refine converted_step (ih hdone) (fun q hq name hname hp => ?_)
    exact hdisjoint name (List.mem_flatMap.mpr ⟨q, hq, hname⟩) name (by simpa using hp) rfl

/-! ## What the names say -/

/-- `v` is supplied under an alias of entry `i`. -/
def SuppliedAt (argNames : List Bytes) (ms : List (Bytes × UniValue)) (i : Nat) (v : UniValue) :
    Prop :=
  ∃ p name, argNames[i]? = some p ∧ name ∈ aliases p ∧ (name, v) ∈ ms

/-- Every supplied name is an alias of some entry, and no entry has two of its aliases supplied. -/
def Fits (argNames : List Bytes) (ms : List (Bytes × UniValue)) : Prop :=
  (∀ m ∈ ms, ∃ p ∈ argNames, m.1 ∈ aliases p) ∧
    ∀ p ∈ argNames, ∀ m ∈ ms, ∀ m' ∈ ms, m.1 ∈ aliases p → m'.1 ∈ aliases p → m = m'

/-- `vs` has the supplied values in their places, nulls elsewhere, and ends with the last
supplied one. -/
structure Positions (argNames : List Bytes) (ms : List (Bytes × UniValue)) (vs : List UniValue) :
    Prop where
  length : (ms = [] ∧ vs = []) ∨
    ∃ i, vs.length = i + 1 ∧ (∃ v, SuppliedAt argNames ms i v) ∧
      ∀ j v, SuppliedAt argNames ms j v → j ≤ i
  value : ∀ i v, SuppliedAt argNames ms i v → vs[i]? = some v
  gap : ∀ i < vs.length, (∀ v, ¬ SuppliedAt argNames ms i v) → vs[i]? = some null

theorem alias_index {argNames : List Bytes} (h : (argNames.flatMap aliases).Nodup) {i j : Nat}
    {p q name : Bytes} (hi : argNames[i]? = some p) (hj : argNames[j]? = some q)
    (hp : name ∈ aliases p) (hq : name ∈ aliases q) : i = j := by
  have hpairwise := (List.nodup_flatMap.mp h).2
  obtain ⟨hilt, rfl⟩ := List.getElem?_eq_some_iff.mp hi
  obtain ⟨hjlt, rfl⟩ := List.getElem?_eq_some_iff.mp hj
  rcases Nat.lt_trichotomy i j with hlt | heq | hlt
  · exact absurd hq (List.pairwise_iff_getElem.mp hpairwise i j hilt hjlt hlt hp)
  · exact heq
  · exact absurd hp (List.pairwise_iff_getElem.mp hpairwise j i hjlt hilt hlt hq)

theorem alias_entry {argNames : List Bytes} (h : (argNames.flatMap aliases).Nodup)
    {p q name : Bytes} (hp : p ∈ argNames) (hq : q ∈ argNames) (hnp : name ∈ aliases p)
    (hnq : name ∈ aliases q) : p = q := by
  obtain ⟨i, hi⟩ := List.getElem?_of_mem hp
  obtain ⟨j, hj⟩ := List.getElem?_of_mem hq
  obtain rfl := alias_index h hi hj hnp hnq
  exact Option.some.inj (hi.symm.trans hj)

section
variable {params : UniValue} {argNames : List Bytes} {st : NamedArgs}

/-- What is left in the map are the names that no entry has taken. -/
theorem left_over_iff (h : Converted (buildArgs params.keys params.values) argNames st)
    (name : Bytes) :
    name ∈ st.argsIn.keys ↔
      ((buildArgs params.keys params.values).lookup name).isSome ∧
        ∀ p ∈ argNames, ∀ v, supplied (buildArgs params.keys params.values) p ≠ some (name, v) := by
  rw [← AList.mem_keys, ← AList.lookup_isSome]
  constructor
  · intro hsome
    have hfree : ∀ p ∈ argNames, ∀ v,
        supplied (buildArgs params.keys params.values) p ≠ some (name, v) := by
      intro p hp v hv
      rw [h.taken p hp _ hv] at hsome
      simp at hsome
    rw [h.left name hfree] at hsome
    exact ⟨hsome, hfree⟩
  · rintro ⟨hsome, hfree⟩
    rwa [h.left name hfree]

theorem nothing_left_iff (h : Converted (buildArgs params.keys params.values) argNames st)
    (hk : params.keys.Nodup) (ha : (argNames.flatMap aliases).Nodup) :
    st.argsIn.keys = [] ↔ Fits argNames (members params) := by
  rw [List.eq_nil_iff_forall_not_mem]
  constructor
  · intro hleft
    have htaken : ∀ m ∈ members params, ∃ p ∈ argNames, ∃ v,
        supplied (buildArgs params.keys params.values) p = some (m.1, v) := by
      intro m hm
      have hlookup := (lookup_buildArgs_iff hk m.1 m.2).mpr hm
      by_contra hfree
      push Not at hfree
      exact hleft m.1 ((left_over_iff h m.1).mpr ⟨by rw [hlookup]; rfl, hfree⟩)
    constructor
    · intro m hm
      obtain ⟨p, hp, v, hv⟩ := htaken m hm
      exact ⟨p, hp, (supplied_some hv).1⟩
    · intro p hp m hm m' hm' hmp hmp'
      obtain ⟨q, hq, v, hv⟩ := htaken m hm
      obtain ⟨q', hq', v', hv'⟩ := htaken m' hm'
      obtain rfl := alias_entry ha hp hq hmp (supplied_some hv).1
      obtain rfl := alias_entry ha hp hq' hmp' (supplied_some hv').1
      have hname : (m.1, v) = (m'.1, v') := Option.some.inj (hv.symm.trans hv')
      exact members_inj hk hm hm' (Prod.mk.inj hname).1
  · intro hfits name hname
    obtain ⟨hsome, hfree⟩ := (left_over_iff h name).mp hname
    obtain ⟨v, hv⟩ := Option.isSome_iff_exists.mp hsome
    have hm := (lookup_buildArgs_iff hk name v).mp hv
    obtain ⟨p, hp, hnp⟩ := hfits.1 _ hm
    obtain ⟨⟨name', v'⟩, hm'⟩ := Option.isSome_iff_exists.mp (supplied_isSome hnp hsome)
    obtain ⟨hnp', hv'⟩ := supplied_some hm'
    have heq := hfits.2 p hp _ hm _ ((lookup_buildArgs_iff hk name' v').mp hv') hnp hnp'
    exact hfree p hp v (hm'.trans (congrArg some heq.symm))

/-- The names are taken in their places. -/
theorem suppliedAt_iff (hk : params.keys.Nodup) (hf : Fits argNames (members params)) (i : Nat)
    (v : UniValue) :
    SuppliedAt argNames (members params) i v ↔
      (supply (buildArgs params.keys params.values) argNames)[i]? = some (some v) := by
  simp only [supply, List.getElem?_map, Option.map_eq_some_iff]
  constructor
  · rintro ⟨p, name, hp, hnp, hm⟩
    have hlookup := (lookup_buildArgs_iff hk name v).mpr hm
    obtain ⟨⟨name', v'⟩, hs⟩ :=
      Option.isSome_iff_exists.mp (supplied_isSome hnp (by rw [hlookup]; rfl))
    obtain ⟨hnp', hv'⟩ := supplied_some hs
    have heq := hf.2 p (List.mem_of_getElem? hp) _ hm _
      ((lookup_buildArgs_iff hk name' v').mp hv') hnp hnp'
    exact ⟨p, hp, _, hs, (Prod.mk.inj heq).2.symm⟩
  · rintro ⟨p, hp, ⟨name, v'⟩, hs, rfl⟩
    obtain ⟨hnp, hv⟩ := supplied_some hs
    exact ⟨p, name, hp, hnp, (lookup_buildArgs_iff hk name v').mp hv⟩

theorem positions_positional (hk : params.keys.Nodup) (hf : Fits argNames (members params)) :
    Positions argNames (members params)
      (positional (supply (buildArgs params.keys params.values) argNames)) := by
  have hat := suppliedAt_iff hk hf
  refine ⟨?_, ?_, ?_⟩
  · by_cases hnil : positional (supply (buildArgs params.keys params.values) argNames) = []
    · refine .inl ⟨List.eq_nil_iff_forall_not_mem.mpr (fun m hm => ?_), hnil⟩
      obtain ⟨p, hp, hnp⟩ := hf.1 m hm
      obtain ⟨i, hi⟩ := List.getElem?_of_mem hp
      have hlt := lt_positional ((hat i m.2).mp ⟨p, m.1, hi, hnp, hm⟩)
      simp [hnil] at hlt
    · have hpos := List.length_pos_iff.mpr hnil
      obtain ⟨v, hv⟩ := positional_last hnil
      refine .inr ⟨_, (Nat.sub_add_cancel hpos).symm, ⟨v, (hat _ v).mpr hv⟩, fun j v hj => ?_⟩
      have hlt := lt_positional ((hat j v).mp hj)
      omega
  · intro i v hi
    have hs := (hat i v).mp hi
    rw [positional_getElem (lt_positional hs), hs]
    rfl
  · intro i hi hgap
    rw [positional_getElem hi]
    cases hs : (supply (buildArgs params.keys params.values) argNames)[i]? with
    | none => rfl
    | some x =>
      cases x with
      | none => rfl
      | some v => exact absurd ((hat i v).mpr hs) (hgap v)

end

/-! ## Order and spelling -/

/-- Each member by the entry it belongs to. -/
def entries (argNames : List Bytes) (ms : List (Bytes × UniValue)) : List (Option Nat × UniValue) :=
  ms.map (fun m => (argNames.findIdx? (fun p => m.1 ∈ aliases p), m.2))

theorem findIdx_alias {argNames : List Bytes} (h : (argNames.flatMap aliases).Nodup) {i : Nat}
    {name : Bytes} :
    argNames.findIdx? (fun p => name ∈ aliases p) = some i ↔
      ∃ p, argNames[i]? = some p ∧ name ∈ aliases p := by
  rw [List.findIdx?_eq_some_iff_getElem]
  constructor
  · rintro ⟨hi, hp, -⟩
    exact ⟨_, List.getElem?_eq_getElem hi, by simpa using hp⟩
  · rintro ⟨p, hi, hp⟩
    obtain ⟨hilt, rfl⟩ := List.getElem?_eq_some_iff.mp hi
    refine ⟨hilt, by simpa using hp, fun j hj hjp => ?_⟩
    have hji := alias_index h (List.getElem?_eq_getElem (hj.trans hilt)) hi (by simpa using hjp) hp
    omega

theorem suppliedAt_entries {argNames : List Bytes} (h : (argNames.flatMap aliases).Nodup)
    (ms : List (Bytes × UniValue)) (i : Nat) (v : UniValue) :
    SuppliedAt argNames ms i v ↔ (some i, v) ∈ entries argNames ms := by
  simp only [entries, List.mem_map, Prod.mk.injEq, findIdx_alias h]
  constructor
  · rintro ⟨p, name, hp, hnp, hm⟩
    exact ⟨(name, v), hm, ⟨p, hp, hnp⟩, rfl⟩
  · rintro ⟨⟨name, v⟩, hm, ⟨p, hp, hnp⟩, rfl⟩
    exact ⟨p, name, hp, hnp, hm⟩

theorem fits_entries {argNames : List Bytes} (h : (argNames.flatMap aliases).Nodup)
    {params : UniValue} (hk : params.keys.Nodup) :
    Fits argNames (members params) ↔
      none ∉ (entries argNames (members params)).map Prod.fst ∧
        ((entries argNames (members params)).map Prod.fst).Nodup := by
  have hmap : (entries argNames (members params)).map Prod.fst =
      (members params).map (fun m => argNames.findIdx? (fun p => m.1 ∈ aliases p)) := by
    simp [entries, Function.comp_def]
  have hms : (members params).Nodup :=
    (hk.sublist (map_fst_zip_sublist _ _)).of_map
  rw [hmap]
  constructor
  · intro hf
    constructor
    · simp only [List.mem_map, List.findIdx?_eq_none_iff, not_exists, not_and, not_forall]
      intro m hm
      obtain ⟨p, hp, hnp⟩ := hf.1 m hm
      exact ⟨p, hp, by simpa using hnp⟩
    · refine List.Nodup.map_on (fun m hm m' hm' heq => ?_) hms
      obtain ⟨p, hp, hnp⟩ := hf.1 m hm
      obtain ⟨i, hi⟩ := List.getElem?_of_mem hp
      have hidx := (findIdx_alias h).mpr ⟨p, hi, hnp⟩
      obtain ⟨p', hi', hnp'⟩ := (findIdx_alias h).mp (heq.symm.trans hidx)
      obtain rfl : p = p' := Option.some.inj (hi.symm.trans hi')
      exact hf.2 p hp m hm m' hm' hnp hnp'
  · rintro ⟨hnone, hnodup⟩
    constructor
    · intro m hm
      cases hidx : argNames.findIdx? (fun p => m.1 ∈ aliases p) with
      | none => exact absurd (List.mem_map.mpr ⟨m, hm, hidx⟩) hnone
      | some i =>
        obtain ⟨p, hi, hnp⟩ := (findIdx_alias h).mp hidx
        exact ⟨p, List.mem_of_getElem? hi, hnp⟩
    · intro p hp m hm m' hm' hnp hnp'
      obtain ⟨i, hi⟩ := List.getElem?_of_mem hp
      refine List.inj_on_of_nodup_map hnodup hm hm' ?_
      exact ((findIdx_alias h).mpr ⟨p, hi, hnp⟩).trans ((findIdx_alias h).mpr ⟨p, hi, hnp'⟩).symm

theorem supply_entries {argNames : List Bytes} (h : (argNames.flatMap aliases).Nodup)
    {params params' : UniValue} (hk : params.keys.Nodup) (hk' : params'.keys.Nodup)
    (hf : Fits argNames (members params)) (hf' : Fits argNames (members params'))
    (hperm : (entries argNames (members params)).Perm (entries argNames (members params'))) :
    supply (buildArgs params.keys params.values) argNames =
      supply (buildArgs params'.keys params'.values) argNames := by
  have hsome : ∀ (i : Nat) (v : UniValue),
      (supply (buildArgs params.keys params.values) argNames)[i]? = some (some v) ↔
      (supply (buildArgs params'.keys params'.values) argNames)[i]? = some (some v) := by
    intro i v
    rw [← suppliedAt_iff hk hf, ← suppliedAt_iff hk' hf', suppliedAt_entries h,
      suppliedAt_entries h, hperm.mem_iff]
  refine List.ext_getElem (by simp [supply]) (fun i hi hi' => ?_)
  ext v
  have hv := hsome i v
  rw [List.getElem?_eq_getElem hi, List.getElem?_eq_getElem hi'] at hv
  simpa only [Option.some.injEq] using hv

/-! ## `transformNamedArguments` -/

section
variable {order : HashOrder} {request out : JSONRPCRequest} {argNames : List Bytes}

/-- What becomes of a request whose params are an object. -/
theorem transformNamedArguments_eq (hp : request.params.isObject) :
    transformNamedArguments order request argNames =
      let st := argNames.foldl NamedArgs.step
        ⟨ofType .varr [], buildArgs request.params.keys request.params.values, 0⟩
      if st.argsIn.keys ≠ [] then
        .error (.univalue (jsonrpcError rpcInvalidParameter
          (cstr "Unknown named parameter " ++ order.first request.params.keys st.argsIn.keys)))
      else .ok { request with params := st.params } := by
  simp only [transformNamedArguments, hp, Bool.not_true, Bool.false_eq_true, if_false]

/-- It returns exactly where nothing is left in the map, with the values by position. -/
theorem transformNamedArguments_ok (hp : request.params.isObject)
    (ha : (argNames.flatMap aliases).Nodup) :
    transformNamedArguments order request argNames = .ok out ↔
      (argNames.foldl NamedArgs.step ⟨ofType .varr [],
        buildArgs request.params.keys request.params.values, 0⟩).argsIn.keys = [] ∧
        out = { request with params := ⟨.varr, [], [], positional
          (supply (buildArgs request.params.keys request.params.values) argNames)⟩ } := by
  have hconverted := converted_foldl (buildArgs request.params.keys request.params.values) ha
  rw [transformNamedArguments_eq hp, ← hconverted.params]
  simp only
  split
  next hleft => simp [hleft]
  next hleft => simp [not_not.mp hleft, eq_comm]

/-- It returns exactly where the names fit. -/
theorem transformNamedArguments_ok_iff (hp : request.params.isObject)
    (hk : request.params.keys.Nodup) (ha : (argNames.flatMap aliases).Nodup) :
    transformNamedArguments order request argNames = .ok out ↔
      Fits argNames (members request.params) ∧
        out = { request with params := ⟨.varr, [], [], positional
          (supply (buildArgs request.params.keys request.params.values) argNames)⟩ } := by
  rw [transformNamedArguments_ok hp ha, nothing_left_iff (converted_foldl _ ha) hk ha]

theorem keys_step_subset (st : NamedArgs) (p : Bytes) :
    (st.step p).argsIn.keys ⊆ st.argsIn.keys := by
  unfold NamedArgs.step
  simp only
  split
  next =>
    intro name hname
    exact AList.mem_keys.mp (AList.mem_erase.mp (AList.mem_keys.mpr hname)).2
  next => exact List.Subset.refl _

theorem keys_foldl_subset (argNames : List Bytes) (st : NamedArgs) :
    (argNames.foldl NamedArgs.step st).argsIn.keys ⊆ st.argsIn.keys := by
  induction argNames generalizing st with
  | nil => exact List.Subset.refl _
  | cons p ps ih => exact List.Subset.trans (ih (st.step p)) (keys_step_subset st p)

/-- Whatever the aliases are, it throws an error object that names a supplied argument. -/
theorem transformNamedArguments_error {e : Exception} (hp : request.params.isObject)
    (h : transformNamedArguments order request argNames = .error e) :
    ∃ name ∈ request.params.keys,
      e = .univalue (jsonrpcError rpcInvalidParameter
        (cstr "Unknown named parameter " ++ name)) := by
  rw [transformNamedArguments_eq hp] at h
  simp only at h
  split at h
  next hleft =>
    have hmem := keys_foldl_subset _ _ (order.first_mem request.params.keys _ hleft)
    rw [← AList.mem_keys, ← AList.lookup_isSome] at hmem
    exact ⟨_, mem_keys_of_lookup hmem, (Except.error.inj h).symm⟩
  next => cases h

/-- What it throws names a supplied argument that is unknown, or that another alias of its entry is
supplied for as well. -/
theorem transformNamedArguments_throws (hp : request.params.isObject)
    (ha : (argNames.flatMap aliases).Nodup) {e : Exception}
    (h : transformNamedArguments order request argNames = .error e) :
    ∃ name ∈ request.params.keys,
      e = .univalue (jsonrpcError rpcInvalidParameter (cstr "Unknown named parameter " ++ name)) ∧
      ((∀ p ∈ argNames, name ∉ aliases p) ∨
        ∃ p ∈ argNames, name ∈ aliases p ∧
          ∃ other ∈ request.params.keys, other ≠ name ∧ other ∈ aliases p) := by
  have hconverted := converted_foldl (buildArgs request.params.keys request.params.values) ha
  rw [transformNamedArguments_eq hp] at h
  simp only at h
  split at h
  next hleft =>
    obtain ⟨hsome, hfree⟩ :=
      (left_over_iff hconverted _).mp (order.first_mem request.params.keys _ hleft)
    refine ⟨_, mem_keys_of_lookup hsome, (Except.error.inj h).symm, ?_⟩
    by_cases hunknown : ∀ p ∈ argNames, order.first request.params.keys
        (argNames.foldl NamedArgs.step ⟨ofType .varr [],
          buildArgs request.params.keys request.params.values, 0⟩).argsIn.keys ∉ aliases p
    · exact .inl hunknown
    · push Not at hunknown
      obtain ⟨p, hp, hnp⟩ := hunknown
      obtain ⟨⟨other, v⟩, hs⟩ := Option.isSome_iff_exists.mp (supplied_isSome hnp hsome)
      obtain ⟨hother, hv⟩ := supplied_some hs
      refine .inr ⟨p, hp, hnp, other, mem_keys_of_lookup (by rw [hv]; rfl), ?_, hother⟩
      rintro rfl
      exact hfree p hp v hs
  next => cases h

end

/-- Named arguments as the specification of a command has them. -/
structure Specified (order : HashOrder) (request : JSONRPCRequest) (argNames : List Bytes) :
    Prop where
  returns_iff : (∃ out, transformNamedArguments order request argNames = .ok out) ↔
    Fits argNames (members request.params)
  positions : ∀ out, transformNamedArguments order request argNames = .ok out →
    ∃ vs, out = { request with params := ⟨.varr, [], [], vs⟩ } ∧
      Positions argNames (members request.params) vs
  /-- The same values for the same entries, in any order and under any alias. -/
  same : ∀ out, transformNamedArguments order request argNames = .ok out →
    ∀ (order' : HashOrder) (params' : UniValue), params'.isObject → params'.keys.Nodup →
      (entries argNames (members request.params)).Perm (entries argNames (members params')) →
      transformNamedArguments order' { request with params := params' } argNames = .ok out
  throws : ∀ e, transformNamedArguments order request argNames = .error e →
    ∃ name ∈ request.params.keys,
      e = .univalue (jsonrpcError rpcInvalidParameter (cstr "Unknown named parameter " ++ name)) ∧
      ((∀ p ∈ argNames, name ∉ aliases p) ∨
        ∃ p ∈ argNames, name ∈ aliases p ∧
          ∃ other ∈ request.params.keys, other ≠ name ∧ other ∈ aliases p)

/-- Named arguments become positional ones as specified. -/
theorem transformNamedArguments_specified (order : HashOrder) {request : JSONRPCRequest}
    {argNames : List Bytes} (hp : request.params.isObject) (hk : request.params.keys.Nodup)
    (ha : (argNames.flatMap aliases).Nodup) : Specified order request argNames := by
  refine ⟨?_, ?_, ?_, fun e h => transformNamedArguments_throws hp ha h⟩
  · constructor
    · rintro ⟨out, h⟩
      exact ((transformNamedArguments_ok_iff hp hk ha).mp h).1
    · exact fun hf => ⟨_, (transformNamedArguments_ok_iff hp hk ha).mpr ⟨hf, rfl⟩⟩
  · intro out h
    obtain ⟨hf, rfl⟩ := (transformNamedArguments_ok_iff hp hk ha).mp h
    exact ⟨_, rfl, positions_positional hk hf⟩
  · intro out h order' params' hp' hk' hperm
    obtain ⟨hf, rfl⟩ := (transformNamedArguments_ok_iff hp hk ha).mp h
    have hf' : Fits argNames (members params') := by
      rw [fits_entries ha hk']
      rw [fits_entries ha hk] at hf
      exact ⟨fun hn => hf.1 ((hperm.map Prod.fst).mem_iff.mpr hn),
        (hperm.map Prod.fst).nodup_iff.mp hf.2⟩
    refine (transformNamedArguments_ok_iff hp' hk' ha).mpr ⟨hf', ?_⟩
    simp only [supply_entries ha hk hk' hf hf' hperm]

theorem transformNamedArguments_specified_gap :
    Specified default
      { JSONRPCRequest.new with params := ⟨.vobj, [], [cstr "c"], [ofInt 1]⟩ }
      [cstr "a|b", cstr "c"] :=
  transformNamedArguments_specified default rfl (by decide) (by decide)

end JsonRpcServer

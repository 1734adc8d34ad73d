import JsonRpcServer.Entries
import JsonRpcServer.NamedArguments
import JsonRpcServer.ValueMethods
import JsonRpcServer.Writing

/-!
# Objects as maps

An object is a list of members, and its methods read the list from either end:
`find_value`, `operator[]` and `checkObject` take the first member of a name, and
`getObjMap` the last. A run of `pushKV` never makes the two differ.
-/
namespace JsonRpcServer

namespace UniValue

/-- As many keys as values, an object having them. -/
structure Paired (v : UniValue) : Prop where
  isObject : v.typ = .vobj
  length : v.keys.length = v.values.length

theorem Paired.keys_eq {v : UniValue} (h : Paired v) : (members v).map Prod.fst = v.keys :=
  List.map_fst_zip h.length.le

theorem findKey_isSome (v : UniValue) (key : Bytes) : (v.findKey key).isSome ↔ key ∈ v.keys := by
  simp [findKey]

theorem Paired.vectorAt_findKey {v : UniValue} (h : Paired v) {key : Bytes} {i : Nat}
    (hi : v.findKey key = some i) :
    ∃ x, vectorAt v.values i = .ok x ∧ Entries.first (members v) key = some x := by
  have hlt : i < v.values.length := h.length ▸ findKey_lt hi
  refine ⟨v.values[i], by simp [vectorAt, hlt], ?_⟩
  have hfirst : v.firstMember key = _ := firstMember_eq v key
  rw [hi, Option.bind_some, List.getElem?_eq_getElem hlt] at hfirst
  exact hfirst

theorem Paired.first_none {v : UniValue} (h : Paired v) {key : Bytes} (hi : v.findKey key = none) :
    Entries.first (members v) key = none := by
  rw [Entries.first_eq_none, h.keys_eq, ← findKey_isSome, hi]
  simp

theorem Paired.findValue {v : UniValue} (h : Paired v) (key : Bytes) :
    v.findValue key = .ok ((Entries.first (members v) key).getD null) := by
  unfold UniValue.findValue
  cases hi : v.findKey key with
  | none => simp [h.first_none hi]
  | some i =>
    obtain ⟨x, hx, hfirst⟩ := h.vectorAt_findKey hi
    simp [hx, hfirst]

theorem Paired.indexKey {v : UniValue} (h : Paired v) (key : Bytes) :
    v.indexKey key = .ok ((Entries.first (members v) key).getD null) := by
  rw [← h.findValue key, UniValue.indexKey, UniValue.findValue, if_neg (not_not.mpr h.isObject)]
  cases v.findKey key <;> rfl

/-- The members are those of the list that are asked for. -/
def HasMembers (v : UniValue) (t : List (Bytes × VType)) : Prop :=
  ∀ m ∈ t, ∃ x, Entries.first (members v) m.1 = some x ∧ x.typ = m.2

theorem Paired.checkMembers {v : UniValue} (h : Paired v) (t : List (Bytes × VType)) :
    ∃ b, v.checkMembers t = .ok b ∧ (b = true ↔ HasMembers v t) := by
  induction t with
  | nil => exact ⟨true, rfl, by simp [HasMembers]⟩
  | cons m t ih =>
    obtain ⟨key, typ⟩ := m
    obtain ⟨b, hb, hiff⟩ := ih
    cases hi : v.findKey key with
    | none =>
      refine ⟨false, by simp [UniValue.checkMembers, hi], ?_⟩
      simp [HasMembers, h.first_none hi]
    | some i =>
      obtain ⟨x, hx, hfirst⟩ := h.vectorAt_findKey hi
      have hcons : HasMembers v ((key, typ) :: t) ↔ x.typ = typ ∧ HasMembers v t := by
        simp [HasMembers, hfirst]
      by_cases ht : x.typ = typ
      · refine ⟨b, ?_, by rw [hiff, hcons]; exact (and_iff_right ht).symm⟩
        simp [UniValue.checkMembers, hi, hx, ht, hb, bind, Except.bind]
      · refine ⟨false, ?_, by simp [hcons, ht]⟩
        simp [UniValue.checkMembers, hi, hx, ht, bind, Except.bind]

/-- What the map holds under a key, once it is filled. -/
theorem fillMap_eq {keys : List Bytes} {values : List UniValue}
    (hlen : keys.length ≤ values.length) (kv : Std.TreeMap Bytes UniValue) :
    ∃ m, fillMap kv keys values = some m ∧
      ∀ key, m[key]? = (Entries.last (keys.zip values) key).or kv[key]? := by
  induction keys generalizing values kv with
  | nil => exact ⟨kv, rfl, by simp⟩
  | cons k ks ih =>
    cases values with
    | nil => simp at hlen
    | cons x xs =>
      obtain ⟨m, hm, hget⟩ := ih (by simpa using hlen) (kv.insert k x)
      refine ⟨m, hm, fun key => ?_⟩
      rw [hget, List.zip_cons_cons, ← List.singleton_append, Entries.last_append, Option.or_assoc,
        Std.TreeMap.getElem?_insert]
      by_cases hk : k = key
      · simp [hk, Entries.last, Entries.first]
      · simp [hk, Entries.last, Entries.first]

theorem Paired.getObjMap {v : UniValue} (h : Paired v) (kv : Std.TreeMap Bytes UniValue) :
    ∃ m, v.getObjMap kv = some m ∧ ∀ key, m[key]? = Entries.last (members v) key := by
  obtain ⟨m, hm, hget⟩ := fillMap_eq h.length.le ∅
  refine ⟨m, by rw [UniValue.getObjMap, if_neg (not_not.mpr h.isObject), hm], fun key => ?_⟩
  simpa [members] using hget key

/-! ## Pushing -/

theorem put_zip {keys : List Bytes} {values : List UniValue} (hlen : keys.length = values.length)
    (key : Bytes) (x : UniValue) :
    Entries.put (keys.zip values) (key, x) =
      match keys.findIdx? (· = key) with
      | some i => keys.zip (values.set i x)
      | none => (keys ++ [key]).zip (values ++ [x]) := by
  induction keys generalizing values with
  | nil =>
    obtain rfl := List.length_eq_zero_iff.mp hlen.symm
    rfl
  | cons k ks ih =>
    cases values with
    | nil => simp at hlen
    | cons y ys =>
      rw [List.zip_cons_cons, Entries.put, List.findIdx?_cons]
      by_cases hk : k = key
      · simp [hk]
      · simp only [hk, if_false, decide_false, Bool.false_eq_true]
        rw [ih (by simpa using hlen)]
        cases ks.findIdx? (· = key) <;> rfl

theorem Paired.pushKV {v : UniValue} (h : Paired v) (key : Bytes) (x : UniValue) :
    Paired (v.pushKV key x) ∧
      members (v.pushKV key x) = Entries.put (members v) (key, x) := by
  obtain ⟨htyp, hlen⟩ := h
  have hput : Entries.put (members v) (key, x) = _ := put_zip hlen key x
  rw [UniValue.pushKV, if_neg (not_not.mpr htyp), findKey, hput]
  cases v.keys.findIdx? (· = key) with
  | none => exact ⟨⟨htyp, by simp [hlen]⟩, rfl⟩
  | some i => exact ⟨⟨htyp, by simp [hlen]⟩, rfl⟩

theorem pushKVsFrom_eq {size i : Nat} {keys : List Bytes} {values : List UniValue}
    (hlen : keys.length = values.length) (v : UniValue) :
    pushKVsFrom size i v keys values =
      (.ok true, { v with keys := v.keys ++ keys, values := v.values ++ values }) := by
  induction keys generalizing i v values with
  | nil =>
    obtain rfl := List.length_eq_zero_iff.mp hlen.symm
    cases v
    simp [pushKVsFrom]
  | cons k ks ih =>
    cases values with
    | nil => simp at hlen
    | cons x xs =>
      rw [pushKVsFrom, ih (by simpa using hlen)]
      simp [appendKV]

theorem Paired.pushKVs {v obj : UniValue} (h : Paired v) (hobj : Paired obj) :
    (v.pushKVs obj).1 = .ok true ∧ Paired (v.pushKVs obj).2 ∧
      members (v.pushKVs obj).2 = members v ++ members obj := by
  have heq : v.pushKVs obj =
      (.ok true, { v with keys := v.keys ++ obj.keys, values := v.values ++ obj.values }) := by
    rw [UniValue.pushKVs, if_neg (by simp [h.isObject, hobj.isObject]), pushKVsFrom_eq hobj.length]
  rw [heq]
  refine ⟨rfl, ⟨h.isObject, by simp [h.length, hobj.length]⟩, ?_⟩
  exact List.zip_append h.length

/-! ## What the methods find -/

end UniValue

end JsonRpcServer

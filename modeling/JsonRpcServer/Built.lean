import JsonRpcServer.Objects
import JsonRpcServer.RefusedTexts
import JsonRpcServer.UnsignedWriter

/-!
# Values that are built

What holds of every value that the constructors and the methods can build, in
whatever order they are called, as long as `read` refuses no text: each key has its
value, and nothing that is asked of such a value throws `std::out_of_range`.
-/
namespace JsonRpcServer

namespace UniValue

/-- A call of a method that changes a value. The overloads of `push_back` and `pushKV` that take no
value make one of what they take. -/
inductive Method where
  | setNull | setBool (val : Bool) | setNumStr (val : Bytes) | setInt (val : Int)
  | setFloat (text : Bytes) | setStr (val : Bytes) | setArray | setObject
  | pushBack (x : UniValue) | pushBackOf (a : Scalar) | pushBackV (vec : List UniValue)
  | appendKV (key : Bytes) (x : UniValue) | pushKV (key : Bytes) (x : UniValue)
  | pushKVOf (key : Bytes) (a : Scalar) | pushKVs (obj : UniValue)
  | read (raw : Bytes)

namespace Method

/-- The value after the call. -/
def run (v : UniValue) : Method → UniValue
  | setNull => UniValue.setNull
  | setBool val => UniValue.setBool val
  | setNumStr val => v.setNumStr val
  | setInt val => v.setInt val
  | setFloat text => v.setFloat text
  | setStr val => UniValue.setStr val
  | setArray => UniValue.setArray
  | setObject => UniValue.setObject
  | pushBack x => v.pushBack x
  | pushBackOf a => v.pushBack a.value
  | pushBackV vec => v.pushBackV vec
  | appendKV key x => v.appendKV key x
  | pushKV key x => v.pushKV key x
  | pushKVOf key a => v.pushKV key a.value
  | pushKVs obj => (v.pushKVs obj).2
  | read raw => (JsonRpcServer.read raw).2

/-- The values it is given. -/
def args : Method → List UniValue
  | pushBack x | appendKV _ x | pushKV _ x => [x]
  | pushBackV vec => vec
  | pushKVs obj => [obj]
  | _ => []

/-- A text that is read is accepted. -/
def Accepts : Method → Prop
  | read raw => (JsonRpcServer.read raw).1 = true
  | _ => True

end Method

/-- The values a program can have, if it uses none into which a refused text was read. -/
inductive Built : UniValue → Prop where
  | new (typ : VType) (initialStr : Bytes) : Built (ofType typ initialStr)
  | ofScalar (a : Scalar) : Built a.value
  | run {v : UniValue} {m : Method} (hv : Built v) (hargs : ∀ x ∈ m.args, Built x)
      (h : m.Accepts) : Built (m.run v)
  | part {v x : UniValue} (hv : Built v) (hx : x ∈ v.values) : Built x

/-! ## The invariant -/

theorem complete_setNumStr {v : UniValue} (h : Complete v) (val : Bytes) :
    Complete (v.setNumStr val) := by
  unfold setNumStr
  split
  · exact complete_ofType .vnum val
  · exact h

/-- A number may have keys and values, but owes none. -/
theorem Complete.setFloat {v : UniValue} (h : Complete v) (text : Bytes) :
    Complete (v.setFloat text) := by
  have hset := complete_setNumStr h text
  unfold UniValue.setFloat
  generalize v.setNumStr text = set at hset
  cases hset with
  | mk hkeys _ hvalues => exact .mk hkeys (fun ht => nomatch ht) hvalues

theorem complete_scalar (a : Scalar) : Complete a.value := by
  cases a with
  | int val => exact complete_setNumStr (complete_ofType .vnull []) (intText val)
  | double text => exact (complete_ofType .vnull []).setFloat text
  | bool | str => exact complete_ofType _ _

/-- More values, and as many more keys as an object needs. -/
theorem Complete.extended {v : UniValue} (h : Complete v) {ks : List Bytes} {vs : List UniValue}
    (hkeys : ks.length ≤ vs.length) (hobj : v.typ = .vobj → ks.length = vs.length)
    (hvs : ∀ x ∈ vs, Complete x) :
    Complete { v with keys := v.keys ++ ks, values := v.values ++ vs } := by
  cases h with
  | @mk typ val keys values hk ho hvalues =>
    have hkeys' : (keys ++ ks).length ≤ (values ++ vs).length := by
      simp only [List.length_append]
      omega
    have hobj' : typ = .vobj → (keys ++ ks).length = (values ++ vs).length := by
      intro ht
      rw [List.length_append, List.length_append, ho ht, hobj ht]
    exact .mk hkeys' hobj' (List.forall_mem_append.mpr ⟨hvalues, hvs⟩)

theorem Complete.pushBackV {v : UniValue} (h : Complete v) {vec : List UniValue}
    (hvec : ∀ x ∈ vec, Complete x) : Complete (v.pushBackV vec) := by
  unfold UniValue.pushBackV
  split
  · exact h
  next htyp =>
    have hno : v.typ = .vobj → ([] : List Bytes).length = vec.length := by
      intro ht
      simp [ht] at htyp
    have hnil : ([] : List Bytes).length ≤ vec.length := Nat.zero_le _
    simpa using h.extended hnil hno hvec

theorem Complete.pushKV {v x : UniValue} (h : Complete v) (hx : Complete x) (key : Bytes) :
    Complete (v.pushKV key x) := by
  unfold UniValue.pushKV
  split
  · exact h
  cases v.findKey key with
  | none => exact h.extended (by simp) (by simp) (by simpa using hx)
  | some idx =>
    cases h with
    | mk hk ho hvalues =>
      refine .mk (by simpa using hk) (by simpa using ho) fun y hy => ?_
      rcases List.mem_or_eq_of_mem_set hy with hy | rfl
      · exact hvalues y hy
      · exact hx

theorem Complete.pushKVs {v obj : UniValue} (h : Complete v) (hobj : Complete obj) :
    ∃ b, (v.pushKVs obj).1 = .ok b ∧ Complete (v.pushKVs obj).2 := by
  unfold UniValue.pushKVs
  split
  · exact ⟨false, rfl, h⟩
  next htyp =>
    have hlen : obj.keys.length = obj.values.length := by
      cases hobj with
      | mk _ ho => exact ho (by simpa using (not_or.mp htyp).2)
    rw [pushKVsFrom_eq hlen]
    exact ⟨true, rfl, h.extended hlen.le (fun _ => hlen) fun x hx => hobj.part hx⟩

theorem Complete.run {v : UniValue} {m : Method} (h : Complete v)
    (hargs : ∀ x ∈ m.args, Complete x) (ha : m.Accepts) : Complete (m.run v) := by
  cases m with
  | setNull | setBool | setStr | setArray | setObject => exact complete_ofType _ _
  | setNumStr val => exact complete_setNumStr h val
  | setInt val => exact complete_setNumStr h (intText val)
  | setFloat text => exact h.setFloat text
  | pushBack x => exact h.pushBackV hargs
  | pushBackOf a => exact h.pushBackV (by simpa using complete_scalar a)
  | pushBackV vec => exact h.pushBackV hargs
  | appendKV key x => exact h.extended (by simp) (by simp) hargs
  | pushKV key x => exact h.pushKV (hargs x (by simp [Method.args])) key
  | pushKVOf key a => exact h.pushKV (complete_scalar a) key
  | pushKVs obj =>
    obtain ⟨-, -, hrun⟩ := h.pushKVs (hargs obj (by simp [Method.args]))
    exact hrun
  | read raw => exact complete_read ha

theorem Complete.findKey_part {v : UniValue} (h : Complete v) {key : Bytes} {i : Nat}
    (hi : v.findKey key = some i) : ∃ x ∈ v.values, vectorAt v.values i = .ok x := by
  have hlt : i < v.values.length := by
    cases h with
    | mk hk => exact Nat.lt_of_lt_of_le (findKey_lt hi) hk
  exact ⟨v.values[i], List.getElem_mem hlt, by simp [vectorAt, hlt]⟩

theorem Complete.findValue {v : UniValue} (h : Complete v) (key : Bytes) :
    ∃ x, v.findValue key = .ok x ∧ (x ∈ v.values ∨ x = null) := by
  unfold UniValue.findValue
  cases hi : v.findKey key with
  | none => exact ⟨null, rfl, .inr rfl⟩
  | some i =>
    obtain ⟨x, hx, hat⟩ := h.findKey_part hi
    exact ⟨x, hat, .inl hx⟩

theorem Complete.indexKey {v : UniValue} (h : Complete v) (key : Bytes) :
    ∃ x, v.indexKey key = .ok x ∧ (x ∈ v.values ∨ x = null) := by
  unfold UniValue.indexKey
  split
  · exact ⟨null, rfl, .inr rfl⟩
  · cases hi : v.findKey key with
    | none => exact ⟨null, rfl, .inr rfl⟩
    | some i =>
      obtain ⟨x, hx, hat⟩ := h.findKey_part hi
      exact ⟨x, hat, .inl hx⟩

theorem Complete.checkMembers {v : UniValue} (h : Complete v) (t : List (Bytes × VType)) :
    ∃ b, v.checkMembers t = .ok b := by
  induction t with
  | nil => exact ⟨true, rfl⟩
  | cons m t ih =>
    obtain ⟨key, typ⟩ := m
    unfold UniValue.checkMembers
    cases hi : v.findKey key with
    | none => exact ⟨false, rfl⟩
    | some i =>
      obtain ⟨x, -, hat⟩ := h.findKey_part hi
      by_cases ht : x.typ = typ
      · simpa [hat, ht, bind, Except.bind] using ih
      · simp [hat, ht, bind, Except.bind]

theorem Complete.getObjMap {v : UniValue} (h : Complete v) (kv : Std.TreeMap Bytes UniValue) :
    (v.getObjMap kv).isSome := by
  unfold UniValue.getObjMap
  split
  · rfl
  · cases h with
    | mk hk =>
      obtain ⟨m, hm, -⟩ := fillMap_eq hk ∅
      simp [hm]

theorem Built.index {v : UniValue} (h : Built v) (i : Nat) : Built (v.index i) := by
  unfold UniValue.index
  split
  · exact .new .vnull []
  · by_cases hi : i < v.values.length
    · rw [List.getD_eq_getElem _ _ hi]
      exact h.part (List.getElem_mem hi)
    · rw [List.getD_eq_default _ _ (Nat.le_of_not_lt hi)]
      exact .new .vnull []

end UniValue

end JsonRpcServer

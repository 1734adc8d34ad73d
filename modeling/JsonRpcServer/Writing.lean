import JsonRpcServer.AcceptedText
import JsonRpcServer.Integers

/-!
# What can be written

`write` throws only at an object whose keys outnumber its values. The values
`read` produces are never such, and neither are the replies built from them.
-/
namespace JsonRpcServer

open JsonText UniValue

namespace UniValue

/-- Induction over a value and the values inside it. -/
theorem induction_on {P : UniValue → Prop}
    (h : ∀ typ val keys values, (∀ v ∈ values, P v) → P ⟨typ, val, keys, values⟩) (v : UniValue) :
    P v :=
  @UniValue.rec P (fun vs => ∀ v ∈ vs, P v) (fun typ val keys values ih => h typ val keys values ih)
    (by simp) (fun _ _ hv hvs => by simpa using ⟨hv, hvs⟩) v

/-- Every object that is written has a value for each key. -/
inductive Writable : UniValue → Prop where
  | scalar {typ : VType} {val : Bytes} {keys : List Bytes} {values : List UniValue}
      (ho : typ ≠ .vobj) (ha : typ ≠ .varr) : Writable ⟨typ, val, keys, values⟩
  | array {val : Bytes} {keys : List Bytes} {values : List UniValue}
      (h : ∀ v ∈ values, Writable v) : Writable ⟨.varr, val, keys, values⟩
  | object {val : Bytes} {keys : List Bytes} {values : List UniValue}
      (hlen : keys.length ≤ values.length) (h : ∀ v ∈ values.take keys.length, Writable v) :
      Writable ⟨.vobj, val, keys, values⟩

/-- Every object, however deep, has as many keys as values. -/
inductive Balanced : UniValue → Prop where
  | mk {typ : VType} {val : Bytes} {keys : List Bytes} {values : List UniValue}
      (hlen : typ = .vobj → keys.length = values.length) (h : ∀ v ∈ values, Balanced v) :
      Balanced ⟨typ, val, keys, values⟩

theorem Balanced.writable {v : UniValue} (h : Balanced v) : Writable v := by
  induction h with
  | @mk typ val keys values hlen h ih =>
    by_cases ho : typ = .vobj
    · subst ho
      exact .object (hlen rfl).le (fun v hv => ih v (List.mem_of_mem_take hv))
    · by_cases ha : typ = .varr
      · subst ha
        exact .array ih
      · exact .scalar ho ha

theorem bind_ok_iff {α β : Type} {x : Except Exception α} {f : α → Except Exception β} {b : β} :
    (x >>= f) = .ok b ↔ ∃ a, x = .ok a ∧ f a = .ok b := by
  cases x <;> simp [bind, Except.bind]

section
variable {p i size n : Nat} {values : List UniValue} {keys : List Bytes}

theorem writeArray_ok_iff :
    (∃ s, writeArray p i values = .ok s) ↔ ∀ v ∈ values, ∃ s, write p (i + 1) v = .ok s := by
  induction values with
  | nil => simp [writeArray]
  | cons v vs ih =>
    simp only [List.forall_mem_cons, ← ih, writeArray]
    cases write p (i + 1) v <;> cases writeArray p i vs <;> simp [bind, Except.bind]

theorem writeObject_ok_iff :
    (∃ s, writeObject p i size n values keys = .ok s) ↔ keys.length ≤ values.length ∧
      ∀ v ∈ values.take keys.length, ∃ s, write p (i + 1) v = .ok s := by
  induction keys generalizing values n with
  | nil => cases values <;> simp [writeObject]
  | cons k ks ih =>
    cases values with
    | nil => simp [writeObject]
    | cons v vs =>
      have hcons : (∃ s, writeObject p i size n (v :: vs) (k :: ks) = .ok s) ↔
          (∃ s, write p (i + 1) v = .ok s) ∧
            ∃ s, writeObject p i size (n + 1) vs ks = .ok s := by
        rw [writeObject]
        cases write p (i + 1) v <;> cases writeObject p i size (n + 1) vs ks <;>
          simp [bind, Except.bind]
      rw [hcons, ih]
      simp [and_left_comm]

end

/-- `write` returns exactly where every object it reaches has its values. -/
theorem write_ok_iff (p i : Nat) (v : UniValue) : (∃ s, write p i v = .ok s) ↔ Writable v := by
  induction v using induction_on generalizing i with
  | h typ val keys values ih =>
    cases typ with
    | vobj =>
      have hbody : (∃ s, write p i ⟨.vobj, val, keys, values⟩ = .ok s) ↔
          ∃ s, writeObject p (if i = 0 then 1 else i) values.length 0 values keys = .ok s := by
        simp only [write]
        cases writeObject p (if i = 0 then 1 else i) values.length 0 values keys <;>
          simp [bind, Except.bind]
      rw [hbody, writeObject_ok_iff]
      constructor
      · rintro ⟨hlen, h⟩
        exact .object hlen (fun v hv => (ih v (List.mem_of_mem_take hv) _).mp (h v hv))
      · rintro (⟨ho, -⟩ | - | ⟨hlen, h⟩)
        · exact absurd rfl ho
        · exact ⟨hlen, fun v hv => (ih v (List.mem_of_mem_take hv) _).mpr (h v hv)⟩
    | varr =>
      have hbody : (∃ s, write p i ⟨.varr, val, keys, values⟩ = .ok s) ↔
          ∃ s, writeArray p (if i = 0 then 1 else i) values = .ok s := by
        simp only [write]
        cases writeArray p (if i = 0 then 1 else i) values <;> simp [bind, Except.bind]
      rw [hbody, writeArray_ok_iff]
      constructor
      · intro h
        exact .array (fun v hv => (ih v hv _).mp (h v hv))
      · rintro (⟨-, ha⟩ | h | -)
        · exact absurd rfl ha
        · exact fun v hv => (ih v hv _).mpr (h v hv)
    | vnull | vstr | vnum | vbool =>
      exact iff_of_true (by simp [write]) (.scalar (by simp) (by simp))

/-- What is thrown, if anything is, is no error object. -/
def ThrowsStd {α : Type} (x : Except Exception α) : Prop :=
  ∀ e, x = .error e → ∃ what, e = .std what

theorem ThrowsStd.ok {α : Type} (a : α) : ThrowsStd (.ok a) := by
  intro e h
  cases h

theorem ThrowsStd.bind {α β : Type} {x : Except Exception α} {f : α → Except Exception β}
    (hx : ThrowsStd x) (hf : ∀ a, ThrowsStd (f a)) : ThrowsStd (x >>= f) := by
  cases x with
  | error e =>
    intro e' h
    cases h
    exact hx e rfl
  | ok a => exact hf a

theorem writeArray_throwsStd {p i : Nat} {values : List UniValue}
    (h : ∀ v ∈ values, ∀ i, ThrowsStd (write p i v)) : ThrowsStd (writeArray p i values) := by
  induction values with
  | nil => exact .ok _
  | cons v vs ih =>
    rw [writeArray]
    exact (h v (by simp) _).bind (fun _ =>
      (ih (fun w hw => h w (by simp [hw]))).bind (fun _ => .ok _))

theorem writeObject_throwsStd {p i size n : Nat} {values : List UniValue} {keys : List Bytes}
    (h : ∀ v ∈ values, ∀ i, ThrowsStd (write p i v)) :
    ThrowsStd (writeObject p i size n values keys) := by
  induction keys generalizing values n with
  | nil =>
    cases values <;> exact .ok _
  | cons k ks ih =>
    cases values with
    | nil =>
      intro e he
      cases he
      exact ⟨_, rfl⟩
    | cons v vs =>
      rw [writeObject]
      exact (h v (by simp) _).bind (fun _ =>
        (ih (fun w hw => h w (by simp [hw]))).bind (fun _ => .ok _))

theorem write_throwsStd (p i : Nat) (v : UniValue) : ThrowsStd (write p i v) := by
  induction v using induction_on generalizing i with
  | h typ val keys values ih =>
    cases typ with
    | vobj =>
      simp only [write]
      exact (writeObject_throwsStd ih).bind (fun _ => .ok _)
    | varr =>
      simp only [write]
      exact (writeArray_throwsStd ih).bind (fun _ => .ok _)
    | vnull | vstr | vnum | vbool => exact .ok _

/-! ## Compact texts -/

theorem writeArray_level {values : List UniValue}
    (h : ∀ v ∈ values, ∀ i j, write 0 i v = write 0 j v) (i j : Nat) :
    writeArray 0 i values = writeArray 0 j values := by
  induction values with
  | nil => rfl
  | cons v vs ih =>
    simp only [writeArray, pretty, if_true, h v (by simp) (i + 1) (j + 1),
      ih (fun w hw => h w (by simp [hw]))]

theorem writeObject_level {size n : Nat} {values : List UniValue} {keys : List Bytes}
    (h : ∀ v ∈ values, ∀ i j, write 0 i v = write 0 j v) (i j : Nat) :
    writeObject 0 i size n values keys = writeObject 0 j size n values keys := by
  induction keys generalizing values n with
  | nil => cases values <;> rfl
  | cons k ks ih =>
    cases values with
    | nil => rfl
    | cons v vs =>
      have hrest : writeObject 0 i size (n + 1) vs ks = writeObject 0 j size (n + 1) vs ks :=
        ih (fun w hw => h w (by simp [hw]))
      simp only [writeObject, pretty, if_true, h v (by simp) (i + 1) (j + 1), hrest]

/-- The indentation level does not show in compact output. -/
theorem write_level (i j : Nat) (v : UniValue) : write 0 i v = write 0 j v := by
  induction v using induction_on generalizing i j with
  | h typ val keys values ih =>
    cases typ with
    | vobj => simp only [write, pretty, if_true, writeObject_level ih _ (if j = 0 then 1 else j)]
    | varr => simp only [write, pretty, if_true, writeArray_level ih _ (if j = 0 then 1 else j)]
    | vnull | vstr | vnum | vbool => rfl

theorem writeArray_intercalate (i : Nat) (values : List UniValue) :
    writeArray 0 i values = (values.mapM (write 0 0)).map (List.intercalate (cstr ",")) := by
  induction values with
  | nil => rfl
  | cons v vs ih =>
    rw [writeArray, ih, write_level (i + 1) 0, List.mapM_cons]
    cases write 0 0 v with
    | error e => rfl
    | ok s =>
      cases hrest : vs.mapM (write 0 0) with
      | error e => rfl
      | ok ss =>
        have hempty : vs.isEmpty = ss.isEmpty := by
          cases vs with
          | nil =>
            cases hrest
            rfl
          | cons w ws =>
            rw [List.mapM_cons] at hrest
            cases hw : write 0 0 w <;> cases hws : ws.mapM (write 0 0) <;>
              simp [hw, hws, bind, Except.bind, pure, Except.pure] at hrest
            rw [← hrest]
            rfl
        cases ss with
        | nil => simp [hempty, pretty, Except.map, bind, Except.bind, pure, Except.pure]
        | cons s' ss =>
          simp [hempty, pretty, Except.map, bind, Except.bind, pure, Except.pure,
            List.intercalate_cons_cons]

/-- The compact text of an array. -/
theorem write_array (val : Bytes) (keys : List Bytes) (values : List UniValue) :
    write 0 0 ⟨.varr, val, keys, values⟩ =
      (values.mapM (write 0 0)).map
        (fun ss => cstr "[" ++ (cstr ",").intercalate ss ++ cstr "]") := by
  simp only [write, pretty, if_true, writeArray_intercalate]
  cases values.mapM (write 0 0) with
  | error e => rfl
  | ok ss => simp [Except.map, bind, Except.bind]

/-! ## Members -/

theorem findKey_lt {v : UniValue} {name : Bytes} {i : Nat} (h : v.findKey name = some i) :
    i < v.keys.length := by
  unfold findKey at h
  exact (List.findIdx?_eq_some_iff_findIdx_eq.mp h).1

/-- The first member of that name. -/
def firstMember (v : UniValue) (name : Bytes) : Option UniValue :=
  ((v.keys.zip v.values).find? (fun m => m.1 = name)).map Prod.snd

theorem firstMember_eq (v : UniValue) (name : Bytes) :
    v.firstMember name = (v.findKey name).bind (v.values[·]?) := by
  obtain ⟨typ, val, keys, values⟩ := v
  simp only [firstMember, findKey]
  induction keys generalizing values with
  | nil => rfl
  | cons k ks ih =>
    cases values with
    | nil =>
      simp only [List.zip_nil_right, List.find?_nil, Option.map_none]
      cases (k :: ks).findIdx? (· = name) <;> rfl
    | cons v vs =>
      by_cases hk : k = name
      · simp [hk, List.findIdx?_cons]
      · simp [hk, List.findIdx?_cons, ih vs, Option.bind_map]

/-- In a balanced object a lookup gives the first member of that name, or null. -/
theorem Balanced.findValue {v : UniValue} (h : Balanced v) (ho : v.isObject) (name : Bytes) :
    v.findValue name = .ok ((v.firstMember name).getD null) := by
  rw [firstMember_eq, UniValue.findValue]
  cases hf : v.findKey name with
  | none => rfl
  | some i =>
    obtain ⟨hlen, -⟩ := h
    have hi : i < _ := findKey_lt hf
    have hlt : i < _ := (hlen (by simpa [isObject] using ho)) ▸ hi
    simp [vectorAt, hlt]

theorem Balanced.firstMember {v x : UniValue} (h : Balanced v) {name : Bytes}
    (hx : v.firstMember name = some x) : Balanced x := by
  obtain ⟨-, hvalues⟩ := h
  simp only [UniValue.firstMember, Option.map_eq_some_iff] at hx
  obtain ⟨⟨k, x⟩, hm, rfl⟩ := hx
  exact hvalues x (List.of_mem_zip (List.mem_of_find?_eq_some hm)).2

end UniValue

/-! ## Replies -/

theorem jsonrpcReplyObj_eq (result error id : UniValue) :
    jsonrpcReplyObj result error id =
      ⟨.vobj, [], [cstr "result", cstr "error", cstr "id"],
        [if error.isNull then result else null, error, id]⟩ := by
  unfold jsonrpcReplyObj
  cases error.isNull <;> rfl

theorem writable_null : Writable null := .scalar (by simp) (by simp)

theorem writable_jsonrpcReplyObj (result error id : UniValue) :
    Writable (jsonrpcReplyObj result error id) ↔
      (error.isNull → Writable result) ∧ Writable error ∧ Writable id := by
  have hif : Writable (if error.isNull then result else null) ↔
      (error.isNull → Writable result) := by
    cases error.isNull <;> simp [writable_null]
  rw [jsonrpcReplyObj_eq, ← hif]
  constructor
  · rintro (⟨ho, -⟩ | - | ⟨-, h⟩)
    · exact absurd rfl ho
    · simpa using h
  · intro h
    exact .object (by simp) (by simpa using h)

theorem writable_jsonrpcError (code : Int) (message : Bytes) :
    Writable (jsonrpcError code message) := by
  rw [jsonrpcError_eq, ofInt_eq]
  refine .object (by simp) (fun v hv => ?_)
  obtain rfl | rfl : v = ofType .vnum (intText code) ∨ v = ofType .vstr message := by simpa using hv
  · exact .scalar (by simp) (by simp)
  · exact .scalar (by simp) (by simp)

theorem jsonrpcReply_ok_iff (result error id : UniValue) :
    (∃ s, jsonrpcReply result error id = .ok s) ↔ Writable (jsonrpcReplyObj result error id) := by
  rw [← write_ok_iff 0 0, jsonrpcReply]
  cases write 0 0 (jsonrpcReplyObj result error id) <;> simp [bind, Except.bind]

/-! ## Values that were read -/

mutual
theorem balanced_uniTree {σ : Type} (text : σ → Bytes) : (t : JsonTree σ) → Balanced (uniTree text t)
  | .null | .bool _ | .number _ | .string _ => .mk (by simp) (by simp)
  | .array items => .mk (by simp) (balanced_uniItems text items)
  | .object members =>
    .mk (by simp [uniMembers_length]) (balanced_uniMembers text members)

theorem balanced_uniItems {σ : Type} (text : σ → Bytes) :
    (ts : List (JsonTree σ)) → ∀ v ∈ uniItems text ts, Balanced v
  | [] => by simp [uniItems]
  | t :: ts => by
    simpa [uniItems] using ⟨balanced_uniTree text t, balanced_uniItems text ts⟩

theorem balanced_uniMembers {σ : Type} (text : σ → Bytes) :
    (ms : List (σ × JsonTree σ)) → ∀ v ∈ uniMembers text ms, Balanced v
  | [] => by simp [uniMembers]
  | (_, t) :: ms => by
    simpa [uniMembers] using ⟨balanced_uniTree text t, balanced_uniMembers text ms⟩
end

theorem balanced_read {b : Bytes} {u : UniValue} (h : read b = (true, u)) (hu : Container u) :
    Balanced u := by
  obtain ⟨t, -, rfl⟩ := (read_iff b u).mp ⟨h, hu⟩
  exact balanced_uniTree literalText t

end JsonRpcServer

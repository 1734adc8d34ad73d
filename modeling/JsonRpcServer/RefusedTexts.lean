import JsonRpcServer.Layouts

/-!
# What a refused text leaves behind

`read` builds in place, so a text it refuses leaves a value that is built as far
as the text goes. One key may then lack its value: the last one of the container
that was read last. Writing such a value throws.
-/
namespace JsonRpcServer

open Reader UniValue

namespace UniValue

/-- Each key has its value, however deep, and an object has no other values. -/
inductive Complete : UniValue → Prop where
  | mk {typ : VType} {val : Bytes} {keys : List Bytes} {values : List UniValue}
      (hkeys : keys.length ≤ values.length) (hobj : typ = .vobj → keys.length = values.length)
      (h : ∀ v ∈ values, Complete v) : Complete ⟨typ, val, keys, values⟩

/-- The last key of an object lacks its value, here or in the last of the values. -/
inductive Pending : UniValue → Prop where
  | here {val : Bytes} {keys : List Bytes} {values : List UniValue}
      (hlen : keys.length = values.length + 1) (h : ∀ v ∈ values, Complete v) :
      Pending ⟨.vobj, val, keys, values⟩
  | inArray {val : Bytes} {keys : List Bytes} {values : List UniValue} {v : UniValue}
      (h : ∀ v ∈ values, Complete v) (hv : Pending v) : Pending ⟨.varr, val, keys, values ++ [v]⟩
  | inObject {val : Bytes} {keys : List Bytes} {values : List UniValue} {v : UniValue}
      (hlen : keys.length = values.length + 1) (h : ∀ v ∈ values, Complete v) (hv : Pending v) :
      Pending ⟨.vobj, val, keys, values ++ [v]⟩

theorem Complete.balanced {v : UniValue} (h : Complete v) : Balanced v := by
  induction h with
  | mk _ hobj _ ih => exact .mk hobj ih

theorem Complete.part {v x : UniValue} (h : Complete v) (hx : x ∈ v.values) : Complete x := by
  cases h with
  | mk _ _ hvalues => exact hvalues x hx

theorem complete_ofType (typ : VType) (val : Bytes) : Complete (ofType typ val) :=
  .mk (by simp) (by simp) (by simp)

/-! ## Writing -/

section
variable {p i : Nat} {values : List UniValue} {keys : List Bytes} {v : UniValue}
  {e : Exception}

theorem writeArray_error (h : ∀ v ∈ values, ∃ s, write p (i + 1) v = .ok s)
    (hv : write p (i + 1) v = .error e) : writeArray p i (values ++ [v]) = .error e := by
  induction values with
  | nil => simp [writeArray, hv, bind, Except.bind]
  | cons x xs ih =>
    obtain ⟨⟨s, hs⟩, hxs⟩ := List.forall_mem_cons.mp h
    simp [writeArray, hs, ih hxs, bind, Except.bind]

theorem writeObject_error (size n : Nat) (h : ∀ v ∈ values, ∃ s, write p (i + 1) v = .ok s)
    (hv : write p (i + 1) v = .error e) (hlen : keys.length = values.length + 1) :
    writeObject p i size n (values ++ [v]) keys = .error e := by
  induction values generalizing n keys with
  | nil =>
    obtain ⟨key, rfl⟩ := List.length_eq_one_iff.mp hlen
    simp [writeObject, hv, bind, Except.bind]
  | cons x xs ih =>
    obtain ⟨⟨s, hs⟩, hxs⟩ := List.forall_mem_cons.mp h
    cases keys with
    | nil => simp at hlen
    | cons key keys =>
      simp [writeObject, hs, ih (n + 1) hxs (by simpa using hlen), bind, Except.bind]

/-- The loop asks for the value after the last. -/
theorem writeObject_missing (size n : Nat) (h : ∀ v ∈ values, ∃ s, write p (i + 1) v = .ok s)
    (hlen : keys.length = values.length + 1) :
    writeObject p i size n values keys = .error (.std (rangeText (n + values.length) size)) := by
  induction values generalizing n keys with
  | nil =>
    obtain ⟨key, rfl⟩ := List.length_eq_one_iff.mp hlen
    simp [writeObject]
  | cons x xs ih =>
    obtain ⟨⟨s, hs⟩, hxs⟩ := List.forall_mem_cons.mp h
    cases keys with
    | nil => simp at hlen
    | cons key keys =>
      have hrest := ih (n + 1) hxs (by simpa using hlen)
      simp only [writeObject, hs, hrest, bind, Except.bind, List.length_cons]
      rw [Nat.add_right_comm, Nat.add_assoc]

end

theorem Complete.write {v : UniValue} (h : Complete v) (p i : Nat) : ∃ s, write p i v = .ok s :=
  (write_ok_iff p i v).mpr h.balanced.writable

theorem Complete.write32 {v : UniValue} (h : Complete v) (p i : UInt32) :
    ∃ s, write32 p i v = .ok s :=
  (write32_ok_iff p i v).mpr h.balanced.writable

/-- Both numbers in the message are the size of the object that lacks a value. -/
theorem Pending.write {v : UniValue} (h : Pending v) :
    ∃ n, ∀ p i, write p i v = .error (.std (rangeText n n)) := by
  induction h with
  | @here val keys values hlen h =>
    refine ⟨values.length, fun p i => ?_⟩
    have hloop := writeObject_missing (i := if i = 0 then 1 else i) values.length 0
      (fun v hv => (h v hv).write p _) hlen
    simp [UniValue.write, hloop, bind, Except.bind]
  | inArray h _ ih =>
    obtain ⟨n, hn⟩ := ih
    refine ⟨n, fun p i => ?_⟩
    have hloop := writeArray_error (i := if i = 0 then 1 else i)
      (fun v hv => (h v hv).write p _) (hn p _)
    simp [UniValue.write, hloop, bind, Except.bind]
  | inObject hlen h _ ih =>
    obtain ⟨n, hn⟩ := ih
    refine ⟨n, fun p i => ?_⟩
    have hloop := fun size => writeObject_error (i := if i = 0 then 1 else i) size 0
      (fun v hv => (h v hv).write p _) (hn p _) hlen
    simp only [UniValue.write, bind, Except.bind, hloop]

end UniValue

/-! ## The reader's values -/

/-- An open container around another one. -/
inductive Waits : UniValue → Prop where
  | arr {vs : List UniValue} (h : ∀ v ∈ vs, Complete v) : Waits (arr vs)
  | obj {ks : List Bytes} {vs : List UniValue} (hlen : ks.length = vs.length + 1)
      (h : ∀ v ∈ vs, Complete v) : Waits (obj ks vs)

/-- The mask and the innermost container. -/
inductive Expecting : UInt32 → UniValue → Prop where
  | item {vs : List UniValue} (h : ∀ v ∈ vs, Complete v) : Expecting expArrValue (arr vs)
  | itemDone {vs : List UniValue} (h : ∀ v ∈ vs, Complete v) : Expecting expNotValue (arr vs)
  | name {ks : List Bytes} {vs : List UniValue} (hlen : ks.length = vs.length)
      (h : ∀ v ∈ vs, Complete v) : Expecting expObjName (obj ks vs)
  | named {ks : List Bytes} {vs : List UniValue} (hlen : ks.length = vs.length + 1)
      (h : ∀ v ∈ vs, Complete v) : Expecting expNamed (obj ks vs)
  | member {ks : List Bytes} {vs : List UniValue} (hlen : ks.length = vs.length + 1)
      (h : ∀ v ∈ vs, Complete v) : Expecting expValue (obj ks vs)
  | memberDone {ks : List Bytes} {vs : List UniValue} (hlen : ks.length = vs.length)
      (h : ∀ v ∈ vs, Complete v) : Expecting expNotValue (obj ks vs)

/-- The states of the loop in which a bracket is open. -/
inductive Inside : Reader → Prop where
  | mk {self top : UniValue} {stack : List UniValue} {mask : UInt32} {last : JTokenType}
      (hexpecting : Expecting mask top) (hstack : ∀ c ∈ stack, Waits c) :
      Inside ⟨self, top :: stack, mask, last⟩

/-- The states of the loop. -/
def Loading (st : Reader) : Prop := st = start ∨ Inside st

theorem Expecting.value {mask : UInt32} {top : UniValue} (h : Expecting mask top) :
    Complete top ∨ Pending top := by
  cases h with
  | item h | itemDone h => exact .inl (.mk (by simp) (by simp) h)
  | name hlen h | memberDone hlen h => exact .inl (.mk hlen.le (fun _ => hlen) h)
  | named hlen h | member hlen h => exact .inr (.here hlen h)

theorem Waits.addValue {c v : UniValue} (hc : Waits c) (hv : Complete v ∨ Pending v) :
    Complete (addValue c v) ∨ Pending (addValue c v) := by
  cases hc with
  | arr h =>
    rcases hv with hv | hv
    · exact .inl (.mk (by simp) (by simp) (by simpa [or_imp, forall_and] using ⟨h, hv⟩))
    · exact .inr (.inArray h hv)
  | obj hlen h =>
    rcases hv with hv | hv
    · exact .inl (.mk (by simp [hlen]) (by simp [hlen])
        (by simpa [or_imp, forall_and] using ⟨h, hv⟩))
    · exact .inr (.inObject hlen h hv)

theorem unwind_value {self top : UniValue} {stack : List UniValue}
    (htop : Complete top ∨ Pending top) (hstack : ∀ c ∈ stack, Waits c) :
    Complete (unwind self (top :: stack)) ∨ Pending (unwind self (top :: stack)) := by
  induction stack generalizing top with
  | nil => simpa [unwind] using htop
  | cons parent stack ih =>
    obtain ⟨hparent, hrest⟩ := List.forall_mem_cons.mp hstack
    rw [unwind]
    exact ih (hparent.addValue htop) hrest

theorem Loading.value {st : Reader} (h : Loading st) : Complete st.value ∨ Pending st.value := by
  rcases h with rfl | h
  · left
    rw [Reader.value, start, unwind]
    exact complete_ofType .vnull []
  · cases h with
    | mk hexpecting hstack => exact unwind_value hexpecting.value hstack

/-! ## The loop -/

/-- A step leads on, or the value is complete. -/
def Advanced (st : Reader) : Prop := Inside st ∨ st.stack = [] ∧ Complete st.self

theorem scalar_complete {tok : JTokenType} {val : Bytes} {v : UniValue}
    (h : scalar tok val = some v) : Complete v := by
  cases tok <;> simp only [scalar, Option.some.injEq, reduceCtorEq] at h <;> subst h <;>
    exact complete_ofType _ _

/-- A value that is complete takes the place that waits for it. -/
theorem Waits.filled {self c v : UniValue} {stack : List UniValue} {last : JTokenType}
    (hc : Waits c) (hv : Complete v) (hs : ∀ c ∈ stack, Waits c) :
    Inside ⟨self, Reader.addValue c v :: stack, expNotValue, last⟩ := by
  cases hc with
  | arr hvs => exact .mk (.itemDone (by simpa [or_imp, forall_and] using ⟨hvs, hv⟩)) hs
  | obj hlen hvs =>
    exact .mk (.memberDone (by simp [hlen]) (by simpa [or_imp, forall_and] using ⟨hvs, hv⟩)) hs

/-- Where a value may come, the next token is one or begins one. -/
theorem advanced_value {self top : UniValue} {stack : List UniValue} {mask : UInt32}
    {last tok : JTokenType} {val : Bytes} {st' : Reader} (hm : Awaits mask) (hw : Waits top)
    (hs : ∀ c ∈ stack, Waits c) (hvalue : isValueOpen tok)
    (h : step ⟨self, top :: stack, mask, last⟩ tok val = some st') : Advanced st' := by
  have hstack : ∀ c ∈ top :: stack, Waits c := List.forall_mem_cons.mpr ⟨hw, hs⟩
  by_cases ho : tok = .objOpen
  · subst ho
    rw [step_objOpen hm] at h
    obtain rfl := Option.some.inj h
    exact .inl (.mk (.name rfl (by simp)) hstack)
  by_cases ha : tok = .arrOpen
  · subst ha
    rw [step_arrOpen hm] at h
    obtain rfl := Option.some.inj h
    exact .inl (.mk (.item (by simp)) hstack)
  obtain ⟨v, hv⟩ : ∃ v, scalar tok val = some v := by
    cases tok <;> simp_all [isValueOpen, jsonTokenIsValue, scalar]
  rw [step_scalar hm hv] at h
  obtain rfl := Option.some.inj h
  exact .inl (hw.filled (scalar_complete hv) hs)

/-- A bracket that closes joins the container to the one around it. -/
theorem advanced_close {self top : UniValue} {stack : List UniValue} {mask : UInt32}
    {last tok : JTokenType} {val : Bytes} {st' : Reader} (ht : tok = .objClose ∨ tok = .arrClose)
    (hm : checkToken mask tok = some 0 ∨ checkToken mask tok = some expObjName)
    (htop : Complete top) (hs : ∀ c ∈ stack, Waits c)
    (h : step ⟨self, top :: stack, mask, last⟩ tok val = some st') : Advanced st' := by
  have hmask : ∃ mask', checkToken mask tok = some mask' ∧
      setExpect (clearExpect mask' expObjName) expNotValue = expNotValue := by
    rcases hm with hm | hm
    · exact ⟨_, hm, by decide⟩
    · exact ⟨_, hm, by decide⟩
  obtain ⟨mask', hcheck, hset⟩ := hmask
  have hclose : ∃ utyp, accept ⟨self, top :: stack, mask', last⟩ tok val =
      closeContainer ⟨self, top :: stack, mask', last⟩ utyp := by
    rcases ht with rfl | rfl
    · exact ⟨_, rfl⟩
    · exact ⟨_, rfl⟩
  obtain ⟨utyp, hclose⟩ := hclose
  simp only [step, hcheck, Option.bind_some, hclose, closeContainer] at h
  split at h
  · cases h
  · cases stack with
    | nil =>
      obtain rfl := Option.some.inj h
      exact .inr ⟨rfl, htop⟩
    | cons parent stack =>
      obtain ⟨hparent, hrest⟩ := List.forall_mem_cons.mp hs
      simp only [Option.map_some, Option.some.injEq, hset] at h
      subst h
      exact .inl (hparent.filled htop hrest)

theorem advanced_start {tok : JTokenType} {val : Bytes} {st' : Reader}
    (h : start.step tok val = some st') : Advanced st' := by
  cases tok with
  | objOpen =>
    rw [step_start_objOpen] at h
    obtain rfl := Option.some.inj h
    exact .inl (.mk (.name rfl (by simp)) (by simp))
  | arrOpen =>
    rw [step_start_arrOpen] at h
    obtain rfl := Option.some.inj h
    exact .inl (.mk (.item (by simp)) (by simp))
  | kwNull | kwTrue | kwFalse | number | string =>
    simp [step, start, checkToken_start, accept, putValue] at h
    subst h
    exact .inr ⟨rfl, complete_ofType _ _⟩
  | objClose | arrClose | colon | comma | err | none =>
    simp [step, start, checkToken_start, accept, closeContainer] at h

theorem advanced_step {st st' : Reader} {tok : JTokenType} {val : Bytes} (hl : Loading st)
    (h : st.step tok val = some st') : Advanced st' := by
  rcases hl with rfl | hl
  · exact advanced_start h
  cases hl with
  | @mk self top stack mask last hexpecting hs =>
    cases hexpecting with
    | item hvs =>
      by_cases hvalue : isValueOpen tok
      · exact advanced_value .item (.arr hvs) hs hvalue h
      by_cases hclose : tok = .arrClose
      · refine advanced_close (.inr hclose) (.inl ?_) (.mk (by simp) (by simp) hvs) hs h
        simp [checkToken_arrValue, hclose]
      · simp [step, checkToken_arrValue, hvalue, hclose] at h
    | member hlen hvs =>
      by_cases hvalue : isValueOpen tok
      · exact advanced_value .memberValue (.obj hlen hvs) hs hvalue h
      · simp [step, checkToken_value, hvalue] at h
    | name hlen hvs =>
      by_cases hclose : tok = .objClose
      · refine advanced_close (.inl hclose) (.inr ?_) (.mk hlen.le (fun _ => hlen) hvs) hs h
        simp [checkToken_objName, hclose]
      by_cases hstring : tok = .string
      · subst hstring
        rw [step_name] at h
        obtain rfl := Option.some.inj h
        exact .inl (.mk (.named (by simp [hlen]) hvs) hs)
      · simp [step, checkToken_objName, hclose, hstring] at h
    | named hlen hvs =>
      by_cases hcolon : tok = .colon
      · subst hcolon
        rw [step_colon] at h
        obtain rfl := Option.some.inj h
        exact .inl (.mk (.member hlen hvs) hs)
      · simp [step, checkToken_named, hcolon] at h
    | itemDone hvs =>
      by_cases hclose : tok = .objClose ∨ tok = .arrClose
      · refine advanced_close hclose (.inl ?_) (.mk (by simp) (by simp) hvs) hs h
        rcases hclose with rfl | rfl <;> decide
      by_cases hcomma : tok = .comma
      · subst hcomma
        obtain ⟨-, rfl⟩ : Settled last ∧
            (⟨self, arr _ :: stack, expArrValue, .comma⟩ : Reader) = st' := by
          simpa [step, checkToken_notValue, isValueOpen, jsonTokenIsValue, accept, Settled] using h
        exact .inl (.mk (.item hvs) hs)
      · cases tok <;> simp_all [step, checkToken_notValue, isValueOpen, jsonTokenIsValue, accept]
    | memberDone hlen hvs =>
      by_cases hclose : tok = .objClose ∨ tok = .arrClose
      · refine advanced_close hclose (.inl ?_) (.mk hlen.le (fun _ => hlen) hvs) hs h
        rcases hclose with rfl | rfl <;> decide
      by_cases hcomma : tok = .comma
      · subst hcomma
        obtain ⟨-, rfl⟩ : Settled last ∧
            (⟨self, obj _ _ :: stack, expObjName, .comma⟩ : Reader) = st' := by
          simpa [step, checkToken_notValue, isValueOpen, jsonTokenIsValue, accept, Settled] using h
        exact .inl (.mk (.name hlen hvs) hs)
      · cases tok <;> simp_all [step, checkToken_notValue, isValueOpen, jsonTokenIsValue, accept]

/-- The flag and the value of `read`: only a refused text leaves a key without its value. -/
def Leaves (result : Bool × UniValue) : Prop :=
  Complete result.2 ∨ result.1 = false ∧ Pending result.2

theorem leaves_value {st : Reader} (h : Loading st) : Leaves (false, st.value) :=
  h.value.imp_right (fun hp => ⟨rfl, hp⟩)

theorem leaves_readLoop {st : Reader} {raw : Bytes} (hl : Loading st) :
    Leaves (readLoop st raw) := by
  induction hlen : raw.length using Nat.strong_induction_on generalizing raw st with
  | h n ih =>
    rcases hg : getJsonToken raw with ⟨tok, val, consumed⟩
    by_cases hstop : tok = .none ∨ tok = .err
    · rw [readLoop_stop (by rwa [hg])]
      exact leaves_value hl
    have hpos := getJsonToken_consumed raw (by rwa [hg])
    rw [readLoop_token hg hstop]
    cases hst : st.step tok val with
    | none => exact leaves_value hl
    | some st' =>
      simp only
      rcases advanced_step hl hst with hl' | ⟨hnil, hcomplete⟩
      · cases hl' with
        | mk hexpecting hs =>
          refine ih _ ?_ (.inr (.mk hexpecting hs)) rfl
          simp only [hg] at hpos
          simp only [List.length_drop]
          omega
      · rw [hnil]
        exact .inl hcomplete

theorem leaves_read (raw : Bytes) : Leaves (read raw) := leaves_readLoop (.inl rfl)

theorem complete_read {raw : Bytes} (h : (read raw).1 = true) : Complete (read raw).2 :=
  (leaves_read raw).resolve_right (fun hp => by simp [h] at hp)

/-- What `read` leaves of a text can be written, unless the text is refused and a key lacks its
value; then the index of that value is out of range. -/
theorem writing_what_was_read (raw : Bytes) :
    (Complete (read raw).2 ∧ ∀ p i, ∃ s, write32 p i (read raw).2 = .ok s) ∨
      ((read raw).1 = false ∧ Pending (read raw).2 ∧
        ∃ n, ∀ p i, write32 p i (read raw).2 = .error (.std (rangeText n n))) := by
  rcases leaves_read raw with h | ⟨hrefused, h⟩
  · exact .inl ⟨h, h.write32⟩
  · obtain ⟨n, hn⟩ := h.write
    exact .inr ⟨hrefused, h, n, fun p i => ((write32_agrees p i _).error_iff _).mpr (hn 0 0)⟩

example : read (cstr "\x7b\"a\":1,\"b\":") =
    (false, ⟨.vobj, [], [cstr "a", cstr "b"], [ofType .vnum (cstr "1")]⟩) := by
  decide +kernel

end JsonRpcServer

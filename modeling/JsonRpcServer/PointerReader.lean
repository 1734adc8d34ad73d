import JsonRpcServer.AcceptedText
import JsonRpcServer.PointerLexer

/-!
# The reader on pointers

`UniValue::read` with its two kinds of pointers: `raw` into the text, and the stack of
pointers into the tree that is being built. Neither ever goes where there is nothing,
and what is built is what the reader builds without pointers.
-/
namespace JsonRpcServer

namespace Pointers

open Programs Buffers JsonText

/-! ## Pointers into a tree -/

/-- A pointer from `this` down to a last element in each step, with the size `values` had when the
pointer was taken. -/
abbrev TreePtr := List Nat

/-- `values` only ever grows, and may move its elements when it does: a pointer is good for as long
as the sizes on its way are the same. -/
def deref : UniValue → TreePtr → Option UniValue
  | v, [] => some v
  | v, size :: p =>
    if v.values.length = size then v.values.getLast?.bind (deref · p) else none

/-- What is at the pointer is changed, and nothing else. -/
def modifyAt : UniValue → TreePtr → (UniValue → Option UniValue) → Option UniValue
  | v, [], f => f v
  | v, size :: p, f =>
    if v.values.length = size then
      v.values.getLast?.bind fun last =>
        (modifyAt last p f).map fun last => { v with values := v.values.dropLast ++ [last] }
    else none

/-- `top->values.push_back(v)`. -/
def pushValue (self : UniValue) (top : TreePtr) (v : UniValue) : Option UniValue :=
  modifyAt self top (fun top => some (Reader.addValue top v))

/-- `top->keys.push_back(key)`. -/
def pushKey (self : UniValue) (top : TreePtr) (key : Bytes) : Option UniValue :=
  modifyAt self top (fun top => some { top with keys := top.keys ++ [key] })

/-! ## The reader -/

/-- The local variables of `read`; `stack` has its back first. -/
structure PReader where
  self : UniValue
  stack : List TreePtr
  expectMask : UInt32
  lastTok : JTokenType

namespace PReader

def start : PReader := ⟨.null, [], 0, .none⟩

def putValue (st : PReader) (v : UniValue) : Option PReader :=
  match st.stack with
  | [] => some { st with self := v }
  | top :: _ => do
    let self ← pushValue st.self top v
    some { st with self, expectMask := setExpect st.expectMask expNotValue }

def openContainer (st : PReader) (utyp : VType) : Option PReader :=
  let expectMask := setExpect st.expectMask (if utyp = .vobj then expObjName else expArrValue)
  match st.stack with
  | [] => some { st with self := .ofType utyp [], stack := [[]], expectMask }
  | top :: _ => do
    let self ← pushValue st.self top (.ofType utyp [])
    let newTop := top ++ [(← deref self top).values.length]
    some { st with self, stack := newTop :: st.stack, expectMask }

/-- From here on `some none` is `return false`, and `none` a pointer that is no good. -/
def closeContainer (st : PReader) (utyp : VType) : Option (Option PReader) :=
  match st.stack with
  | [] => some none
  | top :: stack =>
    if st.lastTok = .comma then some none
    else do
      if utyp ≠ (← deref st.self top).typ then some none
      else
        let expectMask := setExpect (clearExpect st.expectMask expObjName) expNotValue
        some (some { st with stack, expectMask })

def accept (st : PReader) (tok : JTokenType) (tokenVal : Bytes) : Option (Option PReader) :=
  match tok with
  | .objOpen => some <$> st.openContainer .vobj
  | .arrOpen => some <$> st.openContainer .varr
  | .objClose => st.closeContainer .vobj
  | .arrClose => st.closeContainer .varr
  | .colon =>
    match st.stack with
    | [] => some none
    | top :: _ => do
      if (← deref st.self top).typ ≠ .vobj then some none
      else some (some { st with expectMask := setExpect st.expectMask expValue })
  | .comma =>
    match st.stack with
    | [] => some none
    | top :: _ =>
      if st.lastTok = .comma ∨ st.lastTok = .arrOpen then some none
      else do
        some (some { st with
          expectMask := setExpect st.expectMask
            (if (← deref st.self top).typ = .vobj then expObjName else expArrValue) })
  | .kwNull => some <$> st.putValue .null
  | .kwTrue => some <$> st.putValue (.setBool true)
  | .kwFalse => some <$> st.putValue (.setBool false)
  | .number => some <$> st.putValue (.ofType .vnum tokenVal)
  | .string =>
    if expect st.expectMask expObjName then
      match st.stack with
      -- `stack.back()` of an empty stack
      | [] => none
      | top :: _ => do
        let self ← pushKey st.self top tokenVal
        some (some { st with
          self
          expectMask :=
            setExpect (setExpect (clearExpect st.expectMask expObjName) expColon) expNotValue })
    else some <$> st.putValue (.ofType .vstr tokenVal)
  | .err | .none => some none

def step (st : PReader) (tok : JTokenType) (tokenVal : Bytes) : Option (Option PReader) :=
  match checkToken st.expectMask tok with
  | none => some none
  | some expectMask =>
    (accept { st with expectMask } tok tokenVal).map (·.map ({ · with lastTok := tok }))

end PReader

inductive Outcome where
  /-- A pointer into the tree was no good. -/
  | dangling
  /-- The loop goes on. -/
  | running
  | returned (r : Bool × UniValue)

/-- The loop of `read`, for so many tokens. -/
def readLoop (last : Nat) : Nat → PReader → Nat → Program reading Outcome
  | 0, _, _ => pure .running
  | tokens + 1, st, raw => do
    let (tok, tokenVal, consumed) ← getJsonToken last raw
    if tok = .none ∨ tok = .err then pure (.returned (false, st.self))
    else
      let raw := raw + consumed.toNat
      match st.step tok tokenVal with
      | none => pure .dangling
      | some none => pure (.returned (false, st.self))
      | some (some st) =>
        if st.stack.isEmpty then
          let (tok, _, _) ← getJsonToken last raw
          pure (.returned (tok = .none, st.self))
        else readLoop last tokens st raw

/-- `read(raw, size)`; a text has no more tokens than bytes. -/
def read (size : Nat) : Program reading Outcome := readLoop size (size + 1) .start 0

/-! ## Good pointers -/

/-- The pointer to what has been opened inside the containers of a stack. -/
def path : List UniValue → TreePtr
  | [] => []
  | parent :: stack => path stack ++ [parent.values.length + 1]

def pointers : List UniValue → List TreePtr
  | [] => []
  | _ :: stack => path stack :: pointers stack

theorem deref_append (v : UniValue) (p q : TreePtr) :
    deref v (p ++ q) = (deref v p).bind (deref · q) := by
  induction p generalizing v with
  | nil => rfl
  | cons size p ih =>
    rw [List.cons_append, deref, deref]
    split
    · cases v.values.getLast? with
      | none => rfl
      | some last => exact ih last
    · rfl

theorem modifyAt_append (v : UniValue) (p q : TreePtr) (f : UniValue → Option UniValue) :
    modifyAt v (p ++ q) f = modifyAt v p (fun w => modifyAt w q f) := by
  induction p generalizing v with
  | nil => rfl
  | cons size p ih =>
    rw [List.cons_append, modifyAt, modifyAt]
    simp only [ih]

theorem deref_unwind (self top : UniValue) (stack : List UniValue) :
    deref (Reader.unwind self (top :: stack)) (path stack) = some top := by
  induction stack generalizing top with
  | nil => rw [Reader.unwind]; rfl
  | cons parent stack ih =>
    rw [Reader.unwind, path, deref_append, ih]
    simp [deref, Reader.addValue]

theorem modifyAt_unwind (self top : UniValue) (stack : List UniValue)
    (f : UniValue → Option UniValue) :
    modifyAt (Reader.unwind self (top :: stack)) (path stack) f =
      (f top).map (fun top => Reader.unwind self (top :: stack)) := by
  induction stack generalizing top f with
  | nil =>
    rw [Reader.unwind, path, modifyAt]
    cases f top <;> simp [Reader.unwind]
  | cons parent stack ih =>
    rw [Reader.unwind, path, modifyAt_append, ih]
    cases h : f top <;> simp [modifyAt, Reader.addValue, Reader.unwind, h]

/-! ## Agreement -/

/-- The pointers of the reader that lets its open containers wait on the stack. -/
def ofReader (st : Reader) : PReader := ⟨st.value, pointers st.stack, st.expectMask, st.lastTok⟩

theorem ofReader_done {st : Reader} (h : st.stack = []) :
    (ofReader st).stack = [] ∧ (ofReader st).self = st.self := by
  simp [ofReader, h, pointers, Reader.value, Reader.unwind]

theorem ofReader_open {st : Reader} (h : st.stack ≠ []) : (ofReader st).stack ≠ [] := by
  obtain ⟨top, stack, hs⟩ := List.exists_cons_of_ne_nil h
  simp [ofReader, hs, pointers]

section
variable {buf raw : Bytes} {p : Nat}

theorem putValue_agrees (st : Reader) (v : UniValue) :
    (ofReader st).putValue v = some (ofReader (st.putValue v)) := by
  rcases st with ⟨self, _ | ⟨top, stack⟩, mask, last⟩
  · simp [ofReader, PReader.putValue, Reader.putValue, pointers, Reader.value, Reader.unwind]
  · simp [ofReader, PReader.putValue, Reader.putValue, pointers, Reader.value, pushValue,
      modifyAt_unwind]

theorem openContainer_agrees (st : Reader) (utyp : VType) :
    (ofReader st).openContainer utyp = some (ofReader (st.openContainer utyp)) := by
  rcases st with ⟨self, _ | ⟨top, stack⟩, mask, last⟩
  · simp [ofReader, PReader.openContainer, Reader.openContainer, pointers, path, Reader.value,
      Reader.unwind]
  · simp [ofReader, PReader.openContainer, Reader.openContainer, pointers, path, Reader.value,
      pushValue, modifyAt_unwind, deref_unwind, Reader.addValue, Reader.unwind]

/-- The container that is closed keeps its place in the tree. -/
theorem closeContainer_agrees (st : Reader) (utyp : VType) :
    (ofReader st).closeContainer utyp = some ((st.closeContainer utyp).map ofReader) := by
  rcases st with ⟨self, _ | ⟨top, stack⟩, mask, last⟩
  · simp [ofReader, PReader.closeContainer, Reader.closeContainer, pointers]
  by_cases hcomma : last = .comma
  · simp [ofReader, PReader.closeContainer, Reader.closeContainer, pointers, hcomma]
  by_cases htyp : utyp = top.typ
  · have hpop : (ofReader ⟨self, top :: stack, mask, last⟩).closeContainer utyp =
        some (some ⟨Reader.unwind self (top :: stack), pointers stack,
          setExpect (clearExpect mask expObjName) expNotValue, last⟩) := by
      simp [ofReader, PReader.closeContainer, pointers, Reader.value, deref_unwind, hcomma, htyp]
    rw [hpop]
    cases stack <;>
      simp [ofReader, Reader.closeContainer, pointers, Reader.value, Reader.unwind, hcomma, htyp]
  · simp [ofReader, PReader.closeContainer, Reader.closeContainer, pointers, Reader.value,
      deref_unwind, hcomma, htyp]

theorem accept_agrees (st : Reader) (h : st.stack ≠ [] ∨ expect st.expectMask expObjName = false)
    (tok : JTokenType) (tokenVal : Bytes) :
    (ofReader st).accept tok tokenVal = some ((st.accept tok tokenVal).map ofReader) := by
  cases tok with
  | err => rfl
  | none => rfl
  | objOpen => exact congrArg (Option.map some) (openContainer_agrees st .vobj)
  | arrOpen => exact congrArg (Option.map some) (openContainer_agrees st .varr)
  | objClose => exact closeContainer_agrees st .vobj
  | arrClose => exact closeContainer_agrees st .varr
  | kwNull => exact congrArg (Option.map some) (putValue_agrees st .null)
  | kwTrue => exact congrArg (Option.map some) (putValue_agrees st (.setBool true))
  | kwFalse => exact congrArg (Option.map some) (putValue_agrees st (.setBool false))
  | number => exact congrArg (Option.map some) (putValue_agrees st (.ofType .vnum tokenVal))
  | colon =>
    rcases st with ⟨self, _ | ⟨top, stack⟩, mask, last⟩
    · rfl
    by_cases htyp : top.typ = .vobj <;>
      simp [ofReader, PReader.accept, Reader.accept, pointers, Reader.value, deref_unwind, htyp]
  | comma =>
    rcases st with ⟨self, _ | ⟨top, stack⟩, mask, last⟩
    · rfl
    by_cases hlast : last = .comma ∨ last = .arrOpen <;>
      simp [ofReader, PReader.accept, Reader.accept, pointers, Reader.value, deref_unwind, hlast]
  | string =>
    by_cases hname : expect st.expectMask expObjName
    · rcases st with ⟨self, _ | ⟨top, stack⟩, mask, last⟩
      · simp [hname] at h
      · simp [ofReader, PReader.accept, Reader.accept, pointers, Reader.value, pushKey,
          modifyAt_unwind, hname]
    · have hput := congrArg (Option.map some) (putValue_agrees st (.ofType .vstr tokenVal))
      simpa [PReader.accept, Reader.accept, ofReader, hname] using hput

/-- A member name is only expected inside an object. -/
theorem step_agrees (st : Reader) (h : st.stack ≠ [] ∨ st.expectMask = 0) (tok : JTokenType)
    (tokenVal : Bytes) :
    (ofReader st).step tok tokenVal = some ((st.step tok tokenVal).map ofReader) := by
  unfold PReader.step Reader.step
  have hmask : (ofReader st).expectMask = st.expectMask := rfl
  rw [hmask]
  cases hc : checkToken st.expectMask tok with
  | none => rfl
  | some expectMask =>
    have hst : st.stack ≠ [] ∨ expect expectMask expObjName = false := by
      rcases h with hstack | hzero
      · exact .inl hstack
      · rw [hzero, checkToken_start] at hc
        split at hc
        · cases hc
        · cases hc
          exact .inr (by decide)
    have haccept := accept_agrees { st with expectMask } hst tok tokenVal
    change (PReader.accept (ofReader { st with expectMask }) tok tokenVal).map _ = _
    rw [haccept, Option.bind_some]
    cases Reader.accept { st with expectMask } tok tokenVal <;> rfl

/-- What the loop does with lists for pointers, for so many tokens; `none` is a loop that goes
on. -/
def turns : Nat → Reader → Bytes → Option (Bool × UniValue)
  | 0, _, _ => none
  | tokens + 1, st, raw =>
    let (tok, tokenVal, consumed) := JsonRpcServer.getJsonToken raw
    if tok = .none ∨ tok = .err then some (false, st.value)
    else
      let rest := raw.drop (UInt32.ofNat consumed).toNat
      match st.step tok tokenVal with
      | none => some (false, st.value)
      | some st =>
        if st.stack.isEmpty then some ((JsonRpcServer.getJsonToken rest).1 = .none, st.self)
        else turns tokens st rest

def Outcome.ofTurns : Option (Bool × UniValue) → Outcome
  | none => .running
  | some r => .returned r

theorem eval_readLoop {st : Reader} (hst : st.stack ≠ [] ∨ st.expectMask = 0) (h : At buf p raw)
    (tokens : Nat) :
    eval buf (readLoop buf.length tokens (ofReader st) p) =
      some (.ofTurns (turns tokens st raw)) := by
  induction tokens generalizing st raw p with
  | zero => rfl
  | succ tokens ih =>
    rw [readLoop, eval_bind, eval_getJsonToken h, Option.bind_some]
    rcases hg : JsonRpcServer.getJsonToken raw with ⟨tok, tokenVal, consumed⟩
    rw [cut_mk]
    simp only [turns, hg]
    by_cases htok : tok = .none ∨ tok = .err
    · rw [if_pos htok, if_pos htok]
      rfl
    have hconsumed := (getJsonToken_consumed raw (by rwa [hg])).2
    rw [hg] at hconsumed
    have hnext : At buf (p + (UInt32.ofNat consumed).toNat)
        (raw.drop (UInt32.ofNat consumed).toNat) :=
      h.advance ((Nat.mod_le consumed (2 ^ 32)).trans hconsumed)
    rw [if_neg htok, if_neg htok, step_agrees st hst]
    cases st.step tok tokenVal with
    | none => rfl
    | some st' =>
      simp only [Option.map_some]
      by_cases hs : st'.stack = []
      · obtain ⟨hstack, hself⟩ := ofReader_done hs
        simp only [hstack, hself, hs, List.isEmpty_nil, if_true, eval_bind,
          eval_getJsonToken hnext, Option.bind_some, eval_pure]
        rfl
      · rw [if_neg (by simpa using ofReader_open hs), if_neg (by simpa using hs)]
        exact ih (.inl hs) hnext

/-- As long as `consumed` loses nothing. -/
theorem turns_eq_readLoop {st : Reader} {tokens : Nat} (hraw : raw.length < 2 ^ 32)
    (htokens : raw.length < tokens) :
    turns tokens st raw = some (JsonRpcServer.readLoop st raw) := by
  induction tokens generalizing st raw with
  | zero => omega
  | succ tokens ih =>
    rcases hg : JsonRpcServer.getJsonToken raw with ⟨tok, tokenVal, consumed⟩
    simp only [turns, hg]
    by_cases htok : tok = .none ∨ tok = .err
    · rw [if_pos htok, readLoop_stop (by rwa [hg])]
    have hconsumed := getJsonToken_consumed raw (by rwa [hg])
    rw [hg] at hconsumed
    simp only at hconsumed
    have hcut : (UInt32.ofNat consumed).toNat = consumed :=
      UInt32.toNat_ofNat_of_lt (by simp only [UInt32.size]; omega)
    rw [if_neg htok, readLoop_token hg htok, hcut]
    cases st.step tok tokenVal with
    | none => rfl
    | some st' =>
      by_cases hs : st'.stack = []
      · simp [hs]
      · simp only [List.isEmpty_iff, hs, if_false]
        exact ih (by simp only [List.length_drop]; omega) (by simp only [List.length_drop]; omega)

end

theorem start_eq : PReader.start = ofReader .start := by
  simp [PReader.start, ofReader, Reader.start, Reader.value, Reader.unwind, pointers]

/-! ## Texts on which the loop goes on -/

section
variable {w : Bytes}

/-- The bracket is consumed, but the `unsigned int` says that nothing was. -/
theorem turns_bracket (hw : White w) (hlen : (w.length + 1) % 2 ^ 32 = 0) (rest : Bytes)
    {st st' : Reader} (hstep : st.step .arrOpen [] = some st') (hst' : st'.stack ≠ [])
    (tokens : Nat) :
    turns (tokens + 1) st (w ++ [0x5b] ++ rest) = turns tokens st' (w ++ [0x5b] ++ rest) := by
  have hg : JsonRpcServer.getJsonToken (w ++ [0x5b] ++ rest) = (.arrOpen, [], w.length + 1) := by
    have hlexeme := @getJsonToken_complete w [0x5b] rest .arrOpen hw .arrOpen
      (by simp [Token.strings]) (by simp)
    simpa [tokenCode] using hlexeme
  have hcut : (UInt32.ofNat (w.length + 1)).toNat = 0 := hlen
  have hstack : st'.stack.isEmpty = false := by simpa using hst'
  simp only [turns, hg, hcut, hstep, hstack, List.drop_zero]
  rfl

theorem turns_inArray (hw : White w) (hlen : (w.length + 1) % 2 ^ 32 = 0) (rest : Bytes)
    (tokens : Nat) (self top : UniValue) (stack : List UniValue) (last : JTokenType) :
    turns tokens ⟨self, top :: stack, expArrValue, last⟩ (w ++ [0x5b] ++ rest) = none := by
  induction tokens generalizing top stack last with
  | zero => rfl
  | succ tokens ih =>
    rw [turns_bracket hw hlen rest (step_arrOpen .item) (by simp)]
    exact ih _ _ _

theorem turns_endless (hw : White w) (hlen : (w.length + 1) % 2 ^ 32 = 0) (rest : Bytes)
    (tokens : Nat) : turns tokens .start (w ++ [0x5b] ++ rest) = none := by
  cases tokens with
  | zero => rfl
  | succ tokens =>
    rw [turns_bracket hw hlen rest step_start_arrOpen (by simp)]
    exact turns_inArray hw hlen rest tokens _ _ _ _

end

end Pointers

/-- No byte is read that is not there and no pointer into the tree dangles; and on a text whose
length fits `consumed` the result is that of the reader without pointers. -/
theorem pointers_stay_good (raw : Bytes) :
    (∀ tokens, ∃ r, Buffers.eval raw (Pointers.readLoop raw.length tokens .start 0) = some r ∧
      r ≠ .dangling) ∧
    (raw.length < 2 ^ 32 →
      Buffers.eval raw (Pointers.read raw.length) = some (.returned (read raw))) := by
  have hrun : ∀ tokens, Buffers.eval raw (Pointers.readLoop raw.length tokens .start 0) =
      some (.ofTurns (Pointers.turns tokens .start raw)) := by
    rw [Pointers.start_eq]
    exact Pointers.eval_readLoop (.inr rfl) .start
  refine ⟨fun tokens => ⟨_, hrun tokens, ?_⟩, fun hraw => ?_⟩
  · cases Pointers.turns tokens .start raw <;> simp [Pointers.Outcome.ofTurns]
  · rw [Pointers.read, hrun, Pointers.turns_eq_readLoop hraw (Nat.lt_succ_self _)]
    rfl

theorem pointers_stay_good_array :
    Buffers.eval (cstr "[1]") (Pointers.read (cstr "[1]").length) =
      some (.returned (read (cstr "[1]"))) :=
  (pointers_stay_good (cstr "[1]")).2 (by decide)

/-- The loop never ends on white space and a bracket that together fill the range of `consumed`,
whatever comes after: it opens one array inside the other. -/
theorem brackets_never_end {w : Bytes} (hw : JsonText.White w) (hlen : (w.length + 1) % 2 ^ 32 = 0)
    (rest : Bytes) (tokens : Nat) :
    Buffers.eval (w ++ [0x5b] ++ rest)
      (Pointers.readLoop (w ++ [0x5b] ++ rest).length tokens .start 0) = some .running := by
  rw [Pointers.start_eq, Pointers.eval_readLoop (.inr rfl) .start,
    Pointers.turns_endless hw hlen rest tokens]
  rfl

def blanks (n : Nat) : Bytes := List.replicate n 0x20

theorem length_blanks (n : Nat) : (blanks n).length = n := List.length_replicate

theorem brackets_never_end_blanks :
    Buffers.eval (blanks (2 ^ 32 - 1) ++ [0x5b] ++ [])
      (Pointers.readLoop (blanks (2 ^ 32 - 1) ++ [0x5b] ++ []).length 1000 .start 0) =
        some .running :=
  brackets_never_end (w := blanks (2 ^ 32 - 1)) (JsonText.white_replicate _)
    (by rw [length_blanks]; rfl) [] 1000

end JsonRpcServer

import JsonRpcServer.UniValue

/-!
# The reader

`UniValue::read`: a bit mask of what may come next, the previous token and a
stack of the open containers. The source keeps pointers into the tree it builds;
here an open container waits on the stack without its open child, which joins it
when the child closes.
-/
namespace JsonRpcServer

def expObjName : UInt32 := (1 : UInt32) <<< 0
def expColon : UInt32 := (1 : UInt32) <<< 1
def expArrValue : UInt32 := (1 : UInt32) <<< 2
def expValue : UInt32 := (1 : UInt32) <<< 3
def expNotValue : UInt32 := (1 : UInt32) <<< 4

def expect (expectMask bit : UInt32) : Bool := expectMask &&& bit ≠ 0
def setExpect (expectMask bit : UInt32) : UInt32 := expectMask ||| bit
def clearExpect (expectMask bit : UInt32) : UInt32 := expectMask &&& ~~~bit

def isValueOpen (tok : JTokenType) : Bool :=
  jsonTokenIsValue tok || tok = .objOpen || tok = .arrOpen

/-- The first five tests of the loop: the mask they leave, `none` for `return false`. -/
def checkExpected (expectMask : UInt32) (tok : JTokenType) : Option UInt32 :=
  if expect expectMask expValue then
    if isValueOpen tok then some (clearExpect expectMask expValue) else none
  else if expect expectMask expArrValue then
    if isValueOpen tok || tok = .arrClose then some (clearExpect expectMask expArrValue) else none
  else if expect expectMask expObjName then
    if tok = .objClose || tok = .string then some expectMask else none
  else if expect expectMask expColon then
    if tok = .colon then some (clearExpect expectMask expColon) else none
  else if tok = .colon then none
  else some expectMask

def checkNotValue (expectMask : UInt32) (tok : JTokenType) : Option UInt32 :=
  if expect expectMask expNotValue then
    if isValueOpen tok then none else some (clearExpect expectMask expNotValue)
  else some expectMask

/-- The mask after all the tests before the `switch`. -/
def checkToken (expectMask : UInt32) (tok : JTokenType) : Option UInt32 :=
  (checkExpected expectMask tok).bind (checkNotValue · tok)

/-- The local variables of `read`; `self` is `*this`, `stack` has the innermost container first. -/
structure Reader where
  self : UniValue
  stack : List UniValue
  expectMask : UInt32
  lastTok : JTokenType
  deriving DecidableEq, Repr

namespace Reader

def start : Reader := ⟨.null, [], 0, .none⟩

/-- Append a value to a container that is still open. -/
def addValue (top v : UniValue) : UniValue := { top with values := top.values ++ [v] }

/-- `*this` with every open container in its place, as it is when `read` gives up. -/
def unwind (self : UniValue) : List UniValue → UniValue
  | [] => self
  | [top] => top
  | top :: parent :: stack => unwind self (addValue parent top :: stack)
termination_by stack => stack.length

def value (st : Reader) : UniValue := unwind st.self st.stack

/-- A value that is complete with its token: the whole text, or a child of the innermost
container. -/
def putValue (st : Reader) (v : UniValue) : Reader :=
  match st.stack with
  | [] => { st with self := v }
  | top :: stack =>
    { st with stack := addValue top v :: stack
              expectMask := setExpect st.expectMask expNotValue }

def openContainer (st : Reader) (utyp : VType) : Reader :=
  { st with stack := .ofType utyp [] :: st.stack
            expectMask := setExpect st.expectMask
              (if utyp = .vobj then expObjName else expArrValue) }

def closeContainer (st : Reader) (utyp : VType) : Option Reader :=
  match st.stack with
  | [] => none
  | top :: stack =>
    if st.lastTok = .comma ∨ utyp ≠ top.typ then none
    else
      let expectMask := setExpect (clearExpect st.expectMask expObjName) expNotValue
      match stack with
      | [] => some { st with self := top, stack := [], expectMask }
      | parent :: stack => some { st with stack := addValue parent top :: stack, expectMask }

/-- The `switch` on the token. -/
def accept (st : Reader) (tok : JTokenType) (tokenVal : Bytes) : Option Reader :=
  match tok with
  | .objOpen => some (st.openContainer .vobj)
  | .arrOpen => some (st.openContainer .varr)
  | .objClose => st.closeContainer .vobj
  | .arrClose => st.closeContainer .varr
  | .colon =>
    match st.stack with
    | [] => none
    | top :: _ =>
      if top.typ ≠ .vobj then none
      else some { st with expectMask := setExpect st.expectMask expValue }
  | .comma =>
    match st.stack with
    | [] => none
    | top :: _ =>
      if st.lastTok = .comma ∨ st.lastTok = .arrOpen then none
      else
        some { st with
          expectMask := setExpect st.expectMask
            (if top.typ = .vobj then expObjName else expArrValue) }
  | .kwNull => some (st.putValue .null)
  | .kwTrue => some (st.putValue (.setBool true))
  | .kwFalse => some (st.putValue (.setBool false))
  | .number => some (st.putValue (.ofType .vnum tokenVal))
  | .string =>
    if expect st.expectMask expObjName then
      match st.stack with
      -- `stack.back()` is safe: a member name is only expected inside an object
      | [] => none
      | top :: stack =>
        some { st with
          stack := { top with keys := top.keys ++ [tokenVal] } :: stack
          expectMask :=
            setExpect (setExpect (clearExpect st.expectMask expObjName) expColon) expNotValue }
    else some (st.putValue (.ofType .vstr tokenVal))
  | .err | .none => none

/-- One turn of the loop after the lexer; `none` is `return false`. -/
def step (st : Reader) (tok : JTokenType) (tokenVal : Bytes) : Option Reader :=
  (checkToken st.expectMask tok).bind (fun expectMask =>
    (accept { st with expectMask } tok tokenVal).map ({ · with lastTok := tok }))

end Reader

/-- The loop of `read` and the test after it that nothing follows the value. The flag is what
`read` returns; the value is what `*this` then holds. -/
def readLoop (st : Reader) (raw : Bytes) : Bool × UniValue :=
  match _h : getJsonToken raw with
  | (tok, tokenVal, consumed) =>
    if _hv : tok = .none ∨ tok = .err then (false, st.value)
    else
      match st.step tok tokenVal with
      | none => (false, st.value)
      | some st' =>
        if st'.stack.isEmpty then ((getJsonToken (raw.drop consumed)).1 = .none, st'.self)
        else readLoop st' (raw.drop consumed)
termination_by raw.length
decreasing_by
  have hc := getJsonToken_consumed raw (by rw [_h]; simpa using _hv)
  simp only [_h] at hc
  simp only [List.length_drop]
  omega

/-- `UniValue::read(raw, size)`, for texts below `2^32` bytes: with more, `consumed` may wrap. -/
def read (raw : Bytes) : Bool × UniValue := readLoop .start raw

end JsonRpcServer

import JsonRpcServer.StringFilter

/-!
# The lexer

`getJsonToken` over the unread part of the text. The text comes from a
`std::string`, so the byte after its end reads as NUL.
-/
namespace JsonRpcServer

inductive JTokenType where
  | err | none | objOpen | objClose | arrOpen | arrClose | colon | comma
  | kwNull | kwTrue | kwFalse | number | string
  deriving DecidableEq, Repr

def jsonTokenIsValue : JTokenType → Bool
  | .kwNull | .kwTrue | .kwFalse | .number | .string => true
  | _ => false

def jsonIsspace (ch : UInt8) : Bool := ch = 0x20 || ch = 0x09 || ch = 0x0a || ch = 0x0d

def jsonIsdigit (ch : UInt8) : Bool := 0x30 ≤ ch && ch ≤ 0x39

/-- The value of one hexadecimal digit, in either case. -/
def hexDigit (ch : UInt8) : Option Nat :=
  if jsonIsdigit ch then some (ch.toNat - 0x30)
  else if 0x61 ≤ ch && ch ≤ 0x66 then some (ch.toNat - 0x61 + 10)
  else if 0x41 ≤ ch && ch ≤ 0x46 then some (ch.toNat - 0x41 + 10)
  else none

/-- Hexadecimal text to an unsigned integer; also the part that was not read. -/
def hatoui (result : Nat) : Bytes → Nat × Bytes
  | [] => (result, [])
  | ch :: rest =>
    match hexDigit ch with
    | some digit => hatoui (16 * result + digit) rest
    | none => (result, ch :: rest)

/-- The byte at `raw[i]`, or the terminating NUL. -/
def peek (raw : Bytes) (i : Nat) : UInt8 := raw.getD i 0

/-- Part 2 of a number, the fraction: its text and what follows, `none` for an error. -/
def getFrac : Bytes → Option (Bytes × Bytes)
  | [] => some ([], [])
  | ch :: raw =>
    if ch = 0x2e then
      if raw = [] ∨ !jsonIsdigit (peek raw 0) then none
      else some (ch :: raw.takeWhile jsonIsdigit, raw.dropWhile jsonIsdigit)
    else some ([], ch :: raw)

/-- The optional sign of an exponent. -/
def getSign : Bytes → Bytes × Bytes
  | [] => ([], [])
  | ch :: raw => if ch = 0x2d ∨ ch = 0x2b then ([ch], raw) else ([], ch :: raw)

/-- Part 3 of a number, the exponent. -/
def getExp : Bytes → Option (Bytes × Bytes)
  | [] => some ([], [])
  | ch :: raw =>
    if ch = 0x65 ∨ ch = 0x45 then
      let (sign, raw) := getSign raw
      if raw = [] ∨ !jsonIsdigit (peek raw 0) then none
      else some (ch :: sign ++ raw.takeWhile jsonIsdigit, raw.dropWhile jsonIsdigit)
    else some ([], ch :: raw)

/-- The first digit is a zero and another digit follows it. -/
def leadingZero (first : UInt8) (raw : Bytes) : Bool :=
  let firstDigit := if jsonIsdigit first then first :: raw else raw
  peek firstDigit 0 = 0x30 && jsonIsdigit (peek firstDigit 1)

/-- A number whose first char is `first`, a digit or a minus sign, followed by `raw`. -/
def getNumber (first : UInt8) (raw : Bytes) : Option (Bytes × Bytes) :=
  if leadingZero first raw then none
  else if first = 0x2d ∧ raw ≠ [] ∧ !jsonIsdigit (peek raw 0) then none
  else
    let numStr := first :: raw.takeWhile jsonIsdigit
    match getFrac (raw.dropWhile jsonIsdigit) with
    | none => none
    | some (frac, raw) =>
      match getExp raw with
      | none => none
      | some (exp, raw) => some (numStr ++ frac ++ exp, raw)

/-- The byte a two-character escape stands for. -/
def escapeChar (ch : UInt8) : Option UInt8 :=
  if ch = 0x22 then some 0x22
  else if ch = 0x5c then some 0x5c
  else if ch = 0x2f then some 0x2f
  else if ch = 0x62 then some 0x08
  else if ch = 0x66 then some 0x0c
  else if ch = 0x6e then some 0x0a
  else if ch = 0x72 then some 0x0d
  else if ch = 0x74 then some 0x09
  else none

/-- The string scanner, from after the opening quote: the filter it has fed and the text
after the closing quote. -/
def getString (writer : JSONUTF8StringFilter) : Bytes → Option (JSONUTF8StringFilter × Bytes)
  | [] => none
  | ch :: raw =>
    if ch < 0x20 then none
    else if ch = 0x5c then
      match raw with
      | [] => none
      | esc :: raw =>
        if esc = 0x75 then
          match raw with
          | h₁ :: h₂ :: h₃ :: h₄ :: raw =>
            -- `raw + 1 + 4 >= end` asks for a byte after the four digits
            if raw = [] then none
            else
              match hatoui 0 [h₁, h₂, h₃, h₄] with
              | (codepoint, []) => getString (writer.pushBackU codepoint) raw
              | (_, _ :: _) => none
          | _ => none
        else
          match escapeChar esc with
          | some ch => getString (writer.pushBack ch) raw
          | none => none
    else if ch = 0x22 then some (writer, raw)
    else getString (writer.pushBack ch) raw

/-- The tokens of a single char. -/
def punctuation (ch : UInt8) : Option JTokenType :=
  if ch = 0x7b then some .objOpen
  else if ch = 0x7d then some .objClose
  else if ch = 0x5b then some .arrOpen
  else if ch = 0x5d then some .arrClose
  else if ch = 0x3a then some .colon
  else if ch = 0x2c then some .comma
  else none

/-- The keyword at `raw` and the text after it. -/
def getKeyword (raw : Bytes) : Option (JTokenType × Bytes) :=
  if cstr "null" <+: raw then some (.kwNull, raw.drop 4)
  else if cstr "true" <+: raw then some (.kwTrue, raw.drop 4)
  else if cstr "false" <+: raw then some (.kwFalse, raw.drop 5)
  else none

/-- One token at `ch :: raw`, which is past the whitespace: its type, its value and the text
that follows it; `none` is `return JTOK_ERR`. -/
def getLexeme (ch : UInt8) (raw : Bytes) : Option (JTokenType × Bytes × Bytes) :=
  match punctuation ch with
  | some tok => some (tok, [], raw)
  | none =>
    if ch = 0x6e ∨ ch = 0x74 ∨ ch = 0x66 then
      match getKeyword (ch :: raw) with
      | some (tok, raw) => some (tok, [], raw)
      | none => none
    else if ch = 0x2d ∨ jsonIsdigit ch then
      match getNumber ch raw with
      | some (numStr, raw) => some (.number, numStr, raw)
      | none => none
    else if ch = 0x22 then
      match getString .new raw with
      | some (writer, raw) => if writer.finalize then some (.string, writer.str, raw) else none
      | none => none
    else none

/-- The type of the next token, its value, and how many bytes it and the whitespace before it
take. This is an `unsigned int` in the source and a `Nat` here; what `read` does with one that wraps
is in `Pointers`, and on texts below `2^32` bytes `pointers_stay_good` has both agree. -/
def getJsonToken (raw : Bytes) : JTokenType × Bytes × Nat :=
  match raw.dropWhile jsonIsspace with
  | [] => (.none, [], 0)
  | ch :: rest =>
    match getLexeme ch rest with
    | none => (.err, [], 0)
    | some (tok, tokenVal, rest) => (tok, tokenVal, raw.length - rest.length)

/-! ## Progress

A token takes at least one byte, so the loop over the tokens ends. -/

theorem getFrac_suffix {raw frac rest : Bytes} (h : getFrac raw = some (frac, rest)) :
    rest <:+ raw := by
  cases raw with
  | nil => simp only [getFrac, Option.some.injEq, Prod.mk.injEq] at h; simp [← h.2]
  | cons ch raw =>
    simp only [getFrac] at h
    split at h
    · split at h
      · cases h
      · simp only [Option.some.injEq, Prod.mk.injEq] at h
        rw [← h.2]
        exact (List.dropWhile_suffix _).trans (List.suffix_cons _ _)
    · simp only [Option.some.injEq, Prod.mk.injEq] at h
      simp [← h.2]

theorem getSign_suffix (raw : Bytes) : (getSign raw).2 <:+ raw := by
  cases raw with
  | nil => exact List.suffix_rfl
  | cons ch raw =>
    simp only [getSign]
    split
    · exact List.suffix_cons _ _
    · exact List.suffix_rfl

theorem getExp_suffix {raw exp rest : Bytes} (h : getExp raw = some (exp, rest)) :
    rest <:+ raw := by
  cases raw with
  | nil => simp only [getExp, Option.some.injEq, Prod.mk.injEq] at h; simp [← h.2]
  | cons ch raw =>
    simp only [getExp] at h
    split at h
    · split at h
      · cases h
      · simp only [Option.some.injEq, Prod.mk.injEq] at h
        rw [← h.2]
        exact (List.dropWhile_suffix _).trans ((getSign_suffix raw).trans (List.suffix_cons _ _))
    · simp only [Option.some.injEq, Prod.mk.injEq] at h
      simp [← h.2]

theorem getNumber_suffix {first : UInt8} {raw numStr rest : Bytes}
    (h : getNumber first raw = some (numStr, rest)) : rest <:+ raw := by
  simp only [getNumber] at h
  split at h
  · cases h
  split at h
  · cases h
  split at h
  · cases h
  next frac mid hf =>
    split at h
    · cases h
    next exp tail he =>
      simp only [Option.some.injEq, Prod.mk.injEq] at h
      rw [← h.2]
      exact (getExp_suffix he).trans ((getFrac_suffix hf).trans (List.dropWhile_suffix _))

theorem getString_suffix {writer writer' : JSONUTF8StringFilter} {raw rest : Bytes}
    (h : getString writer raw = some (writer', rest)) : rest <:+ raw := by
  fun_induction getString writer raw <;> simp_all [List.suffix_cons_iff]

theorem getKeyword_suffix {ch : UInt8} {raw rest : Bytes} {tok : JTokenType}
    (h : getKeyword (ch :: raw) = some (tok, rest)) : rest <:+ raw := by
  unfold getKeyword at h
  split at h
  · cases h; exact List.drop_suffix 3 raw
  split at h
  · cases h; exact List.drop_suffix 3 raw
  split at h
  · cases h; exact List.drop_suffix 4 raw
  · cases h

theorem getLexeme_suffix {ch : UInt8} {raw tokenVal rest : Bytes} {tok : JTokenType}
    (h : getLexeme ch raw = some (tok, tokenVal, rest)) : rest <:+ raw := by
  unfold getLexeme at h
  repeat' split at h
  all_goals cases h
  · exact List.suffix_rfl
  · exact getKeyword_suffix ‹_›
  · exact getNumber_suffix ‹_›
  · exact getString_suffix ‹_›

/-- A token that is no error takes a byte at least and never more than there is. -/
theorem getJsonToken_consumed (raw : Bytes)
    (h : ¬ ((getJsonToken raw).1 = .none ∨ (getJsonToken raw).1 = .err)) :
    0 < (getJsonToken raw).2.2 ∧ (getJsonToken raw).2.2 ≤ raw.length := by
  unfold getJsonToken at h ⊢
  split at h
  · simp at h
  next ch rest hd =>
    have hlen : (ch :: rest).length ≤ raw.length := hd ▸ (List.dropWhile_suffix _).length_le
    simp only [List.length_cons] at hlen
    split at h
    · simp at h
    next tok tokenVal tail he =>
      have hs := (getLexeme_suffix he).length_le
      simp only at hs ⊢
      omega

end JsonRpcServer

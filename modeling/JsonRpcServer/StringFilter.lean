import Mathlib.Data.Nat.Bitwise

/-!
# Byte strings and the UTF-8 string filter

`std::string` is a list of bytes. The filter sits between the lexer and the
stored string: it validates raw UTF-8, collates UTF-16 surrogate pairs and
re-encodes every codepoint it lets through.
-/
namespace JsonRpcServer

abbrev Bytes := List UInt8

/-- The bytes of a C++ string literal. -/
def cstr (s : String) : Bytes := s.toUTF8.data.toList

structure JSONUTF8StringFilter where
  str : Bytes
  isValid : Bool
  codepoint : Nat
  state : Nat
  surpair : Nat
  deriving DecidableEq, Repr

namespace JSONUTF8StringFilter

/-- The filter as the lexer constructs it, over an empty string. -/
def new : JSONUTF8StringFilter := ⟨[], true, 0, 0, 0⟩

/-- The bytes written for one codepoint; nothing above 21 bits is written. -/
def encodeCodepoint (codepoint : Nat) : Bytes :=
  if codepoint ≤ 0x7f then [.ofNat codepoint]
  else if codepoint ≤ 0x7FF then
    [.ofNat (0xC0 ||| codepoint >>> 6), .ofNat (0x80 ||| codepoint &&& 0x3F)]
  else if codepoint ≤ 0xFFFF then
    [.ofNat (0xE0 ||| codepoint >>> 12), .ofNat (0x80 ||| (codepoint >>> 6) &&& 0x3F),
      .ofNat (0x80 ||| codepoint &&& 0x3F)]
  else if codepoint ≤ 0x1FFFFF then
    [.ofNat (0xF0 ||| codepoint >>> 18), .ofNat (0x80 ||| (codepoint >>> 12) &&& 0x3F),
      .ofNat (0x80 ||| (codepoint >>> 6) &&& 0x3F), .ofNat (0x80 ||| codepoint &&& 0x3F)]
  else []

def appendCodepoint (w : JSONUTF8StringFilter) (codepoint : Nat) : JSONUTF8StringFilter :=
  { w with str := w.str ++ encodeCodepoint codepoint }

/-- `0x10000 | (surpair - 0xD800) << 10 | codepoint - 0xDC00`. The first `|` is the source's:
it does not carry into bit 16 when the first half has already set it. -/
def collate (surpair codepoint : Nat) : Nat :=
  0x10000 ||| (surpair - 0xD800) <<< 10 ||| (codepoint - 0xDC00)

/-- Write a codepoint directly, possibly collating surrogate pairs. -/
def pushBackU (w : JSONUTF8StringFilter) (codepoint : Nat) : JSONUTF8StringFilter :=
  let w := if w.state ≠ 0 then { w with isValid := false } else w
  if 0xD800 ≤ codepoint ∧ codepoint < 0xDC00 then
    if w.surpair ≠ 0 then { w with isValid := false } else { w with surpair := codepoint }
  else if 0xDC00 ≤ codepoint ∧ codepoint < 0xE000 then
    if w.surpair ≠ 0 then { w.appendCodepoint (collate w.surpair codepoint) with surpair := 0 }
    else { w with isValid := false }
  else if w.surpair ≠ 0 then { w with isValid := false }
  else w.appendCodepoint codepoint

/-- Write a single 8-bit char, which may be part of a UTF-8 sequence. -/
def pushBack (w : JSONUTF8StringFilter) (ch : UInt8) : JSONUTF8StringFilter :=
  if w.state = 0 then
    -- 7-bit ASCII goes straight through, whatever `surpair` holds
    if ch < 0x80 then { w with str := w.str ++ [ch] }
    else if ch < 0xc0 then { w with isValid := false }
    else if ch < 0xe0 then { w with codepoint := (ch.toNat &&& 0x1f) <<< 6, state := 6 }
    else if ch < 0xf0 then { w with codepoint := (ch.toNat &&& 0x0f) <<< 12, state := 12 }
    else if ch < 0xf8 then { w with codepoint := (ch.toNat &&& 0x07) <<< 18, state := 18 }
    else { w with isValid := false }
  else
    let w := if ch &&& 0xc0 ≠ 0x80 then { w with isValid := false } else w
    let state := w.state - 6
    let codepoint := w.codepoint ||| (ch.toNat &&& 0x3f) <<< state
    let w := { w with state := state, codepoint := codepoint }
    if state = 0 then w.pushBackU codepoint else w

/-- No open sequence, no open surrogate pair, nothing refused before. -/
def finalize (w : JSONUTF8StringFilter) : Bool :=
  if w.state ≠ 0 ∨ w.surpair ≠ 0 then false else w.isValid

end JSONUTF8StringFilter

end JsonRpcServer

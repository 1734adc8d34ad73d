import JsonRpcServer.UniValue

/-!
# The writer

`UniValue::write`. An object is written along its keys and asks for each value
with `values.at(i)`, so it throws where the keys outnumber the values.
-/
namespace JsonRpcServer

/-- A lower-case hexadecimal digit. -/
def hexChar (n : Nat) : UInt8 := if n < 10 then .ofNat (0x30 + n) else .ofNat (0x57 + n)

/-- The table `escapes`; `none` is a null pointer, a byte written as it is. -/
def escapes (ch : UInt8) : Option Bytes :=
  if ch = 0x08 then some (cstr "\\b")
  else if ch = 0x09 then some (cstr "\\t")
  else if ch = 0x0a then some (cstr "\\n")
  else if ch = 0x0c then some (cstr "\\f")
  else if ch = 0x0d then some (cstr "\\r")
  else if ch = 0x22 then some (cstr "\\\"")
  else if ch = 0x5c then some (cstr "\\\\")
  else if ch < 0x20 ∨ ch = 0x7f then
    some (cstr "\\u00" ++ [hexChar (ch.toNat / 16), hexChar (ch.toNat % 16)])
  else none

/-- `json_escape`. Its index is an `unsigned int`, as that of `writeArray` and `writeObject` is; up to
`2^32 - 1` elements that makes no difference, and for more see `Unsigned`. -/
def jsonEscape (inS : Bytes) : Bytes := inS.flatMap (fun ch => (escapes ch).getD [ch])

def quote (s : Bytes) : Bytes := cstr "\"" ++ jsonEscape s ++ cstr "\""

def indentStr (prettyIndent indentLevel : Nat) : Bytes :=
  List.replicate (prettyIndent * indentLevel) 0x20

/-- What a pretty printer adds: `s` when `prettyIndent` is set. -/
def pretty (prettyIndent : Nat) (s : Bytes) : Bytes := if prettyIndent = 0 then [] else s

namespace UniValue

mutual
def write (prettyIndent indentLevel : Nat) : UniValue → Except Exception Bytes
  | ⟨typ, val, keys, values⟩ =>
    let modIndent := if indentLevel = 0 then 1 else indentLevel
    let close := pretty prettyIndent (indentStr prettyIndent (modIndent - 1))
    match typ with
    | .vnull => .ok (cstr "null")
    | .vobj => do
      let s ← writeObject prettyIndent modIndent values.length 0 values keys
      .ok (cstr "\x7b" ++ pretty prettyIndent (cstr "\n") ++ s ++ close ++ cstr "\x7d")
    | .varr => do
      let s ← writeArray prettyIndent modIndent values
      .ok (cstr "[" ++ pretty prettyIndent (cstr "\n") ++ s ++ close ++ cstr "]")
    | .vstr => .ok (quote val)
    | .vnum => .ok val
    | .vbool => .ok (if val = cstr "1" then cstr "true" else cstr "false")

/-- The loop of `writeArray`, between the brackets. -/
def writeArray (prettyIndent indentLevel : Nat) : List UniValue → Except Exception Bytes
  | [] => .ok []
  | v :: values => do
    let s ← write prettyIndent (indentLevel + 1) v
    let rest ← writeArray prettyIndent indentLevel values
    .ok (pretty prettyIndent (indentStr prettyIndent indentLevel) ++ s ++
      (if values.isEmpty then [] else cstr ",") ++ pretty prettyIndent (cstr "\n") ++ rest)

/-- The loop of `writeObject` from index `i` on, between the braces; `size` is `values.size()`. -/
def writeObject (prettyIndent indentLevel size i : Nat) :
    List UniValue → List Bytes → Except Exception Bytes
  | _, [] => .ok []
  | [], _ :: _ => .error (.std (rangeText i size))
  | v :: values, key :: keys => do
    let s ← write prettyIndent (indentLevel + 1) v
    let rest ← writeObject prettyIndent indentLevel size (i + 1) values keys
    .ok (pretty prettyIndent (indentStr prettyIndent indentLevel) ++
      quote key ++ cstr ":" ++ pretty prettyIndent (cstr " ") ++ s ++
      (if values.isEmpty then [] else cstr ",") ++ pretty prettyIndent (cstr "\n") ++ rest)
end

end UniValue

end JsonRpcServer

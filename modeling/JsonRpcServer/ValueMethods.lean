import JsonRpcServer.UniValue
import Std.Data.TreeMap

/-!
# The other methods of UniValue

Methods the server itself does not call: the remaining setters and getters, and
objects taken as maps.
-/
namespace JsonRpcServer

namespace UniValue

/-- And `clear`. -/
def setNull : UniValue := null
def setStr (val : Bytes) : UniValue := ofType .vstr val
def setArray : UniValue := ofType .varr []
def setObject : UniValue := ofType .vobj []

/-- `setInt`: an `std::ostringstream` prints all the integer types alike. -/
def setInt (v : UniValue) (val : Int) : UniValue := v.setNumStr (intText val)

/-- `setFloat`: `text` is what an `std::ostringstream` makes of the number. The type is a number's
even if this text is refused, as that of an infinity is. -/
def setFloat (v : UniValue) (text : Bytes) : UniValue := { v.setNumStr text with typ := .vnum }

/-- What the constructors and the overloads of `push_back` and `pushKV` take besides a value: an
integer of any type, a `double` by its text, a `bool`, or a string. -/
inductive Scalar where
  | int (val : Int) | double (text : Bytes) | bool (val : Bool) | str (val : Bytes)

/-- The value that is constructed, or the temporary that the overloads pass on. -/
def Scalar.value : Scalar → UniValue
  | int val => null.setInt val
  | double text => null.setFloat text
  | bool val => setBool val
  | str val => setStr val

/-- `strtoll` is `strtol`, both types having 64 bits; the tests of the range hold of all its
results. -/
def parseInt64 (str : Bytes) : Option Int :=
  if !parsePrechecks str then none
  else
    let (n, endp, erange) := strtol str
    if endp = [] ∧ !erange ∧ -2 ^ 63 ≤ n ∧ n ≤ 2 ^ 63 - 1 then some n else none

def getInt64 (v : UniValue) : Except Exception Int :=
  if v.typ ≠ .vnum then .error (.std (cstr "JSON value is not an integer as expected"))
  else
    match parseInt64 v.val with
    | some n => .ok n
    | none => .error (.std (cstr "JSON integer out of range"))

/-- Append the values of a vector to an array; any other value stays as it is. -/
def pushBackV (v : UniValue) (vec : List UniValue) : UniValue :=
  if v.typ ≠ .varr then v else { v with values := v.values ++ vec }

/-- `__pushKV`: append a member, whatever the type is. -/
def appendKV (v : UniValue) (key : Bytes) (x : UniValue) : UniValue :=
  { v with keys := v.keys ++ [key], values := v.values ++ [x] }

/-- The loop of `pushKVs` from index `i` on; `size` is `obj.values.size()`. -/
def pushKVsFrom (size i : Nat) (v : UniValue) :
    List Bytes → List UniValue → Except Exception Bool × UniValue
  | [], _ => (.ok true, v)
  | _ :: _, [] => (.error (.std (rangeText i size)), v)
  | key :: keys, x :: values => pushKVsFrom size (i + 1) (v.appendKV key x) keys values

/-- What `pushKVs` returns or throws, and what the value is then. `obj` is another value. -/
def pushKVs (v obj : UniValue) : Except Exception Bool × UniValue :=
  if v.typ ≠ .vobj ∨ obj.typ ≠ .vobj then (.ok false, v)
  else pushKVsFrom obj.values.length 0 v obj.keys obj.values

/-- The loop of `getObjMap`; reading past the end of `values` is undefined, `none` here. -/
def fillMap (kv : Std.TreeMap Bytes UniValue) :
    List Bytes → List UniValue → Option (Std.TreeMap Bytes UniValue)
  | [], _ => some kv
  | _ :: _, [] => none
  | key :: keys, x :: values => fillMap (kv.insert key x) keys values

def getObjMap (v : UniValue) (kv : Std.TreeMap Bytes UniValue) :
    Option (Std.TreeMap Bytes UniValue) :=
  if v.typ ≠ .vobj then some kv else fillMap ∅ v.keys v.values

/-- `operator[]` of a key. -/
def indexKey (v : UniValue) (key : Bytes) : Except Exception UniValue :=
  if v.typ ≠ .vobj then .ok null
  else
    match v.findKey key with
    | none => .ok null
    | some idx => vectorAt v.values idx

/-- The loop of `checkObject`. -/
def checkMembers (v : UniValue) : List (Bytes × VType) → Except Exception Bool
  | [] => .ok true
  | (key, typ) :: t =>
    match v.findKey key with
    | none => .ok false
    | some idx => do
      let x ← vectorAt v.values idx
      if x.typ ≠ typ then .ok false else checkMembers v t

end UniValue

end JsonRpcServer

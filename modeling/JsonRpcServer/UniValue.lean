import JsonRpcServer.Lexer

/-!
# UniValue

The variant type of every JSON value in the server, field by field as in the
class: numbers are kept as text, an object keeps its keys and its values in two
vectors. The methods that only report whether the type fitted (`pushKV`,
`pushBack`) return the value alone, as no caller reads the flag.
-/
namespace JsonRpcServer

inductive VType where
  | vnull | vobj | varr | vstr | vnum | vbool
  deriving DecidableEq, Repr

structure UniValue where
  typ : VType
  val : Bytes
  keys : List Bytes
  values : List UniValue
  deriving Repr

/-- The two kinds of exception the server throws and catches. -/
inductive Exception where
  | univalue : UniValue → Exception
  | std (what : Bytes)
  deriving Repr

namespace UniValue

mutual
def decEq : (a b : UniValue) → Decidable (a = b)
  | ⟨typ, val, keys, values⟩, ⟨typ', val', keys', values'⟩ =>
    match decEqList values values' with
    | .isTrue h =>
      decidable_of_iff (typ = typ' ∧ val = val' ∧ keys = keys') (by subst h; simp)
    | .isFalse h => .isFalse (by simp_all)

def decEqList : (as bs : List UniValue) → Decidable (as = bs)
  | [], [] => .isTrue rfl
  | [], _ :: _ => .isFalse (by simp)
  | _ :: _, [] => .isFalse (by simp)
  | a :: as, b :: bs =>
    match decEq a b, decEqList as bs with
    | .isTrue h, .isTrue hs => .isTrue (by rw [h, hs])
    | .isFalse h, _ => .isFalse (by simp_all)
    | _, .isFalse hs => .isFalse (by simp_all)
end

instance : DecidableEq UniValue := decEq

/-- `UniValue()`. -/
def null : UniValue := ⟨.vnull, [], [], []⟩

/-- `UniValue(typ, str)`. -/
def ofType (typ : VType) (str : Bytes) : UniValue := ⟨typ, str, [], []⟩

def setBool (val : Bool) : UniValue := ofType .vbool (if val then cstr "1" else [])

def validNumStr (s : Bytes) : Bool := (getJsonToken s).1 = .number

/-- Refused text leaves the value as it was. -/
def setNumStr (v : UniValue) (val : Bytes) : UniValue :=
  if validNumStr val then ofType .vnum val else v

/-- Decimal digits, as `std::ostringstream` writes them in the classic locale. -/
def decimal (n : Nat) : Bytes := (Nat.toDigits 10 n).map (fun c => .ofNat c.toNat)

def intText : Int → Bytes
  | .ofNat n => decimal n
  | .negSucc n => 0x2d :: decimal (n + 1)

/-- `UniValue(int)`. The constructor leaves `typ` to `setInt`; null stands for what it finds. -/
def ofInt (n : Int) : UniValue := null.setNumStr (intText n)

def isNull (v : UniValue) : Bool := v.typ = .vnull
def isStr (v : UniValue) : Bool := v.typ = .vstr
def isArray (v : UniValue) : Bool := v.typ = .varr
def isObject (v : UniValue) : Bool := v.typ = .vobj

/-- Append to an array; any other value stays as it is. -/
def pushBack (v x : UniValue) : UniValue :=
  if v.typ ≠ .varr then v else { v with values := v.values ++ [x] }

def findKey (v : UniValue) (key : Bytes) : Option Nat := v.keys.findIdx? (· = key)

/-- Set the first member of that name, or append one; only objects change. -/
def pushKV (v : UniValue) (key : Bytes) (x : UniValue) : UniValue :=
  if v.typ ≠ .vobj then v
  else
    match v.findKey key with
    | some idx => { v with values := v.values.set idx x }
    | none => { v with keys := v.keys ++ [key], values := v.values ++ [x] }

/-- The text of the `std::out_of_range` that `vector::at` throws, as libstdc++ words it. -/
def rangeText (n size : Nat) : Bytes :=
  cstr "vector::_M_range_check: __n (which is " ++ decimal n ++
    cstr ") >= this->size() (which is " ++ decimal size ++ cstr ")"

/-- `values.at(i)`. -/
def vectorAt (values : List UniValue) (i : Nat) : Except Exception UniValue :=
  match values[i]? with
  | some v => .ok v
  | none => .error (.std (rangeText i values.length))

/-- `operator[](size_t)`. -/
def index (v : UniValue) (i : Nat) : UniValue :=
  if v.typ ≠ .vobj ∧ v.typ ≠ .varr then null else v.values.getD i null

/-- `find_value`: the first member of that name, or null. With `2^32` keys or more its index, an
`unsigned int`, wraps (`Unsigned.findValue`). -/
def findValue (obj : UniValue) (name : Bytes) : Except Exception UniValue :=
  match obj.findKey name with
  | some i => vectorAt obj.values i
  | none => .ok null

def getStr (v : UniValue) : Except Exception Bytes :=
  if v.typ ≠ .vstr then .error (.std (cstr "JSON value is not a string as expected"))
  else .ok v.val

/-- `isspace` of the C locale, which `strtol` skips. -/
def isspace (ch : UInt8) : Bool := ch = 0x20 || 0x09 ≤ ch && ch ≤ 0x0d

def digitsValue (digits : Bytes) : Nat := digits.foldl (fun n ch => 10 * n + (ch.toNat - 0x30)) 0

/-- The sign `strtol` accepts: whether it negates, and what follows it. -/
def strtolSign : Bytes → Bool × Bytes
  | [] => (false, [])
  | ch :: rest =>
    if ch = 0x2d then (true, rest) else if ch = 0x2b then (false, rest) else (false, ch :: rest)

/-- `strtol(str, &endp, 10)` of a 64-bit `long`: the value, the text from `endp`, and whether
`errno` reports a value out of range. -/
def strtol (str : Bytes) : Int × Bytes × Bool :=
  let (negative, text) := strtolSign (str.dropWhile isspace)
  let digits := text.takeWhile jsonIsdigit
  let n : Int := if negative then -digitsValue digits else digitsValue digits
  if digits = [] then (0, str, false)
  else if n < -2 ^ 63 then (-2 ^ 63, text.dropWhile jsonIsdigit, true)
  else if 2 ^ 63 - 1 < n then (2 ^ 63 - 1, text.dropWhile jsonIsdigit, true)
  else (n, text.dropWhile jsonIsdigit, false)

/-- No empty text, no padding, no embedded NUL. -/
def parsePrechecks (str : Bytes) : Bool :=
  str ≠ [] && !jsonIsspace (str.headD 0) && !jsonIsspace (str.getLastD 0) && 0 ∉ str

def parseInt32 (str : Bytes) : Option Int :=
  if !parsePrechecks str then none
  else
    let (n, endp, erange) := strtol str
    if endp = [] ∧ !erange ∧ -2 ^ 31 ≤ n ∧ n ≤ 2 ^ 31 - 1 then some n else none

def getInt (v : UniValue) : Except Exception Int :=
  if v.typ ≠ .vnum then .error (.std (cstr "JSON value is not an integer as expected"))
  else
    match parseInt32 v.val with
    | some n => .ok n
    | none => .error (.std (cstr "JSON integer out of range"))

end UniValue

end JsonRpcServer

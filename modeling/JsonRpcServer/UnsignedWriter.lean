import JsonRpcServer.Layouts
import JsonRpcServer.Loops

/-!
# Loops with an unsigned index

`json_escape`, `writeArray`, `writeObject` and `find_value` count in `unsigned int`,
so none of their loops ends by itself over `2^32` elements or more. Here they are with
this index. Where they come back, it is with what the functions on lists give.
-/
namespace JsonRpcServer

namespace Unsigned

open Loops UniValue

/-- A call that throws or returns, or has done neither after the rounds that it was given. -/
abbrev M := ExceptT Exception Option

def escapeRound (inS : Bytes) (i : UInt32) (outS : Bytes) : M Bytes :=
  let ch := inS.getD i.toNat 0
  pure (outS ++ (escapes ch).getD [ch])

def jsonEscape (rounds : Nat) (inS : Bytes) : M Bytes :=
  forIndex inS.length (escapeRound inS) rounds 0 []

section
variable (rounds : Nat) (write : UInt32 → UInt32 → UniValue → M Bytes)
  (prettyIndent indentLevel : UInt32)

def itemRound (values : List UniValue) (i : UInt32) (s : Bytes) : M Bytes := do
  let s := s ++ pretty32 prettyIndent (indentStr32 prettyIndent indentLevel)
  let s := s ++ (← write prettyIndent (indentLevel + 1) (values.getD i.toNat null))
  let s := if i.toNat ≠ values.length - 1 then s ++ cstr "," else s
  pure (s ++ pretty32 prettyIndent (cstr "\n"))

/-- `writeArray`, which calls `write` for the items. -/
def writeArray (values : List UniValue) (s : Bytes) : M Bytes := do
  let s := s ++ cstr "[" ++ pretty32 prettyIndent (cstr "\n")
  let s ← forIndex values.length (itemRound write prettyIndent indentLevel values) rounds 0 s
  pure (s ++ pretty32 prettyIndent (indentStr32 prettyIndent (indentLevel - 1)) ++ cstr "]")

/-- A key is escaped before `values.at(i)` is asked for its value. -/
def memberRound (keys : List Bytes) (values : List UniValue) (i : UInt32) (s : Bytes) :
    M Bytes := do
  let s := s ++ pretty32 prettyIndent (indentStr32 prettyIndent indentLevel)
  let s := s ++ (cstr "\"" ++ (← jsonEscape rounds (keys.getD i.toNat [])) ++ cstr "\":")
  let s := s ++ pretty32 prettyIndent (cstr " ")
  let value ← ExceptT.mk (some (vectorAt values i.toNat))
  let s := s ++ (← write prettyIndent (indentLevel + 1) value)
  let s := if i.toNat ≠ values.length - 1 then s ++ cstr "," else s
  pure (s ++ pretty32 prettyIndent (cstr "\n"))

def writeObject (keys : List Bytes) (values : List UniValue) (s : Bytes) : M Bytes := do
  let s := s ++ cstr "\x7b" ++ pretty32 prettyIndent (cstr "\n")
  let s ← forIndex keys.length (memberRound rounds write prettyIndent indentLevel keys values)
    rounds 0 s
  pure (s ++ pretty32 prettyIndent (indentStr32 prettyIndent (indentLevel - 1)) ++ cstr "\x7d")

end

def write : Nat → UInt32 → UInt32 → UniValue → M Bytes
  | 0, _, _, _ => ExceptT.mk none
  | rounds + 1, prettyIndent, indentLevel, v =>
    let modIndent := modIndent32 indentLevel
    match v.typ with
    | .vnull => pure (cstr "null")
    | .vobj => writeObject rounds (write rounds) prettyIndent modIndent v.keys v.values []
    | .varr => writeArray rounds (write rounds) prettyIndent modIndent v.values []
    | .vstr => do pure (cstr "\"" ++ (← jsonEscape rounds v.val) ++ cstr "\"")
    | .vnum => pure v.val
    | .vbool => pure (if v.val = cstr "1" then cstr "true" else cstr "false")

def findRound (obj : UniValue) (name : Bytes) (i : UInt32) (_ : Unit) :
    ExceptT (Except Exception UniValue) Option Unit :=
  if obj.keys.getD i.toNat [] = name then throw (vectorAt obj.values i.toNat) else pure ()

/-- What the loop has found, or null. -/
def found : Except (Except Exception UniValue) Unit → Except Exception UniValue
  | .error r => r
  | .ok () => .ok null

/-- `find_value`: the loop is left by the return where the name is found. -/
def findValue (rounds : Nat) (obj : UniValue) (name : Bytes) : M UniValue :=
  ExceptT.mk ((forIndex obj.keys.length (findRound obj name) rounds 0 ()).run.map found)

/-! ## Strings -/

def escapeStep (_k : Nat) (ch : UInt8) (outS : Bytes) : Except Exception Bytes :=
  .ok (outS ++ (escapes ch).getD [ch])

theorem forEach_escape (k : Nat) (inS outS : Bytes) :
    forEach escapeStep k inS outS = .ok (outS ++ JsonRpcServer.jsonEscape inS) := by
  induction inS generalizing k outS with
  | nil => simp [forEach, JsonRpcServer.jsonEscape]
  | cons ch inS ih =>
    rw [forEach, escapeStep]
    simp only [bind, Except.bind, ih]
    simp [JsonRpcServer.jsonEscape]

theorem run_escapeRound {inS : Bytes} {i : UInt32} (hi : i.toNat < inS.length) (outS : Bytes) :
    (escapeRound inS i outS).run = some (escapeStep i.toNat inS[i.toNat] outS) := by
  rw [escapeRound, List.getD_eq_getElem _ _ hi]
  rfl

theorem comesTo_jsonEscape {inS : Bytes} (h : inS.length < 2 ^ 32) :
    ComesTo (jsonEscape · inS) (.ok (JsonRpcServer.jsonEscape inS)) := by
  have hloop : ComesTo (jsonEscape · inS) (forEach escapeStep 0 inS []) :=
    comesTo_forIndex h (fun i hi => ⟨0, fun _ _ s => run_escapeRound hi s⟩) []
  rwa [forEach_escape] at hloop

theorem onlyTo_jsonEscape (rounds : Nat) (inS : Bytes) :
    OnlyTo (jsonEscape rounds inS) (.ok (JsonRpcServer.jsonEscape inS)) := by
  have hloop : OnlyTo (jsonEscape rounds inS) (forEach escapeStep 0 inS []) :=
    onlyTo_forIndex (fun i hi s => .const (run_escapeRound hi s)) (by simp [escapeStep]) []
  rwa [forEach_escape] at hloop

/-! ## Arrays and objects -/

section
variable (prettyIndent indentLevel : UInt32)

/-- A round of `writeArray`, over so many items. -/
def itemStep (size k : Nat) (v : UniValue) (s : Bytes) : Except Exception Bytes := do
  let text ← write32 prettyIndent (modIndent32 indentLevel + 1) v
  .ok (s ++ pretty32 prettyIndent (indentStr32 prettyIndent (modIndent32 indentLevel)) ++ text ++
    (if k ≠ size - 1 then cstr "," else []) ++ pretty32 prettyIndent (cstr "\n"))

/-- A round of `writeObject`, for those values. -/
def memberStep (values : List UniValue) (k : Nat) (key : Bytes) (s : Bytes) :
    Except Exception Bytes := do
  let name ← .ok (JsonRpcServer.jsonEscape key)
  let v ← vectorAt values k
  let text ← write32 prettyIndent (modIndent32 indentLevel + 1) v
  .ok (s ++ pretty32 prettyIndent (indentStr32 prettyIndent (modIndent32 indentLevel)) ++
    (cstr "\"" ++ name ++ cstr "\":") ++ pretty32 prettyIndent (cstr " ") ++ text ++
    (if k ≠ values.length - 1 then cstr "," else []) ++ pretty32 prettyIndent (cstr "\n"))

theorem forEach_items {size k : Nat} {values : List UniValue} (h : k + values.length = size)
    (s : Bytes) :
    forEach (itemStep prettyIndent indentLevel size) k values s =
      (layOutItems (counting32 prettyIndent) indentLevel values).map (s ++ ·) := by
  induction values generalizing k s with
  | nil => simp [forEach, layOutItems, Except.map]
  | cons v vs ih =>
    have hrest : k + 1 + vs.length = size := by
      rw [← h, List.length_cons]
      omega
    have hcomma : (if k ≠ size - 1 then cstr "," else []) =
        if vs.isEmpty then [] else cstr "," := by
      cases vs <;> simp [← h]
    have hwrite : layOut (counting32 prettyIndent) ((counting32 prettyIndent).below indentLevel) v =
      write32 prettyIndent (modIndent32 indentLevel + 1) v := rfl
    rw [forEach, itemStep, layOutItems, hcomma, hwrite]
    cases write32 prettyIndent (modIndent32 indentLevel + 1) v with
    | error e => rfl
    | ok text =>
      simp only [bind, Except.bind, ih hrest]
      cases layOutItems (counting32 prettyIndent) indentLevel vs with
      | error e => rfl
      | ok rest => simp [Except.map, counting32]

theorem name_eq (key : Bytes) :
    cstr "\"" ++ JsonRpcServer.jsonEscape key ++ cstr "\":" = quote key ++ cstr ":" := by
  have hend : cstr "\":" = cstr "\"" ++ cstr ":" := by decide
  simp only [quote, hend, List.append_assoc]

theorem forEach_members {k : Nat} {values : List UniValue} {keys : List Bytes} (s : Bytes) :
    forEach (memberStep prettyIndent indentLevel values) k keys s =
      (layOutMembers (counting32 prettyIndent) indentLevel values.length k (values.drop k)
        keys).map (s ++ ·) := by
  induction keys generalizing k s with
  | nil => cases values.drop k <;> simp [forEach, layOutMembers, Except.map]
  | cons key keys ih =>
    rw [forEach, memberStep, vectorAt]
    by_cases hk : k < values.length
    · have hcomma : (if k ≠ values.length - 1 then cstr "," else []) =
          if (values.drop (k + 1)).isEmpty then [] else cstr "," := by
        by_cases hlast : values.length ≤ k + 1
        · have hindex : k = values.length - 1 := by omega
          rw [if_neg (by simpa using hindex), if_pos (by simpa using hlast)]
        · have hindex : k ≠ values.length - 1 := by omega
          rw [if_pos hindex, if_neg (by simpa using hlast)]
      have hwrite : layOut (counting32 prettyIndent)
          ((counting32 prettyIndent).below indentLevel) values[k] =
        write32 prettyIndent (modIndent32 indentLevel + 1) values[k] := rfl
      rw [List.drop_eq_getElem_cons hk, layOutMembers, List.getElem?_eq_getElem hk, hcomma, hwrite]
      simp only [bind, Except.bind, name_eq]
      cases write32 prettyIndent (modIndent32 indentLevel + 1) values[k] with
      | error e => rfl
      | ok text =>
        simp only [ih]
        cases layOutMembers (counting32 prettyIndent) indentLevel values.length (k + 1)
            (values.drop (k + 1)) keys with
        | error e => rfl
        | ok rest => simp [Except.map, counting32]
    · have hle : values.length ≤ k := Nat.le_of_not_lt hk
      rw [List.drop_eq_nil_of_le hle, layOutMembers, List.getElem?_eq_none hle]
      rfl

theorem run_comma {p : Prop} [Decidable p] (s newline : Bytes) :
    (pure ((if p then s ++ cstr "," else s) ++ newline) : M Bytes).run =
      some (.ok (s ++ (if p then cstr "," else []) ++ newline)) := by
  split
  · rfl
  · rw [List.append_nil]
    rfl

end

section
variable {rounds : Nat} {p i k : UInt32} {values : List UniValue} {keys : List Bytes}
  {w : UInt32 → UInt32 → UniValue → M Bytes}

/-- A round of the loop is that of the list where `write` gives what it gives. -/
theorem run_itemRound (hk : k.toNat < values.length)
    (hw : (w p (modIndent32 i + 1) values[k.toNat]).run =
      some (write32 p (modIndent32 i + 1) values[k.toNat])) (s : Bytes) :
    (itemRound w p (modIndent32 i) values k s).run =
      some (itemStep p i values.length k.toNat values[k.toNat] s) := by
  rw [itemRound, List.getD_eq_getElem _ _ hk]
  exact run_bind_eq hw fun text _ => run_comma _ _

theorem onlyTo_itemRound (hk : k.toNat < values.length)
    (hw : OnlyTo (w p (modIndent32 i + 1) values[k.toNat])
      (write32 p (modIndent32 i + 1) values[k.toNat])) (s : Bytes) :
    OnlyTo (itemRound w p (modIndent32 i) values k s)
      (itemStep p i values.length k.toNat values[k.toNat] s) := by
  rw [itemRound, List.getD_eq_getElem _ _ hk]
  exact hw.bind fun text _ => .const (run_comma _ _)

theorem run_memberRound (hk : k.toNat < keys.length)
    (hkey : (jsonEscape rounds keys[k.toNat]).run =
      some (.ok (JsonRpcServer.jsonEscape keys[k.toNat])))
    (hw : ∀ v, vectorAt values k.toNat = .ok v →
      (w p (modIndent32 i + 1) v).run = some (write32 p (modIndent32 i + 1) v)) (s : Bytes) :
    (memberRound rounds w p (modIndent32 i) keys values k s).run =
      some (memberStep p i values k.toNat keys[k.toNat] s) := by
  rw [memberRound, List.getD_eq_getElem _ _ hk]
  exact run_bind_eq hkey fun name _ => run_bind_eq rfl fun v hv =>
    run_bind_eq (hw v hv) fun text _ => run_comma _ _

theorem onlyTo_memberRound (hk : k.toNat < keys.length)
    (hw : ∀ v, vectorAt values k.toNat = .ok v →
      OnlyTo (w p (modIndent32 i + 1) v) (write32 p (modIndent32 i + 1) v)) (s : Bytes) :
    OnlyTo (memberRound rounds w p (modIndent32 i) keys values k s)
      (memberStep p i values k.toNat keys[k.toNat] s) := by
  rw [memberRound, List.getD_eq_getElem _ _ hk]
  exact (onlyTo_jsonEscape rounds _).bind fun name _ => (OnlyTo.const rfl).bind fun v hv =>
    (hw v hv).bind fun text _ => .const (run_comma _ _)

/-- The text of an array is put together by its loop. -/
theorem write32_array (val : Bytes) (keys : List Bytes) (values : List UniValue) :
    write32 p i ⟨.varr, val, keys, values⟩ =
      (forEach (itemStep p i values.length) 0 values
          ([] ++ cstr "[" ++ pretty32 p (cstr "\n")) >>= fun s =>
        .ok (s ++ pretty32 p (indentStr32 p (modIndent32 i - 1)) ++ cstr "]")) := by
  rw [forEach_items p i (Nat.zero_add _), write32, layOut]
  cases layOutItems (counting32 p) i values with
  | error e => rfl
  | ok s => simp [Except.map, bind, Except.bind, counting32]

theorem write32_object (val : Bytes) (keys : List Bytes) (values : List UniValue) :
    write32 p i ⟨.vobj, val, keys, values⟩ =
      (forEach (memberStep p i values) 0 keys
          ([] ++ cstr "\x7b" ++ pretty32 p (cstr "\n")) >>= fun s =>
        .ok (s ++ pretty32 p (indentStr32 p (modIndent32 i - 1)) ++ cstr "\x7d")) := by
  rw [forEach_members, List.drop_zero, write32, layOut]
  cases layOutMembers (counting32 p) i values.length 0 values keys with
  | error e => rfl
  | ok s => simp [Except.map, bind, Except.bind, counting32]

end

theorem itemStep_exit {p i : UInt32} {size k : Nat} {v : UniValue} {s : Bytes} (s' : Bytes)
    {e : Exception} (h : itemStep p i size k v s = .error e) :
    ∃ e', itemStep p i size k v s' = .error e' := by
  unfold itemStep at *
  cases hw : write32 p (modIndent32 i + 1) v with
  | error e' => exact ⟨e', rfl⟩
  | ok text => simp [hw, bind, Except.bind] at h

theorem memberStep_exit {p i : UInt32} {values : List UniValue} {k : Nat} {key : Bytes} {s : Bytes}
    (s' : Bytes) {e : Exception} (h : memberStep p i values k key s = .error e) :
    ∃ e', memberStep p i values k key s' = .error e' := by
  unfold memberStep at *
  cases hv : vectorAt values k with
  | error e' => exact ⟨e', rfl⟩
  | ok v =>
    simp only [hv, bind, Except.bind] at h ⊢
    cases hw : write32 p (modIndent32 i + 1) v with
    | error e' => exact ⟨e', rfl⟩
    | ok text => simp [hw] at h

/-! ## The writer -/

/-- However large a value is, what the writer comes back with does not depend on its indices. -/
theorem onlyTo_write (rounds : Nat) (p i : UInt32) (v : UniValue) :
    OnlyTo (write rounds p i v) (write32 p i v) := by
  induction rounds generalizing i v with
  | zero => exact fun r hr => nomatch hr
  | succ rounds ih =>
    obtain ⟨typ, val, keys, values⟩ := v
    cases typ with
    | vnull | vnum | vbool => exact .const rfl
    | vstr =>
      exact (onlyTo_jsonEscape rounds val).bind (g := fun s => .ok (cstr "\"" ++ s ++ cstr "\""))
        fun s _ => .const rfl
    | varr =>
      rw [write32_array]
      exact (onlyTo_forIndex (fun k hk s => onlyTo_itemRound hk (ih _ _) s)
        (fun _ _ _ s' _ h => itemStep_exit s' h) _).bind fun s _ => .const rfl
    | vobj =>
      rw [write32_object]
      exact (onlyTo_forIndex (fun k hk s => onlyTo_memberRound hk (fun v _ => ih _ v) s)
        (fun _ _ _ s' _ h => memberStep_exit s' h) _).bind fun s _ => .const rfl

/-- No string, no list of keys and no array that is written has too many elements for an index. -/
inductive Counted : UniValue → Prop where
  | scalar {typ : VType} {val : Bytes} {keys : List Bytes} {values : List UniValue}
      (h : typ = .vnull ∨ typ = .vnum ∨ typ = .vbool) : Counted ⟨typ, val, keys, values⟩
  | string {val : Bytes} {keys : List Bytes} {values : List UniValue} (h : val.length < 2 ^ 32) :
      Counted ⟨.vstr, val, keys, values⟩
  | array {val : Bytes} {keys : List Bytes} {values : List UniValue}
      (hlen : values.length < 2 ^ 32) (h : ∀ v ∈ values, Counted v) :
      Counted ⟨.varr, val, keys, values⟩
  | object {val : Bytes} {keys : List Bytes} {values : List UniValue}
      (hlen : keys.length < 2 ^ 32) (hkeys : ∀ key ∈ keys, key.length < 2 ^ 32)
      (h : ∀ v ∈ values.take keys.length, Counted v) : Counted ⟨.vobj, val, keys, values⟩

theorem vectorAt_eq {values : List UniValue} {k : Nat} {v : UniValue}
    (h : vectorAt values k = .ok v) : ∃ hk : k < values.length, values[k] = v := by
  unfold vectorAt at h
  by_cases hk : k < values.length
  · rw [List.getElem?_eq_getElem hk] at h
    exact ⟨hk, Except.ok.inj h⟩
  · rw [List.getElem?_eq_none (Nat.le_of_not_lt hk)] at h
    cases h

/-- Of such a value the writer comes back, with a text or with an exception. -/
theorem comesTo_write {v : UniValue} (h : Counted v) (p i : UInt32) :
    ComesTo (write · p i v) (write32 p i v) := by
  induction h generalizing i with
  | scalar h =>
    rcases h with rfl | rfl | rfl <;> exact .of_succ (.const rfl)
  | string h =>
    exact .of_succ ((comesTo_jsonEscape h).bind (g := fun s => .ok (cstr "\"" ++ s ++ cstr "\""))
      fun s _ => .const rfl)
  | @array val keys values hlen h ih =>
    rw [write32_array]
    refine .of_succ ((comesTo_forIndex hlen (fun k hk => ?_) _).bind fun s _ => .const rfl)
    obtain ⟨n, hn⟩ := ih _ (List.getElem_mem hk) (modIndent32 i + 1)
    exact ⟨n, fun rounds hr s => run_itemRound hk (hn rounds hr) s⟩
  | @object val keys values hlen hkeys h ih =>
    rw [write32_object]
    refine .of_succ ((comesTo_forIndex hlen (fun k hk => ?_) _).bind fun s _ => .const rfl)
    obtain ⟨n, hn⟩ := comesTo_jsonEscape (hkeys _ (List.getElem_mem hk))
    by_cases hv : k.toNat < values.length
    · have hmem : values[k.toNat] ∈ values.take keys.length :=
        List.mem_take_iff_getElem.mpr ⟨k.toNat, Nat.lt_min.mpr ⟨hk, hv⟩, rfl⟩
      obtain ⟨n', hn'⟩ := ih _ hmem (modIndent32 i + 1)
      refine ⟨max n n', fun rounds hr s => run_memberRound hk ?_ (fun v hat => ?_) s⟩
      · exact hn rounds (Nat.max_le.mp hr).1
      · obtain ⟨-, rfl⟩ := vectorAt_eq hat
        exact hn' rounds (Nat.max_le.mp hr).2
    · refine ⟨n, fun rounds hr s => run_memberRound hk (hn rounds hr) (fun v hat => ?_) s⟩
      exact absurd (vectorAt_eq hat).1 hv

/-- A text comes back of no other value. -/
theorem counted_of_write {rounds : Nat} {p i : UInt32} {v : UniValue} {s : Bytes}
    (h : (write rounds p i v).run = some (.ok s)) : Counted v := by
  induction rounds generalizing i v s with
  | zero => cases h
  | succ rounds ih =>
    obtain ⟨typ, val, keys, values⟩ := v
    cases typ with
    | vnull | vnum | vbool => exact .scalar (by simp)
    | vstr =>
      obtain ⟨t, hescape, -⟩ := run_bind_ok h
      exact .string (size_lt_of_forIndex hescape)
    | varr =>
      obtain ⟨t, hloop, -⟩ := run_bind_ok h
      have hlen := size_lt_of_forIndex hloop
      refine .array hlen fun v hv => ?_
      obtain ⟨k, hk, rfl⟩ := List.getElem_of_mem hv
      obtain ⟨j, rfl, s₁, s₂, hround⟩ := round_of_forIndex hloop (Nat.zero_le _) hk
      obtain ⟨text, hwrite, -⟩ := run_bind_ok hround
      rw [List.getD_eq_getElem _ _ hk] at hwrite
      exact ih hwrite
    | vobj =>
      obtain ⟨t, hloop, -⟩ := run_bind_ok h
      have hlen := size_lt_of_forIndex hloop
      have hmember : ∀ k (hk : k < keys.length), keys[k].length < 2 ^ 32 ∧
          ∃ v, vectorAt values k = .ok v ∧ Counted v := by
        intro k hk
        obtain ⟨j, rfl, s₁, s₂, hround⟩ := round_of_forIndex hloop (Nat.zero_le _) hk
        obtain ⟨name, hescape, hrest⟩ := run_bind_ok hround
        obtain ⟨v, hat, hrest⟩ := run_bind_ok hrest
        obtain ⟨text, hwrite, -⟩ := run_bind_ok hrest
        rw [List.getD_eq_getElem _ _ hk] at hescape
        exact ⟨size_lt_of_forIndex hescape, v, Option.some.inj hat, ih hwrite⟩
      refine .object hlen (fun key hkey => ?_) (fun v hv => ?_)
      · obtain ⟨k, hk, rfl⟩ := List.getElem_of_mem hkey
        exact (hmember k hk).1
      · obtain ⟨k, hk, rfl⟩ := List.mem_take_iff_getElem.mp hv
        obtain ⟨-, v, hat, hcounted⟩ := hmember k (Nat.lt_min.mp hk).1
        obtain ⟨_, rfl⟩ := vectorAt_eq hat
        exact hcounted

/-- The writer comes back with every value in which an index can count, and with a text of no
other. However it counts, it throws what the writer whose counters never wrap throws; nothing but
white space depends on the counters, and where they do not wrap that is the same, too. -/
theorem writers_agree (p i : UInt32) (v : UniValue) :
    (Counted v → ∃ n r, ∀ rounds ≥ n, (write rounds p i v).run = some r) ∧
      ∀ rounds r, (write rounds p i v).run = some r →
        (∀ s, r = .ok s → Counted v) ∧
        (∀ e, r = .error e ↔ UniValue.write 0 0 v = .error e) ∧
        (p = 0 → r = UniValue.write 0 0 v) ∧
        (NoWrap p (depth v) i → r = UniValue.write p.toNat i.toNat v) := by
  refine ⟨fun h => ?_, fun rounds r hr => ?_⟩
  · obtain ⟨n, hn⟩ := comesTo_write h p i
    exact ⟨n, _, hn⟩
  · obtain rfl := onlyTo_write rounds p i v r hr
    refine ⟨fun s hs => counted_of_write (hs ▸ hr), (write32_agrees p i v).error_iff, ?_,
      write32_eq_write⟩
    rintro rfl
    exact write32_compact i 0 v

theorem writers_agree_nested :
    ∃ rounds, (write rounds 2 0 ⟨.varr, [], [], [ofType .vstr (cstr "a")]⟩).run =
      some (UniValue.write 2 0 ⟨.varr, [], [], [ofType .vstr (cstr "a")]⟩) := by
  have hcounted : Counted ⟨.varr, [], [], [ofType .vstr (cstr "a")]⟩ :=
    .array (by decide) (by simpa [ofType] using Counted.string (by decide))
  obtain ⟨n, r, hr⟩ := (writers_agree 2 0 _).1 hcounted
  have hrun := hr n (Nat.le_refl n)
  exact ⟨n, hrun.trans (congrArg some (((writers_agree 2 0 _).2 n r hrun).2.2.2 (by decide)))⟩

/-! ## Lookups -/

end Unsigned

end JsonRpcServer

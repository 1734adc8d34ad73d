import JsonRpcServer.Layouts
import JsonRpcServer.ScalarTexts
import JsonRpcServer.ValueMethods

/-!
# Reading integers out of values

Exactly which texts `get_int` and `get_int64` take for which integers, and that
integers come back from the values and texts they are put into.
-/
namespace JsonRpcServer

open JsonText

namespace UniValue

/-! ## The texts of integers -/

/-- The integer that a sign and digits stand for. -/
def signed (sign ds : Bytes) : Int := if sign = [0x2d] then -digitsValue ds else digitsValue ds

/-- White space that the check at the start of `ParsePrechecks` lets through. -/
def Padding (pad : Bytes) : Prop :=
  (∀ c ∈ pad, isspace c) ∧ ∀ c ∈ pad.head?, c = 0x0b ∨ c = 0x0c

/-- The text of an integer: digits after a sign, and after space that begins with a vertical tab or
a form feed. -/
def IntegerText (str : Bytes) (n : Int) : Prop :=
  ∃ pad sign ds, str = pad ++ (sign ++ ds) ∧ Padding pad ∧ Sign sign ∧ Digits ds ∧
    n = signed sign ds

theorem digit_plain {d : UInt8} (h : isDigit d) :
    isspace d = false ∧ isSpace d = false ∧ d ≠ 0x2d ∧ d ≠ 0x2b ∧ d ≠ 0 := by
  have hge : 0x30 ≤ d := by
    simp only [isDigit, Bool.and_eq_true, decide_eq_true_eq] at h
    exact h.1
  refine ⟨Bool.eq_false_iff.mpr fun hs => ?_, Bool.eq_false_iff.mpr fun hs => ?_, ?_, ?_, ?_⟩
  · simp only [isspace, Bool.or_eq_true, Bool.and_eq_true, decide_eq_true_eq] at hs
    obtain rfl | ⟨-, hle⟩ := hs
    · exact absurd h (by decide)
    · exact absurd (UInt8.le_trans hge hle) (by decide)
  · simp only [isSpace, Bool.or_eq_true, decide_eq_true_eq] at hs
    obtain ((rfl | rfl) | rfl) | rfl := hs <;> exact absurd h (by decide)
  all_goals
    rintro rfl
    exact absurd h (by decide)

/-- A sign, or else a digit, begins the number and ends the space. -/
theorem head_number {sign ds : Bytes} (hsign : Sign sign) (hds : Digits ds) :
    ∃ c rest, sign ++ ds = c :: rest ∧ isspace c = false ∧ isSpace c = false ∧ c ≠ 0 := by
  obtain ⟨hne, hdigits⟩ := hds
  cases hsign with
  | absent =>
    cases ds with
    | nil => exact absurd rfl hne
    | cons d ds =>
      obtain ⟨hs, hs', -, -, h0⟩ := digit_plain (hdigits d (by simp))
      exact ⟨d, ds, rfl, hs, hs', h0⟩
  | minus => exact ⟨0x2d, ds, rfl, by decide⟩
  | plus => exact ⟨0x2b, ds, rfl, by decide⟩

theorem strtolSign_number {sign ds : Bytes} (hsign : Sign sign) (hds : Digits ds) :
    strtolSign (sign ++ ds) = (decide (sign = [0x2d]), ds) := by
  cases hsign with
  | absent =>
    obtain ⟨hne, hdigits⟩ := hds
    cases ds with
    | nil => exact absurd rfl hne
    | cons d ds =>
      obtain ⟨-, -, hm, hp, -⟩ := digit_plain (hdigits d (by simp))
      simp [strtolSign, hm, hp]
  | minus => rfl
  | plus => rfl

theorem strtolSign_split (str : Bytes) :
    ∃ sign, Sign sign ∧ str = sign ++ (strtolSign str).2 ∧
      (strtolSign str).1 = decide (sign = [0x2d]) := by
  cases str with
  | nil => exact ⟨[], .absent, rfl, rfl⟩
  | cons c rest =>
    by_cases hm : c = 0x2d
    · subst hm
      exact ⟨[0x2d], .minus, rfl, rfl⟩
    by_cases hp : c = 0x2b
    · subst hp
      exact ⟨[0x2b], .plus, rfl, rfl⟩
    exact ⟨[], .absent, by simp [strtolSign, hm, hp], by simp [strtolSign, hm, hp]⟩

theorem dropWhile_padding {pad sign ds : Bytes} (hpad : ∀ c ∈ pad, isspace c) (hsign : Sign sign)
    (hds : Digits ds) : (pad ++ (sign ++ ds)).dropWhile isspace = sign ++ ds := by
  obtain ⟨c, rest, hc, hspace, -⟩ := head_number hsign hds
  rw [List.dropWhile_append_of_pos hpad, hc]
  exact List.dropWhile_cons_of_neg (by simp [hspace])

/-- The spaces of C that JSON does not have. -/
theorem space_only {c : UInt8} (h : isspace c) (hp : isSpace c = false) :
    c = 0x0b ∨ c = 0x0c := by
  simp only [isspace, Bool.or_eq_true, Bool.and_eq_true, decide_eq_true_eq, isSpace,
    Bool.or_eq_false_iff, decide_eq_false_iff_not, UInt8.le_iff_toNat_le, ← UInt8.toNat_inj] at *
  simp only [UInt8.reduceToNat] at *
  omega

/-! ## What is accepted -/

theorem parsePrechecks_iff (str : Bytes) :
    parsePrechecks str ↔ str ≠ [] ∧ (∀ c ∈ str.head?, isSpace c = false) ∧
      (∀ c ∈ str.getLast?, isSpace c = false) ∧ 0 ∉ str := by
  cases str with
  | nil => simp [parsePrechecks]
  | cons c str =>
    simp [parsePrechecks, List.getLastD_eq_getLast?, List.getLast?_cons, and_assoc]

theorem parsePrechecks_integer {str : Bytes} {n : Int} (h : IntegerText str n) :
    parsePrechecks str := by
  obtain ⟨pad, sign, ds, rfl, ⟨hpad, hfirst⟩, hsign, hds, -⟩ := h
  obtain ⟨c, rest, hc, -, hplain, h0⟩ := head_number hsign hds
  refine (parsePrechecks_iff _).mpr ⟨by simp [hc], ?_, ?_, ?_⟩
  · cases pad with
    | nil => simpa [hc] using hplain
    | cons p pad =>
      have hp := hfirst p rfl
      rintro _ ⟨⟩
      rcases hp with rfl | rfl <;> decide
  · obtain ⟨ds, d, rfl⟩ := (List.eq_nil_or_concat ds).resolve_left hds.1
    have hd := digit_plain (hds.2 d (by simp))
    simp [← List.append_assoc, hd]
  · intro hzero
    rcases List.mem_append.mp hzero with hzero | hzero
    · exact absurd (hpad 0 hzero) (by decide)
    rcases List.mem_append.mp hzero with hzero | hzero
    · cases hsign <;> simp at hzero
    · exact (digit_plain (hds.2 0 hzero)).2.2.2.2 rfl

theorem strtol_integer {str : Bytes} {n : Int} (h : IntegerText str n) (hlo : -2 ^ 63 ≤ n)
    (hhi : n ≤ 2 ^ 63 - 1) : strtol str = (n, [], false) := by
  obtain ⟨pad, sign, ds, rfl, ⟨hpad, -⟩, hsign, hds, rfl⟩ := h
  have hs : strtolSign ((pad ++ (sign ++ ds)).dropWhile isspace) =
      (decide (sign = [0x2d]), ds) := by
    rw [dropWhile_padding hpad hsign hds, strtolSign_number hsign hds]
  have hstrtol := strtol_digits hds.2 hds.1 hs
  simp only [decide_eq_true_eq] at hstrtol
  exact hstrtol hlo hhi

/-- What `strtol` has read when it reads all of a text and sets no `errno`. -/
theorem strtol_inv {str text : Bytes} {negative : Bool} {n : Int} (hne : str ≠ [])
    (hs : strtolSign (str.dropWhile isspace) = (negative, text))
    (h : strtol str = (n, [], false)) :
    Digits text ∧ n = (if negative then -(digitsValue text : Int) else digitsValue text) ∧
      -2 ^ 63 ≤ n ∧ n ≤ 2 ^ 63 - 1 := by
  obtain ⟨value, hvalue⟩ : ∃ value : Int, (if negative then
      -(digitsValue (text.takeWhile isDigit) : Int) else digitsValue (text.takeWhile isDigit)) =
    value := ⟨_, rfl⟩
  unfold strtol at h
  simp only [hs, jsonIsdigit_eq, hvalue] at h
  have hdigits : text.takeWhile isDigit ≠ [] := by
    intro hnil
    simp [hnil, hne] at h
  rw [if_neg hdigits] at h
  have hrange : -2 ^ 63 ≤ value ∧ value ≤ 2 ^ 63 - 1 ∧ value = n ∧ text.dropWhile isDigit = [] := by
    split at h
    · simp at h
    · split at h
      · simp at h
      · simp only [Prod.mk.injEq, and_true] at h
        exact ⟨by omega, by omega, h⟩
  obtain ⟨hlo, hhi, rfl, hend⟩ := hrange
  have htext : text.takeWhile isDigit = text := by
    simpa [hend] using List.takeWhile_append_dropWhile (p := isDigit) (l := text)
  rw [htext] at hdigits hvalue
  exact ⟨⟨hdigits, htext ▸ all_takeWhile_digits text⟩, hvalue.symm, hlo, hhi⟩

/-- The space that `strtol` skips is what the checks before it have let through. -/
theorem padding_takeWhile {str : Bytes} (hhead : ∀ c ∈ str.head?, isSpace c = false) :
    Padding (str.takeWhile isspace) := by
  refine ⟨fun c => List.mem_takeWhile_imp, ?_⟩
  cases str with
  | nil => simp
  | cons c str =>
    intro c' hc'
    by_cases hspace : isspace c
    · obtain rfl : c = c' := by simpa [hspace] using hc'
      exact space_only hspace (hhead c rfl)
    · simp [hspace] at hc'

theorem integer_of_strtol {str : Bytes} {n : Int} (hpre : parsePrechecks str)
    (h : strtol str = (n, [], false)) : IntegerText str n ∧ -2 ^ 63 ≤ n ∧ n ≤ 2 ^ 63 - 1 := by
  obtain ⟨hne, hhead, -⟩ := (parsePrechecks_iff str).mp hpre
  obtain ⟨sign, hsign, hsplit, hnegative⟩ := strtolSign_split (str.dropWhile isspace)
  rcases hs : strtolSign (str.dropWhile isspace) with ⟨negative, text⟩
  rw [hs] at hsplit hnegative
  simp only at hsplit hnegative
  obtain ⟨hdigits, hn, hlo, hhi⟩ := strtol_inv hne hs h
  refine ⟨⟨str.takeWhile isspace, sign, text, ?_, padding_takeWhile hhead, hsign, hdigits, ?_⟩,
    hlo, hhi⟩
  · rw [← hsplit, List.takeWhile_append_dropWhile]
  · rw [hn, hnegative, signed]
    simp

/-- The integers of an `int64_t`. -/
def FitsInt64 (n : Int) : Prop := -2 ^ 63 ≤ n ∧ n ≤ 2 ^ 63 - 1

instance (n : Int) : Decidable (FitsInt n) := inferInstanceAs (Decidable (_ ∧ _))
instance (n : Int) : Decidable (FitsInt64 n) := inferInstanceAs (Decidable (_ ∧ _))

theorem FitsInt.fitsInt64 {n : Int} (h : FitsInt n) : FitsInt64 n := by
  obtain ⟨hlo, hhi⟩ := h
  exact ⟨by omega, by omega⟩

theorem parseInt64_iff (str : Bytes) (n : Int) :
    parseInt64 str = some n ↔ IntegerText str n ∧ FitsInt64 n := by
  constructor
  · intro h
    unfold parseInt64 at h
    by_cases hpre : parsePrechecks str
    · rcases hs : strtol str with ⟨m, endp, erange⟩
      simp only [hpre, hs, Bool.not_true, Bool.false_eq_true, if_false,
        Option.ite_none_right_eq_some, Bool.not_eq_true', Option.some.injEq] at h
      obtain ⟨⟨rfl, rfl, -⟩, rfl⟩ := h
      exact integer_of_strtol hpre hs
    · simp [hpre] at h
  · rintro ⟨h, hlo, hhi⟩
    simp [parseInt64, parsePrechecks_integer h, strtol_integer h hlo hhi]
    omega

theorem parseInt32_iff (str : Bytes) (n : Int) :
    parseInt32 str = some n ↔ IntegerText str n ∧ FitsInt n := by
  constructor
  · intro h
    unfold parseInt32 at h
    by_cases hpre : parsePrechecks str
    · rcases hs : strtol str with ⟨m, endp, erange⟩
      simp only [hpre, hs, Bool.not_true, Bool.false_eq_true, if_false,
        Option.ite_none_right_eq_some, Bool.not_eq_true', Option.some.injEq] at h
      obtain ⟨⟨rfl, rfl, hfits⟩, rfl⟩ := h
      exact ⟨(integer_of_strtol hpre hs).1, hfits⟩
    · simp [hpre] at h
  · rintro ⟨h, hfits⟩
    obtain ⟨hlo, hhi⟩ := hfits.fitsInt64
    simp [parseInt32, parsePrechecks_integer h, strtol_integer h hlo hhi]
    exact hfits

/-- The integer in a value's text, where it is a number whose text is that of an integer. -/
def HoldsInteger (v : UniValue) (n : Int) : Prop := v.typ = .vnum ∧ IntegerText v.val n

theorem getInt64_iff (v : UniValue) (n : Int) :
    v.getInt64 = .ok n ↔ HoldsInteger v n ∧ FitsInt64 n := by
  unfold getInt64 HoldsInteger
  by_cases ht : v.typ = .vnum
  · simp only [ht, ne_eq, not_true, if_false, true_and, ← parseInt64_iff]
    cases parseInt64 v.val <;> simp
  · simp [ht]

theorem getInt_iff (v : UniValue) (n : Int) :
    v.getInt = .ok n ↔ HoldsInteger v n ∧ FitsInt n := by
  unfold getInt HoldsInteger
  by_cases ht : v.typ = .vnum
  · simp only [ht, ne_eq, not_true, if_false, true_and, ← parseInt32_iff]
    cases parseInt32 v.val <;> simp
  · simp [ht]

/-! ## The getters -/

theorem integerText_unique {str : Bytes} {n m : Int} (h : IntegerText str n)
    (h' : IntegerText str m) : n = m := by
  obtain ⟨pad, sign, ds, rfl, ⟨hpad, -⟩, hsign, hds, rfl⟩ := h
  obtain ⟨pad', sign', ds', heq, ⟨hpad', -⟩, hsign', hds', rfl⟩ := h'
  have htext : sign ++ ds = sign' ++ ds' := by
    rw [← dropWhile_padding hpad hsign hds, heq, dropWhile_padding hpad' hsign' hds']
  have hsplit : (decide (sign = [0x2d]), ds) = (decide (sign' = [0x2d]), ds') := by
    rw [← strtolSign_number hsign hds, htext, strtolSign_number hsign' hds']
  obtain ⟨hs, rfl⟩ := Prod.mk.inj hsplit
  simp only [decide_eq_decide] at hs
  simp only [signed, hs]

/-- The answers of a getter for the integers in `fits`. -/
inductive Gets (v : UniValue) (fits : Int → Prop) : Except Exception Int → Prop
  | notNumber : v.typ ≠ .vnum →
      Gets v fits (.error (.std (cstr "JSON value is not an integer as expected")))
  | integer {n : Int} : HoldsInteger v n → fits n → Gets v fits (.ok n)
  | outOfRange : v.typ = .vnum → (∀ n, HoldsInteger v n → ¬ fits n) →
      Gets v fits (.error (.std (cstr "JSON integer out of range")))

theorem Gets.unique {v : UniValue} {fits : Int → Prop} {r r' : Except Exception Int}
    (h : Gets v fits r) (h' : Gets v fits r') : r = r' := by
  cases h with
  | notNumber ht =>
    cases h' with
    | notNumber => rfl
    | integer hn => exact absurd hn.1 ht
    | outOfRange ht' => exact absurd ht' ht
  | integer hn hfits =>
    cases h' with
    | notNumber ht => exact absurd hn.1 ht
    | integer hn' => rw [integerText_unique hn.2 hn'.2]
    | outOfRange _ hout => exact absurd hfits (hout _ hn)
  | outOfRange ht hout =>
    cases h' with
    | notNumber ht' => exact absurd ht ht'
    | integer hn hfits => exact absurd hfits (hout _ hn)
    | outOfRange => rfl

/-- A getter that returns the integers it should and throws otherwise gives the right answer. -/
theorem gets_of {v : UniValue} {fits : Int → Prop} {r : Except Exception Int}
    (hok : ∀ n, r = .ok n ↔ HoldsInteger v n ∧ fits n)
    (herror : ∀ e, r = .error e → v.typ ≠ .vnum ∧
        e = .std (cstr "JSON value is not an integer as expected") ∨
      v.typ = .vnum ∧ e = .std (cstr "JSON integer out of range")) : Gets v fits r := by
  cases r with
  | ok n =>
    obtain ⟨hn, hfits⟩ := (hok n).mp rfl
    exact .integer hn hfits
  | error e =>
    obtain ⟨ht, rfl⟩ | ⟨ht, rfl⟩ := herror e rfl
    · exact .notNumber ht
    · exact .outOfRange ht fun n hn hfits => nomatch (hok n).mpr ⟨hn, hfits⟩

theorem gets_getInt (v : UniValue) : Gets v FitsInt v.getInt := by
  apply gets_of (getInt_iff v)
  intro e he
  unfold getInt at he
  by_cases ht : v.typ = .vnum
  · cases hp : parseInt32 v.val <;> simp [ht, hp] at he
    exact .inr ⟨ht, he.symm⟩
  · simp [ht] at he
    exact .inl ⟨ht, he.symm⟩

theorem gets_getInt64 (v : UniValue) : Gets v FitsInt64 v.getInt64 := by
  apply gets_of (getInt64_iff v)
  intro e he
  unfold getInt64 at he
  by_cases ht : v.typ = .vnum
  · cases hp : parseInt64 v.val <;> simp [ht, hp] at he
    exact .inr ⟨ht, he.symm⟩
  · simp [ht] at he
    exact .inl ⟨ht, he.symm⟩

/-- What `get_int` and `get_int64` answer on every value. -/
theorem integer_getters (v : UniValue) (r : Except Exception Int) :
    (v.getInt = r ↔ Gets v FitsInt r) ∧ (v.getInt64 = r ↔ Gets v FitsInt64 r) := by
  constructor
  · constructor
    · rintro rfl
      exact gets_getInt v
    · exact (gets_getInt v).unique
  · constructor
    · rintro rfl
      exact gets_getInt64 v
    · exact (gets_getInt64 v).unique

/-! ## Integers there and back -/

theorem integerText_intText (n : Int) : IntegerText (intText n) n := by
  cases n with
  | ofNat n =>
    obtain ⟨d, ds, hd, -⟩ := decimal_cons n
    refine ⟨[], [], decimal n, rfl, ⟨by simp, by simp⟩, .absent,
      ⟨by simp [hd], decimal_isDigit n⟩, ?_⟩
    simp [signed, digitsValue_decimal]
  | negSucc n =>
    obtain ⟨d, ds, hd, -⟩ := decimal_cons (n + 1)
    refine ⟨[], [0x2d], decimal (n + 1), rfl, ⟨by simp, by simp⟩, .minus,
      ⟨by simp [hd], decimal_isDigit (n + 1)⟩, ?_⟩
    simp [signed, digitsValue_decimal, Int.negSucc_eq]

/-- The text of an integer is that of no other. -/
theorem holdsInteger_setInt (v : UniValue) (n m : Int) : HoldsInteger (v.setInt n) m ↔ m = n := by
  rw [setInt, setNumStr_intText]
  constructor
  · exact fun h => integerText_unique h.2 (integerText_intText n)
  · rintro rfl
    exact ⟨rfl, integerText_intText m⟩

/-- A number is a text by itself. -/
theorem anyText_number {s : Bytes} (h : Number s) : AnyText s (ofType .vnum s) := by
  have hspaced : Spaced s [.number s] := by
    simpa using Spaced.cons (w := []) (r := []) (by simp [White]) (Lexeme.number h)
      (.nil (by simp [White]))
  exact ⟨.number s, ⟨[.number s], hspaced, .number⟩, by simp [JsonTree.strings], rfl⟩

theorem read_write_setInt (v : UniValue) (n : Int) (prettyIndent indentLevel : UInt32) :
    ∃ text, write32 prettyIndent indentLevel (v.setInt n) = .ok text ∧
      read text = (true, v.setInt n) := by
  rw [setInt, setNumStr_intText]
  exact ⟨intText n, by simp [write32, layOut, ofType],
    read_anyText (anyText_number (number_intText n))⟩

/-- What a getter answers for an integer that has been set. -/
theorem gets_setInt (v : UniValue) (n : Int) (fits : Int → Prop) [Decidable (fits n)] :
    Gets (v.setInt n) fits
      (if fits n then .ok n else .error (.std (cstr "JSON integer out of range"))) := by
  have htyp : (v.setInt n).typ = .vnum := by rw [setInt, setNumStr_intText]; rfl
  split
  next hfits => exact .integer ((holdsInteger_setInt v n n).mpr rfl) hfits
  next hfits =>
    refine .outOfRange htyp fun m hm => ?_
    rwa [(holdsInteger_setInt v n m).mp hm]

/-- An integer set on any value passes through its text, and a getter gives it back or, if it is
too large for what the getter returns, throws. -/
theorem integers_survive (v : UniValue) (prettyIndent indentLevel : UInt32) :
    (∀ n : Int64,
      (∃ text, write32 prettyIndent indentLevel (v.setInt n.toInt) = .ok text ∧
        read text = (true, v.setInt n.toInt)) ∧
      (v.setInt n.toInt).getInt64 = .ok n.toInt ∧
      (v.setInt n.toInt).getInt =
        if FitsInt n.toInt then .ok n.toInt
        else .error (.std (cstr "JSON integer out of range"))) ∧
    ∀ n : UInt64,
      (∃ text, write32 prettyIndent indentLevel (v.setInt n.toNat) = .ok text ∧
        read text = (true, v.setInt n.toNat)) ∧
      (v.setInt n.toNat).getInt64 =
        (if n.toNat < 2 ^ 63 then .ok (n.toNat : Int)
        else .error (.std (cstr "JSON integer out of range"))) ∧
      (v.setInt n.toNat).getInt =
        if n.toNat < 2 ^ 31 then .ok (n.toNat : Int)
        else .error (.std (cstr "JSON integer out of range")) := by
  constructor
  · intro n
    have hfits : FitsInt64 n.toInt := ⟨n.le_toInt, Int.le_sub_one_of_lt n.toInt_lt⟩
    refine ⟨read_write_setInt v _ prettyIndent indentLevel, ?_, ?_⟩
    · simpa only [hfits, if_true] using (gets_getInt64 _).unique (gets_setInt v n.toInt FitsInt64)
    · exact (gets_getInt _).unique (gets_setInt v n.toInt FitsInt)
  · intro n
    have hfits64 : FitsInt64 n.toNat ↔ n.toNat < 2 ^ 63 := by
      unfold FitsInt64
      omega
    have hfits : FitsInt n.toNat ↔ n.toNat < 2 ^ 31 := by
      unfold FitsInt
      omega
    refine ⟨read_write_setInt v _ prettyIndent indentLevel, ?_, ?_⟩
    · simpa only [hfits64] using (gets_getInt64 _).unique (gets_setInt v n.toNat FitsInt64)
    · simpa only [hfits] using (gets_getInt _).unique (gets_setInt v n.toNat FitsInt)

end UniValue

end JsonRpcServer

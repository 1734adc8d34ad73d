import JsonRpcServer.LexerGrammar
import JsonRpcServer.Protocol
import Mathlib.Tactic.IntervalCases

/-!
# Integers and their text

An `int` is stored in a UniValue as decimal text. The lexer takes that text as
one number, and `get_int` reads the integer back from it.
-/
namespace JsonRpcServer

open JsonText

namespace UniValue

theorem decimal_of_lt {n : Nat} (h : n < 10) : decimal n = [.ofNat (0x30 + n)] := by
  rw [decimal, Nat.toDigits_of_lt_base h]
  interval_cases n <;> rfl

theorem decimal_of_le {n : Nat} (h : 10 ≤ n) :
    decimal n = decimal (n / 10) ++ [.ofNat (0x30 + n % 10)] := by
  have hmod : decimal (n % 10) = [.ofNat (0x30 + n % 10)] :=
    decimal_of_lt (Nat.mod_lt n (by decide))
  rw [decimal, Nat.toDigits_of_base_le (by decide) h, List.map_append, ← hmod]
  rw [decimal, decimal, Nat.toDigits_of_lt_base (Nat.mod_lt n (by decide))]

/-- A decimal digit as a byte. -/
theorem isDigit_ofNat {d : Nat} (h : d < 10) : isDigit (.ofNat (0x30 + d)) := by
  interval_cases d <;> decide

theorem decimal_isDigit (n : Nat) : ∀ c ∈ decimal n, isDigit c := by
  induction n using Nat.strong_induction_on with
  | h n ih =>
    by_cases hn : n < 10
    · simpa [decimal_of_lt hn] using isDigit_ofNat hn
    · rw [decimal_of_le (by omega)]
      intro c hc
      obtain hc | hc := List.mem_append.mp hc
      · exact ih (n / 10) (by omega) c hc
      · rw [List.mem_singleton.mp hc]
        exact isDigit_ofNat (Nat.mod_lt n (by decide))

theorem digitsValue_append (ds : Bytes) (c : UInt8) :
    digitsValue (ds ++ [c]) = 10 * digitsValue ds + (c.toNat - 0x30) := by
  simp [digitsValue]

theorem toNat_digit {d : Nat} (h : d < 10) : (UInt8.ofNat (0x30 + d)).toNat - 0x30 = d := by
  interval_cases d <;> rfl

theorem digitsValue_decimal (n : Nat) : digitsValue (decimal n) = n := by
  induction n using Nat.strong_induction_on with
  | h n ih =>
    by_cases hn : n < 10
    · rw [decimal_of_lt hn]
      simpa [digitsValue] using toNat_digit hn
    · rw [decimal_of_le (by omega), digitsValue_append, ih (n / 10) (by omega),
        toNat_digit (Nat.mod_lt n (by decide))]
      omega

/-- Decimal text has no leading zero. -/
theorem intPart_decimal (n : Nat) : IntPart (decimal n) := by
  by_cases h0 : n = 0
  · subst h0
    exact .zero
  have hhead : ∀ n, n ≠ 0 → ∃ d ds, decimal n = d :: ds ∧ d ≠ 0x30 := by
    intro n
    induction n using Nat.strong_induction_on with
    | h n ih =>
      intro h0
      by_cases hn : n < 10
      · refine ⟨_, _, decimal_of_lt hn, ?_⟩
        interval_cases n <;> first | exact absurd rfl h0 | decide
      · obtain ⟨d, ds, hd, hne⟩ := ih (n / 10) (by omega) (by omega)
        exact ⟨d, ds ++ [.ofNat (0x30 + n % 10)], by simp [decimal_of_le (Nat.le_of_not_lt hn), hd],
          hne⟩
  obtain ⟨d, ds, hd, hne⟩ := hhead n h0
  have hdigits := decimal_isDigit n
  rw [hd] at hdigits ⊢
  exact .digits (hdigits d (by simp)) hne (fun c hc => hdigits c (by simp [hc]))

theorem number_intText (n : Int) : Number (intText n) := by
  cases n with
  | ofNat n => simpa [intText] using Number.positive (intPart_decimal n) .absent .absent
  | negSucc n => simpa [intText] using Number.negative (intPart_decimal (n + 1)) .absent .absent

/-- The lexer takes a number that is the whole text in full. -/
theorem getJsonToken_number {n : Bytes} (h : Number n) :
    getJsonToken n = (.number, n, n.length) := by
  have hg : getJsonToken ([] ++ n ++ []) = _ := getJsonToken_complete (by simp [White])
    (Lexeme.number h) (by simp [Token.strings]) (by simp [Stops])
  simpa [tokenCode] using hg

/-- The text of an integer is stored, whatever the value was before. -/
theorem setNumStr_intText (v : UniValue) (n : Int) :
    v.setNumStr (intText n) = ofType .vnum (intText n) := by
  have htoken := getJsonToken_number (number_intText n)
  simp [setNumStr, validNumStr, htoken]

theorem ofInt_eq (n : Int) : ofInt n = ofType .vnum (intText n) := setNumStr_intText null n

theorem intText_bytes {n : Int} {c : UInt8} (h : c ∈ intText n) : isDigit c ∨ c = 0x2d := by
  cases n with
  | ofNat n => exact .inl (decimal_isDigit n c h)
  | negSucc n =>
    obtain rfl | h := List.mem_cons.mp h
    · exact .inr rfl
    · exact .inl (decimal_isDigit (n + 1) c h)

theorem decimal_cons (n : Nat) : ∃ d ds, decimal n = d :: ds ∧ isDigit d := by
  obtain ⟨d, ds, hd⟩ := intPart_cons (intPart_decimal n)
  exact ⟨d, ds, hd, decimal_isDigit n d (by simp [hd])⟩

theorem intText_ne_nil (n : Int) : intText n ≠ [] := by
  cases n with
  | ofNat n =>
    obtain ⟨d, ds, hd, -⟩ := decimal_cons n
    simp [intText, hd]
  | negSucc n => simp [intText]

/-- Decimal text needs no trimming. -/
theorem parsePrechecks_intText (n : Int) : parsePrechecks (intText n) := by
  have hne := intText_ne_nil n
  have plain : ∀ c ∈ intText n, isSpace c = false ∧ c ≠ 0 := by
    intro c hc
    obtain hd | rfl := intText_bytes hc
    · refine ⟨Bool.eq_false_iff.mpr (fun hs => ?_), ?_⟩
      · simp only [isSpace, Bool.or_eq_true, decide_eq_true_eq] at hs
        obtain ((rfl | rfl) | rfl) | rfl := hs <;> exact absurd hd (by decide)
      · rintro rfl
        exact absurd hd (by decide)
    · decide
  have hhead : (intText n).headD 0 ∈ intText n := by
    rw [List.headD_eq_head?_getD, List.head?_eq_some_head hne]
    exact List.head_mem hne
  have hlast : (intText n).getLastD 0 ∈ intText n := by
    rw [List.getLastD_eq_getLast?, List.getLast?_eq_some_getLast hne]
    exact List.getLast_mem hne
  have hzero : 0 ∉ intText n := fun h => (plain 0 h).2 rfl
  unfold parsePrechecks
  rw [jsonIsspace_eq, (plain _ hhead).1, (plain _ hlast).1]
  simp [hne, hzero]

/-- After an optional sign, `strtol` takes all the digits. -/
theorem strtol_digits {negative : Bool} {str digits : Bytes} (hd : ∀ c ∈ digits, isDigit c)
    (hne : digits ≠ []) (hs : strtolSign (str.dropWhile isspace) = (negative, digits))
    (hlo : -2 ^ 63 ≤ if negative then -(digitsValue digits : Int) else digitsValue digits)
    (hhi : (if negative then -(digitsValue digits : Int) else digitsValue digits) ≤ 2 ^ 63 - 1) :
    strtol str =
      (if negative then -(digitsValue digits : Int) else digitsValue digits, [], false) := by
  have htake : digits.takeWhile jsonIsdigit = digits := by
    simpa using takeWhile_digits (r := []) hd (by simp)
  have hdrop : digits.dropWhile jsonIsdigit = [] := by
    simpa using dropWhile_digits (r := []) hd (by simp)
  unfold strtol
  simp only [hs, htake, hdrop, hne, if_false]
  rw [if_neg (not_lt.mpr hlo), if_neg (not_lt.mpr hhi)]

/-- `strtol` reads an integer of a 64-bit `long` back. -/
theorem strtol_intText {n : Int} (hlo : -2 ^ 63 ≤ n) (hhi : n ≤ 2 ^ 63 - 1) :
    strtol (intText n) = (n, [], false) := by
  have nospace : ∀ d, isDigit d → isspace d = false ∧ d ≠ 0x2d ∧ d ≠ 0x2b := by
    intro d hd
    refine ⟨Bool.eq_false_iff.mpr (fun hs => ?_), ?_, ?_⟩
    · simp only [isspace, Bool.or_eq_true, Bool.and_eq_true, decide_eq_true_eq] at hs
      simp only [isDigit, Bool.and_eq_true, decide_eq_true_eq] at hd
      obtain rfl | ⟨-, hle⟩ := hs
      · exact absurd hd (by decide)
      · exact absurd (UInt8.le_trans hd.1 hle) (by decide)
    · rintro rfl
      exact absurd hd (by decide)
    · rintro rfl
      exact absurd hd (by decide)
  cases n with
  | ofNat n =>
    obtain ⟨d, ds, hd, hdigit⟩ := decimal_cons n
    have hsign : strtolSign ((decimal n).dropWhile isspace) = (false, decimal n) := by
      rw [hd, List.dropWhile_cons_of_neg (by simp [(nospace d hdigit).1])]
      simp [strtolSign, nospace d hdigit]
    have h := strtol_digits (decimal_isDigit n) (by simp [hd]) hsign
      (by simp) (by simpa [digitsValue_decimal] using hhi)
    rw [intText, h]
    simp [digitsValue_decimal]
  | negSucc n =>
    obtain ⟨d, ds, hd, -⟩ := decimal_cons (n + 1)
    have hsign : strtolSign ((0x2d :: decimal (n + 1)).dropWhile isspace) =
        (true, decimal (n + 1)) := rfl
    have h := strtol_digits (decimal_isDigit (n + 1)) (by simp [hd]) hsign
      (by simpa [digitsValue_decimal, Int.negSucc_eq] using hlo)
      (by simpa [digitsValue_decimal, Int.negSucc_eq] using hhi)
    simpa [intText, digitsValue_decimal, Int.negSucc_eq] using h

/-- The integers of an `int`. -/
def FitsInt (n : Int) : Prop := -2 ^ 31 ≤ n ∧ n ≤ 2 ^ 31 - 1

theorem getInt_ofInt {n : Int} (h : FitsInt n) : (ofInt n).getInt = .ok n := by
  obtain ⟨hlo, hhi⟩ := h
  have hstrtol : strtol (intText n) = (n, [], false) := strtol_intText (by omega) (by omega)
  have hparse : parseInt32 (intText n) = some n := by
    unfold parseInt32
    simp only [parsePrechecks_intText, hstrtol]
    rw [if_neg (by simp), if_pos ⟨trivial, by simp, hlo, hhi⟩]
  simp [ofInt_eq, getInt, ofType, hparse]

theorem jsonrpcError_eq (code : Int) (message : Bytes) :
    jsonrpcError code message =
      ⟨.vobj, [], [cstr "code", cstr "message"], [ofInt code, ofType .vstr message]⟩ := rfl

theorem findValue_code (code : Int) (message : Bytes) :
    (jsonrpcError code message).findValue (cstr "code") = .ok (ofInt code) := by
  rw [jsonrpcError_eq]
  rfl

/-- The code of an error object is read back from it. -/
theorem code_jsonrpcError {code : Int} (h : FitsInt code) (message : Bytes) :
    ((jsonrpcError code message).findValue (cstr "code") >>= getInt) = .ok code := by
  rw [findValue_code]
  exact getInt_ofInt h

end UniValue

end JsonRpcServer

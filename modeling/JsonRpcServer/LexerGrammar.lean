import JsonRpcServer.JsonText
import JsonRpcServer.Lexer
import Mathlib.Data.List.TakeWhile

/-!
# The lexer against the lexical grammar

Whatever `getJsonToken` returns is white space and a lexeme of the grammar, and
it finds every lexeme the text goes on with, numbers in full. One number is no
lexeme: a lone minus sign at the very end of the text.
-/
namespace JsonRpcServer

open JsonText

@[simp] theorem jsonIsdigit_eq : jsonIsdigit = isDigit := rfl
@[simp] theorem jsonIsspace_eq : jsonIsspace = isSpace := rfl

/-! ## Numbers -/

/-- The text after a number: nothing in it can still belong to the number. -/
def Stops (r : Bytes) : Prop :=
  ∀ c ∈ r.head?, isDigit c = false ∧ c ≠ 0x2e ∧ c ≠ 0x65 ∧ c ≠ 0x45

/-- What follows a number prolongs none of its parts. -/
def Ends (frac exp r : Bytes) : Prop :=
  ∀ c ∈ r.head?, isDigit c = false ∧
    (exp = [] → c ≠ 0x65 ∧ c ≠ 0x45 ∧ (frac = [] → c ≠ 0x2e))

theorem Stops.ends {r : Bytes} (h : Stops r) (frac exp : Bytes) : Ends frac exp r := by
  intro c hc
  obtain ⟨hd, hp, he⟩ := h c hc
  exact ⟨hd, fun _ => ⟨he.1, he.2, fun _ => hp⟩⟩

/-- A number that goes on as far as it can. -/
inductive LongestNumber : Bytes → Bytes → Prop where
  | positive {int frac exp r : Bytes} : IntPart int → FracPart frac → ExpPart exp →
      Ends frac exp r → LongestNumber (int ++ frac ++ exp) r
  | negative {int frac exp r : Bytes} : IntPart int → FracPart frac → ExpPart exp →
      Ends frac exp r → LongestNumber (0x2d :: (int ++ frac ++ exp)) r

theorem LongestNumber.number {n r : Bytes} (h : LongestNumber n r) : Number n := by
  cases h with
  | positive hi hf he => exact .positive hi hf he
  | negative hi hf he => exact .negative hi hf he

theorem longestNumber_of_stops {n r : Bytes} (h : Number n) (hr : Stops r) :
    LongestNumber n r := by
  cases h with
  | positive hi hf he => exact .positive hi hf he (hr.ends _ _)
  | negative hi hf he => exact .negative hi hf he (hr.ends _ _)

theorem takeWhile_digits {ds r : Bytes} (hds : ∀ c ∈ ds, isDigit c)
    (hr : ∀ c ∈ r.head?, isDigit c = false) : (ds ++ r).takeWhile isDigit = ds := by
  rw [List.takeWhile_append_of_pos hds]
  cases r with
  | nil => simp
  | cons c r => simp [hr c rfl]

theorem dropWhile_digits {ds r : Bytes} (hds : ∀ c ∈ ds, isDigit c)
    (hr : ∀ c ∈ r.head?, isDigit c = false) : (ds ++ r).dropWhile isDigit = r := by
  have h := List.takeWhile_append_dropWhile (p := isDigit) (l := ds ++ r)
  rw [takeWhile_digits hds hr] at h
  exact List.append_cancel_left h

theorem all_takeWhile_digits (raw : Bytes) : ∀ c ∈ raw.takeWhile isDigit, isDigit c :=
  fun _ hc => List.mem_takeWhile_imp hc

/-- The digits taken after a first digit has been seen. -/
theorem digits_takeWhile {raw : Bytes} (h : isDigit (peek raw 0)) :
    Digits (raw.takeWhile isDigit) := by
  refine ⟨?_, all_takeWhile_digits raw⟩
  cases raw with
  | nil => exact absurd h (by decide)
  | cons d raw =>
    have hd : isDigit d := h
    simp [hd]

theorem getFrac_sound {raw frac rest : Bytes} (h : getFrac raw = some (frac, rest)) :
    raw = frac ++ rest ∧ FracPart frac := by
  cases raw with
  | nil =>
    simp only [getFrac, Option.some.injEq, Prod.mk.injEq] at h
    obtain ⟨rfl, rfl⟩ := h
    exact ⟨rfl, .absent⟩
  | cons ch raw =>
    simp only [getFrac] at h
    split at h
    next hch =>
      split at h
      · cases h
      next hd =>
        simp only [Option.some.injEq, Prod.mk.injEq] at h
        obtain ⟨rfl, rfl⟩ := h
        subst hch
        refine ⟨by simp, .point (digits_takeWhile (by simp_all))⟩
    · simp only [Option.some.injEq, Prod.mk.injEq] at h
      obtain ⟨rfl, rfl⟩ := h
      exact ⟨rfl, .absent⟩

theorem getSign_sound (raw : Bytes) :
    raw = (getSign raw).1 ++ (getSign raw).2 ∧ Sign (getSign raw).1 := by
  cases raw with
  | nil => exact ⟨rfl, .absent⟩
  | cons ch raw =>
    simp only [getSign]
    split
    next h =>
      obtain rfl | rfl := h
      · exact ⟨rfl, .minus⟩
      · exact ⟨rfl, .plus⟩
    · exact ⟨rfl, .absent⟩

theorem getExp_sound {raw exp rest : Bytes} (h : getExp raw = some (exp, rest)) :
    raw = exp ++ rest ∧ ExpPart exp := by
  cases raw with
  | nil =>
    simp only [getExp, Option.some.injEq, Prod.mk.injEq] at h
    obtain ⟨rfl, rfl⟩ := h
    exact ⟨rfl, .absent⟩
  | cons ch raw =>
    simp only [getExp] at h
    split at h
    next hch =>
      split at h
      · cases h
      next hd =>
        simp only [Option.some.injEq, Prod.mk.injEq] at h
        obtain ⟨rfl, rfl⟩ := h
        obtain ⟨hs, hsign⟩ := getSign_sound raw
        have hp : isDigit (peek (getSign raw).2 0) := by simpa using (not_or.mp hd).2
        refine ⟨?_, .exp hch hsign (digits_takeWhile hp)⟩
        rw [List.append_assoc, List.takeWhile_append_dropWhile, List.cons_append, ← hs]
    · simp only [Option.some.injEq, Prod.mk.injEq] at h
      obtain ⟨rfl, rfl⟩ := h
      exact ⟨rfl, .absent⟩

/-- The integer part of a number that starts with the digit `d`. -/
theorem intPart_takeWhile {d : UInt8} {raw : Bytes} (hd : isDigit d)
    (hz : ¬ (d = 0x30 ∧ isDigit (peek raw 0))) :
    IntPart (d :: raw.takeWhile isDigit) := by
  by_cases h0 : d = 0x30
  · have hp : ¬ isDigit (peek raw 0) := fun h => hz ⟨h0, h⟩
    have hnil : raw.takeWhile isDigit = [] := by
      cases raw with
      | nil => rfl
      | cons c raw => exact List.takeWhile_cons_of_neg hp
    rw [h0, hnil]
    exact .zero
  · exact .digits hd h0 (all_takeWhile_digits raw)

theorem dropWhile_head (raw : Bytes) : ∀ c ∈ (raw.dropWhile isDigit).head?, isDigit c = false := by
  intro c hc
  have h := List.head?_dropWhile_not isDigit raw
  rw [hc] at h
  simpa using h

theorem getFrac_stops {raw frac rest : Bytes} (h : getFrac raw = some (frac, rest))
    (hraw : ∀ c ∈ raw.head?, isDigit c = false) :
    ∀ c ∈ rest.head?, isDigit c = false ∧ (frac = [] → c ≠ 0x2e) := by
  cases raw with
  | nil =>
    simp only [getFrac, Option.some.injEq, Prod.mk.injEq] at h
    simp [← h.2]
  | cons ch raw =>
    simp only [getFrac] at h
    split at h
    · split at h
      · cases h
      · simp only [Option.some.injEq, Prod.mk.injEq] at h
        obtain ⟨rfl, rfl⟩ := h
        exact fun c hc => ⟨dropWhile_head raw c hc, by simp⟩
    next hch =>
      simp only [Option.some.injEq, Prod.mk.injEq] at h
      obtain ⟨rfl, rfl⟩ := h
      rintro c ⟨⟩
      exact ⟨hraw ch rfl, fun _ => hch⟩

theorem getExp_stops {raw exp rest : Bytes} (h : getExp raw = some (exp, rest))
    (hraw : ∀ c ∈ raw.head?, isDigit c = false) :
    ∀ c ∈ rest.head?, isDigit c = false ∧ (exp = [] → c ≠ 0x65 ∧ c ≠ 0x45 ∧ rest = raw) := by
  cases raw with
  | nil =>
    simp only [getExp, Option.some.injEq, Prod.mk.injEq] at h
    simp [← h.2]
  | cons ch raw =>
    simp only [getExp] at h
    split at h
    · split at h
      · cases h
      · simp only [Option.some.injEq, Prod.mk.injEq] at h
        obtain ⟨rfl, rfl⟩ := h
        exact fun c hc => ⟨dropWhile_head _ c hc, by simp⟩
    next hch =>
      simp only [Option.some.injEq, Prod.mk.injEq] at h
      obtain ⟨rfl, rfl⟩ := h
      rintro c ⟨⟩
      exact ⟨hraw ch rfl, fun _ => ⟨fun he => hch (.inl he), fun he => hch (.inr he), rfl⟩⟩

/-- What follows the fraction and the exponent prolongs no part of the number. -/
theorem ends_of_get {raw frac mid exp rest : Bytes} (hfrac : getFrac raw = some (frac, mid))
    (hexp : getExp mid = some (exp, rest)) (hraw : ∀ c ∈ raw.head?, isDigit c = false) :
    Ends frac exp rest := by
  intro c hc
  have hmid := getFrac_stops hfrac hraw
  obtain ⟨hdigit, hends⟩ := getExp_stops hexp (fun c hc => (hmid c hc).1) c hc
  refine ⟨hdigit, fun he => ?_⟩
  obtain ⟨h65, h45, heq⟩ := hends he
  exact ⟨h65, h45, (hmid c (heq ▸ hc)).2⟩

theorem getNumber_sound {first : UInt8} {raw n rest : Bytes} (hf : first = 0x2d ∨ isDigit first)
    (h : getNumber first raw = some (n, rest)) :
    first :: raw = n ++ rest ∧ (LongestNumber n rest ∨ n = [0x2d] ∧ rest = []) := by
  simp only [getNumber] at h
  split at h
  · cases h
  next hz =>
    split at h
    · cases h
    next hm =>
      split at h
      · cases h
      next frac mid hfrac =>
        split at h
        · cases h
        next exp tail hexp =>
          simp only [Option.some.injEq, Prod.mk.injEq] at h
          obtain ⟨rfl, rfl⟩ := h
          rw [jsonIsdigit_eq] at hfrac
          obtain ⟨he₁, hfp⟩ := getFrac_sound hfrac
          obtain ⟨he₂, hep⟩ := getExp_sound hexp
          have hends := ends_of_get hfrac hexp (dropWhile_head raw)
          have hraw : first :: raw =
              first :: raw.takeWhile isDigit ++ frac ++ exp ++ tail := by
            rw [List.append_assoc, ← he₂, List.append_assoc, ← he₁, List.cons_append,
              List.takeWhile_append_dropWhile]
          refine ⟨hraw, ?_⟩
          by_cases hd : isDigit first
          · left
            have hi : IntPart (first :: raw.takeWhile isDigit) := by
              refine intPart_takeWhile hd ?_
              have hd' : isDigit first = true := hd
              simpa [leadingZero, hd', peek] using hz
            exact .positive hi hfp hep hends
          · obtain rfl : first = 0x2d := hf.resolve_right hd
            cases raw with
            | nil =>
              right
              simp only [List.dropWhile_nil, getFrac, Option.some.injEq, Prod.mk.injEq] at hfrac
              obtain ⟨rfl, rfl⟩ := hfrac
              simp only [getExp, Option.some.injEq, Prod.mk.injEq] at hexp
              obtain ⟨rfl, rfl⟩ := hexp
              exact ⟨rfl, rfl⟩
            | cons d raw =>
              left
              have hd' : isDigit d := by simpa [peek] using hm
              have hi : IntPart (d :: raw.takeWhile isDigit) := by
                refine intPart_takeWhile hd' ?_
                have hminus : isDigit 0x2d = false := by decide
                simpa [leadingZero, hminus, peek] using hz
              have hn := LongestNumber.negative hi hfp hep hends
              simpa [List.takeWhile_cons, hd'] using hn

theorem getFrac_complete {frac r : Bytes} (h : FracPart frac)
    (hr : ∀ c ∈ r.head?, isDigit c = false) (hp : frac = [] → ∀ c ∈ r.head?, c ≠ 0x2e) :
    getFrac (frac ++ r) = some (frac, r) := by
  cases h with
  | absent =>
    cases r with
    | nil => rfl
    | cons c r => simp [getFrac, hp rfl c rfl]
  | @point ds h =>
    obtain ⟨hne, hds⟩ := h
    have hp : isDigit (peek (ds ++ r) 0) := by
      cases ds with
      | nil => exact absurd rfl hne
      | cons d ds => exact hds d (by simp)
    simp [getFrac, takeWhile_digits hds hr, dropWhile_digits hds hr, hp, hne]

theorem getSign_complete {sign ds r : Bytes} (h : Sign sign) (hds : Digits ds) :
    getSign (sign ++ (ds ++ r)) = (sign, ds ++ r) := by
  cases h with
  | absent =>
    obtain ⟨hne, hds⟩ := hds
    cases ds with
    | nil => exact absurd rfl hne
    | cons d ds =>
      have hd : isDigit d := hds d (by simp)
      have h₁ : d ≠ 0x2d := by rintro rfl; exact absurd hd (by decide)
      have h₂ : d ≠ 0x2b := by rintro rfl; exact absurd hd (by decide)
      simp [getSign, h₁, h₂]
  | minus => rfl
  | plus => rfl

theorem getExp_complete {frac exp r : Bytes} (h : ExpPart exp) (hr : Ends frac exp r) :
    getExp (exp ++ r) = some (exp, r) := by
  cases h with
  | absent =>
    cases r with
    | nil => rfl
    | cons c r =>
      obtain ⟨-, hends⟩ := hr c rfl
      simp [getExp, hends]
  | @exp e sign ds he hs h =>
    have hsign := getSign_complete (r := r) hs h
    obtain ⟨hne, hds⟩ := h
    have hr' : ∀ c ∈ r.head?, isDigit c = false := fun c hc => (hr c hc).1
    have hp : isDigit (peek (ds ++ r) 0) := by
      cases ds with
      | nil => exact absurd rfl hne
      | cons d ds => exact hds d (by simp)
    simp [getExp, he, hsign, takeWhile_digits hds hr', dropWhile_digits hds hr', hp, hne]

/-- The exponent does not start with a digit, nor, where there is no fraction, with a point. -/
theorem head_exp {frac exp r : Bytes} (he : ExpPart exp) (hr : Ends frac exp r) :
    ∀ c ∈ (exp ++ r).head?, isDigit c = false ∧ (frac = [] → c ≠ 0x2e) := by
  cases he with
  | absent => exact fun c hc => ⟨(hr c hc).1, ((hr c hc).2 rfl).2.2⟩
  | exp he => obtain rfl | rfl := he <;> · simp; decide

/-- The fraction and the exponent do not start with a digit. -/
theorem head_fracExp {frac exp r : Bytes} (hf : FracPart frac) (he : ExpPart exp)
    (hr : Ends frac exp r) : ∀ c ∈ (frac ++ (exp ++ r)).head?, isDigit c = false := by
  cases hf with
  | point h => simp; decide
  | absent => exact fun c hc => (head_exp he hr c hc).1

/-- Everything after the integer part is taken when that part is. -/
theorem getNumber_tail {first : UInt8} {ds frac exp r : Bytes} (hds : ∀ c ∈ ds, isDigit c)
    (hf : FracPart frac) (he : ExpPart exp) (hr : Ends frac exp r)
    (hz : leadingZero first (ds ++ (frac ++ (exp ++ r))) = false)
    (hm : first = 0x2d → isDigit (peek ds 0)) :
    getNumber first (ds ++ (frac ++ (exp ++ r))) = some (first :: ds ++ frac ++ exp, r) := by
  have hhead := head_fracExp hf he hr
  have hfrac := getFrac_complete hf (fun c hc => (head_exp he hr c hc).1)
    (fun h c hc => (head_exp he hr c hc).2 h)
  have hexp := getExp_complete he hr
  have hminus : ¬ (first = 0x2d ∧ ds ++ (frac ++ (exp ++ r)) ≠ [] ∧
      !isDigit (peek (ds ++ (frac ++ (exp ++ r))) 0)) := by
    rintro ⟨h, -, hd⟩
    have hd' := hm h
    cases ds with
    | nil => exact absurd hd' (by decide)
    | cons d ds =>
      have hd'' : isDigit d = true := hd'
      simp [peek, hd''] at hd
  rw [getNumber, hz, if_neg (by decide), jsonIsdigit_eq, if_neg hminus]
  simp [takeWhile_digits hds hhead, dropWhile_digits hds hhead, hfrac, hexp]

theorem leadingZero_append {first : UInt8} {ds r : Bytes} (hi : IntPart (first :: ds))
    (hr : ∀ c ∈ r.head?, isDigit c = false) : leadingZero first (ds ++ r) = false := by
  cases hi with
  | zero =>
    cases r with
    | nil => decide
    | cons c r =>
      have hc : isDigit c = false := hr c rfl
      have h0 : isDigit 0x30 = true := by decide
      simp [leadingZero, peek, h0, hc]
  | digits hd h0 hds =>
    have hd' : isDigit first = true := hd
    simp [leadingZero, peek, hd', h0]

theorem leadingZero_minus {d : UInt8} {ds r : Bytes} (hi : IntPart (d :: ds))
    (hr : ∀ c ∈ r.head?, isDigit c = false) : leadingZero 0x2d (d :: ds ++ r) = false := by
  have h := leadingZero_append hi hr
  have hd : isDigit d = true := by cases hi <;> first | rfl | assumption
  have hm : isDigit 0x2d = false := by decide
  simpa [leadingZero, hm, hd] using h

theorem intPart_digits {d : UInt8} {ds : Bytes} (h : IntPart (d :: ds)) :
    isDigit d ∧ ∀ c ∈ ds, isDigit c := by
  cases h with
  | zero => simp [isDigit]
  | digits hd h0 hds => exact ⟨hd, hds⟩

theorem intPart_cons {int : Bytes} (h : IntPart int) : ∃ d ds, int = d :: ds := by
  cases h with
  | zero => exact ⟨_, _, rfl⟩
  | digits => exact ⟨_, _, rfl⟩

theorem getNumber_longest {n r : Bytes} (h : LongestNumber n r) :
    ∃ first tl, n = first :: tl ∧ (first = 0x2d ∨ isDigit first) ∧
      getNumber first (tl ++ r) = some (n, r) := by
  cases h with
  | @positive int frac exp _ hi hf he hr =>
    obtain ⟨d, ds, rfl⟩ := intPart_cons hi
    obtain ⟨hd, hds⟩ := intPart_digits hi
    refine ⟨d, ds ++ frac ++ exp, by simp, .inr hd, ?_⟩
    have hz := leadingZero_append hi (head_fracExp hf he hr)
    have hm : d = 0x2d → isDigit (peek ds 0) := by rintro rfl; exact absurd hd (by decide)
    simpa using getNumber_tail hds hf he hr hz hm
  | @negative int frac exp _ hi hf he hr =>
    obtain ⟨d, ds, rfl⟩ := intPart_cons hi
    obtain ⟨hd, hds⟩ := intPart_digits hi
    refine ⟨0x2d, d :: ds ++ frac ++ exp, by simp, .inl rfl, ?_⟩
    have hz := leadingZero_minus hi (head_fracExp hf he hr)
    have hall : ∀ c ∈ d :: ds, isDigit c := by simpa using ⟨hd, hds⟩
    simpa using getNumber_tail hall hf he hr hz (fun _ => hd)

/-- A number of the grammar is read in full, if what follows cannot belong to it. -/
theorem getNumber_complete {n r : Bytes} (h : Number n) (hr : Stops r) :
    ∃ first tl, n = first :: tl ∧ (first = 0x2d ∨ isDigit first) ∧
      getNumber first (tl ++ r) = some (n, r) :=
  getNumber_longest (longestNumber_of_stops h hr)

/-! ## String literals -/

namespace JSONUTF8StringFilter

/-- What the lexer does with one piece of a literal. -/
def push (w : JSONUTF8StringFilter) : Piece → JSONUTF8StringFilter
  | .byte b => w.pushBack b
  | .unit u => w.pushBackU u

def feed (w : JSONUTF8StringFilter) (ps : List Piece) : JSONUTF8StringFilter := ps.foldl push w

@[simp] theorem feed_nil (w : JSONUTF8StringFilter) : w.feed [] = w := rfl
@[simp] theorem feed_cons (w : JSONUTF8StringFilter) (p : Piece) (ps : List Piece) :
    w.feed (p :: ps) = (w.push p).feed ps := rfl
@[simp] theorem push_byte (w : JSONUTF8StringFilter) (b : UInt8) :
    w.push (.byte b) = w.pushBack b := rfl
@[simp] theorem push_unit (w : JSONUTF8StringFilter) (u : Nat) :
    w.push (.unit u) = w.pushBackU u := rfl
@[simp] theorem feed_append (w : JSONUTF8StringFilter) (ps qs : List Piece) :
    w.feed (ps ++ qs) = (w.feed ps).feed qs := List.foldl_append

end JSONUTF8StringFilter

/-- The filter lets the literal through. -/
def Accepted (ps : List Piece) : Prop := (JSONUTF8StringFilter.new.feed ps).finalize

instance (ps : List Piece) : Decidable (Accepted ps) := inferInstanceAs (Decidable (_ = true))

/-- The `std::string` a literal becomes. -/
def literalText (ps : List Piece) : Bytes := (JSONUTF8StringFilter.new.feed ps).str

theorem hexDigit_eq (c : UInt8) : hexDigit c = hexValue c := by
  have hle : ∀ a b : UInt8, a ≤ b ↔ a.toNat ≤ b.toNat := fun _ _ => UInt8.le_iff_toNat_le
  simp only [hexDigit, hexValue, jsonIsdigit, Bool.and_eq_true, decide_eq_true_eq]
  split
  · rfl
  split
  next h =>
    have h₁ : (0x61 : UInt8).toNat ≤ c.toNat := (hle _ _).mp h.1
    have h₂ : (0x61 : UInt8).toNat = 97 := rfl
    congr 1
    omega
  split
  next h =>
    have h₁ : (0x41 : UInt8).toNat ≤ c.toNat := (hle _ _).mp h.1
    have h₂ : (0x41 : UInt8).toNat = 65 := rfl
    congr 1
    omega
  · rfl

/-- Four digits are read in full exactly when all four are hexadecimal. -/
theorem hatoui_four (h₁ h₂ h₃ h₄ : UInt8) (u : Nat) :
    hatoui 0 [h₁, h₂, h₃, h₄] = (u, []) ↔
      ∃ v₁ v₂ v₃ v₄, hexValue h₁ = some v₁ ∧ hexValue h₂ = some v₂ ∧ hexValue h₃ = some v₃ ∧
        hexValue h₄ = some v₄ ∧ u = 16 * (16 * (16 * v₁ + v₂) + v₃) + v₄ := by
  simp only [hatoui, hexDigit_eq]
  cases hexValue h₁ <;> cases hexValue h₂ <;> cases hexValue h₃ <;> cases hexValue h₄ <;> simp
  exact eq_comm

theorem escapeChar_iff (e b : UInt8) : escapeChar e = some b ↔ (e, b) ∈ shortEscapes := by
  simp only [escapeChar, shortEscapes, List.mem_cons, Prod.mk.injEq, List.not_mem_nil, or_false]
  repeat' split
  all_goals simp_all [eq_comm]

theorem getString_sound {w w' : JSONUTF8StringFilter} {raw rest : Bytes}
    (h : getString w raw = some (w', rest)) :
    ∃ s ps, raw = s ++ 0x22 :: rest ∧ Content s ps ∧ w' = w.feed ps := by
  fun_induction getString w raw with
  | case5 w h₁ h₂ h₃ h₄ raw hne u hu hb ih =>
    obtain ⟨s, ps, rfl, hc, rfl⟩ := ih h
    obtain ⟨v₁, v₂, v₃, v₄, e₁, e₂, e₃, e₄, rfl⟩ := (hatoui_four _ _ _ _ _).mp hu
    exact ⟨_, _, rfl, .unicode e₁ e₂ e₃ e₄ hc, rfl⟩
  | case8 w esc raw hu ch he hb ih =>
    obtain ⟨s, ps, rfl, hc, rfl⟩ := ih h
    exact ⟨_, _, rfl, .short ((escapeChar_iff _ _).mp he) hc, rfl⟩
  | case10 w raw _ _ =>
    simp only [Option.some.injEq, Prod.mk.injEq] at h
    obtain ⟨rfl, rfl⟩ := h
    exact ⟨[], [], rfl, .nil, rfl⟩
  | case11 w ch raw hch hb hq ih =>
    obtain ⟨s, ps, rfl, hc, rfl⟩ := ih h
    exact ⟨_, _, rfl, .raw (UInt8.not_lt.mp hch) hq hb hc, rfl⟩
  | case1 | case2 | case3 | case4 | case6 | case7 | case9 => cases h

theorem getString_complete {s : Bytes} {ps : List Piece} (h : Content s ps)
    (w : JSONUTF8StringFilter) (rest : Bytes) :
    getString w (s ++ 0x22 :: rest) = some (w.feed ps, rest) := by
  induction h generalizing w with
  | nil =>
    rw [getString.eq_def]
    simp
  | @raw c s ps hc hq hb _ ih =>
    have hlt : ¬ c < 0x20 := UInt8.not_lt.mpr hc
    rw [getString.eq_def]
    simpa [hlt, hq, hb] using ih (w.pushBack c)
  | @short e b s ps he _ ih =>
    have hu : e ≠ 0x75 := by
      rintro rfl
      revert he
      simp [shortEscapes]
    have he' := (escapeChar_iff e b).mpr he
    rw [getString.eq_def]
    simpa [hu, he'] using ih (w.pushBack b)
  | @unicode h₁ h₂ h₃ h₄ v₁ v₂ v₃ v₄ s ps e₁ e₂ e₃ e₄ _ ih =>
    have hu := (hatoui_four h₁ h₂ h₃ h₄ _).mpr ⟨v₁, v₂, v₃, v₄, e₁, e₂, e₃, e₄, rfl⟩
    rw [getString.eq_def]
    simpa [hu] using ih _

/-! ## Tokens -/

/-- How the lexer reports a token whose strings mean `text`. -/
def tokenCode {σ : Type} (text : σ → Bytes) : Token σ → JTokenType × Bytes
  | .objOpen => (.objOpen, [])
  | .objClose => (.objClose, [])
  | .arrOpen => (.arrOpen, [])
  | .arrClose => (.arrClose, [])
  | .colon => (.colon, [])
  | .comma => (.comma, [])
  | .null => (.kwNull, [])
  | .true => (.kwTrue, [])
  | .false => (.kwFalse, [])
  | .number n => (.number, n)
  | .string s => (.string, text s)

/-- A lexeme, or the one thing the lexer takes for a number that is none. -/
def LexemeAt (l rest : Bytes) (t : Token (List Piece)) : Prop :=
  Lexeme l t ∨ l = [0x2d] ∧ t = .number [0x2d] ∧ rest = []

theorem cstr_null : cstr "null" = [0x6e, 0x75, 0x6c, 0x6c] := by decide
theorem cstr_true : cstr "true" = [0x74, 0x72, 0x75, 0x65] := by decide
theorem cstr_false : cstr "false" = [0x66, 0x61, 0x6c, 0x73, 0x65] := by decide

/-- What `getLexeme` has read when it returns the token `tok` and the text `rest`. -/
def Lexed (ch : UInt8) (raw : Bytes) (tok : JTokenType × Bytes) (rest : Bytes) : Prop :=
  ∃ l t, ch :: raw = l ++ rest ∧ LexemeAt l rest t ∧ (∀ ps ∈ t.strings, Accepted ps) ∧
    tok = tokenCode literalText t

theorem lexed_punctuation {ch : UInt8} {raw : Bytes} {tok : JTokenType}
    (h : punctuation ch = some tok) : Lexed ch raw (tok, []) raw := by
  have single : ∀ t : Token (List Piece), Lexeme [ch] t → t.strings = [] →
      (tok, []) = tokenCode literalText t → Lexed ch raw (tok, []) raw :=
    fun t hl ht hc => ⟨[ch], t, rfl, .inl hl, by simp [ht], hc⟩
  unfold punctuation at h
  split at h
  next hc => cases h; subst hc; exact single _ .objOpen rfl rfl
  split at h
  next hc => cases h; subst hc; exact single _ .objClose rfl rfl
  split at h
  next hc => cases h; subst hc; exact single _ .arrOpen rfl rfl
  split at h
  next hc => cases h; subst hc; exact single _ .arrClose rfl rfl
  split at h
  next hc => cases h; subst hc; exact single _ .colon rfl rfl
  split at h
  next hc => cases h; subst hc; exact single _ .comma rfl rfl
  · cases h

theorem lexed_keyword {ch : UInt8} {raw rest : Bytes} {tok : JTokenType}
    (h : getKeyword (ch :: raw) = some (tok, rest)) : Lexed ch raw (tok, []) rest := by
  have word : ∀ kw (t : Token (List Piece)), kw <+: ch :: raw → Lexeme kw t → t.strings = [] →
      (tok, []) = tokenCode literalText t →
      Lexed ch raw (tok, []) ((ch :: raw).drop kw.length) := by
    rintro kw t ⟨rest, hr⟩ hl ht hc
    refine ⟨kw, t, ?_, .inl hl, by simp [ht], hc⟩
    simp [← hr]
  unfold getKeyword at h
  split at h
  next hp => cases h; exact word _ _ hp (cstr_null ▸ Lexeme.null) rfl rfl
  split at h
  next hp => cases h; exact word _ _ hp (cstr_true ▸ Lexeme.true) rfl rfl
  split at h
  next hp => cases h; exact word _ _ hp (cstr_false ▸ Lexeme.false) rfl rfl
  · cases h

theorem getLexeme_sound {ch : UInt8} {raw tokenVal rest : Bytes} {tok : JTokenType}
    (h : getLexeme ch raw = some (tok, tokenVal, rest)) : Lexed ch raw (tok, tokenVal) rest := by
  unfold getLexeme at h
  split at h
  next hp => cases h; exact lexed_punctuation hp
  split at h
  · split at h
    next hk => cases h; exact lexed_keyword hk
    · cases h
  split at h
  next hf =>
    split at h
    next hn =>
      cases h
      obtain ⟨he, hnum⟩ := getNumber_sound hf hn
      refine ⟨tokenVal, .number tokenVal, he, ?_, by simp [Token.strings], rfl⟩
      obtain hnum | ⟨rfl, hr⟩ := hnum
      · exact .inl (.number hnum.number)
      · exact .inr ⟨rfl, rfl, hr⟩
    · cases h
  split at h
  next hc =>
    subst hc
    split at h
    next w rest hs =>
      split at h
      next hw =>
        cases h
        obtain ⟨s, ps, rfl, hc, rfl⟩ := getString_sound hs
        exact ⟨_, _, by simp, .inl (.string hc), by simpa [Token.strings, Accepted] using hw, rfl⟩
      · cases h
    · cases h
  · cases h

theorem getLexeme_number {first : UInt8} {raw n rest : Bytes} (hf : first = 0x2d ∨ isDigit first)
    (h : getNumber first raw = some (n, rest)) :
    getLexeme first raw = some (.number, n, rest) := by
  have hne : ∀ c : UInt8, ¬ (c = 0x2d ∨ isDigit c) → first ≠ c := by
    rintro c hc rfl
    exact hc hf
  have hp : punctuation first = none := by
    simp [punctuation, hne 0x7b (by decide), hne 0x7d (by decide), hne 0x5b (by decide),
      hne 0x5d (by decide), hne 0x3a (by decide), hne 0x2c (by decide)]
  have hkw : ¬ (first = 0x6e ∨ first = 0x74 ∨ first = 0x66) := by
    rintro (h | h | h)
    · exact hne 0x6e (by decide) h
    · exact hne 0x74 (by decide) h
    · exact hne 0x66 (by decide) h
  have hf' : first = 0x2d ∨ jsonIsdigit first := hf
  rw [getLexeme, hp]
  simp only
  rw [if_neg hkw, if_pos hf', h]

/-- Every lexeme is found where the text goes on with it. -/
theorem getLexeme_complete {l rest : Bytes} {t : Token (List Piece)} (h : Lexeme l t)
    (ha : ∀ ps ∈ t.strings, Accepted ps) (hs : ∀ n, t = .number n → Stops rest) :
    ∃ ch tl, l = ch :: tl ∧ isSpace ch = false ∧
      getLexeme ch (tl ++ rest) =
        some ((tokenCode literalText t).1, (tokenCode literalText t).2, rest) := by
  cases h with
  | objOpen => exact ⟨_, _, rfl, by decide, rfl⟩
  | objClose => exact ⟨_, _, rfl, by decide, rfl⟩
  | arrOpen => exact ⟨_, _, rfl, by decide, rfl⟩
  | arrClose => exact ⟨_, _, rfl, by decide, rfl⟩
  | colon => exact ⟨_, _, rfl, by decide, rfl⟩
  | comma => exact ⟨_, _, rfl, by decide, rfl⟩
  | null =>
    exact ⟨_, _, rfl, by decide, by simp [getLexeme, punctuation, getKeyword, cstr_null, tokenCode]⟩
  | true =>
    exact ⟨_, _, rfl, by decide,
      by simp [getLexeme, punctuation, getKeyword, cstr_null, cstr_true, tokenCode]⟩
  | false =>
    exact ⟨_, _, rfl, by decide,
      by simp [getLexeme, punctuation, getKeyword, cstr_null, cstr_true, cstr_false, tokenCode]⟩
  | number hn =>
    obtain ⟨first, tl, rfl, hf, he⟩ := getNumber_complete hn (hs _ rfl)
    refine ⟨first, tl, rfl, ?_, getLexeme_number hf he⟩
    obtain rfl | hd := hf
    · decide
    · refine Bool.eq_false_iff.mpr (fun hsp => ?_)
      simp only [isSpace, Bool.or_eq_true, decide_eq_true_eq] at hsp
      obtain ((rfl | rfl) | rfl) | rfl := hsp <;> exact absurd hd (by decide)
  | @string s ps hc =>
    refine ⟨0x22, s ++ [0x22], rfl, by decide, ?_⟩
    have hg := getString_complete hc .new rest
    have hfin : (JSONUTF8StringFilter.new.feed ps).finalize = true :=
      ha ps (by simp [Token.strings])
    have hp : punctuation 0x22 = none := by decide
    simp [getLexeme, hp, jsonIsdigit, hg, hfin, tokenCode, literalText]

/-! ## White space and tokens -/

theorem dropWhile_white {w : Bytes} (hw : White w) (r : Bytes) :
    (w ++ r).dropWhile jsonIsspace = r.dropWhile jsonIsspace :=
  List.dropWhile_append_of_pos hw

theorem white_takeWhile (raw : Bytes) : White (raw.takeWhile jsonIsspace) :=
  fun _ hc => List.mem_takeWhile_imp hc

theorem dropWhile_eq_nil_iff (raw : Bytes) : raw.dropWhile jsonIsspace = [] ↔ White raw :=
  List.dropWhile_eq_nil_iff

/-- The lexer reports the end of the text where only white space is left. -/
theorem getJsonToken_white {raw : Bytes} (h : White raw) : getJsonToken raw = (.none, [], 0) := by
  rw [getJsonToken, (dropWhile_eq_nil_iff raw).mpr h]

theorem tokenCode_ne_end (t : Token (List Piece)) :
    ¬ ((tokenCode literalText t).1 = .none ∨ (tokenCode literalText t).1 = .err) := by
  cases t <;> simp [tokenCode]

/-- What the lexer returns: the end of the text, an error, or a lexeme after white space. -/
theorem getJsonToken_sound (raw : Bytes) :
    (getJsonToken raw).1 = .none ∧ White raw ∨ (getJsonToken raw).1 = .err ∨
      ∃ w l rest t, raw = w ++ l ++ rest ∧ White w ∧ LexemeAt l rest t ∧
        (∀ ps ∈ t.strings, Accepted ps) ∧
        getJsonToken raw =
          ((tokenCode literalText t).1, (tokenCode literalText t).2, (w ++ l).length) := by
  have hsplit := List.takeWhile_append_dropWhile (p := jsonIsspace) (l := raw)
  unfold getJsonToken
  split
  next hd => exact .inl ⟨rfl, (dropWhile_eq_nil_iff raw).mp hd⟩
  next ch rest hd =>
    right
    split
    · exact .inl rfl
    next tok tokenVal tail he =>
      right
      obtain ⟨l, t, hl, hat, ha, hc⟩ := getLexeme_sound he
      have hraw : raw = raw.takeWhile jsonIsspace ++ l ++ tail := by
        rw [List.append_assoc, ← hl, ← hd, hsplit]
      have hlen := congrArg List.length hraw
      simp only [List.length_append] at hlen
      refine ⟨raw.takeWhile jsonIsspace, l, tail, t, hraw, white_takeWhile raw, hat, ha, ?_⟩
      simp only [← hc, List.length_append, Prod.mk.injEq, true_and]
      omega

/-- The lexer finds every lexeme, whatever white space is before it. -/
theorem getJsonToken_complete {w l rest : Bytes} {t : Token (List Piece)} (hw : White w)
    (h : Lexeme l t) (ha : ∀ ps ∈ t.strings, Accepted ps)
    (hs : ∀ n, t = .number n → Stops rest) :
    getJsonToken (w ++ l ++ rest) =
      ((tokenCode literalText t).1, (tokenCode literalText t).2, (w ++ l).length) := by
  obtain ⟨ch, tl, rfl, hsp, hg⟩ := getLexeme_complete h ha hs
  have hd : (w ++ (ch :: tl) ++ rest).dropWhile jsonIsspace = ch :: (tl ++ rest) := by
    rw [List.append_assoc, dropWhile_white hw, List.cons_append]
    exact List.dropWhile_cons_of_neg (by simpa using hsp)
  rw [getJsonToken, hd]
  simp only [hg, List.length_append, List.length_cons, Prod.mk.injEq, true_and]
  omega

end JsonRpcServer

import Mathlib.Data.List.Chain

/-!
# JSON texts

The grammar of JSON over bytes, in two levels: lexemes with white space
between them, and the derivations of a value from a sequence of tokens. What a
string literal means is left open: its token carries the pieces it is written
with.
-/
namespace JsonText

/-- What one position of a string literal hands on: a byte, raw or from a two-character escape,
or the code unit of a `\uXXXX` escape. -/
inductive Piece where
  | byte (b : UInt8)
  | unit (u : Nat)
  deriving DecidableEq, Repr

inductive Token (σ : Type) where
  | objOpen | objClose | arrOpen | arrClose | colon | comma
  | null | true | false
  | number (text : List UInt8)
  | string (s : σ)
  deriving DecidableEq, Repr

inductive JsonTree (σ : Type) where
  | null
  | bool (b : Bool)
  | number (text : List UInt8)
  | string (s : σ)
  | array (items : List (JsonTree σ))
  | object (members : List (σ × JsonTree σ))

variable {σ τ : Type}

/-! ## Lexemes -/

def isSpace (c : UInt8) : Bool := c = 0x20 || c = 0x09 || c = 0x0a || c = 0x0d

def isDigit (c : UInt8) : Bool := 0x30 ≤ c && c ≤ 0x39

def White (w : List UInt8) : Prop := ∀ c ∈ w, isSpace c

theorem white_replicate (n : Nat) : White (List.replicate n 0x20) := by
  intro c hc
  rw [List.eq_of_mem_replicate hc]
  rfl

def Digits (ds : List UInt8) : Prop := ds ≠ [] ∧ ∀ c ∈ ds, isDigit c

/-- `int`: a zero, or digits of which the first is not zero. -/
inductive IntPart : List UInt8 → Prop where
  | zero : IntPart [0x30]
  | digits {d : UInt8} {ds : List UInt8} (hd : isDigit d) (h0 : d ≠ 0x30)
      (hds : ∀ c ∈ ds, isDigit c) : IntPart (d :: ds)

/-- `frac`, which may be absent. -/
inductive FracPart : List UInt8 → Prop where
  | absent : FracPart []
  | point {ds : List UInt8} (h : Digits ds) : FracPart (0x2e :: ds)

inductive Sign : List UInt8 → Prop where
  | absent : Sign []
  | minus : Sign [0x2d]
  | plus : Sign [0x2b]

/-- `exp`, which may be absent. -/
inductive ExpPart : List UInt8 → Prop where
  | absent : ExpPart []
  | exp {e : UInt8} {sign ds : List UInt8} (he : e = 0x65 ∨ e = 0x45) (hs : Sign sign)
      (h : Digits ds) : ExpPart (e :: sign ++ ds)

/-- `number = [ minus ] int [ frac ] [ exp ]` -/
inductive Number : List UInt8 → Prop where
  | positive {int frac exp : List UInt8} : IntPart int → FracPart frac → ExpPart exp →
      Number (int ++ frac ++ exp)
  | negative {int frac exp : List UInt8} : IntPart int → FracPart frac → ExpPart exp →
      Number (0x2d :: (int ++ frac ++ exp))

/-- The value of a hexadecimal digit. -/
def hexValue (c : UInt8) : Option Nat :=
  if 0x30 ≤ c ∧ c ≤ 0x39 then some (c.toNat - 0x30)
  else if 0x61 ≤ c ∧ c ≤ 0x66 then some (c.toNat - 0x57)
  else if 0x41 ≤ c ∧ c ≤ 0x46 then some (c.toNat - 0x37)
  else none

/-- The two-character escapes: the character after the backslash, and the byte it stands for. -/
def shortEscapes : List (UInt8 × UInt8) :=
  [(0x22, 0x22), (0x5c, 0x5c), (0x2f, 0x2f), (0x62, 0x08), (0x66, 0x0c), (0x6e, 0x0a),
   (0x72, 0x0d), (0x74, 0x09)]

/-- The text between the quotes of a string literal. -/
inductive Content : List UInt8 → List Piece → Prop where
  | nil : Content [] []
  | raw {c : UInt8} {s : List UInt8} {ps : List Piece} (hc : 0x20 ≤ c) (hq : c ≠ 0x22)
      (hb : c ≠ 0x5c) : Content s ps → Content (c :: s) (.byte c :: ps)
  | short {e b : UInt8} {s : List UInt8} {ps : List Piece} (he : (e, b) ∈ shortEscapes) :
      Content s ps → Content (0x5c :: e :: s) (.byte b :: ps)
  | unicode {h₁ h₂ h₃ h₄ : UInt8} {v₁ v₂ v₃ v₄ : Nat} {s : List UInt8} {ps : List Piece}
      (hv₁ : hexValue h₁ = some v₁) (hv₂ : hexValue h₂ = some v₂) (hv₃ : hexValue h₃ = some v₃)
      (hv₄ : hexValue h₄ = some v₄) : Content s ps →
      Content (0x5c :: 0x75 :: h₁ :: h₂ :: h₃ :: h₄ :: s)
        (.unit (16 * (16 * (16 * v₁ + v₂) + v₃) + v₄) :: ps)

theorem hexValue_some {c : UInt8} {v : Nat} (h : hexValue c = some v) : 0x20 ≤ c ∧ v < 16 := by
  have hle : ∀ {a b : UInt8}, a ≤ b → a.toNat ≤ b.toNat := UInt8.le_iff_toNat_le.mp
  unfold hexValue at h
  split at h
  next hc =>
    have h₁ : c.toNat ≤ 0x39 := hle hc.2
    cases h
    exact ⟨UInt8.le_trans (by decide) hc.1, by omega⟩
  split at h
  next hc =>
    have h₁ : c.toNat ≤ 0x66 := hle hc.2
    cases h
    exact ⟨UInt8.le_trans (by decide) hc.1, by omega⟩
  split at h
  next hc =>
    have h₁ : c.toNat ≤ 0x46 := hle hc.2
    cases h
    exact ⟨UInt8.le_trans (by decide) hc.1, by omega⟩
  · cases h

/-- A literal holds no raw control character. -/
theorem Content.ge {s : List UInt8} {ps : List Piece} (h : Content s ps) : ∀ c ∈ s, 0x20 ≤ c := by
  induction h with
  | nil => simp
  | raw hc _ _ _ ih => exact List.forall_mem_cons.mpr ⟨hc, ih⟩
  | short he _ ih =>
    have hge : shortEscapes.all (fun m => 0x20 ≤ m.1) := by decide
    simpa using ⟨of_decide_eq_true (List.all_eq_true.mp hge _ he), ih⟩
  | unicode e₁ e₂ e₃ e₄ _ ih =>
    simpa using ⟨(hexValue_some e₁).1, (hexValue_some e₂).1, (hexValue_some e₃).1,
      (hexValue_some e₄).1, ih⟩

/-- A `\uXXXX` escape is a 16-bit code unit. -/
theorem Content.unit_lt {s : List UInt8} {ps : List Piece} (h : Content s ps) {u : Nat}
    (hu : .unit u ∈ ps) : u < 0x10000 := by
  induction h with
  | nil => cases hu
  | raw _ _ _ _ ih => exact ih (by simpa using hu)
  | short _ _ ih => exact ih (by simpa using hu)
  | unicode e₁ e₂ e₃ e₄ _ ih =>
    obtain he | hu := List.mem_cons.mp hu
    · have h₁ := (hexValue_some e₁).2
      have h₂ := (hexValue_some e₂).2
      have h₃ := (hexValue_some e₃).2
      have h₄ := (hexValue_some e₄).2
      cases he
      omega
    · exact ih hu

inductive Lexeme : List UInt8 → Token (List Piece) → Prop where
  | objOpen : Lexeme [0x7b] .objOpen
  | objClose : Lexeme [0x7d] .objClose
  | arrOpen : Lexeme [0x5b] .arrOpen
  | arrClose : Lexeme [0x5d] .arrClose
  | colon : Lexeme [0x3a] .colon
  | comma : Lexeme [0x2c] .comma
  | null : Lexeme [0x6e, 0x75, 0x6c, 0x6c] .null
  | true : Lexeme [0x74, 0x72, 0x75, 0x65] .true
  | false : Lexeme [0x66, 0x61, 0x6c, 0x73, 0x65] .false
  | number {n : List UInt8} : Number n → Lexeme n (.number n)
  | string {s : List UInt8} {ps : List Piece} : Content s ps →
      Lexeme (0x22 :: s ++ [0x22]) (.string ps)

/-- Lexemes with white space before, between and after them. -/
inductive Spaced : List UInt8 → List (Token (List Piece)) → Prop where
  | nil {w : List UInt8} : White w → Spaced w []
  | cons {w l r : List UInt8} {t : Token (List Piece)} {ts : List (Token (List Piece))} :
      White w → Lexeme l t → Spaced r ts → Spaced (w ++ l ++ r) (t :: ts)

/-- Two texts one after the other. -/
theorem Spaced.append {s r : List UInt8} {ts us : List (Token (List Piece))} (hs : Spaced s ts)
    (hr : Spaced r us) : Spaced (s ++ r) (ts ++ us) := by
  induction hs with
  | nil hw =>
    cases hr with
    | nil hw' => exact .nil (fun c hc => (List.mem_append.mp hc).elim (hw c) (hw' c))
    | @cons w l r t ts hw' hl hr =>
      rw [← List.append_assoc, ← List.append_assoc]
      exact .cons (fun c hc => (List.mem_append.mp hc).elim (hw c) (hw' c)) hl hr
  | cons hw hl _ ih =>
    rw [List.append_assoc]
    exact .cons hw hl ih

/-- A lexeme by itself. -/
theorem Lexeme.spaced {l : List UInt8} {t : Token (List Piece)} (h : Lexeme l t) :
    Spaced l [t] := by
  have hwhite : White [] := by simp [White]
  simpa using Spaced.cons hwhite h (.nil hwhite)

/-- A number holds no control character. -/
theorem Number.ge {n : List UInt8} (h : Number n) : ∀ c ∈ n, 0x20 ≤ c := by
  have digit : ∀ {c : UInt8}, isDigit c → 0x20 ≤ c := by
    intro c hc
    simp only [isDigit, Bool.and_eq_true, decide_eq_true_eq] at hc
    exact UInt8.le_trans (by decide) hc.1
  have int : ∀ {i}, IntPart i → ∀ c ∈ i, 0x20 ≤ c := by
    rintro i (_ | ⟨hd, -, hds⟩)
    · simp
    · simpa using ⟨digit hd, fun c hc => digit (hds c hc)⟩
  have frac : ∀ {f}, FracPart f → ∀ c ∈ f, 0x20 ≤ c := by
    rintro f (_ | ⟨-, hds⟩)
    · simp
    · simpa using fun c hc => digit (hds c hc)
  have exp : ∀ {e}, ExpPart e → ∀ c ∈ e, 0x20 ≤ c := by
    rintro e (_ | ⟨he, hs, -, hds⟩)
    · simp
    · obtain rfl | rfl := he <;> cases hs <;> simpa using fun c hc => digit (hds c hc)
  have all : ∀ {i f e}, IntPart i → FracPart f → ExpPart e → ∀ c ∈ i ++ f ++ e, 0x20 ≤ c := by
    intro i f e hi hf he c hc
    simp only [List.mem_append] at hc
    obtain (hc | hc) | hc := hc
    · exact int hi c hc
    · exact frac hf c hc
    · exact exp he c hc
  obtain ⟨hi, hf, he⟩ | ⟨hi, hf, he⟩ := h
  · exact all hi hf he
  · exact List.forall_mem_cons.mpr ⟨by decide, all hi hf he⟩

/-! ## Derivations -/

/-- A nonterminal with what it derives to: a value, or the nonempty list inside a container. -/
inductive Phrase (σ : Type) where
  | value (t : JsonTree σ)
  | items (ts : List (JsonTree σ))
  | members (ms : List (σ × JsonTree σ))

inductive Derives : List (Token σ) → Phrase σ → Prop where
  | null : Derives [.null] (.value .null)
  | true : Derives [.true] (.value (.bool .true))
  | false : Derives [.false] (.value (.bool .false))
  | number {n : List UInt8} : Derives [.number n] (.value (.number n))
  | string {s : σ} : Derives [.string s] (.value (.string s))
  | emptyArray : Derives [.arrOpen, .arrClose] (.value (.array []))
  | array {ts : List (Token σ)} {vs : List (JsonTree σ)} : Derives ts (.items vs) →
      Derives (.arrOpen :: ts ++ [.arrClose]) (.value (.array vs))
  | emptyObject : Derives [.objOpen, .objClose] (.value (.object []))
  | object {ts : List (Token σ)} {ms : List (σ × JsonTree σ)} : Derives ts (.members ms) →
      Derives (.objOpen :: ts ++ [.objClose]) (.value (.object ms))
  | lastItem {ts : List (Token σ)} {v : JsonTree σ} : Derives ts (.value v) →
      Derives ts (.items [v])
  | item {ts us : List (Token σ)} {v : JsonTree σ} {vs : List (JsonTree σ)} :
      Derives ts (.value v) → Derives us (.items vs) →
      Derives (ts ++ .comma :: us) (.items (v :: vs))
  | lastMember {ts : List (Token σ)} {k : σ} {v : JsonTree σ} : Derives ts (.value v) →
      Derives (.string k :: .colon :: ts) (.members [(k, v)])
  | member {ts us : List (Token σ)} {k : σ} {v : JsonTree σ} {ms : List (σ × JsonTree σ)} :
      Derives ts (.value v) → Derives us (.members ms) →
      Derives (.string k :: .colon :: ts ++ .comma :: us) (.members ((k, v) :: ms))

/-- `b` is a JSON text for the value `t`. -/
def Text (b : List UInt8) (t : JsonTree (List Piece)) : Prop :=
  ∃ ts, Spaced b ts ∧ Derives ts (.value t)

/-! ## The strings of a tree -/

namespace JsonTree

def isContainer : JsonTree σ → Bool
  | .array _ | .object _ => Bool.true
  | _ => Bool.false

mutual
/-- Every string of the tree, member names included, in source order. -/
def strings : JsonTree σ → List σ
  | .null | .bool _ | .number _ => []
  | .string s => [s]
  | .array items => itemStrings items
  | .object members => memberStrings members

def itemStrings : List (JsonTree σ) → List σ
  | [] => []
  | t :: ts => strings t ++ itemStrings ts

def memberStrings : List (σ × JsonTree σ) → List σ
  | [] => []
  | (k, t) :: ms => k :: strings t ++ memberStrings ms
end

end JsonTree

/-- The string a token carries, if any. -/
def Token.strings : Token σ → List σ
  | .string s => [s]
  | _ => []

/-- The strings of what a phrase derives to. -/
def Phrase.strings : Phrase σ → List σ
  | .value t => t.strings
  | .items ts => JsonTree.itemStrings ts
  | .members ms => JsonTree.memberStrings ms

/-- A derivation keeps every string of its tokens, in order. -/
theorem Derives.strings {ts : List (Token σ)} {p : Phrase σ} (h : Derives ts p) :
    p.strings = ts.flatMap Token.strings := by
  induction h <;> simp_all [Phrase.strings, JsonTree.strings, JsonTree.itemStrings,
    JsonTree.memberStrings, Token.strings]

/-- No phrase is empty. -/
theorem Derives.ne_nil {ts : List (Token σ)} {p : Phrase σ} (h : Derives ts p) : ts ≠ [] := by
  induction h <;> simp_all

theorem Spaced.white_before {w s : List UInt8} {ts : List (Token (List Piece))} (hw : White w)
    (h : Spaced s ts) : Spaced (w ++ s) ts :=
  (Spaced.nil hw).append h

theorem Spaced.white_after {w s : List UInt8} {ts : List (Token (List Piece))} (h : Spaced s ts)
    (hw : White w) : Spaced (s ++ w) ts := by
  simpa using h.append (.nil hw)

/-! ## The tokens of a tree -/

namespace JsonTree

theorem itemStrings_eq_flatMap (ts : List (JsonTree σ)) :
    itemStrings ts = ts.flatMap strings := by
  induction ts with
  | nil => rfl
  | cons t ts ih => rw [itemStrings, ih, List.flatMap_cons]

theorem memberStrings_eq_flatMap (ms : List (σ × JsonTree σ)) :
    memberStrings ms = ms.flatMap (fun m => m.1 :: m.2.strings) := by
  induction ms with
  | nil => rfl
  | cons m ms ih => rw [memberStrings, ih, List.flatMap_cons, List.cons_append]

mutual
def tokens : JsonTree σ → List (Token σ)
  | .null => [.null]
  | .bool b => [if b then .true else .false]
  | .number n => [.number n]
  | .string s => [.string s]
  | .array items => .arrOpen :: itemTokens items ++ [.arrClose]
  | .object members => .objOpen :: memberTokens members ++ [.objClose]

def itemTokens : List (JsonTree σ) → List (Token σ)
  | [] => []
  | t :: ts => tokens t ++ (if ts.isEmpty then [] else [.comma]) ++ itemTokens ts

def memberTokens : List (σ × JsonTree σ) → List (Token σ)
  | [] => []
  | (k, t) :: ms =>
    .string k :: .colon :: tokens t ++ (if ms.isEmpty then [] else [.comma]) ++ memberTokens ms
end

mutual
theorem derives_tokens : (t : JsonTree σ) → Derives t.tokens (.value t)
  | .null => .null
  | .bool Bool.true => .true
  | .bool Bool.false => .false
  | .number _ => .number
  | .string _ => .string
  | .array [] => .emptyArray
  | .array (t :: ts) => .array (derives_items (t :: ts) (by simp))
  | .object [] => .emptyObject
  | .object (m :: ms) => .object (derives_members (m :: ms) (by simp))

theorem derives_items :
    (ts : List (JsonTree σ)) → ts ≠ [] → Derives (itemTokens ts) (.items ts)
  | [], h => absurd rfl h
  | [t], _ => by simpa [itemTokens] using (derives_tokens t).lastItem
  | t :: t' :: ts, _ => by
    have hrest := derives_items (t' :: ts) (by simp)
    rw [itemTokens]
    simpa using (derives_tokens t).item hrest

theorem derives_members :
    (ms : List (σ × JsonTree σ)) → ms ≠ [] → Derives (memberTokens ms) (.members ms)
  | [], h => absurd rfl h
  | [(k, t)], _ => by simpa [memberTokens] using (derives_tokens t).lastMember
  | (k, t) :: m :: ms, _ => by
    have hrest := derives_members (m :: ms) (by simp)
    rw [memberTokens]
    simpa using (derives_tokens t).member hrest
end

end JsonTree

/-! ## Neighbouring tokens -/

/-- No number comes right after a number. -/
def Apart (ts : List (Token σ)) : Prop :=
  ts.IsChain (fun a b => ¬ ((∃ m, a = .number m) ∧ ∃ n, b = .number n))

theorem Apart.nil : Apart ([] : List (Token σ)) := List.isChain_nil

/-- Tokens on either side of one that is no number stay apart. -/
theorem Apart.append_cons {ts us : List (Token σ)} {t : Token σ} (hts : Apart ts)
    (ht : ∀ n, t ≠ .number n) (hus : Apart us) : Apart (ts ++ t :: us) := by
  refine List.isChain_append.mpr ⟨hts, List.isChain_cons.mpr ⟨?_, hus⟩, ?_⟩
  · rintro b - ⟨⟨n, hn⟩, -⟩
    exact ht n hn
  · rintro a - b hb ⟨-, n, rfl⟩
    exact ht n (by simpa using hb)

theorem Apart.cons {us : List (Token σ)} {t : Token σ} (ht : ∀ n, t ≠ .number n)
    (hus : Apart us) : Apart (t :: us) :=
  Apart.nil.append_cons ht hus

/-- Every number of a derivation has brackets, commas or colons around it. -/
theorem Derives.apart {ts : List (Token σ)} {p : Phrase σ} (h : Derives ts p) : Apart ts := by
  induction h with
  | null | true | false | number | string | emptyArray | emptyObject => simp [Apart]
  | array _ ih => exact (ih.cons (by simp)).append_cons (by simp) .nil
  | object _ ih => exact (ih.cons (by simp)).append_cons (by simp) .nil
  | lastItem _ ih => exact ih
  | item _ _ ih₁ ih₂ => exact ih₁.append_cons (by simp) ih₂
  | lastMember _ ih => exact (ih.cons (by simp)).cons (by simp)
  | member _ _ ih₁ ih₂ => exact ((ih₁.cons (by simp)).cons (by simp)).append_cons (by simp) ih₂

end JsonText

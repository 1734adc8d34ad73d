import Mathlib.Data.Nat.Bitwise

/-!
# Multi-byte sequences

The byte sequences of UTF-8 as an encoding of numbers below 2^21, without the
rules that make a number's sequence unique and keep surrogates out. `encode`
gives the shortest sequence of a number.
-/
namespace Utf8

def IsTail (b : UInt8) : Prop := 0x80 ≤ b ∧ b < 0xc0

/-- A first byte and the continuation bytes it asks for, with the number they hold. -/
inductive Sequence : List UInt8 → Nat → Prop where
  | two {b₀ b₁ : UInt8} (h₀ : 0xc0 ≤ b₀ ∧ b₀ < 0xe0) (h₁ : IsTail b₁) :
      Sequence [b₀, b₁] (b₀.toNat % 32 * 64 + b₁.toNat % 64)
  | three {b₀ b₁ b₂ : UInt8} (h₀ : 0xe0 ≤ b₀ ∧ b₀ < 0xf0) (h₁ : IsTail b₁) (h₂ : IsTail b₂) :
      Sequence [b₀, b₁, b₂] ((b₀.toNat % 16 * 64 + b₁.toNat % 64) * 64 + b₂.toNat % 64)
  | four {b₀ b₁ b₂ b₃ : UInt8} (h₀ : 0xf0 ≤ b₀ ∧ b₀ < 0xf8) (h₁ : IsTail b₁) (h₂ : IsTail b₂)
      (h₃ : IsTail b₃) :
      Sequence [b₀, b₁, b₂, b₃]
        (((b₀.toNat % 8 * 64 + b₁.toNat % 64) * 64 + b₂.toNat % 64) * 64 + b₃.toNat % 64)

/-- The shortest sequence of a number; a single byte below 0x80. -/
def encode (n : Nat) : List UInt8 :=
  if n ≤ 0x7f then [.ofNat n]
  else if n ≤ 0x7ff then [.ofNat (0xc0 + n / 64), .ofNat (0x80 + n % 64)]
  else if n ≤ 0xffff then
    [.ofNat (0xe0 + n / 4096), .ofNat (0x80 + n / 64 % 64), .ofNat (0x80 + n % 64)]
  else
    [.ofNat (0xf0 + n / 262144), .ofNat (0x80 + n / 4096 % 64), .ofNat (0x80 + n / 64 % 64),
      .ofNat (0x80 + n % 64)]

theorem toNat_ofNat {n : Nat} (h : n < 256) : (UInt8.ofNat n).toNat = n := by
  simp [Nat.mod_eq_of_lt h]

theorem le_ofNat {a : UInt8} {n : Nat} (h : n < 256) : a ≤ UInt8.ofNat n ↔ a.toNat ≤ n := by
  rw [UInt8.le_iff_toNat_le, toNat_ofNat h]

theorem ofNat_lt {a : UInt8} {n : Nat} (h : n < 256) : UInt8.ofNat n < a ↔ n < a.toNat := by
  rw [UInt8.lt_iff_toNat_lt, toNat_ofNat h]

theorem isTail_ofNat {n : Nat} (h : n < 64) : IsTail (.ofNat (0x80 + n)) := by
  refine ⟨(le_ofNat (by omega)).mpr ?_, (ofNat_lt (by omega)).mpr ?_⟩
  · change 0x80 ≤ _
    omega
  · change _ < 0xc0
    omega

theorem between_ofNat {a b : UInt8} {n : Nat} (h : n < 256) (ha : a.toNat ≤ n) (hb : n < b.toNat) :
    a ≤ UInt8.ofNat n ∧ UInt8.ofNat n < b :=
  ⟨(le_ofNat h).mpr ha, (ofNat_lt h).mpr hb⟩

/-- The shortest sequence holds its number. -/
theorem sequence_encode {n : Nat} (h₁ : 0x80 ≤ n) (h₂ : n < 0x200000) :
    Sequence (encode n) n := by
  have h64 : ∀ m, m % 64 < 64 := fun m => Nat.mod_lt m (by decide)
  unfold encode
  rw [if_neg (by omega)]
  split
  next hn =>
    have hs := Sequence.two (between_ofNat (by omega) (n := 0xc0 + n / 64) (a := 0xc0) (b := 0xe0)
      (by simp) (by simp; omega)) (isTail_ofNat (h64 n))
    rw [toNat_ofNat (by omega), toNat_ofNat (by omega)] at hs
    have hv : (0xc0 + n / 64) % 32 * 64 + (0x80 + n % 64) % 64 = n := by omega
    rwa [hv] at hs
  split
  next hn =>
    have hs := Sequence.three (between_ofNat (by omega) (n := 0xe0 + n / 4096) (a := 0xe0)
      (b := 0xf0) (by simp) (by simp; omega)) (isTail_ofNat (h64 (n / 64))) (isTail_ofNat (h64 n))
    rw [toNat_ofNat (by omega), toNat_ofNat (by omega), toNat_ofNat (by omega)] at hs
    have hv : ((0xe0 + n / 4096) % 16 * 64 + (0x80 + n / 64 % 64) % 64) * 64 +
        (0x80 + n % 64) % 64 = n := by omega
    rwa [hv] at hs
  next hn =>
    have hs := Sequence.four (between_ofNat (by omega) (n := 0xf0 + n / 262144) (a := 0xf0)
      (b := 0xf8) (by simp) (by simp; omega)) (isTail_ofNat (h64 (n / 4096)))
      (isTail_ofNat (h64 (n / 64))) (isTail_ofNat (h64 n))
    rw [toNat_ofNat (by omega), toNat_ofNat (by omega), toNat_ofNat (by omega),
      toNat_ofNat (by omega)] at hs
    have hv : (((0xf0 + n / 262144) % 8 * 64 + (0x80 + n / 4096 % 64) % 64) * 64 +
        (0x80 + n / 64 % 64) % 64) * 64 + (0x80 + n % 64) % 64 = n := by omega
    rwa [hv] at hs

/-- A sequence holds at most 21 bits. -/
theorem Sequence.lt {bs : List UInt8} {n : Nat} (h : Sequence bs n) : n < 0x200000 := by
  cases h <;> omega

/-- No byte of a sequence is ASCII. -/
theorem Sequence.ge {bs : List UInt8} {n : Nat} (h : Sequence bs n) : ∀ b ∈ bs, 0x80 ≤ b := by
  have tail : ∀ {b : UInt8}, IsTail b → 0x80 ≤ b := And.left
  cases h with
  | two h₀ h₁ => simpa using ⟨UInt8.le_trans (by decide) h₀.1, tail h₁⟩
  | three h₀ h₁ h₂ => simpa using ⟨UInt8.le_trans (by decide) h₀.1, tail h₁, tail h₂⟩
  | four h₀ h₁ h₂ h₃ => simpa using ⟨UInt8.le_trans (by decide) h₀.1, tail h₁, tail h₂, tail h₃⟩

/-- On the characters of Unicode this is their UTF-8. -/
theorem encode_char (c : Char) : encode c.toNat = String.utf8EncodeChar c := by
  have hv : c.toNat < 0x110000 := by
    obtain h | h := c.valid
    · exact h.trans (by decide)
    · exact h.2
  unfold encode String.utf8EncodeChar
  simp only [← Char.toNat_val] at hv ⊢
  by_cases h₁ : c.val.toNat ≤ 0x7f
  · simp only [h₁, if_true]
  by_cases h₂ : c.val.toNat ≤ 0x7ff
  · have hmod : c.val.toNat / 64 % 0x20 = c.val.toNat / 64 := Nat.mod_eq_of_lt (by omega)
    simp only [h₁, h₂, if_true, if_false, hmod, Nat.add_comm]
  by_cases h₃ : c.val.toNat ≤ 0xffff
  · have hmod : c.val.toNat / 4096 % 0x10 = c.val.toNat / 4096 := Nat.mod_eq_of_lt (by omega)
    simp only [h₁, h₂, h₃, if_true, if_false, hmod, Nat.add_comm]
  · have hmod : c.val.toNat / 262144 % 0x08 = c.val.toNat / 262144 := Nat.mod_eq_of_lt (by omega)
    simp only [h₁, h₂, h₃, if_false, hmod, Nat.add_comm]

/-- A text is read off its UTF-8 in only one way. -/
theorem utf8_injective {cs ds : List Char}
    (h : cs.flatMap String.utf8EncodeChar = ds.flatMap String.utf8EncodeChar) : cs = ds := by
  have hdecode : cs.utf8Encode.utf8Decode? = ds.utf8Encode.utf8Decode? := by
    simp only [List.utf8Encode, h]
  simpa using hdecode

end Utf8

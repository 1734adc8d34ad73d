import JsonRpcServer.LexerGrammar
import JsonRpcServer.Utf8

/-!
# What the filter makes of a literal

Read as code units, raw bytes as multi-byte sequences and escapes as they are,
a literal is accepted when its surrogate halves pair up, and becomes the encoding
of the codepoints that come out.
-/
namespace JsonRpcServer

open JsonText

/-! ## The arithmetic of the filter -/

theorem and_0x3f (n : Nat) : n &&& 0x3f = n % 64 := Nat.and_two_pow_sub_one_eq_mod n 6
theorem and_0x1f (n : Nat) : n &&& 0x1f = n % 32 := Nat.and_two_pow_sub_one_eq_mod n 5
theorem and_0x0f (n : Nat) : n &&& 0x0f = n % 16 := Nat.and_two_pow_sub_one_eq_mod n 4
theorem and_0x07 (n : Nat) : n &&& 0x07 = n % 8 := Nat.and_two_pow_sub_one_eq_mod n 3

/-- Six more bits below a number. -/
theorem shift_or {a b : Nat} (h : b < 64) (i : Nat) :
    a <<< (i + 6) ||| b <<< i = (a * 64 + b) <<< i := by
  rw [Nat.add_comm i 6, Nat.shiftLeft_add, ← Nat.shiftLeft_or_distrib,
    ← Nat.shiftLeft_add_eq_or_of_lt h, Nat.shiftLeft_eq a]

theorem or_lead : ∀ n < 32, 0xc0 ||| n = 0xc0 + n := by decide
theorem or_lead3 : ∀ n < 16, 0xe0 ||| n = 0xe0 + n := by decide
theorem or_lead4 : ∀ n < 8, 0xf0 ||| n = 0xf0 + n := by decide
theorem or_tail : ∀ n < 64, 0x80 ||| n = 0x80 + n := by decide

theorem one_or : ∀ n < 16, 1 ||| n = if n % 2 = 0 then n + 1 else n := by decide

namespace JSONUTF8StringFilter

/-- The codepoint of a surrogate pair as the filter puts it together: bit 16 is set, not added. -/
theorem collate_eq {x y : Nat} (hx : x < 0x400) (hy : y < 0x400) :
    collate (0xD800 + x) (0xDC00 + y) =
      (if x / 64 % 2 = 0 then x / 64 + 1 else x / 64) * 0x10000 + (x % 64 * 0x400 + y) := by
  have hlow : x % 64 * 0x400 + y < 2 ^ 16 := by omega
  have hsplit : x <<< 10 ||| y = (x / 64) <<< 16 ||| (x % 64 * 0x400 + y) := by
    rw [← Nat.shiftLeft_add_eq_or_of_lt (show y < 2 ^ 10 from hy),
      ← Nat.shiftLeft_add_eq_or_of_lt hlow, Nat.shiftLeft_eq, Nat.shiftLeft_eq]
    omega
  calc
    _ = 1 <<< 16 ||| (x <<< 10 ||| y) := by
      simp only [collate, Nat.add_sub_cancel_left, Nat.or_assoc]
      rfl
    _ = (1 ||| x / 64) <<< 16 ||| (x % 64 * 0x400 + y) := by
      rw [hsplit, ← Nat.or_assoc, ← Nat.shiftLeft_or_distrib]
    _ = _ := by
      rw [one_or _ (by omega), ← Nat.shiftLeft_add_eq_or_of_lt hlow, Nat.shiftLeft_eq]

theorem encodeCodepoint_eq {n : Nat} (h : n < 0x200000) : encodeCodepoint n = Utf8.encode n := by
  have hmod : ∀ m, m % 64 < 64 := fun m => Nat.mod_lt m (by decide)
  unfold encodeCodepoint Utf8.encode
  simp only [and_0x3f, or_tail _ (hmod _), Nat.shiftRight_eq_div_pow]
  by_cases h₁ : n ≤ 0x7f
  · simp only [h₁, if_true]
  by_cases h₂ : n ≤ 0x7ff
  · simp only [h₁, h₂, if_true, if_false, or_lead (n / 64) (by omega)]
  by_cases h₃ : n ≤ 0xffff
  · simp only [h₁, h₂, h₃, if_true, if_false, or_lead3 (n / 4096) (by omega)]
  · have h₄ : n ≤ 0x1fffff := by omega
    simp only [h₁, h₂, h₃, h₄, if_true, if_false, or_lead4 (n / 262144) (by omega)]

theorem encodeCodepoint_ascii {b : UInt8} (hb : b < 0x80) : encodeCodepoint b.toNat = [b] := by
  have hle : b.toNat ≤ 0x7f := Nat.le_of_lt_succ (UInt8.lt_iff_toNat_lt.mp hb)
  simp [encodeCodepoint, hle]

theorem tail_iff (b : UInt8) : b &&& 0xc0 = 0x80 ↔ Utf8.IsTail b := by
  have hall : ∀ n : Fin 256, UInt8.ofNat n &&& 0xc0 = 0x80 ↔
      0x80 ≤ UInt8.ofNat n ∧ UInt8.ofNat n < 0xc0 := by decide +kernel
  simpa [Utf8.IsTail] using hall ⟨b.toNat, b.toNat_lt⟩

/-- A continuation byte inside a sequence. -/
theorem pushBack_tail {w : JSONUTF8StringFilter} {b : UInt8} (h : Utf8.IsTail b)
    (hw : w.state ≠ 0) :
    w.pushBack b =
      let state := w.state - 6
      let codepoint := w.codepoint ||| (b.toNat % 64) <<< state
      let w := { w with state := state, codepoint := codepoint }
      if state = 0 then w.pushBackU codepoint else w := by
  simp [pushBack, hw, (tail_iff b).mpr h, and_0x3f]

/-- The first byte of a sequence. -/
theorem pushBack_lead {w : JSONUTF8StringFilter} {b : UInt8} (hw : w.state = 0) (h : 0xc0 ≤ b) :
    w.pushBack b =
      if b < 0xe0 then { w with codepoint := (b.toNat % 32) <<< 6, state := 6 }
      else if b < 0xf0 then { w with codepoint := (b.toNat % 16) <<< 12, state := 12 }
      else if b < 0xf8 then { w with codepoint := (b.toNat % 8) <<< 18, state := 18 }
      else { w with isValid := false } := by
  have h₁ : ¬ b < 0x80 := UInt8.not_lt.mpr (UInt8.le_trans (by decide) h)
  have h₂ : ¬ b < 0xc0 := UInt8.not_lt.mpr h
  simp [pushBack, hw, h₁, h₂, and_0x1f, and_0x0f, and_0x07]

/-- A multi-byte sequence from between sequences. -/
theorem feed_sequence {w : JSONUTF8StringFilter} (hw : w.state = 0) {bs : Bytes} {v : Nat}
    (h : Utf8.Sequence bs v) :
    w.feed (bs.map .byte) = { w with codepoint := v }.pushBackU v := by
  obtain ⟨str, isValid, codepoint, state, surpair⟩ := w
  cases hw
  have hlow : ∀ b : UInt8, b.toNat % 64 < 64 := fun b => Nat.mod_lt _ (by decide)
  cases h with
  | @two b₀ b₁ h₀ h₁ =>
    have hv := shift_or (a := b₀.toNat % 32) (hlow b₁) 0
    simp only [Nat.zero_add, Nat.shiftLeft_zero] at hv
    simp [pushBack_lead, h₀.1, h₀.2, pushBack_tail h₁, hv]
  | @three b₀ b₁ b₂ h₀ h₁ h₂ =>
    have hn : ¬ b₀ < 0xe0 := UInt8.not_lt.mpr h₀.1
    have hc : 0xc0 ≤ b₀ := UInt8.le_trans (by decide) h₀.1
    have hv₁ := shift_or (a := b₀.toNat % 16) (hlow b₁) 6
    have hv := shift_or (a := b₀.toNat % 16 * 64 + b₁.toNat % 64) (hlow b₂) 0
    simp only [Nat.zero_add, Nat.shiftLeft_zero, ← hv₁] at hv
    simp [pushBack_lead, hc, hn, h₀.2, pushBack_tail h₁, pushBack_tail h₂, hv]
  | @four b₀ b₁ b₂ b₃ h₀ h₁ h₂ h₃ =>
    have hn : ¬ b₀ < 0xf0 := UInt8.not_lt.mpr h₀.1
    have hn' : ¬ b₀ < 0xe0 := UInt8.not_lt.mpr (UInt8.le_trans (by decide) h₀.1)
    have hc : 0xc0 ≤ b₀ := UInt8.le_trans (by decide) h₀.1
    have hv₁ := shift_or (a := b₀.toNat % 8) (hlow b₁) 12
    have hv₂ := shift_or (a := b₀.toNat % 8 * 64 + b₁.toNat % 64) (hlow b₂) 6
    have hv := shift_or (a := (b₀.toNat % 8 * 64 + b₁.toNat % 64) * 64 + b₂.toNat % 64)
      (hlow b₃) 0
    simp only [Nat.zero_add, Nat.shiftLeft_zero, ← hv₁, ← hv₂] at hv
    simp [pushBack_lead, hc, hn, hn', h₀.2, pushBack_tail h₁, pushBack_tail h₂, pushBack_tail h₃,
      hv]

/-! ## Nothing is made valid again -/

/-- The `state` test of `pushBackU`, before the codepoint is looked at. -/
theorem pushBackU_valid {w : JSONUTF8StringFilter} {u : Nat} (h : (w.pushBackU u).isValid) :
    w.state = 0 ∧ w.isValid := by
  by_cases hs : w.state = 0
  · refine ⟨hs, ?_⟩
    simp only [pushBackU, hs, ne_eq, not_true, if_false, appendCodepoint] at h
    grind
  · simp only [pushBackU, hs, ne_eq, not_false_eq_true, if_true, appendCodepoint] at h
    grind

/-- Inside a sequence only a continuation byte keeps the text valid. -/
theorem pushBack_valid {w : JSONUTF8StringFilter} {b : UInt8} (h : (w.pushBack b).isValid) :
    w.isValid ∧ (w.state ≠ 0 → Utf8.IsTail b) := by
  by_cases hs : w.state = 0
  · refine ⟨?_, fun hn => absurd hs hn⟩
    simp only [pushBack, hs, if_true] at h
    grind
  by_cases ht : Utf8.IsTail b
  · rw [pushBack_tail ht hs] at h
    refine ⟨?_, fun _ => ht⟩
    simp only at h
    split at h
    · exact (pushBackU_valid h).2
    · exact h
  · simp only [pushBack, hs, if_false, (tail_iff b).not.mpr ht, ne_eq, not_false_eq_true,
      if_true] at h
    split at h
    · exact absurd (pushBackU_valid h).2 (by simp)
    · cases h

theorem feed_valid {w : JSONUTF8StringFilter} {ps : List Piece} (h : (w.feed ps).isValid) :
    w.isValid := by
  induction ps generalizing w with
  | nil => exact h
  | cons p ps ih =>
    cases p with
    | byte b => exact (pushBack_valid (ih h)).1
    | unit u => exact (pushBackU_valid (ih h)).2

theorem finalize_iff (w : JSONUTF8StringFilter) :
    w.finalize ↔ w.state = 0 ∧ w.surpair = 0 ∧ w.isValid := by
  unfold finalize
  split
  next h => simp; grind
  next h => simp_all

/-- An open sequence goes on with a continuation byte. -/
theorem next_tail {w : JSONUTF8StringFilter} {ps : List Piece} (hw : w.state ≠ 0)
    (h : (w.feed ps).finalize) : ∃ c rest, ps = .byte c :: rest ∧ Utf8.IsTail c := by
  cases ps with
  | nil => exact absurd ((finalize_iff w).mp h).1 hw
  | cons p rest =>
    have hvalid : ((w.push p).feed rest).isValid := ((finalize_iff _).mp h).2.2
    cases p with
    | unit u => exact absurd (pushBackU_valid (feed_valid hvalid)).1 hw
    | byte c => exact ⟨c, rest, rfl, (pushBack_valid (feed_valid hvalid)).2 hw⟩

/-- A sequence that is opened is there in full. -/
theorem sequence_of_lead {w : JSONUTF8StringFilter} {b : UInt8} {ps : List Piece}
    (hw : w.state = 0) (hb : 0xc0 ≤ b) (h : (w.feed (.byte b :: ps)).finalize) :
    ∃ bs v rest, .byte b :: ps = bs.map Piece.byte ++ rest ∧ Utf8.Sequence bs v := by
  rw [feed_cons, push_byte, pushBack_lead hw hb] at h
  by_cases h₂ : b < 0xe0
  · rw [if_pos h₂] at h
    obtain ⟨b₁, ps, rfl, h₁⟩ := next_tail (by simp) h
    exact ⟨[b, b₁], _, ps, rfl, .two ⟨hb, h₂⟩ h₁⟩
  by_cases h₃ : b < 0xf0
  · rw [if_neg h₂, if_pos h₃] at h
    obtain ⟨b₁, ps, rfl, h₁⟩ := next_tail (by simp) h
    rw [feed_cons, push_byte, pushBack_tail h₁ (by simp)] at h
    obtain ⟨b₂, ps, rfl, h₂'⟩ := next_tail (by simp) h
    exact ⟨[b, b₁, b₂], _, ps, rfl, .three ⟨UInt8.not_lt.mp h₂, h₃⟩ h₁ h₂'⟩
  by_cases h₄ : b < 0xf8
  · rw [if_neg h₂, if_neg h₃, if_pos h₄] at h
    obtain ⟨b₁, ps, rfl, h₁⟩ := next_tail (by simp) h
    rw [feed_cons, push_byte, pushBack_tail h₁ (by simp)] at h
    obtain ⟨b₂, ps, rfl, h₂'⟩ := next_tail (by simp) h
    rw [feed_cons, push_byte, pushBack_tail h₂' (by simp)] at h
    obtain ⟨b₃, ps, rfl, h₃'⟩ := next_tail (by simp) h
    exact ⟨[b, b₁, b₂, b₃], _, ps, rfl, .four ⟨UInt8.not_lt.mp h₃, h₄⟩ h₁ h₂' h₃'⟩
  · rw [if_neg h₂, if_neg h₃, if_neg h₄] at h
    exact absurd (feed_valid ((finalize_iff _).mp h).2.2) (by simp)

/-! ## Code units -/

end JSONUTF8StringFilter

open JSONUTF8StringFilter

def IsHigh (v : Nat) : Prop := 0xD800 ≤ v ∧ v < 0xDC00
def IsLow (v : Nat) : Prop := 0xDC00 ≤ v ∧ v < 0xE000

/-- What the filter takes as one unit besides ASCII: an escape, or a multi-byte sequence. -/
inductive CodeUnit : List Piece → Nat → Prop where
  | escape (u : Nat) : CodeUnit [.unit u] u
  | sequence {bs : Bytes} {v : Nat} (h : Utf8.Sequence bs v) : CodeUnit (bs.map .byte) v

theorem CodeUnit.length_pos {us : List Piece} {v : Nat} (h : CodeUnit us v) : 0 < us.length := by
  cases h with
  | escape => simp
  | sequence h => cases h <;> simp

/-- How a literal is read with `pending` as the open half of a surrogate pair, 0 for none, and the
codepoints that come out. -/
inductive Decodes : Nat → List Piece → List Nat → Prop where
  | nil : Decodes 0 [] []
  | ascii {pending : Nat} {b : UInt8} {ps : List Piece} {cps : List Nat} (hb : b < 0x80)
      (h : Decodes pending ps cps) : Decodes pending (.byte b :: ps) (b.toNat :: cps)
  | plain {us ps : List Piece} {v : Nat} {cps : List Nat} (hu : CodeUnit us v) (hh : ¬ IsHigh v)
      (hl : ¬ IsLow v) (h : Decodes 0 ps cps) : Decodes 0 (us ++ ps) (v :: cps)
  | high {us ps : List Piece} {v : Nat} {cps : List Nat} (hu : CodeUnit us v) (hh : IsHigh v)
      (h : Decodes v ps cps) : Decodes 0 (us ++ ps) cps
  | low {us ps : List Piece} {pending v : Nat} {cps : List Nat} (hu : CodeUnit us v)
      (hp : pending ≠ 0) (hl : IsLow v) (h : Decodes 0 ps cps) :
      Decodes pending (us ++ ps) (collate pending v :: cps)

/-- The filter between two units of a valid text. -/
structure Rests (w : JSONUTF8StringFilter) (out : Bytes) (pending : Nat) : Prop where
  state : w.state = 0
  valid : w.isValid
  str : w.str = out
  surpair : w.surpair = pending

theorem rests_new : Rests .new [] 0 := ⟨rfl, rfl, rfl, rfl⟩

theorem Rests.finalize {w : JSONUTF8StringFilter} {out : Bytes} {pending : Nat}
    (h : Rests w out pending) : w.finalize ↔ pending = 0 := by
  simp [finalize_iff, h.state, h.valid, h.surpair]

theorem rests_ascii {w : JSONUTF8StringFilter} {out : Bytes} {pending : Nat} {b : UInt8}
    (h : Rests w out pending) (hb : b < 0x80) :
    Rests (w.pushBack b) (out ++ encodeCodepoint b.toNat) pending := by
  rw [encodeCodepoint_ascii hb, ← h.str, ← h.surpair]
  simp only [pushBack, h.state, if_true, hb]
  exact ⟨rfl, h.valid, rfl, rfl⟩

/-- A code unit reaches `pushBackU` with the filter as it was. -/
theorem rests_codeUnit {w : JSONUTF8StringFilter} {out : Bytes} {pending v : Nat}
    {us : List Piece} (h : Rests w out pending) (hu : CodeUnit us v) :
    ∃ w', Rests w' out pending ∧ w.feed us = w'.pushBackU v := by
  cases hu with
  | escape u => exact ⟨w, h, rfl⟩
  | sequence hs =>
    exact ⟨{ w with codepoint := v }, ⟨h.state, h.valid, h.str, h.surpair⟩,
      feed_sequence h.state hs⟩

section
variable {w : JSONUTF8StringFilter} {out : Bytes} {pending v : Nat}

theorem rests_high (h : Rests w out 0) (hh : IsHigh v) : Rests (w.pushBackU v) out v := by
  have hh' : 0xD800 ≤ v ∧ v < 0xDC00 := hh
  simp only [pushBackU, h.state, h.surpair, ne_eq, not_true, if_false, hh', and_self, if_true]
  exact ⟨rfl, h.valid, h.str, rfl⟩

theorem rests_low (h : Rests w out pending) (hp : pending ≠ 0) (hl : IsLow v) :
    Rests (w.pushBackU v) (out ++ encodeCodepoint (collate pending v)) 0 := by
  have hl' : 0xDC00 ≤ v ∧ v < 0xE000 := hl
  have hh' : ¬ (0xD800 ≤ v ∧ v < 0xDC00) := by omega
  simp only [pushBackU, h.state, h.surpair, ne_eq, not_true, if_false, hh', hl', and_self, hp,
    not_false_eq_true, if_true, appendCodepoint, h.str]
  exact ⟨rfl, h.valid, rfl, rfl⟩

theorem rests_plain (h : Rests w out 0) (hh : ¬ IsHigh v) (hl : ¬ IsLow v) :
    Rests (w.pushBackU v) (out ++ encodeCodepoint v) 0 := by
  have hh' : ¬ (0xD800 ≤ v ∧ v < 0xDC00) := hh
  have hl' : ¬ (0xDC00 ≤ v ∧ v < 0xE000) := hl
  simp only [pushBackU, h.state, h.surpair, ne_eq, not_true, if_false, hh', hl', appendCodepoint,
    h.str]
  exact ⟨rfl, h.valid, rfl, rfl⟩

/-- Which units a half-open pair, or none, lets through. -/
theorem pushBackU_refuses (h : Rests w out pending) (hv : (w.pushBackU v).isValid) :
    IsLow v ↔ pending ≠ 0 := by
  unfold IsLow
  simp only [pushBackU, h.state, h.surpair, ne_eq, not_true, if_false, appendCodepoint] at hv
  grind

end

/-- Accepted text is read as `Decodes` says. -/
theorem decodes_of_finalize {ps : List Piece} {w : JSONUTF8StringFilter} {out : Bytes}
    {pending : Nat} (h : Rests w out pending) (hf : (w.feed ps).finalize) :
    ∃ cps, Decodes pending ps cps := by
  induction hlen : ps.length using Nat.strong_induction_on generalizing ps w out pending with
  | h n ih =>
    have unit : ∀ {us rest : List Piece} {v : Nat}, CodeUnit us v → ps = us ++ rest →
        ∃ cps, Decodes pending ps cps := by
      rintro us rest v hu rfl
      obtain ⟨w', h', he⟩ := rests_codeUnit h hu
      rw [feed_append, he] at hf
      have hlt : rest.length < n := by
        have hpos : 0 < us.length := hu.length_pos
        simp only [List.length_append] at hlen
        omega
      have hkind := pushBackU_refuses h' (feed_valid ((finalize_iff _).mp hf).2.2)
      by_cases hl : IsLow v
      · have hp := hkind.mp hl
        obtain ⟨cps, hcps⟩ := ih _ hlt (rests_low h' hp hl) hf rfl
        exact ⟨_, .low hu hp hl hcps⟩
      obtain rfl : pending = 0 := not_not.mp (hkind.not.mp hl)
      by_cases hh : IsHigh v
      · obtain ⟨cps, hcps⟩ := ih _ hlt (rests_high h' hh) hf rfl
        exact ⟨_, .high hu hh hcps⟩
      · obtain ⟨cps, hcps⟩ := ih _ hlt (rests_plain h' hh hl) hf rfl
        exact ⟨_, .plain hu hh hl hcps⟩
    cases ps with
    | nil =>
      obtain rfl := h.finalize.mp hf
      exact ⟨[], .nil⟩
    | cons p rest =>
      cases p with
      | unit u => exact unit (.escape u) rfl
      | byte b =>
        by_cases hb : b < 0x80
        · obtain ⟨cps, hcps⟩ := ih rest.length (by simp [← hlen]) (rests_ascii h hb) hf rfl
          exact ⟨_, .ascii hb hcps⟩
        by_cases hb' : b < 0xc0
        · have hinv : (w.pushBack b).isValid = false := by
            simp [pushBack, h.state, hb, hb']
          have hvalid : (w.push (.byte b)).isValid := feed_valid ((finalize_iff _).mp hf).2.2
          rw [push_byte, hinv] at hvalid
          cases hvalid
        · obtain ⟨bs, v, rest', he, hs⟩ := sequence_of_lead h.state (UInt8.not_lt.mp hb') hf
          exact unit (.sequence hs) he

theorem finalize_of_decodes {ps : List Piece} {cps : List Nat} {w : JSONUTF8StringFilter}
    {out : Bytes} {pending : Nat} (hd : Decodes pending ps cps) (h : Rests w out pending) :
    Rests (w.feed ps) (out ++ cps.flatMap encodeCodepoint) 0 := by
  induction hd generalizing w out with
  | nil => simpa using h
  | ascii hb _ ih => simpa using ih (rests_ascii h hb)
  | plain hu hh hl _ ih =>
    obtain ⟨w', h', he⟩ := rests_codeUnit h hu
    simpa [he] using ih (rests_plain h' hh hl)
  | high hu hh _ ih =>
    obtain ⟨w', h', he⟩ := rests_codeUnit h hu
    simpa [he] using ih (rests_high h' hh)
  | low hu hp hl _ ih =>
    obtain ⟨w', h', he⟩ := rests_codeUnit h hu
    simpa [he] using ih (rests_low h' hp hl)

theorem accepted_iff_decodes (ps : List Piece) : Accepted ps ↔ ∃ cps, Decodes 0 ps cps := by
  constructor
  · exact decodes_of_finalize rests_new
  · rintro ⟨cps, hd⟩
    exact (finalize_of_decodes hd rests_new).finalize.mpr rfl

/-- The text of a literal is the encoding of its codepoints. -/
theorem literalText_of_decodes {ps : List Piece} {cps : List Nat} (hd : Decodes 0 ps cps) :
    literalText ps = cps.flatMap encodeCodepoint :=
  (finalize_of_decodes hd rests_new).str

/-- A codepoint that UTF-8 as the filter knows it can hold, surrogates apart. -/
def Encodable (cp : Nat) : Prop := cp < 0x200000 ∧ ¬ IsHigh cp ∧ ¬ IsLow cp

theorem encodable_collate {p v : Nat} (hp : IsHigh p) (hv : IsLow v) : Encodable (collate p v) := by
  obtain ⟨x, hx, rfl⟩ : ∃ x < 0x400, p = 0xD800 + x :=
    ⟨p - 0xD800, by have := hp.2; omega, by have := hp.1; omega⟩
  obtain ⟨y, hy, rfl⟩ : ∃ y < 0x400, v = 0xDC00 + y :=
    ⟨v - 0xDC00, by have := hv.2; omega, by have := hv.1; omega⟩
  rw [collate_eq hx hy]
  unfold Encodable IsHigh IsLow
  split <;> omega

/-- The codepoints that come out, if no escape is longer than four digits. -/
theorem Decodes.encodable {pending : Nat} {ps : List Piece} {cps : List Nat}
    (h : Decodes pending ps cps) (hp : pending = 0 ∨ IsHigh pending)
    (hu : ∀ u, .unit u ∈ ps → u < 0x10000) : ∀ cp ∈ cps, Encodable cp := by
  have bound : ∀ {us rest : List Piece} {v : Nat}, CodeUnit us v →
      (∀ u, .unit u ∈ us ++ rest → u < 0x10000) → v < 0x200000 := by
    intro us rest v hus hall
    cases hus with
    | escape => exact (hall v (by simp)).trans (by decide)
    | sequence hs => exact hs.lt
  induction h with
  | nil => simp
  | @ascii pending b ps cps hb _ ih =>
    have hlt : b.toNat < 0x80 := UInt8.lt_iff_toNat_lt.mp hb
    refine List.forall_mem_cons.mpr ⟨?_, ih hp (fun u h => hu u (by simp [h]))⟩
    unfold Encodable IsHigh IsLow
    omega
  | plain hc hh hl _ ih =>
    exact List.forall_mem_cons.mpr
      ⟨⟨bound hc hu, hh, hl⟩, ih (.inl rfl) (fun u h => hu u (by simp [h]))⟩
  | high hc hh _ ih => exact ih (.inr hh) (fun u h => hu u (by simp [h]))
  | low hc hne hl _ ih =>
    exact List.forall_mem_cons.mpr ⟨encodable_collate (hp.resolve_left hne) hl,
      ih (.inl rfl) (fun u h => hu u (by simp [h]))⟩

end JsonRpcServer

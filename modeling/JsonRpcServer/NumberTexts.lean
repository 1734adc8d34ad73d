import JsonRpcServer.IntegerTexts

/-!
# Numbers that are set as text

`setNumStr` asks the lexer for one token and looks no further: it stores every
text that begins with a number, whatever follows the number.
-/
namespace JsonRpcServer

open JsonText UniValue

/-- A text that begins with a number after white space, or has a minus sign for it. -/
def BeginsWithNumber (s : Bytes) : Prop :=
  ∃ w n rest, s = w ++ n ++ rest ∧ White w ∧ (LongestNumber n rest ∨ n = [0x2d] ∧ rest = [])

theorem number_of_getLexeme {ch : UInt8} {raw n rest : Bytes}
    (h : getLexeme ch raw = some (.number, n, rest)) :
    ch :: raw = n ++ rest ∧ (LongestNumber n rest ∨ n = [0x2d] ∧ rest = []) := by
  unfold getLexeme at h
  split at h
  next hp =>
    cases h
    unfold punctuation at hp
    repeat' split at hp
    all_goals cases hp
  split at h
  · split at h
    next hk =>
      cases h
      unfold getKeyword at hk
      repeat' split at hk
      all_goals cases hk
    · cases h
  split at h
  next hf =>
    split at h
    next hn =>
      cases h
      exact getNumber_sound hf hn
    · cases h
  split at h
  · split at h
    · split at h <;> cases h
    · cases h
  · cases h

theorem getLexeme_of_longest {n rest : Bytes}
    (h : LongestNumber n rest ∨ n = [0x2d] ∧ rest = []) :
    ∃ first tl, n = first :: tl ∧ isSpace first = false ∧
      getLexeme first (tl ++ rest) = some (.number, n, rest) := by
  have hfirst : ∃ first tl, n = first :: tl ∧ (first = 0x2d ∨ isDigit first) ∧
      getNumber first (tl ++ rest) = some (n, rest) := by
    rcases h with h | ⟨rfl, rfl⟩
    · exact getNumber_longest h
    · exact ⟨0x2d, [], rfl, .inl rfl, by decide⟩
  obtain ⟨first, tl, rfl, hf, hg⟩ := hfirst
  refine ⟨first, tl, rfl, ?_, getLexeme_number hf hg⟩
  rcases hf with rfl | hd
  · decide
  · exact (digit_plain hd).2.1

theorem validNumStr_iff (s : Bytes) : validNumStr s ↔ BeginsWithNumber s := by
  unfold validNumStr getJsonToken
  rw [decide_eq_true_eq]
  constructor
  · intro h
    split at h
    · cases h
    next ch rest hd =>
      split at h
      · cases h
      next tok n r hl =>
        obtain rfl : tok = .number := h
        obtain ⟨hsplit, hn⟩ := number_of_getLexeme hl
        refine ⟨s.takeWhile jsonIsspace, n, r, ?_, white_takeWhile s, hn⟩
        rw [List.append_assoc, ← hsplit, ← hd, List.takeWhile_append_dropWhile]
  · rintro ⟨w, n, rest, rfl, hw, hn⟩
    obtain ⟨first, tl, rfl, hspace, hl⟩ := getLexeme_of_longest hn
    have hdrop : (w ++ (first :: tl) ++ rest).dropWhile jsonIsspace = first :: (tl ++ rest) := by
      rw [List.append_assoc, dropWhile_white hw]
      simp [jsonIsspace_eq, hspace]
    simp only [hdrop, hl]

/-! ## There and back -/

/-- The text of a number value is read back as the value exactly when it is a number, or the minus
sign that the lexer takes for one. -/
theorem number_read_back (s : Bytes) :
    read s = (true, ofType .vnum s) ↔ Number s ∨ s = [0x2d] := by
  constructor
  · intro h
    rcases anyText_of_read h with ⟨t, ⟨ts, hspaced, hderives⟩, -, ht⟩ | ⟨w, -, -, hu⟩
    · left
      cases t with
      | number n =>
        have hs : s = n := by simpa [uniTree, ofType] using ht
        rw [hs]
        cases hderives with
        | number =>
          cases hspaced with
          | cons _ hlexeme _ =>
            cases hlexeme with
            | number hn => exact hn
      | null | bool | string | array | object => simp [uniTree, ofType, null, setBool] at ht
    · right
      simpa [ofType] using hu
  · rintro (hn | rfl)
    · exact read_anyText (anyText_number hn)
    · exact read_loneMinus (w := []) (by simp [White])

/-- A text that begins with a number is stored and written as it is, and comes back from what is
written, which `read` can take up to `2^32` bytes of, if nothing else is in it; any other text
leaves the value alone. -/
theorem setNumStr_exact (v : UniValue) (s : Bytes) :
    (¬ BeginsWithNumber s ∧ v.setNumStr s = v) ∨
      (BeginsWithNumber s ∧ v.setNumStr s = ofType .vnum s ∧
        (∀ prettyIndent indentLevel,
          write32 prettyIndent indentLevel (v.setNumStr s) = .ok s) ∧
        (s.length < 2 ^ 32 → (read s = (true, v.setNumStr s) ↔ Number s ∨ s = [0x2d]))) := by
  by_cases h : BeginsWithNumber s
  · right
    have hset : v.setNumStr s = ofType .vnum s := if_pos ((validNumStr_iff s).mpr h)
    rw [hset]
    refine ⟨h, rfl, fun prettyIndent indentLevel => ?_, fun _ => number_read_back s⟩
    simp [write32, layOut, ofType]
  · left
    exact ⟨h, if_neg (fun hv => h ((validNumStr_iff s).mp hv))⟩

example : null.setNumStr (cstr "12 apples") = ofType .vnum (cstr "12 apples") := by decide

end JsonRpcServer

import JsonRpcServer.Buffers
import JsonRpcServer.Lexer

/-!
# The lexer on pointers

`getJsonToken` as it goes over the text with a pointer. `last` is the source's `end`;
the definitions have the names of those they agree with.
-/
namespace JsonRpcServer

namespace Pointers

open Programs Buffers

/-- Up to `n` digits from `first` on: where it stops, and the number. -/
def hatoui (first result : Nat) : Nat → Program reading (Nat × Nat)
  | 0 => pure (first, result)
  | n + 1 => do
    match hexDigit (← byteAt first) with
    | some digit => hatoui (first + 1) (16 * result + digit) n
    | none => pure (first, result)

/-! ## Numbers -/

/-- `*firstDigit == '0' && json_isdigit(firstDigit[1])`. -/
def leadingZero (first : Nat) : Program reading Bool := do
  let firstDigit := if jsonIsdigit (← byteAt first) then first else first + 1
  if (← byteAt firstDigit) = 0x30 then jsonIsdigit <$> byteAt (firstDigit + 1) else pure false

/-- `raw >= last || !json_isdigit(*raw)`. -/
def noDigit (last raw : Nat) : Program reading Bool :=
  if last ≤ raw then pure true else do pure !jsonIsdigit (← byteAt raw)

def getFrac (last raw : Nat) (numStr : Bytes) : Program reading (Option (Bytes × Nat)) :=
  if raw < last then do
    let ch ← byteAt raw
    if ch = 0x2e then
      if ← noDigit last (raw + 1) then pure none
      else some <$> copy jsonIsdigit last (raw + 1) (numStr ++ [ch])
    else pure (some (numStr, raw))
  else pure (some (numStr, raw))

def getSign (last raw : Nat) (numStr : Bytes) : Program reading (Bytes × Nat) :=
  if raw < last then do
    let ch ← byteAt raw
    if ch = 0x2d ∨ ch = 0x2b then pure (numStr ++ [ch], raw + 1) else pure (numStr, raw)
  else pure (numStr, raw)

def getExp (last raw : Nat) (numStr : Bytes) : Program reading (Option (Bytes × Nat)) :=
  if raw < last then do
    let ch ← byteAt raw
    if ch = 0x65 ∨ ch = 0x45 then
      let (numStr, raw) ← getSign last (raw + 1) (numStr ++ [ch])
      if ← noDigit last raw then pure none
      else some <$> copy jsonIsdigit last raw numStr
    else pure (some (numStr, raw))
  else pure (some (numStr, raw))

def getNumber (last raw : Nat) : Program reading (Option (Bytes × Nat)) := do
  if ← leadingZero raw then pure none
  else
    let first ← byteAt raw
    let raw := raw + 1
    if ← (if first = 0x2d ∧ raw < last then do pure !jsonIsdigit (← byteAt raw)
        else pure false) then
      pure none
    else
      let (numStr, raw) ← copy jsonIsdigit last raw [first]
      match ← getFrac last raw numStr with
      | none => pure none
      | some (numStr, raw) => getExp last raw numStr

/-! ## Strings and tokens -/

/-- A string from after its opening quote: the filter, and the pointer past the closing quote. -/
def getString (last raw : Nat) (writer : JSONUTF8StringFilter) :
    Program reading (Option (JSONUTF8StringFilter × Nat)) :=
  if raw < last then do
    let ch ← byteAt raw
    if ch < 0x20 then pure none
    else if ch = 0x5c then
      let raw := raw + 1
      if last ≤ raw then pure none
      else
        let esc ← byteAt raw
        if esc = 0x75 then
          if last ≤ raw + 1 + 4 then pure none
          else
            let (stop, codepoint) ← hatoui (raw + 1) 0 4
            if stop ≠ raw + 1 + 4 then pure none
            else getString last (raw + 4 + 1) (writer.pushBackU codepoint)
        else
          match escapeChar esc with
          | some ch => getString last (raw + 1) (writer.pushBack ch)
          | none => pure none
    else if ch = 0x22 then pure (some (writer, raw + 1))
    else getString last (raw + 1) (writer.pushBack ch)
  else pure none
termination_by last - raw

def getKeyword (raw : Nat) : Program reading (Option (JTokenType × Nat)) := do
  if ← comparesEqual raw (cstr "null") then pure (some (.kwNull, raw + 4))
  else if ← comparesEqual raw (cstr "true") then pure (some (.kwTrue, raw + 4))
  else if ← comparesEqual raw (cstr "false") then pure (some (.kwFalse, raw + 5))
  else pure none

/-- The token at `raw`, which is past the whitespace, and the pointer past the token. -/
def getLexeme (last raw : Nat) : Program reading (Option (JTokenType × Bytes × Nat)) := do
  let ch ← byteAt raw
  match punctuation ch with
  | some tok => pure (some (tok, [], raw + 1))
  | none =>
    if ch = 0x6e ∨ ch = 0x74 ∨ ch = 0x66 then
      match ← getKeyword raw with
      | some (tok, raw) => pure (some (tok, [], raw))
      | none => pure none
    else if ch = 0x2d ∨ jsonIsdigit ch then
      match ← getNumber last raw with
      | some (numStr, raw) => pure (some (.number, numStr, raw))
      | none => pure none
    else if ch = 0x22 then
      match ← getString last (raw + 1) .new with
      | some (writer, raw) =>
        pure (if writer.finalize then some (.string, writer.str, raw) else none)
      | none => pure none
    else pure none

/-- `consumed` is an `unsigned int`, which takes the difference of the pointers modulo 2^32. -/
def getJsonToken (last raw : Nat) : Program reading (JTokenType × Bytes × UInt32) := do
  let rawStart := raw
  let raw ← skip jsonIsspace last raw
  if last ≤ raw then pure (.none, [], 0)
  else
    match ← getLexeme last raw with
    | some (tok, tokenVal, raw) => pure (tok, tokenVal, .ofNat (raw - rawStart))
    | none => pure (.err, [], 0)

/-! ## Agreement -/

section
variable {buf raw rest : Bytes} {p : Nat} {ch : UInt8}

theorem eval_hatoui {hs : Bytes} (h : At buf p (hs ++ rest)) (result : Nat) :
    eval buf (hatoui p result hs.length) =
      some (ptr buf ((JsonRpcServer.hatoui result hs).2 ++ rest),
        (JsonRpcServer.hatoui result hs).1) := by
  induction hs generalizing p result with
  | nil => simp [hatoui, JsonRpcServer.hatoui, h.eq_ptr]
  | cons ch hs ih =>
    have hrest : At buf p (ch :: (hs ++ rest)) := h
    rw [List.length_cons, hatoui, eval_bind, hrest.eval_cons, Option.bind_some,
      JsonRpcServer.hatoui]
    cases hexDigit ch with
    | none => simp [h.eq_ptr]
    | some digit => exact ih hrest.next _

theorem At.eval_peek (h : At buf p raw) : eval buf (byteAt p) = some (peek raw 0) := h.eval_byteAt

theorem eval_noDigit (h : At buf p raw) :
    eval buf (noDigit buf.length p) =
      some (decide (raw = [] ∨ !jsonIsdigit (peek raw 0))) := by
  unfold noDigit
  cases raw with
  | nil =>
    rw [if_pos (by simpa using h.lt_iff)]
    simp
  | cons ch raw =>
    rw [if_neg (by simp [h.lt_iff])]
    simp [h.eval_cons, peek]

theorem eval_leadingZero (h : At buf p (ch :: raw)) :
    eval buf (leadingZero p) = some (JsonRpcServer.leadingZero ch raw) := by
  unfold leadingZero JsonRpcServer.leadingZero
  rw [eval_bind, h.eval_cons, Option.bind_some]
  have hfirst : At buf (if jsonIsdigit ch then p else p + 1)
      (if jsonIsdigit ch then ch :: raw else raw) := by
    split
    · exact h
    · exact h.next
  generalize (if jsonIsdigit ch then p else p + 1) = pd at hfirst
  generalize (if jsonIsdigit ch then ch :: raw else raw) = digits at hfirst
  simp only [eval_bind, At.eval_peek hfirst, Option.bind_some]
  cases digits with
  | nil => simp [peek]
  | cons d digits =>
    by_cases hd : d = 0x30
    · simp [hd, peek, At.eval_peek hfirst.next]
    · simp [hd, peek]

theorem eval_getFrac (h : At buf p raw) (numStr : Bytes) :
    eval buf (getFrac buf.length p numStr) =
      some ((JsonRpcServer.getFrac raw).map (fun r => (numStr ++ r.1, ptr buf r.2))) := by
  cases raw with
  | nil =>
    rw [getFrac, h.eval_guard_nil]
    simp [JsonRpcServer.getFrac, h.eq_ptr]
  | cons ch raw =>
    rw [getFrac, h.eval_guard, JsonRpcServer.getFrac]
    by_cases hdot : ch = 0x2e
    · rw [if_pos hdot, if_pos hdot, eval_bind, eval_noDigit h.next, Option.bind_some]
      by_cases hdigit : raw = [] ∨ !jsonIsdigit (peek raw 0)
      · rw [if_pos hdigit, if_pos (decide_eq_true hdigit)]
        rfl
      · rw [if_neg hdigit, if_neg (mt of_decide_eq_true hdigit), eval_map, eval_copy _ h.next]
        simp
    · rw [if_neg hdot, if_neg hdot]
      simp [h.eq_ptr]

theorem eval_getSign (h : At buf p raw) (numStr : Bytes) :
    eval buf (getSign buf.length p numStr) =
      some (numStr ++ (JsonRpcServer.getSign raw).1, ptr buf (JsonRpcServer.getSign raw).2) := by
  cases raw with
  | nil =>
    rw [getSign, h.eval_guard_nil]
    simp [JsonRpcServer.getSign, h.eq_ptr]
  | cons ch raw =>
    rw [getSign, h.eval_guard, JsonRpcServer.getSign]
    by_cases hsign : ch = 0x2d ∨ ch = 0x2b
    · simp [hsign, h.next.eq_ptr]
    · simp [hsign, h.eq_ptr]

theorem eval_getExp (h : At buf p raw) (numStr : Bytes) :
    eval buf (getExp buf.length p numStr) =
      some ((JsonRpcServer.getExp raw).map (fun r => (numStr ++ r.1, ptr buf r.2))) := by
  cases raw with
  | nil =>
    rw [getExp, h.eval_guard_nil]
    simp [JsonRpcServer.getExp, h.eq_ptr]
  | cons ch raw =>
    rw [getExp, h.eval_guard, JsonRpcServer.getExp]
    by_cases he : ch = 0x65 ∨ ch = 0x45
    · rw [if_pos he, if_pos he, eval_bind, eval_getSign h.next, Option.bind_some]
      have hrest := h.next.suffix (getSign_suffix raw)
      generalize JsonRpcServer.getSign raw = signed at hrest
      obtain ⟨sign, rest⟩ := signed
      simp only at hrest ⊢
      rw [eval_bind, eval_noDigit hrest, Option.bind_some]
      by_cases hdigit : rest = [] ∨ !jsonIsdigit (peek rest 0)
      · rw [if_pos hdigit, if_pos (decide_eq_true hdigit)]
        rfl
      · rw [if_neg hdigit, if_neg (mt of_decide_eq_true hdigit), eval_map, eval_copy _ hrest]
        simp
    · rw [if_neg he, if_neg he]
      simp [h.eq_ptr]

theorem eval_getNumber (h : At buf p (ch :: raw)) :
    eval buf (getNumber buf.length p) =
      some ((JsonRpcServer.getNumber ch raw).map (fun r => (r.1, ptr buf r.2))) := by
  unfold getNumber JsonRpcServer.getNumber
  rw [eval_bind, eval_leadingZero h, Option.bind_some]
  by_cases hzero : JsonRpcServer.leadingZero ch raw
  · rw [if_pos hzero, if_pos hzero]
    rfl
  rw [if_neg hzero, if_neg hzero, eval_bind, h.eval_cons, Option.bind_some]
  have hminus : eval buf (if ch = 0x2d ∧ p + 1 < buf.length then do
      pure !jsonIsdigit (← byteAt (p + 1)) else pure false) =
      some (decide (ch = 0x2d ∧ raw ≠ [] ∧ !jsonIsdigit (peek raw 0))) := by
    by_cases hlt : ch = 0x2d ∧ p + 1 < buf.length
    · rw [if_pos hlt]
      simp [hlt.1, h.next.lt_iff.mp hlt.2, At.eval_peek h.next]
    · rw [if_neg hlt]
      rw [h.next.lt_iff] at hlt
      simp [← and_assoc, hlt]
  rw [eval_bind, hminus, Option.bind_some]
  by_cases hm : ch = 0x2d ∧ raw ≠ [] ∧ !jsonIsdigit (peek raw 0)
  · rw [if_pos hm, if_pos (decide_eq_true hm)]
    rfl
  rw [if_neg hm, if_neg (mt of_decide_eq_true hm), eval_bind, eval_copy _ h.next, Option.bind_some]
  have hint := h.next.suffix (List.dropWhile_suffix jsonIsdigit)
  simp only [eval_bind, eval_getFrac hint, Option.bind_some]
  cases hf : JsonRpcServer.getFrac (raw.dropWhile jsonIsdigit) with
  | none => rfl
  | some frac =>
    have hfrac := hint.suffix (getFrac_suffix hf)
    simp only [Option.map_some, eval_getExp hfrac]
    cases JsonRpcServer.getExp frac.2 with
    | none => rfl
    | some exp => simp

/-! ## Strings -/

/-- After a backslash there is one more character to look at. -/
theorem eval_escape {esc : UInt8} (h : At buf p (0x5c :: esc :: raw))
    (writer : JSONUTF8StringFilter) :
    eval buf (getString buf.length p writer) =
      if esc = 0x75 then
        if buf.length ≤ p + 1 + 1 + 4 then some none
        else eval buf (do
          let (stop, codepoint) ← hatoui (p + 1 + 1) 0 4
          if stop ≠ p + 1 + 1 + 4 then pure none
          else getString buf.length (p + 1 + 4 + 1) (writer.pushBackU codepoint))
      else
        match escapeChar esc with
        | some ch => eval buf (getString buf.length (p + 1 + 1) (writer.pushBack ch))
        | none => some none := by
  have hlt : ¬ buf.length ≤ p + 1 := by simp [← Nat.not_lt, h.next.lt_iff]
  rw [getString, h.eval_guard, if_neg (by decide), if_pos rfl]
  simp only [if_neg hlt]
  rw [eval_bind, h.next.eval_cons, Option.bind_some]
  split
  · split <;> rfl
  · split <;> rfl

/-- Four digits have to be followed by something, which an unterminated string has not. -/
theorem eval_unicode_short (h : At buf p (0x5c :: 0x75 :: raw)) (hlen : raw.length ≤ 4)
    (writer : JSONUTF8StringFilter) : eval buf (getString buf.length p writer) = some none := by
  have hlength := h.next.next.length
  rw [eval_escape h, if_pos rfl, if_pos (by omega)]

theorem eval_unicode {h₁ h₂ h₃ h₄ : UInt8}
    (h : At buf p (0x5c :: 0x75 :: h₁ :: h₂ :: h₃ :: h₄ :: raw)) (hraw : raw ≠ [])
    (writer : JSONUTF8StringFilter) :
    eval buf (getString buf.length p writer) =
      if (JsonRpcServer.hatoui 0 [h₁, h₂, h₃, h₄]).2 = [] then
        eval buf (getString buf.length (ptr buf raw)
          (writer.pushBackU (JsonRpcServer.hatoui 0 [h₁, h₂, h₃, h₄]).1))
      else some none := by
  have hdigits : At buf (p + 1 + 1) ([h₁, h₂, h₃, h₄] ++ raw) := h.next.next
  have hafter : p + 1 + 1 + 4 = ptr buf raw := hdigits.append.eq_ptr
  have hlength := hdigits.length
  have hpos := List.length_pos_iff.mpr hraw
  simp only [List.length_append, List.length_cons, List.length_nil] at hlength
  rw [eval_escape h, if_pos rfl, if_neg (by omega), eval_bind]
  have hhatoui := eval_hatoui hdigits 0
  simp only [List.length_cons, List.length_nil, Nat.zero_add, Nat.reduceAdd] at hhatoui
  rw [hhatoui, Option.bind_some]
  generalize JsonRpcServer.hatoui 0 [h₁, h₂, h₃, h₄] = scanned
  obtain ⟨codepoint, left⟩ := scanned
  have hstop : ptr buf (left ++ raw) = p + 1 + 1 + 4 ↔ left = [] := by
    rw [hafter, ← List.length_eq_zero_iff]
    simp only [ptr, List.length_append]
    omega
  by_cases hleft : left = []
  · simp [hleft, hafter]
  · simp [hleft, hstop]

theorem eval_getString (h : At buf p raw) (writer : JSONUTF8StringFilter) :
    eval buf (getString buf.length p writer) =
      some ((JsonRpcServer.getString writer raw).map (fun r => (r.1, ptr buf r.2))) := by
  fun_induction JsonRpcServer.getString writer raw generalizing p with
  | case1 =>
    rw [getString, h.eval_guard_nil]
    rfl
  | case2 writer ch raw hctl =>
    rw [getString, h.eval_guard, if_pos hctl]
    rfl
  | case3 writer =>
    have hle : buf.length ≤ p + 1 := by simp [← Nat.not_lt, h.next.lt_iff]
    rw [getString, h.eval_guard, if_neg (by decide), if_pos rfl]
    simp [hle]
  | case4 writer h₁ h₂ h₃ h₄ => exact eval_unicode_short h (Nat.le_refl 4) writer
  | case5 writer h₁ h₂ h₃ h₄ raw hraw codepoint hhatoui _ ih =>
    have hrest : At buf (ptr buf raw) raw := h.suffix (List.suffix_append [_, _, _, _, _, _] raw)
    rw [eval_unicode h hraw, hhatoui, if_pos rfl]
    exact ih hrest
  | case6 writer h₁ h₂ h₃ h₄ raw hraw codepoint head tail hhatoui =>
    rw [eval_unicode h hraw, hhatoui, if_neg (List.cons_ne_nil head tail)]
    rfl
  | case7 writer raw hshort =>
    refine eval_unicode_short h ?_ writer
    rcases raw with _ | ⟨h₁, _ | ⟨h₂, _ | ⟨h₃, _ | ⟨h₄, raw⟩⟩⟩⟩
    · simp
    · simp
    · simp
    · simp
    · exact absurd rfl (hshort h₁ h₂ h₃ h₄ raw)
  | case8 writer esc raw hu ch hesc _ ih =>
    rw [eval_escape h, if_neg hu, hesc]
    exact ih h.next.next
  | case9 writer esc raw hu hesc =>
    rw [eval_escape h, if_neg hu, hesc]
    rfl
  | case10 writer raw =>
    rw [getString, h.eval_guard, if_neg (by decide), if_neg (by decide), if_pos rfl]
    simp [h.next.eq_ptr]
  | case11 writer ch raw hctl hslash hquote ih =>
    rw [getString, h.eval_guard, if_neg hctl, if_neg hslash, if_neg hquote]
    exact ih h.next

/-! ## Tokens -/

theorem eval_getKeyword (h : At buf p raw) :
    eval buf (getKeyword p) =
      some ((JsonRpcServer.getKeyword raw).map (fun r => (r.1, ptr buf r.2))) := by
  unfold getKeyword JsonRpcServer.getKeyword
  rw [eval_bind, eval_comparesEqual (by decide) h, Option.bind_some]
  by_cases hnull : cstr "null" <+: raw
  · rw [if_pos hnull, if_pos (decide_eq_true hnull), eval_pure]
    exact congrArg (fun p => some (some (_, p))) (h.drop hnull)
  rw [if_neg hnull, if_neg (mt of_decide_eq_true hnull), eval_bind,
    eval_comparesEqual (by decide) h, Option.bind_some]
  by_cases htrue : cstr "true" <+: raw
  · rw [if_pos htrue, if_pos (decide_eq_true htrue), eval_pure]
    exact congrArg (fun p => some (some (_, p))) (h.drop htrue)
  rw [if_neg htrue, if_neg (mt of_decide_eq_true htrue), eval_bind,
    eval_comparesEqual (by decide) h, Option.bind_some]
  by_cases hfalse : cstr "false" <+: raw
  · rw [if_pos hfalse, if_pos (decide_eq_true hfalse), eval_pure]
    exact congrArg (fun p => some (some (_, p))) (h.drop hfalse)
  · rw [if_neg hfalse, if_neg (mt of_decide_eq_true hfalse)]
    rfl

theorem eval_getLexeme (h : At buf p (ch :: raw)) :
    eval buf (getLexeme buf.length p) =
      some ((JsonRpcServer.getLexeme ch raw).map (fun r => (r.1, r.2.1, ptr buf r.2.2))) := by
  unfold getLexeme JsonRpcServer.getLexeme
  rw [eval_bind, h.eval_cons, Option.bind_some]
  cases punctuation ch with
  | some tok => simp [h.next.eq_ptr]
  | none =>
    simp only
    by_cases hkeyword : ch = 0x6e ∨ ch = 0x74 ∨ ch = 0x66
    · rw [if_pos hkeyword, if_pos hkeyword, eval_bind, eval_getKeyword h, Option.bind_some]
      cases JsonRpcServer.getKeyword (ch :: raw) <;> rfl
    rw [if_neg hkeyword, if_neg hkeyword]
    by_cases hnumber : ch = 0x2d ∨ jsonIsdigit ch
    · rw [if_pos hnumber, if_pos hnumber, eval_bind, eval_getNumber h, Option.bind_some]
      cases JsonRpcServer.getNumber ch raw <;> rfl
    rw [if_neg hnumber, if_neg hnumber]
    by_cases hquote : ch = 0x22
    · rw [if_pos hquote, if_pos hquote, eval_bind, eval_getString h.next, Option.bind_some]
      cases JsonRpcServer.getString .new raw with
      | none => rfl
      | some scanned =>
        obtain ⟨writer, rest⟩ := scanned
        by_cases hfinal : writer.finalize <;> simp [hfinal]
    · rw [if_neg hquote, if_neg hquote]
      rfl

/-- What the lexer gives its caller, `consumed` cut to its type. -/
def cut (token : JTokenType × Bytes × Nat) : JTokenType × Bytes × UInt32 :=
  (token.1, token.2.1, .ofNat token.2.2)

theorem cut_mk (tok : JTokenType) (tokenVal : Bytes) (consumed : Nat) :
    cut (tok, tokenVal, consumed) = (tok, tokenVal, .ofNat consumed) := rfl

/-- The lexer never leaves the text and the NUL after it. -/
theorem eval_getJsonToken (h : At buf p raw) :
    eval buf (getJsonToken buf.length p) = some (cut (JsonRpcServer.getJsonToken raw)) := by
  have hlength := h.length
  unfold getJsonToken JsonRpcServer.getJsonToken
  rw [eval_bind, eval_skip _ h, Option.bind_some]
  have hspace := h.suffix (List.dropWhile_suffix jsonIsspace)
  have hle := (List.dropWhile_suffix (l := raw) jsonIsspace).length_le
  generalize raw.dropWhile jsonIsspace = unread at hspace hle
  cases unread with
  | nil =>
    rw [if_pos (by simp [ptr])]
    rfl
  | cons ch unread =>
    rw [if_neg (by simp [← Nat.not_lt, hspace.lt_iff]), eval_bind, eval_getLexeme hspace,
      Option.bind_some]
    cases hl : JsonRpcServer.getLexeme ch unread with
    | none => simp [hl, cut]
    | some lexeme =>
      have hrest := (getLexeme_suffix hl).length_le
      have hconsumed : ptr buf lexeme.2.2 - p = raw.length - lexeme.2.2.length := by
        simp only [ptr, List.length_cons] at hle ⊢
        omega
      simp [hl, hconsumed, cut]

end

end Pointers

end JsonRpcServer

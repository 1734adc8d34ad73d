import JsonRpcServer.AcceptedText

/-!
# All the texts `read` accepts

Scalars included: `read` accepts the texts of the grammar with accepted literals,
and one more, a minus sign that ends the text, which it takes for a number.
-/
namespace JsonRpcServer

open JsonText Reader UniValue

/-! ## After the first bracket -/

theorem closeContainer_open {st st' : Reader} {utyp : VType} (hu : utyp = .vobj ∨ utyp = .varr)
    (h : st.closeContainer utyp = some st') : st'.stack ≠ [] ∨ Container st'.self := by
  obtain ⟨self, stack, expectMask, lastTok⟩ := st
  cases stack with
  | nil => simp [closeContainer] at h
  | cons top stack =>
    simp only [closeContainer] at h
    split at h
    · cases h
    next hclose =>
      have htyp : utyp = top.typ := by simpa using (not_or.mp hclose).2
      cases stack with
      | nil =>
        obtain rfl := Option.some.inj h
        right
        rcases hu with rfl | rfl <;> simp [Container, isObject, isArray, ← htyp]
      | cons parent stack =>
        obtain rfl := Option.some.inj h
        simp

theorem accept_open {st st' : Reader} {tok : JTokenType} {tokenVal : Bytes}
    (h : st.accept tok tokenVal = some st') (hopen : st.stack ≠ []) :
    st'.stack ≠ [] ∨ Container st'.self := by
  have hput : ∀ v, (st.putValue v).stack ≠ [] := by
    intro v
    cases hs : st.stack with
    | nil => exact absurd hs hopen
    | cons => simp [putValue, hs]
  cases tok with
  | objOpen | arrOpen =>
    obtain rfl := Option.some.inj h
    exact .inl (by simp [openContainer])
  | objClose => exact closeContainer_open (.inl rfl) h
  | arrClose => exact closeContainer_open (.inr rfl) h
  | kwNull | kwTrue | kwFalse | number =>
    obtain rfl := Option.some.inj h
    exact .inl (hput _)
  | colon | comma =>
    left
    cases hs : st.stack with
    | nil => exact absurd hs hopen
    | cons top stack =>
      simp only [accept, hs, Option.ite_none_left_eq_some, Option.some.injEq] at h
      rw [← h.2]
      simp
  | string =>
    left
    simp only [accept] at h
    split at h
    · cases hs : st.stack with
      | nil => exact absurd hs hopen
      | cons top stack =>
        simp only [hs, Option.some.injEq] at h
        rw [← h]
        simp
    · obtain rfl := Option.some.inj h
      exact hput _
  | err | none => cases h

theorem step_open {st st' : Reader} {tok : JTokenType} {tokenVal : Bytes}
    (h : st.step tok tokenVal = some st') (hopen : st.stack ≠ []) :
    st'.stack ≠ [] ∨ Container st'.self := by
  unfold step at h
  obtain ⟨mask, -, h⟩ := Option.bind_eq_some_iff.mp h
  obtain ⟨st₁, haccept, rfl⟩ := Option.map_eq_some_iff.mp h
  have hkept : st₁.stack ≠ [] ∨ Container st₁.self := accept_open haccept hopen
  exact hkept

/-- Once a bracket is open, only a container can come of the text. -/
theorem readLoop_open {st : Reader} {raw : Bytes} {u : UniValue} (hopen : st.stack ≠ [])
    (h : readLoop st raw = (true, u)) : Container u := by
  induction hlen : raw.length using Nat.strong_induction_on generalizing raw st with
  | h n ih =>
    obtain ⟨hend, -⟩ | herr | ⟨w, l, rest, t, rfl, -, -, -, hg⟩ := getJsonToken_sound raw
    · rw [readLoop_stop (.inl hend)] at h
      cases h
    · rw [readLoop_stop (.inr herr)] at h
      cases h
    have hpos := getJsonToken_consumed (w ++ l ++ rest) (by rw [hg]; exact tokenCode_ne_end t)
    have hdrop : (w ++ l ++ rest).drop (w ++ l).length = rest := List.drop_left
    rw [readLoop_token hg (tokenCode_ne_end t), hdrop] at h
    cases hs : st.step (tokenCode literalText t).1 (tokenCode literalText t).2 with
    | none => simp [hs] at h
    | some st' =>
      simp only [hs] at h
      split at h
      next he =>
        obtain ⟨-, rfl⟩ : (getJsonToken rest).1 = .none ∧ st'.self = u := by simpa using h
        exact (step_open hs hopen).resolve_left (by simpa using he)
      next he =>
        refine ih rest.length ?_ (by simpa using he) h rfl
        simp only [hg, List.length_append] at hpos hlen
        omega

/-! ## Scalars -/

/-- The value of a token that is a whole text. -/
def scalarTree : Token (List Piece) → Option (JsonTree (List Piece))
  | .null => some .null
  | .true => some (.bool true)
  | .false => some (.bool false)
  | .number n => some (.number n)
  | .string ps => some (.string ps)
  | _ => none

theorem step_start_scalar {t : Token (List Piece)} {v : JsonTree (List Piece)}
    (h : scalarTree t = some v) :
    start.step (tokenCode literalText t).1 (tokenCode literalText t).2 =
      some ⟨uniTree literalText v, [], 0, (tokenCode literalText t).1⟩ := by
  cases t with
  | null | true | false | number | string =>
    obtain rfl := Option.some.inj h
    simp [step, start, tokenCode, checkToken_start, accept, putValue, uniTree]
  | _ => cases h

theorem step_start_none {t : Token (List Piece)} (h : scalarTree t = none) (ho : t ≠ .objOpen)
    (ha : t ≠ .arrOpen) :
    start.step (tokenCode literalText t).1 (tokenCode literalText t).2 = none := by
  cases t with
  | objOpen => exact absurd rfl ho
  | arrOpen => exact absurd rfl ha
  | objClose | arrClose | colon | comma =>
    simp [step, start, tokenCode, checkToken_start, accept, closeContainer]
  | _ => cases h

theorem derives_scalar {t : Token (List Piece)} {v : JsonTree (List Piece)}
    (h : scalarTree t = some v) : Derives [t] (.value v) ∧ v.strings = t.strings := by
  cases t with
  | null | true | false | number | string =>
    obtain rfl := Option.some.inj h
    exact ⟨by constructor, rfl⟩
  | _ => cases h

theorem scalar_of_derives {ts : List (Token (List Piece))} {v : JsonTree (List Piece)}
    (h : Derives ts (.value v)) (hv : ¬ v.isContainer) : ∃ t, ts = [t] ∧ scalarTree t = some v := by
  cases h with
  | null | true | false | number | string => exact ⟨_, rfl, rfl⟩
  | emptyArray | array | emptyObject | object => exact absurd rfl hv

/-- The loop ends after a scalar. -/
theorem readLoop_scalar {raw rest : Bytes} {consumed : Nat} {t : Token (List Piece)}
    {v : JsonTree (List Piece)} (h : scalarTree t = some v)
    (hg : getJsonToken raw =
      ((tokenCode literalText t).1, (tokenCode literalText t).2, consumed))
    (hrest : raw.drop consumed = rest) :
    read raw = (decide ((getJsonToken rest).1 = .none), uniTree literalText v) := by
  rw [read, readLoop_token hg (tokenCode_ne_end t), step_start_scalar h, hrest]
  rfl

/-! ## The language of `read` -/

/-- A text of the grammar with accepted literals, scalar or not. -/
def AnyText (b : Bytes) (u : UniValue) : Prop :=
  ∃ t, Text b t ∧ (∀ ps ∈ t.strings, Accepted ps) ∧ u = uniTree literalText t

/-- White space and a minus sign. -/
def LoneMinus (b : Bytes) (u : UniValue) : Prop :=
  ∃ w, White w ∧ b = w ++ [0x2d] ∧ u = ofType .vnum [0x2d]

theorem read_loneMinus {w : Bytes} (hw : White w) :
    read (w ++ [0x2d]) = (true, ofType .vnum [0x2d]) := by
  have hg : getJsonToken (w ++ [0x2d]) = (.number, [0x2d], w.length + 1) := by
    rw [getJsonToken, dropWhile_white hw]
    have hd : ([0x2d] : Bytes).dropWhile jsonIsspace = [0x2d] := by decide
    have hl : getLexeme 0x2d [] = some (.number, [0x2d], []) := by decide
    simp only [hd, hl, List.length_append, List.length_cons, List.length_nil, Nat.sub_zero,
      Nat.zero_add]
  have hread := readLoop_scalar (t := .number [0x2d]) (v := .number [0x2d]) rfl hg
    (List.drop_of_length_le (by simp))
  simpa [getJsonToken, uniTree] using hread

theorem read_anyText {b : Bytes} {u : UniValue} (h : AnyText b u) : read b = (true, u) := by
  obtain ⟨v, ⟨ts, hsp, hd⟩, ha, rfl⟩ := h
  by_cases hv : v.isContainer
  · exact ((read_iff b _).mpr ⟨v, ⟨⟨ts, hsp, hd⟩, hv, ha⟩, rfl⟩).1
  · obtain ⟨t, rfl, hs⟩ := scalar_of_derives hd hv
    refine readLoop_complete hsp ?_ (List.isChain_singleton t) ?_
    · rw [List.forall_mem_singleton, ← (derives_scalar hs).2]
      exact ha
    · simp [accepts, step_start_scalar hs]

theorem anyText_of_read {b : Bytes} {u : UniValue} (h : read b = (true, u)) :
    AnyText b u ∨ LoneMinus b u := by
  by_cases hu : Container u
  · obtain ⟨t, ⟨htext, -, ha⟩, rfl⟩ := (read_iff b u).mp ⟨h, hu⟩
    exact .inl ⟨t, htext, ha, rfl⟩
  obtain ⟨hend, -⟩ | herr | ⟨w, l, rest, t, rfl, hw, hl, ha, hg⟩ := getJsonToken_sound b
  · rw [read, readLoop_stop (.inl hend)] at h
    cases h
  · rw [read, readLoop_stop (.inr herr)] at h
    cases h
  have hdrop : (w ++ l ++ rest).drop (w ++ l).length = rest := List.drop_left
  cases hs : scalarTree t with
  | none =>
    have hopens : ∀ st', start.step (tokenCode literalText t).1 (tokenCode literalText t).2 =
        some st' → st'.stack ≠ [] → False := by
      intro st' hst hstack
      rw [read, readLoop_token hg (tokenCode_ne_end t), hst, hdrop] at h
      simp only [List.isEmpty_eq_false_iff.mpr hstack, Bool.false_eq_true, if_false] at h
      exact hu (readLoop_open hstack h)
    by_cases ho : t = .objOpen
    · subst ho
      exact (hopens _ step_start_objOpen (by simp)).elim
    by_cases harr : t = .arrOpen
    · subst harr
      exact (hopens _ step_start_arrOpen (by simp)).elim
    rw [read, readLoop_token hg (tokenCode_ne_end t), step_start_none hs ho harr] at h
    cases h
  | some v =>
    rw [readLoop_scalar hs hg hdrop] at h
    obtain ⟨hend, rfl⟩ : (getJsonToken rest).1 = .none ∧ uniTree literalText v = u := by
      simpa using h
    obtain hl | ⟨rfl, rfl, rfl⟩ := hl
    · obtain ⟨hd, hstrings⟩ := derives_scalar hs
      exact .inl ⟨v, ⟨[t], .cons hw hl (.nil (white_of_end hend)), hd⟩, by rwa [hstrings], rfl⟩
    · obtain rfl := Option.some.inj hs
      exact .inr ⟨w, hw, by simp, rfl⟩

/-- What `read` accepts, and what it makes of it. -/
theorem read_exact (b : Bytes) (u : UniValue) :
    read b = (true, u) ↔ AnyText b u ∨ LoneMinus b u := by
  constructor
  · exact anyText_of_read
  · rintro (htext | ⟨w, hw, rfl, rfl⟩)
    · exact read_anyText htext
    · exact read_loneMinus hw

end JsonRpcServer

import JsonRpcServer.ReaderGrammar

/-!
# The texts `read` accepts

A text is read as an object or an array exactly when it is a JSON text for one
whose string literals the filter accepts, and the value is the tree of the
derivation.
-/
namespace JsonRpcServer

open JsonText Reader

variable {σ : Type} {text : σ → Bytes}

/-! ## A whole sequence of tokens -/

/-- What the server goes on with. -/
def Container (u : UniValue) : Prop := u.isObject ∨ u.isArray

theorem container_uniTree (text : σ → Bytes) (t : JsonTree σ) :
    Container (uniTree text t) ↔ t.isContainer := by
  cases t <;>
    simp [Container, uniTree, JsonTree.isContainer, UniValue.isObject, UniValue.isArray,
      UniValue.ofType, UniValue.null, UniValue.setBool]

/-- A text that does not start with a bracket holds no container. -/
theorem accepts_start_scalar {t : Token σ} {ts : List (Token σ)} {u : UniValue}
    (ho : t ≠ .objOpen) (ha : t ≠ .arrOpen)
    (h : accepts start ((t :: ts).map (tokenCode text)) = some u) : ¬ Container u := by
  cases t with
  | objOpen => exact absurd rfl ho
  | arrOpen => exact absurd rfl ha
  | null | true | false | number | string =>
    simp only [accepts, step, tokenCode, start, checkToken_start, accept, putValue, expect_zero,
      List.map_cons, reduceCtorEq, if_false, Option.bind_some, Option.map_some, List.isEmpty_nil,
      if_true, Bool.false_eq_true, Option.ite_none_right_eq_some, Option.some.injEq] at h
    rw [← h.2]
    simp [Container, UniValue.isObject, UniValue.isArray, UniValue.ofType, UniValue.null,
      UniValue.setBool]
  | objClose | arrClose | colon | comma =>
    simp [accepts, step, tokenCode, start, checkToken_start, accept, closeContainer] at h

theorem accepts_start_sound {ts : List (Token σ)} {u : UniValue} (hu : Container u)
    (h : accepts start (ts.map (tokenCode text)) = some u) :
    ∃ t, Derives ts (.value t) ∧ t.isContainer ∧ u = uniTree text t := by
  cases ts with
  | nil => cases h
  | cons t ts =>
    obtain ⟨-, hitems, hmembers⟩ := phrasesFirst text ts.length
    cases t with
    | arrOpen =>
      have h' : accepts ⟨.null, [arr []], expArrValue, .arrOpen⟩ (ts.map (tokenCode text)) =
          some u := by
        rw [← h, List.map_cons]
        exact (accepts_step step_start_arrOpen (by simp)).symm
      by_cases hc : ts.head? = some .arrClose
      · obtain ⟨rest, rfl⟩ : ∃ rest, ts = .arrClose :: rest := by cases ts <;> simp_all
        obtain ⟨hr, rfl⟩ :=
          (accepts_close_last (.inl rfl) MayEnd.arr rfl (by decide)).mp h'
        rw [List.map_eq_nil_iff.mp hr]
        exact ⟨.array [], .emptyArray, rfl, rfl⟩
      · obtain ⟨us, is, rest, last, rfl, hd, hl, he⟩ := hitems ts _ _ _ _ _ le_rfl hc h'
        obtain ⟨hr, rfl⟩ := (accepts_close_last (.inl rfl) .settled rfl hl.1).mp he
        rw [List.map_eq_nil_iff.mp hr]
        exact ⟨.array is, .array hd, rfl, by simp [uniTree]⟩
    | objOpen =>
      have h' : accepts ⟨.null, [obj [] []], expObjName, .objOpen⟩ (ts.map (tokenCode text)) =
          some u := by
        rw [← h, List.map_cons]
        exact (accepts_step step_start_objOpen (by simp)).symm
      by_cases hc : ts.head? = some .objClose
      · obtain ⟨rest, rfl⟩ : ∃ rest, ts = .objClose :: rest := by cases ts <;> simp_all
        obtain ⟨hr, rfl⟩ :=
          (accepts_close_last (.inr rfl) MayEnd.obj rfl (by decide)).mp h'
        rw [List.map_eq_nil_iff.mp hr]
        exact ⟨.object [], .emptyObject, rfl, rfl⟩
      · obtain ⟨us, ms, rest, last, rfl, hd, hl, he⟩ := hmembers ts _ _ _ _ _ _ le_rfl hc h'
        obtain ⟨hr, rfl⟩ := (accepts_close_last (.inr rfl) .settled rfl hl.1).mp he
        rw [List.map_eq_nil_iff.mp hr]
        exact ⟨.object ms, .object hd, rfl, by simp [uniTree]⟩
    | _ => exact absurd hu (accepts_start_scalar (by simp) (by simp) h)

theorem accepts_start_complete {ts : List (Token σ)} {t : JsonTree σ} (h : Derives ts (.value t))
    (ht : t.isContainer) : accepts start (ts.map (tokenCode text)) = some (uniTree text t) := by
  cases h with
  | emptyArray =>
    exact (accepts_step step_start_arrOpen (by simp)).trans
      ((accepts_close_last (.inl rfl) MayEnd.arr rfl (by decide)).mpr ⟨rfl, rfl⟩)
  | @array ts is hd =>
    obtain ⟨last, hl, he⟩ := runs_derives text hd .null [] [] .arrOpen [(.arrClose, [])]
    calc
      _ = accepts ⟨.null, [arr []], expArrValue, .arrOpen⟩
            (ts.map (tokenCode text) ++ [(.arrClose, [])]) := by
          simpa [tokenCode] using accepts_step step_start_arrOpen (by simp)
      _ = accepts ⟨.null, [arr (uniItems text is)], expNotValue, last⟩
            [(.arrClose, [])] := by simpa using he
      _ = _ := (accepts_close_last (.inl rfl) .settled rfl hl.1).mpr ⟨rfl, rfl⟩
  | emptyObject =>
    exact (accepts_step step_start_objOpen (by simp)).trans
      ((accepts_close_last (.inr rfl) MayEnd.obj rfl (by decide)).mpr ⟨rfl, rfl⟩)
  | @object ts ms hd =>
    obtain ⟨last, hl, he⟩ :=
      runs_derives text hd .null [] [] [] .objOpen [(.objClose, [])]
    calc
      _ = accepts ⟨.null, [obj [] []], expObjName, .objOpen⟩
            (ts.map (tokenCode text) ++ [(.objClose, [])]) := by
          simpa [tokenCode] using accepts_step step_start_objOpen (by simp)
      _ = accepts ⟨.null, [obj (ms.map (fun m => text m.1)) (uniMembers text ms)], expNotValue,
            last⟩ [(.objClose, [])] := by simpa using he
      _ = _ := (accepts_close_last (.inr rfl) .settled rfl hl.1).mpr ⟨rfl, rfl⟩
  | null | true | false | number | string => cases ht

/-! ## From bytes to tokens -/

/-- What starts with another token than a number does not go on with a number. -/
theorem stops_of_spaced {raw : Bytes} {ts : List (Token (List Piece))} (h : Spaced raw ts)
    (hn : ∀ n, ts.head? ≠ some (.number n)) : Stops raw := by
  have white : ∀ {w : Bytes} (r : Bytes), White w → Stops r → Stops (w ++ r) := by
    intro w r hw hr
    cases w with
    | nil => exact hr
    | cons c w =>
      intro c' hc'
      have hsp : isSpace c := hw c (by simp)
      obtain rfl : c = c' := by simpa using hc'
      simp only [isSpace, Bool.or_eq_true, decide_eq_true_eq] at hsp
      obtain ((rfl | rfl) | rfl) | rfl := hsp <;> decide
  cases h with
  | nil hw => simpa using white [] hw (by simp [Stops])
  | @cons w l r t ts hw hl hr =>
    rw [List.append_assoc]
    refine white _ hw ?_
    cases hl with
    | number => simp at hn
    | _ => simp [Stops]; decide

/-- A turn of the loop on a token. -/
theorem readLoop_token {st : Reader} {raw tokenVal : Bytes} {tok : JTokenType} {consumed : Nat}
    (hg : getJsonToken raw = (tok, tokenVal, consumed)) (ht : ¬ (tok = .none ∨ tok = .err)) :
    readLoop st raw =
      match st.step tok tokenVal with
      | none => (false, st.value)
      | some st' =>
        if st'.stack.isEmpty then ((getJsonToken (raw.drop consumed)).1 = .none, st'.self)
        else readLoop st' (raw.drop consumed) := by
  rw [readLoop]
  split
  next tok' tokenVal' consumed' hg' =>
    obtain ⟨rfl, rfl, rfl⟩ : tok' = tok ∧ tokenVal' = tokenVal ∧ consumed' = consumed := by
      simpa [hg'] using hg
    exact (dif_neg ht).trans rfl

/-- Where there is no token the loop gives up. -/
theorem readLoop_stop {st : Reader} {raw : Bytes}
    (ht : (getJsonToken raw).1 = .none ∨ (getJsonToken raw).1 = .err) :
    readLoop st raw = (false, st.value) := by
  rw [readLoop]
  split
  next hg =>
    rw [hg] at ht
    rw [dif_pos ht]

/-- The loop follows the automaton on the tokens of the text. -/
theorem readLoop_complete {raw : Bytes} {ts : List (Token (List Piece))} (h : Spaced raw ts)
    (ha : ∀ t ∈ ts, ∀ ps ∈ t.strings, Accepted ps) (hc : Apart ts) {st : Reader} {u : UniValue}
    (hu : accepts st (ts.map (tokenCode literalText)) = some u) : readLoop st raw = (true, u) := by
  induction h generalizing st with
  | nil => cases hu
  | @cons w l r t ts hw hl hr ih =>
    have hstop : ∀ n, t = .number n → Stops r := by
      rintro n rfl
      refine stops_of_spaced hr (fun m hm => ?_)
      exact (List.isChain_cons.mp hc).1 _ hm ⟨⟨n, rfl⟩, m, rfl⟩
    have hg := getJsonToken_complete hw hl (ha t (by simp)) hstop
    have hdrop : (w ++ l ++ r).drop (w ++ l).length = r := List.drop_left
    rw [readLoop_token hg (tokenCode_ne_end t), hdrop]
    rw [List.map_cons, accepts] at hu
    cases hs : st.step (tokenCode literalText t).1 (tokenCode literalText t).2 with
    | none => simp [hs] at hu
    | some st' =>
      simp only [hs] at hu ⊢
      split at hu
      next he =>
        obtain ⟨hts, rfl⟩ : ts = [] ∧ st'.self = u := by simpa using hu
        subst hts
        obtain ⟨hr⟩ := hr
        simp [he, getJsonToken_white hr]
      next he =>
        rw [if_neg he]
        exact ih (fun t ht => ha t (by simp [ht])) (List.isChain_cons.mp hc).2 hu

/-- A number after which nothing is open is the whole value. -/
theorem step_number {st st' : Reader} {val : Bytes} (h : st.step .number val = some st')
    (hs : st'.stack = []) : st'.self = .ofType .vnum val := by
  obtain ⟨mask, -, rfl⟩ : ∃ mask, checkToken st.expectMask .number = some mask ∧
      { putValue { st with expectMask := mask } (.ofType .vnum val) with lastTok := .number } =
        st' := by
    simpa [step, accept, Option.bind_eq_some_iff] using h
  obtain ⟨self, stack, expectMask, lastTok⟩ := st
  cases stack with
  | nil => rfl
  | cons => simp [putValue] at hs

theorem white_of_end {raw : Bytes} (h : (getJsonToken raw).1 = .none) : White raw := by
  obtain ⟨-, hw⟩ | herr | ⟨w, l, rest, t, -, -, -, -, hg⟩ := getJsonToken_sound raw
  · exact hw
  · simp [h] at herr
  · exact absurd (.inl (by rw [← h, hg])) (tokenCode_ne_end t)

theorem readLoop_sound {st : Reader} {raw : Bytes} {u : UniValue} (hu : Container u)
    (h : readLoop st raw = (true, u)) :
    ∃ ts, Spaced raw ts ∧ (∀ t ∈ ts, ∀ ps ∈ t.strings, Accepted ps) ∧
      accepts st (ts.map (tokenCode literalText)) = some u := by
  induction hlen : raw.length using Nat.strong_induction_on generalizing raw st with
  | h n ih =>
    obtain ⟨hend, -⟩ | herr | ⟨w, l, rest, t, rfl, hw, hl, ha, hg⟩ := getJsonToken_sound raw
    · rw [readLoop_stop (.inl hend)] at h
      cases h
    · rw [readLoop_stop (.inr herr)] at h
      cases h
    have hpos := getJsonToken_consumed (w ++ l ++ rest) (by rw [hg]; exact tokenCode_ne_end t)
    have hdrop : (w ++ l ++ rest).drop (w ++ l).length = rest := List.drop_left
    rw [readLoop_token hg (tokenCode_ne_end t), hdrop] at h
    cases hs : st.step (tokenCode literalText t).1 (tokenCode literalText t).2 with
    | none => simp [hs] at h
    | some st' =>
      simp only [hs] at h
      split at h
      next he =>
        obtain ⟨hend, rfl⟩ : (getJsonToken rest).1 = .none ∧ st'.self = u := by simpa using h
        obtain hl | ⟨rfl, rfl, rfl⟩ := hl
        · refine ⟨[t], .cons hw hl (.nil (white_of_end hend)), by simpa using ha, ?_⟩
          simp [accepts, hs, he]
        · rw [step_number hs (by simpa using he)] at hu
          simp [Container, UniValue.isObject, UniValue.isArray, UniValue.ofType] at hu
      next he =>
        obtain hl | ⟨rfl, rfl, rfl⟩ := hl
        · have hlt : rest.length < n := by
            simp only [hg, List.length_append] at hpos hlen
            omega
          obtain ⟨ts, hsp, hts, hacc⟩ := ih _ hlt h rfl
          refine ⟨t :: ts, .cons hw hl hsp, by simpa using ⟨ha, hts⟩, ?_⟩
          rw [List.map_cons, accepts_step hs (by simpa using he), hacc]
        · rw [readLoop_stop (.inl (by rw [getJsonToken_white (by simp [White])]))] at h
          cases h

/-- The texts of the grammar whose string literals the filter accepts. -/
def AcceptedText (b : Bytes) (t : JsonTree (List Piece)) : Prop :=
  Text b t ∧ t.isContainer ∧ ∀ ps ∈ t.strings, Accepted ps

theorem accepted_tokens {ts : List (Token (List Piece))} {t : JsonTree (List Piece)}
    (h : Derives ts (.value t)) :
    (∀ x ∈ ts, ∀ ps ∈ x.strings, Accepted ps) ↔ ∀ ps ∈ t.strings, Accepted ps := by
  have hs : t.strings = ts.flatMap Token.strings := h.strings
  simp only [hs, List.mem_flatMap]
  exact ⟨fun h ps ⟨x, hx, hp⟩ => h x hx ps hp, fun h x hx ps hp => h ps ⟨x, hx, hp⟩⟩

/-- `read` accepts an object or an array exactly where the grammar does, and builds its tree. -/
theorem read_iff (b : Bytes) (u : UniValue) :
    read b = (true, u) ∧ Container u ↔
      ∃ t, AcceptedText b t ∧ u = uniTree literalText t := by
  constructor
  · rintro ⟨hr, hu⟩
    obtain ⟨ts, hsp, ha, hacc⟩ := readLoop_sound hu hr
    obtain ⟨t, hd, ht, rfl⟩ := accepts_start_sound hu hacc
    exact ⟨t, ⟨⟨ts, hsp, hd⟩, ht, (accepted_tokens hd).mp ha⟩, rfl⟩
  · rintro ⟨t, ⟨⟨ts, hsp, hd⟩, ht, ha⟩, rfl⟩
    refine ⟨?_, (container_uniTree literalText t).mpr ht⟩
    exact readLoop_complete hsp ((accepted_tokens hd).mpr ha) hd.apart
      (accepts_start_complete hd ht)

end JsonRpcServer

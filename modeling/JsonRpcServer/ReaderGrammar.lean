import JsonRpcServer.LexerGrammar
import JsonRpcServer.Reader

/-!
# The reader against the grammar

The mask, the last token and the stack of `UniValue::read` accept exactly the
token sequences that derive a value, and build the tree of the derivation.
-/
namespace JsonRpcServer

open JsonText Reader

variable {σ : Type}

/-! ## The value of a tree -/

mutual
/-- The UniValue of a tree whose strings mean `text`. -/
def uniTree (text : σ → Bytes) : JsonTree σ → UniValue
  | .null => .null
  | .bool b => .setBool b
  | .number n => .ofType .vnum n
  | .string s => .ofType .vstr (text s)
  | .array items => ⟨.varr, [], [], uniItems text items⟩
  | .object members =>
    ⟨.vobj, [], members.map (fun m => text m.1), uniMembers text members⟩

def uniItems (text : σ → Bytes) : List (JsonTree σ) → List UniValue
  | [] => []
  | t :: ts => uniTree text t :: uniItems text ts

def uniMembers (text : σ → Bytes) : List (σ × JsonTree σ) → List UniValue
  | [] => []
  | (_, t) :: ms => uniTree text t :: uniMembers text ms
end

theorem uniItems_eq_map (text : σ → Bytes) (ts : List (JsonTree σ)) :
    uniItems text ts = ts.map (uniTree text) := by
  induction ts with
  | nil => rfl
  | cons t ts ih => rw [uniItems, ih, List.map_cons]

theorem uniMembers_eq_map (text : σ → Bytes) (ms : List (σ × JsonTree σ)) :
    uniMembers text ms = ms.map (fun m => uniTree text m.2) := by
  induction ms with
  | nil => rfl
  | cons m ms ih => rw [uniMembers, ih, List.map_cons]

theorem uniMembers_length (text : σ → Bytes) (ms : List (σ × JsonTree σ)) :
    (uniMembers text ms).length = ms.length := by
  induction ms with
  | nil => rfl
  | cons m ms ih => simp [uniMembers, ih]

/-! ## The automaton -/

/-- The loop of `read` on tokens: the value, if they are accepted and all used up. -/
def accepts : Reader → List (JTokenType × Bytes) → Option UniValue
  | _, [] => none
  | st, t :: ts =>
    match st.step t.1 t.2 with
    | none => none
    | some st' =>
      if st'.stack.isEmpty then if ts.isEmpty then some st'.self else none else accepts st' ts

theorem accepts_step {st st' : Reader} {t : JTokenType × Bytes} {ts : List (JTokenType × Bytes)}
    (h : st.step t.1 t.2 = some st') (hne : st'.stack ≠ []) :
    accepts st (t :: ts) = accepts st' ts := by
  have he : st'.stack.isEmpty = false := by simpa using hne
  simp [accepts, h, he]

theorem accepts_fail {st : Reader} {t : JTokenType × Bytes} {ts : List (JTokenType × Bytes)}
    (h : st.step t.1 t.2 = none) : accepts st (t :: ts) = none := by
  simp [accepts, h]

/-- An array that is being read, and an object that is being read. -/
abbrev arr (vs : List UniValue) : UniValue := ⟨.varr, [], [], vs⟩
abbrev obj (ks : List Bytes) (vs : List UniValue) : UniValue := ⟨.vobj, [], ks, vs⟩

/-- The mask between a member's name and its colon. -/
def expNamed : UInt32 := expColon ||| expNotValue

/-- The two masks under which a value may come inside a container. -/
inductive Awaits : UInt32 → Prop where
  | item : Awaits expArrValue
  | memberValue : Awaits expValue

/-- The last token has completed a value. -/
def Settled (last : JTokenType) : Prop := last ≠ .comma ∧ last ≠ .arrOpen

@[simp] theorem addValue_arr (vs : List UniValue) (v : UniValue) :
    addValue (arr vs) v = arr (vs ++ [v]) := rfl
@[simp] theorem addValue_obj (ks : List Bytes) (vs : List UniValue) (v : UniValue) :
    addValue (obj ks vs) v = obj ks (vs ++ [v]) := rfl

/-! The masks that occur, and the tokens each lets through. -/

@[simp] theorem setExpect_zero (bit : UInt32) : setExpect 0 bit = bit := by simp [setExpect]
@[simp] theorem clearExpect_zero (bit : UInt32) : clearExpect 0 bit = 0 := by simp [clearExpect]
@[simp] theorem expect_zero (bit : UInt32) : expect 0 bit = false := by simp [expect]
@[simp] theorem expect_objName : expect expObjName expObjName = true := by decide
@[simp] theorem clearExpect_objName : clearExpect expObjName expObjName = 0 := by decide
@[simp] theorem setExpect_named : setExpect expColon expNotValue = expNamed := rfl

theorem checkToken_start (tok : JTokenType) :
    checkToken 0 tok = if tok = .colon then none else some 0 := by
  cases tok <;> decide

theorem checkToken_arrValue (tok : JTokenType) :
    checkToken expArrValue tok =
      if isValueOpen tok || tok = .arrClose then some 0 else none := by
  cases tok <;> decide

theorem checkToken_value (tok : JTokenType) :
    checkToken expValue tok = if isValueOpen tok then some 0 else none := by
  cases tok <;> decide

theorem checkToken_objName (tok : JTokenType) :
    checkToken expObjName tok =
      if tok = .objClose || tok = .string then some expObjName else none := by
  cases tok <;> decide

theorem checkToken_named (tok : JTokenType) :
    checkToken expNamed tok = if tok = .colon then some 0 else none := by
  cases tok <;> decide

theorem checkToken_notValue (tok : JTokenType) :
    checkToken expNotValue tok =
      if isValueOpen tok || tok = .colon then none else some 0 := by
  cases tok <;> decide

theorem checkToken_awaits {mask : UInt32} {tok : JTokenType} (h : Awaits mask)
    (ht : isValueOpen tok) : checkToken mask tok = some 0 := by
  cases h with
  | item => simp [checkToken_arrValue, ht]
  | memberValue => simp [checkToken_value, ht]

/-! The steps a derivation takes. -/

section
variable {self top parent : UniValue} {stack vs : List UniValue} {ks : List Bytes}
  {mask : UInt32} {last : JTokenType} {val : Bytes}

/-- A token that is a value by itself. -/
def scalar : JTokenType → Bytes → Option UniValue
  | .kwNull, _ => some .null
  | .kwTrue, _ => some (.setBool true)
  | .kwFalse, _ => some (.setBool false)
  | .number, val => some (.ofType .vnum val)
  | .string, val => some (.ofType .vstr val)
  | _, _ => none

theorem step_scalar {tok : JTokenType} {v : UniValue} (h : Awaits mask)
    (hv : scalar tok val = some v) :
    step ⟨self, top :: stack, mask, last⟩ tok val =
      some ⟨self, addValue top v :: stack, expNotValue, tok⟩ := by
  cases tok <;> simp only [scalar, Option.some.injEq, reduceCtorEq] at hv <;> subst hv <;>
    simp [step, checkToken_awaits h, isValueOpen, jsonTokenIsValue, accept, putValue]

theorem step_arrOpen (h : Awaits mask) :
    step ⟨self, top :: stack, mask, last⟩ .arrOpen val =
      some ⟨self, arr [] :: top :: stack, expArrValue, .arrOpen⟩ := by
  simp [step, checkToken_awaits h, isValueOpen, accept, openContainer, UniValue.ofType]

theorem step_objOpen (h : Awaits mask) :
    step ⟨self, top :: stack, mask, last⟩ .objOpen val =
      some ⟨self, obj [] [] :: top :: stack, expObjName, .objOpen⟩ := by
  simp [step, checkToken_awaits h, isValueOpen, accept, openContainer, UniValue.ofType]

theorem step_start_arrOpen :
    step start .arrOpen val = some ⟨.null, [arr []], expArrValue, .arrOpen⟩ := by
  simp [step, start, checkToken_start, accept, openContainer, UniValue.ofType]

theorem step_start_objOpen :
    step start .objOpen val = some ⟨.null, [obj [] []], expObjName, .objOpen⟩ := by
  simp [step, start, checkToken_start, accept, openContainer, UniValue.ofType]

theorem step_name :
    step ⟨self, obj ks vs :: stack, expObjName, last⟩ .string val =
      some ⟨self, obj (ks ++ [val]) vs :: stack, expNamed, .string⟩ := by
  simp [step, checkToken_objName, accept]

theorem step_colon :
    step ⟨self, obj ks vs :: stack, expNamed, last⟩ .colon val =
      some ⟨self, obj ks vs :: stack, expValue, .colon⟩ := by
  simp [step, checkToken_named, accept]

theorem step_arr_comma (hl : Settled last) :
    step ⟨self, arr vs :: stack, expNotValue, last⟩ .comma val =
      some ⟨self, arr vs :: stack, expArrValue, .comma⟩ := by
  simp [step, checkToken_notValue, isValueOpen, jsonTokenIsValue, accept, hl.1, hl.2]

theorem step_obj_comma (hl : Settled last) :
    step ⟨self, obj ks vs :: stack, expNotValue, last⟩ .comma val =
      some ⟨self, obj ks vs :: stack, expObjName, .comma⟩ := by
  simp [step, checkToken_notValue, isValueOpen, jsonTokenIsValue, accept, hl.1, hl.2]

/-- The masks under which the innermost container may end. -/
inductive MayEnd : VType → UInt32 → Prop where
  | arr : MayEnd .varr expArrValue
  | obj : MayEnd .vobj expObjName
  | settled {utyp : VType} : MayEnd utyp expNotValue

/-- The token that ends a container. -/
def closing (utyp : VType) : JTokenType := if utyp = .vobj then .objClose else .arrClose

theorem step_close {utyp : VType} (hu : utyp = .varr ∨ utyp = .vobj) (hm : MayEnd utyp mask)
    (ht : top.typ = utyp) (hl : last ≠ .comma) :
    step ⟨self, top :: parent :: stack, mask, last⟩ (closing utyp) val =
      some ⟨self, addValue parent top :: stack, expNotValue, closing utyp⟩ := by
  obtain rfl | rfl := hu <;> cases hm <;>
    simp [step, closing, checkToken_arrValue, checkToken_objName, checkToken_notValue,
      isValueOpen, jsonTokenIsValue, accept, closeContainer, ht, hl]

theorem step_close_last {utyp : VType} (hu : utyp = .varr ∨ utyp = .vobj)
    (hm : MayEnd utyp mask) (ht : top.typ = utyp) (hl : last ≠ .comma) :
    step ⟨self, [top], mask, last⟩ (closing utyp) val =
      some ⟨top, [], expNotValue, closing utyp⟩ := by
  obtain rfl | rfl := hu <;> cases hm <;>
    simp [step, closing, checkToken_arrValue, checkToken_objName, checkToken_notValue,
      isValueOpen, jsonTokenIsValue, accept, closeContainer, ht, hl]

end

/-! ## Derivations are accepted -/

/-- What the automaton does on the tokens of a phrase, from where the phrase may come. -/
def Runs (text : σ → Bytes) (ts : List (Token σ)) : Phrase σ → Prop
  | .value v => ∀ self top stack mask last rest, Awaits mask → ∃ last', Settled last' ∧
      accepts ⟨self, top :: stack, mask, last⟩ (ts.map (tokenCode text) ++ rest) =
        accepts ⟨self, addValue top (uniTree text v) :: stack, expNotValue, last'⟩ rest
  | .items is => ∀ self vs stack last rest, ∃ last', Settled last' ∧
      accepts ⟨self, arr vs :: stack, expArrValue, last⟩ (ts.map (tokenCode text) ++ rest) =
        accepts ⟨self, arr (vs ++ uniItems text is) :: stack, expNotValue, last'⟩ rest
  | .members ms => ∀ self ks vs stack last rest, ∃ last', Settled last' ∧
      accepts ⟨self, obj ks vs :: stack, expObjName, last⟩ (ts.map (tokenCode text) ++ rest) =
        accepts ⟨self, obj (ks ++ ms.map (fun m => text m.1)) (vs ++ uniMembers text ms) :: stack,
          expNotValue, last'⟩ rest

theorem runs_scalar {text : σ → Bytes} {t : Token σ} {v : JsonTree σ}
    (h : scalar (tokenCode text t).1 (tokenCode text t).2 = some (uniTree text v))
    (hl : Settled (tokenCode text t).1) : Runs text [t] (.value v) := by
  intro self top stack mask last rest hm
  exact ⟨_, hl, accepts_step (step_scalar hm h) (by simp)⟩

/-- A container's tokens, given what happens between its brackets. -/
theorem accepts_close {self top parent : UniValue} {stack : List UniValue} {mask : UInt32}
    {last : JTokenType} {utyp : VType} {rest : List (JTokenType × Bytes)}
    (hu : utyp = .varr ∨ utyp = .vobj) (hm : MayEnd utyp mask) (ht : top.typ = utyp)
    (hl : last ≠ .comma) :
    accepts ⟨self, top :: parent :: stack, mask, last⟩ ((closing utyp, []) :: rest) =
      accepts ⟨self, addValue parent top :: stack, expNotValue, closing utyp⟩ rest :=
  accepts_step (step_close hu hm ht hl) (by simp)

/-- The bracket that ends the outermost container ends the text. -/
theorem accepts_close_last {self top u : UniValue} {mask : UInt32} {last : JTokenType}
    {utyp : VType} {rest : List (JTokenType × Bytes)} (hu : utyp = .varr ∨ utyp = .vobj)
    (hm : MayEnd utyp mask) (ht : top.typ = utyp) (hl : last ≠ .comma) :
    accepts ⟨self, [top], mask, last⟩ ((closing utyp, []) :: rest) = some u ↔
      rest = [] ∧ u = top := by
  cases rest <;> simp [accepts, step_close_last hu hm ht hl, @eq_comm _ u top]

theorem settled_closing (utyp : VType) : Settled (closing utyp) := by
  cases utyp <;> simp [closing, Settled]

theorem accepts_member {self : UniValue} {ks : List Bytes} {vs stack : List UniValue}
    {last : JTokenType} {key : Bytes} {rest : List (JTokenType × Bytes)} :
    accepts ⟨self, obj ks vs :: stack, expObjName, last⟩
        ((.string, key) :: (.colon, []) :: rest) =
      accepts ⟨self, obj (ks ++ [key]) vs :: stack, expValue, .colon⟩ rest := by
  rw [accepts_step step_name (by simp), accepts_step step_colon (by simp)]

theorem runs_derives (text : σ → Bytes) {ts : List (Token σ)} {p : Phrase σ}
    (h : Derives ts p) : Runs text ts p := by
  induction h with
  | null => exact runs_scalar rfl (by simp [tokenCode, Settled])
  | true => exact runs_scalar rfl (by simp [tokenCode, Settled])
  | false => exact runs_scalar rfl (by simp [tokenCode, Settled])
  | number => exact runs_scalar rfl (by simp [tokenCode, Settled])
  | string => exact runs_scalar rfl (by simp [tokenCode, Settled])
  | emptyArray =>
    intro self top stack mask last rest hm
    refine ⟨_, settled_closing .varr, ?_⟩
    calc
      _ = accepts ⟨self, arr [] :: top :: stack, expArrValue, .arrOpen⟩
            ((.arrClose, []) :: rest) := accepts_step (step_arrOpen hm) (by simp)
      _ = _ := accepts_close (.inl rfl) .arr rfl (by decide)
  | @array ts vs _ ih =>
    intro self top stack mask last rest hm
    obtain ⟨last', hl, hi⟩ := ih self [] (top :: stack) .arrOpen ((.arrClose, []) :: rest)
    refine ⟨_, settled_closing .varr, ?_⟩
    calc
      _ = accepts ⟨self, arr [] :: top :: stack, expArrValue, .arrOpen⟩
            (ts.map (tokenCode text) ++ (.arrClose, []) :: rest) := by
          simpa [tokenCode] using accepts_step (step_arrOpen hm) (by simp)
      _ = accepts ⟨self, arr (uniItems text vs) :: top :: stack, expNotValue, last'⟩
            ((.arrClose, []) :: rest) := by simpa using hi
      _ = _ := accepts_close (.inl rfl) .settled rfl hl.1
  | emptyObject =>
    intro self top stack mask last rest hm
    refine ⟨_, settled_closing .vobj, ?_⟩
    calc
      _ = accepts ⟨self, obj [] [] :: top :: stack, expObjName, .objOpen⟩
            ((.objClose, []) :: rest) := accepts_step (step_objOpen hm) (by simp)
      _ = _ := accepts_close (.inr rfl) .obj rfl (by decide)
  | @object ts ms _ ih =>
    intro self top stack mask last rest hm
    obtain ⟨last', hl, hi⟩ := ih self [] [] (top :: stack) .objOpen ((.objClose, []) :: rest)
    refine ⟨_, settled_closing .vobj, ?_⟩
    calc
      _ = accepts ⟨self, obj [] [] :: top :: stack, expObjName, .objOpen⟩
            (ts.map (tokenCode text) ++ (.objClose, []) :: rest) := by
          simpa [tokenCode] using accepts_step (step_objOpen hm) (by simp)
      _ = accepts ⟨self, obj (ms.map (fun m => text m.1)) (uniMembers text ms) :: top :: stack,
            expNotValue, last'⟩ ((.objClose, []) :: rest) := by simpa using hi
      _ = _ := accepts_close (.inr rfl) .settled rfl hl.1
  | lastItem _ ih =>
    intro self vs stack last rest
    exact ih self (arr vs) stack expArrValue last rest .item
  | @item ts us v vs' _ _ ihv ihi =>
    intro self vs stack last rest
    obtain ⟨last₁, hl₁, h₁⟩ := ihv self (arr vs) stack expArrValue last
      ((.comma, []) :: (us.map (tokenCode text) ++ rest)) .item
    obtain ⟨last₂, hl₂, h₂⟩ := ihi self (vs ++ [uniTree text v]) stack .comma rest
    refine ⟨last₂, hl₂, ?_⟩
    calc
      _ = accepts ⟨self, arr (vs ++ [uniTree text v]) :: stack, expNotValue, last₁⟩
            ((.comma, []) :: (us.map (tokenCode text) ++ rest)) := by
          simpa [tokenCode] using h₁
      _ = accepts ⟨self, arr (vs ++ [uniTree text v]) :: stack, expArrValue, .comma⟩
            (us.map (tokenCode text) ++ rest) := accepts_step (step_arr_comma hl₁) (by simp)
      _ = _ := by simpa [uniItems] using h₂
  | @lastMember ts k v _ ih =>
    intro self ks vs stack last rest
    obtain ⟨last', hl, h⟩ := ih self (obj (ks ++ [text k]) vs) stack expValue .colon rest
      .memberValue
    refine ⟨last', hl, ?_⟩
    calc
      _ = accepts ⟨self, obj (ks ++ [text k]) vs :: stack, expValue, .colon⟩
            (ts.map (tokenCode text) ++ rest) := accepts_member
      _ = _ := by simpa [uniMembers] using h
  | @member ts us k v ms _ _ ihv ihm =>
    intro self ks vs stack last rest
    obtain ⟨last₁, hl₁, h₁⟩ := ihv self (obj (ks ++ [text k]) vs) stack expValue .colon
      ((.comma, []) :: (us.map (tokenCode text) ++ rest)) .memberValue
    obtain ⟨last₂, hl₂, h₂⟩ :=
      ihm self (ks ++ [text k]) (vs ++ [uniTree text v]) stack .comma rest
    refine ⟨last₂, hl₂, ?_⟩
    calc
      _ = accepts ⟨self, obj (ks ++ [text k]) vs :: stack, expValue, .colon⟩
            (ts.map (tokenCode text) ++ (.comma, []) :: (us.map (tokenCode text) ++ rest)) := by
          simpa [tokenCode] using accepts_member
      _ = accepts ⟨self, obj (ks ++ [text k]) (vs ++ [uniTree text v]) :: stack, expNotValue,
            last₁⟩ ((.comma, []) :: (us.map (tokenCode text) ++ rest)) := h₁
      _ = accepts ⟨self, obj (ks ++ [text k]) (vs ++ [uniTree text v]) :: stack, expObjName,
            .comma⟩ (us.map (tokenCode text) ++ rest) :=
          accepts_step (step_obj_comma hl₁) (by simp)
      _ = _ := by simpa [uniMembers] using h₂

/-! ## What is accepted has a derivation

The tokens from a given state on are split into the phrase that has to come there and the rest,
by induction on how many there are. -/

section
variable (text : σ → Bytes) (n : Nat)

/-- Tokens accepted where a value may come start with one. -/
def ValueFirst : Prop :=
  ∀ ts self top stack mask last u, ts.length ≤ n → Awaits mask → ts.head? ≠ some .arrClose →
    accepts ⟨self, top :: stack, mask, last⟩ (ts.map (tokenCode text)) = some u →
    ∃ us v rest last', ts = us ++ rest ∧ Derives us (.value v) ∧ Settled last' ∧
      accepts ⟨self, addValue top (uniTree text v) :: stack, expNotValue, last'⟩
        (rest.map (tokenCode text)) = some u

/-- Tokens accepted inside an array, not at its end, start with its remaining items. -/
def ItemsFirst : Prop :=
  ∀ ts self vs stack last u, ts.length ≤ n → ts.head? ≠ some .arrClose →
    accepts ⟨self, arr vs :: stack, expArrValue, last⟩ (ts.map (tokenCode text)) = some u →
    ∃ us is rest last', ts = us ++ .arrClose :: rest ∧ Derives us (.items is) ∧ Settled last' ∧
      accepts ⟨self, arr (vs ++ uniItems text is) :: stack, expNotValue, last'⟩
        ((closing .varr, []) :: rest.map (tokenCode text)) = some u

/-- Tokens accepted inside an object, not at its end, start with its remaining members. -/
def MembersFirst : Prop :=
  ∀ ts self ks vs stack last u, ts.length ≤ n → ts.head? ≠ some .objClose →
    accepts ⟨self, obj ks vs :: stack, expObjName, last⟩ (ts.map (tokenCode text)) = some u →
    ∃ us ms rest last', ts = us ++ .objClose :: rest ∧ Derives us (.members ms) ∧
      Settled last' ∧
      accepts ⟨self, obj (ks ++ ms.map (fun m => text m.1)) (vs ++ uniMembers text ms) :: stack,
        expNotValue, last'⟩ ((closing .vobj, []) :: rest.map (tokenCode text)) = some u

end

variable {text : σ → Bytes} {n : Nat}

/-- A value that is a single token. -/
theorem first_scalar {t : Token σ} {v : JsonTree σ} {ts : List (Token σ)} {self top u : UniValue}
    {stack : List UniValue} {mask : UInt32} {last : JTokenType} (hm : Awaits mask)
    (hd : Derives [t] (.value v)) (hl : Settled (tokenCode text t).1)
    (hv : scalar (tokenCode text t).1 (tokenCode text t).2 = some (uniTree text v))
    (h : accepts ⟨self, top :: stack, mask, last⟩ ((t :: ts).map (tokenCode text)) = some u) :
    ∃ us v rest last', t :: ts = us ++ rest ∧ Derives us (.value v) ∧ Settled last' ∧
      accepts ⟨self, addValue top (uniTree text v) :: stack, expNotValue, last'⟩
        (rest.map (tokenCode text)) = some u := by
  refine ⟨[t], v, ts, _, rfl, hd, hl, ?_⟩
  rw [← h, List.map_cons, accepts_step (step_scalar hm hv) (by simp)]

theorem valueFirst_succ (hi : ItemsFirst text n) (hm : MembersFirst text n) :
    ValueFirst text (n + 1) := by
  intro ts self top stack mask last u hlen hw hhead h
  have fails : ∀ {t : Token σ} {ts : List (Token σ)},
      checkToken mask (tokenCode text t).1 = none →
      accepts ⟨self, top :: stack, mask, last⟩ ((t :: ts).map (tokenCode text)) ≠ some u := by
    intro t ts hc he
    rw [List.map_cons, accepts_fail (by simp [step, hc])] at he
    cases he
  cases ts with
  | nil => cases h
  | cons t ts =>
    have hlen' : ts.length ≤ n := by simpa using hlen
    cases t with
    | null => exact first_scalar hw .null (by simp [tokenCode, Settled]) rfl h
    | true => exact first_scalar hw .true (by simp [tokenCode, Settled]) rfl h
    | false => exact first_scalar hw .false (by simp [tokenCode, Settled]) rfl h
    | number x => exact first_scalar hw .number (by simp [tokenCode, Settled]) rfl h
    | string s => exact first_scalar hw .string (by simp [tokenCode, Settled]) rfl h
    | arrOpen =>
      have h' : accepts ⟨self, arr [] :: top :: stack, expArrValue, .arrOpen⟩
          (ts.map (tokenCode text)) = some u := by
        rw [← h, List.map_cons]
        exact (accepts_step (step_arrOpen hw) (by simp)).symm
      by_cases hc : ts.head? = some .arrClose
      · obtain ⟨rest, rfl⟩ : ∃ rest, ts = .arrClose :: rest := by
          cases ts <;> simp_all
        refine ⟨[.arrOpen, .arrClose], .array [], rest, _, rfl, .emptyArray,
          settled_closing .varr, ?_⟩
        rw [← h']
        exact (accepts_close (.inl rfl) .arr rfl (by decide)).symm
      · obtain ⟨us, is, rest, last', rfl, hd, hl, he⟩ := hi ts _ _ _ _ _ hlen' hc h'
        refine ⟨.arrOpen :: us ++ [.arrClose], .array is, rest, _, by simp, .array hd,
          settled_closing .varr, ?_⟩
        rw [← he]
        exact (accepts_close (.inl rfl) .settled rfl hl.1).symm
    | objOpen =>
      have h' : accepts ⟨self, obj [] [] :: top :: stack, expObjName, .objOpen⟩
          (ts.map (tokenCode text)) = some u := by
        rw [← h, List.map_cons]
        exact (accepts_step (step_objOpen hw) (by simp)).symm
      by_cases hc : ts.head? = some .objClose
      · obtain ⟨rest, rfl⟩ : ∃ rest, ts = .objClose :: rest := by
          cases ts <;> simp_all
        refine ⟨[.objOpen, .objClose], .object [], rest, _, rfl, .emptyObject,
          settled_closing .vobj, ?_⟩
        rw [← h']
        exact (accepts_close (.inr rfl) .obj rfl (by decide)).symm
      · obtain ⟨us, ms, rest, last', rfl, hd, hl, he⟩ := hm ts _ _ _ _ _ _ hlen' hc h'
        refine ⟨.objOpen :: us ++ [.objClose], .object ms, rest, _, by simp, .object hd,
          settled_closing .vobj, ?_⟩
        rw [← he]
        exact (accepts_close (.inr rfl) .settled rfl hl.1).symm
    | arrClose => exact absurd rfl hhead
    | objClose => exact absurd h (fails (by cases hw <;> simp [tokenCode, checkToken_arrValue,
        checkToken_value, isValueOpen, jsonTokenIsValue]))
    | colon => exact absurd h (fails (by cases hw <;> simp [tokenCode, checkToken_arrValue,
        checkToken_value, isValueOpen, jsonTokenIsValue]))
    | comma => exact absurd h (fails (by cases hw <;> simp [tokenCode, checkToken_arrValue,
        checkToken_value, isValueOpen, jsonTokenIsValue]))

/-- After an item of an array: its end, or a comma and the next item. -/
theorem after_item {self u : UniValue} {vs stack : List UniValue} {last : JTokenType}
    {ts : List (Token σ)} (hl : Settled last)
    (h : accepts ⟨self, arr vs :: stack, expNotValue, last⟩ (ts.map (tokenCode text)) = some u) :
    (∃ rest, ts = .arrClose :: rest) ∨
      ∃ rest, ts = .comma :: rest ∧ rest.head? ≠ some .arrClose ∧
        accepts ⟨self, arr vs :: stack, expArrValue, .comma⟩ (rest.map (tokenCode text)) =
          some u := by
  cases ts with
  | nil => cases h
  | cons t rest =>
    cases t with
    | arrClose => exact .inl ⟨rest, rfl⟩
    | comma =>
      right
      have h' : accepts ⟨self, arr vs :: stack, expArrValue, .comma⟩
          (rest.map (tokenCode text)) = some u := by
        rw [← h, List.map_cons]
        exact (accepts_step (step_arr_comma hl) (by simp)).symm
      refine ⟨rest, rfl, ?_, h'⟩
      intro hc
      obtain ⟨rest', rfl⟩ : ∃ rest', rest = .arrClose :: rest' := by cases rest <;> simp_all
      rw [List.map_cons, accepts_fail] at h'
      · cases h'
      · simp [step, tokenCode, checkToken_arrValue, accept, closeContainer]
    | _ =>
      rw [List.map_cons, accepts_fail] at h
      · cases h
      · simp [step, tokenCode, checkToken_notValue, isValueOpen, jsonTokenIsValue, accept,
          closeContainer]

theorem after_member {self u : UniValue} {ks : List Bytes} {vs stack : List UniValue}
    {last : JTokenType} {ts : List (Token σ)} (hl : Settled last)
    (h : accepts ⟨self, obj ks vs :: stack, expNotValue, last⟩ (ts.map (tokenCode text)) =
      some u) :
    (∃ rest, ts = .objClose :: rest) ∨
      ∃ rest, ts = .comma :: rest ∧ rest.head? ≠ some .objClose ∧
        accepts ⟨self, obj ks vs :: stack, expObjName, .comma⟩ (rest.map (tokenCode text)) =
          some u := by
  cases ts with
  | nil => cases h
  | cons t rest =>
    cases t with
    | objClose => exact .inl ⟨rest, rfl⟩
    | comma =>
      right
      have h' : accepts ⟨self, obj ks vs :: stack, expObjName, .comma⟩
          (rest.map (tokenCode text)) = some u := by
        rw [← h, List.map_cons]
        exact (accepts_step (step_obj_comma hl) (by simp)).symm
      refine ⟨rest, rfl, ?_, h'⟩
      intro hc
      obtain ⟨rest', rfl⟩ : ∃ rest', rest = .objClose :: rest' := by cases rest <;> simp_all
      rw [List.map_cons, accepts_fail] at h'
      · cases h'
      · simp [step, tokenCode, checkToken_objName, accept, closeContainer]
    | _ =>
      rw [List.map_cons, accepts_fail] at h
      · cases h
      · simp [step, tokenCode, checkToken_notValue, isValueOpen, jsonTokenIsValue, accept,
          closeContainer]

theorem itemsFirst_succ (hv : ValueFirst text (n + 1)) (hi : ItemsFirst text n) :
    ItemsFirst text (n + 1) := by
  intro ts self vs stack last u hlen hhead h
  obtain ⟨us, v, rest, last', rfl, hd, hl, h'⟩ := hv ts _ _ _ _ _ _ hlen .item hhead h
  have hpos : 0 < us.length := List.length_pos_iff.mpr hd.ne_nil
  rw [addValue_arr] at h'
  obtain ⟨tl, rfl⟩ | ⟨tl, rfl, hc, h''⟩ := after_item hl h'
  · exact ⟨us, [v], tl, last', rfl, .lastItem hd, hl,
      by simpa [uniItems, closing, tokenCode] using h'⟩
  · have hlen' : tl.length ≤ n := by
      simp only [List.length_append, List.length_cons] at hlen
      omega
    obtain ⟨us', is, tl', last'', rfl, hd', hl', he⟩ := hi tl _ _ _ _ _ hlen' hc h''
    exact ⟨us ++ .comma :: us', v :: is, tl', last'', by simp, .item hd hd', hl',
      by simpa [uniItems] using he⟩

theorem membersFirst_succ (hv : ValueFirst text n) (hm : MembersFirst text n) :
    MembersFirst text (n + 1) := by
  intro ts self ks vs stack last u hlen hhead h
  -- the name and the colon
  obtain ⟨k, ts, rfl⟩ : ∃ k rest, ts = .string k :: rest := by
    cases ts with
    | nil => cases h
    | cons t rest =>
      cases t with
      | string k => exact ⟨k, rest, rfl⟩
      | objClose => exact absurd rfl hhead
      | _ =>
        rw [List.map_cons, accepts_fail] at h
        · cases h
        · simp [step, tokenCode, checkToken_objName]
  rw [List.map_cons] at h
  have hname : accepts ⟨self, obj (ks ++ [text k]) vs :: stack, expNamed, .string⟩
      (ts.map (tokenCode text)) = some u := by
    rw [← h]
    exact (accepts_step step_name (by simp)).symm
  obtain ⟨ts, rfl⟩ : ∃ rest, ts = .colon :: rest := by
    cases ts with
    | nil => cases hname
    | cons t rest =>
      cases t with
      | colon => exact ⟨rest, rfl⟩
      | _ =>
        rw [List.map_cons, accepts_fail] at hname
        · cases hname
        · simp [step, tokenCode, checkToken_named]
  have hval : accepts ⟨self, obj (ks ++ [text k]) vs :: stack, expValue, .colon⟩
      (ts.map (tokenCode text)) = some u := by
    rw [← hname, List.map_cons]
    exact (accepts_step step_colon (by simp)).symm
  -- the value
  have hc : ts.head? ≠ some .arrClose := by
    intro hc
    obtain ⟨rest, rfl⟩ : ∃ rest, ts = .arrClose :: rest := by cases ts <;> simp_all
    rw [List.map_cons, accepts_fail] at hval
    · cases hval
    · simp [step, tokenCode, checkToken_value, isValueOpen, jsonTokenIsValue]
  have hlen₁ : ts.length ≤ n := by
    simp only [List.length_cons] at hlen
    omega
  obtain ⟨us, v, rest, last', rfl, hd, hl, h'⟩ := hv ts _ _ _ _ _ _ hlen₁ .memberValue hc hval
  rw [addValue_obj] at h'
  obtain ⟨tl, rfl⟩ | ⟨tl, rfl, hc, h''⟩ := after_member hl h'
  · exact ⟨.string k :: .colon :: us, [(k, v)], tl, last', by simp, .lastMember hd, hl,
      by simpa [uniMembers, closing, tokenCode] using h'⟩
  · have hlen₂ : tl.length ≤ n := by
      simp only [List.length_append, List.length_cons] at hlen₁
      omega
    obtain ⟨us', ms, tl', last'', rfl, hd', hl', he⟩ := hm tl _ _ _ _ _ _ hlen₂ hc h''
    exact ⟨.string k :: .colon :: us ++ .comma :: us', (k, v) :: ms, tl', last'', by simp,
      .member hd hd', hl', by simpa [uniMembers] using he⟩

theorem phrasesFirst (text : σ → Bytes) (n : Nat) :
    ValueFirst text n ∧ ItemsFirst text n ∧ MembersFirst text n := by
  induction n with
  | zero =>
    refine ⟨?_, ?_, ?_⟩
    · intro ts self top stack mask last u hlen _ _ h
      rw [List.eq_nil_of_length_eq_zero (Nat.le_zero.mp hlen)] at h
      cases h
    · intro ts self vs stack last u hlen _ h
      rw [List.eq_nil_of_length_eq_zero (Nat.le_zero.mp hlen)] at h
      cases h
    · intro ts self ks vs stack last u hlen _ h
      rw [List.eq_nil_of_length_eq_zero (Nat.le_zero.mp hlen)] at h
      cases h
  | succ n ih =>
    obtain ⟨hv, hi, hm⟩ := ih
    have hv' := valueFirst_succ hi hm
    exact ⟨hv', itemsFirst_succ hv' hi, membersFirst_succ hv hm⟩

end JsonRpcServer

import JsonRpcServer.FilterText
import JsonRpcServer.Writing

/-!
# Written values read back

What `write` makes of a value whose strings and numbers `read` could have
produced is a JSON text for it, on one line.
-/
namespace JsonRpcServer

open JsonText UniValue JSONUTF8StringFilter

variable {σ : Type}

/-! ## Strings -/

/-- The strings `read` can produce inside an array or an object. -/
def ReadText (s : Bytes) : Prop := ∃ c ps, Content c ps ∧ Accepted ps ∧ literalText ps = s

/-- How the writer's output for a byte is read. -/
def escapePiece (ch : UInt8) : Piece :=
  if 0x20 ≤ ch ∧ ch ≠ 0x7f ∨ ch ∈ [0x08, 0x09, 0x0a, 0x0c, 0x0d] then .byte ch else .unit ch.toNat

theorem hexValue_hexChar : ∀ n < 16, hexValue (hexChar n) = some n := by decide

theorem content_escape {s : Bytes} {ps : List Piece} (h : Content s ps) (ch : UInt8) :
    Content ((escapes ch).getD [ch] ++ s) (escapePiece ch :: ps) := by
  have short : ∀ e b : UInt8, (e, b) ∈ shortEscapes → ch = b → escapePiece b = .byte b →
      Content (0x5c :: e :: s) (escapePiece ch :: ps) := by
    rintro e b he rfl hp
    exact hp ▸ .short he h
  unfold escapes
  split
  next hc => exact short 0x62 0x08 (by decide) hc (by decide)
  split
  next hc => exact short 0x74 0x09 (by decide) hc (by decide)
  split
  next hc => exact short 0x6e 0x0a (by decide) hc (by decide)
  split
  next hc => exact short 0x66 0x0c (by decide) hc (by decide)
  split
  next hc => exact short 0x72 0x0d (by decide) hc (by decide)
  split
  next hc => exact short 0x22 0x22 (by decide) hc (by decide)
  split
  next hc => exact short 0x5c 0x5c (by decide) hc (by decide)
  split
  next h₁ h₂ h₃ h₄ h₅ h₆ h₇ hctl =>
    have hlt := ch.toNat_lt
    have hp : escapePiece ch =
        .unit (16 * (16 * (16 * 0 + 0) + ch.toNat / 16) + ch.toNat % 16) := by
      have hv : 16 * (16 * (16 * 0 + 0) + ch.toNat / 16) + ch.toNat % 16 = ch.toNat := by omega
      rw [hv]
      refine if_neg ?_
      rintro (⟨hge, hne⟩ | hmem)
      · exact hctl.elim (fun h => UInt8.not_lt.mpr hge h) hne
      · simp [h₁, h₂, h₃, h₄, h₅] at hmem
    rw [hp]
    exact .unicode (by decide) (by decide) (hexValue_hexChar _ (by omega))
      (hexValue_hexChar _ (by omega)) h
  next h₁ h₂ h₃ h₄ h₅ h₆ h₇ hctl =>
    obtain ⟨hge, hne⟩ : 0x20 ≤ ch ∧ ch ≠ 0x7f := by
      rw [not_or, UInt8.not_lt] at hctl
      exact hctl
    have hp : escapePiece ch = .byte ch := if_pos (.inl ⟨hge, hne⟩)
    rw [hp]
    exact .raw hge h₆ h₇ h

theorem content_jsonEscape (s : Bytes) : Content (jsonEscape s) (s.map escapePiece) := by
  induction s with
  | nil => exact .nil
  | cons ch s ih => exact content_escape ih ch

/-! The normal form of what the filter lets out. -/

theorem escapePiece_cases (ch : UInt8) :
    escapePiece ch = .byte ch ∨ escapePiece ch = .unit ch.toNat := by
  unfold escapePiece
  split <;> simp

theorem escapePiece_high {ch : UInt8} (h : 0x80 ≤ ch) : escapePiece ch = .byte ch := by
  refine if_pos (.inl ⟨UInt8.le_trans (by decide) h, ?_⟩)
  rintro rfl
  exact absurd h (by decide)

theorem encodable_ascii {n : Nat} (h : n < 0x80) : Encodable n := by
  unfold Encodable IsHigh IsLow
  omega

theorem decodes_escapePiece {cps : List Nat} (h : ∀ cp ∈ cps, Encodable cp) :
    Decodes 0 ((cps.flatMap encodeCodepoint).map escapePiece) cps := by
  induction cps with
  | nil => exact .nil
  | cons cp cps ih =>
    obtain ⟨hcp, hcps⟩ := List.forall_mem_cons.mp h
    rw [List.flatMap_cons, List.map_append]
    by_cases hlt : cp < 0x80
    · obtain ⟨b, hb, rfl⟩ : ∃ b : UInt8, b < 0x80 ∧ b.toNat = cp :=
        ⟨.ofNat cp, UInt8.lt_iff_toNat_lt.mpr (by rwa [Utf8.toNat_ofNat (by omega)]),
          Utf8.toNat_ofNat (by omega)⟩
      rw [encodeCodepoint_ascii hb]
      obtain hp | hp := escapePiece_cases b
      · simpa [hp] using Decodes.ascii hb (ih hcps)
      · simpa [hp] using Decodes.plain (.escape _) hcp.2.1 hcp.2.2 (ih hcps)
    · have hseq := Utf8.sequence_encode (Nat.le_of_not_lt hlt) hcp.1
      have hbytes : (encodeCodepoint cp).map escapePiece = (Utf8.encode cp).map .byte := by
        rw [encodeCodepoint_eq hcp.1]
        exact List.map_congr_left (fun b hb => escapePiece_high (hseq.ge b hb))
      rw [hbytes]
      exact .plain (.sequence hseq) hcp.2.1 hcp.2.2 (ih hcps)

/-- The strings `read` can produce are the encodings of codepoints. -/
theorem readText_iff (s : Bytes) :
    ReadText s ↔ ∃ cps : List Nat, (∀ cp ∈ cps, Encodable cp) ∧
      s = cps.flatMap encodeCodepoint := by
  constructor
  · rintro ⟨c, ps, hc, ha, rfl⟩
    obtain ⟨cps, hd⟩ := (accepted_iff_decodes ps).mp ha
    exact ⟨cps, hd.encodable (.inl rfl) (fun u => hc.unit_lt), literalText_of_decodes hd⟩
  · rintro ⟨cps, hcps, rfl⟩
    have hd := decodes_escapePiece hcps
    exact ⟨_, _, content_jsonEscape _, (accepted_iff_decodes _).mpr ⟨cps, hd⟩,
      literalText_of_decodes hd⟩

/-- Such a string is written so that it is accepted and means itself. -/
theorem ReadText.escaped {s : Bytes} (h : ReadText s) :
    Accepted (s.map escapePiece) ∧ literalText (s.map escapePiece) = s := by
  obtain ⟨cps, hcps, rfl⟩ := (readText_iff s).mp h
  have hd := decodes_escapePiece hcps
  exact ⟨(accepted_iff_decodes _).mpr ⟨cps, hd⟩, literalText_of_decodes hd⟩

theorem ReadText.append {s t : Bytes} (hs : ReadText s) (ht : ReadText t) : ReadText (s ++ t) := by
  obtain ⟨cps, hcps, rfl⟩ := (readText_iff s).mp hs
  obtain ⟨dps, hdps, rfl⟩ := (readText_iff t).mp ht
  refine (readText_iff _).mpr ⟨cps ++ dps, ?_, by simp⟩
  intro cp hcp
  exact (List.mem_append.mp hcp).elim (hcps cp) (hdps cp)

theorem readText_ascii {s : Bytes} (h : s.all (· < 0x80)) : ReadText s := by
  induction s with
  | nil => exact (readText_iff _).mpr ⟨[], by simp, rfl⟩
  | cons b s ih =>
    obtain ⟨hb, hs⟩ : b < 0x80 ∧ s.all (· < 0x80) := by simpa using h
    have hone : ReadText [b] := (readText_iff _).mpr
      ⟨[b.toNat], by simpa using encodable_ascii (UInt8.lt_iff_toNat_lt.mp hb),
        by simp [encodeCodepoint_ascii hb]⟩
    exact hone.append (ih hs)

/-! ## Values -/

namespace UniValue

mutual
/-- A value without what its type does not show: the text of a null or a container, the spelling
of a boolean, members outside an object. -/
def canon : UniValue → UniValue
  | ⟨typ, val, keys, values⟩ =>
    match typ with
    | .vnull => null
    | .vbool => setBool (val = cstr "1")
    | .vnum => ofType .vnum val
    | .vstr => ofType .vstr val
    | .varr => ⟨.varr, [], [], canonList values⟩
    | .vobj => ⟨.vobj, [], keys, canonList values⟩

def canonList : List UniValue → List UniValue
  | [] => []
  | v :: vs => canon v :: canonList vs
end

/-- Strings and numbers as `read` produces them, and as many keys as values. -/
inductive Readable : UniValue → Prop where
  | null {val : Bytes} {keys : List Bytes} {values : List UniValue} :
      Readable ⟨.vnull, val, keys, values⟩
  | bool {val : Bytes} {keys : List Bytes} {values : List UniValue} :
      Readable ⟨.vbool, val, keys, values⟩
  | number {val : Bytes} {keys : List Bytes} {values : List UniValue} (h : Number val) :
      Readable ⟨.vnum, val, keys, values⟩
  | string {val : Bytes} {keys : List Bytes} {values : List UniValue} (h : ReadText val) :
      Readable ⟨.vstr, val, keys, values⟩
  | array {val : Bytes} {keys : List Bytes} {values : List UniValue}
      (h : ∀ v ∈ values, Readable v) : Readable ⟨.varr, val, keys, values⟩
  | object {val : Bytes} {keys : List Bytes} {values : List UniValue}
      (hlen : keys.length = values.length) (hk : ∀ k ∈ keys, ReadText k)
      (h : ∀ v ∈ values, Readable v) : Readable ⟨.vobj, val, keys, values⟩

end UniValue

/-- `s` is a text of that phrase, with accepted literals and no control character. -/
structure WrittenAs (s : Bytes) (p : Phrase (List Piece)) : Prop where
  text : ∃ ts, Spaced s ts ∧ Derives ts p
  accepted : ∀ ps ∈ p.strings, Accepted ps
  ge : ∀ c ∈ s, 0x20 ≤ c

theorem writtenAs_lexeme {l : Bytes} {t : Token (List Piece)} {v : JsonTree (List Piece)}
    (h : Lexeme l t) (hd : Derives [t] (.value v)) (ha : ∀ ps ∈ v.strings, Accepted ps)
    (hge : ∀ c ∈ l, 0x20 ≤ c) : WrittenAs l (.value v) :=
  ⟨⟨[t], h.spaced, hd⟩, ha, hge⟩

theorem ge_of_all {l : Bytes} (h : l.all (0x20 ≤ ·)) : ∀ c ∈ l, 0x20 ≤ c := by simpa using h

theorem quote_eq (s : Bytes) : quote s = 0x22 :: jsonEscape s ++ [0x22] := rfl

theorem lexeme_quote (s : Bytes) : Lexeme (quote s) (.string (s.map escapePiece)) :=
  .string (content_jsonEscape s)

theorem quote_ge (s : Bytes) : ∀ c ∈ quote s, 0x20 ≤ c := by
  intro c hc
  simp only [quote_eq, List.mem_append, List.mem_cons, List.not_mem_nil, or_false] at hc
  obtain (rfl | hc) | rfl := hc
  · decide
  · exact (content_jsonEscape s).ge c hc
  · decide

theorem cstr_comma : cstr "," = [0x2c] := by decide
theorem cstr_colon : cstr ":" = [0x3a] := by decide
theorem cstr_newline : cstr "\n" = [0x0a] := by decide
theorem cstr_brackets : cstr "[" = [0x5b] ∧ cstr "]" = [0x5d] := by decide
theorem cstr_braces : cstr "\x7b" = [0x7b] ∧ cstr "\x7d" = [0x7d] := by decide

namespace WrittenAs

variable {s r : Bytes} {t : JsonTree (List Piece)} {ts : List (JsonTree (List Piece))}
  {ms : List (List Piece × JsonTree (List Piece))}

theorem lastItem (h : WrittenAs s (.value t)) : WrittenAs s (.items [t]) := by
  obtain ⟨us, hsp, hd⟩ := h.text
  exact ⟨⟨us, hsp, .lastItem hd⟩,
    by simpa [Phrase.strings, JsonTree.itemStrings] using h.accepted, h.ge⟩

theorem item (h : WrittenAs s (.value t)) (hr : WrittenAs r (.items ts)) :
    WrittenAs (s ++ 0x2c :: r) (.items (t :: ts)) := by
  obtain ⟨us, hsp, hd⟩ := h.text
  obtain ⟨us', hsp', hd'⟩ := hr.text
  refine ⟨⟨us ++ .comma :: us', hsp.append (Lexeme.comma.spaced.append hsp'), .item hd hd'⟩, ?_, ?_⟩
  · intro ps hps
    exact (List.mem_append.mp hps).elim (h.accepted ps) (hr.accepted ps)
  · simpa [or_imp, forall_and] using ⟨h.ge, hr.ge⟩

theorem array (h : WrittenAs s (.items ts)) :
    WrittenAs (0x5b :: s ++ [0x5d]) (.value (.array ts)) := by
  obtain ⟨us, hsp, hd⟩ := h.text
  refine ⟨⟨.arrOpen :: us ++ [.arrClose],
    (Lexeme.arrOpen.spaced.append hsp).append Lexeme.arrClose.spaced, .array hd⟩, h.accepted, ?_⟩
  simpa [or_imp, forall_and] using h.ge

theorem lastMember {k : Bytes} (hk : ReadText k) (h : WrittenAs s (.value t)) :
    WrittenAs (quote k ++ 0x3a :: s) (.members [(k.map escapePiece, t)]) := by
  obtain ⟨us, hsp, hd⟩ := h.text
  refine ⟨⟨.string _ :: .colon :: us,
    (lexeme_quote k).spaced.append (Lexeme.colon.spaced.append hsp), .lastMember hd⟩, ?_, ?_⟩
  · simpa [Phrase.strings, JsonTree.memberStrings, hk.escaped.1] using h.accepted
  · simpa [or_imp, forall_and] using ⟨quote_ge k, h.ge⟩

theorem member {k : Bytes} (hk : ReadText k) (h : WrittenAs s (.value t))
    (hr : WrittenAs r (.members ms)) :
    WrittenAs (quote k ++ 0x3a :: s ++ 0x2c :: r) (.members ((k.map escapePiece, t) :: ms)) := by
  obtain ⟨us, hsp, hd⟩ := h.text
  obtain ⟨us', hsp', hd'⟩ := hr.text
  refine ⟨⟨.string _ :: .colon :: us ++ .comma :: us',
    ((lexeme_quote k).spaced.append (Lexeme.colon.spaced.append hsp)).append
      (Lexeme.comma.spaced.append hsp'), .member hd hd'⟩, ?_, ?_⟩
  · intro ps hps
    simp only [Phrase.strings, JsonTree.memberStrings, List.mem_append, List.mem_cons] at hps
    obtain (rfl | hps) | hps := hps
    · exact hk.escaped.1
    · exact h.accepted ps hps
    · exact hr.accepted ps hps
  · simpa [or_imp, forall_and] using ⟨quote_ge k, h.ge, hr.ge⟩

theorem object (h : WrittenAs s (.members ms)) :
    WrittenAs (0x7b :: s ++ [0x7d]) (.value (.object ms)) := by
  obtain ⟨us, hsp, hd⟩ := h.text
  refine ⟨⟨.objOpen :: us ++ [.objClose],
    (Lexeme.objOpen.spaced.append hsp).append Lexeme.objClose.spaced, .object hd⟩, h.accepted, ?_⟩
  simpa [or_imp, forall_and] using h.ge

end WrittenAs

/-- What is shown of every value: its text is one of a tree that stands for the value. -/
def WrittenBack (v : UniValue) : Prop :=
  ∀ i s, write 0 i v = .ok s → ∃ t, WrittenAs s (.value t) ∧ uniTree literalText t = v.canon

theorem writtenAs_items {values : List UniValue} (hne : values ≠ [])
    (h : ∀ v ∈ values, WrittenBack v) {i : Nat} {s : Bytes}
    (hs : writeArray 0 i values = .ok s) :
    ∃ ts, WrittenAs s (.items ts) ∧ uniItems literalText ts = canonList values := by
  induction values generalizing s with
  | nil => exact absurd rfl hne
  | cons v vs ih =>
    rw [writeArray] at hs
    obtain ⟨s₁, h₁, hs₁⟩ := bind_ok_iff.mp hs
    obtain ⟨rest, hrest, hs₂⟩ := bind_ok_iff.mp hs₁
    obtain ⟨t, ht, hv⟩ := h v (by simp) _ _ h₁
    cases vs with
    | nil =>
      cases hrest
      obtain rfl : s₁ = s := by simpa [pretty] using hs₂
      exact ⟨[t], ht.lastItem, by simp [uniItems, canonList, hv]⟩
    | cons w ws =>
      obtain ⟨ts, hts, hvs⟩ := ih (by simp) (fun x hx => h x (by simp [hx])) hrest
      obtain rfl : s₁ ++ 0x2c :: rest = s := by simpa [pretty, cstr_comma] using hs₂
      exact ⟨t :: ts, ht.item hts, by simp [uniItems, canonList, hv, hvs]⟩

theorem writtenAs_members {values : List UniValue} {keys : List Bytes} (hne : keys ≠ [])
    (hlen : keys.length = values.length) (hk : ∀ k ∈ keys, ReadText k)
    (h : ∀ v ∈ values, WrittenBack v) {i size n : Nat} {s : Bytes}
    (hs : writeObject 0 i size n values keys = .ok s) :
    ∃ ms, WrittenAs s (.members ms) ∧ ms.map (fun m => literalText m.1) = keys ∧
      uniMembers literalText ms = canonList values := by
  induction keys generalizing values n s with
  | nil => exact absurd rfl hne
  | cons k ks ih =>
    obtain ⟨v, vs, rfl⟩ : ∃ v vs, values = v :: vs := by cases values <;> simp_all
    obtain ⟨hk₁, hks⟩ := List.forall_mem_cons.mp hk
    rw [writeObject] at hs
    obtain ⟨s₁, h₁, hs₁⟩ := bind_ok_iff.mp hs
    obtain ⟨rest, hrest, hs₂⟩ := bind_ok_iff.mp hs₁
    obtain ⟨t, ht, hv⟩ := h v (by simp) _ _ h₁
    cases ks with
    | nil =>
      obtain rfl : vs = [] := by simpa using hlen
      cases hrest
      obtain rfl : quote k ++ 0x3a :: s₁ = s := by simpa [pretty, cstr_colon] using hs₂
      exact ⟨[(_, t)], ht.lastMember hk₁, by simp [hk₁.escaped.2],
        by simp [uniMembers, canonList, hv]⟩
    | cons k' ks =>
      have hvs : vs ≠ [] := by
        rintro rfl
        simp at hlen
      obtain ⟨ms, hms, hkeys, hvals⟩ :=
        ih (by simp) (by simpa using hlen) hks (fun x hx => h x (by simp [hx])) hrest
      obtain rfl : quote k ++ 0x3a :: s₁ ++ 0x2c :: rest = s := by
        simpa [pretty, hvs, cstr_comma, cstr_colon] using hs₂
      exact ⟨(_, t) :: ms, ht.member hk₁ hms, by simp [hk₁.escaped.2, hkeys],
        by simp [uniMembers, canonList, hv, hvals]⟩

theorem writtenBack {v : UniValue} (h : Readable v) : WrittenBack v := by
  induction h with
  | null =>
    intro i s hs
    cases hs
    exact ⟨.null, writtenAs_lexeme .null .null (by simp [JsonTree.strings]) (ge_of_all (by decide)),
      rfl⟩
  | @bool val =>
    intro i s hs
    by_cases hv : val = cstr "1"
    · obtain rfl : cstr "true" = s := by simpa [write, hv] using hs
      exact ⟨.bool true, writtenAs_lexeme (cstr_true ▸ .true) .true (by simp [JsonTree.strings])
        (ge_of_all (by decide)), by simp [uniTree, canon, hv]⟩
    · obtain rfl : cstr "false" = s := by simpa [write, hv] using hs
      exact ⟨.bool false, writtenAs_lexeme (cstr_false ▸ .false) .false (by simp [JsonTree.strings])
        (ge_of_all (by decide)), by simp [uniTree, canon, hv]⟩
  | @number val _ _ hn =>
    intro i s hs
    cases hs
    exact ⟨.number val, writtenAs_lexeme (.number hn) .number (by simp [JsonTree.strings]) hn.ge, rfl⟩
  | @string val _ _ hv =>
    intro i s hs
    cases hs
    refine ⟨.string _, writtenAs_lexeme (lexeme_quote val) .string ?_ (quote_ge val), ?_⟩
    · simpa [JsonTree.strings] using hv.escaped.1
    · simp [uniTree, canon, hv.escaped.2]
  | @array val keys values _ ih =>
    intro i s hs
    simp only [write] at hs
    obtain ⟨s₁, h₁, hs₁⟩ := bind_ok_iff.mp hs
    obtain rfl : 0x5b :: s₁ ++ [0x5d] = s := by simpa [pretty, cstr_brackets] using hs₁
    by_cases hne : values = []
    · subst hne
      cases h₁
      refine ⟨.array [], ⟨⟨[.arrOpen, .arrClose],
        Lexeme.arrOpen.spaced.append Lexeme.arrClose.spaced, .emptyArray⟩, ?_,
        ge_of_all (by decide)⟩, rfl⟩
      simp [Phrase.strings, JsonTree.strings, JsonTree.itemStrings]
    · obtain ⟨ts, hts, hvs⟩ := writtenAs_items hne ih h₁
      exact ⟨.array ts, hts.array, by simp [uniTree, canon, hvs]⟩
  | @object val keys values hlen hk _ ih =>
    intro i s hs
    simp only [write] at hs
    obtain ⟨s₁, h₁, hs₁⟩ := bind_ok_iff.mp hs
    obtain rfl : 0x7b :: s₁ ++ [0x7d] = s := by simpa [pretty, cstr_braces] using hs₁
    by_cases hne : keys = []
    · subst hne
      obtain rfl : values = [] := by simpa using hlen.symm
      cases h₁
      refine ⟨.object [], ⟨⟨[.objOpen, .objClose],
        Lexeme.objOpen.spaced.append Lexeme.objClose.spaced, .emptyObject⟩, ?_,
        ge_of_all (by decide)⟩, rfl⟩
      simp [Phrase.strings, JsonTree.strings, JsonTree.memberStrings]
    · obtain ⟨ms, hms, hkeys, hvals⟩ := writtenAs_members hne hlen hk ih h₁
      exact ⟨.object ms, hms.object, by simp [uniTree, canon, hkeys, hvals]⟩

theorem UniValue.Readable.writable {v : UniValue} (h : Readable v) : Writable v := by
  induction h with
  | null | bool | number | string => exact .scalar (by simp) (by simp)
  | array _ ih => exact .array ih
  | object hlen _ _ ih => exact .object hlen.le (fun v hv => ih v (List.mem_of_mem_take hv))

/-! ## Values that were read -/

/-- The tokens of a text whose literals are accepted. -/
def ReadToken : Token (List Piece) → Prop
  | .number n => Number n
  | .string ps => ReadText (literalText ps)
  | _ => True

theorem readToken_of_spaced {b : Bytes} {ts : List (Token (List Piece))} (h : Spaced b ts)
    (ha : ∀ x ∈ ts, ∀ ps ∈ x.strings, Accepted ps) : ∀ x ∈ ts, ReadToken x := by
  induction h with
  | nil => simp
  | cons _ hl _ ih =>
    obtain ⟨hx, hts⟩ := List.forall_mem_cons.mp ha
    refine List.forall_mem_cons.mpr ⟨?_, ih hts⟩
    cases hl with
    | number hn => exact hn
    | string hc => exact ⟨_, _, hc, hx _ (by simp [Token.strings]), rfl⟩
    | _ => trivial

/-- What a phrase's values are like when its tokens were read. -/
def ReadPhrase : Phrase (List Piece) → Prop
  | .value t => Readable (uniTree literalText t)
  | .items ts => ∀ v ∈ uniItems literalText ts, Readable v
  | .members ms => (∀ m ∈ ms, ReadText (literalText m.1)) ∧
      ∀ v ∈ uniMembers literalText ms, Readable v

theorem readPhrase_of_derives {ts : List (Token (List Piece))} {p : Phrase (List Piece)}
    (h : Derives ts p) (ht : ∀ x ∈ ts, ReadToken x) : ReadPhrase p := by
  induction h with
  | null => exact .null
  | true | false => exact .bool
  | @number n => exact .number (ht (.number n) (by simp))
  | @string ps => exact .string (ht (.string ps) (by simp))
  | emptyArray => exact .array (by simp [uniItems])
  | array _ ih => exact .array (ih (fun x hx => ht x (by simp [hx])))
  | emptyObject => exact .object (by simp [uniMembers]) (by simp) (by simp [uniMembers])
  | object _ ih =>
    obtain ⟨hk, hv⟩ := ih (fun x hx => ht x (by simp [hx]))
    exact .object (by simp [uniMembers_length]) (List.forall_mem_map.mpr hk) hv
  | lastItem _ ih => simpa [ReadPhrase, uniItems] using ih ht
  | item _ _ ih₁ ih₂ =>
    have h₁ := ih₁ (fun x hx => ht x (by simp [hx]))
    have h₂ := ih₂ (fun x hx => ht x (by simp [hx]))
    simpa [ReadPhrase, uniItems] using ⟨h₁, h₂⟩
  | @lastMember ts k v _ ih =>
    have hv := ih (fun x hx => ht x (by simp [hx]))
    have hk : ReadToken (.string k) := ht _ (by simp)
    simpa [ReadPhrase, uniMembers] using ⟨hk, hv⟩
  | @member ts us k v ms _ _ ih₁ ih₂ =>
    have h₁ := ih₁ (fun x hx => ht x (by simp [hx]))
    have h₂ := ih₂ (fun x hx => ht x (by simp [hx]))
    have hk : ReadToken (.string k) := ht _ (by simp)
    exact ⟨List.forall_mem_cons.mpr ⟨hk, h₂.1⟩, List.forall_mem_cons.mpr ⟨h₁, h₂.2⟩⟩

theorem readable_read {b : Bytes} {u : UniValue} (h : read b = (true, u)) (hu : Container u) :
    Readable u := by
  obtain ⟨t, ⟨⟨ts, hsp, hd⟩, -, ha⟩, rfl⟩ := (read_iff b u).mp ⟨h, hu⟩
  exact readPhrase_of_derives hd (readToken_of_spaced hsp ((accepted_tokens hd).mpr ha))

theorem canonList_eq_map (vs : List UniValue) : canonList vs = vs.map canon := by
  induction vs with
  | nil => rfl
  | cons v vs ih => simp [canonList, ih]

mutual
theorem canon_uniTree (text : σ → Bytes) : (t : JsonTree σ) → (uniTree text t).canon = uniTree text t
  | .null | .number _ | .string _ => rfl
  | .bool b => by cases b <;> rfl
  | .array items => by simp [uniTree, canon, canonList_uniItems text items]
  | .object members => by simp [uniTree, canon, canonList_uniMembers text members]

theorem canonList_uniItems (text : σ → Bytes) :
    (ts : List (JsonTree σ)) → canonList (uniItems text ts) = uniItems text ts
  | [] => rfl
  | t :: ts => by
    simp [uniItems, canonList, canon_uniTree text t, canonList_uniItems text ts]

theorem canonList_uniMembers (text : σ → Bytes) :
    (ms : List (σ × JsonTree σ)) → canonList (uniMembers text ms) = uniMembers text ms
  | [] => rfl
  | (_, t) :: ms => by
    simp [uniMembers, canonList, canon_uniTree text t, canonList_uniMembers text ms]
end

theorem canon_read {b : Bytes} {u : UniValue} (h : read b = (true, u)) (hu : Container u) :
    u.canon = u := by
  obtain ⟨t, -, rfl⟩ := (read_iff b u).mp ⟨h, hu⟩
  exact canon_uniTree literalText t

/-! ## There and back -/

theorem container_canon {v : UniValue} (h : Container v) : Container v.canon := by
  obtain ⟨typ, val, keys, values⟩ := v
  cases typ <;> simp_all [Container, isObject, isArray, canon]

/-- A container that was written is read back, up to what its type does not show. -/
theorem read_written {v : UniValue} (h : Readable v) (hc : Container v) {s : Bytes}
    (hs : write 0 0 v = .ok s) :
    read (s ++ cstr "\n") = (true, v.canon) ∧ ∀ c ∈ s, 0x20 ≤ c := by
  obtain ⟨t, ⟨⟨ts, hsp, hd⟩, ha, hge⟩, hv⟩ := writtenBack h 0 s hs
  have hnl : Spaced (cstr "\n") [] := .nil (by rw [cstr_newline]; simp [White]; decide)
  have ht : t.isContainer := by
    rw [← container_uniTree literalText, hv]
    exact container_canon hc
  have htext : AcceptedText (s ++ cstr "\n") t :=
    ⟨⟨ts, by simpa using hsp.append hnl, hd⟩, ht, ha⟩
  exact ⟨((read_iff _ _).mpr ⟨t, htext, hv.symm⟩).1, hge⟩

end JsonRpcServer

import JsonRpcServer.Reception

/-!
# What string literals denote

The text of a literal by its Unicode meaning, against what the filter makes of
it.
-/
namespace JsonRpcServer

open JsonText JSONUTF8StringFilter

/-! ## Unicode texts -/

/-- The halves of the surrogate pair of a character above `U+FFFF`. -/
def highHalf (c : Char) : Nat := 0xD800 + (c.toNat - 0x10000) / 0x400
def lowHalf (c : Char) : Nat := 0xDC00 + (c.toNat - 0x10000) % 0x400

/-- The text a literal stands for: each character raw or by its short escape, which come as the
same bytes, by a `\uXXXX` escape, or by two for a surrogate pair. -/
inductive Denotes : List Piece → List Char → Prop where
  | nil : Denotes [] []
  | raw (c : Char) {ps : List Piece} {cs : List Char} (h : Denotes ps cs) :
      Denotes ((String.utf8EncodeChar c).map .byte ++ ps) (c :: cs)
  | escape {c : Char} {ps : List Piece} {cs : List Char} (hc : c.toNat < 0x10000)
      (h : Denotes ps cs) : Denotes (.unit c.toNat :: ps) (c :: cs)
  | pair {c : Char} {ps : List Piece} {cs : List Char} (hc : 0x10000 ≤ c.toNat)
      (h : Denotes ps cs) : Denotes (.unit (highHalf c) :: .unit (lowHalf c) :: ps) (c :: cs)

def utf8 (cs : List Char) : Bytes := cs.flatMap String.utf8EncodeChar

/-- Every surrogate pair among the escapes is of a plane with an odd number. -/
def OddPlanes (ps : List Piece) : Prop :=
  ∀ u, .unit u ∈ ps → IsHigh u → (u - 0xD800) / 64 % 2 = 0

theorem char_valid (c : Char) : ¬ IsHigh c.toNat ∧ ¬ IsLow c.toNat ∧ c.toNat < 0x110000 := by
  unfold IsHigh IsLow
  have hv : c.toNat < 0xD800 ∨ 0xDFFF < c.toNat ∧ c.toNat < 0x110000 := c.valid
  omega

theorem halves {c : Char} (hc : 0x10000 ≤ c.toNat) : IsHigh (highHalf c) ∧ IsLow (lowHalf c) := by
  have hv := (char_valid c).2.2
  unfold IsHigh IsLow highHalf lowHalf
  omega

/-- A pair comes out as its character, or as the one a plane below if bit 16 was set already. -/
theorem collate_halves {c : Char} (hc : 0x10000 ≤ c.toNat) :
    ∃ d : Char, collate (highHalf c) (lowHalf c) = d.toNat ∧ 0x10000 ≤ d.toNat ∧
      (d = c ↔ (highHalf c - 0xD800) / 64 % 2 = 0) := by
  have hv := (char_valid c).2.2
  have hx : (c.toNat - 0x10000) / 0x400 < 0x400 := by omega
  have hy : (c.toNat - 0x10000) % 0x400 < 0x400 := by omega
  have hcollate : collate (highHalf c) (lowHalf c) = _ := collate_eq hx hy
  have hbit : highHalf c - 0xD800 = (c.toNat - 0x10000) / 0x400 := Nat.add_sub_cancel_left _ _
  rw [hcollate, hbit]
  by_cases h : (c.toNat - 0x10000) / 0x400 / 64 % 2 = 0
  · rw [if_pos h]
    exact ⟨c, by omega, hc, iff_of_true rfl h⟩
  · rw [if_neg h]
    have hvalid : (c.toNat - 0x10000).isValidChar := by
      unfold Nat.isValidChar
      omega
    obtain ⟨d, hd⟩ : ∃ d : Char, d.toNat = c.toNat - 0x10000 := ⟨.ofNatAux _ hvalid, rfl⟩
    refine ⟨d, by omega, by omega, iff_of_false (fun hc' => ?_) h⟩
    have hsame := congrArg Char.toNat hc'
    omega

theorem codeUnit_char (c : Char) (hc : 0x80 ≤ c.toNat) :
    CodeUnit ((String.utf8EncodeChar c).map .byte) c.toNat := by
  have hv := (char_valid c).2.2
  rw [← Utf8.encode_char]
  exact .sequence (Utf8.sequence_encode hc (by omega))

/-- A text that goes beyond plane 0. -/
def Supplementary (cs : List Char) : Prop := ∃ c ∈ cs, 0x10000 ≤ c.toNat

theorem Supplementary.cons {cs : List Char} (h : Supplementary cs) (c : Char) :
    Supplementary (c :: cs) := by
  obtain ⟨d, hd, hle⟩ := h
  exact ⟨d, .tail c hd, hle⟩

theorem same_or_cons {ds cs : List Char} (h : ds = cs ∨ Supplementary ds ∧ Supplementary cs)
    (c : Char) : c :: ds = c :: cs ∨ Supplementary (c :: ds) ∧ Supplementary (c :: cs) :=
  h.imp (congrArg _) (And.imp (·.cons c) (·.cons c))

/-- What the filter makes of a well-formed literal: the characters it stands for, except for those
in planes with even numbers that are written as a pair. -/
theorem decodes_of_denotes {ps : List Piece} {cs : List Char} (h : Denotes ps cs) :
    ∃ ds : List Char, Decodes 0 ps (ds.map Char.toNat) ∧ (ds = cs ↔ OddPlanes ps) ∧
      (ds = cs ∨ Supplementary ds ∧ Supplementary cs) := by
  induction h with
  | nil => exact ⟨[], .nil, by simp [OddPlanes], .inl rfl⟩
  | @raw c ps cs _ ih =>
    obtain ⟨ds, hd, hiff, hor⟩ := ih
    obtain ⟨hh, hl, -⟩ := char_valid c
    refine ⟨c :: ds, ?_, by simp [hiff, OddPlanes], same_or_cons hor c⟩
    by_cases hc : c.toNat < 0x80
    · obtain ⟨b, hb, hbc⟩ : ∃ b : UInt8, String.utf8EncodeChar c = [b] ∧ b.toNat = c.toNat := by
        refine ⟨.ofNat c.toNat, ?_, Utf8.toNat_ofNat (by omega)⟩
        rw [← Utf8.encode_char, Utf8.encode, if_pos (by omega)]
      rw [hb, List.map_cons (f := Char.toNat), ← hbc]
      exact .ascii (UInt8.lt_iff_toNat_lt.mpr (by rw [hbc]; exact hc)) hd
    · exact .plain (codeUnit_char c (Nat.le_of_not_lt hc)) hh hl hd
  | @escape c ps cs hc _ ih =>
    obtain ⟨ds, hd, hiff, hor⟩ := ih
    obtain ⟨hh, hl, -⟩ := char_valid c
    exact ⟨c :: ds, .plain (.escape _) hh hl hd, by simp [hiff, OddPlanes, hh],
      same_or_cons hor c⟩
  | @pair c ps cs hc _ ih =>
    obtain ⟨ds, hd, hiff, -⟩ := ih
    obtain ⟨hh, hl⟩ := halves hc
    obtain ⟨d, hcollate, hle, hsame⟩ := collate_halves hc
    have hnonzero : highHalf c ≠ 0 := by
      have hle := hh.1
      omega
    have hlow : ¬ IsHigh (lowHalf c) := by
      unfold IsHigh
      unfold IsLow at hl
      omega
    refine ⟨d :: ds, ?_, by simp [hiff, OddPlanes, hsame, hh, hlow],
      .inr ⟨⟨d, .head ds, hle⟩, ⟨c, .head _, hc⟩⟩⟩
    rw [List.map_cons, ← hcollate]
    exact .high (.escape _) hh (.low (.escape _) hnonzero hl hd)

theorem flatMap_encodeCodepoint (cs : List Char) :
    (cs.map Char.toNat).flatMap encodeCodepoint = utf8 cs := by
  have hchar : ∀ c : Char, encodeCodepoint c.toNat = String.utf8EncodeChar c := by
    intro c
    have hv := (char_valid c).2.2
    rw [encodeCodepoint_eq (by omega), Utf8.encode_char]
  rw [List.flatMap_map, utf8]
  simp only [hchar]

/-- A well-formed literal is accepted, and its text comes out right exactly when no pair is of an
even plane. -/
theorem literalText_of_denotes {ps : List Piece} {cs : List Char} (h : Denotes ps cs) :
    Accepted ps ∧ (literalText ps = utf8 cs ↔ OddPlanes ps) := by
  obtain ⟨ds, hd, hiff, -⟩ := decodes_of_denotes h
  refine ⟨(accepted_iff_decodes ps).mpr ⟨_, hd⟩, ?_⟩
  rw [literalText_of_decodes hd, flatMap_encodeCodepoint, ← hiff]
  exact ⟨Utf8.utf8_injective, congrArg utf8⟩

theorem Supplementary.utf8_ne {cs : List Char} (h : Supplementary cs) {name : Bytes}
    (hname : name.all (· < 0x80)) : utf8 cs ≠ name := by
  rintro rfl
  obtain ⟨c, hc, hle⟩ := h
  obtain ⟨b, bs, hbytes⟩ := List.exists_cons_of_ne_nil (String.utf8EncodeChar_ne_nil (c := c))
  have hb : b ∈ String.utf8EncodeChar c := by simp [hbytes]
  have hlt : b < 0x80 := by
    have hmem : b ∈ utf8 cs := List.mem_flatMap.mpr ⟨c, hc, hb⟩
    exact of_decide_eq_true (List.all_eq_true.mp hname b hmem)
  have hsequence := Utf8.sequence_encode (show 0x80 ≤ c.toNat by omega)
    (by have hv := (char_valid c).2.2; omega)
  rw [Utf8.encode_char] at hsequence
  exact absurd hlt (UInt8.not_lt.mpr (hsequence.ge b hb))

/-- Whether a literal is an ASCII name does not depend on its surrogate pairs. -/
theorem literalText_eq_name {ps : List Piece} {cs : List Char} (h : Denotes ps cs) {name : Bytes}
    (hname : name.all (· < 0x80)) : literalText ps = name ↔ utf8 cs = name := by
  obtain ⟨ds, hd, -, hor⟩ := decodes_of_denotes h
  rw [literalText_of_decodes hd, flatMap_encodeCodepoint]
  obtain rfl | ⟨hds, hcs⟩ := hor
  · rfl
  · exact iff_of_false (hds.utf8_ne hname) (hcs.utf8_ne hname)

/-! ## Single literals -/

theorem content_plain {s : Bytes} (h : s.all (fun c => 0x20 ≤ c ∧ c ≠ 0x22 ∧ c ≠ 0x5c)) :
    Content s (s.map .byte) := by
  induction s with
  | nil => exact .nil
  | cons c s ih =>
    rw [List.all_cons, Bool.and_eq_true] at h
    obtain ⟨hge, hq, hb⟩ := of_decide_eq_true h.1
    exact .raw hge hq hb (ih h.2)

def methodPieces : List Piece := (cstr "method").map .byte

/-- A request for the method of a literal. -/
def methodBody (s : Bytes) : Bytes :=
  cstr "\x7b\"method\":" ++ (0x22 :: s ++ [0x22]) ++ cstr "\x7d"

def methodTree (ps : List Piece) : JsonTree (List Piece) := .object [(methodPieces, .string ps)]

theorem text_methodBody {s : Bytes} {ps : List Piece} (h : Content s ps) :
    Text (methodBody s) (methodTree ps) := by
  have hmethod : Content (cstr "method") methodPieces := content_plain (by decide)
  have hsplit : cstr "\x7b\"method\":" = [0x7b] ++ (0x22 :: cstr "method" ++ [0x22]) ++ [0x3a] := by
    decide
  refine ⟨[.objOpen, .string methodPieces, .colon, .string ps, .objClose], ?_,
    .object (.lastMember .string)⟩
  rw [methodBody, hsplit, cstr_braces.2]
  exact (((Lexeme.objOpen.spaced.append (Lexeme.string hmethod).spaced).append
    Lexeme.colon.spaced).append (Lexeme.string h).spaced).append Lexeme.objClose.spaced

/-! ## Ill-formed literals -/

/-- The bytes are UTF-8, and every surrogate half among the escapes is next to its other half. -/
def WellFormed (ps : List Piece) : Prop := ∃ cs, Denotes ps cs

/-- What the filter lets through, `isOpen` telling whether a surrogate pair is open: multi-byte
sequences by the ranges of their lead bytes alone, surrogate halves in either spelling, and ASCII
between the halves of a pair. -/
inductive Loose : Bool → List Piece → Prop where
  | nil : Loose false []
  | ascii {isOpen : Bool} {b : UInt8} {ps : List Piece} (hb : b < 0x80) (h : Loose isOpen ps) :
      Loose isOpen (.byte b :: ps)
  | plain {us ps : List Piece} {v : Nat} (hu : CodeUnit us v) (hh : ¬ IsHigh v) (hl : ¬ IsLow v)
      (h : Loose false ps) : Loose false (us ++ ps)
  | high {us ps : List Piece} {v : Nat} (hu : CodeUnit us v) (hh : IsHigh v) (h : Loose true ps) :
      Loose false (us ++ ps)
  | low {us ps : List Piece} {v : Nat} (hu : CodeUnit us v) (hl : IsLow v) (h : Loose false ps) :
      Loose true (us ++ ps)

theorem loose_of_decodes {pending : Nat} {ps : List Piece} {cps : List Nat}
    (h : Decodes pending ps cps) : Loose (pending ≠ 0) ps := by
  induction h with
  | nil => exact .nil
  | ascii hb _ ih => exact .ascii hb ih
  | plain hu hh hl _ ih => exact .plain hu hh hl ih
  | high hu hh _ ih =>
    have hle := hh.1
    rw [decide_eq_true (by omega)] at ih
    exact .high hu hh ih
  | low hu hp hl _ ih =>
    rw [decide_eq_true hp]
    exact .low hu hl ih

theorem decodes_of_loose {isOpen : Bool} {ps : List Piece} (h : Loose isOpen ps) {pending : Nat}
    (hp : isOpen = decide (pending ≠ 0)) (hh : pending = 0 ∨ IsHigh pending) :
    ∃ cps, Decodes pending ps cps := by
  induction h generalizing pending with
  | nil =>
    obtain rfl : pending = 0 := by simpa using hp
    exact ⟨[], .nil⟩
  | ascii hb _ ih =>
    obtain ⟨cps, hd⟩ := ih hp hh
    exact ⟨_, .ascii hb hd⟩
  | plain hu hnh hnl _ ih =>
    obtain rfl : pending = 0 := by simpa using hp
    obtain ⟨cps, hd⟩ := ih rfl (.inl rfl)
    exact ⟨_, .plain hu hnh hnl hd⟩
  | @high us ps v hu hv _ ih =>
    obtain rfl : pending = 0 := by simpa using hp
    have hle := hv.1
    have hopen : true = decide (v ≠ 0) := (decide_eq_true (by omega)).symm
    obtain ⟨cps, hd⟩ := ih hopen (.inr hv)
    exact ⟨_, .high hu hv hd⟩
  | low hu hl _ ih =>
    have hne : pending ≠ 0 := by simpa using hp.symm
    obtain ⟨cps, hd⟩ := ih rfl (.inl rfl)
    exact ⟨_, .low hu hne hl hd⟩

theorem accepted_iff_loose (ps : List Piece) : Accepted ps ↔ Loose false ps := by
  rw [accepted_iff_decodes]
  constructor
  · rintro ⟨cps, hd⟩
    exact loose_of_decodes hd
  · exact fun h => decodes_of_loose h rfl (.inl rfl)

/-! ## Refusal -/

theorem getJsonToken_refused {w s rest : Bytes} {ps : List Piece} (hw : White w)
    (hc : Content s ps) (ha : ¬ Accepted ps) :
    (getJsonToken (w ++ (0x22 :: s ++ [0x22]) ++ rest)).1 = .err := by
  have hd : (w ++ (0x22 :: s ++ [0x22]) ++ rest).dropWhile jsonIsspace =
      0x22 :: (s ++ 0x22 :: rest) := by
    rw [List.append_assoc, dropWhile_white hw, List.cons_append, List.cons_append,
      List.append_assoc]
    exact List.dropWhile_cons_of_neg (by decide)
  have hfinalize : (JSONUTF8StringFilter.new.feed ps).finalize = false := by
    simpa [Accepted] using ha
  have hp : punctuation 0x22 = none := by decide
  rw [getJsonToken, hd]
  simp [getLexeme, hp, jsonIsdigit, getString_complete hc .new rest, hfinalize]

theorem lexeme_not_white {l : Bytes} {t : Token (List Piece)} (h : Lexeme l t) : ¬ White l := by
  intro hw
  cases h with
  | number hn =>
    obtain ⟨first, tl, rfl, hf, -⟩ := getNumber_complete hn (r := []) (by simp [Stops])
    have hsp : isSpace first := hw first (by simp)
    simp only [isSpace, Bool.or_eq_true, decide_eq_true_eq] at hsp
    obtain ((rfl | rfl) | rfl) | rfl := hsp <;> exact absurd hf (by decide)
  | string => exact absurd (hw 0x22 (by simp)) (by decide)
  | _ => simp [White, isSpace] at hw

/-- A text with a literal that the filter refuses is not read. -/
theorem readLoop_refused {raw : Bytes} {ts : List (Token (List Piece))} (h : Spaced raw ts)
    (hc : Apart ts) (hbad : ∃ t ∈ ts, ∃ ps ∈ t.strings, ¬ Accepted ps) (st : Reader) :
    (readLoop st raw).1 = false := by
  induction h generalizing st with
  | nil => simp at hbad
  | @cons w l r t ts hw hl hr ih =>
    by_cases ha : ∀ ps ∈ t.strings, Accepted ps
    · have hrest : ∃ t ∈ ts, ∃ ps ∈ t.strings, ¬ Accepted ps := by
        obtain ⟨t', ht', ps, hps, hn⟩ := hbad
        obtain rfl | ht' := List.mem_cons.mp ht'
        · exact absurd (ha ps hps) hn
        · exact ⟨t', ht', ps, hps, hn⟩
      have hstop : ∀ n, t = .number n → Stops r := by
        rintro n rfl
        refine stops_of_spaced hr (fun m hm => ?_)
        exact (List.isChain_cons.mp hc).1 _ hm ⟨⟨n, rfl⟩, m, rfl⟩
      have hg := getJsonToken_complete hw hl ha hstop
      have hdrop : (w ++ l ++ r).drop (w ++ l).length = r := List.drop_left
      rw [readLoop_token hg (tokenCode_ne_end t), hdrop]
      cases st.step (tokenCode literalText t).1 (tokenCode literalText t).2 with
      | none => rfl
      | some st' =>
        simp only
        split
        · refine decide_eq_false (fun hend => ?_)
          have hwhite := white_of_end hend
          obtain ⟨t', ht', -⟩ := hrest
          cases hr with
          | nil => cases ht'
          | cons _ hl' _ =>
            exact lexeme_not_white hl' (fun c hc => hwhite c (by simp [hc]))
        · exact ih (List.isChain_cons.mp hc).2 hrest st'
    · push Not at ha
      obtain ⟨ps, hps, hn⟩ := ha
      cases hl with
      | string hcontent =>
        obtain rfl : ps = _ := by simpa [Token.strings] using hps
        rw [readLoop_stop (.inr (getJsonToken_refused hw hcontent hn))]
      | _ => simp [Token.strings] at hps

theorem read_refused {b : Bytes} {t : JsonTree (List Piece)} (ht : Text b t)
    (hbad : ∃ ps ∈ t.strings, ¬ Accepted ps) : (read b).1 = false := by
  obtain ⟨ts, hsp, hd⟩ := ht
  refine readLoop_refused hsp hd.apart ?_ _
  by_contra hgood
  push Not at hgood
  obtain ⟨ps, hps, hn⟩ := hbad
  exact hn ((accepted_tokens hd).mp hgood ps hps)

/-- `read` returns false, the reply is a parse error under a null id, and no actor runs. -/
def Refused (g : Process) (w : World) (req : Req) : Prop :=
  (read (w.request req).inputBuffer).1 = false ∧
    ∃ s, jsonrpcReply UniValue.null (jsonrpcError rpcParseError (cstr "Parse error"))
        UniValue.null = .ok s ∧
      Sends g w req false (jsonReply httpInternalServerError s) []

theorem refused_iff {w : World} {req : Req} {t : JsonTree (List Piece)}
    (ha : Authorized (w.request req)) (ht : Text (w.request req).inputBuffer t)
    (hc : t.isContainer) (g : Process) :
    Refused g w req ↔ ∃ ps ∈ t.strings, ¬ Loose false ps := by
  simp only [← accepted_iff_loose]
  constructor
  · rintro ⟨hfalse, -⟩
    by_contra hall
    push Not at hall
    have hread := ((read_iff _ _).mpr ⟨t, ⟨ht, hc, hall⟩, rfl⟩).1
    simp [hread] at hfalse
  · intro hbad
    have hfalse := read_refused ht hbad
    rcases hr : read (w.request req).inputBuffer with ⟨accepted, u⟩
    obtain rfl : accepted = false := by simpa [hr] using hfalse
    obtain ⟨s, hs, hsends⟩ := sends_parseError (g := g) ha hr (by simp)
    exact ⟨hfalse, s, hs, hsends⟩

/-- A request with an ill-formed literal is refused exactly when a literal is more than loosely
wrong. -/
theorem ill_formed_refused_iff {w : World} {req : Req} {t : JsonTree (List Piece)}
    (ha : Authorized (w.request req)) (ht : Text (w.request req).inputBuffer t)
    (hc : t.isContainer) (g : Process) :
    ((∃ ps ∈ t.strings, ¬ WellFormed ps) → Refused g w req) ↔
      ((∃ ps ∈ t.strings, ¬ WellFormed ps) → ∃ ps ∈ t.strings, ¬ Loose false ps) :=
  forall_congr' (fun _ => refused_iff ha ht hc g)

/-- A high half that no low half follows. -/
def loneHalf : List Piece := [.unit 0xD83D]

/-- The halves of a pair with a letter between them. -/
def tornPair : List Piece := [.unit 0xD83D, .byte 0x78, .unit 0xDE00]

/-- A high half is only ever the first half of a pair. -/
theorem denotes_high {u : Nat} {ps : List Piece} {cs : List Char}
    (h : Denotes (.unit u :: ps) cs) (hu : IsHigh u) : ∃ v qs, ps = .unit v :: qs ∧ IsLow v := by
  generalize hps : Piece.unit u :: ps = us at h
  cases h with
  | nil => cases hps
  | raw c h =>
    obtain ⟨b, bs, hbytes⟩ := List.exists_cons_of_ne_nil (String.utf8EncodeChar_ne_nil (c := c))
    simp [hbytes] at hps
  | @escape c _ _ hc h =>
    obtain ⟨hunit, -⟩ := List.cons.inj hps
    obtain rfl : u = c.toNat := by simpa using hunit
    exact absurd hu (char_valid c).1
  | @pair c qs _ hc h =>
    obtain ⟨-, hrest⟩ := List.cons.inj hps
    exact ⟨_, qs, hrest, (halves hc).2⟩

theorem loneHalf_illFormed : ¬ WellFormed loneHalf := by
  rintro ⟨cs, h⟩
  obtain ⟨v, qs, hps, -⟩ := denotes_high h ⟨by decide, by decide⟩
  cases hps

theorem tornPair_illFormed : ¬ WellFormed tornPair := by
  rintro ⟨cs, h⟩
  obtain ⟨v, qs, hps, -⟩ := denotes_high h ⟨by decide, by decide⟩
  cases hps

theorem content_loneHalf : Content (cstr "\\ud83d") loneHalf := by
  have hbytes : cstr "\\ud83d" = [0x5c, 0x75, 0x64, 0x38, 0x33, 0x64] := by decide
  rw [hbytes]
  exact .unicode (show hexValue 0x64 = some 13 by decide) (show hexValue 0x38 = some 8 by decide)
    (show hexValue 0x33 = some 3 by decide) (show hexValue 0x64 = some 13 by decide) .nil

theorem content_tornPair : Content (cstr "\\ud83dx\\ude00") tornPair := by
  have hbytes : cstr "\\ud83dx\\ude00" =
      [0x5c, 0x75, 0x64, 0x38, 0x33, 0x64, 0x78, 0x5c, 0x75, 0x64, 0x65, 0x30, 0x30] := by decide
  rw [hbytes]
  exact .unicode (show hexValue 0x64 = some 13 by decide) (show hexValue 0x38 = some 8 by decide)
    (show hexValue 0x33 = some 3 by decide) (show hexValue 0x64 = some 13 by decide)
    (.raw (by decide) (by decide) (by decide)
      (.unicode (show hexValue 0x64 = some 13 by decide) (show hexValue 0x65 = some 14 by decide)
        (show hexValue 0x30 = some 0 by decide) (show hexValue 0x30 = some 0 by decide) .nil))

theorem loneHalf_not_loose : ¬ Loose false loneHalf := by
  rw [← accepted_iff_loose, Accepted]
  decide

theorem ill_formed_refused_iff_loneHalf :
    Refused builtins (.holding (.post [] (methodBody (cstr "\\ud83d")))) 0 :=
  (ill_formed_refused_iff (authorized_post [] _) (text_methodBody content_loneHalf) rfl
    builtins).mpr
    (fun _ => ⟨loneHalf, by simp [methodTree, JsonTree.strings, JsonTree.memberStrings],
      loneHalf_not_loose⟩)
    ⟨loneHalf, by simp [methodTree, JsonTree.strings, JsonTree.memberStrings], loneHalf_illFormed⟩

theorem ill_formed_accepted_tornPair :
    Text (methodBody (cstr "\\ud83dx\\ude00")) (methodTree tornPair) ∧
      tornPair ∈ (methodTree tornPair).strings ∧ ¬ WellFormed tornPair ∧
      ∀ g, ¬ Refused g (.holding (.post [] (methodBody (cstr "\\ud83dx\\ude00")))) 0 := by
  refine ⟨text_methodBody content_tornPair,
    by simp [methodTree, JsonTree.strings, JsonTree.memberStrings], tornPair_illFormed, ?_⟩
  rintro g ⟨hfalse, -⟩
  have hread : (read (methodBody (cstr "\\ud83dx\\ude00"))).1 = true := by decide +kernel
  exact absurd (hfalse.symm.trans hread) (by decide)

end JsonRpcServer

import JsonRpcServer.Layouts
import JsonRpcServer.RoundTrip
import JsonRpcServer.ScalarTexts

/-!
# Indented texts

With any layout the writer puts out the tokens of the value, and white space
between them, so what it writes reads back as what the compact text does.
-/
namespace JsonRpcServer

open JsonText UniValue

/-! ## The tree of a value -/

mutual
/-- The tree whose tokens `write` puts out. -/
def treeOf : UniValue → JsonTree (List Piece)
  | ⟨typ, val, keys, values⟩ =>
    match typ with
    | .vnull => .null
    | .vbool => .bool (val = cstr "1")
    | .vnum => .number val
    | .vstr => .string (val.map escapePiece)
    | .varr => .array (treesOf values)
    | .vobj => .object ((keys.map (List.map escapePiece)).zip (treesOf values))

def treesOf : List UniValue → List (JsonTree (List Piece))
  | [] => []
  | v :: vs => treeOf v :: treesOf vs
end

theorem treesOf_eq_map (vs : List UniValue) : treesOf vs = vs.map treeOf := by
  induction vs with
  | nil => rfl
  | cons v vs ih => rw [treesOf, ih, List.map_cons]

theorem uniTree_treeOf {v : UniValue} (h : Readable v) :
    uniTree literalText (treeOf v) = v.canon := by
  induction h with
  | null => rfl
  | bool => simp [treeOf, uniTree, canon]
  | number => rfl
  | string hv => simp [treeOf, uniTree, canon, hv.escaped.2]
  | array _ ih =>
    simp only [treeOf, uniTree, canon, uniItems_eq_map, treesOf_eq_map, canonList_eq_map,
      List.map_map, Function.comp_def]
    rw [List.map_congr_left ih]
  | @object val keys values hlen hk _ ih =>
    have hnames : (keys.map (List.map escapePiece)).map literalText = keys := by
      rw [List.map_map]
      exact (List.map_congr_left fun k hkey => (hk k hkey).escaped.2).trans (List.map_id keys)
    have htrees : (treesOf values).map (uniTree literalText) = canonList values := by
      rw [treesOf_eq_map, canonList_eq_map, List.map_map]
      exact List.map_congr_left ih
    have hkeys : ((keys.map (List.map escapePiece)).zip (treesOf values)).map
        (fun m => literalText m.1) = keys := by
      change List.map (literalText ∘ Prod.fst) _ = keys
      rw [← List.map_map, List.map_fst_zip, hnames]
      simp [treesOf_eq_map, hlen]
    have hvalues : ((keys.map (List.map escapePiece)).zip (treesOf values)).map
        (fun m => uniTree literalText m.2) = canonList values := by
      change List.map (uniTree literalText ∘ Prod.snd) _ = canonList values
      rw [← List.map_map, List.map_snd_zip, htrees]
      simp [treesOf_eq_map, hlen]
    simp only [treeOf, uniTree, canon, uniMembers_eq_map, hkeys, hvalues]

theorem accepted_treeOf {v : UniValue} (h : Readable v) :
    ∀ ps ∈ (treeOf v).strings, Accepted ps := by
  induction h with
  | null | bool | number => simp [treeOf, JsonTree.strings]
  | string hv => simpa [treeOf, JsonTree.strings] using hv.escaped.1
  | array _ ih =>
    intro ps hps
    simp only [treeOf, JsonTree.strings, JsonTree.itemStrings_eq_flatMap, treesOf_eq_map,
      List.mem_flatMap, List.mem_map] at hps
    obtain ⟨-, ⟨v, hv, rfl⟩, hps⟩ := hps
    exact ih v hv ps hps
  | object _ hk _ ih =>
    intro ps hps
    simp only [treeOf, JsonTree.strings, JsonTree.memberStrings_eq_flatMap, treesOf_eq_map,
      List.mem_flatMap] at hps
    obtain ⟨⟨k, t⟩, hm, hps⟩ := hps
    obtain ⟨key, hkey, rfl⟩ := List.mem_map.mp (List.of_mem_zip hm).1
    obtain ⟨v, hv, rfl⟩ := List.mem_map.mp (List.of_mem_zip hm).2
    obtain rfl | hps := List.mem_cons.mp hps
    · exact (hk key hkey).escaped.1
    · exact ih v hv ps hps

/-! ## The white space of the writer -/

structure Layout.IsWhite {Level : Type} (lay : Layout Level) : Prop where
  newline : White lay.newline
  gap : White lay.gap
  inner : ∀ level, White (lay.inner level)
  outer : ∀ level, White (lay.outer level)

theorem white_pretty32 (p : UInt32) {w : Bytes} (hw : White w) : White (pretty32 p w) := by
  unfold pretty32
  split
  · simp [White]
  · exact hw

theorem white_newline : White (cstr "\n") := by
  rw [cstr_newline]
  simp [White]
  decide

/-- Whatever wraps, what is counted are blanks. -/
theorem isWhite_counting32 (p : UInt32) : (counting32 p).IsWhite where
  newline := white_pretty32 p white_newline
  gap := white_pretty32 p (white_replicate 1)
  inner level := white_pretty32 p (white_replicate (p * modIndent32 level).toNat)
  outer level := white_pretty32 p (white_replicate (p * (modIndent32 level - 1)).toNat)

section
variable {Level : Type} {lay : Layout Level} {level : Level} {s : Bytes} {values : List UniValue}

/-- What is laid out of a value. -/
def LaysTokens (lay : Layout Level) (v : UniValue) : Prop :=
  ∀ level s, layOut lay level v = .ok s → Spaced s (treeOf v).tokens

theorem spaced_comma (b : Bool) :
    Spaced (if b then [] else cstr ",") (if b then [] else [Token.comma]) := by
  cases b with
  | true => exact .nil (by simp [White])
  | false => exact cstr_comma ▸ Lexeme.comma.spaced

theorem spaced_layOutItems (hw : lay.IsWhite) (h : ∀ v ∈ values, LaysTokens lay v)
    (hs : layOutItems lay level values = .ok s) :
    Spaced s (JsonTree.itemTokens (treesOf values)) := by
  induction values generalizing s with
  | nil =>
    cases hs
    exact .nil (by simp [White])
  | cons v vs ih =>
    rw [layOutItems] at hs
    obtain ⟨s₁, h₁, hs⟩ := bind_ok_iff.mp hs
    obtain ⟨rest, hrest, hs⟩ := bind_ok_iff.mp hs
    obtain ⟨hv, hvs⟩ := List.forall_mem_cons.mp h
    obtain rfl := Except.ok.inj hs
    have hempty : (treesOf vs).isEmpty = vs.isEmpty := by
      rw [treesOf_eq_map, List.isEmpty_map]
    rw [treesOf, JsonTree.itemTokens, hempty]
    have hitem := (hv _ _ h₁).white_before (hw.inner level)
    exact ((hitem.append (spaced_comma _)).white_after hw.newline).append (ih hvs hrest)

theorem lexeme_colon : Spaced (cstr ":") [.colon] := cstr_colon ▸ Lexeme.colon.spaced

theorem spaced_layOutMembers (hw : lay.IsWhite) {keys : List Bytes} {size n : Nat}
    (hlen : keys.length = values.length) (h : ∀ v ∈ values, LaysTokens lay v)
    (hs : layOutMembers lay level size n values keys = .ok s) :
    Spaced s (JsonTree.memberTokens ((keys.map (List.map escapePiece)).zip (treesOf values))) := by
  induction keys generalizing values n s with
  | nil =>
    obtain rfl : values = [] := by simpa using hlen.symm
    cases hs
    exact .nil (by simp [White])
  | cons k ks ih =>
    obtain ⟨v, vs, rfl⟩ : ∃ v vs, values = v :: vs := by cases values <;> simp_all
    have hlen' : ks.length = vs.length := by simpa using hlen
    rw [layOutMembers] at hs
    obtain ⟨s₁, h₁, hs⟩ := bind_ok_iff.mp hs
    obtain ⟨rest, hrest, hs⟩ := bind_ok_iff.mp hs
    obtain ⟨hv, hvs⟩ := List.forall_mem_cons.mp h
    obtain rfl := Except.ok.inj hs
    have hempty : ((ks.map (List.map escapePiece)).zip (treesOf vs)).isEmpty = vs.isEmpty := by
      cases vs <;> cases ks <;> simp_all [treesOf]
    rw [treesOf, List.map_cons, List.zip_cons_cons, JsonTree.memberTokens, hempty]
    have hname := (lexeme_quote k).spaced.white_before (hw.inner level)
    have hcolon := (hname.append lexeme_colon).white_after hw.gap
    exact (((hcolon.append (hv _ _ h₁)).append (spaced_comma _)).white_after hw.newline).append
      (ih hlen' hvs hrest)

/-- Brackets, and the white space inside them, around what is laid out of a container. -/
theorem spaced_brackets (hw : lay.IsWhite) {l r : Bytes} {opening closing : Token (List Piece)}
    {ts : List (Token (List Piece))} (hl : Lexeme l opening) (hr : Lexeme r closing)
    (h : Spaced s ts) :
    Spaced (l ++ lay.newline ++ s ++ lay.outer level ++ r) (opening :: ts ++ [closing]) := by
  have hopening := hl.spaced.white_after hw.newline
  exact ((hopening.append h).white_after (hw.outer level)).append hr.spaced

theorem laysTokens (hw : lay.IsWhite) {v : UniValue} (h : Readable v) : LaysTokens lay v := by
  induction h with
  | null =>
    intro level s hs
    cases hs
    exact Lexeme.null.spaced
  | @bool val =>
    intro level s hs
    obtain rfl := Except.ok.inj hs
    by_cases hv : val = cstr "1"
    · simpa [treeOf, JsonTree.tokens, hv] using (cstr_true ▸ Lexeme.true).spaced
    · simpa [treeOf, JsonTree.tokens, hv] using (cstr_false ▸ Lexeme.false).spaced
  | number hn =>
    intro level s hs
    cases hs
    exact (Lexeme.number hn).spaced
  | string hv =>
    intro level s hs
    cases hs
    exact (lexeme_quote _).spaced
  | array _ ih =>
    intro level s hs
    simp only [layOut] at hs
    obtain ⟨s₁, h₁, hs⟩ := bind_ok_iff.mp hs
    obtain rfl := Except.ok.inj hs
    exact spaced_brackets hw (cstr_brackets.1 ▸ Lexeme.arrOpen)
      (cstr_brackets.2 ▸ Lexeme.arrClose) (spaced_layOutItems hw ih h₁)
  | object hlen _ _ ih =>
    intro level s hs
    simp only [layOut] at hs
    obtain ⟨s₁, h₁, hs⟩ := bind_ok_iff.mp hs
    obtain rfl := Except.ok.inj hs
    exact spaced_brackets hw (cstr_braces.1 ▸ Lexeme.objOpen) (cstr_braces.2 ▸ Lexeme.objClose)
      (spaced_layOutMembers hw hlen ih h₁)

end

/-! ## There and back -/

theorem anyText_written {v : UniValue} (h : Readable v) {p i : UInt32} {s : Bytes}
    (hs : write32 p i v = .ok s) : AnyText s v.canon :=
  ⟨treeOf v, ⟨_, laysTokens (isWhite_counting32 p) h i s hs, (treeOf v).derives_tokens⟩,
    accepted_treeOf h, (uniTree_treeOf h).symm⟩

theorem readable_anyText {b : Bytes} {u : UniValue} (h : AnyText b u) :
    Readable u ∧ u.canon = u := by
  obtain ⟨t, ⟨ts, hsp, hd⟩, ha, rfl⟩ := h
  exact ⟨readPhrase_of_derives hd (readToken_of_spaced hsp ((accepted_tokens hd).mpr ha)),
    canon_uniTree literalText t⟩

/-- A value that can be read is written with any indentation, white space may be put around the
text, and it reads back as the value without what its type does not show. This is meant for texts
below `2^32` bytes, where no index in the writer and no `consumed` in the reader wraps. -/
theorem written_reads_back {v : UniValue} (h : Readable v) (p i : UInt32) :
    ∃ s, write32 p i v = .ok s ∧
      ∀ before after, White before → White after →
        read (before ++ s ++ after) = (true, v.canon) := by
  obtain ⟨s, hs⟩ := (write32_ok_iff p i v).mpr h.writable
  refine ⟨s, hs, fun before after hb ha => ?_⟩
  obtain ⟨t, ⟨ts, hsp, hd⟩, haccepted, hv⟩ := anyText_written h hs
  exact read_anyText ⟨t, ⟨ts, (hsp.white_before hb).white_after ha, hd⟩, haccepted, hv⟩

theorem written_reads_back_nested :
    ∃ s, write32 2 0 ⟨.vobj, [], [cstr "a"], [⟨.varr, [], [], [ofType .vnum (cstr "1"), null]⟩]⟩ =
        .ok s ∧
      ∀ before after, White before → White after → read (before ++ s ++ after) =
        (true, ⟨.vobj, [], [cstr "a"], [⟨.varr, [], [], [ofType .vnum (cstr "1"), null]⟩]⟩) := by
  have hnumber : Number (cstr "1") := number_intText 1
  have hkey : ReadText (cstr "a") := readText_ascii (by decide)
  exact written_reads_back (.object rfl (by simpa using hkey)
    (by simpa using .array (by simpa using ⟨.number hnumber, .null⟩))) 2 0

/-- Whatever was read is written, with any indentation, to a text that reads as the same value; for
texts as long as in `written_reads_back`. -/
theorem read_write_read {b : Bytes} {u : UniValue} (h : read b = (true, u)) (p i : UInt32) :
    ∃ s, write32 p i u = .ok s ∧ read s = (true, u) := by
  obtain htext | ⟨w, -, -, rfl⟩ := anyText_of_read h
  · obtain ⟨hreadable, hcanon⟩ := readable_anyText htext
    obtain ⟨s, hs⟩ := (write32_ok_iff p i u).mpr hreadable.writable
    refine ⟨s, hs, read_anyText ?_⟩
    rw [← hcanon]
    exact anyText_written hreadable hs
  · exact ⟨[0x2d], rfl, read_loneMinus (w := []) (by simp [White])⟩

theorem read_write_read_spaced :
    ∃ s, write32 3 1 (read (cstr " [1, \"\\u0041\"]")).2 = .ok s ∧
      read s = (true, (read (cstr " [1, \"\\u0041\"]")).2) := by
  have hread : (read (cstr " [1, \"\\u0041\"]")).1 = true := by decide +kernel
  exact read_write_read (b := cstr " [1, \"\\u0041\"]") (Prod.ext hread rfl) 3 1

end JsonRpcServer

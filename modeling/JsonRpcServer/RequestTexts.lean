import Mathlib.Data.List.Find
import JsonRpcServer.Literals

/-!
# Texts in a request

Which literals of a request `JSONRPCRequest::parse` keeps, and what the handler
makes of a request whose literals denote Unicode texts.
-/
namespace JsonRpcServer

open Programs UniValue HTTPRequest JsonText

/-! ## Trees with two texts for their strings -/

section
variable {σ : Type} (f g : σ → Bytes)

mutual
/-- A value shows all the strings of its tree. -/
theorem uniTree_eq_iff : (t : JsonTree σ) → (uniTree f t = uniTree g t ↔ ∀ s ∈ t.strings, f s = g s)
  | .null | .bool _ | .number _ => by simp [uniTree, JsonTree.strings]
  | .string s => by simp [uniTree, JsonTree.strings, UniValue.ofType]
  | .array items => by simpa [uniTree, JsonTree.strings] using uniItems_eq_iff items
  | .object members => by simpa [uniTree, JsonTree.strings] using uniMembers_eq_iff members

theorem uniItems_eq_iff : (ts : List (JsonTree σ)) →
    (uniItems f ts = uniItems g ts ↔ ∀ s ∈ JsonTree.itemStrings ts, f s = g s)
  | [] => by simp [uniItems, JsonTree.itemStrings]
  | t :: ts => by
    simp only [uniItems, JsonTree.itemStrings, List.cons.injEq, List.mem_append, or_imp, forall_and]
    rw [uniTree_eq_iff t, uniItems_eq_iff ts]

theorem uniMembers_eq_iff : (ms : List (σ × JsonTree σ)) →
    ((∀ a b, (a, b) ∈ ms → f a = g a) ∧ uniMembers f ms = uniMembers g ms ↔
      ∀ s ∈ JsonTree.memberStrings ms, f s = g s)
  | [] => by simp [uniMembers, JsonTree.memberStrings]
  | (k, t) :: ms => by
    have ht := uniTree_eq_iff t
    have hms := uniMembers_eq_iff ms
    simp only [uniMembers, JsonTree.memberStrings, List.cons.injEq, List.cons_append, List.mem_cons,
      List.mem_append]
    constructor
    · rintro ⟨hk, hvt, hvs⟩ s (rfl | hs | hs)
      · exact hk s t (.inl rfl)
      · exact ht.mp hvt s hs
      · exact hms.mp ⟨fun a b hab => hk a b (.inr hab), hvs⟩ s hs
    · intro h
      obtain ⟨hk, hvs⟩ := hms.mpr (fun s hs => h s (.inr (.inr hs)))
      refine ⟨?_, ht.mpr (fun s hs => h s (.inr (.inl hs))), hvs⟩
      rintro a b (hab | hab)
      · exact (Prod.mk.inj hab).1 ▸ h k (.inl rfl)
      · exact hk a b hab
end

end

/-! ## What `parse` keeps -/

section
variable {σ : Type} (text : σ → Bytes)

/-- The first member of that name. -/
def memberOf (name : Bytes) : JsonTree σ → Option (JsonTree σ)
  | .object ms => (ms.find? (fun m => text m.1 = name)).map Prod.snd
  | _ => none

/-- The strings that a request keeps: those in its id and, if its method is a string, this string
and those in its params, if they are of a type that may be there. -/
def keptStrings (t : JsonTree σ) : List σ :=
  (memberOf text (cstr "id") t).elim [] JsonTree.strings ++
    match memberOf text (cstr "method") t with
    | some (.string s) =>
      s :: ((memberOf text (cstr "params") t).filter JsonTree.isContainer).elim [] JsonTree.strings
    | _ => []

/-- The requests of a body: the one object, or the items of the array. -/
def requestsIn : JsonTree σ → List (JsonTree σ)
  | .array items => items
  | t => [t]

theorem firstMember_uniTree (name : Bytes) (t : JsonTree σ) :
    (uniTree text t).firstMember name = (memberOf text name t).map (uniTree text) := by
  cases t with
  | object ms =>
    simp only [uniTree, memberOf, UniValue.firstMember, uniMembers_eq_map, List.zip_map',
      List.find?_map, Option.map_map]
    rfl
  | _ => rfl

/-- `parse` on a tree, with the texts that it stores. -/
theorem parse_uniTree {t : JsonTree σ} (ho : (uniTree text t).isObject) (jreq : JSONRPCRequest) :
    jreq.parse (uniTree text t) =
      let id := (memberOf text (cstr "id") t).elim null (uniTree text)
      match memberOf text (cstr "method") t with
      | none | some .null => (rpcThrow rpcInvalidRequest "Missing method", { jreq with id })
      | some (.string s) =>
        match memberOf text (cstr "params") t with
        | none | some .null =>
          (.ok (), { jreq with id, strMethod := text s, params := ofType .varr [] })
        | some params =>
          if params.isContainer then
            (.ok (), { jreq with id, strMethod := text s, params := uniTree text params })
          else
            (rpcThrow rpcInvalidRequest "Params must be an array or object",
              { jreq with id, strMethod := text s })
      | some _ => (rpcThrow rpcInvalidRequest "Method must be a string", { jreq with id }) := by
  have hid : idOf (uniTree text t) = (memberOf text (cstr "id") t).elim null (uniTree text) := by
    rw [idOf, firstMember_uniTree]
    cases memberOf text (cstr "id") t <;> rfl
  rw [parse_balanced (balanced_uniTree text t) ho]
  simp only [requestOf, methodMessage, hid, methodOf, paramsOf, firstMember_uniTree]
  rcases memberOf text (cstr "method") t with _ | (_ | _ | _ | s | _ | _)
  case some.string =>
    rcases memberOf text (cstr "params") t with _ | (_ | _ | _ | _ | _ | _) <;> rfl
  all_goals rfl

end

section
variable {σ : Type} {f g : σ → Bytes} {t : JsonTree σ}

theorem memberOf_congr {name : Bytes} (h : ∀ s ∈ t.strings, f s = name ↔ g s = name) :
    memberOf f name t = memberOf g name t := by
  cases t with
  | object ms =>
    rw [JsonTree.strings, JsonTree.memberStrings_eq_flatMap] at h
    have hfind : ms.find? (fun m => f m.1 = name) = ms.find? (fun m => g m.1 = name) := by
      refine List.find?_congr fun m hm => ?_
      rw [decide_eq_decide]
      exact h m.1 (List.mem_flatMap.mpr ⟨m, hm, by simp⟩)
    rw [memberOf, memberOf, hfind]
  | _ => rfl

/-- A request keeps strings that stand in its text. -/
theorem strings_memberOf {name : Bytes} {m : JsonTree σ} (h : memberOf g name t = some m) :
    ∀ s ∈ m.strings, s ∈ t.strings := by
  intro s hs
  cases t with
  | object ms =>
    obtain ⟨⟨k, m'⟩, hfind, rfl⟩ := Option.map_eq_some_iff.mp h
    rw [JsonTree.strings, JsonTree.memberStrings_eq_flatMap]
    exact List.mem_flatMap.mpr ⟨_, List.mem_of_find?_eq_some hfind, by simp [hs]⟩
  | _ => simp [memberOf] at h

theorem keptStrings_subset : ∀ s ∈ keptStrings g t, s ∈ t.strings := by
  intro s hs
  have hoption : ∀ name, s ∈ (memberOf g name t).elim [] JsonTree.strings → s ∈ t.strings := by
    intro name hm
    cases hmember : memberOf g name t with
    | none => simp [hmember] at hm
    | some m =>
      rw [hmember] at hm
      exact strings_memberOf hmember s hm
  rcases List.mem_append.mp hs with hid | hrest
  · exact hoption _ hid
  · rcases hmethod : memberOf g (cstr "method") t with _ | (_ | _ | _ | k | _ | _)
    case some.string =>
      simp only [hmethod, List.mem_cons] at hrest
      rcases hrest with rfl | hparams
      · exact strings_memberOf hmethod s (.head [])
      · refine hoption (cstr "params") ?_
        cases hmember : memberOf g (cstr "params") t with
        | none => simp [hmember] at hparams
        | some m =>
          simp only [hmember, Option.filter_some] at hparams
          split at hparams
          · exact hparams
          · exact absurd hparams List.not_mem_nil
    all_goals simp [hmethod] at hrest

theorem strings_requestsIn {r : JsonTree σ} (h : r ∈ requestsIn t) :
    ∀ s ∈ r.strings, s ∈ t.strings := by
  intro s hs
  cases t with
  | array items =>
    rw [JsonTree.strings, JsonTree.itemStrings_eq_flatMap]
    exact List.mem_flatMap.mpr ⟨r, h, hs⟩
  | _ =>
    obtain rfl := List.mem_singleton.mp h
    exact hs

theorem elim_eq_iff (t? : Option (JsonTree σ)) :
    t?.elim null (uniTree f) = t?.elim null (uniTree g) ↔
      ∀ s ∈ t?.elim [] JsonTree.strings, f s = g s := by
  cases t? with
  | none => simp
  | some t => exact uniTree_eq_iff f g t

theorem isObject_uniTree (text : σ → Bytes) (t : JsonTree σ) :
    (uniTree text t).isObject ↔ ∃ ms, t = .object ms := by
  cases t <;> simp [uniTree, isObject, ofType, null, setBool]

/-- Two readings of a request are stored alike exactly when they agree on what it keeps. -/
theorem parse_eq_iff (hid : memberOf f (cstr "id") t = memberOf g (cstr "id") t)
    (hmethod : memberOf f (cstr "method") t = memberOf g (cstr "method") t)
    (hparams : memberOf f (cstr "params") t = memberOf g (cstr "params") t)
    (jreq : JSONRPCRequest) :
    jreq.parse (uniTree f t) = jreq.parse (uniTree g t) ↔ ∀ s ∈ keptStrings g t, f s = g s := by
  by_cases ho : ∃ ms, t = .object ms
  swap
  · have hf : (uniTree f t).isObject = false := by simpa using mt (isObject_uniTree f t).mp ho
    have hg : (uniTree g t).isObject = false := by simpa using mt (isObject_uniTree g t).mp ho
    have hkept : keptStrings g t = [] := by
      cases t with
      | object ms => exact absurd ⟨ms, rfl⟩ ho
      | _ => rfl
    simp [JSONRPCRequest.parse, hf, hg, hkept]
  rw [parse_uniTree f ((isObject_uniTree f t).mpr ho),
    parse_uniTree g ((isObject_uniTree g t).mpr ho), hid, hmethod, hparams, keptStrings,
    List.forall_mem_append, ← elim_eq_iff]
  -- what is stored besides the id depends on the method and on the params
  rcases memberOf g (cstr "method") t with _ | (_ | _ | _ | s | _ | _)
  case some.string =>
    rcases memberOf g (cstr "params") t with _ | (_ | _ | _ | _ | items | ms)
    case some.array =>
      have hkeep : (some (JsonTree.array items)).filter JsonTree.isContainer =
        some (.array items) := rfl
      simp [hkeep, JsonTree.isContainer, uniTree_eq_iff]
    case some.object =>
      have hkeep : (some (JsonTree.object ms)).filter JsonTree.isContainer =
        some (.object ms) := rfl
      simp [hkeep, JsonTree.isContainer, uniTree_eq_iff]
    all_goals simp [JsonTree.isContainer, Option.filter_some, rpcThrow]
  all_goals simp

end

/-! ## What the handler makes of a tree -/

/-- What `parse` stores of each request of a body, and what it throws. -/
def parsedRequests (jreq : JSONRPCRequest) (u : UniValue) :
    List (Except Exception Unit × JSONRPCRequest) :=
  if u.isObject then [jreq.parse u] else u.values.map jreq.parse

/-- The handler, if `v` were what it has read. -/
def httpReqJsonrpcGiven (g : Process) (v : UniValue) : HandlerM Bool :=
  httpReqJsonrpcWith (tryRequestWith (fun _ => singleRequest g v) (fun _ => arrayOfRequests g v))

/-- The body is treated as `v`: the requests that are stored, `strMethod`, `params` and `id`, are
those of `v`, and so are the actors that run, what they get, and the reply. -/
structure TreatedAs (w : World) (req : Req) (v : UniValue) : Prop where
  stored : ∃ u, Reaches w req u ∧
    parsedRequests (startRequest w req) u = parsedRequests (startRequest w req) v
  served : ∀ g, served g w req = servedBy (httpReqJsonrpcGiven g v) w req

theorem answerTo_of_parse (g : Process) {jreq : JSONRPCRequest} {u v : UniValue}
    (h : jreq.parse u = jreq.parse v) : answerTo g jreq u = answerTo g jreq v := by
  rw [answerTo, answerTo, h]

section
variable {σ : Type} {f g : σ → Bytes} {t : JsonTree σ}

theorem parsedRequests_uniTree (text : σ → Bytes) (hc : t.isContainer) (jreq : JSONRPCRequest) :
    parsedRequests jreq (uniTree text t) =
      (requestsIn t).map (fun r => jreq.parse (uniTree text r)) := by
  cases t with
  | object ms => simp [parsedRequests, requestsIn, uniTree, isObject]
  | array items =>
    simp [parsedRequests, requestsIn, uniTree, isObject, uniItems_eq_map, Function.comp_def]
  | _ => simp [JsonTree.isContainer] at hc

/-- The handler goes by the requests that are stored. -/
theorem served_given {w : World} {req : Req} (ha : Authorized (w.request req)) (hc : t.isContainer)
    (hr : read (w.request req).inputBuffer = (true, uniTree f t))
    (h : ∀ r ∈ requestsIn t, (startRequest w req).parse (uniTree f r) =
      (startRequest w req).parse (uniTree g r)) (p : Process) :
    served p w req = servedBy (httpReqJsonrpcGiven p (uniTree g t)) w req := by
  refine servedBy_congr ha hr ?_
  cases t with
  | object ms =>
    have hparse := h _ (.head [])
    have ho : (uniTree f (.object ms)).isObject = true := rfl
    simp only [chosen, ho, if_true, run_singleRequest, answerTo_of_parse p hparse, hparse]
  | array items =>
    have ho : (uniTree f (.array items)).isObject = false := rfl
    have harray : (uniTree f (.array items)).isArray = true := rfl
    have hmap : (uniTree f (.array items)).values.map (answerTo p (startRequest w req)) =
        (uniTree g (.array items)).values.map (answerTo p (startRequest w req)) := by
      simp only [uniTree, uniItems_eq_map, List.map_map]
      exact List.map_congr_left fun r hmem => answerTo_of_parse p (h r hmem)
    have hcalls : (uniTree f (.array items)).values.flatMap
          (fun u => (answerTo p (startRequest w req) u).calls) =
        (uniTree g (.array items)).values.flatMap
          (fun u => (answerTo p (startRequest w req) u).calls) := by
      simpa only [List.flatMap_map] using congrArg (List.flatMap Answer.calls) hmap
    simp only [chosen, ho, harray, Bool.false_eq_true, if_false, if_true, run_arrayOfRequests, hmap,
      hcalls]
  | _ => simp [JsonTree.isContainer] at hc

/-- A body is treated as another reading of its tree exactly when the two readings agree on what
its requests keep. -/
theorem treatedAs_iff {w : World} {req : Req} (ha : Authorized (w.request req)) (hc : t.isContainer)
    (hr : read (w.request req).inputBuffer = (true, uniTree f t))
    (hnames : ∀ name ∈ [cstr "id", cstr "method", cstr "params"], ∀ s ∈ t.strings,
      f s = name ↔ g s = name) :
    TreatedAs w req (uniTree g t) ↔ ∀ r ∈ requestsIn t, ∀ s ∈ keptStrings g r, f s = g s := by
  have hreached : ∀ u, Reaches w req u ↔ u = uniTree f t := by
    intro u
    rw [reaches_iff ha, hr]
    constructor
    · exact fun h => ((Prod.mk.inj h.1).2).symm
    · exact fun h => ⟨by rw [h], h ▸ (container_uniTree f t).mpr hc⟩
  have hmember : ∀ r ∈ requestsIn t, ∀ name ∈ [cstr "id", cstr "method", cstr "params"],
      memberOf f name r = memberOf g name r :=
    fun r h name hname => memberOf_congr fun s hs => hnames name hname s (strings_requestsIn h s hs)
  have hparse : ∀ r ∈ requestsIn t, ((startRequest w req).parse (uniTree f r) =
      (startRequest w req).parse (uniTree g r) ↔ ∀ s ∈ keptStrings g r, f s = g s) :=
    fun r h => parse_eq_iff (hmember r h _ (by simp)) (hmember r h _ (by simp))
      (hmember r h _ (by simp)) _
  have hstored : parsedRequests (startRequest w req) (uniTree f t) =
      parsedRequests (startRequest w req) (uniTree g t) ↔
      ∀ r ∈ requestsIn t, ∀ s ∈ keptStrings g r, f s = g s := by
    rw [parsedRequests_uniTree f hc, parsedRequests_uniTree g hc, List.map_inj_left]
    exact forall₂_congr hparse
  constructor
  · rintro ⟨⟨u, hu, hsame⟩, -⟩
    rw [(hreached u).mp hu] at hsame
    exact hstored.mp hsame
  · intro h
    exact ⟨⟨_, (hreached _).mpr rfl, hstored.mpr h⟩,
      served_given ha hc hr fun r hmem => (hparse r hmem).mpr (h r hmem)⟩

end

/-! ## Requests of Unicode texts -/

/-- A request whose literals are all well formed is acted on, and the text passed on for a literal
is the UTF-8 of what it denotes exactly when no surrogate pair in it is of an even plane. What is
stored of the requests, what their commands get and what is replied are those of the texts that
the literals denote exactly when no literal that a request keeps has such a pair. -/
theorem text_kept_iff {w : World} {req : Req} {t : JsonTree (List Piece)}
    (ha : Authorized (w.request req)) (ht : Text (w.request req).inputBuffer t)
    (hc : t.isContainer) {chars : List Piece → List Char}
    (hd : ∀ ps ∈ t.strings, Denotes ps (chars ps)) :
    (∃ text, Reaches w req (uniTree text t) ∧
      ∀ ps ∈ t.strings, text ps = utf8 (chars ps) ↔ OddPlanes ps) ∧
    (TreatedAs w req (uniTree (fun ps => utf8 (chars ps)) t) ↔
      ∀ r ∈ requestsIn t, ∀ ps ∈ keptStrings (fun ps => utf8 (chars ps)) r, OddPlanes ps) := by
  have haccepted : AcceptedText (w.request req).inputBuffer t :=
    ⟨ht, hc, fun ps hps => (literalText_of_denotes (hd ps hps)).1⟩
  have htext : ∀ ps ∈ t.strings, literalText ps = utf8 (chars ps) ↔ OddPlanes ps :=
    fun ps hps => (literalText_of_denotes (hd ps hps)).2
  have hread := (read_iff _ _).mpr ⟨t, haccepted, rfl⟩
  refine ⟨⟨literalText, (reaches_iff ha _).mpr hread, htext⟩, ?_⟩
  have hascii : ∀ name ∈ [cstr "id", cstr "method", cstr "params"], name.all (· < 0x80) := by
    decide
  rw [treatedAs_iff ha hc hread.1 fun name hname ps hps =>
    literalText_eq_name (hd ps hps) (hascii name hname)]
  exact forall₂_congr fun r hmem => forall₂_congr fun ps hkept =>
    htext ps (strings_requestsIn hmem ps (keptStrings_subset ps hkept))

theorem denotes_raw (cs : List Char) : Denotes ((utf8 cs).map .byte) cs := by
  induction cs with
  | nil => exact .nil
  | cons c cs ih =>
    rw [utf8, List.flatMap_cons, List.map_append]
    exact .raw c ih

/-- `U+1F600`, of plane 1, and `U+20000`, of plane 2, as surrogate pairs. -/
def smile : List Piece := [.unit 0xD83D, .unit 0xDE00]
def planeTwo : List Piece := [.unit 0xD840, .unit 0xDC00]

theorem content_smile : Content (cstr "\\ud83d\\ude00") smile := by
  have hbytes : cstr "\\ud83d\\ude00" =
      [0x5c, 0x75, 0x64, 0x38, 0x33, 0x64, 0x5c, 0x75, 0x64, 0x65, 0x30, 0x30] := by decide
  rw [hbytes]
  exact .unicode (show hexValue 0x64 = some 13 by decide) (show hexValue 0x38 = some 8 by decide)
    (show hexValue 0x33 = some 3 by decide) (show hexValue 0x64 = some 13 by decide)
    (.unicode (show hexValue 0x64 = some 13 by decide) (show hexValue 0x65 = some 14 by decide)
      (show hexValue 0x30 = some 0 by decide) (show hexValue 0x30 = some 0 by decide) .nil)

theorem content_planeTwo : Content (cstr "\\ud840\\udc00") planeTwo := by
  have hbytes : cstr "\\ud840\\udc00" =
      [0x5c, 0x75, 0x64, 0x38, 0x34, 0x30, 0x5c, 0x75, 0x64, 0x63, 0x30, 0x30] := by decide
  rw [hbytes]
  exact .unicode (show hexValue 0x64 = some 13 by decide) (show hexValue 0x38 = some 8 by decide)
    (show hexValue 0x34 = some 4 by decide) (show hexValue 0x30 = some 0 by decide)
    (.unicode (show hexValue 0x64 = some 13 by decide) (show hexValue 0x63 = some 12 by decide)
      (show hexValue 0x30 = some 0 by decide) (show hexValue 0x30 = some 0 by decide) .nil)

theorem denotes_smile : Denotes smile [Char.ofNat 0x1F600] := by
  have hpair : smile = [.unit (highHalf (Char.ofNat 0x1F600)),
    .unit (lowHalf (Char.ofNat 0x1F600))] := by decide
  rw [hpair]
  exact .pair (by decide) .nil

theorem denotes_planeTwo : Denotes planeTwo [Char.ofNat 0x20000] := by
  have hpair : planeTwo = [.unit (highHalf (Char.ofNat 0x20000)),
    .unit (lowHalf (Char.ofNat 0x20000))] := by decide
  rw [hpair]
  exact .pair (by decide) .nil

def smileChars (ps : List Piece) : List Char :=
  if ps = methodPieces then "method".toList else [Char.ofNat 0x1F600]

theorem text_kept_iff_smile :
    TreatedAs (.holding (.post [] (methodBody (cstr "\\ud83d\\ude00")))) 0
      (uniTree (fun ps => utf8 (smileChars ps)) (methodTree smile)) := by
  have hstrings : (methodTree smile).strings = [methodPieces, smile] := rfl
  have hmethod : methodPieces = (utf8 "method".toList).map .byte := by decide
  have hdenotes : ∀ ps ∈ (methodTree smile).strings, Denotes ps (smileChars ps) := by
    rw [hstrings]
    simp only [List.forall_mem_cons]
    refine ⟨?_, denotes_smile, by simp⟩
    rw [smileChars, if_pos rfl, hmethod]
    exact denotes_raw _
  have hodd : ∀ ps ∈ (methodTree smile).strings, OddPlanes ps := by
    rw [hstrings]
    simp only [List.forall_mem_cons]
    refine ⟨fun u hu => ?_, fun u hu _ => ?_, by simp⟩
    · simp [methodPieces] at hu
    · obtain rfl | rfl : u = 0xD83D ∨ u = 0xDE00 := by simpa [smile] using hu
      · decide
      · decide
  exact (text_kept_iff (authorized_post [] _) (text_methodBody content_smile) rfl
    hdenotes).2.mpr fun r hmem ps hkept =>
      hodd ps (strings_requestsIn hmem ps (keptStrings_subset ps hkept))

theorem text_changed_plane_two :
    Text (methodBody (cstr "\\ud840\\udc00")) (methodTree planeTwo) ∧
      Denotes planeTwo [Char.ofNat 0x20000] ∧
      ReachesParse (.holding (.post [] (methodBody (cstr "\\ud840\\udc00")))) 0
        (calling (utf8 [Char.ofNat 0x10000])) ∧
      (JSONRPCRequest.new.parse (calling (utf8 [Char.ofNat 0x10000]))).2.strMethod =
        utf8 [Char.ofNat 0x10000] ∧
      ¬ TreatedAs (.holding (.post [] (methodBody (cstr "\\ud840\\udc00")))) 0
        (calling (utf8 [Char.ofNat 0x20000])) := by
  have hread : read (methodBody (cstr "\\ud840\\udc00")) =
      (true, calling (utf8 [Char.ofNat 0x10000])) := by decide +kernel
  have hne : (parsedRequests .new (calling (utf8 [Char.ofNat 0x10000]))).map (·.2.strMethod) ≠
      (parsedRequests .new (calling (utf8 [Char.ofNat 0x20000]))).map (·.2.strMethod) := by
    decide +kernel
  have ha := authorized_post [] (methodBody (cstr "\\ud840\\udc00"))
  refine ⟨text_methodBody content_planeTwo,
    denotes_planeTwo, (reachesParse_iff ha _).mpr ⟨hread, rfl⟩, by decide +kernel, fun h => ?_⟩
  obtain ⟨u, hu, hsame⟩ := h.stored
  have hread' := ((reaches_iff ha u).mp hu).1
  obtain rfl : calling (utf8 [Char.ofNat 0x10000]) = u :=
    (Prod.mk.inj (hread.symm.trans hread')).2
  exact hne (congrArg (List.map (·.2.strMethod)) hsame)

end JsonRpcServer

import JsonRpcServer.Failures
import Mathlib.Data.List.Forall2

/-!
# Batches

The reply to a batch is put together from the replies its elements get when each
is posted alone.
-/
namespace JsonRpcServer

open UniValue

/-! ## Elements -/

theorem canon_element {u v : UniValue} (hu : Container u) (hc : u.canon = u) (hv : v ∈ u.values) :
    v.canon = v := by
  have hmap : u.values.map canon = u.values := by
    obtain ⟨typ, val, keys, values⟩ := u
    rcases hu with ho | ha
    · obtain rfl : typ = .vobj := by simpa [isObject] using ho
      simpa [canon, canonList_eq_map] using congrArg UniValue.values hc
    · obtain rfl : typ = .varr := by simpa [isArray] using ha
      simpa [canon, canonList_eq_map] using congrArg UniValue.values hc
  obtain ⟨i, hi, rfl⟩ := List.getElem_of_mem hv
  have helement : (u.values.map canon)[i]? = u.values[i]? := by rw [hmap]
  simpa [hi] using helement

theorem readable_element {u v : UniValue} (hu : Container u) (hr : Readable u) (hv : v ∈ u.values) :
    Readable v := by
  cases hr with
  | array h => exact h v hv
  | object _ _ h => exact h v hv
  | null | bool | number | string => simp [Container, isObject, isArray] at hu

/-- A container inside a value that was read can be posted by itself. -/
theorem exists_read_element {b : Bytes} {u v : UniValue} (h : read b = (true, u))
    (hu : Container u) (hv : v ∈ u.values) (hc : Container v) : ∃ body, read body = (true, v) := by
  have hr : Readable v := readable_element hu (readable_read h hu) hv
  obtain ⟨s, hs⟩ := (write_ok_iff 0 0 v).mpr hr.writable
  have hread := (read_written hr hc hs).1
  rw [canon_element hu (canon_read h hu) hv] at hread
  exact ⟨_, hread⟩

/-! ## Reply objects and reply texts -/

theorem mapM_ok_iff {α β : Type} {f : α → Except Exception β} {xs : List α} {ys : List β} :
    xs.mapM f = .ok ys ↔ List.Forall₂ (fun x y => f x = .ok y) xs ys := by
  induction xs generalizing ys with
  | nil => simp [pure, Except.pure, eq_comm]
  | cons x xs ih =>
    rw [List.mapM_cons]
    simp only [bind_ok_iff, ih, List.forall₂_cons_left_iff, pure, Except.pure, Except.ok.injEq]
    constructor
    · rintro ⟨y, hy, ys', hys, rfl⟩
      exact ⟨y, ys', hy, hys, rfl⟩
    · rintro ⟨y, ys', hy, hys, rfl⟩
      exact ⟨y, hy, ys', hys, rfl⟩

theorem Answer.writable_replyObj {a : Answer} (hid : Writable a.id) :
    Writable a.replyObj ↔
      (∀ v, a.result = .ok v → Writable v) ∧ ∀ e, a.result = .error e → Writable e.caught := by
  have hnull : null.isNull := rfl
  unfold Answer.replyObj
  cases hresult : a.result with
  | ok v => simp [writable_jsonrpcReplyObj, hid, writable_null, hnull]
  | error e =>
    cases e <;> simp [writable_jsonrpcReplyObj, hid, writable_null, Exception.caught]

theorem Answer.Coded.writable_replyObj {a : Answer} (hc : a.Coded) (hid : Writable a.id) :
    Writable a.replyObj ↔ ∀ v, a.result = .ok v → Writable v := by
  have herror : ∀ e, a.result = .error e → Writable e.caught := by
    intro e he
    obtain ⟨code, message, -, rfl⟩ := hc e he
    exact writable_jsonrpcError code message
  rw [Answer.writable_replyObj hid, and_iff_left herror]

/-- What an element is given in a batch is what it is sent when it is alone. -/
theorem Answer.verdict_of_write {a : Answer} (hc : a.Coded) (hid : Writable a.id) {o : Bytes}
    (ho : write 0 0 a.replyObj = .ok o) :
    ∃ ret nStatus, verdict a.text a.id = .ok (ret, nStatus, o ++ cstr "\n") := by
  unfold Answer.replyObj at ho
  unfold Answer.text
  cases hresult : a.result with
  | ok v =>
    have hreply : jsonrpcReply v null a.id = .ok (o ++ cstr "\n") := by
      simp only [hresult] at ho
      simp only [jsonrpcReply, ho]
      rfl
    exact ⟨true, httpOk, by simp only [Except.bind, hreply, verdict]⟩
  | error e =>
    obtain ⟨code, message, hcode, rfl⟩ := hc e hresult
    have hreply : jsonrpcReply null (jsonrpcError code message) a.id = .ok (o ++ cstr "\n") := by
      simp only [hresult] at ho
      simp only [jsonrpcReply, ho]
      rfl
    obtain ⟨s, hs, hv⟩ := verdict_jsonrpcError hcode message hid
    obtain rfl : s = o ++ cstr "\n" := Except.ok.inj (hs.symm.trans hreply)
    exact ⟨false, errorStatus code, hv⟩

/-- The answers to the elements of a batch. -/
theorem batch_answer {w : World} {req : Req} {u r : UniValue}
    (hr : read (w.request req).inputBuffer = (true, u)) (hu : Container u) (hmem : r ∈ u.values)
    (g : Process) :
    Balanced r ∧ Answers g (startRequest w req) r (answerTo g (startRequest w req) r) ∧
      Writable (answerTo g (startRequest w req) r).id := by
  have hbalanced : Balanced r := by
    obtain ⟨-, hvalues⟩ := balanced_read hr hu
    exact hvalues r hmem
  have hanswers := answers (fun _ => hbalanced) g (startRequest w req)
  exact ⟨hbalanced, hanswers, hanswers.writable_id (fun _ => hbalanced) rfl⟩

/-! ## The two paths -/

/-- What a batch should hold for `r`: the reply to `r` posted alone, without its newline, or the
reply to a request that is no object. -/
def ElementText (g : Process) (uri : Bytes) (r : UniValue) (o : Bytes) : Prop :=
  if r.isObject then
    (∃ body, read body = (true, r)) ∧
      ∀ w req, Authorized (w.request req) → (w.request req).uri = uri →
        read (w.request req).inputBuffer = (true, r) →
        ∃ ret nStatus calls, Sends g w req ret (jsonReply nStatus (o ++ cstr "\n")) calls
  else
    jsonrpcReply null (jsonrpcError rpcInvalidRequest (cstr "Invalid Request object")) null =
      .ok (o ++ cstr "\n")

/-- The reply to the batch is the list of those texts, in order. -/
def BatchAgrees (g : Process) (w : World) (req : Req) (rs : List UniValue) : Prop :=
  ∃ ret reply calls os, Sends g w req ret reply calls ∧
    reply.body = cstr "[" ++ (cstr ",").intercalate os ++ cstr "]" ++ cstr "\n" ∧
    List.Forall₂ (ElementText g (w.request req).uri) rs os

theorem elementText_of_write {g : Process} {w : World} {req : Req} {u r : UniValue} {o : Bytes}
    (hg : g.tableRPC.ThrowsCodes) (hr : read (w.request req).inputBuffer = (true, u))
    (hu : Container u) (hmem : r ∈ u.values)
    (ho : write 0 0 (answerTo g (startRequest w req) r).replyObj = .ok o) :
    ElementText g (w.request req).uri r o := by
  obtain ⟨-, hanswers, hid⟩ := batch_answer hr hu hmem g
  obtain ⟨ret, nStatus, hv⟩ := Answer.verdict_of_write (answers_coded hg hanswers) hid ho
  unfold ElementText
  split
  next hobject =>
    refine ⟨exists_read_element hr hu hmem (.inl hobject), fun w' req' ha' huri hr' => ?_⟩
    have hstart : startRequest w' req' = startRequest w req := by simp only [startRequest, huri]
    exact ⟨ret, nStatus, _, sends_object ha' hr' hobject (by rw [hstart]) hv⟩
  next hobject =>
    have hnot : answerTo g (startRequest w req) r =
        ⟨rpcThrow rpcInvalidRequest "Invalid Request object", null, []⟩ := by
      simp [answerTo, JSONRPCRequest.parse, hobject, rpcThrow, startRequest, JSONRPCRequest.new]
    rw [hnot] at ho
    simp only [Answer.replyObj, rpcThrow] at ho
    simp only [jsonrpcReply, ho]
    rfl

/-- The handler's run on a batch. -/
theorem served_batch {g : Process} {w : World} {req : Req} {u : UniValue}
    (ha : Authorized (w.request req)) (hr : read (w.request req).inputBuffer = (true, u))
    (hu : u.isArray) {ret : Bool} {nStatus : Nat} {s : Bytes}
    (hv : verdict (batchText (u.values.map (answerTo g (startRequest w req)))) null =
      .ok (ret, nStatus, s)) :
    Sends g w req ret (jsonReply nStatus s)
      ((u.values.map (answerTo g (startRequest w req))).flatMap Answer.calls) := by
  have hserved := served_array (g := g) ha hr hu
  exact sends_of_finish (hserved.trans (by simp only [hv]))

theorem batchText_eq (answers : List Answer) :
    batchText answers = ((answers.map Answer.replyObj).mapM (write 0 0)).map
      (fun os => cstr "[" ++ (cstr ",").intercalate os ++ cstr "]" ++ cstr "\n") := by
  rw [batchText, write_array]
  cases (answers.map Answer.replyObj).mapM (write 0 0) <;> rfl

/-- Reply objects that can all be written make the reply to the batch. -/
theorem batchText_writable {answers : List Answer} (h : ∀ a ∈ answers, Writable a.replyObj) :
    ∃ os, List.Forall₂ (fun (a : Answer) o => write 0 0 a.replyObj = .ok o) answers os ∧
      batchText answers =
        .ok (cstr "[" ++ (cstr ",").intercalate os ++ cstr "]" ++ cstr "\n") := by
  have hwrites : ∀ a ∈ answers, ∃ o, write 0 0 a.replyObj = .ok o :=
    fun a ha => (write_ok_iff 0 0 _).mpr (h a ha)
  obtain ⟨os, hos⟩ : ∃ os, List.Forall₂ (fun (a : Answer) o => write 0 0 a.replyObj = .ok o)
      answers os := by
    clear h
    induction answers with
    | nil => exact ⟨[], .nil⟩
    | cons a as ih =>
      obtain ⟨o, ho⟩ := hwrites a (by simp)
      obtain ⟨os, hos⟩ := ih (fun b hb => hwrites b (by simp [hb]))
      exact ⟨o :: os, .cons ho hos⟩
  refine ⟨os, hos, ?_⟩
  have hmapM : (answers.map Answer.replyObj).mapM (write 0 0) = .ok os :=
    mapM_ok_iff.mpr (List.forall₂_map_left_iff.mpr hos)
  rw [batchText_eq, hmapM]
  rfl

/-- One reply object that cannot be written takes the reply to the batch with it. -/
theorem batchText_unwritable {answers : List Answer} (h : ∃ a ∈ answers, ¬ Writable a.replyObj) :
    ∃ what, batchText answers = .error (.std what) := by
  obtain ⟨a, ha, hw⟩ := h
  have harray : ¬ Writable ⟨.varr, [], [], answers.map Answer.replyObj⟩ := by
    rintro (⟨-, hn⟩ | h | -)
    · exact hn rfl
    · exact hw (h _ (List.mem_map_of_mem ha))
  unfold batchText
  cases hs : write 0 0 ⟨.varr, [], [], answers.map Answer.replyObj⟩ with
  | ok s => exact absurd ((write_ok_iff 0 0 _).mp ⟨s, hs⟩) harray
  | error e =>
    obtain ⟨what, rfl⟩ := write_throwsStd 0 0 _ e hs
    exact ⟨what, rfl⟩

theorem jsonrpcReply_head {result error id : UniValue} {s : Bytes}
    (h : jsonrpcReply result error id = .ok s) : s.head? = some 0x7b := by
  obtain ⟨o, ho, hs⟩ := bind_ok_iff.mp h
  rw [jsonrpcReplyObj_eq, write] at ho
  obtain ⟨inner, -, ho⟩ := bind_ok_iff.mp ho
  rw [← Except.ok.inj hs, ← Except.ok.inj ho, cstr_braces.1]
  rfl

/-- Then the one reply is an error object, under a null id. -/
theorem sends_unwritable {g : Process} {w : World} {req : Req} {u : UniValue}
    (ha : Authorized (w.request req)) (hr : read (w.request req).inputBuffer = (true, u))
    (hu : u.isArray)
    (h : ∃ a ∈ u.values.map (answerTo g (startRequest w req)), ¬ Writable a.replyObj) :
    ∃ reply calls, Sends g w req false reply calls ∧ reply.body.head? = some 0x7b := by
  obtain ⟨what, htext⟩ := batchText_unwritable h
  obtain ⟨-, -, hparse, -, -⟩ := fitsInt_codes
  obtain ⟨s, hs, hreply⟩ := errorReply_jsonrpcError hparse what writable_null
  have hv : verdict (batchText (u.values.map (answerTo g (startRequest w req)))) null =
      .ok (false, errorStatus rpcParseError, s) := by
    rw [htext, verdict, Exception.caught, hreply]
    rfl
  exact ⟨_, _, served_batch ha hr hu hv, jsonrpcReply_head hs⟩

/-- A value that cannot be written is enough to make them differ. -/
theorem not_batchAgrees {g : Process} {w : World} {req : Req} {u r v : UniValue}
    {pcmd : CRPCCommand} {named : JSONRPCRequest} (ha : Authorized (w.request req))
    (hr : read (w.request req).inputBuffer = (true, u))
    (hu : u.isArray) (hmem : r ∈ u.values) (hc : Calls g (startRequest w req) r pcmd named)
    (hactor : pcmd.actor named = .ok v) (hv : ¬ Writable v) : ¬ BatchAgrees g w req u.values := by
  rintro ⟨ret, reply, calls, os, hsends, hbody, -⟩
  obtain ⟨hbalanced, -, hid⟩ := batch_answer hr (.inr hu) hmem g
  have hresult : (answerTo g (startRequest w req) r).result = .ok v := by
    rw [hc.answerTo hbalanced, hactor]
    rfl
  have hreplyObj : ¬ Writable (answerTo g (startRequest w req) r).replyObj :=
    fun h => hv (((Answer.writable_replyObj hid).mp h).1 v hresult)
  obtain ⟨reply', calls', hsends', hhead⟩ :=
    sends_unwritable ha hr hu ⟨_, List.mem_map_of_mem hmem, hreplyObj⟩
  obtain ⟨-, rfl, -⟩ := hsends.unique hsends'
  rw [hbody, cstr_brackets.1] at hhead
  simp at hhead

theorem batchAgrees {g : Process} {w : World} {req : Req} {u : UniValue}
    (ha : Authorized (w.request req)) (hg : g.tableRPC.ThrowsCodes)
    (hr : read (w.request req).inputBuffer = (true, u)) (hu : u.isArray)
    (h : ∀ r ∈ u.values, ∀ pcmd named v, Calls g (startRequest w req) r pcmd named →
      pcmd.actor named = .ok v → Writable v) : BatchAgrees g w req u.values := by
  have hall : ∀ a ∈ u.values.map (answerTo g (startRequest w req)), Writable a.replyObj := by
    simp only [List.mem_map, forall_exists_index, and_imp, forall_apply_eq_imp_iff₂]
    intro r hmem
    obtain ⟨-, hanswers, hid⟩ := batch_answer hr (.inr hu) hmem g
    refine ((answers_coded hg hanswers).writable_replyObj hid).mpr (fun v hv => ?_)
    obtain ⟨pcmd, named, hc, hactor⟩ := hanswers.of_ok hv
    exact h r hmem pcmd named v hc hactor
  obtain ⟨os, hos, htext⟩ := batchText_writable hall
  refine ⟨_, _, _, os, served_batch ha hr hu (by rw [htext, verdict]), rfl, ?_⟩
  have helements := (List.forall₂_and_left _ _).mpr
    ⟨fun _ hmem => hmem, List.forall₂_map_left_iff.mp hos⟩
  exact helements.imp (fun r o h => elementText_of_write hg hr (.inr hu) h.1 h.2)

/-- The reply to a batch agrees with the replies to its elements exactly when every value that a
command returns to one of them can be written: alone, an element that cannot be written fails by
itself; in a batch it takes the others with it. -/
theorem batch_agrees_iff {g : Process} {w : World} {req : Req} {u : UniValue}
    (ha : Authorized (w.request req)) (hg : g.tableRPC.ThrowsCodes)
    (hr : read (w.request req).inputBuffer = (true, u)) (hu : u.isArray) :
    BatchAgrees g w req u.values ↔
      ∀ r ∈ u.values, ∀ pcmd named v, Calls g (startRequest w req) r pcmd named →
        pcmd.actor named = .ok v → Writable v := by
  constructor
  · intro h r hmem pcmd named v hc hactor
    by_contra hv
    exact not_batchAgrees ha hr hu hmem hc hactor hv h
  · exact batchAgrees ha hg hr hu

def uptimeBatch : Bytes := cstr "[\x7b\"method\":\"uptime\"\x7d,1]"

theorem batch_agrees_uptime :
    BatchAgrees builtins (.holding (.post [] uptimeBatch)) 0 (read uptimeBatch).2.values := by
  have hread : read uptimeBatch = (true, (read uptimeBatch).2) := by decide +kernel
  refine (batch_agrees_iff (authorized_post [] uptimeBatch) throwsCodes_new hread
    (by decide +kernel)).mpr (fun r _ pcmd named v hc hactor => ?_)
  obtain ⟨hbuiltin, -⟩ := CRPCTable.find_new hc.found
  exact (builtin_readable hbuiltin hactor).writable

/-- A command that returns what a failed `read` has left behind: a key without a value. -/
def leftover : CRPCCommand :=
  ⟨cstr "leftover", fun _ => .ok (read (cstr "\x7b\"a\"")).2, []⟩

def withLeftover : Process :=
  ⟨(CRPCTable.new.appendCommand false (cstr "leftover") (some leftover)).2, default⟩

def leftoverBatch : Bytes := cstr "[\x7b\"method\":\"leftover\"\x7d,\x7b\"method\":\"uptime\"\x7d]"

theorem throwsCodes_withLeftover : withLeftover.tableRPC.ThrowsCodes := by
  intro name pcmd hf
  rw [withLeftover, CRPCTable.find_appendCommand] at hf
  split at hf
  · obtain rfl := Option.some.inj hf
    intro request v hv
    cases hv
  · exact throwsCodes_new name pcmd hf

theorem batch_disagrees_leftover :
    Authorized ((World.holding (.post [] leftoverBatch)).request 0) ∧
      withLeftover.tableRPC.ThrowsCodes ∧ (read leftoverBatch).1 ∧ (read leftoverBatch).2.isArray ∧
      ¬ BatchAgrees withLeftover (.holding (.post [] leftoverBatch)) 0
        (read leftoverBatch).2.values := by
  have hread : read leftoverBatch = (true, (read leftoverBatch).2) ∧
      (read leftoverBatch).2.isArray := by decide +kernel
  have hmem : calling (cstr "leftover") ∈ (read leftoverBatch).2.values := by decide +kernel
  have hfound : withLeftover.tableRPC.find (cstr "leftover") = some leftover := by
    rw [withLeftover, CRPCTable.find_appendCommand, if_pos (by decide +kernel)]
  have hcalls : Calls withLeftover (startRequest (.holding (.post [] leftoverBatch)) 0)
      (calling (cstr "leftover")) leftover _ := calls_calling hfound
  have hleft : (read (cstr "\x7b\"a\"")).2 = ⟨.vobj, [], [cstr "a"], []⟩ := by decide +kernel
  have hunwritable : ¬ Writable (read (cstr "\x7b\"a\"")).2 := by
    rw [hleft]
    rintro (⟨hn, -⟩ | - | ⟨hlen, -⟩)
    · exact hn rfl
    · simp at hlen
  refine ⟨authorized_post [] leftoverBatch, throwsCodes_withLeftover, congrArg Prod.fst hread.1,
    hread.2, ?_⟩
  exact not_batchAgrees (authorized_post [] leftoverBatch) hread.1 hread.2 hmem hcalls rfl
    hunwritable

end JsonRpcServer

import JsonRpcServer.Program
import Mathlib.Data.List.Infix

/-!
# Buffers read through pointers

Programs that read the bytes of a NUL-terminated buffer one at a time, and the loops
over its characters. A program that leaves the buffer comes to nothing.
-/
namespace Buffers

open Programs

/-- Reads of single bytes, at pointers that count from the start of the buffer. -/
abbrev reading : Interface := ⟨Nat, fun _ => UInt8⟩

variable {α β : Type} {buf rest xs : List UInt8} {p : Nat} {c : UInt8}

/-- `*p`. -/
def byteAt (p : Nat) : Program reading UInt8 := Program.perform (I := reading) p

/-- The NUL after the buffer may be read, and nothing beyond it. -/
def terminated (buf : List UInt8) : Handler reading Unit
  | p, u => if p ≤ buf.length then some (buf.getD p 0, u) else none

/-- What a program comes to on a buffer; `none` when it has read out of bounds. -/
def eval (buf : List UInt8) (prog : Program reading α) : Option α :=
  (prog.run (terminated buf) ()).map Prod.fst

@[simp] theorem eval_pure (a : α) : eval buf (pure a : Program reading α) = some a := rfl

@[simp] theorem eval_bind (prog : Program reading α) (f : α → Program reading β) :
    eval buf (prog >>= f) = (eval buf prog).bind (fun a => eval buf (f a)) := by
  unfold eval
  rw [Program.run_bind]
  cases prog.run (terminated buf) () <;> rfl

@[simp] theorem eval_map (f : α → β) (prog : Program reading α) :
    eval buf (f <$> prog) = (eval buf prog).map f := by
  rw [map_eq_pure_bind, eval_bind]
  cases eval buf prog <;> rfl

theorem eval_byteAt (h : p ≤ buf.length) : eval buf (byteAt p) = some (buf.getD p 0) := by
  simp [eval, byteAt, Program.perform, terminated, h]

/-! ## Pointers -/

/-- `rest` is what the buffer holds from `p` on. -/
def At (buf : List UInt8) (p : Nat) (rest : List UInt8) : Prop :=
  ∃ before, before ++ rest = buf ∧ p = before.length

/-- The pointer to the last so many bytes. -/
def ptr (buf rest : List UInt8) : Nat := buf.length - rest.length

theorem At.start : At buf 0 buf := ⟨[], rfl, rfl⟩

theorem At.append (h : At buf p (xs ++ rest)) : At buf (p + xs.length) rest := by
  obtain ⟨before, rfl, rfl⟩ := h
  exact ⟨before ++ xs, by simp, by simp⟩

theorem At.next (h : At buf p (c :: rest)) : At buf (p + 1) rest := by
  have hc : At buf p ([c] ++ rest) := h
  exact hc.append

theorem At.length (h : At buf p rest) : p + rest.length = buf.length := by
  obtain ⟨before, rfl, rfl⟩ := h
  simp

theorem At.eq_ptr (h : At buf p rest) : p = ptr buf rest := by
  have hlength := h.length
  unfold ptr
  omega

theorem At.suffix (h : At buf p rest) {rest' : List UInt8} (hs : rest' <:+ rest) :
    At buf (ptr buf rest') rest' := by
  obtain ⟨xs, rfl⟩ := hs
  have hrest' := h.append
  rw [← hrest'.eq_ptr]
  exact hrest'

theorem At.advance (h : At buf p rest) {n : Nat} (hn : n ≤ rest.length) :
    At buf (p + n) (rest.drop n) := by
  rw [← List.take_append_drop n rest] at h
  have hdrop := h.append
  rwa [List.length_take, Nat.min_eq_left hn] at hdrop

theorem At.drop (h : At buf p rest) (hp : xs <+: rest) :
    p + xs.length = ptr buf (rest.drop xs.length) := by
  obtain ⟨after, rfl⟩ := hp
  rw [List.drop_left]
  exact h.append.eq_ptr

theorem At.eval_byteAt (h : At buf p rest) : eval buf (byteAt p) = some (rest.getD 0 0) := by
  rw [Buffers.eval_byteAt (by have := h.length; omega)]
  obtain ⟨before, rfl, rfl⟩ := h
  simp [List.getD_eq_getElem?_getD, List.getElem?_append]

theorem At.eval_cons (h : At buf p (c :: rest)) : eval buf (byteAt p) = some c := h.eval_byteAt

theorem At.lt_iff (h : At buf p rest) : p < buf.length ↔ rest ≠ [] := by
  have hlength := h.length
  rw [← List.length_pos_iff]
  omega

/-- `raw < last && ...*raw...`, with a character there and without. -/
theorem At.eval_guard (h : At buf p (c :: rest)) (f : UInt8 → Program reading α)
    (prog : Program reading α) :
    eval buf (if p < buf.length then byteAt p >>= f else prog) = eval buf (f c) := by
  rw [if_pos (by simp [h.lt_iff]), eval_bind, h.eval_cons, Option.bind_some]

theorem At.eval_guard_nil (h : At buf p []) (prog prog' : Program reading α) :
    eval buf (if p < buf.length then prog else prog') = eval buf prog' := by
  rw [if_neg (by simp [h.lt_iff])]

/-! ## Loops -/

/-- `while (raw < last && test(*raw)) raw++`. -/
def skip (test : UInt8 → Bool) (last raw : Nat) : Program reading Nat :=
  if raw < last then do
    if test (← byteAt raw) then skip test last (raw + 1) else pure raw
  else pure raw
termination_by last - raw

/-- The same, and the characters are copied to the end of `str`. -/
def copy (test : UInt8 → Bool) (last raw : Nat) (str : List UInt8) :
    Program reading (List UInt8 × Nat) :=
  if raw < last then do
    let ch ← byteAt raw
    if test ch then copy test last (raw + 1) (str ++ [ch]) else pure (str, raw)
  else pure (str, raw)
termination_by last - raw

/-- `strncmp(raw, text, n) == 0`, for a text of `n` characters that has no NUL. -/
def comparesEqual (raw : Nat) : List UInt8 → Program reading Bool
  | [] => pure true
  | c :: text => do
    if (← byteAt raw) = c then comparesEqual (raw + 1) text else pure false

theorem eval_skip (test : UInt8 → Bool) (h : At buf p rest) :
    eval buf (skip test buf.length p) = some (ptr buf (rest.dropWhile test)) := by
  induction rest generalizing p with
  | nil =>
    rw [skip, h.eval_guard_nil, h.eq_ptr]
    rfl
  | cons c rest ih =>
    rw [skip, h.eval_guard, List.dropWhile_cons]
    split
    · exact ih h.next
    · rw [h.eq_ptr]
      rfl

theorem eval_copy (test : UInt8 → Bool) (h : At buf p rest) (str : List UInt8) :
    eval buf (copy test buf.length p str) =
      some (str ++ rest.takeWhile test, ptr buf (rest.dropWhile test)) := by
  induction rest generalizing p str with
  | nil =>
    rw [copy, h.eval_guard_nil, h.eq_ptr]
    simp
  | cons c rest ih =>
    rw [copy, h.eval_guard, List.dropWhile_cons, List.takeWhile_cons]
    split
    · rw [ih h.next]
      simp
    · rw [h.eq_ptr]
      simp

/-- The comparison ends at the NUL at the latest. -/
theorem eval_comparesEqual {text : List UInt8} (htext : 0 ∉ text) (h : At buf p rest) :
    eval buf (comparesEqual p text) = some (decide (text <+: rest)) := by
  induction text generalizing p rest with
  | nil => simp [comparesEqual]
  | cons c text ih =>
    have hc : c ≠ 0 := fun hc => htext (by simp [hc])
    rw [comparesEqual, eval_bind, h.eval_byteAt, Option.bind_some]
    cases rest with
    | nil => simp [hc.symm]
    | cons d rest =>
      by_cases hd : d = c
      · subst hd
        have ih' := ih (fun hmem => htext (List.mem_cons_of_mem d hmem)) h.next
        simpa using ih'
      · simp [hd, Ne.symm hd]

end Buffers

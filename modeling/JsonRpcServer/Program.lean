import Mathlib.Logic.Basic

/-!
# Programs over an interface of calls

A program is a tree of calls to its surroundings: each call gets a reply and the
program goes on from it. A handler gives the calls a meaning on a state; running
a program under one is what a single thread of control does when nobody
interferes.
-/
namespace Programs

structure Interface where
  Call : Type
  Reply : Call → Type

inductive Program (I : Interface) (α : Type) where
  | done : α → Program I α
  | call (c : I.Call) (next : I.Reply c → Program I α) : Program I α

variable {I : Interface} {α β γ S : Type}

namespace Program

/-- A single call, returning its reply. -/
def perform (c : I.Call) : Program I (I.Reply c) := .call c .done

def bind : Program I α → (α → Program I β) → Program I β
  | .done a, f => f a
  | .call c next, f => .call c (fun r => (next r).bind f)

instance : Monad (Program I) where
  pure := .done
  bind := bind

@[simp] theorem done_bind (a : α) (f : α → Program I β) : (Program.done a).bind f = f a := rfl
@[simp] theorem call_bind (c : I.Call) (next : I.Reply c → Program I α) (f : α → Program I β) :
    (Program.call c next).bind f = .call c (fun r => (next r).bind f) := rfl

theorem bind_done (p : Program I α) : p.bind .done = p := by
  induction p with
  | done a => rfl
  | call c next ih => simp [ih]

theorem bind_assoc (p : Program I α) (f : α → Program I β) (g : β → Program I γ) :
    (p.bind f).bind g = p.bind (fun a => (f a).bind g) := by
  induction p with
  | done a => rfl
  | call c next ih => simp [ih]

instance : LawfulMonad (Program I) :=
  LawfulMonad.mk' (Program I) bind_done (fun _ _ => rfl) bind_assoc

end Program

/-- A meaning for the calls: the reply and the state after it, `none` where there is no reply. -/
abbrev Handler (I : Interface) (S : Type) := (c : I.Call) → S → Option (I.Reply c × S)

namespace Program

def run (h : Handler I S) : Program I α → S → Option (α × S)
  | .done a, s => some (a, s)
  | .call c next, s => (h c s).bind (fun (r, t) => (next r).run h t)

@[simp] theorem run_done (h : Handler I S) (a : α) (s : S) :
    (Program.done a : Program I α).run h s = some (a, s) := rfl
@[simp] theorem run_call (h : Handler I S) (c : I.Call) (next : I.Reply c → Program I α) (s : S) :
    (Program.call c next).run h s = (h c s).bind (fun (r, t) => (next r).run h t) := rfl

@[simp] theorem run_pure (h : Handler I S) (a : α) (s : S) :
    (pure a : Program I α).run h s = some (a, s) := rfl

@[simp] theorem run_bind (h : Handler I S) (p : Program I α) (f : α → Program I β) (s : S) :
    (p >>= f).run h s = (p.run h s).bind (fun (a, t) => (f a).run h t) := by
  induction p generalizing s with
  | done a => rfl
  | call c next ih =>
    change (h c s).bind _ = ((h c s).bind _).bind _
    cases h c s with
    | none => rfl
    | some rt => exact ih rt.1 rt.2

@[simp] theorem run_map (h : Handler I S) (f : α → β) (p : Program I α) (s : S) :
    (f <$> p).run h s = (p.run h s).map (fun (a, t) => (f a, t)) := by
  rw [map_eq_pure_bind, run_bind]
  cases p.run h s <;> rfl

end Program

end Programs

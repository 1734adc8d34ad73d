import JsonRpcServer.Program
import Mathlib.Logic.Function.Basic
import Mathlib.Logic.Relation

/-!
# Pools of threads

Programs that take turns on a shared state, a call at a time. Each thread follows
rules, which say stage by stage what it may call; an invariant over the stages and
the state that the allowed calls keep holds of every state the pool reaches.
-/
namespace Programs

open Relation

variable {I : Interface} {T S Stage α β : Type}

/-- What may come back from a call, and the state after it. -/
abbrev Reaction (I : Interface) (S : Type) := (c : I.Call) → S → I.Reply c → S → Prop

/-- The calls a thread may make at a stage, the replies it counts on, and the stage after. -/
structure Rules (I : Interface) (Stage : Type) where
  allows : Stage → I.Call → Prop
  expects : (c : I.Call) → I.Reply c → Prop
  after : Stage → (c : I.Call) → I.Reply c → Stage

/-! ## Following rules -/

namespace Program

/-- From the stage on, the program makes allowed calls only, and it ends as `ends` says. -/
def Follows (R : Rules I Stage) : Program I α → Stage → (α → Stage → Prop) → Prop
  | .done a, stage, ends => ends a stage
  | .call c next, stage, ends =>
    R.allows stage c ∧ ∀ r, R.expects c r → (next r).Follows R (R.after stage c r) ends

variable {R : Rules I Stage} {stage : Stage} {ends : α → Stage → Prop} {ends' : β → Stage → Prop}

theorem Follows.mono {p : Program I α} (h : p.Follows R stage ends) {ends' : α → Stage → Prop}
    (himp : ∀ a st, ends a st → ends' a st) : p.Follows R stage ends' := by
  induction p generalizing stage with
  | done a => exact himp a stage h
  | call c next ih => exact ⟨h.1, fun r hr => ih r (h.2 r hr)⟩

theorem follows_bind {p : Program I α} {f : α → Program I β} :
    (p >>= f).Follows R stage ends' ↔
      p.Follows R stage (fun a st => (f a).Follows R st ends') := by
  induction p generalizing stage with
  | done a => rfl
  | call c next ih => exact and_congr_right fun _ => forall₂_congr fun r _ => ih r

theorem Follows.bind {p : Program I α} {f : α → Program I β} (hp : p.Follows R stage ends)
    (hf : ∀ a st, ends a st → (f a).Follows R st ends') : (p >>= f).Follows R stage ends' :=
  follows_bind.mpr (hp.mono hf)

end Program

/-! ## Pools -/

/-- What is left of each thread, the state they share, and the calls made so far. -/
structure Pool (I : Interface) (T S : Type) where
  threads : T → Program I Unit
  state : S
  calls : List (T × I.Call)

namespace Pool

variable [DecidableEq T]

/-- The pool after a thread has made some calls. -/
def turn (p : Pool I T S) (t : T) (rest : Program I Unit) (s : S) (cs : List I.Call) :
    Pool I T S :=
  ⟨Function.update p.threads t rest, s, p.calls ++ cs.map (t, ·)⟩

variable (reaction : Reaction I S) (starts : S → T → Program I Unit → S → Prop)

/-- A thread makes a call, or one that has ended is started again. -/
inductive Step : Pool I T S → Pool I T S → Prop where
  | call {p : Pool I T S} {t : T} {c : I.Call} {next : I.Reply c → Program I Unit}
      {r : I.Reply c} {s : S} (ht : p.threads t = .call c next)
      (hr : reaction c p.state r s) : Step p (p.turn t (next r) s [c])
  | start {p : Pool I T S} {t : T} {prog : Program I Unit} {s : S}
      (ht : p.threads t = .done ()) (hs : starts p.state t prog s) : Step p (p.turn t prog s [])

abbrev Reaches : Pool I T S → Pool I T S → Prop := ReflTransGen (Step reaction starts)

variable (rules : T → Rules I Stage) (ends : T → Stage → Prop)
  (Inv : (T → Stage) → S → List (T × I.Call) → Prop)

/-- The rules and the invariant fit together. -/
structure Discipline : Prop where
  call : ∀ {stage s calls t c r s'}, Inv stage s calls → (rules t).allows (stage t) c →
    reaction c s r s' → (rules t).expects c r ∧
      Inv (Function.update stage t ((rules t).after (stage t) c r)) s' (calls ++ [(t, c)])
  start : ∀ {stage s calls t prog s'}, Inv stage s calls → ends t (stage t) →
    starts s t prog s' → ∃ st, prog.Follows (rules t) st (fun _ => ends t) ∧
      Inv (Function.update stage t st) s' calls

/-- Every thread is at a stage from which it follows its rules, and the invariant holds. -/
def Orderly (p : Pool I T S) : Prop :=
  ∃ stage, (∀ t, (p.threads t).Follows (rules t) (stage t) (fun _ => ends t)) ∧
    Inv stage p.state p.calls

variable {reaction starts rules ends Inv}

theorem follows_turn {p : Pool I T S} {stage : T → Stage} {t : T} {rest : Program I Unit}
    {st : Stage} (h : ∀ t, (p.threads t).Follows (rules t) (stage t) (fun _ => ends t))
    (hrest : rest.Follows (rules t) st (fun _ => ends t)) (s : S) (cs : List I.Call) (t' : T) :
    ((p.turn t rest s cs).threads t').Follows (rules t') (Function.update stage t st t')
      (fun _ => ends t') := by
  by_cases ht : t' = t
  · subst ht
    simpa only [turn, Function.update_self] using hrest
  · simpa only [turn, Function.update_of_ne ht] using h t'

theorem Orderly.step (hd : Discipline reaction starts rules ends Inv) {p q : Pool I T S}
    (hp : p.Orderly rules ends Inv) (h : Step reaction starts p q) : q.Orderly rules ends Inv := by
  obtain ⟨stage, hfollows, hinv⟩ := hp
  cases h with
  | @call t c next r s ht hr =>
    have hcall := hfollows t
    rw [ht] at hcall
    obtain ⟨hexpects, hinv'⟩ := hd.call hinv hcall.1 hr
    exact ⟨_, follows_turn hfollows (hcall.2 r hexpects) s [c], hinv'⟩
  | @start t prog s ht hs =>
    have hdone := hfollows t
    rw [ht] at hdone
    obtain ⟨st, hprog, hinv'⟩ := hd.start hinv hdone hs
    exact ⟨_, follows_turn hfollows hprog s [], by simpa [turn] using hinv'⟩

theorem Orderly.reaches (hd : Discipline reaction starts rules ends Inv) {p q : Pool I T S}
    (hp : p.Orderly rules ends Inv) (h : Reaches reaction starts p q) :
    q.Orderly rules ends Inv := by
  induction h with
  | refl => exact hp
  | tail _ hstep ih => exact ih.step hd hstep

/-- Running a thread to its end, undisturbed, is one of the ways the pool may go. -/
theorem reaches_run {h : Handler I S} (hh : ∀ {c s r s'}, h c s = some (r, s') → reaction c s r s')
    {prog : Program I Unit} {p : Pool I T S} {t : T} {s : S} (ht : p.threads t = prog)
    (hrun : prog.run h p.state = some ((), s)) :
    ∃ cs, Reaches reaction starts p (p.turn t (.done ()) s cs) := by
  induction prog generalizing p with
  | done a =>
    obtain rfl : p.state = s := by simpa using hrun
    refine ⟨[], ?_⟩
    have hsame : p.turn t (.done ()) p.state [] = p := by
      cases p
      simp_all [turn]
    rw [hsame]
  | call c next ih =>
    simp only [Program.run_call] at hrun
    obtain ⟨⟨r, s'⟩, hc, hnext⟩ := Option.bind_eq_some_iff.mp hrun
    have hstep : Step reaction starts p (p.turn t (next r) s' [c]) := .call ht (hh hc)
    obtain ⟨cs, hrest⟩ := ih r (p := p.turn t (next r) s' [c]) (by simp [turn]) hnext
    refine ⟨c :: cs, .head hstep ?_⟩
    simpa [turn] using hrest

end Pool

end Programs

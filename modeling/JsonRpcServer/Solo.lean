import JsonRpcServer.Threads

/-!
# One thread among the others

What a thread comes to in a pool, read off a run of it alone. `Sees` relates a
state the thread alone might have come to with the state of the pool, and the
calls that were made; where every state it may have after a call comes from one
it may have before, a property of all its runs alone is kept to the end.
-/
namespace Programs

open Relation

variable {I : Interface} {T S V Stage : Type}

namespace Program

/-- A relation between states that every call keeps is kept by a run. -/
theorem run_keeps {h : Handler I V} {R : V → V → Prop} (hrefl : ∀ v, R v v)
    (htrans : ∀ u v w, R u v → R v w → R u w)
    (hcall : ∀ {c v r v'}, h c v = some (r, v') → R v v') {α : Type} {p : Program I α} {v v' : V}
    {a : α} (hrun : p.run h v = some (a, v')) : R v v' := by
  induction p generalizing v with
  | done b =>
    obtain ⟨-, rfl⟩ := Prod.mk.inj (Option.some.inj hrun)
    exact hrefl v
  | call c next ih =>
    rw [run_call] at hrun
    obtain ⟨⟨r, u⟩, hc, hnext⟩ := Option.bind_eq_some_iff.mp hrun
    exact htrans _ _ _ (hcall hc) (ih r hnext)

end Program

namespace Pool

variable [DecidableEq T]

section Fewer
variable {reaction reaction' : Reaction I S} {starts : S → T → Program I Unit → S → Prop}
  {rules : T → Rules I Stage} {ends : T → Stage → Prop}
  {Inv : (T → Stage) → S → List (T × I.Call) → Prop}

/-- Surroundings that react in fewer ways. -/
theorem Discipline.mono (hsub : ∀ {c s r s'}, reaction' c s r s' → reaction c s r s')
    (hd : Discipline reaction starts rules ends Inv) :
    Discipline reaction' starts rules ends Inv where
  call hinv hallows hr := hd.call hinv hallows (hsub hr)
  start := hd.start

end Fewer

variable (reaction : Reaction I S) (starts : S → T → Program I Unit → S → Prop)
  (rules : T → Rules I Stage) (Inv : (T → Stage) → S → List (T × I.Call) → Prop)

/-- The states that `Sees` gives a thread move back with its own calls, as the handler answers
them, and stay as the others take their turns. -/
structure Mirrors (h : Handler I V) (t : T) (Sees : V → S → List (T × I.Call) → Prop) : Prop where
  own : ∀ {stage s calls c r s' v'}, Inv stage s calls → (rules t).allows (stage t) c →
    reaction c s r s' → Sees v' s' (calls ++ [(t, c)]) → ∃ v, Sees v s calls ∧ h c v = some (r, v')
  other : ∀ {stage s calls t' c r s' v}, t' ≠ t → Inv stage s calls →
    (rules t').allows (stage t') c → reaction c s r s' → Sees v s' (calls ++ [(t', c)]) →
    Sees v s calls
  start : ∀ {stage s calls t' prog s' v}, Inv stage s calls → starts s t' prog s' →
    Sees v s' calls → t' ≠ t ∧ Sees v s calls

/-- However the thread alone may have come here, what is left of it ends as `Post` says. -/
def Mirrored (h : Handler I V) (t : T) (Sees : V → S → List (T × I.Call) → Prop)
    (Post : V → Prop) (p : Pool I T S) : Prop :=
  ∀ v, Sees v p.state p.calls → ∃ v', (p.threads t).run h v = some ((), v') ∧ Post v'

variable {reaction starts rules Inv} {ends : T → Stage → Prop} {h : Handler I V} {t : T}
  {Sees : V → S → List (T × I.Call) → Prop} {Post : V → Prop} {p q : Pool I T S}

theorem Mirrored.step (hm : Mirrors reaction starts rules Inv h t Sees)
    (hp : p.Orderly rules ends Inv) (hpost : p.Mirrored h t Sees Post)
    (hstep : Step reaction starts p q) : q.Mirrored h t Sees Post := by
  obtain ⟨stage, hfollows, hinv⟩ := hp
  intro v' hsees
  cases hstep with
  | @call t' c next r s ht hr =>
    have hcall := hfollows t'
    rw [ht] at hcall
    by_cases hown : t' = t
    · subst hown
      obtain ⟨v, hv, hc⟩ := hm.own hinv hcall.1 hr hsees
      obtain ⟨v'', hrun, hend⟩ := hpost v hv
      rw [ht, Program.run_call, hc, Option.bind_some] at hrun
      exact ⟨v'', by simpa [turn] using hrun, hend⟩
    · have hsame : (p.turn t' (next r) s [c]).threads t = p.threads t := by
        simp [turn, Function.update_of_ne (Ne.symm hown)]
      rw [hsame]
      exact hpost v' (hm.other hown hinv hcall.1 hr hsees)
  | @start t' prog s ht hs =>
    simp only [turn, List.map_nil, List.append_nil] at hsees
    obtain ⟨hother, hv⟩ := hm.start hinv hs hsees
    have hsame : (p.turn t' prog s []).threads t = p.threads t := by
      simp [turn, Function.update_of_ne (Ne.symm hother)]
    rw [hsame]
    exact hpost v' hv

theorem Mirrored.reaches (hd : Discipline reaction starts rules ends Inv)
    (hm : Mirrors reaction starts rules Inv h t Sees) (hp : p.Orderly rules ends Inv)
    (hpost : p.Mirrored h t Sees Post) (hreach : Reaches reaction starts p q) :
    q.Mirrored h t Sees Post := by
  induction hreach with
  | refl => exact hpost
  | tail hto hstep ih => exact ih.step hm (hp.reaches hd hto) hstep

end Pool

end Programs

import JsonRpcServer.Program

/-!
# Layers

One interface implemented over another: for each call a program that has a state
of its own. Where each call does below what an abstract handler says above, every
program does, whatever calls it makes and in whatever order.
-/
namespace Programs

variable {I J : Interface} {A S X α : Type}

/-- `X` is the state of the implementation. -/
abbrev Layer (I J : Interface) (X : Type) := (c : I.Call) → StateT X (Program J) (I.Reply c)

/-- A program over the layer. -/
def Program.over (layer : Layer I J X) : Program I α → StateT X (Program J) α
  | .done a => pure a
  | .call c next => layer c >>= fun r => (next r).over layer

namespace Layer

/-- `Rel` holds between the abstract state and the states of the layer and of what is below; it is
kept by the calls that are answered, and the others are not answered below. -/
structure Implements (layer : Layer I J X) (above : Handler I A) (below : Handler J S)
    (Rel : A → X → S → Prop) : Prop where
  answers : ∀ {c a x s r a'}, Rel a x s → above c a = some (r, a') →
    ∃ x' s', ((layer c).run x).run below s = some ((r, x'), s') ∧ Rel a' x' s'
  refuses : ∀ {c a x s}, Rel a x s → above c a = none → ((layer c).run x).run below s = none

variable {layer : Layer I J X} {above : Handler I A} {below : Handler J S} {Rel : A → X → S → Prop}

theorem Implements.run (h : layer.Implements above below Rel) (p : Program I α) {a : A} {x : X}
    {s : S} (hrel : Rel a x s) :
    (∀ r a', p.run above a = some (r, a') →
      ∃ x' s', ((p.over layer).run x).run below s = some ((r, x'), s') ∧ Rel a' x' s') ∧
      (p.run above a = none → ((p.over layer).run x).run below s = none) := by
  induction p generalizing a x s with
  | done r =>
    constructor
    · intro r' a' hrun
      obtain ⟨rfl, rfl⟩ := Prod.mk.inj (Option.some.inj hrun)
      exact ⟨x, s, rfl, hrel⟩
    · intro hrun
      cases hrun
  | call c next ih =>
    have hover : (((Program.call c next).over layer).run x).run below s =
        (((layer c).run x).run below s).bind
          (fun ((r, x'), s') => (((next r).over layer).run x').run below s') := by
      simp [Program.over]
    rw [hover, Program.run_call]
    cases hc : above c a with
    | none => simp [h.refuses hrel hc]
    | some answer =>
      obtain ⟨r, a'⟩ := answer
      obtain ⟨x', s', hlayer, hrel'⟩ := h.answers hrel hc
      rw [hlayer]
      exact ih r hrel'

end Layer

end Programs

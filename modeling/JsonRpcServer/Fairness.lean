import JsonRpcServer.Threads
import Mathlib.Data.Nat.Pairing

/-!
# Fair runs of a pool

Runs without end, one turn at a time. In a fair run a thread that stays ready takes
its turn, so what it is ready for happens, and a thread that is never stuck ends. Fair
runs exist from every pool whose threads can be counted.
-/
namespace Programs

open Relation

variable {I : Interface} {T S : Type}

namespace Pool

variable [DecidableEq T] (reaction : Reaction I S) (starts : S → T → Program I Unit → S → Prop)

/-- A step of one thread. -/
inductive Turn (t : T) : Pool I T S → Pool I T S → Prop where
  | call {p : Pool I T S} {c : I.Call} {next : I.Reply c → Program I Unit} {r : I.Reply c} {s : S}
      (ht : p.threads t = .call c next) (hr : reaction c p.state r s) :
      Turn t p (p.turn t (next r) s [c])
  | start {p : Pool I T S} {prog : Program I Unit} {s : S} (ht : p.threads t = .done ())
      (hs : starts p.state t prog s) : Turn t p (p.turn t prog s [])

def Ready (t : T) (p : Pool I T S) : Prop := ∃ q, Turn reaction starts t p q

/-- At each moment one thread takes its turn, or none does. -/
structure Run (p₀ : Pool I T S) where
  pool : Nat → Pool I T S
  turn : Nat → Option T
  first : pool 0 = p₀
  step : ∀ n, match turn n with
    | some t => Turn reaction starts t (pool n) (pool (n + 1))
    | none => pool (n + 1) = pool n

variable {reaction starts} {p₀ : Pool I T S} {t : T} {n : Nat}

theorem Turn.step {p q : Pool I T S} (h : Turn reaction starts t p q) :
    Step reaction starts p q := by
  cases h with
  | call ht hr => exact .call ht hr
  | start ht hs => exact .start ht hs

theorem Turn.next {p q : Pool I T S} {c : I.Call} {next : I.Reply c → Program I Unit}
    (h : Turn reaction starts t p q) (ht : p.threads t = .call c next) :
    ∃ r, q.threads t = next r := by
  cases h with
  | @call c' next' r s ht' hr =>
    obtain ⟨rfl, hnext⟩ := Program.call.inj (ht.symm.trans ht')
    exact ⟨r, by simp [Pool.turn, eq_of_heq hnext]⟩
  | start ht' hs => cases ht.symm.trans ht'

theorem Turn.other {p q : Pool I T S} {t' : T} (h : Turn reaction starts t' p q) (ht : t' ≠ t) :
    q.threads t = p.threads t := by
  cases h <;> simp [Pool.turn, ht.symm]

namespace Run

/-- No thread stays ready for ever without a turn. -/
def Fair (run : Run reaction starts p₀) : Prop :=
  ∀ t n, (∀ m ≥ n, Ready reaction starts t (run.pool m)) → ∃ m ≥ n, run.turn m = some t

variable {run : Run reaction starts p₀}

theorem step_of_turn (h : run.turn n = some t) :
    Turn reaction starts t (run.pool n) (run.pool (n + 1)) := by
  have hstep := run.step n
  rw [h] at hstep
  exact hstep

theorem step_cases (run : Run reaction starts p₀) (n : Nat) : run.pool (n + 1) = run.pool n ∨
    ∃ t, run.turn n = some t ∧ Turn reaction starts t (run.pool n) (run.pool (n + 1)) := by
  cases h : run.turn n with
  | none =>
    have hstep := run.step n
    rw [h] at hstep
    exact .inl hstep
  | some t => exact .inr ⟨t, rfl, step_of_turn h⟩

theorem reaches (run : Run reaction starts p₀) (n : Nat) :
    Reaches reaction starts p₀ (run.pool n) := by
  induction n with
  | zero => rw [run.first]
  | succ n ih =>
    rcases run.step_cases n with hsame | ⟨t, -, hturn⟩
    · rw [hsame]
      exact ih
    · exact ih.tail hturn.step

/-- What every step keeps holds ever after. -/
theorem kept {P : Pool I T S → Prop} (run : Run reaction starts p₀)
    (hstep : ∀ k {q}, P (run.pool k) → Step reaction starts (run.pool k) q → P q)
    (hn : P (run.pool n)) {m : Nat} (h : n ≤ m) : P (run.pool m) := by
  induction m, h using Nat.le_induction with
  | base => exact hn
  | succ m hm ih =>
    rcases run.step_cases m with hsame | ⟨t, -, hturn⟩
    · rw [hsame]
      exact ih
    · exact hstep m ih hturn.step

/-- What makes a thread ready, and is kept until its turn, holds at its turn. -/
theorem Fair.takes_turn (hfair : run.Fair) {P : Pool I T S → Prop} (hn : P (run.pool n))
    (hready : ∀ m, P (run.pool m) → Ready reaction starts t (run.pool m))
    (hkeep : ∀ m t', t' ≠ t → P (run.pool m) →
      Turn reaction starts t' (run.pool m) (run.pool (m + 1)) → P (run.pool (m + 1))) :
    ∃ m ≥ n, P (run.pool m) ∧ run.turn m = some t := by
  by_contra hnever
  push Not at hnever
  have hall : ∀ m ≥ n, P (run.pool m) := by
    intro m hm
    induction m, hm using Nat.le_induction with
    | base => exact hn
    | succ m hm ih =>
      rcases run.step_cases m with hsame | ⟨t', ht', hturn⟩
      · rw [hsame]
        exact ih
      · refine hkeep m t' ?_ ih hturn
        rintro rfl
        exact hnever m hm ih ht'
  obtain ⟨m, hm, hturn⟩ := hfair t n fun m hm => hready m (hall m hm)
  exact hnever m hm (hall m hm) hturn

/-- A thread that can always make its next call comes to its end. -/
theorem Fair.ends (hfair : run.Fair) {prog : Program I Unit}
    (hready : ∀ m c next, (run.pool m).threads t = .call c next →
      Ready reaction starts t (run.pool m)) (hn : (run.pool n).threads t = prog) :
    ∃ m ≥ n, (run.pool m).threads t = .done () := by
  induction prog generalizing n with
  | done a => exact ⟨n, le_rfl, hn⟩
  | call c next ih =>
    obtain ⟨m, hm, hcall, hturn⟩ := hfair.takes_turn (P := fun p => p.threads t = .call c next) hn
      (fun m => hready m c next) fun m t' ht hcall hother => (hother.other ht).trans hcall
    obtain ⟨r, hnext⟩ := (step_of_turn hturn).next hcall
    obtain ⟨k, hk, hdone⟩ := ih r hnext
    exact ⟨k, by omega, hdone⟩

end Run

/-- Each thread is offered a turn infinitely often, and takes it when it is ready. -/
theorem exists_fair {enum : Nat → T} (henum : enum.Surjective) (reaction : Reaction I S)
    (starts : S → T → Program I Unit → S → Prop) (p₀ : Pool I T S) :
    ∃ run : Run reaction starts p₀, run.Fair := by
  classical
  let next (n : Nat) (p : Pool I T S) : Pool I T S :=
    if h : Ready reaction starts (enum n.unpair.1) p then h.choose else p
  let pool (n : Nat) : Pool I T S := n.rec p₀ next
  let run : Run reaction starts p₀ :=
    { pool := pool
      turn := fun n => if Ready reaction starts (enum n.unpair.1) (pool n) then
        some (enum n.unpair.1) else none
      first := rfl
      step := by
        intro n
        have hpool : pool (n + 1) = next n (pool n) := rfl
        rw [hpool]
        by_cases h : Ready reaction starts (enum n.unpair.1) (pool n)
        · simp only [next, h, if_true, dif_pos]
          exact h.choose_spec
        · simp only [next, h, if_false, dif_neg, not_false_eq_true] }
  refine ⟨run, fun t n hready => ?_⟩
  obtain ⟨k, rfl⟩ := henum t
  have hn : n ≤ Nat.pair k n := Nat.right_le_pair k n
  refine ⟨Nat.pair k n, hn, ?_⟩
  have hthread : (Nat.pair k n).unpair.1 = k := by rw [Nat.unpair_pair]
  have hk : Ready reaction starts (enum (Nat.pair k n).unpair.1) (pool (Nat.pair k n)) := by
    rw [hthread]
    exact hready _ hn
  exact (if_pos hk).trans (by rw [hthread])

end Pool

end Programs

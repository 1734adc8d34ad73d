import Mathlib.Data.List.Induction
import Mathlib.Data.List.Nodup
import Mathlib.Logic.Function.Basic

/-!
# Entries

Lists of entries under keys, where a key may occur again. A reader that starts at
the front finds the first entry of a key, and one that starts at the back the
last. Putting an entry replaces the first of its key or appends one.
-/
namespace Entries

variable {K V : Type} [DecidableEq K]

def first (es : List (K × V)) (k : K) : Option V := (es.find? (fun e => e.1 = k)).map Prod.snd

def last (es : List (K × V)) (k : K) : Option V := first es.reverse k

def put : List (K × V) → K × V → List (K × V)
  | [], p => [p]
  | e :: es, p => if e.1 = p.1 then p :: es else e :: put es p

variable {es fs ps : List (K × V)} {e p : K × V} {k : K} {v : V}

@[simp] theorem first_nil (k : K) : first ([] : List (K × V)) k = none := rfl
@[simp] theorem last_nil (k : K) : last ([] : List (K × V)) k = none := rfl

theorem first_append (es fs : List (K × V)) (k : K) :
    first (es ++ fs) k = (first es k).or (first fs k) := by
  simp only [first, List.find?_append]
  cases es.find? (fun e => e.1 = k) <;> simp

theorem last_append (es fs : List (K × V)) (k : K) :
    last (es ++ fs) k = (last fs k).or (last es k) := by
  rw [last, List.reverse_append, first_append, last, last]

theorem first_eq_none : first es k = none ↔ k ∉ es.map Prod.fst := by
  rw [first, Option.map_eq_none_iff, List.find?_eq_none, List.mem_map, not_exists]
  simp

end Entries

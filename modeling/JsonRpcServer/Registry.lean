import Mathlib.Logic.Function.Basic

/-!
# Registries

Values are offered under keys, one after another. A registry takes an offer that
is open and whose key is free, and keeps what it has taken: a key holds what it
held at the start, or else the value of the first open offer under it.
-/
namespace Registries

variable {K V : Type}

structure Offer (K V : Type) where
  isOpen : Bool
  key : K
  value : V

/-- What each key holds. -/
abbrev Registry (K V : Type) := K → Option V

namespace Registry

def takes (r : Registry K V) (o : Offer K V) : Bool := o.isOpen && (r o.key).isNone

theorem takes_eq_true {r : Registry K V} {o : Offer K V} :
    r.takes o = true ↔ o.isOpen = true ∧ r o.key = none := by
  simp [takes]

variable [DecidableEq K]

def offer (r : Registry K V) (o : Offer K V) : Registry K V :=
  if r.takes o then Function.update r o.key (some o.value) else r

def run (r : Registry K V) (os : List (Offer K V)) : Registry K V := os.foldl offer r

/-- The value of the first open offer under a key. -/
def firstOpen (os : List (Offer K V)) (k : K) : Option V :=
  (os.find? (fun o => o.isOpen && o.key = k)).map Offer.value

variable {r : Registry K V} {o : Offer K V} {os : List (Offer K V)} {k : K} {v : V}

@[simp] theorem run_nil (r : Registry K V) : r.run [] = r := rfl
@[simp] theorem run_cons (r : Registry K V) (o : Offer K V) (os : List (Offer K V)) :
    r.run (o :: os) = (r.offer o).run os := rfl
@[simp] theorem run_append (r : Registry K V) (os os' : List (Offer K V)) :
    r.run (os ++ os') = (r.run os).run os' := List.foldl_append

theorem offer_refused (h : r.takes o = false) : r.offer o = r := by
  simp [offer, h]

theorem offer_taken (h : r.takes o = true) : r.offer o o.key = some o.value := by
  simp [offer, h]

theorem offer_other (h : o.key ≠ k) : r.offer o k = r k := by
  cases ht : r.takes o with
  | false => rw [offer_refused ht]
  | true => simp [offer, ht, Function.update_of_ne (Ne.symm h)]

theorem offer_held (h : r k = some v) : r.offer o k = some v := by
  by_cases hk : o.key = k
  · have hrefused : r.takes o = false := by simp [takes, hk, h]
    rw [offer_refused hrefused, h]
  · rw [offer_other hk, h]

/-- What is held is kept. -/
theorem run_held (h : r k = some v) : r.run os k = some v := by
  induction os generalizing r with
  | nil => exact h
  | cons o os ih => exact ih (offer_held h)

/-- A key holds what it held, or else what was first offered openly under it. -/
theorem run_apply (r : Registry K V) (os : List (Offer K V)) (k : K) :
    r.run os k = (r k).or (firstOpen os k) := by
  induction os generalizing r with
  | nil => simp [firstOpen]
  | cons o os ih =>
    cases hr : r k with
    | some v => exact run_held hr
    | none =>
      by_cases ho : o.isOpen = true ∧ o.key = k
      · obtain ⟨hopen, rfl⟩ := ho
        rw [run_cons, run_held (offer_taken (takes_eq_true.mpr ⟨hopen, hr⟩))]
        simp [firstOpen, hopen]
      · have hsame : r.offer o k = none := by
          by_cases hk : o.key = k
          · have hrefused : r.takes o = false := by
              simpa [takes, hk, hr] using fun hopen => ho ⟨hopen, hk⟩
            rw [offer_refused hrefused, hr]
          · rw [offer_other hk, hr]
        rw [run_cons, ih, hsame]
        simp [firstOpen, ho]

/-- An offer is taken exactly when it is open, and neither the registry at the start nor an offer
taken before it has the key. -/
theorem takes_run_iff :
    (r.run os).takes o = true ↔ o.isOpen = true ∧ r o.key = none ∧
      ∀ before earlier between, os = before ++ earlier :: between →
        (r.run before).takes earlier = true → earlier.key ≠ o.key := by
  rw [takes_eq_true]
  constructor
  · rintro ⟨hopen, hfree⟩
    refine ⟨hopen, ?_, ?_⟩
    · rw [run_apply] at hfree
      exact (Option.or_eq_none_iff.mp hfree).1
    · rintro before earlier between rfl htaken hkey
      have hheld : (r.run before).offer earlier o.key = some earlier.value := by
        rw [← hkey]
        exact offer_taken htaken
      rw [run_append, run_cons, run_held hheld] at hfree
      cases hfree
  · rintro ⟨hopen, hr, hearlier⟩
    refine ⟨hopen, ?_⟩
    rw [run_apply, hr, Option.none_or]
    cases hfirst : os.find? (fun o' => o'.isOpen && o'.key = o.key) with
    | none => simp [firstOpen, hfirst]
    | some earlier =>
      obtain ⟨hopen', before, between, hos, hnone⟩ := List.find?_eq_some_iff_append.mp hfirst
      simp only [Bool.and_eq_true, decide_eq_true_eq] at hopen'
      -- nothing open under the key comes before the first
      have hfree : r.run before earlier.key = none := by
        rw [run_apply, hopen'.2, hr, Option.none_or, firstOpen, Option.map_eq_none_iff]
        refine List.find?_eq_none.mpr (fun o' ho' hopen => ?_)
        exact absurd (hnone o' ho') (by rw [hopen]; decide)
      have htaken := takes_eq_true.mpr ⟨hopen'.1, hfree⟩
      exact absurd hopen'.2 (hearlier before earlier between hos htaken)

end Registry

end Registries

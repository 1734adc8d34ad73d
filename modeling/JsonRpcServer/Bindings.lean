import Mathlib.Data.Fintype.Card
import Mathlib.Data.List.DropRight
import Mathlib.Data.List.FinRange
import Mathlib.Data.List.Perm.Basic
import Mathlib.Data.List.ReduceOption

/-!
# Bindings and places

Lists of bindings in which the last one of a key counts, and lists of values in
which some values have places of their own and the rest is padding.
-/
namespace Bindings

section
variable {K V : Type} [DecidableEq K]

/-- The bindings that no later one of their key follows. -/
def latest : List (K × V) → List (K × V)
  | [] => []
  | b :: bs => if b.1 ∈ bs.map Prod.fst then latest bs else b :: latest bs

/-- The bindings that a later one of their key follows. -/
def superseded : List (K × V) → List (K × V)
  | [] => []
  | b :: bs => if b.1 ∈ bs.map Prod.fst then b :: superseded bs else superseded bs

theorem perm_latest (bs : List (K × V)) : bs.Perm (latest bs ++ superseded bs) := by
  induction bs with
  | nil => exact .nil
  | cons b bs ih =>
    rw [latest, superseded]
    split
    · exact (ih.cons b).trans List.perm_middle.symm
    · exact ih.cons b

/-- No key gets lost. -/
theorem mem_keys_latest (bs : List (K × V)) (k : K) :
    k ∈ (latest bs).map Prod.fst ↔ k ∈ bs.map Prod.fst := by
  induction bs with
  | nil => rfl
  | cons b bs ih =>
    rw [latest]
    split
    next hb =>
      rw [ih, List.map_cons, List.mem_cons]
      exact ⟨Or.inr, fun hk => hk.elim (fun hk => hk ▸ hb) id⟩
    next => rw [List.map_cons, List.map_cons, List.mem_cons, List.mem_cons, ih]

theorem nodup_keys_latest (bs : List (K × V)) : ((latest bs).map Prod.fst).Nodup := by
  induction bs with
  | nil => exact List.nodup_nil
  | cons b bs ih =>
    rw [latest]
    split
    next => exact ih
    next hb =>
      rw [List.map_cons, List.nodup_cons]
      exact ⟨fun hk => hb ((mem_keys_latest bs b.1).mp hk), ih⟩

theorem mem_latest_cons (b : K × V) (bs : List (K × V)) (k : K) (v : V) :
    (k, v) ∈ latest (b :: bs) ↔ (k, v) ∈ latest bs ∨ k ∉ bs.map Prod.fst ∧ (k, v) = b := by
  rw [latest]
  split
  next hb =>
    refine (or_iff_left ?_).symm
    rintro ⟨hk, rfl⟩
    exact hk hb
  next hb =>
    rw [List.mem_cons, or_comm]
    refine or_congr_right (iff_and_self.mpr ?_)
    rintro rfl
    exact hb

theorem find_reverse_eq_none (bs : List (K × V)) (k : K) :
    bs.reverse.find? (fun b => b.1 = k) = none ↔ k ∉ bs.map Prod.fst := by
  rw [List.find?_eq_none, List.mem_map, not_exists]
  simp

/-- The latest binding of a key is the first one from the right. -/
theorem mem_latest_iff (bs : List (K × V)) (k : K) (v : V) :
    (k, v) ∈ latest bs ↔ (bs.reverse.find? (fun b => b.1 = k)).map Prod.snd = some v := by
  induction bs with
  | nil => simp [latest]
  | cons b bs ih =>
    rw [mem_latest_cons, ih, ← find_reverse_eq_none, List.reverse_cons, List.find?_append]
    cases bs.reverse.find? (fun b => b.1 = k) with
    | some c => simp
    | none =>
      by_cases hk : b.1 = k
      · subst hk
        simp [Prod.ext_iff, eq_comm]
      · have hne : (k, v) ≠ b := by
          rintro rfl
          exact hk rfl
        simp [hk, hne]

end

/-! ## Places -/

section
variable {α : Type} {d : α} {xs ys zs vs : List α}

/-- Each of the `xs` stands in a place of its own among the `vs`, and `d` stands in the others. -/
def HasPlaces (d : α) (xs vs : List α) : Prop :=
  ∃ place : Fin xs.length → Fin vs.length, Function.Injective place ∧
    (∀ i, vs.get (place i) = xs.get i) ∧ ∀ j, (∀ i, place i ≠ j) → vs.get j = d

theorem HasPlaces.length_le (h : HasPlaces d xs vs) : xs.length ≤ vs.length := by
  obtain ⟨place, hinj, -, -⟩ := h
  simpa using Fintype.card_le_of_injective place hinj

theorem map_get_finRange (vs : List α) : (List.finRange vs.length).map vs.get = vs :=
  List.ofFn_eq_map.symm.trans (List.ofFn_get vs)

theorem HasPlaces.perm (h : HasPlaces d xs vs) : ∃ n, vs.Perm (xs ++ List.replicate n d) := by
  obtain ⟨place, hinj, hval, hrest⟩ := h
  let rest := (List.finRange vs.length).filter (fun j => ∀ i, place i ≠ j)
  have hall : (List.finRange vs.length).Perm ((List.finRange xs.length).map place ++ rest) := by
    have hplaces : ((List.finRange xs.length).map place).Nodup :=
      (List.nodup_finRange _).map hinj
    refine (List.perm_ext_iff_of_nodup (List.nodup_finRange _)
      (hplaces.append ((List.nodup_finRange _).filter _) ?_)).mpr ?_
    · intro j hj hrest
      obtain ⟨i, -, rfl⟩ := List.mem_map.mp hj
      have hfree := (List.mem_filter.mp hrest).2
      exact of_decide_eq_true hfree i rfl
    · intro j
      by_cases hj : ∃ i, place i = j
      · simp [hj]
      · simpa [rest] using .inr (fun i => not_exists.mp hj i)
  have hxs : ((List.finRange xs.length).map place).map vs.get = xs := by
    rw [List.map_map]
    exact (List.map_congr_left (fun i _ => hval i)).trans (map_get_finRange xs)
  have hpad : rest.map vs.get = List.replicate rest.length d := by
    refine List.eq_replicate_iff.mpr ⟨List.length_map _, fun x hx => ?_⟩
    obtain ⟨j, hj, rfl⟩ := List.mem_map.mp hx
    exact hrest j (of_decide_eq_true (List.mem_filter.mp hj).2)
  refine ⟨rest.length, ?_⟩
  have hmap := hall.map vs.get
  rwa [map_get_finRange, List.map_append, hxs, hpad] at hmap

theorem hasPlaces_of_perm {n : Nat} (h : vs.Perm (xs ++ List.replicate n d)) :
    HasPlaces d xs vs := by
  -- the places are read off the permuted list of all of them
  have hcomp := congrFun (congrFun (List.eq_map_comp_perm vs.get) (xs ++ List.replicate n d))
    (List.finRange vs.length)
  rw [map_get_finRange] at hcomp
  obtain ⟨places, hplaces, hperm⟩ := hcomp.mpr h.symm
  obtain ⟨own, rest, rfl, hown, hrest⟩ := List.map_eq_append_iff.mp hplaces.symm
  have hnodup := hperm.nodup_iff.mpr (List.nodup_finRange vs.length)
  subst hown
  refine ⟨fun i => own.get (i.cast (List.length_map _)), ?_, ?_, ?_⟩
  · intro i j hij
    have hget := List.nodup_iff_injective_get.mp (List.nodup_append.mp hnodup).1 hij
    simpa [Fin.ext_iff] using hget
  · intro i
    simp
  · intro j hj
    have hmem := hperm.mem_iff.mpr (List.mem_finRange j)
    rcases List.mem_append.mp hmem with hmem | hmem
    · obtain ⟨i, rfl⟩ := List.get_of_mem hmem
      exact absurd rfl (hj (i.cast (List.length_map _).symm))
    · have hd : vs.get j ∈ List.replicate n d := by
        rw [← hrest]
        exact List.mem_map_of_mem hmem
      exact List.eq_of_mem_replicate hd

/-- Where the values are the `ys` and padding, the `ys` have places together with others exactly
when the others are padding, too. -/
theorem hasPlaces_iff_of_perm {n : Nat} (hvs : vs.Perm (ys ++ List.replicate n d))
    (hxs : xs.Perm (ys ++ zs)) :
    HasPlaces d xs vs ↔ (∀ z ∈ zs, z = d) ∧ zs.length ≤ n := by
  constructor
  · intro h
    obtain ⟨m, hm⟩ := h.perm
    have hpad : (List.replicate n d).Perm (zs ++ List.replicate m d) := by
      rw [← List.perm_append_left_iff ys, ← List.append_assoc]
      exact hvs.symm.trans (hm.trans (hxs.append_right _))
    have heq := (List.replicate_perm.mp hpad).symm
    constructor
    · intro z hz
      exact List.eq_of_mem_replicate (heq ▸ List.mem_append_left _ hz)
    · have hlength := congrArg List.length heq
      simp only [List.length_append, List.length_replicate] at hlength
      omega
  · rintro ⟨hz, hlength⟩
    have hzs : zs = List.replicate zs.length d := List.eq_replicate_iff.mpr ⟨rfl, hz⟩
    apply hasPlaces_of_perm (n := n - zs.length)
    have hpad : List.replicate n d = zs ++ List.replicate (n - zs.length) d := by
      rw [hzs, List.length_replicate, List.replicate_append_replicate]
      congr 1
      omega
    rw [hpad, ← List.append_assoc] at hvs
    exact hvs.trans (hxs.symm.append_right _)

/-- Options with a default: the values there are, and as many defaults as there is nothing. -/
theorem perm_getD (os : List (Option α)) (d : α) :
    (os.map (·.getD d)).Perm (os.reduceOption ++ List.replicate (os.countP Option.isNone) d) := by
  induction os with
  | nil => exact .nil
  | cons o os ih =>
    cases o with
    | some a => simpa using ih.cons a
    | none =>
      rw [List.map_cons, Option.getD_none, List.reduceOption_cons_of_none,
        List.countP_cons_of_pos rfl, List.replicate_succ]
      exact (ih.cons d).trans List.perm_middle.symm

theorem rdropWhile_map {β : Type} (f : α → β) (p : β → Bool) (l : List α) :
    (l.map f).rdropWhile p = (l.rdropWhile (p ∘ f)).map f := by
  simp [List.rdropWhile, List.dropWhile_map, ← List.map_reverse]

theorem reduceOption_rdropWhile (os : List (Option α)) :
    (os.rdropWhile Option.isNone).reduceOption = os.reduceOption := by
  induction os using List.reverseRecOn with
  | nil => rfl
  | append_singleton os o ih =>
    cases o with
    | none =>
      rw [List.rdropWhile_concat_pos _ _ _ rfl, ih, List.reduceOption_append]
      simp
    | some a => rw [List.rdropWhile_concat_neg _ _ _ (by simp)]

end

end Bindings

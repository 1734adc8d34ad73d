import Mathlib.Algebra.Group.Nat.Defs

/-!
# Loops that count in a machine word

`for (unsigned int i = 0; i < size; i++)`, where `size` may be more than an index can
be: the index then wraps, and the loop goes on for ever unless one of its rounds
leaves it. A round leaves the loop by an exception or by a return.
-/
namespace Loops

variable {ε σ α β : Type}

/-- The loop from index `i` on, for that many rounds at most; `none` when it has not ended by
then. -/
def forIndex (size : Nat) (body : UInt32 → σ → ExceptT ε Option σ) :
    Nat → UInt32 → σ → ExceptT ε Option σ
  | 0, _, _ => ExceptT.mk none
  | rounds + 1, i, s =>
    if i.toNat < size then do
      let s ← body i s
      forIndex size body rounds (i + 1) s
    else pure s

/-- The same loop along a list, with indices that do not wrap. -/
def forEach (step : Nat → α → σ → Except ε σ) : Nat → List α → σ → Except ε σ
  | _, [], s => .ok s
  | k, x :: xs, s => do
    let s ← step k x s
    forEach step (k + 1) xs s

/-! ## What comes back -/

/-- With enough rounds it comes back, and with `r`. -/
def ComesTo (m : Nat → ExceptT ε Option α) (r : Except ε α) : Prop :=
  ∃ n, ∀ rounds ≥ n, (m rounds).run = some r

/-- If it comes back, then with `r`. -/
def OnlyTo (m : ExceptT ε Option α) (r : Except ε α) : Prop := ∀ r', m.run = some r' → r' = r

theorem ComesTo.const {m : ExceptT ε Option α} {r : Except ε α} (h : m.run = some r) :
    ComesTo (fun _ => m) r := ⟨0, fun _ _ => h⟩

theorem ComesTo.of_succ {m : Nat → ExceptT ε Option α} {r : Except ε α}
    (h : ComesTo (fun rounds => m (rounds + 1)) r) : ComesTo m r := by
  obtain ⟨n, hn⟩ := h
  refine ⟨n + 1, fun rounds hr => ?_⟩
  obtain ⟨rounds, rfl⟩ := Nat.exists_eq_add_of_lt (Nat.lt_of_succ_le hr)
  exact hn _ (Nat.le_add_right n rounds)

theorem run_bind_eq {m : ExceptT ε Option α} {f : α → ExceptT ε Option β} {r : Except ε α}
    {g : α → Except ε β} (h : m.run = some r) (hf : ∀ a, r = .ok a → (f a).run = some (g a)) :
    (m >>= f).run = some (r >>= g) := by
  rw [ExceptT.run_bind, h]
  cases r with
  | error e => rfl
  | ok a => exact hf a rfl

theorem ComesTo.bind {m : Nat → ExceptT ε Option α} {f : Nat → α → ExceptT ε Option β}
    {r : Except ε α} {g : α → Except ε β} (h : ComesTo m r)
    (hf : ∀ a, r = .ok a → ComesTo (fun rounds => f rounds a) (g a)) :
    ComesTo (fun rounds => m rounds >>= f rounds) (r >>= g) := by
  obtain ⟨n, hn⟩ := h
  cases r with
  | error e => exact ⟨n, fun rounds hr => run_bind_eq (hn rounds hr) (fun a ha => nomatch ha)⟩
  | ok a =>
    obtain ⟨n', hn'⟩ := hf a rfl
    refine ⟨max n n', fun rounds hr => ?_⟩
    obtain ⟨hr, hr'⟩ := Nat.max_le.mp hr
    refine run_bind_eq (hn rounds hr) fun b hb => ?_
    cases hb
    exact hn' rounds hr'

theorem OnlyTo.const {m : ExceptT ε Option α} {r : Except ε α} (h : m.run = some r) :
    OnlyTo m r := fun _ h' => Option.some.inj (h'.symm.trans h)

theorem OnlyTo.bind {m : ExceptT ε Option α} {f : α → ExceptT ε Option β} {r : Except ε α}
    {g : α → Except ε β} (h : OnlyTo m r) (hf : ∀ a, r = .ok a → OnlyTo (f a) (g a)) :
    OnlyTo (m >>= f) (r >>= g) := by
  intro r' hr'
  rw [ExceptT.run_bind] at hr'
  rcases hm : m.run with _ | r''
  · rw [hm] at hr'
    cases hr'
  obtain rfl := h r'' hm
  rw [hm] at hr'
  cases r'' with
  | error e => exact (Option.some.inj hr').symm
  | ok a => exact hf a rfl r' hr'

/-- A computation that returns has got through both its parts. -/
theorem run_bind_ok {m : ExceptT ε Option α} {f : α → ExceptT ε Option β} {b : β}
    (h : (m >>= f).run = some (.ok b)) :
    ∃ a, m.run = some (.ok a) ∧ (f a).run = some (.ok b) := by
  rw [ExceptT.run_bind] at h
  rcases hm : m.run with _ | (e | a)
  · rw [hm] at h
    cases h
  · rw [hm] at h
    cases h
  · rw [hm] at h
    exact ⟨a, rfl, h⟩

/-! ## Along a list -/

section
variable {l : List α} {step : Nat → α → σ → Except ε σ} {rounds : Nat} {i : UInt32} {s : σ}

theorem toNat_succ {n : Nat} (h : i.toNat < n) (hn : n < 2 ^ 32) : (i + 1).toNat = i.toNat + 1 := by
  rw [UInt32.toNat_add]
  exact Nat.mod_eq_of_lt (by simp; omega)

theorem forEach_drop (h : i.toNat < l.length) :
    forEach step i.toNat (l.drop i.toNat) s =
      (step i.toNat l[i.toNat] s >>= forEach step (i.toNat + 1) (l.drop (i.toNat + 1))) := by
  rw [List.drop_eq_getElem_cons h]
  rfl

/-- What holds of every index for enough rounds holds of all of them for enough rounds. -/
theorem enough_for_all {P : Nat → Nat → Prop} {n : Nat}
    (h : ∀ k < n, ∃ m, ∀ rounds ≥ m, P k rounds) : ∃ m, ∀ rounds ≥ m, ∀ k < n, P k rounds := by
  induction n with
  | zero => exact ⟨0, fun _ _ k hk => absurd hk (Nat.not_lt_zero k)⟩
  | succ n ih =>
    obtain ⟨m, hm⟩ := ih fun k hk => h k (Nat.lt_succ_of_lt hk)
    obtain ⟨m', hm'⟩ := h n (Nat.lt_succ_self n)
    refine ⟨max m m', fun rounds hr k hk => ?_⟩
    rcases Nat.lt_succ_iff_lt_or_eq.mp hk with hlt | rfl
    · exact hm rounds (Nat.max_le.mp hr).1 k hlt
    · exact hm' rounds (Nat.max_le.mp hr).2

theorem run_forIndex {body : UInt32 → σ → ExceptT ε Option σ} (hl : l.length < 2 ^ 32)
    (h : ∀ (i : UInt32) (hi : i.toNat < l.length) s,
      (body i s).run = some (step i.toNat l[i.toNat] s)) (hi : i.toNat ≤ l.length)
    (hrounds : l.length < rounds + i.toNat) :
    (forIndex l.length body rounds i s).run = some (forEach step i.toNat (l.drop i.toNat) s) := by
  induction rounds generalizing i s with
  | zero => omega
  | succ rounds ih =>
    rw [forIndex]
    split
    next hlt =>
      have hsucc := toNat_succ hlt hl
      rw [forEach_drop hlt, ExceptT.run_bind, h i hlt s]
      cases hstep : step i.toNat l[i.toNat] s with
      | error e => rfl
      | ok s' =>
        have hrest := ih (i := i + 1) (s := s') (by omega) (by omega)
        rw [hsucc] at hrest
        exact hrest
    next hge =>
      rw [List.drop_eq_nil_of_le (Nat.le_of_not_lt hge)]
      rfl

/-- A loop over a list that is not too long comes to what the list gives, if each round does. -/
theorem comesTo_forIndex {body : Nat → UInt32 → σ → ExceptT ε Option σ} (hl : l.length < 2 ^ 32)
    (h : ∀ (i : UInt32) (hi : i.toNat < l.length), ∃ n, ∀ rounds ≥ n, ∀ s,
      (body rounds i s).run = some (step i.toNat l[i.toNat] s)) (s : σ) :
    ComesTo (fun rounds => forIndex l.length (body rounds) rounds 0 s) (forEach step 0 l s) := by
  have hindex : ∀ k < l.length, ∃ n, ∀ rounds ≥ n, ∀ (i : UInt32) (hi : i.toNat < l.length),
      i.toNat = k → ∀ s, (body rounds i s).run = some (step i.toNat l[i.toNat] s) := by
    intro k hk
    have hk32 : (UInt32.ofNat k).toNat = k := UInt32.toNat_ofNat_of_lt (Nat.lt_trans hk hl)
    obtain ⟨n, hn⟩ := h (.ofNat k) (by rwa [hk32])
    refine ⟨n, fun rounds hr i hi hik s => ?_⟩
    obtain rfl : i = .ofNat k := UInt32.toNat_inj.mp (hik.trans hk32.symm)
    exact hn rounds hr s
  obtain ⟨n, hn⟩ := enough_for_all hindex
  refine ⟨max n (l.length + 1), fun rounds hr => ?_⟩
  obtain ⟨hrn, hrl⟩ := Nat.max_le.mp hr
  exact run_forIndex hl (fun i hi => hn rounds hrn i.toNat hi i hi rfl) (Nat.zero_le _) hrl

/-- A loop that ends without being left has a size that an index can be. -/
theorem size_lt_of_forIndex {size : Nat} {body : UInt32 → σ → ExceptT ε Option σ} {s' : σ}
    (h : (forIndex size body rounds i s).run = some (.ok s')) : size < 2 ^ 32 := by
  induction rounds generalizing i s with
  | zero => cases h
  | succ rounds ih =>
    rw [forIndex] at h
    split at h
    · obtain ⟨s₁, -, hrest⟩ := run_bind_ok h
      exact ih hrest
    next hge => exact Nat.lt_of_le_of_lt (Nat.le_of_not_lt hge) i.toNat_lt

/-- And each of its rounds has come to its end. -/
theorem round_of_forIndex {size k : Nat} {body : UInt32 → σ → ExceptT ε Option σ} {s' : σ}
    (h : (forIndex size body rounds i s).run = some (.ok s')) (hik : i.toNat ≤ k) (hk : k < size) :
    ∃ j : UInt32, j.toNat = k ∧ ∃ s₁ s₂, (body j s₁).run = some (.ok s₂) := by
  have hsize := size_lt_of_forIndex h
  induction rounds generalizing i s with
  | zero => cases h
  | succ rounds ih =>
    rw [forIndex, if_pos (Nat.lt_of_le_of_lt hik hk)] at h
    obtain ⟨s₁, hbody, hrest⟩ := run_bind_ok h
    rcases Nat.eq_or_lt_of_le hik with heq | hlt
    · exact ⟨i, heq, s, s₁, hbody⟩
    · have hsucc := toNat_succ hlt (Nat.lt_trans hk hsize)
      exact ih hrest (by rwa [hsucc])

section
variable {body : UInt32 → σ → ExceptT ε Option σ}

/-- Up to where the loop ends or is left, the index does not wrap. -/
theorem onlyTo_until {stop : Nat} (hstop : stop < 2 ^ 32)
    (hend : stop = l.length ∨ ∃ hs : stop < l.length, ∀ s, ∃ e, step stop l[stop] s = .error e)
    (h : ∀ (i : UInt32) (hi : i.toNat < l.length) s, OnlyTo (body i s) (step i.toNat l[i.toNat] s))
    (hi : i.toNat ≤ stop) :
    OnlyTo (forIndex l.length body rounds i s) (forEach step i.toNat (l.drop i.toNat) s) := by
  induction rounds generalizing i s with
  | zero => exact fun r hr => nomatch hr
  | succ rounds ih =>
    rw [forIndex]
    split
    next hlt =>
      rw [forEach_drop hlt]
      refine (h i hlt s).bind fun s' hs' => ?_
      have hne : i.toNat ≠ stop := by
        rintro rfl
        rcases hend with hend | ⟨hs, hexit⟩
        · omega
        · obtain ⟨e, he⟩ := hexit s
          rw [he] at hs'
          cases hs'
      have hsucc := toNat_succ (Nat.lt_of_le_of_ne hi hne) hstop
      have hrest := ih (i := i + 1) (s := s') (by omega)
      rwa [hsucc] at hrest
    next hge =>
      rw [List.drop_eq_nil_of_le (Nat.le_of_not_lt hge)]
      exact .const rfl

/-- A loop that no round leaves does not end if the index is too small for the size. -/
theorem forIndex_goes_on {size : Nat} (hsize : 2 ^ 32 ≤ size)
    (h : ∀ (i : UInt32) s e, (body i s).run ≠ some (.error e)) :
    (forIndex size body rounds i s).run = none := by
  induction rounds generalizing i s with
  | zero => rfl
  | succ rounds ih =>
    rw [forIndex, if_pos (Nat.lt_of_lt_of_le i.toNat_lt hsize), ExceptT.run_bind]
    rcases hb : (body i s).run with _ | (e | s')
    · rfl
    · exact absurd hb (h i s e)
    · exact ih

/-- Whatever the size, a loop that comes back does so with what the list gives. Whether a round
leaves the loop does not depend on the state. -/
theorem onlyTo_forIndex
    (h : ∀ (i : UInt32) (hi : i.toNat < l.length) s, OnlyTo (body i s) (step i.toNat l[i.toNat] s))
    (hexit : ∀ k x s s' e, step k x s = .error e → ∃ e', step k x s' = .error e')
    (s : σ) : OnlyTo (forIndex l.length body rounds 0 s) (forEach step 0 l s) := by
  by_cases hl : l.length < 2 ^ 32
  · exact onlyTo_until hl (.inl rfl) h (Nat.zero_le _)
  have hl : 2 ^ 32 ≤ l.length := Nat.le_of_not_lt hl
  by_cases hleft : ∃ (j : UInt32) (hj : j.toNat < l.length) (s : σ) (e : ε),
      step j.toNat l[j.toNat] s = .error e
  · obtain ⟨j, hj, s₁, e, he⟩ := hleft
    exact onlyTo_until j.toNat_lt (.inr ⟨hj, fun s' => hexit _ _ s₁ s' e he⟩) h (Nat.zero_le _)
  · intro r hr
    have hgoes : (forIndex l.length body rounds 0 s).run = none := forIndex_goes_on hl
      fun i s e he => hleft ⟨i, Nat.lt_of_lt_of_le i.toNat_lt hl, s, e, (h i _ s _ he).symm⟩
    rw [hgoes] at hr
    cases hr

end

end

end Loops

import JsonRpcServer.Threads

/-!
# Contracts of stateful programs

What a program with variables of its own, which may throw, keeps to and ends in: from
a state and a stage it makes the calls its rules allow, whatever it is answered, and
its outcome, its variables and the stage at the end are as the contract says.
-/
namespace Programs

variable {I : Interface} {ε σ Stage α β : Type}

/-- A program with variables that may throw; a throw keeps the variables. -/
abbrev Throwing (I : Interface) (ε σ : Type) := ExceptT ε (StateT σ (Program I))

/-- `p`, and then the destructors of its scope, also when it throws. -/
def leaving (p : Throwing I ε σ α) (destroy : StateT σ (Program I) Unit) : Throwing I ε σ α :=
  ExceptT.mk do
    let result ← p.run
    destroy
    pure result

/-- Whatever is answered, `p` follows the rules and ends as `post` says. -/
def Ensures (R : Rules I Stage) (p : Throwing I ε σ α) (s : σ) (stage : Stage)
    (post : Except ε α → σ → Stage → Prop) : Prop :=
  (p.run.run s).Follows R stage (fun r => post r.1 r.2)

variable {R : Rules I Stage} {s : σ} {stage : Stage} {post : Except ε α → σ → Stage → Prop}
  {post' : Except ε β → σ → Stage → Prop}

theorem Ensures.mono {p : Throwing I ε σ α} (h : Ensures R p s stage post)
    {post₁ : Except ε α → σ → Stage → Prop} (himp : ∀ r s' st, post r s' st → post₁ r s' st) :
    Ensures R p s stage post₁ :=
  Program.Follows.mono h fun r st => himp r.1 r.2 st

theorem ensures_pure {a : α} (h : post (.ok a) s stage) :
    Ensures R (pure a : Throwing I ε σ α) s stage post := h

theorem ensures_throw {e : ε} (h : post (.error e) s stage) :
    Ensures R (throw e : Throwing I ε σ α) s stage post := h

/-- The rest runs on what the first part returns, and not at all when it throws. -/
theorem ensures_bind {p : Throwing I ε σ α} {f : α → Throwing I ε σ β}
    (h : Ensures R p s stage fun r s' st =>
      match r with
      | .ok a => Ensures R (f a) s' st post'
      | .error e => post' (.error e) s' st) :
    Ensures R (p >>= f) s stage post' := by
  have hrun : ((p >>= f).run.run s) = (p.run.run s) >>= fun r =>
      match r.1 with
      | .ok a => (f a).run.run r.2
      | .error e => pure (.error e, r.2) := by
    rw [ExceptT.run_bind, StateT.run_bind]
    congr 1
    funext r
    rcases r with ⟨a | e, s'⟩ <;> rfl
  unfold Ensures
  rw [hrun]
  apply Program.Follows.bind h
  rintro ⟨r, s'⟩ st hpost
  cases r with
  | ok a => exact hpost
  | error e => exact hpost

theorem ensures_get {post : Except ε σ → σ → Stage → Prop} (h : post (.ok s) s stage) :
    Ensures R (get : Throwing I ε σ σ) s stage post := h

theorem ensures_modify {f : σ → σ} {post : Except ε PUnit → σ → Stage → Prop}
    (h : post (.ok ⟨⟩) (f s) stage) :
    Ensures R (modify f : Throwing I ε σ PUnit) s stage post := h

theorem ensures_call {c : I.Call} {post : Except ε (I.Reply c) → σ → Stage → Prop}
    (hc : R.allows stage c) (h : ∀ r, R.expects c r → post (.ok r) s (R.after stage c r)) :
    Ensures R (liftM (Program.perform c) : Throwing I ε σ (I.Reply c)) s stage post :=
  ⟨hc, h⟩

theorem ensures_leaving {p : Throwing I ε σ α} {destroy : StateT σ (Program I) Unit}
    (h : Ensures R p s stage fun r s' st =>
      (destroy.run s').Follows R st (fun u st' => post r u.2 st')) :
    Ensures R (leaving p destroy) s stage post := by
  apply Program.Follows.bind h
  rintro ⟨r, s'⟩ st hdestroy
  apply Program.Follows.bind hdestroy
  intro u st' hpost
  exact hpost

/-- A loop keeps what each of its rounds keeps, unless a round throws. -/
theorem ensures_forM {δ : Type} (Inv : List δ → σ → Stage → Prop) {f : δ → Throwing I ε σ PUnit}
    {post : Except ε PUnit → σ → Stage → Prop} (done : List δ) {xs : List δ}
    (hround : ∀ done x s st, Inv done s st → Ensures R (f x) s st fun r s' st' =>
      match r with
      | .ok _ => Inv (done ++ [x]) s' st'
      | .error e => post (.error e) s' st')
    (hend : ∀ s st, Inv (done ++ xs) s st → post (.ok ⟨⟩) s st) (h : Inv done s stage) :
    Ensures R (xs.forM f) s stage post := by
  induction xs generalizing done s stage with
  | nil => exact hend s stage (by simpa using h)
  | cons x xs ih =>
    change Ensures R (f x >>= fun _ => xs.forM f) s stage post
    apply ensures_bind
    apply (hround done x s stage h).mono
    intro r s' st' hr
    cases r with
    | ok _ => exact ih (done ++ [x]) (fun s st hinv => hend s st (by simpa using hinv)) hr
    | error e => exact hr

end Programs

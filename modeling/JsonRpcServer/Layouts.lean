import JsonRpcServer.Writing

/-!
# Writing with any layout

`UniValue::write` counts its indentation in `unsigned int`, which wraps. A layout is
all that depends on this: the white space that is put between the tokens.
-/
namespace JsonRpcServer

/-- The white space around the items of a container, and the level these are written at. -/
structure Layout (Level : Type) where
  newline : Bytes
  gap : Bytes
  inner : Level → Bytes
  outer : Level → Bytes
  below : Level → Level

namespace UniValue

section
variable {Level : Type}

mutual
/-- The tokens of a value, as `write` puts them out, with the white space of a layout. -/
def layOut (lay : Layout Level) (level : Level) : UniValue → Except Exception Bytes
  | ⟨typ, val, keys, values⟩ =>
    match typ with
    | .vnull => .ok (cstr "null")
    | .vobj => do
      let s ← layOutMembers lay level values.length 0 values keys
      .ok (cstr "\x7b" ++ lay.newline ++ s ++ lay.outer level ++ cstr "\x7d")
    | .varr => do
      let s ← layOutItems lay level values
      .ok (cstr "[" ++ lay.newline ++ s ++ lay.outer level ++ cstr "]")
    | .vstr => .ok (quote val)
    | .vnum => .ok val
    | .vbool => .ok (if val = cstr "1" then cstr "true" else cstr "false")

def layOutItems (lay : Layout Level) (level : Level) : List UniValue → Except Exception Bytes
  | [] => .ok []
  | v :: values => do
    let s ← layOut lay (lay.below level) v
    let rest ← layOutItems lay level values
    .ok (lay.inner level ++ s ++ (if values.isEmpty then [] else cstr ",") ++ lay.newline ++ rest)

def layOutMembers (lay : Layout Level) (level : Level) (size i : Nat) :
    List UniValue → List Bytes → Except Exception Bytes
  | _, [] => .ok []
  | [], _ :: _ => .error (.std (rangeText i size))
  | v :: values, key :: keys => do
    let s ← layOut lay (lay.below level) v
    let rest ← layOutMembers lay level size (i + 1) values keys
    .ok (lay.inner level ++ quote key ++ cstr ":" ++ lay.gap ++ s ++
      (if values.isEmpty then [] else cstr ",") ++ lay.newline ++ rest)
end

end

/-! ## The writers -/

def modIndent (indentLevel : Nat) : Nat := if indentLevel = 0 then 1 else indentLevel

/-- The layout of `write`, on numbers that do not wrap. -/
def counting (prettyIndent : Nat) : Layout Nat where
  newline := pretty prettyIndent (cstr "\n")
  gap := pretty prettyIndent (cstr " ")
  inner level := pretty prettyIndent (indentStr prettyIndent (modIndent level))
  outer level := pretty prettyIndent (indentStr prettyIndent (modIndent level - 1))
  below level := modIndent level + 1

def modIndent32 (indentLevel : UInt32) : UInt32 := if indentLevel = 0 then 1 else indentLevel

/-- The product is an `unsigned int` as well. -/
def indentStr32 (prettyIndent indentLevel : UInt32) : Bytes :=
  List.replicate (prettyIndent * indentLevel).toNat 0x20

def pretty32 (prettyIndent : UInt32) (s : Bytes) : Bytes := if prettyIndent = 0 then [] else s

def counting32 (prettyIndent : UInt32) : Layout UInt32 where
  newline := pretty32 prettyIndent (cstr "\n")
  gap := pretty32 prettyIndent (cstr " ")
  inner level := pretty32 prettyIndent (indentStr32 prettyIndent (modIndent32 level))
  outer level := pretty32 prettyIndent (indentStr32 prettyIndent (modIndent32 level - 1))
  below level := modIndent32 level + 1

/-- `UniValue::write`, with `unsigned int` for its indentation; its loops have theirs in
`Unsigned.write`. -/
def write32 (prettyIndent indentLevel : UInt32) (v : UniValue) : Except Exception Bytes :=
  layOut (counting32 prettyIndent) indentLevel v

section
variable {p i : Nat} {values : List UniValue}

theorem writeArray_eq_layOutItems (h : ∀ v ∈ values, ∀ i, write p i v = layOut (counting p) i v) :
    writeArray p (modIndent i) values = layOutItems (counting p) i values := by
  induction values with
  | nil => rfl
  | cons v vs ih =>
    rw [writeArray, layOutItems, h v (by simp), ih (fun w hw => h w (by simp [hw]))]
    rfl

theorem writeObject_eq_layOutMembers {size n : Nat} {keys : List Bytes}
    (h : ∀ v ∈ values, ∀ i, write p i v = layOut (counting p) i v) :
    writeObject p (modIndent i) size n values keys =
      layOutMembers (counting p) i size n values keys := by
  induction keys generalizing values n with
  | nil => cases values <;> rfl
  | cons k ks ih =>
    cases values with
    | nil => rfl
    | cons v vs =>
      rw [writeObject, layOutMembers, h v (by simp), ih (fun w hw => h w (by simp [hw]))]
      rfl

theorem write_eq_layOut (p i : Nat) (v : UniValue) : write p i v = layOut (counting p) i v := by
  induction v using induction_on generalizing i with
  | h typ val keys values ih =>
    have hmod : (if i = 0 then 1 else i) = modIndent i := rfl
    cases typ with
    | vobj =>
      rw [write, layOut, hmod, writeObject_eq_layOutMembers ih]
      rfl
    | varr =>
      rw [write, layOut, hmod, writeArray_eq_layOutItems ih]
      rfl
    | vnull | vstr | vnum | vbool => rfl

end

/-! ## Two layouts of one value -/

/-- Results that are related, or one exception. -/
inductive Agree {ε α β : Type} (T : α → β → Prop) : Except ε α → Except ε β → Prop where
  | ok {a : α} {b : β} (h : T a b) : Agree T (.ok a) (.ok b)
  | error (e : ε) : Agree T (.error e) (.error e)

theorem Agree.bind {ε α β α' β' : Type} {T : α → β → Prop} {U : α' → β' → Prop}
    {x : Except ε α} {y : Except ε β} {f : α → Except ε α'} {g : β → Except ε β'}
    (h : Agree T x y) (hf : ∀ a b, T a b → Agree U (f a) (g b)) :
    Agree U (x >>= f) (y >>= g) := by
  cases h with
  | ok h => exact hf _ _ h
  | error e => exact .error e

theorem Agree.eq {ε α : Type} {x y : Except ε α} (h : Agree Eq x y) : x = y := by
  cases h with
  | ok h => rw [h]
  | error e => rfl

theorem Agree.ok_iff {ε α β : Type} {T : α → β → Prop} {x : Except ε α} {y : Except ε β}
    (h : Agree T x y) : (∃ a, x = .ok a) ↔ ∃ b, y = .ok b := by
  cases h <;> simp

theorem Agree.error_iff {ε α β : Type} {T : α → β → Prop} {x : Except ε α} {y : Except ε β}
    (h : Agree T x y) (e : ε) : x = .error e ↔ y = .error e := by
  cases h <;> simp

mutual
/-- How many containers there are inside each other at most. -/
def depth : UniValue → Nat
  | ⟨_, _, _, values⟩ => depths values + 1

def depths : List UniValue → Nat
  | [] => 0
  | v :: values => max (depth v) (depths values)
end

theorem depth_le {v : UniValue} {values : List UniValue} (h : v ∈ values) :
    depth v ≤ depths values := by
  induction values with
  | nil => cases h
  | cons w ws ih =>
    rw [depths]
    rcases List.mem_cons.mp h with rfl | h
    · exact Nat.le_max_left _ _
    · exact (ih h).trans (Nat.le_max_right _ _)

section
variable {Level Level' : Type}

/-- Levels from which there are so many to go down are related, and related levels have related
white space. -/
structure Relates (T : Bytes → Bytes → Prop) (R : Nat → Level → Level' → Prop)
    (lay : Layout Level) (lay' : Layout Level') : Prop where
  same : ∀ s, T s s
  append : ∀ {s s' t t'}, T s s' → T t t' → T (s ++ t) (s' ++ t')
  newline : T lay.newline lay'.newline
  gap : T lay.gap lay'.gap
  inner : ∀ {n level level'}, R (n + 1) level level' → T (lay.inner level) (lay'.inner level')
  outer : ∀ {n level level'}, R (n + 1) level level' → T (lay.outer level) (lay'.outer level')
  below : ∀ {n m level level'}, R (n + 1) level level' → m ≤ n →
    R m (lay.below level) (lay'.below level')

variable {T : Bytes → Bytes → Prop} {R : Nat → Level → Level' → Prop} {lay : Layout Level}
  {lay' : Layout Level'} {level : Level} {level' : Level'} {values : List UniValue}

/-- The values are laid out alike wherever the levels are related. -/
def Related (T : Bytes → Bytes → Prop) (R : Nat → Level → Level' → Prop) (lay : Layout Level)
    (lay' : Layout Level') (values : List UniValue) : Prop :=
  ∀ v ∈ values, ∀ {level level'}, R (depth v) level level' →
    Agree T (layOut lay level v) (layOut lay' level' v)

theorem Relates.items (h : Relates T R lay lay') {n : Nat} (hr : R (n + 1) level level')
    (hn : ∀ v ∈ values, depth v ≤ n) (hv : Related T R lay lay' values) :
    Agree T (layOutItems lay level values) (layOutItems lay' level' values) := by
  induction values with
  | nil => exact .ok (h.same _)
  | cons v vs ih =>
    obtain ⟨hd, hds⟩ := List.forall_mem_cons.mp hn
    refine (hv v (by simp) (h.below hr hd)).bind fun s s' hs => ?_
    refine (ih hds fun w hw => hv w (by simp [hw])).bind fun t t' ht => .ok ?_
    have hitem := h.append (h.append (h.inner hr) hs) (h.same (if vs.isEmpty then [] else cstr ","))
    exact h.append (h.append hitem h.newline) ht

theorem Relates.members (h : Relates T R lay lay') {n : Nat} (hr : R (n + 1) level level')
    (hn : ∀ v ∈ values, depth v ≤ n) (hv : Related T R lay lay' values) (size i : Nat)
    (keys : List Bytes) :
    Agree T (layOutMembers lay level size i values keys)
      (layOutMembers lay' level' size i values keys) := by
  induction keys generalizing values i with
  | nil => cases values <;> exact .ok (h.same _)
  | cons key keys ih =>
    cases values with
    | nil => exact .error _
    | cons v vs =>
      obtain ⟨hd, hds⟩ := List.forall_mem_cons.mp hn
      refine (hv v (by simp) (h.below hr hd)).bind fun s s' hs => ?_
      refine (ih hds (fun w hw => hv w (by simp [hw])) (i + 1)).bind fun t t' ht => .ok ?_
      have hname := h.append (h.append (h.inner hr) (h.same (quote key))) (h.same (cstr ":"))
      have hmember := h.append (h.append (h.append hname h.gap) hs)
        (h.same (if vs.isEmpty then [] else cstr ","))
      exact h.append (h.append hmember h.newline) ht

/-- Layouts that mirror each other give related texts, or one exception. -/
theorem Relates.layOut (h : Relates T R lay lay') (v : UniValue) {level : Level} {level' : Level'}
    (hr : R (depth v) level level') :
    Agree T (UniValue.layOut lay level v) (UniValue.layOut lay' level' v) := by
  induction v using induction_on generalizing level level' with
  | h typ val keys values ih =>
    rw [depth] at hr
    have hn : ∀ v ∈ values, depth v ≤ depths values := fun v hv => depth_le hv
    have hbrackets : ∀ {l r : Bytes} {s s' : Bytes}, T s s' →
        T (l ++ lay.newline ++ s ++ lay.outer level ++ r)
          (l ++ lay'.newline ++ s' ++ lay'.outer level' ++ r) := fun hs =>
      h.append (h.append (h.append (h.append (h.same _) h.newline) hs) (h.outer hr)) (h.same _)
    cases typ with
    | vobj =>
      exact (h.members hr hn (fun v hv _ _ => ih v hv) _ _ keys).bind fun s s' hs =>
        .ok (hbrackets hs)
    | varr =>
      exact (h.items hr hn (fun v hv _ _ => ih v hv)).bind fun s s' hs => .ok (hbrackets hs)
    | vnull | vstr | vnum | vbool => exact .ok (h.same _)

end

/-! ## What wraps -/

/-- No counter wraps while a value of this depth is written. -/
def NoWrap (prettyIndent : UInt32) (depth : Nat) (level : UInt32) : Prop :=
  max level.toNat 1 + depth < 2 ^ 32 ∧ prettyIndent.toNat * (max level.toNat 1 + depth) < 2 ^ 32

instance (prettyIndent : UInt32) (depth : Nat) (level : UInt32) :
    Decidable (NoWrap prettyIndent depth level) := inferInstanceAs (Decidable (_ ∧ _))

theorem toNat_modIndent32 (level : UInt32) : (modIndent32 level).toNat = max level.toNat 1 := by
  unfold modIndent32
  have hzero : level = 0 ↔ level.toNat = 0 := by rw [← UInt32.toNat_inj]; rfl
  split
  next h => rw [hzero.mp h]; rfl
  next h => rw [hzero] at h; omega

theorem modIndent_eq (level : Nat) : modIndent level = max level 1 := by
  unfold modIndent
  split <;> omega

theorem pretty32_eq (p : UInt32) (s : Bytes) : pretty32 p s = pretty p.toNat s := by
  have hzero : p = 0 ↔ p.toNat = 0 := by rw [← UInt32.toNat_inj]; rfl
  simp only [pretty32, pretty, hzero]

theorem indentStr32_eq {p level : UInt32} (h : p.toNat * level.toNat < 2 ^ 32) :
    indentStr32 p level = indentStr p.toNat level.toNat := by
  rw [indentStr32, indentStr, UInt32.toNat_mul, Nat.mod_eq_of_lt h]

theorem relates_counting (p : UInt32) :
    Relates Eq (fun n level level' => level.toNat = level' ∧ NoWrap p n level) (counting32 p)
      (counting p.toNat) where
  same _ := rfl
  append hs ht := by rw [hs, ht]
  newline := pretty32_eq p _
  gap := pretty32_eq p _
  inner := by
    rintro n level _ ⟨rfl, hsum, hproduct⟩
    have hlevel := toNat_modIndent32 level
    have hmul : p.toNat * (modIndent32 level).toNat < 2 ^ 32 :=
      (Nat.mul_le_mul_left _ (by omega)).trans_lt hproduct
    simp only [counting32, counting, pretty32_eq, indentStr32_eq hmul, hlevel, modIndent_eq]
  outer := by
    rintro n level _ ⟨rfl, hsum, hproduct⟩
    have hlevel := toNat_modIndent32 level
    have hsub : (modIndent32 level - 1).toNat = max level.toNat 1 - 1 := by
      rw [UInt32.toNat_sub_of_le _ _ (by simp [UInt32.le_iff_toNat_le, hlevel]), hlevel]
      rfl
    have hmul : p.toNat * (modIndent32 level - 1).toNat < 2 ^ 32 :=
      (Nat.mul_le_mul_left _ (by omega)).trans_lt hproduct
    simp only [counting32, counting, pretty32_eq, indentStr32_eq hmul, hsub, modIndent_eq]
  below := by
    rintro n m level _ ⟨rfl, hsum, hproduct⟩ hm
    have hlevel := toNat_modIndent32 level
    have hadd : (modIndent32 level + 1).toNat = max level.toNat 1 + 1 := by
      rw [UInt32.toNat_add, hlevel]
      exact Nat.mod_eq_of_lt (by simp; omega)
    refine ⟨by simp only [counting32, counting, hadd, modIndent_eq], ?_⟩
    simp only [NoWrap, counting32, hadd]
    exact ⟨by omega, (Nat.mul_le_mul_left _ (by omega)).trans_lt hproduct⟩

/-- Where no counter wraps the text is that of the writer that counts without end. -/
theorem write32_eq_write {p i : UInt32} {v : UniValue} (h : NoWrap p (depth v) i) :
    write32 p i v = write p.toNat i.toNat v := by
  rw [write_eq_layOut]
  exact ((relates_counting p).layOut v ⟨rfl, h⟩).eq

/-- Nor does anything wrap that shows in a compact text. -/
theorem write32_compact (i : UInt32) (j : Nat) (v : UniValue) : write32 0 i v = write 0 j v := by
  rw [write_eq_layOut]
  have hcompact : Relates Eq (fun _ _ _ => True) (counting32 0) (counting 0) :=
    { same := fun _ => rfl, append := fun hs ht => by rw [hs, ht], newline := rfl, gap := rfl
      inner := fun _ => rfl, outer := fun _ => rfl, below := fun _ _ => trivial }
  exact (hcompact.layOut v trivial).eq

/-- However the counters wrap, `write` throws what it throws without them. -/
theorem write32_agrees (p i : UInt32) (v : UniValue) :
    Agree (fun _ _ => True) (write32 p i v) (write 0 0 v) := by
  rw [write_eq_layOut]
  have hrelates : Relates (fun _ _ => True) (fun _ _ _ => True) (counting32 p) (counting 0) := by
    constructor <;> intros <;> trivial
  exact hrelates.layOut v trivial

theorem write32_ok_iff (p i : UInt32) (v : UniValue) :
    (∃ s, write32 p i v = .ok s) ↔ Writable v := by
  rw [← write_ok_iff 0 0]
  exact (write32_agrees p i v).ok_iff

end UniValue

end JsonRpcServer

import LogicalFramework.Term

/-!
# Nameless terms

Terms in which a bound variable is the number of binders between it and its own (a de Bruijn index)
and a free variable keeps its identifier. Two named terms that differ in the choice of bound names
have the same nameless form, so equality of nameless terms is equality up to bound names.

Free and bound names are the two kinds of local names. Renaming and substitution act on both at
once, and all equations between them follow from how two of them compose:

* `rename_rename`, `subst_rename`, `rename_subst`, `subst_subst` — composition;
* `instantiate_rename`, `instantiate_subst` — instantiation of a scope commutes with both.
-/

namespace LogicalFramework

/-! ## Local names -/

/-- A local name: a variable that is free, or a variable bound by the binder with `i` binders
between. -/
inductive Name where
  /-- A free variable. -/
  | free (x : Variable)
  /-- A bound variable. -/
  | bound (i : Nat)
deriving DecidableEq

namespace Name

/-- The same name, seen from under one more binder. -/
def succ : Name → Name
  | free x => free x
  | bound i => bound (i + 1)

/-- A function on the names under a binder: `zero` at the variable of the binder, and `outer` at the
names from outside. -/
def under {α : Type} (zero : α) (outer : Name → α) : Name → α
  | bound 0 => zero
  | bound (i + 1) => outer (bound i)
  | free x => outer (free x)

/-- A renaming carried under a binder. -/
def lift (ρ : Name → Name) : Name → Name :=
  under (bound 0) fun n => (ρ n).succ

@[simp]
theorem under_zero {α : Type} (zero : α) (outer : Name → α) : under zero outer (bound 0) = zero :=
  rfl

@[simp]
theorem under_succ {α : Type} (zero : α) (outer : Name → α) (n : Name) :
    under zero outer n.succ = outer n := by
  cases n <;> rfl

/-- Under a binder, a name is the variable of the binder or comes from outside. -/
theorem eq_zero_or_succ (n : Name) : n = bound 0 ∨ ∃ m, n = succ m := by
  cases n with
  | free x => exact Or.inr ⟨free x, rfl⟩
  | bound i =>
    cases i with
    | zero => exact Or.inl rfl
    | succ i => exact Or.inr ⟨bound i, rfl⟩

/-- Functions on the names under a binder agree if they do at the variable of the binder and at the
names from outside. -/
theorem under_ext {α : Type} {f g : Name → α} (hzero : f (bound 0) = g (bound 0))
    (hsucc : ∀ n : Name, f n.succ = g n.succ) : f = g := by
  funext n
  rcases eq_zero_or_succ n with rfl | ⟨m, rfl⟩
  · exact hzero
  · exact hsucc m

/-- Two functions on the names under a binder are related at every name if they are at the variable
of the binder and at the names from outside. -/
theorem under_related {α : Type} {R : α → α → Prop} {a b : α} {f g : Name → α} (hzero : R a b)
    (houter : ∀ n, R (f n) (g n)) (n : Name) : R (under a f n) (under b g n) := by
  rcases eq_zero_or_succ n with rfl | ⟨m, rfl⟩
  · exact hzero
  · rw [under_succ, under_succ]
    exact houter m

theorem succ_ne_zero (n : Name) : n.succ ≠ bound 0 := by
  cases n <;> simp [succ]

theorem succ_injective : Function.Injective succ := by
  intro m n h
  cases m <;> cases n <;> simp_all [succ]

@[simp]
theorem lift_zero (ρ : Name → Name) : lift ρ (bound 0) = bound 0 :=
  rfl

@[simp]
theorem lift_succ (ρ : Name → Name) (n : Name) : lift ρ n.succ = (ρ n).succ :=
  under_succ _ _ n

theorem lift_injective {ρ : Name → Name} (hρ : Function.Injective ρ) :
    Function.Injective (lift ρ) := by
  intro m n h
  rcases eq_zero_or_succ m with rfl | ⟨j, rfl⟩ <;> rcases eq_zero_or_succ n with rfl | ⟨k, rfl⟩
  · rfl
  · rw [lift_zero, lift_succ] at h
    exact absurd h.symm (succ_ne_zero _)
  · rw [lift_zero, lift_succ] at h
    exact absurd h (succ_ne_zero _)
  · rw [lift_succ, lift_succ] at h
    rw [hρ (succ_injective h)]

theorem lift_comp (τ ρ : Name → Name) : lift τ ∘ lift ρ = lift (τ ∘ ρ) := by
  apply under_ext
  · rfl
  · intro n
    show lift τ (lift ρ n.succ) = lift (τ ∘ ρ) n.succ
    rw [lift_succ, lift_succ, lift_succ]
    rfl

end Name

/-! ## Nameless terms -/

/-- Terms of the λΠ-calculus up to the choice of bound names. -/
inductive Nameless where
  /-- The sort of all families. -/
  | type
  /-- A declared constant or a literal. -/
  | const (c : Constant)
  /-- A variable, bound or free. -/
  | name (n : Name)
  /-- A term yet to be found. -/
  | metaVar (m : MetaVariable)
  /-- The application of `head` to `argument`. -/
  | app (head argument : Nameless)
  /-- A binder with the type of its variable. In `scope` the variable is `Name.bound 0`. -/
  | bind (binder : Binder) (domain scope : Nameless)
deriving DecidableEq

namespace Nameless

/-- The abstraction over `scope`. -/
@[match_pattern]
abbrev lam (domain scope : Nameless) : Nameless :=
  .bind .lam domain scope

/-- The dependent product of `scope`. -/
@[match_pattern]
abbrev pi (domain scope : Nameless) : Nameless :=
  .bind .pi domain scope

/-- The term with its names changed by `ρ`. -/
def rename (t : Nameless) (ρ : Name → Name) : Nameless :=
  match t with
  | type => type
  | const c => const c
  | name n => name (ρ n)
  | metaVar m => metaVar m
  | app h a => app (h.rename ρ) (a.rename ρ)
  | bind q A s => bind q (A.rename ρ) (s.rename (Name.lift ρ))

/-- The same term, seen from under one more binder. -/
def shift (t : Nameless) : Nameless :=
  t.rename Name.succ

/-- A substitution carried under a binder. -/
def lift (σ : Name → Nameless) : Name → Nameless :=
  Name.under (name (.bound 0)) fun n => (σ n).shift

/-- The term with its names replaced by the terms that `σ` gives for them. -/
def subst (t : Nameless) (σ : Name → Nameless) : Nameless :=
  match t with
  | type => type
  | const c => const c
  | name n => σ n
  | metaVar m => metaVar m
  | app h a => app (h.subst σ) (a.subst σ)
  | bind q A s => bind q (A.subst σ) (s.subst (lift σ))

/-- The abstraction that applies `t` to its variable. -/
abbrev etaExpansion (A t : Nameless) : Nameless :=
  .lam A (.app t.shift (.name (.bound 0)))

/-- The scope of a binder with `a` in place of the variable of the binder. -/
def instantiate (s a : Nameless) : Nameless :=
  s.subst (Name.under a name)

/-- The term with `u` in place of the free variable `x`. -/
def substFree (t : Nameless) (x : Variable) (u : Nameless) : Nameless :=
  t.subst fun n => if n = .free x then u else name n

/-! ## Renaming -/

theorem rename_rename (t : Nameless) (ρ τ : Name → Name) :
    (t.rename ρ).rename τ = t.rename (τ ∘ ρ) := by
  induction t generalizing ρ τ with
  | app h a ihh iha => rw [rename, rename, rename, ihh, iha]
  | bind q A s ihA ihs => rw [rename, rename, rename, ihA, ihs, Name.lift_comp]
  | _ => rfl

/-- Renaming commutes with going under a binder. -/
theorem shift_rename (t : Nameless) (ρ : Name → Name) :
    t.shift.rename (Name.lift ρ) = (t.rename ρ).shift := by
  rw [shift, shift, rename_rename, rename_rename]
  congr 1
  funext n
  exact Name.lift_succ ρ n

theorem etaExpansion_rename (A t : Nameless) (ρ : Name → Name) :
    (etaExpansion A t).rename ρ = etaExpansion (A.rename ρ) (t.rename ρ) := by
  rw [etaExpansion, etaExpansion, ← shift_rename]
  rfl

/-! ## Substitution -/

@[simp]
theorem lift_zero (σ : Name → Nameless) : lift σ (.bound 0) = name (.bound 0) :=
  rfl

@[simp]
theorem lift_succ (σ : Name → Nameless) (n : Name) : lift σ n.succ = (σ n).shift :=
  Name.under_succ _ _ n

theorem lift_name : lift name = name :=
  Name.under_ext rfl fun n => lift_succ name n

theorem subst_name (t : Nameless) : t.subst name = t := by
  induction t with
  | app h a ihh iha => rw [subst, ihh, iha]
  | bind q A s ihA ihs => rw [subst, lift_name, ihA, ihs]
  | _ => rfl

theorem lift_comp_lift (σ : Name → Nameless) (ρ : Name → Name) :
    lift σ ∘ Name.lift ρ = lift (σ ∘ ρ) := by
  apply Name.under_ext
  · rfl
  · intro n
    show lift σ (Name.lift ρ n.succ) = lift (σ ∘ ρ) n.succ
    rw [Name.lift_succ, lift_succ, lift_succ]
    rfl

theorem subst_rename (t : Nameless) (ρ : Name → Name) (σ : Name → Nameless) :
    (t.rename ρ).subst σ = t.subst (σ ∘ ρ) := by
  induction t generalizing ρ σ with
  | app h a ihh iha => rw [rename, subst, subst, ihh, iha]
  | bind q A s ihA ihs => rw [rename, subst, subst, ihA, ihs, lift_comp_lift]
  | _ => rfl

/-- Renaming is the substitution of names for names. -/
theorem rename_eq_subst (t : Nameless) (ρ : Name → Name) :
    t.rename ρ = t.subst fun n => name (ρ n) := by
  have h := subst_rename t ρ name
  rw [subst_name] at h
  exact h

theorem lift_rename (σ : Name → Nameless) (ρ : Name → Name) :
    (fun n => (lift σ n).rename (Name.lift ρ)) = lift fun n => (σ n).rename ρ := by
  apply Name.under_ext
  · rfl
  · intro n
    rw [lift_succ, lift_succ, shift_rename]

theorem rename_subst (t : Nameless) (σ : Name → Nameless) (ρ : Name → Name) :
    (t.subst σ).rename ρ = t.subst fun n => (σ n).rename ρ := by
  induction t generalizing σ ρ with
  | app h a ihh iha => rw [subst, rename, subst, ihh, iha]
  | bind q A s ihA ihs => rw [subst, rename, subst, ihA, ihs, lift_rename]
  | _ => rfl

/-- Substitution commutes with going under a binder. -/
theorem shift_subst (t : Nameless) (σ : Name → Nameless) :
    t.shift.subst (lift σ) = (t.subst σ).shift := by
  rw [shift, shift, subst_rename, rename_subst]
  congr 1
  funext n
  exact lift_succ σ n

theorem etaExpansion_subst (A t : Nameless) (σ : Name → Nameless) :
    (etaExpansion A t).subst σ = etaExpansion (A.subst σ) (t.subst σ) := by
  rw [etaExpansion, etaExpansion, ← shift_subst]
  rfl

theorem lift_subst (σ τ : Name → Nameless) :
    (fun n => (lift σ n).subst (lift τ)) = lift fun n => (σ n).subst τ := by
  apply Name.under_ext
  · rfl
  · intro n
    rw [lift_succ, lift_succ, shift_subst]

theorem subst_subst (t : Nameless) (σ τ : Name → Nameless) :
    (t.subst σ).subst τ = t.subst fun n => (σ n).subst τ := by
  induction t generalizing σ τ with
  | app h a ihh iha => rw [subst, subst, subst, ihh, iha]
  | bind q A s ihA ihs => rw [subst, subst, subst, ihA, ihs, lift_subst]
  | _ => rfl

/-! ## Instantiation -/

/-- A term from outside a binder does not mention the variable of the binder. -/
@[simp]
theorem instantiate_shift (t a : Nameless) : t.shift.instantiate a = t := by
  have hid : Name.under a name ∘ Name.succ = name := funext fun n => Name.under_succ a name n
  rw [instantiate, shift, subst_rename, hid, subst_name]

/-- The scope of an η-expansion, instantiated, is an application. -/
theorem instantiate_app_shift (t a : Nameless) :
    (app t.shift (name (.bound 0))).instantiate a = app t a := by
  show app (t.shift.instantiate a) a = app t a
  rw [instantiate_shift]

theorem instantiate_subst (s a : Nameless) (σ : Name → Nameless) :
    (s.instantiate a).subst σ = (s.subst (lift σ)).instantiate (a.subst σ) := by
  rw [instantiate, instantiate, subst_subst, subst_subst]
  congr 1
  apply Name.under_ext
  · rfl
  · intro n
    show (Name.under a name n.succ).subst σ = (lift σ n.succ).instantiate (a.subst σ)
    rw [Name.under_succ, lift_succ, instantiate_shift]
    rfl

theorem instantiate_rename (s a : Nameless) (ρ : Name → Name) :
    (s.instantiate a).rename ρ = (s.rename (Name.lift ρ)).instantiate (a.rename ρ) := by
  rw [rename_eq_subst, instantiate_subst, rename_eq_subst, rename_eq_subst]
  congr 2
  apply Name.under_ext
  · rfl
  · intro n
    rw [lift_succ, Name.lift_succ]
    rfl

/-- Making room for a variable and putting the variable of the binder there changes nothing. -/
theorem instantiate_rename_lift_succ (s : Nameless) :
    (s.rename (Name.lift Name.succ)).instantiate (name (.bound 0)) = s := by
  have hid : Name.under (name (.bound 0)) name ∘ Name.lift Name.succ = name := by
    apply Name.under_ext
    · rfl
    · intro n
      show Name.under _ name (Name.lift Name.succ n.succ) = name n.succ
      rw [Name.lift_succ, Name.under_succ]
  rw [instantiate, subst_rename, hid, subst_name]

/-! ## Names that occur -/

/-- Whether a name occurs. -/
def Mentions (t : Nameless) (n : Name) : Prop :=
  match t with
  | name m => m = n
  | app h a => h.Mentions n ∨ a.Mentions n
  | bind _ A s => A.Mentions n ∨ s.Mentions n.succ
  | _ => False

theorem mentions_rename (t : Nameless) (ρ : Name → Name) (n : Name) :
    (t.rename ρ).Mentions n ↔ ∃ m, t.Mentions m ∧ ρ m = n := by
  induction t generalizing ρ n with
  | name m => simp [rename, Mentions]
  | app h a ihh iha =>
    simp only [rename, Mentions, ihh, iha]
    grind
  | bind q A s ihA ihs =>
    simp only [rename, Mentions, ihA, ihs]
    constructor
    · rintro (⟨m, hm, hn⟩ | ⟨m, hm, hn⟩)
      · exact ⟨m, Or.inl hm, hn⟩
      · rcases Name.eq_zero_or_succ m with rfl | ⟨k, rfl⟩
        · exact absurd hn.symm (Name.succ_ne_zero n)
        · rw [Name.lift_succ] at hn
          exact ⟨k, Or.inr hm, Name.succ_injective hn⟩
    · rintro ⟨m, hm | hm, hn⟩
      · exact Or.inl ⟨m, hm, hn⟩
      · exact Or.inr ⟨m.succ, hm, by rw [Name.lift_succ, hn]⟩
  | _ => simp [rename, Mentions]

/-- Only the names that occur matter. -/
theorem subst_congr (t : Nameless) {σ τ : Name → Nameless} (h : ∀ n, t.Mentions n → σ n = τ n) :
    t.subst σ = t.subst τ := by
  induction t generalizing σ τ with
  | name n => exact h n rfl
  | app f a ihf iha =>
    rw [subst, subst, ihf fun n hn => h n (Or.inl hn), iha fun n hn => h n (Or.inr hn)]
  | bind q A s ihA ihs =>
    rw [subst, subst, ihA fun n hn => h n (Or.inl hn)]
    congr 1
    apply ihs
    intro n hn
    rcases Name.eq_zero_or_succ n with rfl | ⟨m, rfl⟩
    · rfl
    · rw [lift_succ, lift_succ, h m (Or.inr hn)]
  | _ => rfl

/-- A term that does not mention the variable of a binder comes from outside the binder. -/
theorem exists_shift_of_not_mentions {t : Nameless} (h : ¬t.Mentions (.bound 0)) :
    ∃ u : Nameless, t = u.shift := by
  refine ⟨t.instantiate type, ?_⟩
  calc t = t.subst name := (subst_name t).symm
    _ = t.subst fun n => (Name.under type name n).shift := by
      apply subst_congr
      intro n hn
      rcases Name.eq_zero_or_succ n with rfl | ⟨m, rfl⟩
      · exact absurd hn h
      · rw [Name.under_succ]
        rfl
    _ = (t.instantiate type).shift := by rw [shift, instantiate, rename_subst]; rfl

theorem not_mentions_shift (t : Nameless) : ¬t.shift.Mentions (.bound 0) := by
  rw [shift, mentions_rename]
  rintro ⟨m, _, hm⟩
  exact Name.succ_ne_zero m hm

theorem shift_injective {s t : Nameless} (h : s.shift = t.shift) : s = t := by
  rw [← instantiate_shift s type, h, instantiate_shift]

/-- A term from outside a binder that is a renamed one is the renaming of a term from outside. -/
theorem exists_shift_of_rename_lift {t u : Nameless} {ρ : Name → Name}
    (h : t.rename (Name.lift ρ) = u.shift) : ∃ v : Nameless, t = v.shift ∧ u = v.rename ρ := by
  have hmentions : ¬t.Mentions (.bound 0) := by
    intro hzero
    apply not_mentions_shift u
    rw [← h, mentions_rename]
    exact ⟨.bound 0, hzero, rfl⟩
  obtain ⟨v, rfl⟩ := exists_shift_of_not_mentions hmentions
  rw [shift_rename] at h
  exact ⟨v, rfl, (shift_injective h).symm⟩

/-! ## Shapes of renamed terms -/

theorem rename_eq_name {t : Nameless} {ρ : Name → Name} {n : Name} (h : t.rename ρ = name n) :
    ∃ m, t = name m ∧ ρ m = n := by
  cases t with
  | name m => exact ⟨m, rfl, name.inj h⟩
  | _ => exact absurd h (by simp [rename])

theorem rename_eq_app {t f a : Nameless} {ρ : Name → Name} (h : t.rename ρ = app f a) :
    ∃ g b, t = app g b ∧ g.rename ρ = f ∧ b.rename ρ = a := by
  cases t with
  | app g b => exact ⟨g, b, rfl, app.inj h⟩
  | _ => exact absurd h (by simp [rename])

theorem rename_eq_bind {t A s : Nameless} {q : Binder} {ρ : Name → Name}
    (h : t.rename ρ = bind q A s) :
    ∃ B r, t = bind q B r ∧ B.rename ρ = A ∧ r.rename (Name.lift ρ) = s := by
  cases t with
  | bind q' B r =>
    obtain ⟨rfl, hA, hs⟩ := bind.inj h
    exact ⟨B, r, rfl, hA, hs⟩
  | _ => exact absurd h (by simp [rename])

/-! ## Sizes -/

/-- The number of nodes. -/
def size : Nameless → Nat
  | app h a => h.size + a.size + 1
  | bind _ A s => A.size + s.size + 1
  | _ => 1

@[simp]
theorem size_rename (t : Nameless) (ρ : Name → Name) : (t.rename ρ).size = t.size := by
  induction t generalizing ρ with
  | app h a ihh iha => rw [rename, size, size, ihh, iha]
  | bind q A s ihA ihs => rw [rename, size, size, ihA, ihs]
  | _ => rfl

end Nameless

end LogicalFramework

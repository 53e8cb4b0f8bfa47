import LogicalFramework.Environment
import LogicalFramework.Proofs.Congruence

/-!
# The typing rules

The rules of the λΠ-calculus on nameless terms, that is on terms up to bound names. `Type` has the
sort `Kind`, constants and meta-variables have their declared sorts, and local names have the sorts
that the local declarations give them. A sort may be exchanged for a convertible one that is itself
a family or a kind.

Local declarations are a function on names, free and bound alike, so that weakening, binding a free
variable and instantiating a scope are all instances of two lemmas:

* `HasSort.rename` — derivations can be renamed;
* `HasSort.subst` — derivations can be substituted in.
-/

namespace LogicalFramework

/-! ## Judgements -/

/-- What classifies a nameless term. -/
inductive NamelessSort where
  /-- The sort of `Type` and of the kinds of families. -/
  | kind
  /-- A term as a sort. -/
  | term (t : Nameless)
deriving DecidableEq

namespace NamelessSort

/-- The sort with its names changed by `ρ`. -/
def rename (ρ : Name → Name) : NamelessSort → NamelessSort
  | kind => kind
  | term t => term (t.rename ρ)

/-- The sort with its names replaced. -/
def subst (σ : Name → Nameless) : NamelessSort → NamelessSort
  | kind => kind
  | term t => term (t.subst σ)

/-- Whether what the sort classifies is a family or a kind. -/
def ClassifiesFamilyOrKind (S : NamelessSort) : Prop :=
  S = term .type ∨ S = kind

theorem ClassifiesFamilyOrKind.rename_eq {S : NamelessSort} (h : S.ClassifiesFamilyOrKind)
    (ρ : Name → Name) : S.rename ρ = S := by
  rcases h with rfl | rfl <;> rfl

theorem ClassifiesFamilyOrKind.subst_eq {S : NamelessSort} (h : S.ClassifiesFamilyOrKind)
    (σ : Name → Nameless) : S.subst σ = S := by
  rcases h with rfl | rfl <;> rfl

end NamelessSort

/-- The nameless form of a sort. -/
def TermSort.nameless : TermSort → NamelessSort
  | kind => .kind
  | term t => .term t.nameless

/-- The declared sorts of local names. -/
abbrev Locals := Name → Option Nameless

/-- The local declarations for the scope of a binder whose variable has type `A`. -/
def Locals.push (Γ : Locals) (A : Nameless) : Locals :=
  Name.under (some A.shift) fun n => (Γ n).map Nameless.shift

theorem Locals.push_succ (Γ : Locals) (A : Nameless) (n : Name) :
    Γ.push A n.succ = (Γ n).map Nameless.shift :=
  Name.under_succ _ _ n

/-- What the scope of a binder declares: the variable of the binder, and what is declared outside. -/
theorem Locals.push_cases {Γ : Locals} {A B : Nameless} {n : Name} (h : Γ.push A n = some B) :
    (n = .bound 0 ∧ B = A.shift) ∨ ∃ m C, n = m.succ ∧ Γ m = some C ∧ B = C.shift := by
  rcases Name.eq_zero_or_succ n with rfl | ⟨m, rfl⟩
  · exact Or.inl ⟨rfl, (Option.some.inj h).symm⟩
  · rw [push_succ, Option.map_eq_some_iff] at h
    obtain ⟨C, hm, rfl⟩ := h
    exact Or.inr ⟨m, C, rfl, hm, rfl⟩

/-- `HasSort sig metas Γ t S` says that `t` has the sort `S` by the typing rules. -/
inductive HasSort (sig : Signature) (metas : MetaContext) :
    Locals → Nameless → NamelessSort → Prop where
  | type (Γ : Locals) : HasSort sig metas Γ .type .kind
  | const {Γ : Locals} {c : Constant} {S : Term} (h : sig.sortOf? c = some S) :
      HasSort sig metas Γ (.const c) (.term S.nameless)
  | name {Γ : Locals} {n : Name} {S : Nameless} (h : Γ n = some S) :
      HasSort sig metas Γ (.name n) (.term S)
  | metaVar {Γ : Locals} {m : MetaVariable} {S : Term} (h : metas.lookup m = some S) :
      HasSort sig metas Γ (.metaVar m) (.term S.nameless)
  | pi {Γ : Locals} {A B : Nameless} {S : NamelessSort} (hA : HasSort sig metas Γ A (.term .type))
      (hB : HasSort sig metas (Γ.push A) B S) (hS : S.ClassifiesFamilyOrKind) :
      HasSort sig metas Γ (.pi A B) S
  | lam {Γ : Locals} {A s B : Nameless} (hA : HasSort sig metas Γ A (.term .type))
      (hs : HasSort sig metas (Γ.push A) s (.term B)) :
      HasSort sig metas Γ (.lam A s) (.term (.pi A B))
  | app {Γ : Locals} {f a A B : Nameless} (hf : HasSort sig metas Γ f (.term (.pi A B)))
      (ha : HasSort sig metas Γ a (.term A)) :
      HasSort sig metas Γ (.app f a) (.term (B.instantiate a))
  | conv {Γ : Locals} {t A B : Nameless} {S : NamelessSort}
      (ht : HasSort sig metas Γ t (.term A)) (hB : HasSort sig metas Γ B S)
      (hS : S.ClassifiesFamilyOrKind) (hAB : Convertible A B) : HasSort sig metas Γ t (.term B)

/-- The sorts of the variables of an environment, as local declarations. -/
def Environment.locals (env : Environment) : Locals
  | .free x => (env.context.lookup x).map Term.nameless
  | .bound _ => none

/-- That a term has a sort in an environment, by the typing rules. -/
def Environment.Derives (env : Environment) (t : Term) (S : TermSort) : Prop :=
  HasSort env.signature env.metas env.locals t.nameless S.nameless

/-! ## Convertibility under substitution -/

namespace Convertible

theorem subst {s t : Nameless} (h : Convertible s t) (σ : Name → Nameless) :
    Convertible (s.subst σ) (t.subst σ) :=
  Congruence.subst (P := fun _ => True) (fun _ _ => trivial) (fun σ _ _ _ hR => hR.subst σ) h
    trivial

theorem rename {s t : Nameless} (h : Convertible s t) (ρ : Name → Name) :
    Convertible (s.rename ρ) (t.rename ρ) := by
  rw [Nameless.rename_eq_subst, Nameless.rename_eq_subst]
  exact h.subst _

theorem instantiate {s t : Nameless} (h : Convertible s t) (a : Nameless) :
    Convertible (s.instantiate a) (t.instantiate a) :=
  h.subst _

theorem subst_of_forall (t : Nameless) {σ τ : Name → Nameless}
    (h : ∀ n, Convertible (σ n) (τ n)) : Convertible (t.subst σ) (t.subst τ) := by
  induction t generalizing σ τ with
  | name n => exact h n
  | app f a ihf iha => exact .app (ihf h) (iha h)
  | bind q A s ihA ihs =>
    refine .bind q (ihA h) (ihs fun n => ?_)
    rcases Name.eq_zero_or_succ n with rfl | ⟨m, rfl⟩
    · exact .refl _
    · rw [Nameless.lift_succ, Nameless.lift_succ]
      exact (h m).rename Name.succ
  | _ => exact .refl _

theorem instantiate_right (s : Nameless) {a b : Nameless} (h : Convertible a b) :
    Convertible (s.instantiate a) (s.instantiate b) :=
  subst_of_forall s (Name.under_related h fun _ => .refl _)

end Convertible

namespace HasSort

variable {sig : Signature} {metas : MetaContext}

/-! ## Renaming -/

/-- The declared sorts of constants and meta-variables. -/
def GlobalSort (sig : Signature) (metas : MetaContext) (A : Term) : Prop :=
  (∃ c, sig.sortOf? c = some A) ∨ ∃ m, metas.lookup m = some A

/-- The variables that occur free in the sorts of constants and meta-variables. -/
def Global (sig : Signature) (metas : MetaContext) (x : Variable) : Prop :=
  ∃ A : Term, A.occursFree x = true ∧ GlobalSort sig metas A

/-- A renaming of the names that `Γ` declares to names that `Δ` declares alike. -/
structure Renaming (sig : Signature) (metas : MetaContext) (Γ Δ : Locals) (ρ : Name → Name) :
    Prop where
  /-- The sorts of constants and meta-variables are kept. -/
  global : ∀ x, Global sig metas x → ρ (.free x) = .free x
  /-- Declarations are carried over. -/
  declared : ∀ n A, Γ n = some A → Δ (ρ n) = some (A.rename ρ)

theorem Renaming.push {Γ Δ : Locals} {ρ : Name → Name} (h : Renaming sig metas Γ Δ ρ)
    (A : Nameless) :
    Renaming sig metas (Γ.push A) (Δ.push (A.rename ρ)) (Name.lift ρ) where
  global := by
    intro x hx
    show (ρ (.free x)).succ = _
    rw [h.global x hx]
    rfl
  declared := by
    intro n B hn
    rcases Locals.push_cases hn with ⟨rfl, rfl⟩ | ⟨m, C, rfl, hm, rfl⟩
    · rw [Nameless.shift_rename]
      rfl
    · rw [Name.lift_succ, Locals.push_succ, h.declared m C hm, Nameless.shift_rename]
      rfl

/-- A substitution that keeps the global variables keeps the sorts of constants and meta-variables. -/
theorem subst_global {σ : Name → Nameless}
    (hσ : ∀ x, Global sig metas x → σ (.free x) = .name (.free x)) {A : Term}
    (hA : GlobalSort sig metas A) : A.nameless.subst σ = A.nameless :=
  A.subst_nameless_of_fixed fun x hx => hσ x ⟨A, hx, hA⟩

theorem rename_global {ρ : Name → Name} (hρ : ∀ x, Global sig metas x → ρ (.free x) = .free x)
    {A : Term} (hA : GlobalSort sig metas A) : A.nameless.rename ρ = A.nameless := by
  rw [Nameless.rename_eq_subst]
  exact subst_global (fun x hx => by rw [hρ x hx]) hA

theorem rename {Γ : Locals} {t : Nameless} {S : NamelessSort} (h : HasSort sig metas Γ t S)
    {Δ : Locals} {ρ : Name → Name} (hρ : Renaming sig metas Γ Δ ρ) :
    HasSort sig metas Δ (t.rename ρ) (S.rename ρ) := by
  induction h generalizing Δ ρ with
  | type Γ => exact type Δ
  | const h =>
    rw [NamelessSort.rename, rename_global hρ.global (Or.inl ⟨_, h⟩)]
    exact const h
  | name h => exact name (hρ.declared _ _ h)
  | metaVar h =>
    rw [NamelessSort.rename, rename_global hρ.global (Or.inr ⟨_, h⟩)]
    exact metaVar h
  | pi _ _ hS ihA ihB =>
    have hB := ihB (hρ.push _)
    rw [hS.rename_eq] at hB ⊢
    exact pi (ihA hρ) hB hS
  | lam _ _ ihA ihs => exact lam (ihA hρ) (ihs (hρ.push _))
  | app _ _ ihf iha =>
    rw [NamelessSort.rename, Nameless.instantiate_rename]
    exact app (ihf hρ) (iha hρ)
  | conv _ _ hS hAB iht ihB =>
    have hB := ihB hρ
    rw [hS.rename_eq] at hB
    exact conv (iht hρ) hB hS (hAB.rename ρ)

/-- Weakening by the variable of a binder. -/
theorem weaken {Γ : Locals} {t : Nameless} {S : NamelessSort} (h : HasSort sig metas Γ t S)
    (A : Nameless) : HasSort sig metas (Γ.push A) t.shift (S.rename Name.succ) := by
  apply h.rename
  constructor
  · intro x _
    rfl
  · intro n B hn
    rw [Locals.push_succ, hn]
    rfl

/-- Weakening by more declarations of any kind. -/
theorem mono {sig' : Signature} {metas' : MetaContext} {Γ Δ : Locals} {t : Nameless}
    {S : NamelessSort} (h : HasSort sig metas Γ t S)
    (hsig : ∀ c A, sig.sortOf? c = some A → sig'.sortOf? c = some A)
    (hmetas : ∀ m A, metas.lookup m = some A → metas'.lookup m = some A)
    (hΓ : ∀ n A, Γ n = some A → Δ n = some A) : HasSort sig' metas' Δ t S := by
  -- A binder adds the same declaration on both sides.
  have hpush : ∀ {Γ Δ : Locals} (A : Nameless), (∀ n B, Γ n = some B → Δ n = some B) →
      ∀ n B, Γ.push A n = some B → Δ.push A n = some B := by
    intro Γ Δ A hΓ n B hn
    rcases Locals.push_cases hn with ⟨rfl, rfl⟩ | ⟨m, C, rfl, hm, rfl⟩
    · rfl
    · rw [Locals.push_succ, hΓ m C hm]
      rfl
  induction h generalizing Δ with
  | type Γ => exact type Δ
  | const h => exact const (hsig _ _ h)
  | name h => exact name (hΓ _ _ h)
  | metaVar h => exact metaVar (hmetas _ _ h)
  | pi _ _ hS ihA ihB => exact pi (ihA hΓ) (ihB (hpush _ hΓ)) hS
  | lam _ _ ihA ihs => exact lam (ihA hΓ) (ihs (hpush _ hΓ))
  | app _ _ ihf iha => exact app (ihf hΓ) (iha hΓ)
  | conv _ _ hS hAB iht ihB => exact conv (iht hΓ) (ihB hΓ) hS hAB

/-- Only declared names occur in a well-sorted term. -/
theorem exists_of_mentions {Γ : Locals} {t : Nameless} {S : NamelessSort}
    (h : HasSort sig metas Γ t S) {n : Name} (hn : t.Mentions n) : ∃ A, Γ n = some A := by
  -- Outside of a binder, the names of its scope are those that the binder has not declared.
  have hpop : ∀ {Γ : Locals} {A : Nameless} {n : Name}, (∃ B, Γ.push A n.succ = some B) →
      ∃ B, Γ n = some B := by
    rintro Γ A n ⟨B, hB⟩
    rw [Locals.push_succ, Option.map_eq_some_iff] at hB
    obtain ⟨C, hC, _⟩ := hB
    exact ⟨C, hC⟩
  induction h generalizing n with
  | type Γ => exact hn.elim
  | const _ => exact hn.elim
  | name h => exact hn ▸ ⟨_, h⟩
  | metaVar _ => exact hn.elim
  | pi _ _ _ ihA ihB => exact hn.elim ihA fun hB => hpop (ihB hB)
  | lam _ _ ihA ihs => exact hn.elim ihA fun hs => hpop (ihs hs)
  | app _ _ ihf iha => exact hn.elim ihf iha
  | conv _ _ _ _ iht _ => exact iht hn

/-! ## Substitution -/

/-- A substitution for the names that `Γ` declares of terms that have the declared sorts in `Δ`. -/
structure Substitution (sig : Signature) (metas : MetaContext) (Γ Δ : Locals)
    (σ : Name → Nameless) : Prop where
  /-- The sorts of constants and meta-variables are kept. -/
  global : ∀ x, Global sig metas x → σ (.free x) = .name (.free x)
  /-- Declarations are met. -/
  declared : ∀ n A, Γ n = some A → HasSort sig metas Δ (σ n) (.term (A.subst σ))

theorem Substitution.push {Γ Δ : Locals} {σ : Name → Nameless}
    (h : Substitution sig metas Γ Δ σ) (A : Nameless) :
    Substitution sig metas (Γ.push A) (Δ.push (A.subst σ)) (Nameless.lift σ) where
  global := by
    intro x hx
    show (σ (.free x)).shift = _
    rw [h.global x hx]
    rfl
  declared := by
    intro n B hn
    rcases Locals.push_cases hn with ⟨rfl, rfl⟩ | ⟨m, C, rfl, hm, rfl⟩
    · rw [Nameless.shift_subst]
      exact name rfl
    · rw [Nameless.lift_succ, Nameless.shift_subst]
      exact (h.declared m C hm).weaken (A.subst σ)

theorem subst {Γ : Locals} {t : Nameless} {S : NamelessSort} (h : HasSort sig metas Γ t S)
    {Δ : Locals} {σ : Name → Nameless} (hσ : Substitution sig metas Γ Δ σ) :
    HasSort sig metas Δ (t.subst σ) (S.subst σ) := by
  induction h generalizing Δ σ with
  | type Γ => exact type Δ
  | const h =>
    rw [NamelessSort.subst, subst_global hσ.global (Or.inl ⟨_, h⟩)]
    exact const h
  | name h => exact hσ.declared _ _ h
  | metaVar h =>
    rw [NamelessSort.subst, subst_global hσ.global (Or.inr ⟨_, h⟩)]
    exact metaVar h
  | pi _ _ hS ihA ihB =>
    have hB := ihB (hσ.push _)
    rw [hS.subst_eq] at hB ⊢
    exact pi (ihA hσ) hB hS
  | lam _ _ ihA ihs => exact lam (ihA hσ) (ihs (hσ.push _))
  | app _ _ ihf iha =>
    rw [NamelessSort.subst, Nameless.instantiate_subst]
    exact app (ihf hσ) (iha hσ)
  | conv _ _ hS hAB iht ihB =>
    have hB := ihB hσ
    rw [hS.subst_eq] at hB
    exact conv (iht hσ) hB hS (hAB.subst σ)

end HasSort

end LogicalFramework

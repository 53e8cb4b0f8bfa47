import LogicalFramework.Conversion
import LogicalFramework.Proofs.NamelessForm
import Mathlib.Logic.Relation

/-!
# Contraction, reduction and convertibility

Three rules contract a nameless term at its root: β, η, and δ, the unfolding of a defined variable.
A set of rules gives rise to two relations:

* `Step`, one contraction anywhere in a term, also under binders and in their types;
* `Congruence`, the least equivalence that contains the rules and is respected by application and
  by the binders.

Nameless terms are terms up to bound names, so both relations are about terms up to bound names.
What is bound is no free variable, so that δ never unfolds it.
-/

namespace LogicalFramework

/-! ## Rules -/

/-- An abstraction that is applied: its scope with the argument for the variable. -/
inductive Beta : Nameless → Nameless → Prop where
  | contract (A s a : Nameless) : Beta (.app (.lam A s) a) (s.instantiate a)

/-- An abstraction that only applies a term to its variable: that term, which is from outside the
abstraction and so does not mention the variable. -/
inductive Eta : Nameless → Nameless → Prop where
  | contract (A t : Nameless) : Eta (.etaExpansion A t) t

/-- A free variable that is defined: the value of its newest definition. -/
inductive Delta (defs : Definitions) : Nameless → Nameless → Prop where
  | unfold {x : Variable} {u : Term} (h : defs.lookup x = some u) :
      Delta defs (.name (.free x)) u.nameless

/-- The rules β and η. -/
def BetaEta (s t : Nameless) : Prop :=
  Beta s t ∨ Eta s t

/-- The rules β and η, and δ for the given definitions. -/
def BetaEtaDelta (defs : Definitions) (s t : Nameless) : Prop :=
  BetaEta s t ∨ Delta defs s t

/-! ## Relations that rules give rise to -/

/-- One contraction somewhere in a term. -/
inductive Step (R : Nameless → Nameless → Prop) : Nameless → Nameless → Prop where
  | root {s t : Nameless} (h : R s t) : Step R s t
  | head {f g a : Nameless} (h : Step R f g) : Step R (.app f a) (.app g a)
  | argument {f a b : Nameless} (h : Step R a b) : Step R (.app f a) (.app f b)
  | domain {q : Binder} {A B s : Nameless} (h : Step R A B) : Step R (.bind q A s) (.bind q B s)
  | scope {q : Binder} {A s t : Nameless} (h : Step R s t) : Step R (.bind q A s) (.bind q A t)

/-- Any number of contractions, one after the other. -/
abbrev Reduces (R : Nameless → Nameless → Prop) : Nameless → Nameless → Prop :=
  Relation.ReflTransGen (Step R)

/-- The least congruence and equivalence that contains the rules `R`. -/
inductive Congruence (R : Nameless → Nameless → Prop) : Nameless → Nameless → Prop where
  | rule {s t : Nameless} (h : R s t) : Congruence R s t
  | refl (t : Nameless) : Congruence R t t
  | symm {s t : Nameless} (h : Congruence R s t) : Congruence R t s
  | trans {s t u : Nameless} (h : Congruence R s t) (h' : Congruence R t u) : Congruence R s u
  | app {f g a b : Nameless} (hf : Congruence R f g) (ha : Congruence R a b) :
      Congruence R (.app f a) (.app g b)
  | bind (q : Binder) {A B s t : Nameless} (hA : Congruence R A B) (hs : Congruence R s t) :
      Congruence R (.bind q A s) (.bind q B t)

/-- Equality of nameless terms up to β and η. -/
abbrev Convertible : Nameless → Nameless → Prop :=
  Congruence BetaEta

/-! ## Reduction -/

theorem Step.subst {R : Nameless → Nameless → Prop}
    (hR : ∀ σ s t, R s t → R (s.subst σ) (t.subst σ)) {s t : Nameless} (h : Step R s t)
    (σ : Name → Nameless) : Step R (s.subst σ) (t.subst σ) := by
  induction h generalizing σ with
  | root h => exact root (hR σ _ _ h)
  | head _ ih => exact head (ih σ)
  | argument _ ih => exact argument (ih σ)
  | domain _ ih => exact domain (ih σ)
  | scope _ ih => exact scope (ih (Nameless.lift σ))

namespace Reduces

variable {R : Nameless → Nameless → Prop}

theorem subst (hR : ∀ σ s t, R s t → R (s.subst σ) (t.subst σ)) {s t : Nameless}
    (h : Reduces R s t) (σ : Name → Nameless) : Reduces R (s.subst σ) (t.subst σ) :=
  h.lift (fun r => r.subst σ) fun _ _ hstep => hstep.subst hR σ

theorem app {f g a b : Nameless} (hf : Reduces R f g) (ha : Reduces R a b) :
    Reduces R (.app f a) (.app g b) :=
  (hf.lift (fun t => Nameless.app t a) fun _ _ => Step.head).trans
    (ha.lift (fun t => Nameless.app g t) fun _ _ => Step.argument)

theorem bind (q : Binder) {A B s t : Nameless} (hA : Reduces R A B) (hs : Reduces R s t) :
    Reduces R (.bind q A s) (.bind q B t) :=
  (hA.lift (fun r => Nameless.bind q r s) fun _ _ => Step.domain).trans
    (hs.lift (fun r => Nameless.bind q B r) fun _ _ => Step.scope)

end Reduces

/-! ## Congruence -/

namespace Congruence

variable {R R' : Nameless → Nameless → Prop}

theorem of_step {s t : Nameless} (h : Step R s t) : Congruence R s t := by
  induction h with
  | root h => exact rule h
  | head _ ih => exact app ih (refl _)
  | argument _ ih => exact app (refl _) ih
  | domain _ ih => exact bind _ ih (refl _)
  | scope _ ih => exact bind _ (refl _) ih

theorem of_reduces {s t : Nameless} (h : Reduces R s t) : Congruence R s t := by
  induction h with
  | refl => exact refl s
  | tail _ hstep ih => exact ih.trans (of_step hstep)

/-- More rules relate more terms. -/
theorem mono {s t : Nameless} (h : Congruence R s t) (hR : ∀ s t, R s t → R' s t) :
    Congruence R' s t := by
  induction h with
  | rule h => exact rule (hR _ _ h)
  | refl t => exact refl t
  | symm _ ih => exact symm ih
  | trans _ _ ih ih' => exact trans ih ih'
  | app _ _ ihf iha => exact app ihf iha
  | bind q _ _ ihA ihs => exact bind q ihA ihs

/-- Congruent terms stay congruent under the substitutions that the rules are stable under, if
these can be carried under binders. -/
theorem subst {P : (Name → Nameless) → Prop} (hlift : ∀ σ, P σ → P (Nameless.lift σ))
    (hR : ∀ σ s t, P σ → R s t → R (s.subst σ) (t.subst σ)) {s t : Nameless}
    (h : Congruence R s t) {σ : Name → Nameless} (hσ : P σ) :
    Congruence R (s.subst σ) (t.subst σ) := by
  induction h generalizing σ with
  | rule h => exact rule (hR σ _ _ hσ h)
  | refl t => exact refl _
  | symm _ ih => exact symm (ih hσ)
  | trans _ _ ih ih' => exact trans (ih hσ) (ih' hσ)
  | app _ _ ihf iha => exact app (ihf hσ) (iha hσ)
  | bind q _ _ ihA ihs => exact bind q (ihA hσ) (ihs (hlift σ hσ))

end Congruence

theorem convertible_of_step {s t : Nameless} (h : Step Beta s t) : Convertible s t :=
  (Congruence.of_step h).mono fun _ _ hβ => Or.inl hβ

theorem convertible_of_reduces {s t : Nameless} (h : Reduces Beta s t) : Convertible s t :=
  (Congruence.of_reduces h).mono fun _ _ hβ => Or.inl hβ

/-! ## Rules under substitution -/

theorem Beta.subst {s t : Nameless} (h : Beta s t) (σ : Name → Nameless) :
    Beta (s.subst σ) (t.subst σ) := by
  obtain ⟨A, s, a⟩ := h
  rw [Nameless.instantiate_subst]
  exact Beta.contract _ _ _

theorem Eta.subst {s t : Nameless} (h : Eta s t) (σ : Name → Nameless) :
    Eta (s.subst σ) (t.subst σ) := by
  obtain ⟨A, t⟩ := h
  rw [Nameless.etaExpansion_subst]
  exact Eta.contract _ _

theorem BetaEta.subst {s t : Nameless} (h : BetaEta s t) (σ : Name → Nameless) :
    BetaEta (s.subst σ) (t.subst σ) :=
  h.imp (fun h => h.subst σ) fun h => h.subst σ

/-- A term does not change if its free variables do not. -/
theorem Term.subst_nameless_of_fixed (t : Term) {σ : Name → Nameless}
    (h : ∀ x, t.occursFree x = true → σ (.free x) = .name (.free x)) :
    t.nameless.subst σ = t.nameless := by
  rw [Term.nameless_eq_namelessIn, Term.subst_namelessIn]
  exact Term.namelessIn_congr t h

/-- Definitions reserve the variable and the free variables of the value of each of them. -/
theorem Definitions.reserved_of_lookup {defs : Definitions} {x : Variable} {u : Term}
    (h : defs.lookup x = some u) :
    x ∈ defs.reserved ∧ ∀ y, u.occursFree y = true → y ∈ defs.reserved := by
  have hmem := Bindings.mem_of_lookup h
  unfold Definitions.reserved
  constructor
  · exact List.mem_flatMap.mpr ⟨(x, u), hmem, List.mem_cons_self⟩
  · intro y hy
    refine List.mem_flatMap.mpr ⟨(x, u), hmem, List.mem_cons_of_mem _ ?_⟩
    exact (Term.mem_freeVariables u y).mpr hy

/-- Unfolding is stable under the substitutions that keep the reserved names. -/
theorem Delta.subst {defs : Definitions} {s t : Nameless} (h : Delta defs s t)
    {σ : Name → Nameless} (hσ : ∀ x ∈ defs.reserved, σ (.free x) = .name (.free x)) :
    Delta defs (s.subst σ) (t.subst σ) := by
  obtain ⟨h⟩ := h
  obtain ⟨hx, hu⟩ := Definitions.reserved_of_lookup h
  rw [Term.subst_nameless_of_fixed _ fun y hy => hσ y (hu y hy), Nameless.subst, hσ _ hx]
  exact Delta.unfold h

end LogicalFramework

import LogicalFramework.Proofs.Congruence

/-!
# The reduction functions reduce

Every answer of the two reduction functions is reached by β-contractions, and a normal form has no
redex left. The weak head normal form of an application is found by cases on the weak head normal
form of its head, and `whnf_app_cases` and `normalForm_app_cases` say once what the cases are.

* `Contracts` — one contraction in a named term, `Contracts.step` — and in its nameless form;
* `whnf_contracts`, `normalForm_contracts` — the answers are reached by contractions;
* `normalForm_isNormal` — a normal form has no redex.
-/

namespace LogicalFramework.Term

/-- Instantiating the scope of a binder of `x` is substituting for `x`. -/
theorem instantiate_close_nameless (x : Variable) (s a : Term) :
    (s.nameless.rename (.close x)).instantiate a.nameless = (s.subst x a).nameless := by
  rw [rename_close_nameless, instantiate_namelessIn_bind, nameless_eq_namelessIn (s.subst x a),
    namelessIn_subst, nameless_eq_namelessIn a]

/-- Contracting a β-redex of named terms contracts its nameless form. -/
theorem beta_nameless (x : Variable) (A s a : Term) :
    Beta (app (lam x A s) a).nameless (s.subst x a).nameless := by
  rw [nameless_app, nameless_bind, ← instantiate_close_nameless]
  exact Beta.contract _ _ _

/-! ## Contractions in named terms -/

/-- One contraction of a β-redex, anywhere in a term. -/
inductive Contracts : Term → Term → Prop where
  | redex (x : Variable) (A s a : Term) : Contracts (app (lam x A s) a) (s.subst x a)
  | head {f g a : Term} (h : Contracts f g) : Contracts (app f a) (app g a)
  | argument {f a b : Term} (h : Contracts a b) : Contracts (app f a) (app f b)
  | domain {q : Binder} {x : Variable} {A B s : Term} (h : Contracts A B) :
      Contracts (bind q x A s) (bind q x B s)
  | scope {q : Binder} {x : Variable} {A s t : Term} (h : Contracts s t) :
      Contracts (bind q x A s) (bind q x A t)

namespace Contracts

/-- Any number of contractions, one after the other. -/
abbrev Many : Term → Term → Prop :=
  Relation.ReflTransGen Contracts

theorem step {s t : Term} (h : Contracts s t) : Step Beta s.nameless t.nameless := by
  induction h with
  | redex x A s a => exact .root (beta_nameless x A s a)
  | head _ ih => exact .head ih
  | argument _ ih => exact .argument ih
  | domain _ ih =>
    rw [nameless_bind, nameless_bind]
    exact .domain ih
  | scope _ ih =>
    rw [nameless_bind, nameless_bind, Nameless.rename_eq_subst, Nameless.rename_eq_subst]
    exact .scope (ih.subst (fun σ _ _ hβ => hβ.subst σ) _)

theorem Many.reduces {s t : Term} (h : Many s t) : Reduces Beta s.nameless t.nameless :=
  h.lift nameless fun _ _ => step

theorem Many.app {f g a b : Term} (hf : Many f g) (ha : Many a b) : Many (app f a) (app g b) :=
  (hf.lift (fun r => Term.app r a) fun _ _ => head).trans
    (ha.lift (fun r => Term.app g r) fun _ _ => argument)

theorem Many.bind (q : Binder) (x : Variable) {A B s t : Term} (hA : Many A B) (hs : Many s t) :
    Many (bind q x A s) (bind q x B t) :=
  (hA.lift (fun r => Term.bind q x r s) fun _ _ => domain).trans
    (hs.lift (fun r => Term.bind q x B r) fun _ _ => scope)

end Contracts

/-! ## Weak head normal forms -/

/-- How the weak head normal form of an application comes about: the head reduces to an abstraction,
which is contracted, or to another term, which stays applied. -/
theorem whnf_app_cases {fuel : Nat} {h a t : Term} (ht : (app h a).whnf (fuel + 1) = some t) :
    (∃ x A s, h.whnf fuel = some (lam x A s) ∧ (s.subst x a).whnf fuel = some t) ∨
      ∃ h', h.whnf fuel = some h' ∧ h'.isLambda = false ∧ t = app h' a := by
  rw [whnf, Option.bind_eq_bind, Option.bind_eq_some_iff] at ht
  obtain ⟨h', hh, ht⟩ := ht
  split at ht
  · exact Or.inl ⟨_, _, _, hh, ht⟩
  · rename_i hlam
    refine Or.inr ⟨h', hh, ?_, (Option.some.inj ht).symm⟩
    unfold isLambda
    split
    · exact absurd rfl (hlam _ _ _)
    · rfl

/-- A term that is no application is in weak head normal form. -/
theorem whnf_of_not_app {fuel : Nat} {t : Term} (ht : t.isApplication = false) :
    t.whnf (fuel + 1) = some t := by
  cases t with
  | app h a => exact absurd ht (by simp [isApplication])
  | _ => rfl

theorem whnf_contracts {fuel : Nat} {t t' : Term} (h : t.whnf fuel = some t') :
    Contracts.Many t t' := by
  induction fuel generalizing t t' with
  | zero => exact absurd h (by simp [whnf])
  | succ fuel ih =>
    cases t with
    | app f a =>
      rcases whnf_app_cases h with ⟨x, A, s, hf, hs⟩ | ⟨f', hf, _, rfl⟩
      · -- First the head is reduced, then the redex contracted, then the contractum reduced.
        have hhead : Contracts.Many (app f a) (app (lam x A s) a) := (ih hf).app .refl
        exact (hhead.tail (.redex x A s a)).trans (ih hs)
      · exact (ih hf).app .refl
    | _ =>
      rw [whnf_of_not_app rfl] at h
      cases h
      exact .refl

theorem whnf_reduces {fuel : Nat} {t t' : Term} (h : t.whnf fuel = some t') :
    Reduces Beta t.nameless t'.nameless :=
  (whnf_contracts h).reduces

/-! ## Normal forms -/

/-- How the normal form of an application comes about: head and argument are normalised, and if this
makes a redex, it is contracted and normalised again. -/
theorem normalForm_app_cases {fuel : Nat} {h a t : Term}
    (ht : (app h a).normalForm (fuel + 1) = some t) :
    ∃ h' a', h.normalForm fuel = some h' ∧ a.normalForm fuel = some a' ∧
      ((∃ x A s, h' = lam x A s ∧ (s.subst x a').normalForm fuel = some t) ∨
        (h'.isLambda = false ∧ t = app h' a')) := by
  rw [normalForm, Option.bind_eq_bind, Option.bind_eq_some_iff] at ht
  obtain ⟨h', hh, ht⟩ := ht
  rw [Option.bind_eq_some_iff] at ht
  obtain ⟨a', ha, ht⟩ := ht
  refine ⟨h', a', hh, ha, ?_⟩
  split at ht
  · exact Or.inl ⟨_, _, _, rfl, ht⟩
  · rename_i hlam
    refine Or.inr ⟨?_, (Option.some.inj ht).symm⟩
    unfold isLambda
    split
    · exact absurd rfl (hlam _ _ _)
    · rfl

theorem normalForm_bind_cases {fuel : Nat} {q : Binder} {x : Variable} {A s t : Term}
    (ht : (bind q x A s).normalForm (fuel + 1) = some t) :
    ∃ A' s', A.normalForm fuel = some A' ∧ s.normalForm fuel = some s' ∧ t = bind q x A' s' := by
  rw [normalForm, Option.bind_eq_bind, Option.bind_eq_some_iff] at ht
  obtain ⟨A', hA, ht⟩ := ht
  rw [Option.bind_eq_some_iff] at ht
  obtain ⟨s', hs, ht⟩ := ht
  exact ⟨A', s', hA, hs, (Option.some.inj ht).symm⟩

theorem normalForm_of_isAtom {fuel : Nat} {t : Term} (ht : t.isAtom = true) :
    t.normalForm (fuel + 1) = some t := by
  cases t with
  | app h a => exact absurd ht (by simp [isAtom])
  | bind q x A s => exact absurd ht (by simp [isAtom])
  | _ => rfl

theorem normalForm_contracts {fuel : Nat} {t t' : Term} (h : t.normalForm fuel = some t') :
    Contracts.Many t t' := by
  induction fuel generalizing t t' with
  | zero => exact absurd h (by simp [normalForm])
  | succ fuel ih =>
    cases t with
    | app f a =>
      obtain ⟨f', a', hf, ha, hcases⟩ := normalForm_app_cases h
      have hparts : Contracts.Many (app f a) (app f' a') := (ih hf).app (ih ha)
      rcases hcases with ⟨x, A, s, rfl, hs⟩ | ⟨_, rfl⟩
      · exact (hparts.tail (.redex x A s a')).trans (ih hs)
      · exact hparts
    | bind q x A s =>
      obtain ⟨A', s', hA, hs, rfl⟩ := normalForm_bind_cases h
      exact (ih hA).bind q x (ih hs)
    | _ =>
      rw [normalForm_of_isAtom rfl] at h
      cases h
      exact .refl

theorem normalForm_reduces {fuel : Nat} {t t' : Term} (h : t.normalForm fuel = some t') :
    Reduces Beta t.nameless t'.nameless :=
  (normalForm_contracts h).reduces

/-! ## Terms without a redex -/

/-- Whether no abstraction is applied, anywhere in the term. -/
def IsNormal : Term → Prop
  | app h a => h.isLambda = false ∧ h.IsNormal ∧ a.IsNormal
  | bind _ _ A s => A.IsNormal ∧ s.IsNormal
  | _ => True

theorem normalForm_isNormal {fuel : Nat} {t t' : Term} (h : t.normalForm fuel = some t') :
    t'.IsNormal := by
  induction fuel generalizing t t' with
  | zero => exact absurd h (by simp [normalForm])
  | succ fuel ih =>
    cases t with
    | app f a =>
      obtain ⟨f', a', hf, ha, hcases⟩ := normalForm_app_cases h
      rcases hcases with ⟨x, A, s, _, hs⟩ | ⟨hlam, rfl⟩
      · exact ih hs
      · exact ⟨hlam, ih hf, ih ha⟩
    | bind q x A s =>
      obtain ⟨A', s', hA, hs, rfl⟩ := normalForm_bind_cases h
      exact ⟨ih hA, ih hs⟩
    | _ =>
      rw [normalForm_of_isAtom rfl] at h
      cases h
      trivial

/-- Weak head reduction leaves a term without a redex as it is. -/
theorem whnf_of_isNormal {fuel : Nat} {t t' : Term} (ht : t.IsNormal)
    (h : t.whnf fuel = some t') : t' = t := by
  induction fuel generalizing t t' with
  | zero => exact absurd h (by simp [whnf])
  | succ fuel ih =>
    cases t with
    | app f a =>
      obtain ⟨hlam, hf, _⟩ := ht
      rcases whnf_app_cases h with ⟨x, A, s, hwhnf, _⟩ | ⟨f', hwhnf, _, rfl⟩
      · rw [← ih hf hwhnf] at hlam
        exact absurd hlam (by simp [isLambda])
      · rw [ih hf hwhnf]
    | _ =>
      rw [whnf_of_not_app rfl] at h
      exact (Option.some.inj h).symm

end LogicalFramework.Term

import LogicalFramework.Proofs.Termination

/-!
# Weak head reduction

Weak head reduction contracts the redex at the head of an application spine, with its argument as it
is, and contracts nothing inside arguments, types and scopes. Nothing is missed in this way. Any
reduction can be rearranged so that the contractions at the head come first, and what is left over
changes neither the shape of a term nor whether it has a redex at its head. So a term that reduces
to a weak head normal form, by whatever contractions, is given one.

* `Nameless.HasWhnf` — the weak head normal form of a term, for some bound;
* `Nameless.HasWhnf.of_subst` — reduction can be made before a substitution;
* `Internal` — parallel reduction that contracts nothing at the head;
* `Parallel.factors` — a parallel reduction is a number of contractions at the head and then an
  internal reduction;
* `Nameless.exists_weakHead_of_reduces`, `Nameless.exists_hasWhnf_of_reduces` — the terms that have
  a weak head normal form.
-/

namespace LogicalFramework

/-! ## Weak head normal forms for some bound -/

namespace Nameless

theorem whnf_kept {fuel fuel' : Nat} (h : fuel ≤ fuel') (t : Nameless) :
    Kept (t.whnf fuel) (t.whnf fuel') := by
  induction fuel generalizing fuel' t with
  | zero => exact Or.inl rfl
  | succ fuel ih =>
    obtain ⟨k, rfl⟩ := Nat.exists_eq_add_of_lt h
    have hk : fuel ≤ fuel + k := Nat.le_add_right fuel k
    cases t with
    | app f a =>
      rw [whnf, whnf]
      refine (ih hk f).bind fun f' => ?_
      cases f' with
      | bind q A s =>
        cases q with
        | lam => exact ih hk _
        | pi => exact .refl _
      | _ => exact .refl _
    | _ => exact .refl _

/-- That a term has a weak head normal form, for some bound. -/
def HasWhnf (t t' : Nameless) : Prop :=
  ∃ fuel, t.whnf fuel = some t'

namespace HasWhnf

variable {h a t t' w : Nameless}

theorem app_cases (ht : (app h a).HasWhnf t) :
    (∃ A s, h.HasWhnf (lam A s) ∧ (s.instantiate a).HasWhnf t) ∨
      ∃ h', h.HasWhnf h' ∧ h'.isLambda = false ∧ t = app h' a := by
  obtain ⟨fuel, ht⟩ := ht
  cases fuel with
  | zero => exact absurd ht (by simp [whnf])
  | succ fuel =>
    rcases whnf_app_cases ht with ⟨A, s, hh, hs⟩ | ⟨h', hh, hlam, rfl⟩
    · exact Or.inl ⟨A, s, ⟨fuel, hh⟩, ⟨fuel, hs⟩⟩
    · exact Or.inr ⟨h', ⟨fuel, hh⟩, hlam, rfl⟩

theorem redex {A s : Nameless} (hh : h.HasWhnf (lam A s)) (hs : (s.instantiate a).HasWhnf t) :
    (app h a).HasWhnf t := by
  obtain ⟨m, hh⟩ := hh
  obtain ⟨n, hs⟩ := hs
  refine ⟨max m n + 1, ?_⟩
  rw [whnf, (whnf_kept (le_max_left m n) h).eq_some hh]
  exact (whnf_kept (le_max_right m n) _).eq_some hs

theorem neutral (hh : h.HasWhnf t) (hlam : t.isLambda = false) (a : Nameless) :
    (app h a).HasWhnf (app t a) := by
  obtain ⟨fuel, hh⟩ := hh
  exact ⟨fuel + 1, whnf_app hh hlam⟩

/-- The weak head normal form is found with every large enough bound. -/
theorem eventually (ht : t.HasWhnf t') : ∀ᶠ fuel in Filter.atTop, t.whnf fuel = some t' := by
  obtain ⟨fuel, ht⟩ := ht
  exact eventually_of_kept (fun hle => whnf_kept hle t) ht

theorem eq_of_isWeakHeadNormal (ht : t.HasWhnf t') (hnormal : t.IsWeakHeadNormal) : t' = t := by
  induction t generalizing t' with
  | app f a ihf _ =>
    obtain ⟨hlam, hf⟩ := hnormal
    rcases ht.app_cases with ⟨A, s, hred, _⟩ | ⟨f', hred, _, rfl⟩
    · rw [← ihf hred hf] at hlam
      exact absurd hlam (by simp [isLambda])
    · rw [ihf hred hf]
  | _ =>
    obtain ⟨fuel, ht⟩ := ht
    cases fuel with
    | zero => exact absurd ht (by simp [whnf])
    | succ fuel => exact (Option.some.inj ht).symm

/-- **Reduction before substitution.** A substitution may make more redexes at the head, but those
of the term itself can be contracted first. -/
theorem of_subst {σ : Name → Nameless} (ht : t.HasWhnf t') (hw : (t.subst σ).HasWhnf w) :
    (t'.subst σ).HasWhnf w := by
  obtain ⟨fuel, ht⟩ := ht
  induction fuel generalizing t t' w with
  | zero => exact absurd ht (by simp [whnf])
  | succ fuel ih =>
    cases t with
    | app f a =>
      rcases whnf_app_cases ht with ⟨A, s, hf, hs⟩ | ⟨f', hf, _, rfl⟩
      · -- The head becomes an abstraction, so the image of the contractum is what is reduced on.
        refine ih ?_ hs
        rw [instantiate_subst]
        rcases app_cases hw with ⟨B, b, hlam, hb⟩ | ⟨g, hg, hlam, _⟩
        · cases (ih hlam hf).eq_of_isWeakHeadNormal trivial
          exact hb
        · rw [(ih hg hf).eq_of_isWeakHeadNormal trivial] at hlam
          exact absurd hlam (by simp [subst, isLambda])
      · rcases app_cases hw with ⟨B, b, hlam, hb⟩ | ⟨g, hg, hlam, rfl⟩
        · exact redex (ih hlam hf) hb
        · exact neutral (ih hg hf) hlam _
    | _ =>
      cases ht
      exact hw

end HasWhnf

/-- A weak head normal form is its own. -/
theorem IsWeakHeadNormal.hasWhnf {t : Nameless} (ht : t.IsWeakHeadNormal) : t.HasWhnf t := by
  induction t with
  | app h a ihh _ => exact .neutral (ihh ht.2) ht.1 a
  | _ => exact ⟨1, rfl⟩

end Nameless

/-! ## Contractions at the head -/

/-- One contraction, of the redex at the head of an application spine. -/
inductive WeakHead : Nameless → Nameless → Prop where
  | contract (A s a : Nameless) : WeakHead (.app (.lam A s) a) (s.instantiate a)
  | head {f g a : Nameless} (h : WeakHead f g) : WeakHead (.app f a) (.app g a)

namespace WeakHead

/-- Any number of contractions at the head, one after the other. -/
abbrev Many : Nameless → Nameless → Prop :=
  Relation.ReflTransGen WeakHead

theorem subst {s t : Nameless} (h : WeakHead s t) (σ : Name → Nameless) :
    WeakHead (s.subst σ) (t.subst σ) := by
  induction h with
  | contract A s a =>
    rw [Nameless.instantiate_subst]
    exact contract _ _ _
  | head _ ih => exact head ih

theorem Many.subst {s t : Nameless} (h : Many s t) (σ : Name → Nameless) :
    Many (s.subst σ) (t.subst σ) :=
  h.lift (fun r => r.subst σ) fun _ _ hstep => hstep.subst σ

theorem Many.app {f g : Nameless} (h : Many f g) (a : Nameless) : Many (.app f a) (.app g a) :=
  h.lift (fun r => Nameless.app r a) fun _ _ => WeakHead.head

/-- A contraction at the head keeps the weak head normal form. -/
theorem hasWhnf {t u w : Nameless} (h : WeakHead t u) (hu : u.HasWhnf w) : t.HasWhnf w := by
  induction h generalizing w with
  | contract A s a => exact .redex ⟨1, rfl⟩ hu
  | head _ ih =>
    rcases hu.app_cases with ⟨A, s, hg, hs⟩ | ⟨g', hg, hlam, rfl⟩
    · exact .redex (ih hg) hs
    · exact .neutral (ih hg) hlam _

theorem Many.hasWhnf {t u w : Nameless} (h : Many t u) (hu : u.HasWhnf w) : t.HasWhnf w := by
  induction h using Relation.ReflTransGen.head_induction_on with
  | refl => exact hu
  | head hstep _ ih => exact hstep.hasWhnf ih

end WeakHead

/-! ## Contractions elsewhere -/

/-- Contraction of any number of redexes at once, none of which is at the head. -/
inductive Internal : Nameless → Nameless → Prop where
  | type : Internal .type .type
  | const (c : Constant) : Internal (.const c) (.const c)
  | name (n : Name) : Internal (.name n) (.name n)
  | metaVar (m : MetaVariable) : Internal (.metaVar m) (.metaVar m)
  | app {f g a b : Nameless} (hf : Internal f g) (ha : Parallel False a b) :
      Internal (.app f a) (.app g b)
  | bind (q : Binder) {A B s t : Nameless} (hA : Parallel False A B) (hs : Parallel False s t) :
      Internal (.bind q A s) (.bind q B t)

/-- That `s` becomes `t` by contractions at the head and, after them, contractions elsewhere. -/
def Factors (s t : Nameless) : Prop :=
  ∃ v, WeakHead.Many s v ∧ Internal v t

namespace Factors

variable {s t u : Nameless}

theorem of_internal (h : Internal s t) : Factors s t :=
  ⟨s, .refl, h⟩

theorem of_many (h : WeakHead.Many s t) (h' : Factors t u) : Factors s u := by
  obtain ⟨v, htv, hvu⟩ := h'
  exact ⟨v, h.trans htv, hvu⟩

theorem app {f g a b : Nameless} (hf : Factors f g) (ha : Parallel False a b) :
    Factors (.app f a) (.app g b) := by
  obtain ⟨v, hfv, hvg⟩ := hf
  exact ⟨.app v a, hfv.app a, .app hvg ha⟩

end Factors

namespace Internal

variable {s t u : Nameless}

theorem isLambda_eq (h : Internal s t) : s.isLambda = t.isLambda := by
  cases h with
  | bind q => cases q <;> rfl
  | _ => rfl

/-- Contractions elsewhere remove no redex from the head. -/
theorem isWeakHeadNormal (h : Internal s t) (ht : t.IsWeakHeadNormal) : s.IsWeakHeadNormal := by
  induction h with
  | app hf _ ih => exact ⟨hf.isLambda_eq.trans ht.1, ih ht.2⟩
  | _ => trivial

/-- A substitution may put a redex at the head, and then this redex is contracted first. -/
theorem subst (h : Internal s t) {σ τ : Name → Nameless}
    (hparallel : ∀ n, Parallel False (σ n) (τ n)) (hfactors : ∀ n, Factors (σ n) (τ n)) :
    Factors (s.subst σ) (t.subst τ) := by
  induction h with
  | type => exact .of_internal .type
  | const c => exact .of_internal (.const c)
  | metaVar m => exact .of_internal (.metaVar m)
  | name n => exact hfactors n
  | app _ ha ih => exact ih.app (ha.subst hparallel)
  | bind q hA hs =>
    exact .of_internal (.bind q (hA.subst hparallel) (hs.subst (Parallel.lift hparallel)))

end Internal

/-! ## Contractions at the head come first -/

/-- **Factorization.** A parallel reduction is a number of contractions at the head, followed by
contractions elsewhere. -/
theorem Parallel.factors {s t : Nameless} (h : Parallel False s t) : Factors s t := by
  induction h with
  | type => exact .of_internal .type
  | const c => exact .of_internal (.const c)
  | name n => exact .of_internal (.name n)
  | metaVar m => exact .of_internal (.metaVar m)
  | app _ ha ihf _ => exact ihf.app ha
  | bind q hA hs => exact .of_internal (.bind q hA hs)
  | @beta A s t a b _ ha ihs iha =>
    obtain ⟨v, hsv, hvt⟩ := ihs
    -- The redex is contracted, and what is contracted at the head of its scope comes next.
    have hredex : WeakHead.Many (.app (.lam A s) a) (v.instantiate a) :=
      .head (.contract A s a) (hsv.subst _)
    exact .of_many hredex (hvt.subst (Name.under_related ha fun _ => .refl _)
      (Name.under_related iha fun n => .of_internal (.name n)))
  | eta h | reset h => exact h.elim

namespace Internal

variable {s t u : Nameless}

/-- A contraction at the head after contractions elsewhere can be made before them. -/
theorem weakHead (h : Internal s t) (ht : WeakHead t u) :
    ∃ v, WeakHead s v ∧ Parallel False v u := by
  induction ht generalizing s with
  | contract A t b =>
    cases h with
    | app hf ha =>
      cases hf with
      | bind _ _ hs => exact ⟨_, .contract _ _ _, hs.instantiate ha⟩
  | head _ ih =>
    cases h with
    | app hf ha =>
      obtain ⟨v, hfv, hvg⟩ := ih hf
      exact ⟨_, .head hfv, .app hvg ha⟩

/-- Any number of contractions at the head after contractions elsewhere can be made before them. -/
theorem factors (h : Internal s t) (ht : WeakHead.Many t u) : Factors s u := by
  induction ht using Relation.ReflTransGen.head_induction_on generalizing s with
  | refl => exact .of_internal h
  | head hstep _ ih =>
    obtain ⟨v, hsv, hparallel⟩ := h.weakHead hstep
    obtain ⟨w, hvw, hinternal⟩ := hparallel.factors
    exact .of_many (.head hsv hvw) (ih hinternal)

end Internal

namespace Nameless

/-- **Standardization.** A term that reduces to a weak head normal form reaches one by contractions at
the head alone. -/
theorem exists_weakHead_of_reduces {t u : Nameless} (h : Reduces Beta t u)
    (hu : u.IsWeakHeadNormal) : ∃ w, WeakHead.Many t w ∧ w.IsWeakHeadNormal := by
  induction h using Relation.ReflTransGen.head_induction_on with
  | refl => exact ⟨u, .refl, hu⟩
  | head hstep _ ih =>
    obtain ⟨w, hmany, hw⟩ := ih
    -- The contractions at the head that come after the first step are made before the rest of it.
    obtain ⟨v, htv, hinternal⟩ := (Parallel.of_step hstep).factors
    obtain ⟨v', hvv', hinternal'⟩ := hinternal.factors hmany
    exact ⟨v', htv.trans hvv', hinternal'.isWeakHeadNormal hw⟩

theorem exists_hasWhnf_of_reduces {t u : Nameless} (h : Reduces Beta t u)
    (hu : u.IsWeakHeadNormal) : ∃ w, t.HasWhnf w := by
  obtain ⟨w, hmany, hw⟩ := exists_weakHead_of_reduces h hu
  exact ⟨w, hmany.hasWhnf hw.hasWhnf⟩

end Nameless

end LogicalFramework

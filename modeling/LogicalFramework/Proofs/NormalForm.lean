import LogicalFramework.Proofs.Alpha
import LogicalFramework.Proofs.Confluence
import LogicalFramework.Proofs.Reduction

/-!
# Normal forms are unique

β-reduction is confluent, since it is between one parallel reduction without η and many. A term
without a redex reduces to itself only. So terms that are joined by contractions, forwards and
backwards and anywhere in a term, have the same normal form up to bound names:

* `Reduces.confluent`, `Reduces.join_of_eqvGen` — the Church–Rosser property for β alone;
* `Nameless.IsNormal.eq_of_reduces` — a term without a redex reduces to itself only;
* `Term.BetaConvertible` — terms joined by contractions and changes of bound names;
* `Term.normalForm_unique` — uniqueness of normal forms.
-/

namespace LogicalFramework

/-! ## Confluence of β-reduction -/

/-- One contraction is a parallel reduction. -/
theorem Parallel.of_step {η : Prop} {s t : Nameless} (h : Step Beta s t) : Parallel η s t := by
  induction h with
  | root hβ =>
    obtain ⟨A, s, a⟩ := hβ
    exact .beta A (.refl s) (.refl a)
  | head _ ih => exact .app ih (.refl _)
  | argument _ ih => exact .app (.refl _) ih
  | domain _ ih => exact .bind _ ih (.refl _)
  | scope _ ih => exact .bind _ (.refl _) ih

/-- A parallel reduction without η is a sequence of contractions. -/
theorem Parallel.reduces {s t : Nameless} (h : Parallel False s t) : Reduces Beta s t := by
  induction h with
  | app _ _ ihf iha => exact ihf.app iha
  | bind q _ _ ihA ihs => exact ihA.bind q ihs
  | @beta A s t a b _ _ ihs iha =>
    -- First the parts are reduced, then the redex is contracted.
    have hparts : Reduces Beta (.app (.lam A s) a) (.app (.lam A t) b) :=
      Reduces.app (Reduces.bind .lam .refl ihs) iha
    exact hparts.tail (.root (.contract A t b))
  | eta h | reset h => exact h.elim
  | _ => exact .refl

namespace Reduces

theorem many {η : Prop} {s t : Nameless} (h : Reduces Beta s t) : Parallel.Many η s t :=
  h.lift id fun _ _ => Parallel.of_step

theorem of_many {s t : Nameless} (h : Parallel.Many False s t) : Reduces Beta s t := by
  induction h with
  | refl => exact .refl
  | tail _ hstep ih => exact ih.trans hstep.reduces

/-- **Confluence of β-reduction.** -/
theorem confluent {t u v : Nameless} (hu : Reduces Beta t u) (hv : Reduces Beta t v) :
    Relation.Join (Reduces Beta) u v := by
  obtain ⟨d, hud, hvd⟩ := Parallel.confluent (η := False) hu.many hv.many
  exact ⟨d, of_many hud, of_many hvd⟩

/-- Terms that are joined by contractions, forwards and backwards, have a common reduct. -/
theorem join_of_eqvGen {s t : Nameless} (h : Relation.EqvGen (Step Beta) s t) :
    Relation.Join (Reduces Beta) s t := by
  have hequiv : Equivalence (Relation.Join (Reduces Beta)) :=
    Relation.equivalence_join fun _ _ _ => confluent
  rw [← hequiv.eqvGen_iff]
  exact h.mono fun _ _ hstep => ⟨_, .single hstep, .refl⟩

end Reduces

/-! ## Terms without a redex -/

namespace Nameless

/-- Whether the term is an abstraction. -/
def isLambda : Nameless → Bool
  | lam _ _ => true
  | _ => false

/-- Whether the term is a dependent product. -/
def isPi : Nameless → Bool
  | pi _ _ => true
  | _ => false

/-- Whether no abstraction is applied, anywhere in the term. -/
def IsNormal : Nameless → Prop
  | app h a => h.isLambda = false ∧ h.IsNormal ∧ a.IsNormal
  | bind _ A s => A.IsNormal ∧ s.IsNormal
  | _ => True

theorem exists_lam_of_isLambda {t : Nameless} (h : t.isLambda = true) : ∃ A s, t = lam A s := by
  cases t with
  | bind q A s =>
    cases q with
    | lam => exact ⟨A, s, rfl⟩
    | pi => exact absurd h (by simp [isLambda])
  | _ => exact absurd h (by simp [isLambda])

@[simp]
theorem isLambda_rename (t : Nameless) (ρ : Name → Name) :
    (t.rename ρ).isLambda = t.isLambda := by
  cases t with
  | bind q A s => cases q <;> rfl
  | _ => rfl

@[simp]
theorem isPi_rename (t : Nameless) (ρ : Name → Name) : (t.rename ρ).isPi = t.isPi := by
  cases t with
  | bind q A s => cases q <;> rfl
  | _ => rfl

/-- Renaming makes no redex and removes none. -/
@[simp]
theorem isNormal_rename (t : Nameless) (ρ : Name → Name) :
    (t.rename ρ).IsNormal ↔ t.IsNormal := by
  induction t generalizing ρ with
  | app h a ihh iha => simp only [rename, IsNormal, isLambda_rename, ihh, iha]
  | bind q A s ihA ihs => simp only [rename, IsNormal, ihA, ihs]
  | _ => exact Iff.rfl

theorem IsNormal.not_step {t u : Nameless} (ht : t.IsNormal) : ¬Step Beta t u := by
  intro h
  induction h with
  | root hβ =>
    obtain ⟨A, s, a⟩ := hβ
    exact Bool.noConfusion ht.1
  | head _ ih => exact ih ht.2.1
  | argument _ ih => exact ih ht.2.2
  | domain _ ih => exact ih ht.1
  | scope _ ih => exact ih ht.2

/-- A term without a redex reduces to itself only. -/
theorem IsNormal.eq_of_reduces {t u : Nameless} (ht : t.IsNormal) (h : Reduces Beta t u) :
    u = t :=
  (Relation.reflTransGen_iff_eq fun _ => ht.not_step).mp h

/-- A term that reduces to one without a redex still does so after any contractions. -/
theorem IsNormal.reduces_of_reduces {t u v : Nameless} (hu : u.IsNormal) (htu : Reduces Beta t u)
    (htv : Reduces Beta t v) : Reduces Beta v u := by
  obtain ⟨d, hud, hvd⟩ := htu.confluent htv
  rw [hu.eq_of_reduces hud] at hvd
  exact hvd

end Nameless

namespace Term

/-! ## Contractions forwards and backwards -/

/-- That two terms are joined by contractions, forwards and backwards, and changes of bound
names. -/
def BetaConvertible : Term → Term → Prop :=
  Relation.EqvGen fun s t => Contracts s t ∨ alphaEquivalent s t = true

theorem BetaConvertible.nameless {s t : Term} (h : BetaConvertible s t) :
    Relation.EqvGen (Step Beta) s.nameless t.nameless := by
  induction h with
  | rel s t h =>
    rcases h with hstep | hα
    · exact .rel _ _ hstep.step
    · rw [(alphaEquivalent_iff_nameless s t).mp hα]
      exact .refl _
  | refl t => exact .refl _
  | symm _ _ _ ih => exact .symm _ _ ih
  | trans _ _ _ _ _ ih ih' => exact .trans _ _ _ ih ih'

/-! ## Uniqueness -/

theorem isLambda_nameless (t : Term) : t.nameless.isLambda = t.isLambda := by
  cases t with
  | bind q x A s =>
    rw [nameless_bind]
    cases q <;> rfl
  | _ => rfl

theorem isPi_nameless (t : Term) : t.nameless.isPi = t.isPi := by
  cases t with
  | bind q x A s =>
    rw [nameless_bind]
    cases q <;> rfl
  | _ => rfl

theorem isNormal_nameless (t : Term) : t.nameless.IsNormal ↔ t.IsNormal := by
  induction t with
  | app h a ihh iha =>
    simp only [nameless_app, Nameless.IsNormal, IsNormal, isLambda_nameless, ihh, iha]
  | bind q x A s ihA ihs =>
    simp only [nameless_bind, Nameless.IsNormal, IsNormal, Nameless.isNormal_rename, ihA, ihs]
  | _ => exact Iff.rfl

/-- **Uniqueness of normal forms.** Terms that are joined by a zigzag of β-contractions, under
binders and in their types too, have normal forms that differ in bound names only. -/
theorem normalForm_unique (fuel fuel' : Nat) (t u t' u' : Term) (h : BetaConvertible t u)
    (ht : t.normalForm fuel = some t') (hu : u.normalForm fuel' = some u') :
    alphaEquivalent t' u' = true := by
  rw [alphaEquivalent_iff_nameless]
  have htt' := normalForm_reduces ht
  have huu' := normalForm_reduces hu
  have ht' := (isNormal_nameless t').mpr (normalForm_isNormal ht)
  have hu' := (isNormal_nameless u').mpr (normalForm_isNormal hu)
  -- Both normal forms reduce to what the two terms have in common.
  obtain ⟨d, htd, hud⟩ := Reduces.join_of_eqvGen h.nameless
  have hdt : Reduces Beta d t'.nameless := ht'.reduces_of_reduces htt' htd
  have hdu : Reduces Beta d u'.nameless := hu'.reduces_of_reduces huu' hud
  exact (ht'.eq_of_reduces (hu'.reduces_of_reduces hdu hdt)).symm

/-- The identity applied to a constant. -/
def identityAt (c : Constant) : Term :=
  app (lam ⟨"y"⟩ type (var ⟨"y"⟩)) (const c)

/-- The term `λ z : A, (λ x, f x) a`, with `z` not in use. -/
def nestedRedex (z : Variable) (A a : Term) : Term :=
  lam z A (app (lam ⟨"x"⟩ type (app (var ⟨"f"⟩) (var ⟨"x"⟩))) a)

/-- The terms `λ z : a, f ((λ y, y) c)` and `λ w : (λ y, y) a, (λ x, f x) c` both come from
`λ z : (λ y, y) a, (λ x, f x) ((λ y, y) c)`, up to a bound name. Neither reduces to the other. -/
theorem normalForm_unique_peak :
    BetaConvertible (lam ⟨"z"⟩ (const ⟨"a"⟩) (app (var ⟨"f"⟩) (identityAt ⟨"c"⟩)))
        (nestedRedex ⟨"w"⟩ (identityAt ⟨"a"⟩) (const ⟨"c"⟩)) ∧
      ∃ t' u',
        (lam ⟨"z"⟩ (const ⟨"a"⟩) (app (var ⟨"f"⟩) (identityAt ⟨"c"⟩))).normalForm 5 = some t' ∧
        (nestedRedex ⟨"w"⟩ (identityAt ⟨"a"⟩) (const ⟨"c"⟩)).normalForm 5 = some u' ∧
        t' ≠ u' ∧ alphaEquivalent t' u' = true := by
  have hidentity : ∀ c, Contracts (identityAt c) (const c) := by
    intro c
    have h := Contracts.redex ⟨"y"⟩ type (var ⟨"y"⟩) (const c)
    rw [subst_var, if_pos rfl] at h
    exact h
  have hinner : Contracts (nestedRedex ⟨"z"⟩ (const ⟨"a"⟩) (identityAt ⟨"c"⟩))
      (lam ⟨"z"⟩ (const ⟨"a"⟩) (app (var ⟨"f"⟩) (identityAt ⟨"c"⟩))) := by
    have h := Contracts.redex ⟨"x"⟩ type (app (var ⟨"f"⟩) (var ⟨"x"⟩)) (identityAt ⟨"c"⟩)
    rw [subst_app, subst_var, subst_var, if_neg (by decide), if_pos rfl] at h
    exact .scope h
  have hdomain : Contracts (nestedRedex ⟨"z"⟩ (identityAt ⟨"a"⟩) (identityAt ⟨"c"⟩))
      (nestedRedex ⟨"z"⟩ (const ⟨"a"⟩) (identityAt ⟨"c"⟩)) := .domain (hidentity _)
  have hargument : Contracts (nestedRedex ⟨"z"⟩ (identityAt ⟨"a"⟩) (identityAt ⟨"c"⟩))
      (nestedRedex ⟨"z"⟩ (identityAt ⟨"a"⟩) (const ⟨"c"⟩)) := .scope (.argument (hidentity _))
  have hrenamed : alphaEquivalent (nestedRedex ⟨"z"⟩ (identityAt ⟨"a"⟩) (const ⟨"c"⟩))
      (nestedRedex ⟨"w"⟩ (identityAt ⟨"a"⟩) (const ⟨"c"⟩)) = true := by decide +kernel
  have hpeak : BetaConvertible (lam ⟨"z"⟩ (const ⟨"a"⟩) (app (var ⟨"f"⟩) (identityAt ⟨"c"⟩)))
      (nestedRedex ⟨"w"⟩ (identityAt ⟨"a"⟩) (const ⟨"c"⟩)) :=
    .trans _ _ _ (.symm _ _ (.rel _ _ (Or.inl hinner))) <|
      .trans _ _ _ (.symm _ _ (.rel _ _ (Or.inl hdomain))) <|
        .trans _ _ _ (.rel _ _ (Or.inl hargument)) (.rel _ _ (Or.inr hrenamed))
  have ht : (lam ⟨"z"⟩ (const ⟨"a"⟩) (app (var ⟨"f"⟩) (identityAt ⟨"c"⟩))).normalForm 5 =
      some (lam ⟨"z"⟩ (const ⟨"a"⟩) (app (var ⟨"f"⟩) (const ⟨"c"⟩))) := by decide +kernel
  have hu : (nestedRedex ⟨"w"⟩ (identityAt ⟨"a"⟩) (const ⟨"c"⟩)).normalForm 5 =
      some (lam ⟨"w"⟩ (const ⟨"a"⟩) (app (var ⟨"f"⟩) (const ⟨"c"⟩))) := by decide +kernel
  exact ⟨hpeak, _, _, ht, hu, by decide, normalForm_unique 5 5 _ _ _ _ hpeak ht hu⟩

end Term

end LogicalFramework

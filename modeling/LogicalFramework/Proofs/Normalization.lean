import LogicalFramework.Proofs.Validation
import LogicalFramework.Proofs.WeakHead

/-!
# What reduction answers

The two reduction functions on named terms, where they answer:

* `Term.normalForm_normalForm` — a normal form is its own, to the letter and for the same bound;
* `Term.normalForm_correct_idempotent` — it is reached by contractions and has no redex;
* `Term.reduction_respects_alpha` — the choice of bound names does not show in the answers, nor in
  whether there is one;
* `Term.normalForm_through_whnf` — where there is a normal form, there is a weak head normal form,
  which reduces to it.

Weak head reduction puts an argument in place of a variable as it is. Normalisation reduces the head
and the argument first. So it need not end on a weak head normal form even if it did on the term:
the head may discard an argument that has no normal form, but only once it is in normal form itself
(`Term.normalForm_lost_by_whnf`).
-/

namespace LogicalFramework.Term

/-! ## Normal forms are fixed -/

theorem normalForm_app {fuel : Nat} {h h' a a' : Term} (hh : h.normalForm fuel = some h')
    (ha : a.normalForm fuel = some a') (hlam : h'.isLambda = false) :
    (app h a).normalForm (fuel + 1) = some (app h' a') := by
  rw [normalForm, hh, ha]
  simp only [Option.bind_eq_bind, Option.bind_some]
  split
  · exact absurd hlam (by simp [isLambda])
  · rfl

/-- A normal form is its own normal form, for the bound that it was found with. -/
theorem normalForm_normalForm {fuel : Nat} {t n : Term} (h : t.normalForm fuel = some n) :
    n.normalForm fuel = some n := by
  induction fuel generalizing t n with
  | zero => exact absurd h (by simp [normalForm])
  | succ fuel ih =>
    cases t with
    | app f a =>
      obtain ⟨f', a', hf, ha, hcases⟩ := normalForm_app_cases h
      rcases hcases with ⟨x, A, s, _, hs⟩ | ⟨hlam, rfl⟩
      · -- The answer is that for the contractum, which was found with a smaller bound.
        exact (normalForm_kept (Nat.le_succ fuel) n).eq_some (ih hs)
      · exact normalForm_app (ih hf) (ih ha) hlam
    | bind q x A s =>
      obtain ⟨A', s', hA, hs, rfl⟩ := normalForm_bind_cases h
      rw [normalForm, ih hA, ih hs]
      rfl
    | _ =>
      rw [normalForm_of_isAtom rfl] at h
      cases h
      exact normalForm_of_isAtom rfl

/-- **Normalisation is correct and idempotent.** An answer has no redex, in types and scopes too. It
is reached by contractions, of the term and of its nameless form. Its own normal form is found with
the same bound and is the very same term, which no other bound changes. -/
theorem normalForm_correct_idempotent (fuel : Nat) (t n : Term) (h : t.normalForm fuel = some n) :
    n.IsNormal ∧ Contracts.Many t n ∧ Reduces Beta t.nameless n.nameless ∧
      n.normalForm fuel = some n ∧ ∀ bound n', n.normalForm bound = some n' → n' = n := by
  have hfixed := normalForm_normalForm h
  refine ⟨normalForm_isNormal h, normalForm_contracts h, normalForm_reduces h, hfixed, ?_⟩
  intro bound n' hn'
  exact Kept.unique (fun hle => normalForm_kept hle n) hn' hfixed

/-- The term `(λ y, λ z : y z, y z) (λ x, z x)`. The variable `z` of its argument is not the bound
one, so the binder is renamed when the argument comes under it. -/
def clash : Term :=
  app (lam ⟨"y"⟩ type (lam ⟨"z"⟩ (app (var ⟨"y"⟩) (var ⟨"z"⟩)) (app (var ⟨"y"⟩) (var ⟨"z"⟩))))
    (lam ⟨"x"⟩ type (app (var ⟨"z"⟩) (var ⟨"x"⟩)))

/-- The normal form of the term has a renamed binder and is fixed. -/
theorem normalForm_correct_idempotent_clash :
    ∃ n, clash.normalForm 6 = some n ∧
      n = lam (.generated "z" 1) (app (var ⟨"z"⟩) (var ⟨"z"⟩))
        (app (var ⟨"z"⟩) (var (.generated "z" 1))) ∧
      n.IsNormal ∧ Contracts.Many clash n ∧ Reduces Beta clash.nameless n.nameless ∧
      n.normalForm 6 = some n ∧ ∀ bound n', n.normalForm bound = some n' → n' = n := by
  have h : clash.normalForm 6 = some (lam (.generated "z" 1) (app (var ⟨"z"⟩) (var ⟨"z"⟩))
      (app (var ⟨"z"⟩) (var (.generated "z" 1)))) := by decide +kernel
  exact ⟨_, h, rfl, normalForm_correct_idempotent 6 _ _ h⟩

/-! ## Bound names do not matter -/

/-- That a function with a bound answers on both of two terms or on neither, and gives answers that
differ in bound names only. -/
def AnswersAlike (f : Nat → Term → Option Term) (t u : Term) : Prop :=
  ((∃ fuel t', f fuel t = some t') ↔ ∃ fuel u', f fuel u = some u') ∧
    ∀ fuel fuel' t' u', f fuel t = some t' → f fuel' u = some u' → alphaEquivalent t' u' = true

/-- A function answers alike on two terms if its answers have the same nameless form for every
bound. -/
theorem answersAlike_of_nameless {f : Nat → Term → Option Term} {t u : Term}
    (hkept : ∀ {m n}, m ≤ n → Kept (f m u) (f n u))
    (hf : ∀ fuel, (f fuel t).map nameless = (f fuel u).map nameless) : AnswersAlike f t u := by
  constructor
  · have hsome : ∀ fuel, (f fuel t).isSome = (f fuel u).isSome := by
      intro fuel
      rw [← Option.isSome_map (f := nameless), hf fuel, Option.isSome_map]
    simp only [← Option.isSome_iff_exists, hsome]
  · intro fuel fuel' t' u' ht hu'
    have hu := hf fuel
    rw [ht, Option.map_some, eq_comm, Option.map_eq_some_iff] at hu
    obtain ⟨u, hu, hα⟩ := hu
    rw [Kept.unique hkept hu hu'] at hα
    rw [alphaEquivalent_iff_nameless, hα]

/-- **Reduction respects bound names.** On terms that differ in bound names only, both reduction
functions answer alike. -/
theorem reduction_respects_alpha (t u : Term) (h : alphaEquivalent t u = true) :
    AnswersAlike whnf t u ∧ AnswersAlike normalForm t u := by
  rw [alphaEquivalent_iff_nameless] at h
  constructor
  · refine answersAlike_of_nameless (fun hle => whnf_kept hle u) fun fuel => ?_
    rw [← whnf_nameless, ← whnf_nameless, h]
  · refine answersAlike_of_nameless (fun hle => normalForm_kept hle u) fun fuel => ?_
    rw [← normalForm_nameless, ← normalForm_nameless, h]

/-- The term `clash` with `w` for the bound `z`, which is not renamed. -/
def clashFree : Term :=
  app (lam ⟨"y"⟩ type (lam ⟨"w"⟩ (app (var ⟨"y"⟩) (var ⟨"z"⟩)) (app (var ⟨"y"⟩) (var ⟨"w"⟩))))
    (lam ⟨"x"⟩ type (app (var ⟨"z"⟩) (var ⟨"x"⟩)))

/-- Both reductions of the two terms have answers that are different terms and differ in bound names
only. -/
theorem reduction_respects_alpha_clash :
    alphaEquivalent clash clashFree = true ∧ (∃ t' u', clash.whnf 6 = some t' ∧
      clashFree.whnf 6 = some u' ∧ t' ≠ u' ∧ alphaEquivalent t' u' = true) ∧
      ∃ t' u', clash.normalForm 6 = some t' ∧ clashFree.normalForm 6 = some u' ∧ t' ≠ u' ∧
        alphaEquivalent t' u' = true := by
  have hα : alphaEquivalent clash clashFree = true := by decide +kernel
  obtain ⟨hwhnf, hnormal⟩ := reduction_respects_alpha _ _ hα
  have hdifferent : (clash.whnf 6).isSome = true ∧ (clashFree.whnf 6).isSome = true ∧
      clash.whnf 6 ≠ clashFree.whnf 6 := by decide +kernel
  have hdifferent' : (clash.normalForm 6).isSome = true ∧ (clashFree.normalForm 6).isSome = true ∧
      clash.normalForm 6 ≠ clashFree.normalForm 6 := by decide +kernel
  simp only [Option.isSome_iff_exists] at hdifferent hdifferent'
  obtain ⟨⟨t, ht⟩, ⟨u, hu⟩, hne⟩ := hdifferent
  obtain ⟨⟨t', ht'⟩, ⟨u', hu'⟩, hne'⟩ := hdifferent'
  rw [ht, hu, ne_eq, Option.some_inj] at hne
  rw [ht', hu', ne_eq, Option.some_inj] at hne'
  exact ⟨hα, ⟨t, u, ht, hu, hne, hwhnf.2 6 6 t u ht hu⟩,
    t', u', ht', hu', hne', hnormal.2 6 6 t' u' ht' hu'⟩

/-! ## Normal forms by way of weak head normal forms -/

/-- An application in weak head normal form has no abstraction at the head of its spine. -/
theorem isLambda_spineHead {t : Term} (ht : t.nameless.IsWeakHeadNormal)
    (happ : t.isApplication = true) : t.spineHead.isLambda = false := by
  induction t with
  | app h a ihh _ =>
    rw [nameless_app] at ht
    obtain ⟨hlam, hh⟩ := ht
    rw [isLambda_nameless] at hlam
    cases h with
    | app g b => exact ihh hh rfl
    | _ => exact hlam
  | _ => exact absurd happ (by simp [isApplication])

/-- A term that reduces to a weak head normal form is given one. -/
theorem exists_whnf_of_reduces {t : Term} {u : Nameless} (h : Reduces Beta t.nameless u)
    (hu : u.IsWeakHeadNormal) :
    ∃ w bound, t.whnf bound = some w ∧ w.nameless.IsWeakHeadNormal := by
  obtain ⟨v, bound, hv⟩ := Nameless.exists_hasWhnf_of_reduces h hu
  have hnormal := (Nameless.whnf_spec hv).2
  rw [whnf_nameless, Option.map_eq_some_iff] at hv
  obtain ⟨w, hw, rfl⟩ := hv
  exact ⟨w, bound, hw, hnormal⟩

/-- **Weak head reduction ends where normalisation does.** A term with a normal form has a weak head
normal form. It has no abstraction at the head of a spine and reduces to the normal form. So its own
normal form is that of the term up to bound names, if it has one, and it has one if every sequence
of contractions from it ends. -/
theorem normalForm_through_whnf (fuel : Nat) (t n : Term) (h : t.normalForm fuel = some n) :
    ∃ w bound, t.whnf bound = some w ∧ (w.isApplication = true → w.spineHead.isLambda = false) ∧
      Reduces Beta w.nameless n.nameless ∧
      (∀ bound' n', w.normalForm bound' = some n' → alphaEquivalent n' n = true) ∧
      (w.nameless.Terminates → ∃ bound' n', w.normalForm bound' = some n') := by
  have htn := normalForm_reduces h
  have hn : n.nameless.IsNormal := (isNormal_nameless n).mpr (normalForm_isNormal h)
  obtain ⟨w, bound, hw, hnormal⟩ := exists_whnf_of_reduces htn hn.isWeakHeadNormal
  have hwn : Reduces Beta w.nameless n.nameless := hn.reduces_of_reduces htn (whnf_reduces hw)
  refine ⟨w, bound, hw, isLambda_spineHead hnormal, hwn, ?_, ?_⟩
  · intro bound' n' hn'
    have hfixed := (isNormal_nameless n').mpr (normalForm_isNormal hn')
    have hn'n := hn.reduces_of_reduces hwn (normalForm_reduces hn')
    rw [alphaEquivalent_iff_nameless, hfixed.eq_of_reduces hn'n]
  · intro hterminates
    obtain ⟨n', hn'⟩ := exists_normalForm hterminates
    obtain ⟨bound', hn'⟩ := hn'.exists
    exact ⟨bound', n', hn'⟩

/-- The term `(λ x, f ((λ y, c) (x x x x x x))) a`. Its head discards what it makes of `a`. -/
def discarding (a : Term) : Term :=
  app (lam ⟨"x"⟩ type (app (var ⟨"f"⟩) (app (lam ⟨"y"⟩ type (const ⟨"c"⟩))
    ((var ⟨"x"⟩).applyAll (List.replicate 5 (var ⟨"x"⟩)))))) a

/-- The term `f ((λ y, c) (a a a a a a))`, to which the other one contracts. -/
def discarded (a : Term) : Term :=
  app (var ⟨"f"⟩) (app (lam ⟨"y"⟩ type (const ⟨"c"⟩)) (a.applyAll (List.replicate 5 a)))

/-- With the identity for `a`, the weak head normal form has redexes, and its normal form is that of
the term. -/
theorem normalForm_through_whnf_discarding :
    (discarding (lam ⟨"z"⟩ type (var ⟨"z"⟩))).normalForm 12 =
        some (app (var ⟨"f"⟩) (const ⟨"c"⟩)) ∧
      ∃ w bound n', (discarding (lam ⟨"z"⟩ type (var ⟨"z"⟩))).whnf bound = some w ∧
        w = discarded (lam ⟨"z"⟩ type (var ⟨"z"⟩)) ∧ w.spineHead.isLambda = false ∧
        Reduces Beta w.nameless (app (var ⟨"f"⟩) (const ⟨"c"⟩)).nameless ∧
        w.normalForm 12 = some n' ∧
        alphaEquivalent n' (app (var ⟨"f"⟩) (const ⟨"c"⟩)) = true := by
  have hn : (discarding (lam ⟨"z"⟩ type (var ⟨"z"⟩))).normalForm 12 =
      some (app (var ⟨"f"⟩) (const ⟨"c"⟩)) := by decide +kernel
  have hwhnf : (discarding (lam ⟨"z"⟩ type (var ⟨"z"⟩))).whnf 12 =
      some (discarded (lam ⟨"z"⟩ type (var ⟨"z"⟩))) := by decide +kernel
  obtain ⟨w, bound, hw, hspine, hreduces, hunique, _⟩ := normalForm_through_whnf 12 _ _ hn
  obtain rfl := Kept.unique (fun hle => whnf_kept hle _) hw hwhnf
  obtain ⟨n', hn'⟩ := Option.isSome_iff_exists.mp
    (show ((discarded (lam ⟨"z"⟩ type (var ⟨"z"⟩))).normalForm 12).isSome = true by decide +kernel)
  exact ⟨hn, _, bound, n', hw, rfl, hspine rfl, hreduces, hn', hunique 12 n' hn'⟩

theorem normalForm_app_eq_none_of_argument (h : Term) {a : Term}
    (ha : ∀ fuel, a.normalForm fuel = none) (fuel : Nat) : (app h a).normalForm fuel = none := by
  cases fuel with
  | zero => rfl
  | succ fuel =>
    rw [normalForm, ha]
    cases h.normalForm fuel <;> rfl

/-- With the repeater for `a`, the term has the normal form `f c`, but its weak head normal form has
none within any bound: there the repeater is applied to itself before it is discarded. -/
theorem normalForm_lost_by_whnf :
    (discarding repeater).normalForm 12 = some (app (var ⟨"f"⟩) (const ⟨"c"⟩)) ∧
      (discarding repeater).whnf 12 = some (discarded repeater) ∧
      ∀ fuel, (discarded repeater).normalForm fuel = none := by
  refine ⟨by decide +kernel, by decide +kernel, ?_⟩
  have hspine (fuel : Nat) : (endless.applyAll (List.replicate 4 repeater)).normalForm fuel = none :=
    normalForm_applyAll_eq_none (fun n _ => normalForm_endless n) _ fuel le_rfl
  exact normalForm_app_eq_none_of_argument _ (normalForm_app_eq_none_of_argument _ hspine)

end LogicalFramework.Term

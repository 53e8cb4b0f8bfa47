import LogicalFramework.Proofs.EtaExpansion

/-!
# The test against a term without binders

On a term without a redex and a term without binders, the test is about η alone: it finds them equal
exactly if the first reduces to the second by contractions of η. What it takes for `Type` are thus
the η-expansions of `Type`, such as `λ x : A, Type x`. In an admissible environment none of them but
`Type` is the sort of a term. In one with declarations that are not in order it may be.

* `Reduces.lam_iff` — the abstractions that reduce to a term that is no binder;
* `Conversion.NamelessSide.findsEqual_iff_reduces` — the test and η, by induction on the first term;
* `Term.equal_type_iff_reduces` — the test against `Type`, for named terms.
-/

namespace LogicalFramework

open Filter

/-! ## Reduction by η -/

namespace Nameless

/-- Whether there is no binder anywhere in the term. -/
def IsBinderFree : Nameless → Prop
  | app h a => h.IsBinderFree ∧ a.IsBinderFree
  | bind _ _ _ => False
  | _ => True

@[simp]
theorem isBinderFree_rename (t : Nameless) (ρ : Name → Name) :
    (t.rename ρ).IsBinderFree ↔ t.IsBinderFree := by
  induction t generalizing ρ with
  | app h a ihh iha => simp only [rename, IsBinderFree, ihh, iha]
  | _ => exact Iff.rfl

namespace IsBinderFree

variable {t : Nameless}

theorem isBinder_eq_false (ht : t.IsBinderFree) : t.isBinder = false := by
  cases t with
  | bind q A s => exact ht.elim
  | _ => rfl

theorem isNormal (ht : t.IsBinderFree) : t.IsNormal := by
  induction t with
  | app h a ihh iha => exact ⟨isLambda_eq_false ht.1.isBinder_eq_false, ihh ht.1, iha ht.2⟩
  | bind q A s => exact ht.elim
  | _ => trivial

theorem app_shift (ht : t.IsBinderFree) : (app t.shift (name (.bound 0))).IsBinderFree :=
  ⟨(isBinderFree_rename t _).mpr ht, trivial⟩

end IsBinderFree

end Nameless

namespace Reduces

open Nameless

theorem shift {s t : Nameless} (h : Reduces Eta s t) : Reduces Eta s.shift t.shift := by
  rw [Nameless.shift, Nameless.shift, rename_eq_subst, rename_eq_subst]
  exact h.subst (fun σ _ _ hη => hη.subst σ) _

/-- Contractions of η in an application are in its head and in its argument. -/
theorem exists_app {f a u : Nameless} (h : Reduces Eta (.app f a) u) :
    ∃ g b, u = .app g b ∧ Reduces Eta f g ∧ Reduces Eta a b := by
  induction h with
  | refl => exact ⟨f, a, rfl, .refl, .refl⟩
  | tail _ hstep ih =>
    obtain ⟨g, b, rfl, hf, ha⟩ := ih
    cases hstep with
    | root hη => cases hη
    | head hg => exact ⟨_, b, rfl, hf.tail hg, ha⟩
    | argument hb => exact ⟨g, _, rfl, hf, ha.tail hb⟩

theorem isBinder_of_pi {A s u : Nameless} (h : Reduces Eta (.pi A s) u) : u.isBinder = true := by
  have hpi : ∃ B t, u = .pi B t := by
    induction h with
    | refl => exact ⟨A, s, rfl⟩
    | tail _ hstep ih =>
      obtain ⟨B, t, rfl⟩ := ih
      cases hstep with
      | root hη => cases hη
      | domain _ => exact ⟨_, t, rfl⟩
      | scope _ => exact ⟨B, _, rfl⟩
  obtain ⟨B, t, rfl⟩ := hpi
  rfl

/-- Of a term that is neither an application nor a binder there is nothing to contract. -/
theorem eq_of_isAtom {t u : Nameless} (h : Reduces Eta t u) (happ : ∀ f a, t ≠ .app f a)
    (hbinder : t.isBinder = false) : u = t := by
  refine (Relation.reflTransGen_iff_eq fun v hstep => ?_).mp h
  cases hstep with
  | root hη =>
    obtain ⟨A, _⟩ := hη
    exact absurd hbinder (by simp [isBinder])
  | head _ | argument _ => exact happ _ _ rfl
  | domain _ | scope _ => exact absurd hbinder (by simp [isBinder])

/-- **An abstraction reduces to a term that is no binder** if its scope reduces to this term applied
to the variable. -/
theorem lam_iff {A s t : Nameless} (ht : t.isBinder = false) :
    Reduces Eta (.lam A s) t ↔ Reduces Eta s (.app t.shift (.name (.bound 0))) := by
  constructor
  · intro h
    generalize hlam : Nameless.lam A s = u at h
    induction h using Relation.ReflTransGen.head_induction_on generalizing A s with
    | refl =>
      subst hlam
      exact absurd ht (by simp [isBinder])
    | head hstep hrest ih =>
      subst hlam
      cases hstep with
      | root hη =>
        -- The whole abstraction is contracted, and the rest is reduction of the term in it.
        cases hη
        exact Reduces.app (Reduces.shift hrest) .refl
      | domain _ => exact ih rfl
      | scope hs => exact (ih rfl).head hs
  · intro h
    exact (Reduces.bind .lam .refl h).tail (.root (.contract A t))

end Reduces

/-! ## The test -/

namespace Conversion.NamelessSide

variable {l r f g a b A s : Nameless}

/-- Terms without a redex are found equal if their heads are. -/
theorem findsEqual_iff_heads (hl : l.IsNormal) (hr : r.IsNormal) :
    FindsEqual l r ↔
      ∀ᶠ fuel in atTop, compareHeads (equal fuel) ⟨l, .empty⟩ ⟨r, .empty⟩ = some true := by
  refine ⟨fun h => ?_,
    findsEqual_of_heads hl.isWeakHeadNormal.hasWhnf hr.isWeakHeadNormal.hasWhnf⟩
  have hnext := (tendsto_add_atTop_nat 1).eventually h
  filter_upwards [hl.whnf_eventually, hr.whnf_eventually, hnext] with fuel hl hr hnext
  obtain ⟨l', r', hl', hr', ⟨hheads, _⟩ | ⟨_, hunfolded⟩⟩ := equal_succ_cases hnext
  · cases hl.symm.trans hl'
    cases hr.symm.trans hr'
    exact hheads
  · exact absurd hunfolded (by simp [put, compareUnfolded_empty])

theorem findsEqual_app_iff (hl : (Nameless.app f a).IsNormal) (hg : g.IsBinderFree)
    (hb : b.IsBinderFree) :
    FindsEqual (.app f a) (.app g b) ↔ f.isBinder = false ∧ FindsEqual f g ∧ FindsEqual a b := by
  have hr : (Nameless.app g b).IsBinderFree := ⟨hg, hb⟩
  rw [findsEqual_iff_heads hl hr.isNormal]
  simp only [compareHeads_app (l := ⟨.app f a, .empty⟩) (r := ⟨.app g b, .empty⟩) rfl rfl,
    hg.isBinder_eq_false, Bool.or_false]
  cases f.isBinder with
  | true => simp only [if_true, Option.some.injEq, Bool.false_eq_true, eventually_const,
      Bool.true_eq_false, false_and]
  | false =>
    simp only [Bool.false_eq_true, if_false, true_and, bind_ite_eq_some_true, eventually_and]
    rfl

theorem findsEqual_lam_iff (hl : (Nameless.lam A s).IsNormal) (hr : r.IsBinderFree) :
    FindsEqual (.lam A s) r ↔ FindsEqual s (.app r.shift (.name (.bound 0))) := by
  rw [findsEqual_iff_heads hl hr.isNormal]
  simp only [compareHeads_lam_left (l := ⟨.lam A s, .empty⟩) (r := ⟨r, .empty⟩) rfl
    hr.isBinder_eq_false]
  rfl

theorem findsEqual_iff_eq (hl : l.IsNormal) (hr : r.IsBinderFree)
    (hheads : ∀ e, compareHeads e ⟨l, .empty⟩ ⟨r, .empty⟩ = some (decide (l = r))) :
    FindsEqual l r ↔ l = r := by
  rw [findsEqual_iff_heads hl hr.isNormal]
  simp only [hheads, Option.some.injEq, decide_eq_true_eq, eventually_const]

/-- The head of an application that reduces by η to a term without binders is no binder. -/
theorem isBinder_eq_false_of_reduces (hf : f.isLambda = false) (hg : g.IsBinderFree)
    (h : Reduces Eta f g) : f.isBinder = false := by
  cases f with
  | bind q A s =>
    cases q with
    | lam => exact absurd hf (by simp [Nameless.isLambda])
    | pi => exact absurd h.isBinder_of_pi (by simp [hg.isBinder_eq_false])
  | _ => rfl

/-- **Against a term without binders, the test is reduction by η.** -/
theorem findsEqual_iff_reduces (hl : l.IsNormal) (hr : r.IsBinderFree) :
    FindsEqual l r ↔ Reduces Eta l r := by
  induction l generalizing r with
  | app f a ihf iha =>
    cases r with
    | app g b =>
      rw [findsEqual_app_iff hl hr.1 hr.2, ihf hl.2.1 hr.1, iha hl.2.2 hr.2]
      constructor
      · rintro ⟨_, hf, ha⟩
        exact hf.app ha
      · intro h
        obtain ⟨_, _, he, hf, ha⟩ := Reduces.exists_app h
        cases he
        exact ⟨isBinder_eq_false_of_reduces hl.1 hr.1 hf, hf, ha⟩
    | bind q B t => exact hr.elim
    | _ =>
      rw [findsEqual_iff_eq hl hr fun e => rfl]
      refine iff_of_false (by simp) fun h => ?_
      obtain ⟨_, _, he, _, _⟩ := Reduces.exists_app h
      exact absurd he (by simp)
  | bind q A s _ ihs =>
    cases q with
    | lam =>
      rw [findsEqual_lam_iff hl hr, ihs hl.2 hr.app_shift, Reduces.lam_iff hr.isBinder_eq_false]
    | pi =>
      have hirreducible : ¬ Reduces Eta (.pi A s) r := fun h =>
        absurd h.isBinder_of_pi (by simp [hr.isBinder_eq_false])
      cases r with
      | bind q B t => exact hr.elim
      | _ =>
        rw [findsEqual_iff_eq hl hr fun e => rfl]
        exact iff_of_false (by simp) hirreducible
  | _ =>
    cases r with
    | bind q B t => exact hr.elim
    | _ =>
      rw [findsEqual_iff_eq hl hr fun e => rfl]
      constructor
      · intro h
        rw [h]
      · exact fun h => (Reduces.eq_of_isAtom h (by simp) rfl).symm

end Conversion.NamelessSide

/-- A named term without a redex is found equal to `Type` if it reduces to `Type` by η. -/
theorem Term.equal_type_iff_reduces {T : Term} (hT : T.IsNormal) :
    (∀ᶠ fuel in atTop, T.equal fuel .type = some true) ↔ Reduces Eta T.nameless .type := by
  simp only [Term.equal, equalUnder_eq_nameless]
  exact Conversion.NamelessSide.findsEqual_iff_reduces ((isNormal_nameless T).mpr hT) trivial

end LogicalFramework

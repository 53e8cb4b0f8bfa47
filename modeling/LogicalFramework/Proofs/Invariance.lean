import LogicalFramework.Proofs.Termination

/-!
# What the convertibility test does not depend on

The test opens binders with names that it chooses. The choice depends on the bound names of the
terms and on the names that the definitions reserve, but the answer does not depend on the choice.

* `Term.equalUnder_alpha_invariant` — terms that differ in bound names only are compared alike, also
  where a bound name is that of a defined variable or is free in a value;
* `Term.equal_kept_by_definitions` — terms that are found equal without definitions are found equal
  with any definitions, within the same bound.

The second is because definitions are looked at only after a comparison of heads has failed. Without
definitions there is no second attempt, so what is accepted is accepted for its head and its parts,
and they are accepted in the same way once there are definitions.
-/

namespace LogicalFramework

/-! ## Bound names -/

namespace Term

/-- **The test sees terms up to bound names.** On terms that differ in bound names only, it has the
same answer for every bound, or no answer on either. -/
theorem equalUnder_alpha_invariant (defs : Definitions) (l l' r r' : Term)
    (hl : alphaEquivalent l l' = true) (hr : alphaEquivalent r r' = true) (fuel : Nat) :
    l.equalUnder fuel defs r = l'.equalUnder fuel defs r' := by
  rw [alphaEquivalent_iff_nameless] at hl hr
  rw [equalUnder_eq_nameless, equalUnder_eq_nameless, hl, hr]

/-- With `d := x`, the terms `λ d : a, d` and `λ x : a, d` are told apart, and so are `λ x : a, x`
and `λ y : a, d`. A bound `d` is not unfolded, and a bound `x` is not the value of `d`. -/
theorem equalUnder_alpha_invariant_defined :
    ∃ (defs : Definitions) (l l' r r' : Term), defs = ⟨[(⟨"d"⟩, var ⟨"x"⟩)]⟩ ∧ l ≠ l' ∧ r ≠ r' ∧
      alphaEquivalent l l' = true ∧ alphaEquivalent r r' = true ∧
      (∀ fuel, l.equalUnder fuel defs r = l'.equalUnder fuel defs r') ∧
      l.equalUnder 6 defs r = some false ∧ l'.equalUnder 6 defs r' = some false := by
  have hl : alphaEquivalent (lam ⟨"d"⟩ (const ⟨"a"⟩) (var ⟨"d"⟩))
      (lam ⟨"x"⟩ (const ⟨"a"⟩) (var ⟨"x"⟩)) = true := by decide +kernel
  have hr : alphaEquivalent (lam ⟨"x"⟩ (const ⟨"a"⟩) (var ⟨"d"⟩))
      (lam ⟨"y"⟩ (const ⟨"a"⟩) (var ⟨"d"⟩)) = true := by decide +kernel
  have halike := equalUnder_alpha_invariant ⟨[(⟨"d"⟩, var ⟨"x"⟩)]⟩ _ _ _ _ hl hr
  have hdifferent : (lam ⟨"d"⟩ (const ⟨"a"⟩) (var ⟨"d"⟩)).equalUnder 6 ⟨[(⟨"d"⟩, var ⟨"x"⟩)]⟩
      (lam ⟨"x"⟩ (const ⟨"a"⟩) (var ⟨"d"⟩)) = some false := by decide +kernel
  exact ⟨_, _, _, _, _, rfl, by decide, by decide, hl, hr, halike, hdifferent,
    (halike 6).symm.trans hdifferent⟩

end Term

/-! ## Definitions -/

namespace Conversion.NamelessSide

variable {e e' : NamelessSide → NamelessSide → Option Bool} {l r l' r' : NamelessSide}

/-- Heads that are accepted are accepted with other definitions too, if the parts are. -/
theorem compareHeads_of_parts (hl : l'.term = l.term) (hr : r'.term = r.term)
    (he : ∀ s t, e (l.put s) (r.put t) = some true → e' (l'.put s) (r'.put t) = some true)
    (h : compareHeads e l r = some true) : compareHeads e' l' r' = some true := by
  obtain ⟨l, δ⟩ := l
  obtain ⟨r, ε⟩ := r
  obtain ⟨_, δ'⟩ := l'
  obtain ⟨_, ε'⟩ := r'
  cases hl
  cases hr
  cases l with
  | app f a =>
    cases r with
    | app g b =>
      rw [compareHeads_app rfl rfl] at h ⊢
      split at h
      · exact absurd h (by simp)
      · rename_i hbinder
        rw [if_neg hbinder]
        obtain ⟨hf, ha⟩ := bind_ite_eq_some_true.mp h
        exact bind_ite_eq_some_true.mpr ⟨he f g hf, he a b ha⟩
    | bind q B t =>
      cases q with
      | lam => exact he _ _ h
      | pi => exact h
    | _ => exact h
  | bind q A s =>
    cases r with
    | bind q' B t =>
      rw [compareHeads_bind rfl rfl] at h ⊢
      split at h
      · rename_i hq
        rw [if_pos hq]
        obtain ⟨hA, hs⟩ := bind_ite_eq_some_true.mp h
        exact bind_ite_eq_some_true.mpr ⟨he A B hA, he s t hs⟩
      · exact absurd h (by simp)
    | _ =>
      cases q with
      | lam => exact he _ _ h
      | pi => exact h
  | _ =>
    cases r with
    | bind q B t =>
      cases q with
      | lam => exact he _ _ h
      | pi => exact h
    | _ => exact h

/-- What the test accepts without definitions, it accepts with any definitions on either side. -/
theorem equal_of_equal_empty {fuel : Nat} {l r : Nameless}
    (h : equal fuel ⟨l, .empty⟩ ⟨r, .empty⟩ = some true) (δ ε : Definitions) :
    equal fuel ⟨l, δ⟩ ⟨r, ε⟩ = some true := by
  induction fuel generalizing l r with
  | zero => exact absurd h (by simp [equal])
  | succ fuel ih =>
    obtain ⟨l', r', hl, hr, ⟨hheads, _⟩ | ⟨_, hunfolded⟩⟩ := equal_succ_cases h
    · have hheads' : compareHeads (equal fuel) ⟨l', δ⟩ ⟨r', ε⟩ = some true :=
        compareHeads_of_parts (l := ⟨l', .empty⟩) (r := ⟨r', .empty⟩) rfl rfl
          (fun s t hst => ih hst) hheads
      rw [equal_succ_of_whnf (l := ⟨l, δ⟩) (r := ⟨r, ε⟩) hl hr]
      exact Option.bind_eq_some_iff.mpr ⟨true, hheads', rfl⟩
    · -- There is nothing to unfold, so heads that differ stay different.
      exact absurd hunfolded (by simp [put, compareUnfolded_empty])

end Conversion.NamelessSide

namespace Term

/-- **Definitions keep terms equal.** Terms that the test accepts without definitions are accepted
with any definitions, for the same bound. -/
theorem equal_kept_by_definitions (fuel : Nat) (defs : Definitions) (l r : Term)
    (h : l.equal fuel r = some true) : l.equalUnder fuel defs r = some true := by
  rw [Term.equal, equalUnder_eq_nameless] at h
  rw [equalUnder_eq_nameless]
  exact Conversion.NamelessSide.equal_of_equal_empty h defs defs

/-- The terms `λ d : a, f d` and `(λ y : a, y) f` are found equal, also with the definitions
`d := d c`, `e := f` and `f := e`. -/
theorem equal_kept_by_definitions_circular :
    (lam ⟨"d"⟩ (const ⟨"a"⟩) (app (var ⟨"f"⟩) (var ⟨"d"⟩))).equal 6
        (app (lam ⟨"y"⟩ (const ⟨"a"⟩) (var ⟨"y"⟩)) (var ⟨"f"⟩)) = some true ∧
      (lam ⟨"d"⟩ (const ⟨"a"⟩) (app (var ⟨"f"⟩) (var ⟨"d"⟩))).equalUnder 6 circular
        (app (lam ⟨"y"⟩ (const ⟨"a"⟩) (var ⟨"y"⟩)) (var ⟨"f"⟩)) = some true := by
  have h : (lam ⟨"d"⟩ (const ⟨"a"⟩) (app (var ⟨"f"⟩) (var ⟨"d"⟩))).equal 6
      (app (lam ⟨"y"⟩ (const ⟨"a"⟩) (var ⟨"y"⟩)) (var ⟨"f"⟩)) = some true := by decide +kernel
  exact ⟨h, equal_kept_by_definitions 6 circular _ _ h⟩

end Term

end LogicalFramework

import LogicalFramework.Proofs.NamelessConversion

/-!
# The convertibility test is symmetric

The test treats its two sides differently. It prefers the bound name on the left when it opens two
binders, it has a rule for an abstraction on the left and one for an abstraction on the right, and
each side drops the definitions that were unfolded in it. On nameless terms no names are chosen, and
what is left of the test is the same from both sides: for every bound, the sides can be exchanged,
whether there is an answer or not.

* `Conversion.NamelessSide.equal_comm` — on nameless terms, by induction on the bound;
* `Conversion.equal_comm` — on named terms, each side with its own definitions.
-/

namespace LogicalFramework

namespace Conversion

namespace NamelessSide

variable {e e' : NamelessSide → NamelessSide → Option Bool}

/-- The comparison of heads can be exchanged if that of parts can. -/
theorem compareHeads_comm (he : ∀ l r, e l r = e' r l) (l r : NamelessSide) :
    compareHeads e l r = compareHeads e' r l := by
  obtain ⟨l, δ⟩ := l
  obtain ⟨r, ε⟩ := r
  cases l with
  | app f a =>
    cases r with
    | app g b =>
      rw [compareHeads_app rfl rfl, compareHeads_app rfl rfl, Bool.or_comm]
      simp only [he]
    | bind q B t =>
      cases q with
      | lam => exact he _ _
      | pi => rfl
    | _ => rfl
  | bind q A s =>
    cases r with
    | bind q' B t =>
      rw [compareHeads_bind rfl rfl, compareHeads_bind rfl rfl]
      by_cases hq : q = q'
      · rw [if_pos hq, if_pos hq.symm]
        simp only [he]
      · rw [if_neg hq, if_neg (Ne.symm hq)]
    | _ =>
      cases q with
      | lam => exact he _ _
      | pi => rfl
  | _ =>
    cases r with
    | bind q B t =>
      cases q with
      | lam => exact he _ _
      | pi => rfl
    | _ => simp [compareHeads, eq_comm]

theorem compareUnfolded_comm (he : ∀ l r, e l r = e' r l) (l r : NamelessSide) :
    compareUnfolded e l r = compareUnfolded e' r l := by
  unfold compareUnfolded
  cases l.unfolded? with
  | none =>
    cases r.unfolded? with
    | none => rfl
    | some r' => exact he l r'
  | some l' => cases r.unfolded? <;> exact he l' _

/-- The sides of a comparison of nameless terms can be exchanged. -/
theorem equal_comm (fuel : Nat) (l r : NamelessSide) : equal fuel l r = equal fuel r l := by
  induction fuel generalizing l r with
  | zero => rfl
  | succ fuel ih =>
    rw [equal, equal]
    -- Both sides are reduced before anything is compared, so the order does not matter.
    cases l.term.whnf fuel with
    | none => cases r.term.whnf fuel <;> rfl
    | some l' =>
      cases r.term.whnf fuel with
      | none => rfl
      | some r' =>
        simp only [Option.bind_eq_bind, Option.bind_some]
        rw [compareHeads_comm ih, compareUnfolded_comm ih]

end NamelessSide

/-- The sides of a comparison can be exchanged, each with its own definitions. -/
theorem equal_comm (fuel : Nat) (l r : Side) : equal fuel l r = equal fuel r l := by
  rw [equal_eq_nameless fuel (Valuation.Faithful.free (reserved l r)), NamelessSide.equal_comm,
    ← equal_eq_nameless fuel (Valuation.Faithful.free (reserved r l))]

end Conversion

/-- **The test is symmetric.** With and without definitions, on terms and on sorts, and for every
bound, the two orders of comparison have the same answer or both have none. -/
theorem equal_symmetric :
    (∀ (fuel : Nat) (defs : Definitions) (l r : Term),
      l.equalUnder fuel defs r = r.equalUnder fuel defs l) ∧
    (∀ (fuel : Nat) (l r : Term), l.equal fuel r = r.equal fuel l) ∧
    ∀ (fuel : Nat) (S T : TermSort), S.equal fuel T = T.equal fuel S := by
  refine ⟨fun fuel defs l r => Conversion.equal_comm fuel _ _,
    fun fuel l r => Conversion.equal_comm fuel _ _, fun fuel S T => ?_⟩
  cases S with
  | kind => cases T <;> rfl
  | term l =>
    cases T with
    | kind => rfl
    | term r => exact Conversion.equal_comm fuel _ _

end LogicalFramework

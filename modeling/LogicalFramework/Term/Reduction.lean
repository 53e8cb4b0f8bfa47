import LogicalFramework.Term.Substitution

/-!
# Reduction

Weak head normal forms and β-normal forms. Reduction of an arbitrary term need not end, so both
functions take a bound on the depth of their recursion and give no answer when it is used up. An
answer does not depend on the bound.
-/

namespace LogicalFramework.Term

/-- The weak head normal form: β-redexes are contracted in head position only, and arguments, types
and scopes are left alone. -/
def whnf (fuel : Nat) (t : Term) : Option Term :=
  match fuel, t with
  | 0, _ => none
  | fuel + 1, app h a => do
    match ← h.whnf fuel with
    | lam x _ s => (s.subst x a).whnf fuel
    | h' => some (app h' a)
  | _ + 1, t => some t

/-- The β-normal form: every β-redex is contracted, also those that contraction makes. -/
def normalForm (fuel : Nat) (t : Term) : Option Term :=
  match fuel, t with
  | 0, _ => none
  | fuel + 1, app h a => do
    let h' ← h.normalForm fuel
    let a' ← a.normalForm fuel
    match h' with
    | lam x _ s => (s.subst x a').normalForm fuel
    | h' => some (app h' a')
  | fuel + 1, bind q x A s => do
    let A' ← A.normalForm fuel
    let s' ← s.normalForm fuel
    some (bind q x A' s')
  | _ + 1, t => some t

end LogicalFramework.Term

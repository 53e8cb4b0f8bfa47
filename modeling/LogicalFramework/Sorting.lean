import LogicalFramework.Conversion
import LogicalFramework.Environment
import LogicalFramework.Outcome
import LogicalFramework.SortError

/-!
# Sorting

The sort of a term in an environment. The environment is taken as given, and the sort, if it is a
term, comes in β-normal form. The recursion is on the term. The bound is for the reductions and
comparisons on the way.
-/

namespace LogicalFramework

open Outcome

namespace TermSort

/-- The sort in β-normal form. -/
def normalForm (fuel : Nat) : TermSort → Option TermSort
  | kind => some kind
  | term t => (t.normalForm fuel).map term

/-- Whether the sort is `Type` or `Kind`, so that what it classifies is a family or a kind. -/
def classifiesFamilyOrKind (fuel : Nat) : TermSort → Option Bool
  | kind => some true
  | term t => t.equal fuel .type

end TermSort

/-- The given sort of `t` must be the expected one. -/
def expectSort (fuel : Nat) (t : Term) (expected actual : TermSort) : Outcome SortError Unit :=
  require (.mismatch t expected actual) (actual.equal fuel expected)

/-- The given sort of `t` must be `Type` or `Kind`. -/
def expectFamilyOrKind (fuel : Nat) (t : Term) (actual : TermSort) : Outcome SortError Unit :=
  require (.notFamilyOrKind t actual) (actual.classifiesFamilyOrKind fuel)

/-- The given sort of `t` must be a term, which is returned. -/
def expectObjectOrFamily (t : Term) (actual : TermSort) : Outcome SortError Term :=
  orFail (.notObjectOrFamily t actual) actual.term?

/-- The given sort of `t` must reduce to a product. Returns its variable, domain and codomain. -/
def expectPi (fuel : Nat) (t : Term) (actual : TermSort) :
    Outcome SortError (Variable × Term × Term) :=
  match actual with
  | .kind => fail (.notPi t actual)
  | .term A => do
    match ← ofOption (A.whnf fuel) with
    | .pi x B C => ok (x, B, C)
    | _ => fail (.notPi t actual)

/-- The sort of a term, in β-normal form if it is a term. -/
def Environment.sortOf (fuel : Nat) (env : Environment) (t : Term) : Outcome SortError TermSort :=
  match t with
  | .type => ok .kind
  | .const c => do
    let S ← orFail (.undeclaredConstant c) (env.signature.sortOf? c)
    ofOption ((TermSort.term S).normalForm fuel)
  | .var x => do
    let S ← orFail (.undeclaredVariable x) (env.context.lookup x)
    ofOption ((TermSort.term S).normalForm fuel)
  | .metaVar m => do
    let S ← orFail (.undeclaredMetaVariable m) (env.metas.lookup m)
    ofOption ((TermSort.term S).normalForm fuel)
  | .app h a => mapFail (.within (.app h a)) do
    let (x, domain, codomain) ← expectPi fuel h (← env.sortOf fuel h)
    expectSort fuel a (.term domain) (← env.sortOf fuel a)
    ofOption ((TermSort.term (codomain.subst x a)).normalForm fuel)
  | .bind q x A s => mapFail (.within (.bind q x A s)) <|
    if env.context.contains x then fail (.redeclaredVariable x)
    else do
      expectSort fuel A .type (← env.sortOf fuel A)
      let S ← (env.extend x A).sortOf fuel s
      match q with
      | .pi =>
        expectFamilyOrKind fuel s S
        ofOption (S.normalForm fuel)
      | .lam =>
        let B ← expectObjectOrFamily s S
        -- The variable is new to the context, so the product binds it too (`pi_fresh`).
        ofOption ((TermSort.term (.pi x A B)).normalForm fuel)

/-- The product could bind a variable that is fresh for the context, with the codomain renamed to
it. It would be the same product: the fresh variable for one that the context does not declare is
this variable itself. -/
theorem Environment.pi_fresh {env : Environment} {x : Variable}
    (hx : env.context.contains x = false) (A B : Term) :
    Term.pi (.fresh env.context.keys x) A (B.rename x (.fresh env.context.keys x)) =
      .pi x A B := by
  have hnew : x ∉ env.context.keys := by
    rw [Bindings.mem_keys, hx]
    exact Bool.false_ne_true
  rw [fresh_of_not_mem hnew, Term.rename, if_pos rfl]

/-- The sort of an abstraction, with the variable of the product chosen to be fresh. -/
theorem Environment.sortOf_lam (fuel : Nat) (env : Environment) (x : Variable) (A s : Term) :
    env.sortOf fuel (.lam x A s) = mapFail (.within (.lam x A s))
      (if env.context.contains x then fail (.redeclaredVariable x)
      else do
        expectSort fuel A .type (← env.sortOf fuel A)
        let B ← expectObjectOrFamily s (← (env.extend x A).sortOf fuel s)
        let z := Variable.fresh env.context.keys x
        ofOption ((TermSort.term (.pi z A (B.rename x z))).normalForm fuel)) := by
  rw [sortOf]
  cases hx : env.context.contains x with
  | true => rfl
  | false => simp only [Bool.false_eq_true, if_false, pi_fresh hx]

/-- Checks that a term has the expected sort. -/
def Environment.check (fuel : Nat) (env : Environment) (t : Term) (expected : TermSort) :
    Outcome SortError Unit := do
  expectSort fuel t expected (← env.sortOf fuel t)

end LogicalFramework

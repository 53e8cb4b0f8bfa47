import LogicalFramework.Term.Printer

/-!
# Sort errors

Why a term has no sort, or not the expected one. An error below the root of a term is wrapped once
for every term around it, so that it traces the way from the term that was judged to the place of
the fault.
-/

namespace LogicalFramework

/-- Why a term fails to have a sort. -/
inductive SortError where
  /-- A constant without a declaration. -/
  | undeclaredConstant (c : Constant)
  /-- A variable without a declaration. -/
  | undeclaredVariable (x : Variable)
  /-- A meta-variable without a declaration. -/
  | undeclaredMetaVariable (m : MetaVariable)
  /-- A binder of a variable that is already declared. -/
  | redeclaredVariable (x : Variable)
  /-- A term whose sort is not the expected one. -/
  | mismatch (subject : Term) (expected actual : TermSort)
  /-- A term that is applied and whose sort is no product. -/
  | notPi (subject : Term) (actual : TermSort)
  /-- A scope of an abstraction that is neither an object nor a family. -/
  | notObjectOrFamily (subject : Term) (actual : TermSort)
  /-- A scope of a product, or a declared sort, that is neither a family nor a kind. -/
  | notFamilyOrKind (subject : Term) (actual : TermSort)
  /-- An error in an immediate subterm of `subject`. -/
  | within (subject : Term) (cause : SortError)
deriving DecidableEq

namespace SortError

/-- The innermost error. -/
def root : SortError → SortError
  | within _ cause => cause.root
  | e => e

/-- The number of terms around the place of the fault. -/
def depth : SortError → Nat
  | within _ cause => cause.depth + 1
  | _ => 0

/-- The errors from this one inwards, this one first. -/
def trace : SortError → List SortError
  | within subject cause => within subject cause :: cause.trace
  | e => [e]

/-- The terms around the place of the fault, outermost first. -/
def path : SortError → List Term
  | within subject cause => subject :: cause.path
  | _ => []

/-- The text of an error. -/
def message : SortError → String
  | undeclaredConstant c => "undeclared constant " ++ c.render
  | undeclaredVariable x => "undeclared variable " ++ x.render
  | undeclaredMetaVariable m => "undeclared meta-variable " ++ m.render
  | redeclaredVariable x => "variable " ++ x.render ++ " is already declared"
  | mismatch t expected actual => has t actual ++ expected.render
  | notPi t actual => has t actual ++ "a Pi type"
  | notObjectOrFamily t actual => has t actual ++ "an object or a family"
  | notFamilyOrKind t actual => has t actual ++ "a family or a kind"
  | within t _ => "ill-sorted subterm of " ++ t.render
where
  /-- The text up to what was expected. -/
  has (t : Term) (actual : TermSort) : String :=
    t.render ++ " has sort " ++ actual.render ++ ", expected "

theorem length_path (e : SortError) : e.path.length = e.depth := by
  induction e with
  | within t e ih => simp [path, depth, ih]
  | _ => rfl

end SortError

end LogicalFramework

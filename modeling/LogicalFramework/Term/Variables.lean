import LogicalFramework.Identifier.Fresh
import LogicalFramework.Term

/-!
# Variables of a term

Which variables occur free in a term, which occur at all, and which meta-variables it has. The
lists are in order of first occurrence and name nothing twice.
-/

namespace LogicalFramework.Term

/-- Whether `x` occurs free. -/
def occursFree (x : Variable) : Term → Bool
  | var y => y = x
  | app h a => h.occursFree x || a.occursFree x
  | bind _ y A s => A.occursFree x || (y ≠ x && s.occursFree x)
  | _ => false

/-- Adds to `seen` the free variables that are neither in `bound` nor seen before. -/
def collectFree (bound : List Variable) : Term → List Variable → List Variable
  | var x, seen => if bound.contains x || seen.contains x then seen else seen ++ [x]
  | app h a, seen => a.collectFree bound (h.collectFree bound seen)
  | bind _ x A s, seen => s.collectFree (x :: bound) (A.collectFree bound seen)
  | _, seen => seen

/-- The free variables that are not in `bound`, in order of first occurrence. -/
def freeVariablesExcept (bound : List Variable) (t : Term) : List Variable :=
  t.collectFree bound []

/-- The free variables, in order of first occurrence. -/
def freeVariables (t : Term) : List Variable :=
  t.freeVariablesExcept []

@[simp]
theorem freeVariables_var (x : Variable) : (var x).freeVariables = [x] := rfl

/-- Adds to `seen` the variables not seen before, bound or free. A binder names its variable before
its type and its scope. -/
def collectVariables : Term → List Variable → List Variable
  | var x, seen => if seen.contains x then seen else seen ++ [x]
  | app h a, seen => a.collectVariables (h.collectVariables seen)
  | bind _ x A s, seen =>
    s.collectVariables (A.collectVariables (if seen.contains x then seen else seen ++ [x]))
  | _, seen => seen

/-- All variables, bound or free, in order of first occurrence. -/
def allVariables (t : Term) : List Variable :=
  t.collectVariables []

/-- Adds to `seen` the meta-variables not seen before. -/
def collectMetaVariables : Term → List MetaVariable → List MetaVariable
  | metaVar m, seen => if seen.contains m then seen else seen ++ [m]
  | app h a, seen => a.collectMetaVariables (h.collectMetaVariables seen)
  | bind _ _ A s, seen => s.collectMetaVariables (A.collectMetaVariables seen)
  | _, seen => seen

/-- The meta-variables, in order of first occurrence. -/
def metaVariables (t : Term) : List MetaVariable :=
  t.collectMetaVariables []

/-- The product that does not depend on its variable. It binds an indexed variable that occurs
nowhere in the codomain, bound or free. -/
def arrow (domain codomain : Term) : Term :=
  .pi (.fresh codomain.allVariables (.indexed 0)) domain codomain

end LogicalFramework.Term

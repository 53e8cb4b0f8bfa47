import LogicalFramework.Term.Substitution

/-!
# Equality up to bound names

Two terms are compared binder by binder. The scopes of two binders are first brought under one
common name, which keeps their sizes, and then compared.
-/

namespace LogicalFramework.Term

/-! ## Opening two binders with one name -/

/-- Two scopes under a common bound variable. -/
structure CommonScope where
  /-- The variable that both scopes now bind. -/
  binder : Variable
  /-- The left scope. -/
  left : Term
  /-- The right scope. -/
  right : Term

/-- Brings the scopes `s` of `x` and `t` of `y` under one variable, which is never one of `avoid`.
The left variable is preferred, then the right one, and a fresh one is the last resort. -/
def openTogether (avoid : List Variable) (x : Variable) (s : Term) (y : Variable) (t : Term) :
    CommonScope :=
  if !avoid.contains x && (x = y || !t.occursFree x) then
    ⟨x, s, t.rename y x⟩
  else if !avoid.contains y && !s.occursFree y then
    ⟨y, s.rename x y, t⟩
  else
    let z := Variable.fresh (avoid ++ s.freeVariables ++ t.freeVariables ++ [x, y]) x
    ⟨z, s.rename x z, t.rename y z⟩

@[simp]
theorem size_openTogether_left (avoid : List Variable) (x : Variable) (s : Term) (y : Variable)
    (t : Term) : (openTogether avoid x s y t).left.size = s.size := by
  unfold openTogether
  split
  · rfl
  · split <;> simp

/-! ## Comparison -/

/-- Whether two terms differ only in bound names. Free variables agree only if they are the same
member of `shared`. -/
def alphaEqual (shared : List Variable) (l r : Term) : Bool :=
  match l, r with
  | type, type => true
  | const c, const d => c = d
  | metaVar m, metaVar n => m = n
  | var x, var y => x = y && shared.contains x
  | app h a, app h' a' => alphaEqual shared h h' && alphaEqual shared a a'
  | bind q x A s, bind q' y B t =>
    q = q' && alphaEqual shared A B &&
      let scopes := openTogether [] x s y t
      alphaEqual (scopes.binder :: shared) scopes.left scopes.right
  | _, _ => false
termination_by l.size
decreasing_by all_goals (simp only [size, size_openTogether_left]; omega)

/-- Whether two terms differ only in bound names, their free variables being shared. -/
def alphaEquivalent (l r : Term) : Bool :=
  alphaEqual (l.freeVariables ++ r.freeVariables) l r

end LogicalFramework.Term

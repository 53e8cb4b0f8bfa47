import LogicalFramework.Term.Variables

/-!
# Substitution

Capture-avoiding substitution on named terms. A binder is renamed only where it would capture: where
its variable is free in the substituted term and the replaced variable is free in its scope.

Renaming a binder is itself a substitution, of a variable for a variable. It keeps the size of the
scope, and so the scope can be substituted in after it has been renamed. The size of the result is
part of what `substituting` returns.
-/

namespace LogicalFramework.Term

/-- Substitutes `u`, whose free variables are `uFree`, for `x`. If `u` is an atom the size does not
change. -/
def substituting (x : Variable) (u : Term) (uFree : List Variable) :
    (t : Term) → { r : Term // u.size = 1 → r.size = t.size }
  | type => ⟨type, fun _ => rfl⟩
  | const c => ⟨const c, fun _ => rfl⟩
  | metaVar m => ⟨metaVar m, fun _ => rfl⟩
  | var y => if y = x then ⟨u, id⟩ else ⟨var y, fun _ => rfl⟩
  | app h a =>
    let h' := substituting x u uFree h
    let a' := substituting x u uFree a
    ⟨app h' a', fun hu => by simp [size, h'.2 hu, a'.2 hu]⟩
  | bind q y A s =>
    let A' := substituting x u uFree A
    if y = x then
      ⟨bind q y A' s, fun hu => by simp [size, A'.2 hu]⟩
    else if uFree.contains y && s.occursFree x then
      let z := Variable.fresh (uFree ++ s.freeVariables) y
      let renamed := substituting y (var z) [z] s
      let s' := substituting x u uFree renamed
      ⟨bind q z A' s', fun hu => by simp [size, A'.2 hu, s'.2 hu, renamed.2 rfl]⟩
    else
      let s' := substituting x u uFree s
      ⟨bind q y A' s', fun hu => by simp [size, A'.2 hu, s'.2 hu]⟩
termination_by t => t.size
decreasing_by all_goals grind [size]

/-- The term with `u` in place of the free occurrences of `x`. Binders that would capture a free
variable of `u` are renamed. -/
def subst (t : Term) (x : Variable) (u : Term) : Term :=
  (substituting x u u.freeVariables t).1

/-- The term with the variable `y` in place of the free occurrences of `x`. -/
def rename (t : Term) (x y : Variable) : Term :=
  if x = y then t else t.subst x (var y)

/-! ## Substitution by cases -/

@[simp]
theorem subst_type (x : Variable) (u : Term) : type.subst x u = type := by
  simp [subst, substituting]

@[simp]
theorem subst_const (c : Constant) (x : Variable) (u : Term) :
    (const c).subst x u = const c := by
  simp [subst, substituting]

@[simp]
theorem subst_metaVar (m : MetaVariable) (x : Variable) (u : Term) :
    (metaVar m).subst x u = metaVar m := by
  simp [subst, substituting]

theorem subst_var (x y : Variable) (u : Term) :
    (var y).subst x u = if y = x then u else var y := by
  unfold subst
  rw [substituting]
  split <;> rfl

@[simp]
theorem subst_app (h a : Term) (x : Variable) (u : Term) :
    (app h a).subst x u = app (h.subst x u) (a.subst x u) := by
  simp [subst, substituting]

/-- Under a binder: a scope that rebinds `x` is left alone, a binder that would capture is renamed
first, and any other is kept. -/
theorem subst_bind (q : Binder) (y : Variable) (A s : Term) (x : Variable) (u : Term) :
    (bind q y A s).subst x u =
      if y = x then bind q y (A.subst x u) s
      else if u.freeVariables.contains y && s.occursFree x then
        let z := Variable.fresh (u.freeVariables ++ s.freeVariables) y
        bind q z (A.subst x u) ((s.subst y (var z)).subst x u)
      else bind q y (A.subst x u) (s.subst x u) := by
  unfold subst
  rw [substituting]
  split
  · rfl
  · split <;> rfl

/-! ## Sizes -/

theorem size_subst_var (t : Term) (x y : Variable) : (t.subst x (var y)).size = t.size :=
  (substituting x (var y) (var y).freeVariables t).2 rfl

@[simp]
theorem size_rename (t : Term) (x y : Variable) : (t.rename x y).size = t.size := by
  unfold rename
  split
  · rfl
  · exact size_subst_var t x y

end LogicalFramework.Term

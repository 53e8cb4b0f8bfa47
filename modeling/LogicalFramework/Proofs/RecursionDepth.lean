import LogicalFramework.Term.Alpha
import Mathlib.Tactic.SplitIfs

/-!
# The depth of recursion

A binder that would capture is renamed, and substitution goes on in the renamed scope, which is no
part of the term. The comparison of two binders goes on in scopes that have been brought under one
name. Both recursions end because renaming changes names and nothing else: the renamed scope has the
nodes of the scope, and so its size.

Both are written out here with a bound on the depth of their recursion and with no measure. They
answer whenever the bound is at least the size of the term.

* `anonymous` — a term without its names, which renaming keeps;
* `substWithin`, `alphaEqualWithin` — the recursions with a bound on their depth;
* `subst_terminates_rename_keeps_shape` — the size of a term as a bound, and why it is one.
-/

namespace LogicalFramework.Term

/-! ## Renaming keeps the shape -/

/-- The term without its names: each variable, bound or free, is replaced by one and the same. What
is left is the tree of the nodes, with the constants and meta-variables at its leaves. -/
def anonymous : Term → Term
  | var _ => var ⟨""⟩
  | app h a => app h.anonymous a.anonymous
  | bind q _ A s => bind q ⟨""⟩ A.anonymous s.anonymous
  | t => t

theorem size_anonymous (t : Term) : t.anonymous.size = t.size := by
  induction t with
  | app h a ihh iha => simp [anonymous, size, ihh, iha]
  | bind q x A s ihA ihs => simp [anonymous, size, ihA, ihs]
  | _ => rfl

/-- Putting a variable in for a variable keeps the nodes of a term where they are. -/
theorem anonymous_subst_var (t : Term) (x y : Variable) :
    (t.subst x (var y)).anonymous = t.anonymous := by
  -- The renamed scope is no part of the binder, so the induction is on the size.
  induction hn : t.size using Nat.strongRecOn generalizing t x y with
  | _ n ih =>
  cases t with
  | type => rw [subst_type]
  | const c => rw [subst_const]
  | metaVar m => rw [subst_metaVar]
  | var z =>
    rw [subst_var]
    split <;> rfl
  | app h a =>
    rw [size] at hn
    rw [subst_app, anonymous, anonymous, ih h.size (by omega) h x y rfl,
      ih a.size (by omega) a x y rfl]
  | bind q z A s =>
    rw [size] at hn
    have hA := ih A.size (by omega) A x y rfl
    have hs (x y : Variable) := ih s.size (by omega) s x y rfl
    rw [subst_bind]
    split_ifs with hzx hcapture
    · simp [anonymous, hA]
    · have hrenamed (z' : Variable) := ih (s.subst z (var z')).size
        (by rw [size_subst_var]; omega) (s.subst z (var z')) x y rfl
      simp [anonymous, hA, hrenamed, hs]
    · simp [anonymous, hA, hs]

/-! ## Bounds on the depth -/

/-- Substitution with a bound on the depth of its recursion. It gives no answer once the bound is
used up. -/
def substWithin (fuel : Nat) (x : Variable) (u t : Term) : Option Term :=
  match fuel, t with
  | 0, _ => none
  | _ + 1, var y => some (if y = x then u else var y)
  | fuel + 1, app h a => do
    let h' ← substWithin fuel x u h
    let a' ← substWithin fuel x u a
    some (app h' a')
  | fuel + 1, bind q y A s => do
    let A' ← substWithin fuel x u A
    if y = x then some (bind q y A' s)
    else if u.freeVariables.contains y && s.occursFree x then
      let z := Variable.fresh (u.freeVariables ++ s.freeVariables) y
      let renamed ← substWithin fuel y (var z) s
      let s' ← substWithin fuel x u renamed
      some (bind q z A' s')
    else
      let s' ← substWithin fuel x u s
      some (bind q y A' s')
  | _ + 1, t => some t

/-- Substitution answers within the size of the term. -/
theorem substWithin_eq_some {fuel : Nat} (x : Variable) (u : Term) {t : Term}
    (hfuel : t.size ≤ fuel) : substWithin fuel x u t = some (t.subst x u) := by
  induction fuel generalizing x u t with
  | zero => exact absurd t.size_pos (by omega)
  | succ fuel ih =>
    cases t with
    | type => rw [substWithin, subst_type] <;> simp
    | const c => rw [substWithin, subst_const] <;> simp
    | metaVar m => rw [substWithin, subst_metaVar] <;> simp
    | var y => rw [substWithin, subst_var]
    | app h a =>
      rw [size] at hfuel
      simp [substWithin, ih x u (t := h) (by omega), ih x u (t := a) (by omega)]
    | bind q y A s =>
      rw [size] at hfuel
      have hA := ih x u (t := A) (by omega)
      have hs (x : Variable) (u : Term) := ih x u (t := s) (by omega)
      -- The renamed scope is as large as the scope.
      have hrenamed (z : Variable) := ih x u (t := s.subst y (var z))
        (by rw [size_subst_var]; omega)
      rw [substWithin, subst_bind]
      split_ifs <;> simp [hA, hs, hrenamed]

/-- Comparison up to bound names with a bound on the depth of its recursion. -/
def alphaEqualWithin (fuel : Nat) (shared : List Variable) (l r : Term) : Option Bool :=
  match fuel, l, r with
  | 0, _, _ => none
  | _ + 1, type, type => some true
  | _ + 1, const c, const d => some (c = d)
  | _ + 1, metaVar m, metaVar n => some (m = n)
  | _ + 1, var x, var y => some (x = y && shared.contains x)
  | fuel + 1, app h a, app h' a' => do
    if ← alphaEqualWithin fuel shared h h' then alphaEqualWithin fuel shared a a'
    else some false
  | fuel + 1, bind q x A s, bind q' y B t =>
    if q = q' then do
      if ← alphaEqualWithin fuel shared A B then
        let scopes := openTogether [] x s y t
        alphaEqualWithin fuel (scopes.binder :: shared) scopes.left scopes.right
      else some false
    else some false
  | _ + 1, _, _ => some false

/-- Comparison answers within the size of the left term. -/
theorem alphaEqualWithin_eq_some {fuel : Nat} (shared : List Variable) {l : Term} (r : Term)
    (hfuel : l.size ≤ fuel) :
    alphaEqualWithin fuel shared l r = some (alphaEqual shared l r) := by
  induction fuel generalizing shared l r with
  | zero => exact absurd l.size_pos (by omega)
  | succ fuel ih =>
    cases l with
    | type => cases r <;> simp [alphaEqualWithin, alphaEqual]
    | const c => cases r <;> simp [alphaEqualWithin, alphaEqual]
    | metaVar m => cases r <;> simp [alphaEqualWithin, alphaEqual]
    | var x => cases r <;> simp [alphaEqualWithin, alphaEqual]
    | app h a =>
      rw [size] at hfuel
      have hh (h' : Term) := ih shared (l := h) h' (by omega)
      have ha (a' : Term) := ih shared (l := a) a' (by omega)
      cases r with
      | app h' a' =>
        rw [alphaEqualWithin, alphaEqual, hh, ha]
        cases alphaEqual shared h h' <;> rfl
      | _ => simp [alphaEqualWithin, alphaEqual]
    | bind q x A s =>
      rw [size] at hfuel
      have hA (B : Term) := ih shared (l := A) B (by omega)
      cases r with
      | bind q' y B t =>
        -- Brought under one name, the scope is as large as before.
        have hscope (shared : List Variable) :=
          ih shared (l := (openTogether [] x s y t).left) (openTogether [] x s y t).right
            (by rw [size_openTogether_left]; omega)
        rw [alphaEqualWithin, alphaEqual, hA, hscope]
        by_cases hq : q = q'
        · cases alphaEqual shared A B <;> simp [hq]
        · simp [hq]
      | _ => simp [alphaEqualWithin, alphaEqual]

/-- **Substitution ends, and renaming keeps the shape.** The depth of the recursion of substitution
is bounded by the size of the term in which it takes place, and that of comparison by the size of
the left term. A variable that is put in for a variable leaves every node where it is, and so the
size is that of the term. -/
theorem subst_terminates_rename_keeps_shape :
    (∀ (x : Variable) (u t : Term) (more : Nat),
      substWithin (t.size + more) x u t = some (t.subst x u)) ∧
    (∀ (x y : Variable) (t : Term), (t.subst x (var y)).anonymous = t.anonymous ∧
      (t.subst x (var y)).size = t.size) ∧
    ∀ (shared : List Variable) (l r : Term) (more : Nat),
      alphaEqualWithin (l.size + more) shared l r = some (alphaEqual shared l r) := by
  refine ⟨fun x u t more => ?_, fun x y t => ?_, fun shared l r more => ?_⟩
  · exact substWithin_eq_some x u (Nat.le_add_right _ _)
  · have hshape := anonymous_subst_var t x y
    refine ⟨hshape, ?_⟩
    rw [← size_anonymous, hshape, size_anonymous]
  · exact alphaEqualWithin_eq_some shared r (Nat.le_add_right _ _)

end LogicalFramework.Term

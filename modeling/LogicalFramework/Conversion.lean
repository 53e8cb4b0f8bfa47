import LogicalFramework.Bindings
import LogicalFramework.Term.Alpha
import LogicalFramework.Term.Reduction

/-!
# Convertibility

Equality of terms up to β-reduction, η-expansion and the unfolding of definitions. Both sides are
brought to weak head normal form and compared there. If that fails, the defined variables that head
the two sides are unfolded and the comparison is made again.

The comparison is meant for well-sorted terms. On others it need not end, so it takes a bound on the
depth of its recursion and gives no answer when that is used up.
-/

namespace LogicalFramework

/-- Definitions of free variables. -/
abbrev Definitions := Bindings Variable Term

/-- The defined variables and the free variables of their values. A binder that is opened in a
comparison must not take one of these names. -/
def Definitions.reserved (defs : Definitions) : List Variable :=
  defs.newestFirst.flatMap fun (x, u) => x :: u.freeVariables

namespace Conversion

/-- One side of a comparison: a term, and the definitions that may still be unfolded in it. -/
structure Side where
  /-- The term that is compared. -/
  term : Term
  /-- The definitions not yet unfolded on the way to this term. -/
  definitions : Definitions

namespace Side

/-- The same side, comparing another term. -/
def put (s : Side) (t : Term) : Side :=
  { s with term := t }

/-- The side with the defined variable at its head unfolded. A variable is unfolded once: its
definition is then dropped from the side. -/
def unfolded? (s : Side) : Option Side :=
  match s.term.spineHead with
  | .var x =>
    (s.definitions.lookup x).map fun u => ⟨u.applyAll s.term.arguments, s.definitions.erase x⟩
  | _ => none

end Side

/-- The names that a binder opened in the comparison of two sides must avoid. -/
def reserved (l r : Side) : List Variable :=
  l.definitions.reserved ++ r.definitions.reserved

/-- Opens the abstraction of `x` over `s` against `t`: gives the scope, and `t` applied to its
variable. The variable is renamed if `t` mentions it or if it is one of `avoid`. -/
def openEta (avoid : List Variable) (x : Variable) (s t : Term) : Term × Term :=
  let z :=
    if t.occursFree x || avoid.contains x then
      Variable.fresh (avoid ++ t.freeVariables ++ s.freeVariables ++ [x]) x
    else x
  (s.rename x z, .app t (.var z))

/-- Compares two weak head normal forms, with `equal` for their parts. An abstraction equals a term
that is no binder if its scope equals that term applied to the bound variable. -/
def compareHeads (equal : Side → Side → Option Bool) (l r : Side) : Option Bool :=
  match l.term, r.term with
  | .app h a, .app h' a' =>
    if h.isBinder || h'.isBinder then some false
    else do if ← equal (l.put h) (r.put h') then equal (l.put a) (r.put a') else some false
  | .bind q x A s, .bind q' y B t =>
    if q = q' then do
      if ← equal (l.put A) (r.put B) then
        let scopes := Term.openTogether (reserved l r) x s y t
        equal (l.put scopes.left) (r.put scopes.right)
      else some false
    else some false
  | .lam x _ s, t =>
    let (scope, applied) := openEta (reserved l r) x s t
    equal (l.put scope) (r.put applied)
  | t, .lam x _ s =>
    let (scope, applied) := openEta (reserved l r) x s t
    equal (l.put applied) (r.put scope)
  | s, t => some (s = t)

/-- Compares two sides after unfolding those that have a defined head, if there are any. -/
def compareUnfolded (equal : Side → Side → Option Bool) (l r : Side) : Option Bool :=
  match l.unfolded?, r.unfolded? with
  | none, none => some false
  | l', r' => equal (l'.getD l) (r'.getD r)

/-- Whether two sides are convertible. -/
def equal (fuel : Nat) (l r : Side) : Option Bool :=
  match fuel with
  | 0 => none
  | fuel + 1 => do
    let l := l.put (← l.term.whnf fuel)
    let r := r.put (← r.term.whnf fuel)
    if ← compareHeads (equal fuel) l r then some true else compareUnfolded (equal fuel) l r

end Conversion

/-- Whether two terms are equal up to β-reduction, η-expansion and the given definitions. -/
def Term.equalUnder (fuel : Nat) (defs : Definitions) (l r : Term) : Option Bool :=
  Conversion.equal fuel ⟨l, defs⟩ ⟨r, defs⟩

/-- Whether two terms are equal up to β-reduction and η-expansion. -/
def Term.equal (fuel : Nat) (l r : Term) : Option Bool :=
  l.equalUnder fuel .empty r

/-- Whether two sorts are equal. `Kind` equals `Kind` only. -/
def TermSort.equal (fuel : Nat) : TermSort → TermSort → Option Bool
  | .kind, .kind => some true
  | .term l, .term r => l.equal fuel r
  | _, _ => some false

end LogicalFramework

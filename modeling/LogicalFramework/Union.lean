import LogicalFramework.Conversion
import LogicalFramework.Environment
import LogicalFramework.Outcome
import LogicalFramework.Term.Printer

/-!
# Union of contexts

Two contexts have a union if every variable that both declare has the same sort in both, up to
convertibility. The right context prevails: its declarations follow those of the left context that
it does not repeat.
-/

namespace LogicalFramework

/-- A variable that two contexts declare with different sorts. -/
structure Incompatibility where
  /-- The variable. -/
  x : Variable
  /-- Its sort in the left context. -/
  left : Term
  /-- Its sort in the right context. -/
  right : Term
deriving DecidableEq

/-- The text of an incompatibility. -/
def Incompatibility.message (e : Incompatibility) : String :=
  "variable " ++ e.x.render ++ " is declared as " ++ e.left.render ++ " and as " ++ e.right.render

namespace Context

/-- Takes the variables of a list away from `merged`, in the order of the list, if the left context
declares them too. They must have the same sort there. -/
def withoutShared (fuel : Nat) (left merged : Context) :
    List (Variable × Term) → Outcome Incompatibility Context
  | [] => .ok merged
  | (x, B) :: rest =>
    match left.lookup x with
    | some A => do
      .require ⟨x, A, B⟩ (A.equal fuel B)
      left.withoutShared fuel (merged.erase x) rest
    | none => left.withoutShared fuel merged rest

/-- A context with the declarations of a list, which are added one at a time. -/
def addAll (ctx : Context) (entries : List (Variable × Term)) : Context :=
  entries.foldl (fun ctx entry => ctx.add entry.1 entry.2) ctx

/-- The union of two contexts. -/
def union (fuel : Nat) (left right : Context) : Outcome Incompatibility Context := do
  let merged ← left.withoutShared fuel left right.oldestFirst
  .ok (merged.addAll right.oldestFirst)

end Context

end LogicalFramework

import LogicalFramework.Term.Variables

/-!
# Printed terms

Application associates to the left and binders extend as far as possible, so that parentheses stand
only where they are needed. A product that does not depend on its variable is printed as an arrow.
-/

namespace LogicalFramework

/-- Text in parentheses. -/
def parenthesized (s : String) : String :=
  "(" ++ s ++ ")"

/-- A term as it is shown to a reader. -/
def Term.render : Term → String
  | .type => "Type"
  | .const c => c.render
  | .var x => x.render
  | .metaVar m => m.render
  | .app h a =>
    (if h.isBinder then parenthesized h.render else h.render) ++ " " ++
      if a.isAtom then a.render else parenthesized a.render
  | .bind .lam x A s => "\\" ++ x.render ++ " : " ++ A.render ++ ". " ++ s.render
  | .bind .pi x A s =>
    if s.occursFree x then "(" ++ x.render ++ " : " ++ A.render ++ ") -> " ++ s.render
    else (if A.isBinder then parenthesized A.render else A.render) ++ " -> " ++ s.render

/-- A sort as it is shown to a reader. -/
def TermSort.render : TermSort → String
  | .kind => "Kind"
  | .term t => t.render

end LogicalFramework

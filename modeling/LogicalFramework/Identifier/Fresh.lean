import LogicalFramework.Identifier

/-!
# Fresh names

A fresh name is a function of the names to avoid and of nothing else. A fresh variable keeps the
base of the name it stands for and takes the next index after all those in use with that base, so
that one step makes it fresh for the whole list.
-/

namespace LogicalFramework

/-- The first index from `start` on that is not in use. One of `used.length + 1` consecutive
indices is free. -/
def firstUnused (used : List Int64) (start : Int64) : Int64 :=
  (((List.range (used.length + 1)).map fun k => start + Int64.ofNat k).find?
    fun i => !used.contains i).getD start

/-- The index after the largest one in use, or `start` if there is none. If no index is larger than
all those in use, the first unused index from `start` on. -/
def nextIndex (used : List Int64) (start : Int64) : Int64 :=
  match used.max? with
  | none => start
  | some largest => if largest = Int64.maxValue then firstUnused used start else largest + 1

/-- A variable whose name is longer than each of `avoid`: it spells out all of them. -/
def Variable.longerThan (avoid : List Variable) : Variable :=
  ⟨String.ofList ('$' :: avoid.flatMap fun x => x.id.toList)⟩

/-- The candidate itself if it need not be avoided. Otherwise a variable generated from its base,
with the next index after those of the variables to avoid that share the base. A variable that is
not generated counts as having index 0. -/
def Variable.fresh (avoid : List Variable) (candidate : Variable) : Variable :=
  if avoid.contains candidate then
    let rivals := avoid.filter fun x => x.base = candidate.base
    let next := .generated candidate.base (nextIndex (rivals.map fun x => x.index?.getD 0) 1)
    -- No list of fewer than `2 ^ 63` variables uses up the indices of a base.
    if avoid.contains next then .longerThan avoid else next
  else candidate

theorem fresh_of_not_mem {avoid : List Variable} {candidate : Variable} (h : candidate ∉ avoid) :
    Variable.fresh avoid candidate = candidate := by
  simp [Variable.fresh, h]

/-- The indexed meta-variable with the next index after those in use. -/
def MetaVariable.fresh (avoid : List MetaVariable) : MetaVariable :=
  .indexed (nextIndex (avoid.filterMap MetaVariable.index?) 0)

end LogicalFramework

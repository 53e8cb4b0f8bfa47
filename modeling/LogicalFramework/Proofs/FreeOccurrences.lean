import LogicalFramework.Proofs.Variables
import Mathlib.Data.List.Perm.Subperm

/-!
# Free occurrences

The free variables of a term are collected in one pass, which carries the names that are bound on
the way and the variables seen so far. What the pass meets is the list of all free occurrences, from
left to right. The collected list has the first occurrence of each variable and leaves out the names
that the caller binds.

* `freeOccurrences` — every free occurrence, with repetitions;
* `collectFree_eq_foldl` — the pass over a term is a pass over its free occurrences;
* `ListsFirst` — what is listed after some occurrences, kept by every further one;
* `freeVariablesExcept_agrees` — the list, the test for a free occurrence and the list of all
  variables.
-/

namespace LogicalFramework.Term

/-- The free occurrences of variables, from left to right. -/
def freeOccurrences : Term → List Variable
  | var x => [x]
  | app h a => h.freeOccurrences ++ a.freeOccurrences
  | bind _ x A s => A.freeOccurrences ++ s.freeOccurrences.filter (· ≠ x)
  | _ => []

/-- Adds an occurrence to the variables seen so far. -/
def addOccurrence (bound seen : List Variable) (x : Variable) : List Variable :=
  if bound.contains x || seen.contains x then seen else seen ++ [x]

/-- Occurrences of a bound variable add nothing. -/
theorem foldl_addOccurrence_filter (y : Variable) (bound seen occurrences : List Variable) :
    (occurrences.filter (· ≠ y)).foldl (addOccurrence bound) seen =
      occurrences.foldl (addOccurrence (y :: bound)) seen := by
  rw [List.foldl_filter]
  congr 1
  funext seen x
  by_cases hx : x = y
  · simp [addOccurrence, hx]
  · simp [addOccurrence, hx]

/-- The pass over a term adds its free occurrences one by one. -/
theorem collectFree_eq_foldl (t : Term) (bound seen : List Variable) :
    t.collectFree bound seen = t.freeOccurrences.foldl (addOccurrence bound) seen := by
  induction t generalizing bound seen with
  | app h a ihh iha => rw [collectFree, ihh, iha, freeOccurrences, List.foldl_append]
  | bind q x A s ihA ihs =>
    rw [collectFree, ihA, ihs, freeOccurrences, List.foldl_append, foldl_addOccurrence_filter]
  | _ => rfl

/-- That `seen` lists the variables of some occurrences that are not in `bound`, in the order of
their first occurrences. -/
structure ListsFirst (bound occurrences seen : List Variable) : Prop where
  /-- What is listed. -/
  mem_iff : ∀ x, x ∈ seen ↔ x ∈ occurrences ∧ x ∉ bound
  /-- In which order. -/
  order : seen.Pairwise fun x y => occurrences.idxOf x < occurrences.idxOf y

namespace ListsFirst

variable {bound occurrences seen : List Variable}

/-- One more occurrence. A variable that is new comes after all those before it. -/
theorem addOccurrence (h : ListsFirst bound occurrences seen) (x : Variable) :
    ListsFirst bound (occurrences ++ [x]) (addOccurrence bound seen x) := by
  have hold : seen.Pairwise fun y z =>
      (occurrences ++ [x]).idxOf y < (occurrences ++ [x]).idxOf z := by
    refine h.order.imp_of_mem fun {y z} hy hz hlt => ?_
    rwa [List.idxOf_append_of_mem ((h.mem_iff y).mp hy).1,
      List.idxOf_append_of_mem ((h.mem_iff z).mp hz).1]
  unfold Term.addOccurrence
  split
  · rename_i hx
    simp only [Bool.or_eq_true, List.contains_iff_mem] at hx
    refine ⟨fun y => ?_, hold⟩
    rw [h.mem_iff, List.mem_append, List.mem_singleton]
    constructor
    · exact fun hy => ⟨Or.inl hy.1, hy.2⟩
    · rintro ⟨hy | rfl, hbound⟩
      · exact ⟨hy, hbound⟩
      · exact (h.mem_iff y).mp (hx.resolve_left hbound)
  · rename_i hx
    simp only [Bool.or_eq_true, List.contains_iff_mem, not_or] at hx
    have hnew : x ∉ occurrences := fun hmem => hx.2 ((h.mem_iff x).mpr ⟨hmem, hx.1⟩)
    constructor
    · intro y
      rw [List.mem_append, List.mem_singleton, h.mem_iff, List.mem_append, List.mem_singleton]
      constructor
      · rintro (hy | rfl)
        · exact ⟨Or.inl hy.1, hy.2⟩
        · exact ⟨Or.inr rfl, hx.1⟩
      · rintro ⟨hy | rfl, hbound⟩
        · exact Or.inl ⟨hy, hbound⟩
        · exact Or.inr rfl
    · refine List.pairwise_append.mpr ⟨hold, List.pairwise_singleton _ _, fun y hy z hz => ?_⟩
      obtain rfl := List.mem_singleton.mp hz
      have hmem := ((h.mem_iff y).mp hy).1
      rw [List.idxOf_append_of_mem hmem, List.idxOf_append_of_notMem hnew]
      exact Nat.lt_add_right _ (List.idxOf_lt_length_of_mem hmem)

/-- All further occurrences. -/
theorem foldl (h : ListsFirst bound occurrences seen) (more : List Variable) :
    ListsFirst bound (occurrences ++ more) (more.foldl (Term.addOccurrence bound) seen) := by
  induction more generalizing occurrences seen with
  | nil => simpa using h
  | cons x more ih => simpa using ih (h.addOccurrence x)

theorem nodup (h : ListsFirst bound occurrences seen) : seen.Nodup :=
  h.order.imp fun hlt heq => absurd hlt (by simp [heq])

end ListsFirst

theorem listsFirst_freeVariablesExcept (t : Term) (bound : List Variable) :
    ListsFirst bound t.freeOccurrences (t.freeVariablesExcept bound) := by
  have hnil : ListsFirst bound [] [] := ⟨by simp, List.Pairwise.nil⟩
  rw [freeVariablesExcept, collectFree_eq_foldl]
  exact hnil.foldl t.freeOccurrences

/-- A variable that occurs free occurs. -/
theorem mem_allVariables_of_occursFree {t : Term} {x : Variable} (h : t.occursFree x = true) :
    x ∈ t.allVariables := by
  induction t with
  | var y => simpa [allVariables, collectVariables, occursFree, eq_comm] using h
  | app f a ihf iha =>
    rw [occursFree, Bool.or_eq_true] at h
    exact (mem_allVariables_app f a x).mpr (h.imp ihf iha)
  | bind q y A s ihA ihs =>
    rw [occursFree, Bool.or_eq_true, Bool.and_eq_true] at h
    exact (mem_allVariables_bind q y A s x).mpr (Or.inr (h.imp ihA fun hs => ihs hs.2))
  | _ => exact absurd h (by simp [occursFree])

/-- **The two analyses of free variables agree.** The list names nothing twice. It has the variables
that occur free and that the caller does not bind, in the order of their first free occurrences, and
all of them are among the variables of the term. -/
theorem freeVariablesExcept_agrees (t : Term) (bound : List Variable) :
    (t.freeVariablesExcept bound).Nodup ∧
    (∀ x, x ∈ t.freeVariablesExcept bound ↔ t.occursFree x = true ∧ x ∉ bound) ∧
    ((t.freeVariablesExcept bound).Pairwise fun x y =>
      t.freeOccurrences.idxOf x < t.freeOccurrences.idxOf y) ∧
    (t.freeVariablesExcept bound).Subperm t.allVariables := by
  have hlists := listsFirst_freeVariablesExcept t bound
  have hall : t.freeVariablesExcept bound ⊆ t.allVariables := by
    intro x hx
    exact mem_allVariables_of_occursFree ((mem_freeVariablesExcept t bound x).mp hx).1
  exact ⟨hlists.nodup, mem_freeVariablesExcept t bound, hlists.order,
    List.subperm_of_subset hlists.nodup hall⟩

-- The variable of a binder is named before its type, so the two lists need not have one order.
example : (app (lam ⟨"x"⟩ (var ⟨"y"⟩) (var ⟨"x"⟩)) (var ⟨"x"⟩)).freeVariables = [⟨"y"⟩, ⟨"x"⟩] ∧
    (app (lam ⟨"x"⟩ (var ⟨"y"⟩) (var ⟨"x"⟩)) (var ⟨"x"⟩)).allVariables = [⟨"x"⟩, ⟨"y"⟩] := by
  decide

end LogicalFramework.Term

import Mathlib.Tactic.Tauto
import LogicalFramework.Term.Variables

/-!
# Variables of a term

The test for a free occurrence and the list of the free variables are separate recursions. They
agree: a variable is listed exactly if it occurs free and is not among the names left out. The lists
of all variables and of all meta-variables are those of the parts of a term put together. The
binders of a term are described with the variables that are bound around them.
-/

namespace LogicalFramework.Term

/-- What the collection adds to `seen`: the variables that occur free and are not bound. -/
theorem mem_collectFree (t : Term) (bound seen : List Variable) (x : Variable) :
    x ∈ t.collectFree bound seen ↔ x ∈ seen ∨ (t.occursFree x = true ∧ x ∉ bound) := by
  induction t generalizing bound seen with
  | type => simp [collectFree, occursFree]
  | const c => simp [collectFree, occursFree]
  | metaVar m => simp [collectFree, occursFree]
  | var y =>
    simp only [collectFree, occursFree, decide_eq_true_eq]
    split
    · rename_i h
      simp only [Bool.or_eq_true, List.contains_iff_mem] at h
      constructor
      · exact Or.inl
      · rintro (hx | ⟨rfl, hx⟩)
        · exact hx
        · exact h.resolve_left hx
    · rename_i h
      simp only [Bool.or_eq_true, List.contains_iff_mem, not_or] at h
      rw [List.mem_append, List.mem_singleton]
      constructor
      · rintro (hx | rfl)
        · exact Or.inl hx
        · exact Or.inr ⟨rfl, h.1⟩
      · rintro (hx | ⟨rfl, _⟩)
        · exact Or.inl hx
        · exact Or.inr rfl
  | app h a ihh iha =>
    simp only [collectFree, occursFree, Bool.or_eq_true]
    rw [iha, ihh]
    tauto
  | bind q y A s ihA ihs =>
    simp only [collectFree, occursFree, Bool.or_eq_true, Bool.and_eq_true, decide_eq_true_eq]
    rw [ihs, ihA, List.mem_cons]
    have hne : x = y ↔ y = x := eq_comm
    tauto

/-- A variable that occurs free is not one that does not. -/
theorem ne_of_occursFree {t : Term} {x y : Variable} (hx : t.occursFree x = true)
    (hy : t.occursFree y = false) : x ≠ y := by
  rintro rfl
  rw [hy] at hx
  exact Bool.false_ne_true hx

theorem mem_freeVariablesExcept (t : Term) (bound : List Variable) (x : Variable) :
    x ∈ t.freeVariablesExcept bound ↔ t.occursFree x = true ∧ x ∉ bound := by
  rw [freeVariablesExcept, mem_collectFree]
  simp

/-- The two analyses of free variables agree. -/
@[simp]
theorem mem_freeVariables (t : Term) (x : Variable) :
    x ∈ t.freeVariables ↔ t.occursFree x = true := by
  rw [freeVariables, mem_freeVariablesExcept]
  simp

/-! ## All variables -/

/-- Adding a member that is not there yet. -/
theorem mem_ite_append {α : Type} [DecidableEq α] (seen : List α) (x y : α) :
    (x ∈ if seen.contains y then seen else seen ++ [y]) ↔ x ∈ seen ∨ x = y := by
  split
  · rename_i h
    rw [List.contains_iff_mem] at h
    constructor
    · exact Or.inl
    · rintro (hx | rfl)
      · exact hx
      · exact h
  · rw [List.mem_append, List.mem_singleton]

theorem mem_collectVariables (t : Term) (seen : List Variable) (x : Variable) :
    x ∈ t.collectVariables seen ↔ x ∈ seen ∨ x ∈ t.allVariables := by
  unfold allVariables
  induction t generalizing seen with
  | type => simp [collectVariables]
  | const c => simp [collectVariables]
  | metaVar m => simp [collectVariables]
  | var y =>
    rw [collectVariables, collectVariables, mem_ite_append, mem_ite_append]
    simp
  | app h a ihh iha =>
    rw [collectVariables, collectVariables, iha, ihh, iha (h.collectVariables [])]
    tauto
  | bind q y A s ihA ihs =>
    have hbind : ∀ seen, x ∈ (bind q y A s).collectVariables seen ↔
        ((x ∈ seen ∨ x = y) ∨ x ∈ A.collectVariables []) ∨ x ∈ s.collectVariables [] := by
      intro seen
      rw [collectVariables, ihs, ihA, mem_ite_append]
    rw [hbind, hbind []]
    have hnil : x ∉ ([] : List Variable) := List.not_mem_nil
    tauto

theorem mem_allVariables_app (h a : Term) (x : Variable) :
    x ∈ (app h a).allVariables ↔ x ∈ h.allVariables ∨ x ∈ a.allVariables :=
  mem_collectVariables a h.allVariables x

/-- A binder names its variable. -/
theorem mem_allVariables_bind (q : Binder) (y : Variable) (A s : Term) (x : Variable) :
    x ∈ (bind q y A s).allVariables ↔ x = y ∨ x ∈ A.allVariables ∨ x ∈ s.allVariables := by
  rw [allVariables, collectVariables, mem_collectVariables, mem_collectVariables, mem_ite_append]
  simp [or_assoc]

/-! ## Meta-variables -/

theorem mem_collectMetaVariables (t : Term) (seen : List MetaVariable) (m : MetaVariable) :
    m ∈ t.collectMetaVariables seen ↔ m ∈ seen ∨ m ∈ t.metaVariables := by
  unfold metaVariables
  induction t generalizing seen with
  | type => simp [collectMetaVariables]
  | const c => simp [collectMetaVariables]
  | var x => simp [collectMetaVariables]
  | metaVar n =>
    rw [collectMetaVariables, collectMetaVariables, mem_ite_append, mem_ite_append]
    simp
  | app h a ihh iha =>
    rw [collectMetaVariables, collectMetaVariables, iha, ihh, iha (h.collectMetaVariables [])]
    tauto
  | bind q y A s ihA ihs =>
    rw [collectMetaVariables, collectMetaVariables, ihs, ihA, ihs (A.collectMetaVariables [])]
    tauto

theorem mem_metaVariables_app (h a : Term) (m : MetaVariable) :
    m ∈ (app h a).metaVariables ↔ m ∈ h.metaVariables ∨ m ∈ a.metaVariables :=
  mem_collectMetaVariables a h.metaVariables m

theorem mem_metaVariables_bind (q : Binder) (y : Variable) (A s : Term) (m : MetaVariable) :
    m ∈ (bind q y A s).metaVariables ↔ m ∈ A.metaVariables ∨ m ∈ s.metaVariables :=
  mem_collectMetaVariables s A.metaVariables m

/-! ## Binders -/

/-- `t.BindsAt outer x s` says that `t` has a binder of `x` with the scope `s` somewhere, and that
the binders in whose scopes it is bind the variables `outer`, the outermost one first. -/
inductive BindsAt : Term → List Variable → Variable → Term → Prop where
  | here (q : Binder) (x : Variable) (A s : Term) : BindsAt (bind q x A s) [] x s
  | head {h a s : Term} {outer : List Variable} {x : Variable} (hh : BindsAt h outer x s) :
      BindsAt (app h a) outer x s
  | argument {h a s : Term} {outer : List Variable} {x : Variable} (ha : BindsAt a outer x s) :
      BindsAt (app h a) outer x s
  | domain {q : Binder} {y : Variable} {A r s : Term} {outer : List Variable} {x : Variable}
      (hA : BindsAt A outer x s) : BindsAt (bind q y A r) outer x s
  | scope {q : Binder} {y : Variable} {A r s : Term} {outer : List Variable} {x : Variable}
      (hr : BindsAt r outer x s) : BindsAt (bind q y A r) (y :: outer) x s

theorem BindsAt.isAtom_eq_false {t s : Term} {outer : List Variable} {x : Variable}
    (h : t.BindsAt outer x s) : t.isAtom = false := by
  cases h <;> rfl

/-- What is free in the scope of a binder is free in the term, unless it is bound on the way. -/
theorem BindsAt.occursFree {t s : Term} {outer : List Variable} {x y : Variable}
    (h : t.BindsAt outer y s) (hx : x ∉ outer) (hyx : y ≠ x) (hs : s.occursFree x = true) :
    t.occursFree x = true := by
  induction h with
  | here q y A s => simp [Term.occursFree, hyx, hs]
  | head _ ih => simp [Term.occursFree, ih hx hyx hs]
  | argument _ ih => simp [Term.occursFree, ih hx hyx hs]
  | domain _ ih => simp [Term.occursFree, ih hx hyx hs]
  | scope _ ih =>
    rw [List.mem_cons, not_or] at hx
    simp [Term.occursFree, Ne.symm hx.1, ih hx.2 hyx hs]

end LogicalFramework.Term

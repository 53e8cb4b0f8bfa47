import LogicalFramework.Proofs.AlphaInvariance
import LogicalFramework.Proofs.Completeness
import LogicalFramework.Proofs.Dependence

/-!
# Accepted terms are well scoped

A term that is given a sort mentions declared names only, and none of its binders binds a name that
is declared or bound around it. For this the environment need not be validated. If it is, the sort
mentions declared variables only, too: the variable of a binder does not escape into the sort of a
term that has the binder.

* `Environment.WellScoped` — what it is for a term to be well scoped, and how it comes from the
  parts of the term;
* `Environment.wellScoped_of_sortOf` — accepted terms are well scoped, by induction on the term;
* `Environment.sortOf_well_scoped` — and so are their sorts.
-/

namespace LogicalFramework

open Outcome

namespace Environment

/-- That an environment declares what a term mentions, and that no binder of the term binds a
variable of the context or one that is bound around it. -/
structure WellScoped (env : Environment) (t : Term) : Prop where
  /-- The free variables are declared. -/
  free_declared : ∀ x ∈ t.freeVariables, env.context.contains x = true
  /-- The meta-variables are declared. -/
  metas_declared : ∀ m ∈ t.metaVariables, env.metas.contains m = true
  /-- The constants and literals are declared. -/
  constants_declared : ∀ c ∈ t.constants, env.signature.declares c = true
  /-- Every binder binds a new variable. -/
  binders_new : ∀ outer x s, t.BindsAt outer x s → env.context.contains x = false ∧ x ∉ outer

variable {env : Environment}

/-- Whether an environment declares a term without parts. `Type` needs no declaration. -/
def declaresAtom (env : Environment) : Term → Bool
  | .var x => env.context.contains x
  | .metaVar m => env.metas.contains m
  | .const c => env.signature.declares c
  | _ => true

theorem WellScoped.atom {t : Term} (ht : t.isAtom = true) (h : env.declaresAtom t = true) :
    env.WellScoped t where
  free_declared := by
    intro x hx
    cases t with
    | var y => exact List.mem_singleton.mp hx ▸ h
    | app _ _ | bind _ _ _ _ => exact absurd ht (by simp [Term.isAtom])
    | _ => exact absurd hx List.not_mem_nil
  metas_declared := by
    intro m hm
    cases t with
    | metaVar n => exact List.mem_singleton.mp hm ▸ h
    | app _ _ | bind _ _ _ _ => exact absurd ht (by simp [Term.isAtom])
    | _ => exact absurd hm List.not_mem_nil
  constants_declared := by
    intro c hc
    cases t with
    | const d => exact List.mem_singleton.mp hc ▸ h
    | app _ _ | bind _ _ _ _ => exact absurd ht (by simp [Term.isAtom])
    | _ => exact absurd hc List.not_mem_nil
  binders_new := by
    intro outer x s hbinds
    rw [hbinds.isAtom_eq_false] at ht
    exact absurd ht Bool.false_ne_true

theorem WellScoped.app {h a : Term} (hh : env.WellScoped h) (ha : env.WellScoped a) :
    env.WellScoped (.app h a) where
  free_declared := by
    intro x hx
    rw [Term.mem_freeVariables, Term.occursFree, Bool.or_eq_true] at hx
    rcases hx with hx | hx
    · exact hh.free_declared x ((Term.mem_freeVariables h x).mpr hx)
    · exact ha.free_declared x ((Term.mem_freeVariables a x).mpr hx)
  metas_declared := by
    intro m hm
    rw [Term.mem_metaVariables_app] at hm
    exact hm.elim (hh.metas_declared m) (ha.metas_declared m)
  constants_declared := by
    intro c hc
    exact (List.mem_append.mp hc).elim (hh.constants_declared c) (ha.constants_declared c)
  binders_new := by
    intro outer x s hbinds
    cases hbinds with
    | head hbinds => exact hh.binders_new outer x s hbinds
    | argument hbinds => exact ha.binders_new outer x s hbinds

/-- A binder of a new variable is well scoped if its type is, and its scope with the variable
declared. -/
theorem WellScoped.bind {q : Binder} {x : Variable} {A s : Term}
    (hx : env.context.contains x = false) (hA : env.WellScoped A)
    (hs : (env.extend x A).WellScoped s) : env.WellScoped (.bind q x A s) where
  free_declared := by
    intro y hy
    rw [Term.mem_freeVariables, Term.occursFree, Bool.or_eq_true, Bool.and_eq_true,
      decide_eq_true_eq] at hy
    rcases hy with hy | ⟨hxy, hy⟩
    · exact hA.free_declared y ((Term.mem_freeVariables A y).mpr hy)
    · have hdeclared := hs.free_declared y ((Term.mem_freeVariables s y).mpr hy)
      rw [contains_extend] at hdeclared
      simpa [hxy] using hdeclared
  metas_declared := by
    intro m hm
    rw [Term.mem_metaVariables_bind] at hm
    exact hm.elim (hA.metas_declared m) (hs.metas_declared m)
  constants_declared := by
    intro c hc
    exact (List.mem_append.mp hc).elim (hA.constants_declared c) (hs.constants_declared c)
  binders_new := by
    intro outer y r hbinds
    cases hbinds with
    | here => exact ⟨hx, List.not_mem_nil⟩
    | domain hbinds => exact hA.binders_new outer y r hbinds
    | scope hbinds =>
      -- In the scope, that a variable is not declared says also that it is not the bound one.
      obtain ⟨hnew, houter⟩ := hs.binders_new _ y r hbinds
      rw [contains_extend, Bool.or_eq_false_iff, decide_eq_false_iff_not] at hnew
      refine ⟨hnew.2, ?_⟩
      rw [List.mem_cons, not_or]
      exact ⟨Ne.symm hnew.1, houter⟩

/-- A term that is given a sort is well scoped. -/
theorem wellScoped_of_sortOf {fuel : Nat} {t : Term} {S : TermSort}
    (h : env.sortOf fuel t = ok S) : env.WellScoped t := by
  induction t generalizing env S with
  | type => exact .atom rfl rfl
  | const c =>
    obtain ⟨A, _, hA, _⟩ := sortOf_const h
    exact .atom rfl (by rw [declaresAtom, Signature.declares, hA]; rfl)
  | var x =>
    obtain ⟨A, _, hA, _⟩ := sortOf_var h
    exact .atom rfl (by rw [declaresAtom, Bindings.contains, hA]; rfl)
  | metaVar m =>
    obtain ⟨A, _, hA, _⟩ := sortOf_metaVar h
    exact .atom rfl (by rw [declaresAtom, Bindings.contains, hA]; rfl)
  | app f a ihf iha =>
    obtain ⟨_, _, _, _, _, _, hf, _, ha, _⟩ := sortOf_app h
    exact .app (ihf hf) (iha ha)
  | bind q x A s ihA ihs =>
    obtain ⟨hx, ⟨_, hA, _⟩, R, hs, _⟩ := sortOf_bind h
    exact .bind hx (ihA hA) (ihs hs)

/-- **Accepted terms are well scoped.** A term that is given a sort mentions declared names only,
and each of its binders binds a variable that is neither declared nor bound around it. In a
validated environment, the free variables of the sort are declared, too. -/
theorem sortOf_well_scoped (fuel : Nat) (env : Environment) (t : Term) (S : TermSort)
    (h : env.sortOf fuel t = ok S) :
    env.WellScoped t ∧
      ∀ fuel' T, env.validate fuel' = ok () → S = .term T →
        ∀ x ∈ T.freeVariables, env.context.contains x = true := by
  refine ⟨wellScoped_of_sortOf h, ?_⟩
  rintro fuel' T henv rfl x hx
  have hT := isFamilyOrKind_of_sortOf (isAdmissible_of_validate henv) h
  by_contra hnew
  rw [Bool.not_eq_true] at hnew
  rw [Term.mem_freeVariables, not_occursFree_of_isFamilyOrKind hnew hT] at hx
  exact Bool.false_ne_true hx

/-- The identity on vectors of length `m v` is well scoped, and `v` is free in its sort. -/
theorem sortOf_well_scoped_vectors :
    vectors.validate 20 = ok () ∧
      ∃ T, vectors.sortOf 20 (.lam ⟨"u"⟩ (.app (.const ⟨"vec"⟩)
          (.app (.metaVar ⟨"m"⟩) (.var ⟨"v"⟩))) (.var ⟨"u"⟩)) = ok (.term T) ∧
        vectors.WellScoped (.lam ⟨"u"⟩ (.app (.const ⟨"vec"⟩)
          (.app (.metaVar ⟨"m"⟩) (.var ⟨"v"⟩))) (.var ⟨"u"⟩)) ∧
        T.freeVariables = [⟨"v"⟩] ∧ ∀ x ∈ T.freeVariables, vectors.context.contains x = true := by
  have hvalid : vectors.validate 20 = ok () := by decide +kernel
  have hidentity : vectors.sortOf 20 (.lam ⟨"u"⟩ (.app (.const ⟨"vec"⟩)
      (.app (.metaVar ⟨"m"⟩) (.var ⟨"v"⟩))) (.var ⟨"u"⟩)) =
      ok (.term (.pi ⟨"u"⟩ (.app (.const ⟨"vec"⟩) (.app (.metaVar ⟨"m"⟩) (.var ⟨"v"⟩)))
        (.app (.const ⟨"vec"⟩) (.app (.metaVar ⟨"m"⟩) (.var ⟨"v"⟩))))) := by decide +kernel
  obtain ⟨hscoped, hsort⟩ := sortOf_well_scoped 20 _ _ _ hidentity
  exact ⟨hvalid, _, hidentity, hscoped, by decide +kernel, hsort 20 _ hvalid rfl⟩

end Environment

end LogicalFramework

import LogicalFramework.Proofs.Reduction
import LogicalFramework.Sorting

/-!
# How sorts come about

For each form of term, what its parts must satisfy for the term to be given a sort, and which sort
it is given. Results about sorting cite these and do not open `Environment.sortOf`.
-/

namespace LogicalFramework

open Outcome

/-! ## Requirements on sorts -/

theorem expectSort_type_eq_ok {fuel : Nat} {t : Term} {S : TermSort} {u : Unit}
    (h : expectSort fuel t .type S = ok u) : ∃ A, S = .term A ∧ A.equal fuel .type = some true := by
  rw [expectSort, require_eq_ok_iff] at h
  cases S with
  | kind => exact absurd h (by simp [TermSort.equal, TermSort.type])
  | term A => exact ⟨A, rfl, h⟩

theorem expectPi_eq_ok {fuel : Nat} {t : Term} {S : TermSort} {x : Variable} {B C : Term}
    (h : expectPi fuel t S = ok (x, B, C)) : ∃ A, S = .term A ∧ A.whnf fuel = some (.pi x B C) := by
  unfold expectPi at h
  split at h
  · exact absurd h (by simp)
  · rename_i A
    rw [bind_eq_ok_iff] at h
    obtain ⟨A', hA, h⟩ := h
    rw [ofOption_eq_ok_iff] at hA
    split at h
    · cases h
      exact ⟨A, rfl, hA⟩
    · exact absurd h (by simp)

/-- A sort that is a term has a normal form that is a term. -/
theorem TermSort.normalForm_eq_some {fuel : Nat} {t : Term} {S : TermSort}
    (h : (TermSort.term t).normalForm fuel = some S) :
    ∃ t', t.normalForm fuel = some t' ∧ S = .term t' := by
  rw [TermSort.normalForm, Option.map_eq_some_iff] at h
  obtain ⟨t', ht, rfl⟩ := h
  exact ⟨t', ht, rfl⟩

namespace Environment

variable {fuel : Nat} {env : Environment} {S : TermSort}

/-! ## Atoms -/

/-- An atom has its declared sort, in normal form. -/
theorem declared_eq_ok {e : SortError} {o : Option Term}
    (h : (do let A ← orFail e o; ofOption ((TermSort.term A).normalForm fuel)) = ok S) :
    ∃ A T, o = some A ∧ A.normalForm fuel = some T ∧ S = .term T := by
  rw [bind_eq_ok_iff] at h
  obtain ⟨A, hA, h⟩ := h
  rw [orFail_eq_ok_iff] at hA
  rw [ofOption_eq_ok_iff] at h
  obtain ⟨T, hT, rfl⟩ := TermSort.normalForm_eq_some h
  exact ⟨A, T, hA, hT, rfl⟩

theorem sortOf_const {c : Constant} (h : env.sortOf fuel (.const c) = ok S) :
    ∃ A T, env.signature.sortOf? c = some A ∧ A.normalForm fuel = some T ∧ S = .term T :=
  declared_eq_ok h

theorem sortOf_var {x : Variable} (h : env.sortOf fuel (.var x) = ok S) :
    ∃ A T, env.context.lookup x = some A ∧ A.normalForm fuel = some T ∧ S = .term T :=
  declared_eq_ok h

theorem sortOf_metaVar {m : MetaVariable} (h : env.sortOf fuel (.metaVar m) = ok S) :
    ∃ A T, env.metas.lookup m = some A ∧ A.normalForm fuel = some T ∧ S = .term T :=
  declared_eq_ok h

/-! ## Applications and binders -/

/-- An application has a sort if the sort of its head reduces to a product whose domain is equal to
the sort of the argument. -/
theorem sortOf_app {f a : Term} (h : env.sortOf fuel (.app f a) = ok S) :
    ∃ F x A B A' T, env.sortOf fuel f = ok (.term F) ∧ F.whnf fuel = some (.pi x A B) ∧
      env.sortOf fuel a = ok (.term A') ∧ A'.equal fuel A = some true ∧
      (B.subst x a).normalForm fuel = some T ∧ S = .term T := by
  rw [sortOf, mapFail_eq_ok_iff, bind_eq_ok_iff] at h
  obtain ⟨F', hf, h⟩ := h
  rw [bind_eq_ok_iff] at h
  obtain ⟨⟨x, A, B⟩, hpi, h⟩ := h
  obtain ⟨F, rfl, hF⟩ := expectPi_eq_ok hpi
  dsimp only at h
  rw [bind_eq_ok_iff] at h
  obtain ⟨S', ha, h⟩ := h
  rw [bind_eq_ok_iff] at h
  obtain ⟨_, hsort, h⟩ := h
  rw [expectSort, require_eq_ok_iff] at hsort
  rw [ofOption_eq_ok_iff] at h
  obtain ⟨T, hT, rfl⟩ := TermSort.normalForm_eq_some h
  cases S' with
  | kind => exact absurd hsort (by simp [TermSort.equal])
  | term A' => exact ⟨F, x, A, B, A', T, hf, hF, ha, hsort, hT, rfl⟩

/-- A binder has a sort if its variable is new, its type has a sort equal to `Type` and its scope has
a sort. For a product the latter has to be `Type` or `Kind` and is the result, in normal form. For
an abstraction it has to be a term, and the result is the product of it, in normal form. -/
theorem sortOf_bind {q : Binder} {x : Variable} {A s : Term}
    (h : env.sortOf fuel (.bind q x A s) = ok S) :
    env.context.contains x = false ∧
      (∃ A', env.sortOf fuel A = ok (.term A') ∧ A'.equal fuel .type = some true) ∧
      ∃ R, (env.extend x A).sortOf fuel s = ok R ∧
        ((q = .pi ∧ R.classifiesFamilyOrKind fuel = some true ∧ R.normalForm fuel = some S) ∨
          (q = .lam ∧ ∃ B T, R = .term B ∧ (Term.pi x A B).normalForm fuel = some T ∧
            S = .term T)) := by
  rw [sortOf, mapFail_eq_ok_iff] at h
  split at h
  · exact absurd h (by simp)
  rename_i hx
  rw [bind_eq_ok_iff] at h
  obtain ⟨SA, hA, h⟩ := h
  rw [bind_eq_ok_iff] at h
  obtain ⟨_, htype, h⟩ := h
  obtain ⟨A', rfl, hA'⟩ := expectSort_type_eq_ok htype
  rw [bind_eq_ok_iff] at h
  obtain ⟨R, hs, h⟩ := h
  refine ⟨by simpa using hx, ⟨A', hA, hA'⟩, R, hs, ?_⟩
  cases q with
  | pi =>
    dsimp only at h
    rw [bind_eq_ok_iff] at h
    obtain ⟨_, hR, h⟩ := h
    rw [expectFamilyOrKind, require_eq_ok_iff] at hR
    rw [ofOption_eq_ok_iff] at h
    exact Or.inl ⟨rfl, hR, h⟩
  | lam =>
    dsimp only at h
    rw [bind_eq_ok_iff] at h
    obtain ⟨B, hB, h⟩ := h
    rw [ofOption_eq_ok_iff] at h
    obtain ⟨T, hT, rfl⟩ := TermSort.normalForm_eq_some h
    cases R with
    | kind => exact absurd hB (by simp [expectObjectOrFamily, TermSort.term?, orFail])
    | term B' =>
      rw [expectObjectOrFamily, orFail_eq_ok_iff] at hB
      cases hB
      exact Or.inr ⟨rfl, B, T, rfl, hT, rfl⟩

/-- A sort that is a term comes without a redex. -/
theorem sortOf_isNormal {t T : Term} (h : env.sortOf fuel t = ok (.term T)) : T.IsNormal := by
  cases t with
  | type => exact absurd h (by simp [sortOf])
  | const | var | metaVar =>
    obtain ⟨A, T', _, hT, he⟩ := declared_eq_ok h
    cases he
    exact Term.normalForm_isNormal hT
  | app f a =>
    obtain ⟨F, x, A, B, A', T', _, _, _, _, hT, he⟩ := sortOf_app h
    cases he
    exact Term.normalForm_isNormal hT
  | bind q x A s =>
    obtain ⟨_, _, R, _, ⟨_, _, hT⟩ | ⟨_, B, T', _, hT, he⟩⟩ := sortOf_bind h
    · cases R with
      | kind => exact absurd hT (by simp [TermSort.normalForm])
      | term B =>
        obtain ⟨T', hT', he⟩ := TermSort.normalForm_eq_some hT
        cases he
        exact Term.normalForm_isNormal hT'
    · cases he
      exact Term.normalForm_isNormal hT

end Environment

end LogicalFramework

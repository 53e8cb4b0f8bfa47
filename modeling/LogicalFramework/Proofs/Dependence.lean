import LogicalFramework.Proofs.Soundness

/-!
# What sorting depends on

Sorting looks up the constants and the meta-variables of a term, and its variables. A variable that
the term only binds is looked up as well, since a binder must not bind a declared variable. Nothing
else of the environment is looked at, and neither the order of the declarations nor those that are
shadowed make a difference.

* `Environment.AgreeOn` — environments that declare alike what occurs in a term;
* `Environment.sortOf_congr` — they give the same outcome, a sort or an error.
-/

namespace LogicalFramework

open Outcome

/-- The constants and literals of a term, from left to right. -/
def Term.constants : Term → List Constant
  | const c => [c]
  | app h a => h.constants ++ a.constants
  | bind _ _ A s => A.constants ++ s.constants
  | _ => []

namespace Environment

/-- That two environments declare alike what occurs in a term. -/
structure AgreeOn (env₁ env₂ : Environment) (t : Term) : Prop where
  /-- The constants and literals. -/
  constants_eq : ∀ c ∈ t.constants, env₁.signature.sortOf? c = env₂.signature.sortOf? c
  /-- The variables, bound or free. -/
  variables_eq : ∀ x ∈ t.allVariables, env₁.context.lookup x = env₂.context.lookup x
  /-- The meta-variables. -/
  metas_eq : ∀ m ∈ t.metaVariables, env₁.metas.lookup m = env₂.metas.lookup m

namespace AgreeOn

variable {env₁ env₂ : Environment}

theorem app {f a : Term} (h : AgreeOn env₁ env₂ (.app f a)) :
    AgreeOn env₁ env₂ f ∧ AgreeOn env₁ env₂ a := by
  constructor
  · constructor
    · intro c hc
      exact h.constants_eq c (List.mem_append_left _ hc)
    · intro x hx
      exact h.variables_eq x ((Term.mem_allVariables_app f a x).mpr (Or.inl hx))
    · intro m hm
      exact h.metas_eq m ((Term.mem_metaVariables_app f a m).mpr (Or.inl hm))
  · constructor
    · intro c hc
      exact h.constants_eq c (List.mem_append_right _ hc)
    · intro x hx
      exact h.variables_eq x ((Term.mem_allVariables_app f a x).mpr (Or.inr hx))
    · intro m hm
      exact h.metas_eq m ((Term.mem_metaVariables_app f a m).mpr (Or.inr hm))

theorem domain {q : Binder} {x : Variable} {A s : Term}
    (h : AgreeOn env₁ env₂ (.bind q x A s)) : AgreeOn env₁ env₂ A where
  constants_eq := fun c hc => h.constants_eq c (List.mem_append_left _ hc)
  variables_eq := fun y hy =>
    h.variables_eq y ((Term.mem_allVariables_bind q x A s y).mpr (Or.inr (Or.inl hy)))
  metas_eq := fun m hm => h.metas_eq m ((Term.mem_metaVariables_bind q x A s m).mpr (Or.inl hm))

/-- In the scope of a binder both environments declare the variable of the binder alike. -/
theorem scope {q : Binder} {x : Variable} {A s : Term} (h : AgreeOn env₁ env₂ (.bind q x A s)) :
    AgreeOn (env₁.extend x A) (env₂.extend x A) s where
  constants_eq := fun c hc => h.constants_eq c (List.mem_append_right _ hc)
  variables_eq := by
    intro y hy
    rw [extend, extend, Bindings.lookup_add, Bindings.lookup_add,
      h.variables_eq y ((Term.mem_allVariables_bind q x A s y).mpr (Or.inr (Or.inr hy)))]
  metas_eq := fun m hm => h.metas_eq m ((Term.mem_metaVariables_bind q x A s m).mpr (Or.inr hm))

/-- Both environments declare the variable of a binder, or neither does. -/
theorem contains_eq {q : Binder} {x : Variable} {A s : Term}
    (h : AgreeOn env₁ env₂ (.bind q x A s)) :
    env₁.context.contains x = env₂.context.contains x := by
  rw [Bindings.contains, Bindings.contains,
    h.variables_eq x ((Term.mem_allVariables_bind q x A s x).mpr (Or.inl rfl))]

end AgreeOn

/-- **Sorting depends on what a term mentions.** Environments that declare alike the constants, the
meta-variables and the variables of a term, bound or free, give the same outcome: the same sort, the
same error with all of its trace, or none within the bound. -/
theorem sortOf_congr (fuel : Nat) (env₁ env₂ : Environment) (t : Term)
    (h : AgreeOn env₁ env₂ t) : env₁.sortOf fuel t = env₂.sortOf fuel t := by
  induction t generalizing env₁ env₂ with
  | type => rfl
  | const c => rw [sortOf, sortOf, h.constants_eq c (List.mem_singleton.mpr rfl)]
  | var x => rw [sortOf, sortOf, h.variables_eq x (List.mem_singleton.mpr rfl)]
  | metaVar m => rw [sortOf, sortOf, h.metas_eq m (List.mem_singleton.mpr rfl)]
  | app f a ihf iha =>
    obtain ⟨hf, ha⟩ := h.app
    rw [sortOf, sortOf, ihf env₁ env₂ hf, iha env₁ env₂ ha]
  | bind q x A s ihA ihs =>
    rw [sortOf, sortOf, h.contains_eq, ihA env₁ env₂ h.domain, ihs _ _ h.scope]

/-- The environment `vectors` with its constants in another order, with a sort for `nat` and one for
`v` that are shadowed, and with declarations of `w`, `k` and `list`. -/
def crowdedVectors : Environment where
  signature := ⟨[(.naturals, .const ⟨"nat"⟩), (.constant ⟨"list"⟩, .type),
    (.constant ⟨"nat"⟩, .type), (.constant ⟨"vec"⟩, .pi ⟨"n"⟩ (.const ⟨"nat"⟩) .type),
    (.constant ⟨"nat"⟩, .const ⟨"list"⟩)]⟩
  context := ⟨[(⟨"w"⟩, .const ⟨"list"⟩), (⟨"v"⟩, .app (.const ⟨"vec"⟩)
    (.app (.lam ⟨"n"⟩ (.const ⟨"nat"⟩) (.var ⟨"n"⟩)) (.const (.natural 3)))),
    (⟨"v"⟩, .const ⟨"nat"⟩)]⟩
  metas := ⟨[(⟨"k"⟩, .const ⟨"list"⟩),
    (⟨"m"⟩, .pi ⟨"w"⟩ (.app (.const ⟨"vec"⟩) (.const (.natural 3))) (.const ⟨"nat"⟩))]⟩

/-- The abstraction `λ u : nat, m v` has the same sort in both environments, and `λ u : nat, m u`
the same error. -/
theorem sortOf_congr_crowded :
    (vectors.AgreeOn crowdedVectors
        (.lam ⟨"u"⟩ (.const ⟨"nat"⟩) (.app (.metaVar ⟨"m"⟩) (.var ⟨"v"⟩))) ∧
      crowdedVectors.sortOf 20
          (.lam ⟨"u"⟩ (.const ⟨"nat"⟩) (.app (.metaVar ⟨"m"⟩) (.var ⟨"v"⟩))) =
        ok (.term (.pi ⟨"u"⟩ (.const ⟨"nat"⟩) (.const ⟨"nat"⟩)))) ∧
    vectors.AgreeOn crowdedVectors
        (.lam ⟨"u"⟩ (.const ⟨"nat"⟩) (.app (.metaVar ⟨"m"⟩) (.var ⟨"u"⟩))) ∧
      ∃ e, e.depth = 2 ∧
        crowdedVectors.sortOf 20
          (.lam ⟨"u"⟩ (.const ⟨"nat"⟩) (.app (.metaVar ⟨"m"⟩) (.var ⟨"u"⟩))) = fail e ∧
        vectors.sortOf 20
          (.lam ⟨"u"⟩ (.const ⟨"nat"⟩) (.app (.metaVar ⟨"m"⟩) (.var ⟨"u"⟩))) = fail e := by
  have hv : vectors.AgreeOn crowdedVectors
      (.lam ⟨"u"⟩ (.const ⟨"nat"⟩) (.app (.metaVar ⟨"m"⟩) (.var ⟨"v"⟩))) :=
    ⟨by decide +kernel, by decide +kernel, by decide +kernel⟩
  have hu : vectors.AgreeOn crowdedVectors
      (.lam ⟨"u"⟩ (.const ⟨"nat"⟩) (.app (.metaVar ⟨"m"⟩) (.var ⟨"u"⟩))) :=
    ⟨by decide +kernel, by decide +kernel, by decide +kernel⟩
  refine ⟨⟨hv, ?_⟩, hu, .within (.lam ⟨"u"⟩ (.const ⟨"nat"⟩) (.app (.metaVar ⟨"m"⟩) (.var ⟨"u"⟩)))
    (.within (.app (.metaVar ⟨"m"⟩) (.var ⟨"u"⟩)) (.mismatch (.var ⟨"u"⟩)
      (.term (.app (.const ⟨"vec"⟩) (.const (.natural 3)))) (.term (.const ⟨"nat"⟩)))), rfl, ?_, ?_⟩
  · rw [← sortOf_congr 20 _ _ _ hv]
    decide +kernel
  · rw [← sortOf_congr 20 _ _ _ hu]
    decide +kernel
  · decide +kernel

end Environment

end LogicalFramework

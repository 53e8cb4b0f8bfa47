import LogicalFramework.Proofs.Stratification
import Mathlib.Data.List.Chain

/-!
# Errors trace the way to the fault

A term fails to have a sort because of a fault in one of its parts, or in a part of a part, and the
error has one wrapper for every term on the way there. The way is described without reference to
errors, by the parts of a term and the environments in which they are judged.

* `Environment.Part`, `Environment.Descends` — one step and any number of steps into a term;
* `SortError.Explained` — what an innermost error says about the end of a path;
* `Environment.explained_of_sortOf` — an error is explained by its path, by induction on the term;
* `Environment.sortOf_fail_traced` — so the wrapped terms are a path of immediate subterms.
-/

namespace LogicalFramework

open Outcome

/-! ## Paths into a term -/

namespace Environment

/-- An immediate subterm of a term that is judged in an environment, and the environment in which it
is judged itself. -/
inductive Part : Environment → Term → Environment → Term → Prop where
  | head (env : Environment) (f a : Term) : Part env (.app f a) env f
  | argument (env : Environment) (f a : Term) : Part env (.app f a) env a
  | domain (env : Environment) (q : Binder) (x : Variable) (A s : Term) :
      Part env (.bind q x A s) env A
  | scope (env : Environment) (q : Binder) (x : Variable) (A s : Term) :
      Part env (.bind q x A s) (env.extend x A) s

/-- `Descends env t path env' u` says that the terms of `path` lead from `t`, judged in `env`, to
the term `u` below them, judged in `env'`: each is an immediate subterm of the one before, `u` is
one of the last, and `env'` declares the variables of the binders whose scopes are entered. -/
inductive Descends : Environment → Term → List Term → Environment → Term → Prop where
  | refl (env : Environment) (t : Term) : Descends env t [] env t
  | step {env env₁ env₂ : Environment} {t p u : Term} {path : List Term}
      (hpart : Part env t env₁ p) (h : Descends env₁ p path env₂ u) :
      Descends env t (t :: path) env₂ u

theorem Part.mem_parts {env env' : Environment} {t p : Term} (h : Part env t env' p) :
    p ∈ t.parts := by
  cases h <;> simp [Term.parts]

/-- A path leads from one immediate subterm to the next, down to its end. -/
theorem Descends.isChain {env env' : Environment} {t u : Term} {path : List Term}
    (h : Descends env t path env' u) :
    (path ++ [u]).head? = some t ∧ (path ++ [u]).IsChain fun s p => p ∈ s.parts := by
  induction h with
  | refl env t => exact ⟨rfl, List.isChain_singleton t⟩
  | step hpart _ ih =>
    obtain ⟨hhead, hchain⟩ := ih
    rw [List.cons_append]
    refine ⟨rfl, List.isChain_cons.mpr ⟨?_, hchain⟩⟩
    intro p hp
    rw [hhead] at hp
    cases hp
    exact hpart.mem_parts

end Environment

/-! ## Innermost errors -/

namespace SortError

/-- That the error reports the sort `actual` of the term `u` because the sort does not meet a
requirement. -/
inductive Unmet (fuel : Nat) (u : Term) (actual : TermSort) : SortError → Prop where
  | mismatch {expected : TermSort} (h : actual.equal fuel expected = some false) :
      Unmet fuel u actual (.mismatch u expected actual)
  | notPi (h : ∀ A, actual = .term A → ∃ A', A.whnf fuel = some A' ∧ A'.isPi = false) :
      Unmet fuel u actual (.notPi u actual)
  | notObjectOrFamily (h : actual = .kind) : Unmet fuel u actual (.notObjectOrFamily u actual)
  | notFamilyOrKind (h : actual.classifiesFamilyOrKind fuel = some false) :
      Unmet fuel u actual (.notFamilyOrKind u actual)

/-- What an innermost error says about the end of a path from `t`, judged in `env`: the path leads
to an atom without a declaration, or to a term whose sort does not meet a requirement of the term
before, or its last term binds a variable that is declared there. -/
inductive Explained (fuel : Nat) (env : Environment) (t : Term) (path : List Term) :
    SortError → Prop where
  | undeclaredConstant {env' : Environment} {c : Constant} (h : env.Descends t path env' (.const c))
      (hc : env'.signature.sortOf? c = none) : Explained fuel env t path (.undeclaredConstant c)
  | undeclaredVariable {env' : Environment} {x : Variable} (h : env.Descends t path env' (.var x))
      (hx : env'.context.lookup x = none) : Explained fuel env t path (.undeclaredVariable x)
  | undeclaredMetaVariable {env' : Environment} {m : MetaVariable}
      (h : env.Descends t path env' (.metaVar m)) (hm : env'.metas.lookup m = none) :
      Explained fuel env t path (.undeclaredMetaVariable m)
  | redeclaredVariable {env' : Environment} {above : List Term} {q : Binder} {x : Variable}
      {A s : Term} (hpath : path = above ++ [.bind q x A s])
      (h : env.Descends t above env' (.bind q x A s)) (hx : env'.context.contains x = true) :
      Explained fuel env t path (.redeclaredVariable x)
  | unmet {env' : Environment} {u : Term} {actual : TermSort} {e : SortError} (hpath : path ≠ [])
      (h : env.Descends t path env' u) (hsort : env'.sortOf fuel u = ok actual)
      (hfault : Unmet fuel u actual e) : Explained fuel env t path e

variable {fuel : Nat} {env env' : Environment} {t p : Term}

/-- What explains an error of a part explains it in the whole term, with the term put before the
path. -/
theorem Explained.step {path : List Term} {e : SortError} (hpart : env.Part t env' p)
    (h : Explained fuel env' p path e) : Explained fuel env t (t :: path) e := by
  cases h with
  | undeclaredConstant h hc => exact .undeclaredConstant (.step hpart h) hc
  | undeclaredVariable h hx => exact .undeclaredVariable (.step hpart h) hx
  | undeclaredMetaVariable h hm => exact .undeclaredMetaVariable (.step hpart h) hm
  | redeclaredVariable hpath h hx =>
    rw [hpath]
    exact .redeclaredVariable rfl (.step hpart h) hx
  | unmet _ h hsort hfault => exact .unmet (by simp) (.step hpart h) hsort hfault

/-- A part whose sort does not meet a requirement explains the error. -/
theorem Unmet.explained {actual : TermSort} {e : SortError} (hpart : env.Part t env' p)
    (hsort : env'.sortOf fuel p = ok actual) (hfault : Unmet fuel p actual e) :
    Explained fuel env t [t] e :=
  .unmet (by simp) (.step hpart (.refl env' p)) hsort hfault

theorem Unmet.path_eq_nil {u : Term} {actual : TermSort} {e : SortError}
    (h : Unmet fuel u actual e) : e.path = [] ∧ e.root = e := by
  cases h <;> exact ⟨rfl, rfl⟩

/-- The terms of a path that explains an error are immediate subterms one of the other, the first of
them being the judged term. -/
theorem Explained.isChain {path : List Term} {e : SortError} (h : Explained fuel env t path e) :
    (∀ s ∈ path.head?, s = t) ∧ path.IsChain fun s p => p ∈ s.parts := by
  -- In all cases the path, with its end or without, is one into the term.
  have hsplit : ∀ {above : List Term} {env' : Environment} {u : Term},
      env.Descends t above env' u → (path = above ∨ path = above ++ [u]) →
      (∀ s ∈ path.head?, s = t) ∧ path.IsChain fun s p => p ∈ s.parts := by
    intro above env' u hdescends hpath
    obtain ⟨hhead, hchain⟩ := hdescends.isChain
    rcases hpath with rfl | rfl
    · refine ⟨fun s hs => ?_, hchain.left_of_append⟩
      rw [List.head?_append, Option.mem_def.mp hs] at hhead
      exact Option.some.inj hhead
    · refine ⟨fun s hs => ?_, hchain⟩
      rw [Option.mem_def.mp hs] at hhead
      exact Option.some.inj hhead
  cases h with
  | undeclaredConstant h _ => exact hsplit h (Or.inl rfl)
  | undeclaredVariable h _ => exact hsplit h (Or.inl rfl)
  | undeclaredMetaVariable h _ => exact hsplit h (Or.inl rfl)
  | redeclaredVariable hpath h _ => exact hsplit h (Or.inr hpath)
  | unmet _ h _ _ => exact hsplit h (Or.inl rfl)

end SortError

/-! ## How failures come about -/

theorem Outcome.orFail_eq_fail_iff {ε α : Type} {e e' : ε} {o : Option α} :
    orFail e o = fail e' ↔ o = none ∧ e = e' := by
  cases o <;> simp [orFail]

theorem Outcome.require_eq_fail_iff {ε : Type} {e e' : ε} {o : Option Bool} :
    require e o = fail e' ↔ o = some false ∧ e = e' := by
  rcases o with _ | _ | _ <;> simp [require]

theorem Outcome.ofOption_ne_fail {ε α : Type} {o : Option α} {e : ε} :
    (ofOption o : Outcome ε α) ≠ fail e := by
  cases o <;> simp [ofOption]

theorem expectSort_eq_fail {fuel : Nat} {t : Term} {expected actual : TermSort} {e : SortError}
    (h : expectSort fuel t expected actual = fail e) : e.Unmet fuel t actual := by
  rw [expectSort, require_eq_fail_iff] at h
  obtain ⟨hequal, rfl⟩ := h
  exact .mismatch hequal

theorem expectFamilyOrKind_eq_fail {fuel : Nat} {t : Term} {actual : TermSort} {e : SortError}
    (h : expectFamilyOrKind fuel t actual = fail e) : e.Unmet fuel t actual := by
  rw [expectFamilyOrKind, require_eq_fail_iff] at h
  obtain ⟨hsort, rfl⟩ := h
  exact .notFamilyOrKind hsort

theorem expectObjectOrFamily_eq_fail {fuel : Nat} {t : Term} {actual : TermSort} {e : SortError}
    (h : expectObjectOrFamily t actual = fail e) : e.Unmet fuel t actual := by
  rw [expectObjectOrFamily, orFail_eq_fail_iff] at h
  obtain ⟨hterm, rfl⟩ := h
  cases actual with
  | kind => exact .notObjectOrFamily rfl
  | term A => exact absurd hterm (by simp [TermSort.term?])

theorem expectPi_eq_fail {fuel : Nat} {t : Term} {actual : TermSort} {e : SortError}
    (h : expectPi fuel t actual = fail e) : e.Unmet fuel t actual := by
  unfold expectPi at h
  split at h
  · cases h
    exact .notPi fun A hA => absurd hA (by simp)
  · rename_i A
    rw [bind_eq_fail_iff] at h
    rcases h with h | ⟨A', hA', h⟩
    · exact absurd h ofOption_ne_fail
    · rw [ofOption_eq_ok_iff] at hA'
      split at h
      · exact absurd h (by simp)
      · rename_i hpi
        cases h
        refine .notPi fun B hB => ?_
        cases hB
        refine ⟨A', hA', ?_⟩
        unfold Term.isPi
        split
        · exact absurd rfl (hpi _ _ _)
        · rfl

namespace Environment

variable {fuel : Nat} {env : Environment} {e : SortError}

/-- An atom fails only because it is not declared. -/
theorem declared_eq_fail {e' : SortError} {o : Option Term}
    (h : (do let A ← orFail e' o; ofOption ((TermSort.term A).normalForm fuel)) =
      (fail e : Outcome SortError TermSort)) : o = none ∧ e' = e := by
  rw [bind_eq_fail_iff] at h
  rcases h with h | ⟨A, _, h⟩
  · exact orFail_eq_fail_iff.mp h
  · exact absurd h ofOption_ne_fail

/-- An application fails because its head or its argument fails, or because the sort of one of them
does not meet a requirement. -/
theorem sortOf_app_eq_fail {f a : Term} (h : env.sortOf fuel (.app f a) = fail e) :
    ∃ cause, e = .within (.app f a) cause ∧
      (env.sortOf fuel f = fail cause ∨ env.sortOf fuel a = fail cause ∨
        (∃ F, env.sortOf fuel f = ok F ∧ cause.Unmet fuel f F) ∨
        ∃ A, env.sortOf fuel a = ok A ∧ cause.Unmet fuel a A) := by
  rw [sortOf, mapFail_eq_fail_iff] at h
  obtain ⟨cause, h, rfl⟩ := h
  refine ⟨cause, rfl, ?_⟩
  rw [bind_eq_fail_iff] at h
  rcases h with hf | ⟨F, hF, h⟩
  · exact Or.inl hf
  rw [bind_eq_fail_iff] at h
  rcases h with hpi | ⟨⟨x, domain, codomain⟩, _, h⟩
  · exact Or.inr (Or.inr (Or.inl ⟨F, hF, expectPi_eq_fail hpi⟩))
  dsimp only at h
  rw [bind_eq_fail_iff] at h
  rcases h with ha | ⟨A, hA, h⟩
  · exact Or.inr (Or.inl ha)
  rw [bind_eq_fail_iff] at h
  rcases h with hsort | ⟨_, _, h⟩
  · exact Or.inr (Or.inr (Or.inr ⟨A, hA, expectSort_eq_fail hsort⟩))
  · exact absurd h ofOption_ne_fail

/-- A binder fails because its variable is declared, because its type or its scope fails, or because
the sort of one of them does not meet a requirement. -/
theorem sortOf_bind_eq_fail {q : Binder} {x : Variable} {A s : Term}
    (h : env.sortOf fuel (.bind q x A s) = fail e) :
    ∃ cause, e = .within (.bind q x A s) cause ∧
      ((env.context.contains x = true ∧ cause = .redeclaredVariable x) ∨
        env.sortOf fuel A = fail cause ∨ (env.extend x A).sortOf fuel s = fail cause ∨
        (∃ S, env.sortOf fuel A = ok S ∧ cause.Unmet fuel A S) ∨
        ∃ S, (env.extend x A).sortOf fuel s = ok S ∧ cause.Unmet fuel s S) := by
  rw [sortOf, mapFail_eq_fail_iff] at h
  obtain ⟨cause, h, rfl⟩ := h
  refine ⟨cause, rfl, ?_⟩
  split at h
  · rename_i hx
    cases h
    exact Or.inl ⟨hx, rfl⟩
  rw [bind_eq_fail_iff] at h
  rcases h with hA | ⟨S, hS, h⟩
  · exact Or.inr (Or.inl hA)
  rw [bind_eq_fail_iff] at h
  rcases h with htype | ⟨_, _, h⟩
  · exact Or.inr (Or.inr (Or.inr (Or.inl ⟨S, hS, expectSort_eq_fail htype⟩)))
  rw [bind_eq_fail_iff] at h
  rcases h with hs | ⟨R, hR, h⟩
  · exact Or.inr (Or.inr (Or.inl hs))
  -- The requirements on the sort of the scope are those of a product or of an abstraction.
  refine Or.inr (Or.inr (Or.inr (Or.inr ⟨R, hR, ?_⟩)))
  cases q with
  | pi =>
    dsimp only at h
    rw [bind_eq_fail_iff] at h
    rcases h with hfamily | ⟨_, _, h⟩
    · exact expectFamilyOrKind_eq_fail hfamily
    · exact absurd h ofOption_ne_fail
  | lam =>
    dsimp only at h
    rw [bind_eq_fail_iff] at h
    rcases h with hobject | ⟨_, _, h⟩
    · exact expectObjectOrFamily_eq_fail hobject
    · exact absurd h ofOption_ne_fail

/-! ## Every error is explained by its path -/

theorem explained_of_sortOf {t : Term} (h : env.sortOf fuel t = fail e) :
    e.root.Explained fuel env t e.path := by
  induction t generalizing env e with
  | type => exact absurd h (by simp [sortOf])
  | const c =>
    obtain ⟨hc, rfl⟩ := declared_eq_fail h
    exact .undeclaredConstant (.refl env _) hc
  | var x =>
    obtain ⟨hx, rfl⟩ := declared_eq_fail h
    exact .undeclaredVariable (.refl env _) hx
  | metaVar m =>
    obtain ⟨hm, rfl⟩ := declared_eq_fail h
    exact .undeclaredMetaVariable (.refl env _) hm
  | app f a ihf iha =>
    obtain ⟨cause, rfl, hf | ha | ⟨F, hF, hfault⟩ | ⟨A, hA, hfault⟩⟩ := sortOf_app_eq_fail h
    · exact (ihf hf).step (.head env f a)
    · exact (iha ha).step (.argument env f a)
    · rw [SortError.path, SortError.root, hfault.path_eq_nil.1, hfault.path_eq_nil.2]
      exact hfault.explained (.head env f a) hF
    · rw [SortError.path, SortError.root, hfault.path_eq_nil.1, hfault.path_eq_nil.2]
      exact hfault.explained (.argument env f a) hA
  | bind q x A s ihA ihs =>
    obtain ⟨cause, rfl, ⟨hx, rfl⟩ | hA | hs | ⟨S, hS, hfault⟩ | ⟨S, hS, hfault⟩⟩ :=
      sortOf_bind_eq_fail h
    · exact .redeclaredVariable (List.nil_append _).symm (.refl env _) hx
    · exact (ihA hA).step (.domain env q x A s)
    · exact (ihs hs).step (.scope env q x A s)
    · rw [SortError.path, SortError.root, hfault.path_eq_nil.1, hfault.path_eq_nil.2]
      exact hfault.explained (.domain env q x A s) hS
    · rw [SortError.path, SortError.root, hfault.path_eq_nil.1, hfault.path_eq_nil.2]
      exact hfault.explained (.scope env q x A s) hS

/-- **Every failure is a trace.** The wrapped terms of an error are as many as its depth, the first
is the term that was judged and each is an immediate subterm of the one before. The innermost error
describes what is at their end: an atom that is not declared, a binder of a variable that is
declared, or a part whose sort is the reported one and not a required one, each in the environment
with the binders on the way. -/
theorem sortOf_fail_traced (fuel : Nat) (env : Environment) (t : Term) (e : SortError)
    (h : env.sortOf fuel t = fail e) :
    e.path.length = e.depth ∧ (∀ s ∈ e.path.head?, s = t) ∧
      (e.path.IsChain fun s p => p ∈ s.parts) ∧ e.root.Explained fuel env t e.path := by
  have hexplained := explained_of_sortOf h
  obtain ⟨hhead, hchain⟩ := hexplained.isChain
  exact ⟨e.length_path, hhead, hchain, hexplained⟩

/-- The term `λ u : nat, λ w : vec u, vec w`. -/
def vectorOfVector : Term :=
  .lam ⟨"u"⟩ (.const ⟨"nat"⟩) (.lam ⟨"w"⟩ (.app (.const ⟨"vec"⟩) (.var ⟨"u"⟩))
    (.app (.const ⟨"vec"⟩) (.var ⟨"w"⟩)))

/-- The error of `λ u : nat, λ w : vec u, vec w` leads through three terms to the variable `w`,
which has the sort `vec u` under both binders. -/
theorem sortOf_fail_traced_vectors :
    ∃ e, vectors.sortOf 20 vectorOfVector = fail e ∧ e.depth = 3 ∧
      e.root = .mismatch (.var ⟨"w"⟩) (.term (.const ⟨"nat"⟩))
        (.term (.app (.const ⟨"vec"⟩) (.var ⟨"u"⟩))) ∧
      e.path.length = 3 ∧ (e.path.IsChain fun s p => p ∈ s.parts) ∧
      e.root.Explained 20 vectors vectorOfVector e.path := by
  have hfail : vectors.sortOf 20 vectorOfVector = fail (.within vectorOfVector
      (.within (.lam ⟨"w"⟩ (.app (.const ⟨"vec"⟩) (.var ⟨"u"⟩))
        (.app (.const ⟨"vec"⟩) (.var ⟨"w"⟩)))
      (.within (.app (.const ⟨"vec"⟩) (.var ⟨"w"⟩)) (.mismatch (.var ⟨"w"⟩)
        (.term (.const ⟨"nat"⟩)) (.term (.app (.const ⟨"vec"⟩) (.var ⟨"u"⟩))))))) := by
    decide +kernel
  obtain ⟨hlength, _, hchain, hexplained⟩ := sortOf_fail_traced 20 vectors _ _ hfail
  exact ⟨_, hfail, rfl, rfl, hlength, hchain, hexplained⟩

end Environment

end LogicalFramework

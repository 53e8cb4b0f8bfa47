import LogicalFramework.Proofs.LazyComparison
import LogicalFramework.Proofs.Soundness

/-!
# Sorting does not depend on bound names

Two terms that differ in bound names only are sorted side by side. Under a binder the two runs
declare different variables, and these show in the sorts that they find. What stays the same is how
the runs read: each has a valuation that gives the declared variables their nameless names, and
under their valuations the two terms, the two contexts and the two sorts are equal.

The second run differs in one respect. A binder may take the name of a declared variable, which is
refused. Otherwise every reduction and every comparison of the second run gives what it gives in the
first run, with the same bound.

* `Environment.Reads` — an environment that is read as local declarations, and
  `Environment.Reads.extend`, which enters a binder;
* `Environment.sortOf_of_reads` — two runs that read the same, by induction on the term;
* `Environment.sortOf_alpha_invariant` — sorting does not depend on bound names.
-/

namespace LogicalFramework

open Outcome

/-! ## Reductions and comparisons of terms that read the same -/

namespace Term

/-- The ways in which two terms can read the same under valuations that give names. -/
inductive SameReading (ν μ : Valuation) : Term → Term → Prop where
  | type : SameReading ν μ type type
  | const (c : Constant) : SameReading ν μ (const c) (const c)
  | var {x y : Variable} (h : ν x = μ y) : SameReading ν μ (var x) (var y)
  | metaVar (m : MetaVariable) : SameReading ν μ (metaVar m) (metaVar m)
  | app {f a g b : Term} (hf : f.namelessIn ν = g.namelessIn μ)
      (ha : a.namelessIn ν = b.namelessIn μ) : SameReading ν μ (app f a) (app g b)
  | bind (q : Binder) {x y : Variable} {A s B t : Term} (hA : A.namelessIn ν = B.namelessIn μ)
      (hs : s.namelessIn (ν.bind x) = t.namelessIn (μ.bind y)) :
      SameReading ν μ (bind q x A s) (bind q y B t)

variable {ν μ : Valuation}

theorem sameReading (hν : ν.IsNaming) (hμ : μ.IsNaming) {s t : Term}
    (h : s.namelessIn ν = t.namelessIn μ) : SameReading ν μ s t := by
  choose n hn using hν
  choose m hm using hμ
  cases s with
  | type =>
    cases t with
    | type => exact .type
    | _ => simp [namelessIn, hm] at h
  | const c =>
    cases t with
    | const d =>
      cases h
      exact .const c
    | _ => simp [namelessIn, hm] at h
  | var x =>
    cases t with
    | var y => exact .var h
    | _ => simp [namelessIn, hn] at h
  | metaVar m =>
    cases t with
    | metaVar k =>
      cases h
      exact .metaVar m
    | _ => simp [namelessIn, hm] at h
  | app f a =>
    cases t with
    | app g b => exact .app (Nameless.app.inj h).1 (Nameless.app.inj h).2
    | _ => simp [namelessIn, hm] at h
  | bind q x A s =>
    cases t with
    | bind q' y B t =>
      obtain ⟨rfl, hA, hs⟩ := Nameless.bind.inj h
      exact .bind q hA hs
    | _ => simp [namelessIn, hm] at h

/-- A function on terms that computes one on nameless terms answers alike on terms that read the
same. -/
theorem answer_of_reading {f : Term → Option Term} {g : Nameless → Option Nameless}
    (hν : ∀ t, g (t.namelessIn ν) = (f t).map (namelessIn ν))
    (hμ : ∀ t, g (t.namelessIn μ) = (f t).map (namelessIn μ)) {s t s' : Term}
    (h : s.namelessIn ν = t.namelessIn μ) (hs : f s = some s') :
    ∃ t', f t = some t' ∧ s'.namelessIn ν = t'.namelessIn μ := by
  have hreading := hμ t
  rw [← h, hν, hs, Option.map_some] at hreading
  obtain ⟨t', ht', he⟩ := Option.map_eq_some_iff.mp hreading.symm
  exact ⟨t', ht', he.symm⟩

theorem equal_of_reading (hν : ν.Faithful []) (hμ : μ.Faithful []) (fuel : Nat) {l r l' r' : Term}
    (hl : l.namelessIn ν = l'.namelessIn μ) (hr : r.namelessIn ν = r'.namelessIn μ) :
    l'.equal fuel r' = l.equal fuel r := by
  rw [equal_eq_nameless hν fuel l, equal_eq_nameless hμ fuel l', hl, hr]

end Term

/-- A sort with its term read under a valuation. -/
def TermSort.namelessIn (ν : Valuation) : TermSort → NamelessSort
  | kind => .kind
  | term t => .term (t.namelessIn ν)

/-! ## Environments as local declarations -/

/-- That an admissible environment, read under `ν`, declares the constants and meta-variables of
`sig` and `metas`, and the local names of `Γ`. -/
structure Environment.Reads (env : Environment) (ν : Valuation) (sig : Signature)
    (metas : MetaContext) (Γ : Locals) : Prop where
  /-- The environment declares families and kinds only. -/
  admissible : env.IsAdmissible
  /-- The declared constants. -/
  signature_eq : env.signature = sig
  /-- The declared meta-variables. -/
  metas_eq : env.metas = metas
  /-- Different variables have different names. -/
  faithful : ν.Faithful []
  /-- The sorts of constants and meta-variables mention no variable that has been bound. -/
  global : ∀ A : Term, HasSort.GlobalSort sig metas A → A.namelessIn ν = A.nameless
  /-- The declared variables. -/
  declared : ∀ x n, ν x = .name n → Γ n = (env.context.lookup x).map (Term.namelessIn ν)

namespace Environment

variable {env : Environment} {ν : Valuation} {sig : Signature} {metas : MetaContext} {Γ : Locals}

/-- An admissible environment reads as its own declarations. -/
theorem IsAdmissible.reads (h : env.IsAdmissible) :
    env.Reads Valuation.free env.signature env.metas env.locals where
  admissible := h
  signature_eq := rfl
  metas_eq := rfl
  faithful := Valuation.Faithful.free []
  global := fun A _ => (Term.nameless_eq_namelessIn A).symm
  declared := by
    intro x n hn
    have hfree : Name.free x = n := Nameless.name.inj hn
    rw [← hfree, locals]
    congr 1
    funext A
    exact Term.nameless_eq_namelessIn A

/-- A variable that is not declared does not occur in a family or a kind. -/
theorem not_occursFree_of_isFamilyOrKind {x : Variable} (hx : env.context.contains x = false)
    {A : Term} (hA : IsFamilyOrKind env.signature env.metas env.locals A.nameless) :
    A.occursFree x = false := by
  rw [← Bool.not_eq_true]
  intro hoccurs
  have hmentions : A.nameless.Mentions (.free x) := by
    rw [Term.nameless_eq_namelessIn, Term.mentions_namelessIn]
    exact ⟨x, hoccurs, rfl⟩
  obtain ⟨S, _, hS⟩ := hA
  obtain ⟨B, hB⟩ := hS.exists_of_mentions hmentions
  exact ne_free_of_locals hx hB rfl

/-- The scope of a binder reads with the variable of the binder declared. -/
theorem Reads.extend (h : env.Reads ν sig metas Γ) {x : Variable} {A : Term}
    (hx : env.context.contains x = false) (hA : env.Derives A .type) :
    (env.extend x A).Reads (ν.bind x) sig metas (Γ.push (A.namelessIn ν)) where
  admissible := h.admissible.extend hx hA
  signature_eq := h.signature_eq
  metas_eq := h.metas_eq
  faithful := h.faithful.bind List.not_mem_nil
  global := by
    intro B hB
    have hsort : IsFamilyOrKind env.signature env.metas env.locals B.nameless := by
      apply h.admissible.global B
      rw [h.signature_eq, h.metas_eq]
      exact hB
    rw [Term.namelessIn_bind_of_not_occursFree B ν (not_occursFree_of_isFamilyOrKind hx hsort),
      h.global B hB]
    exact HasSort.rename_global (ρ := Name.succ) (fun _ _ => rfl) hB
  declared := by
    intro y n hn
    by_cases hyx : y = x
    · have hzero : Name.bound 0 = n := by
        rw [hyx, Valuation.bind_self] at hn
        exact Nameless.name.inj hn
      have hxA := not_occursFree_of_isFamilyOrKind hx ⟨_, Or.inl rfl, hA⟩
      rw [← hzero, hyx, Environment.extend, Bindings.lookup_add, if_pos rfl, Option.map_some,
        Term.namelessIn_bind_of_not_occursFree A ν hxA]
      rfl
    · obtain ⟨m, hm⟩ := h.faithful.naming y
      have hsucc : m.succ = n := by
        rw [Valuation.bind_of_ne ν hyx, hm] at hn
        exact Nameless.name.inj hn
      rw [← hsucc, Locals.push_succ, h.declared y m hm, Environment.extend, Bindings.lookup_add,
        if_neg (Ne.symm hyx), Option.map_map]
      cases hlookup : env.context.lookup y with
      | none => rfl
      | some B =>
        -- The sort of a declared variable does not mention the new one.
        have hB : env.locals (.free y) = some B.nameless := by
          rw [locals, hlookup]
          rfl
        have hxB := not_occursFree_of_isFamilyOrKind hx (h.admissible.declared _ _ hB)
        rw [Option.map_some, Option.map_some, Term.namelessIn_bind_of_not_occursFree B ν hxB]
        rfl

end Environment

/-! ## Answers, and refusals of a declared name -/

/-- That the outcome is an answer with the property `P`, or a failure because a binder binds a
declared variable. -/
def Outcome.OkOrRedeclared {α : Type} (P : α → Prop) : Outcome SortError α → Prop
  | ok a => P a
  | fail e => ∃ x, e.root = .redeclaredVariable x
  | exhausted => False

namespace Outcome.OkOrRedeclared

variable {α β : Type} {P : α → Prop} {Q : β → Prop}

theorem bind {o : Outcome SortError α} {f : α → Outcome SortError β} (ho : o.OkOrRedeclared P)
    (hf : ∀ a, o = ok a → P a → (f a).OkOrRedeclared Q) : (o >>= f).OkOrRedeclared Q := by
  cases o with
  | ok a => exact hf a rfl ho
  | fail e => exact ho
  | exhausted => exact ho.elim

/-- Wrapping a failure keeps its cause. -/
theorem within {o : Outcome SortError α} (ho : o.OkOrRedeclared P) (t : Term) :
    (o.mapFail (.within t)).OkOrRedeclared P := by
  cases o with
  | ok a => exact ho
  | fail e => exact ho
  | exhausted => exact ho.elim

end Outcome.OkOrRedeclared

namespace Environment

/-! ## Two runs -/

variable {env₁ env₂ : Environment} {ν μ : Valuation} {sig : Signature} {metas : MetaContext}
  {Γ : Locals} {fuel : Nat}

/-- Sorts that read the same have normal forms that do. -/
theorem normalForm_of_reading (hν : ν.IsNaming) (hμ : μ.IsNaming) {A B T : Term}
    (hA : A.normalForm fuel = some T) (h : A.namelessIn ν = B.namelessIn μ) :
    Outcome.OkOrRedeclared (fun S : TermSort => (TermSort.term T).namelessIn ν = S.namelessIn μ)
      (ofOption ((TermSort.term B).normalForm fuel)) := by
  obtain ⟨T', hT', he⟩ := Term.answer_of_reading (Term.normalForm_namelessIn hν fuel)
    (Term.normalForm_namelessIn hμ fuel) h hA
  rw [TermSort.normalForm, hT']
  exact congrArg NamelessSort.term he

/-- That `t` is sorted in the first environment as `u` is in the second, unless `u` binds a variable
that is declared there. -/
def SortedAlike (fuel : Nat) (env₁ : Environment) (ν : Valuation) (t : Term) (env₂ : Environment)
    (μ : Valuation) (u : Term) : Prop :=
  ∀ S, env₁.sortOf fuel t = ok S →
    (env₂.sortOf fuel u).OkOrRedeclared fun S' => S.namelessIn ν = S'.namelessIn μ

/-- A sort that reads as a term is a term. -/
theorem exists_term_of_reading {T : Term} {S : TermSort}
    (h : (TermSort.term T).namelessIn ν = S.namelessIn μ) :
    ∃ T', S = .term T' ∧ T.namelessIn ν = T'.namelessIn μ := by
  cases S with
  | kind => exact absurd h (by simp [TermSort.namelessIn])
  | term T' => exact ⟨T', rfl, NamelessSort.term.inj h⟩

theorem SortedAlike.app (hν : ν.Faithful []) (hμ : μ.Faithful []) {f a g b : Term}
    (hab : a.namelessIn ν = b.namelessIn μ) (hf : SortedAlike fuel env₁ ν f env₂ μ g)
    (ha : SortedAlike fuel env₁ ν a env₂ μ b) :
    SortedAlike fuel env₁ ν (.app f a) env₂ μ (.app g b) := by
  intro S h
  obtain ⟨F, x, A, B, A', T, hsortf, hF, hsorta, hequal, hT, rfl⟩ := sortOf_app h
  rw [sortOf]
  refine OkOrRedeclared.within ?_ _
  refine (hf _ hsortf).bind fun S _ hS => ?_
  obtain ⟨G, rfl, hG⟩ := exists_term_of_reading hS
  -- The sorts of the heads reduce to products that read the same.
  obtain ⟨P, hP, hpi⟩ := Term.answer_of_reading (Term.whnf_namelessIn hν.naming fuel)
    (Term.whnf_namelessIn hμ.naming fuel) hG hF
  cases Term.sameReading hν.naming hμ.naming hpi with
  | @bind _ _ y _ _ C D hAC hBD =>
    have hexpect : expectPi fuel g (.term G) = ok (y, C, D) := by
      rw [expectPi, hP]
      rfl
    rw [hexpect]
    refine (ha _ hsorta).bind fun S _ hS => ?_
    obtain ⟨C', rfl, hC'⟩ := exists_term_of_reading hS
    have hsame : expectSort fuel b (.term C) (.term C') = ok () := by
      rw [expectSort, TermSort.equal, Term.equal_of_reading hν hμ fuel hC' hAC, hequal]
      rfl
    rw [hsame]
    have hcodomain : (B.subst x a).namelessIn ν = (D.subst y b).namelessIn μ := by
      rw [Term.namelessIn_subst_eq_instantiate, Term.namelessIn_subst_eq_instantiate, hBD, hab]
    exact normalForm_of_reading hν.naming hμ.naming hT hcodomain

/-- The sorts that the scope of a product may have are `Kind` and `Type` themselves. -/
theorem eq_kind_or_type {env : Environment} (henv : env.IsAdmissible) {t : Term} {R : TermSort}
    (h : env.sortOf fuel t = ok R) (hR : R.classifiesFamilyOrKind fuel = some true) :
    R = .kind ∨ R = .type := by
  cases R with
  | kind => exact Or.inl rfl
  | term T =>
    have hsort := (derives_of_sortOf henv h).isFamilyOrKind henv rfl
    exact Or.inr (congrArg TermSort.term (eq_type_of_equal (sortOf_isNormal h) hsort hR))

/-- A sort that reads as `Kind` or `Type` is this sort. -/
theorem eq_of_reading (hν : ν.IsNaming) (hμ : μ.IsNaming) {R R' : TermSort}
    (hR : R = .kind ∨ R = .type) (h : R.namelessIn ν = R'.namelessIn μ) : R' = R := by
  rcases hR with rfl | rfl
  · cases R' with
    | kind => rfl
    | term T => exact absurd h (by simp [TermSort.namelessIn])
  · obtain ⟨T, rfl, hT⟩ := exists_term_of_reading h
    cases Term.sameReading hν hμ hT
    rfl

/-- Two binders are sorted alike if their types are, and if their scopes are once both variables can
be declared. -/
theorem SortedAlike.bind (h₁ : env₁.Reads ν sig metas Γ) (h₂ : env₂.Reads μ sig metas Γ)
    (q : Binder) {x y : Variable} {A s B t : Term} (hAB : A.namelessIn ν = B.namelessIn μ)
    (hA : SortedAlike fuel env₁ ν A env₂ μ B)
    (hs : (env₁.extend x A).Reads (ν.bind x) sig metas (Γ.push (A.namelessIn ν)) →
      (env₂.extend y B).Reads (μ.bind y) sig metas (Γ.push (A.namelessIn ν)) →
      SortedAlike fuel (env₁.extend x A) (ν.bind x) s (env₂.extend y B) (μ.bind y) t) :
    SortedAlike fuel env₁ ν (.bind q x A s) env₂ μ (.bind q y B t) := by
  intro S h
  obtain ⟨hx, ⟨A', hsortA, hA'⟩, R, hsortR, hcases⟩ := sortOf_bind h
  have hν := h₁.faithful
  have hμ := h₂.faithful
  rw [sortOf]
  refine OkOrRedeclared.within ?_ _
  split
  · exact ⟨y, rfl⟩
  rename_i hy
  rw [Bool.not_eq_true] at hy
  refine (hA _ hsortA).bind fun S' hsortB hS' => ?_
  obtain ⟨B', rfl, hB'⟩ := exists_term_of_reading hS'
  have hequal : B'.equal fuel .type = some true := by
    rw [Term.equal_of_reading hν hμ fuel hB' (r := .type) rfl, hA']
  have htype : expectSort fuel B .type (.term B') = ok () := by
    rw [expectSort, TermSort.type, TermSort.equal, hequal]
    rfl
  rw [htype]
  -- Both variables are declared, and the scopes are sorted.
  have hreads₁ := h₁.extend hx
    (derives_type_of_equal (derives_of_sortOf h₁.admissible hsortA) hA')
  have hreads₂ := h₂.extend hy
    (derives_type_of_equal (derives_of_sortOf h₂.admissible hsortB) hequal)
  rw [← hAB] at hreads₂
  refine (hs hreads₁ hreads₂ _ hsortR).bind fun R' _ hR' => ?_
  rcases hcases with ⟨rfl, hR, hS⟩ | ⟨rfl, C, T, rfl, hT, rfl⟩
  · have hsort := eq_kind_or_type hreads₁.admissible hsortR hR
    obtain rfl := eq_of_reading hreads₁.faithful.naming hreads₂.faithful.naming hsort hR'
    have hfamily : expectFamilyOrKind fuel t R' = ok () := by
      rw [expectFamilyOrKind, hR]
      rfl
    dsimp only
    rw [hfamily]
    rcases hsort with rfl | rfl
    · cases hS
      exact rfl
    · obtain ⟨U, hU, rfl⟩ := TermSort.normalForm_eq_some hS
      exact normalForm_of_reading hν.naming hμ.naming hU rfl
  · obtain ⟨C', rfl, hC'⟩ := exists_term_of_reading hR'
    have hpi : (Term.pi x A C).namelessIn ν = (Term.pi y B C').namelessIn μ := by
      rw [Term.namelessIn, Term.namelessIn, hAB, hC']
    exact normalForm_of_reading hν.naming hμ.naming hT hpi

/-- A sort of a constant or a meta-variable reads the same in both environments. -/
theorem normalForm_of_globalSort (h₁ : env₁.Reads ν sig metas Γ) (h₂ : env₂.Reads μ sig metas Γ)
    {A T : Term} (hA : HasSort.GlobalSort sig metas A) (hT : A.normalForm fuel = some T) :
    Outcome.OkOrRedeclared (fun S : TermSort => (TermSort.term T).namelessIn ν = S.namelessIn μ)
      (ofOption ((TermSort.term A).normalForm fuel)) := by
  apply normalForm_of_reading h₁.faithful.naming h₂.faithful.naming hT
  rw [h₁.global A hA, h₂.global A hA]

/-- Terms that read the same, in environments that read the same, are sorted alike. -/
theorem sortOf_of_reads (h₁ : env₁.Reads ν sig metas Γ) (h₂ : env₂.Reads μ sig metas Γ)
    {t u : Term} (h : t.namelessIn ν = u.namelessIn μ) :
    SortedAlike fuel env₁ ν t env₂ μ u := by
  have hν := h₁.faithful.naming
  have hμ := h₂.faithful.naming
  -- The induction is on the first term. Under a binder both environments are extended.
  induction t generalizing env₁ env₂ ν μ Γ u with
  | type =>
    cases Term.sameReading hν hμ h with
    | type =>
      intro S hS
      cases hS
      exact rfl
  | const c =>
    cases Term.sameReading hν hμ h with
    | const =>
      intro S hS
      obtain ⟨A, T, hA, hT, rfl⟩ := sortOf_const hS
      rw [h₁.signature_eq] at hA
      rw [sortOf, h₂.signature_eq, hA]
      exact normalForm_of_globalSort h₁ h₂ (Or.inl ⟨c, hA⟩) hT
  | metaVar m =>
    cases Term.sameReading hν hμ h with
    | metaVar =>
      intro S hS
      obtain ⟨A, T, hA, hT, rfl⟩ := sortOf_metaVar hS
      rw [h₁.metas_eq] at hA
      rw [sortOf, h₂.metas_eq, hA]
      exact normalForm_of_globalSort h₁ h₂ (Or.inr ⟨m, hA⟩) hT
  | var x =>
    cases Term.sameReading hν hμ h with
    | @var _ y hxy =>
      intro S hS
      obtain ⟨A, T, hA, hT, rfl⟩ := sortOf_var hS
      -- Both variables have the same name, and so are declared with sorts that read the same.
      obtain ⟨n, hn⟩ := hν x
      have hlookup := h₂.declared y n (hxy ▸ hn)
      rw [h₁.declared x n hn, hA] at hlookup
      obtain ⟨B, hB, hBA⟩ := Option.map_eq_some_iff.mp hlookup.symm
      rw [sortOf, hB]
      exact normalForm_of_reading hν hμ hT hBA.symm
  | app f a ihf iha =>
    cases Term.sameReading hν hμ h with
    | app hf ha =>
      exact .app h₁.faithful h₂.faithful ha (ihf h₁ h₂ hf hν hμ) (iha h₁ h₂ ha hν hμ)
  | bind q x A s ihA ihs =>
    cases Term.sameReading hν hμ h with
    | bind _ hA hs =>
      exact .bind h₁ h₂ q hA (ihA h₁ h₂ hA hν hμ) fun hreads₁ hreads₂ =>
        ihs hreads₁ hreads₂ hs hreads₁.faithful.naming hreads₂.faithful.naming

end Environment

/-- Whether two sorts are both `Kind`, or terms that differ in bound names only. -/
def TermSort.alphaEquivalent : TermSort → TermSort → Bool
  | .kind, .kind => true
  | .term l, .term r => l.alphaEquivalent r
  | _, _ => false

theorem TermSort.alphaEquivalent_of_reading {S S' : TermSort}
    (h : S.namelessIn Valuation.free = S'.namelessIn Valuation.free) :
    S.alphaEquivalent S' = true := by
  cases S with
  | kind =>
    rw [Environment.eq_of_reading Valuation.isNaming_free Valuation.isNaming_free (Or.inl rfl) h]
    rfl
  | term l =>
    obtain ⟨r, rfl, hr⟩ := Environment.exists_term_of_reading h
    rw [alphaEquivalent, Term.alphaEquivalent_iff_nameless, Term.nameless_eq_namelessIn,
      Term.nameless_eq_namelessIn, hr]

/-- **Sorting does not depend on bound names.** In a validated environment, if a term is given a
sort then every term that differs in bound names only is given the same sort up to bound names, with
the same bound, or is refused because it binds a variable that is already declared. -/
theorem Environment.sortOf_alpha_invariant (fuel fuel' : Nat) (env : Environment) (t u : Term)
    (S : TermSort) (henv : env.validate fuel = ok ()) (htu : t.alphaEquivalent u = true)
    (h : env.sortOf fuel' t = ok S) :
    (∃ S', env.sortOf fuel' u = ok S' ∧ S.alphaEquivalent S' = true) ∨
      ∃ e x, env.sortOf fuel' u = fail e ∧ e.root = .redeclaredVariable x := by
  have hreads := (isAdmissible_of_validate henv).reads
  have hread : t.namelessIn Valuation.free = u.namelessIn Valuation.free := by
    rw [← Term.nameless_eq_namelessIn, ← Term.nameless_eq_namelessIn]
    exact (Term.alphaEquivalent_iff_nameless t u).mp htu
  have halike := sortOf_of_reads hreads hreads hread S h
  cases ho : env.sortOf fuel' u with
  | ok S' =>
    rw [ho] at halike
    exact Or.inl ⟨S', rfl, TermSort.alphaEquivalent_of_reading halike⟩
  | fail e =>
    rw [ho] at halike
    obtain ⟨x, hx⟩ := halike
    exact Or.inr ⟨e, x, rfl, hx⟩
  | exhausted =>
    rw [ho] at halike
    exact halike.elim

namespace Environment

/-- The identity on vectors of every length, `λ n : nat, λ u : vec n, u`. -/
def vectorIdentity (n u : Variable) : Term :=
  .lam n (.const ⟨"nat"⟩) (.lam u (.app (.const ⟨"vec"⟩) (.var n)) (.var u))

/-- Its sort, `Π n : nat, Π u : vec n, vec n`. -/
def vectorIdentitySort (n u : Variable) : TermSort :=
  .term (.pi n (.const ⟨"nat"⟩)
    (.pi u (.app (.const ⟨"vec"⟩) (.var n)) (.app (.const ⟨"vec"⟩) (.var n))))

/-- With its two names swapped the identity has the same sort up to bound names, and with one name
for both variables it is refused. -/
theorem sortOf_alpha_invariant_vectors :
    vectors.validate 20 = ok () ∧
      vectors.sortOf 20 (vectorIdentity ⟨"n"⟩ ⟨"u"⟩) = ok (vectorIdentitySort ⟨"n"⟩ ⟨"u"⟩) ∧
      vectors.sortOf 20 (vectorIdentity ⟨"u"⟩ ⟨"n"⟩) = ok (vectorIdentitySort ⟨"u"⟩ ⟨"n"⟩) ∧
      (vectorIdentitySort ⟨"n"⟩ ⟨"u"⟩).alphaEquivalent (vectorIdentitySort ⟨"u"⟩ ⟨"n"⟩) = true ∧
      ∃ e x, vectors.sortOf 20 (vectorIdentity ⟨"u"⟩ ⟨"u"⟩) = fail e ∧
        e.root = .redeclaredVariable x := by
  have hvalid : vectors.validate 20 = ok () := by decide +kernel
  have hsort : vectors.sortOf 20 (vectorIdentity ⟨"n"⟩ ⟨"u"⟩) =
      ok (vectorIdentitySort ⟨"n"⟩ ⟨"u"⟩) := by decide +kernel
  have hswapped : vectors.sortOf 20 (vectorIdentity ⟨"u"⟩ ⟨"n"⟩) =
      ok (vectorIdentitySort ⟨"u"⟩ ⟨"n"⟩) := by decide +kernel
  have hshadowed : ∀ S, vectors.sortOf 20 (vectorIdentity ⟨"u"⟩ ⟨"u"⟩) ≠ ok S := by
    have hfail : vectors.sortOf 20 (vectorIdentity ⟨"u"⟩ ⟨"u"⟩) =
        fail (.within (vectorIdentity ⟨"u"⟩ ⟨"u"⟩)
          (.within (.lam ⟨"u"⟩ (.app (.const ⟨"vec"⟩) (.var ⟨"u"⟩)) (.var ⟨"u"⟩))
            (.redeclaredVariable ⟨"u"⟩))) := by decide +kernel
    simp [hfail]
  refine ⟨hvalid, hsort, hswapped, ?_, ?_⟩
  · obtain ⟨S, hS, hα⟩ | ⟨e, x, he, _⟩ :=
      sortOf_alpha_invariant 20 20 vectors _ (vectorIdentity ⟨"u"⟩ ⟨"n"⟩) _ hvalid
        (by decide +kernel) hsort
    · cases hswapped.symm.trans hS
      exact hα
    · cases hswapped.symm.trans he
  · refine (sortOf_alpha_invariant 20 20 vectors _ (vectorIdentity ⟨"u"⟩ ⟨"u"⟩) _ hvalid
      (by decide +kernel) hsort).resolve_left ?_
    rintro ⟨S, hS, _⟩
    exact hshadowed S hS

end Environment

end LogicalFramework

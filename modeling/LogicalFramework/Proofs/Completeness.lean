import LogicalFramework.Proofs.Termination
import LogicalFramework.Proofs.TypedComparison

/-!
# Completeness of sorting

A well-sorted term is given its sort, in a validated environment and with a bound that is large
enough, unless one of its binders binds a variable that is declared already. There, sorting refuses
the term, and for no other reason. The typing rules are about terms up to bound names, so they have
nothing to say about this.

* `Environment.settles_of_hasSort` — by induction on the term, with strong normalization for the
  reductions on the way and the completeness of the convertibility test for the comparisons;
* `Environment.sortOf_sort_accepted` — the sort of a term is given a sort itself, with the same
  exception;
* `Environment.check_sortOf` — a term checks against its own sort.
-/

namespace LogicalFramework

open Filter Outcome

/-! ## Binders of declared variables -/

/-- Whether a binder binds a variable that is `declared` or is bound by a binder around it. -/
def Term.rebinds (declared : Variable → Bool) : Term → Bool
  | app h a => h.rebinds declared || a.rebinds declared
  | bind _ x A s =>
    declared x || A.rebinds declared || s.rebinds fun y => decide (x = y) || declared y
  | _ => false

theorem Environment.contains_extend (env : Environment) (x : Variable) (A : Term) :
    (env.extend x A).context.contains = fun y => decide (x = y) || env.context.contains y := by
  funext y
  rw [extend, Bindings.contains, Bindings.lookup_add]
  by_cases hxy : x = y
  · simp [hxy]
  · simp [hxy, Bindings.contains]

/-! ## Normal sorts -/

variable {sig : Signature} {metas : MetaContext} {Γ : Locals}

/-- A family or a kind without a redex is rigid. -/
theorem IsFamilyOrKind.isRigid {T : Nameless} (h : IsFamilyOrKind sig metas Γ T)
    (hT : T.IsNormal) : T.IsRigid := by
  obtain ⟨S, hS, hTS⟩ := h
  exact ⟨hTS.isLambda_eq_false hS, hT.isWeakHeadNormal⟩

namespace Term

/-- A family or a kind without a redex that is convertible to `Type` is `Type`. -/
theorem eq_type_of_convertible {T : Term} (hT : T.IsNormal)
    (hfamily : IsFamilyOrKind sig metas Γ T.nameless) (h : Convertible T.nameless .type) :
    T = type := by
  have hrigid := hfamily.isRigid ((isNormal_nameless T).mpr hT)
  have hparts := h.samePartsUpTo hrigid ⟨rfl, trivial⟩
  cases T with
  | type => rfl
  | bind q x A s =>
    rw [nameless_bind] at hparts
    cases hparts
  | _ => cases hparts

/-- A family or a kind without a redex that is convertible to a product is a product. -/
theorem exists_pi_of_convertible {T : Term} {A B : Nameless} (hT : T.IsNormal)
    (hfamily : IsFamilyOrKind sig metas Γ T.nameless) (h : Convertible T.nameless (.pi A B)) :
    ∃ x C D, T = pi x C D := by
  have hrigid := hfamily.isRigid ((isNormal_nameless T).mpr hT)
  have hparts := h.samePartsUpTo hrigid ⟨rfl, trivial⟩
  cases T with
  | bind q x C D =>
    rw [nameless_bind] at hparts
    cases hparts
    exact ⟨x, C, D, rfl⟩
  | _ => cases hparts

/-- Families and kinds without a redex that are convertible are found equal. -/
theorem equal_eventually {l r : Term} (hl : l.IsNormal) (hr : r.IsNormal)
    (hΓ : Admissible sig metas Γ) (hlfamily : IsFamilyOrKind sig metas Γ l.nameless)
    (hrfamily : IsFamilyOrKind sig metas Γ r.nameless)
    (h : Convertible l.nameless r.nameless) : ∀ᶠ fuel in atTop, l.equal fuel r = some true := by
  obtain ⟨S, hS, hlS⟩ := hlfamily
  obtain ⟨S', hS', hrS'⟩ := hrfamily
  obtain ⟨same, hsame⟩ := exists_equal hl hr
  filter_upwards [hsame] with fuel hfuel
  rw [hfuel, equal_of_convertible hΓ hlS hrS' (Or.inr ⟨hS, hS'⟩) h hfuel]

end Term

/-! ## Opening the scope of a binder -/

/-- A renaming that is undone by another one. -/
theorem Nameless.rename_rename_of_inverse (t : Nameless) {ρ τ : Name → Name}
    (h : ∀ n, τ (ρ n) = n) : (t.rename ρ).rename τ = t := by
  have hid : (fun n => name ((τ ∘ ρ) n)) = name := funext fun n => congrArg name (h n)
  rw [rename_rename, rename_eq_subst, hid, subst_name]

/-- The renaming that frees the variable of a binder as `x`. It undoes binding `x`, and it undoes
going under the binder. -/
def Name.reopen (x : Variable) : Name → Name :=
  under (.free x) id

theorem Name.reopen_close (x : Variable) (n : Name) : Name.reopen x (.close x n) = n := by
  rw [Name.reopen, close]
  split
  · rename_i hn
    rw [under_zero, hn]
  · rw [under_succ, id]

theorem Name.reopen_succ (x : Variable) (n : Name) : Name.reopen x n.succ = n :=
  under_succ _ _ n

namespace Environment

variable {env : Environment} {fuel : Nat}

/-- A derivation for the scope of a binder is one with the variable of the binder declared. -/
theorem hasSort_open {x : Variable} {A s : Term} {S : NamelessSort}
    (hx : env.context.contains x = false)
    (hs : HasSort env.signature env.metas (env.locals.push A.nameless)
      (s.nameless.rename (.close x)) S) :
    HasSort env.signature env.metas (env.extend x A).locals s.nameless
      (S.rename (Name.reopen x)) := by
  have hopen := hs.rename (Δ := (env.extend x A).locals) (ρ := Name.reopen x) ?_
  · rw [Nameless.rename_rename_of_inverse _ (Name.reopen_close x)] at hopen
    exact hopen
  · constructor
    · intro y _
      rfl
    · intro n B hn
      rcases Locals.push_cases hn with ⟨rfl, rfl⟩ | ⟨m, C, rfl, hm, rfl⟩
      · rw [Nameless.shift, Nameless.rename_rename_of_inverse _ (Name.reopen_succ x)]
        exact locals_extend_self env x A
      · rw [Nameless.shift, Nameless.rename_rename_of_inverse _ (Name.reopen_succ x),
          Name.reopen_succ, locals_extend_of_ne env A (ne_free_of_locals hx hm), hm]

/-! ## Parts that have been sorted -/

/-- Sorting an application comes down to sorting its argument, once its head is known to be a
function. -/
theorem sortOf_app_of_pi {f a F A B : Term} {x : Variable} (hf : env.sortOf fuel f = ok (.term F))
    (hF : F.whnf fuel = some (.pi x A B)) :
    env.sortOf fuel (.app f a) = mapFail (.within (.app f a)) (do
      expectSort fuel a (.term A) (← env.sortOf fuel a)
      ofOption ((TermSort.term (B.subst x a)).normalForm fuel)) := by
  have hpi : expectPi fuel f (.term F) = ok (x, A, B) := by
    rw [expectPi, hF]
    rfl
  rw [sortOf, hf]
  show mapFail _ (expectPi fuel f (.term F) >>= _) = _
  rw [hpi]
  rfl

/-- The sort of a binder whose scope has the sort `S`. -/
def sortOfBinder (fuel : Nat) (q : Binder) (x : Variable) (A s : Term) (S : TermSort) :
    Outcome SortError TermSort :=
  match q with
  | .pi => do
    expectFamilyOrKind fuel s S
    ofOption (S.normalForm fuel)
  | .lam => do
    let B ← expectObjectOrFamily s S
    ofOption ((TermSort.term (.pi x A B)).normalForm fuel)

/-- Sorting a binder comes down to sorting its scope, once its variable is known to be new and to
have a type. -/
theorem sortOf_bind_of_type {q : Binder} {x : Variable} {A s : Term}
    (hx : env.context.contains x = false) (hA : env.sortOf fuel A = ok .type)
    (htype : Term.type.equal fuel .type = some true) :
    env.sortOf fuel (.bind q x A s) = mapFail (.within (.bind q x A s))
      ((env.extend x A).sortOf fuel s >>= sortOfBinder fuel q x A s) := by
  have hexpect : expectSort fuel A .type .type = ok () := by
    rw [expectSort, require_eq_ok_iff]
    exact htype
  rw [sortOf, if_neg (by simp [hx]), hA]
  show mapFail _ (expectSort fuel A .type .type >>= _) = _
  rw [hexpect]
  cases q <;> rfl

/-! ## Completeness -/

/-- What becomes of sorting a term if the bound is large enough: the term is given a sort, or it is
refused because a binder binds a declared variable. -/
inductive Settles (env : Environment) (t : Term) : Prop where
  | sorted (S : TermSort) (ht : t.rebinds env.context.contains = false)
      (h : ∀ᶠ fuel in atTop, env.sortOf fuel t = ok S)
  | refused (e : SortError) (x : Variable) (ht : t.rebinds env.context.contains = true)
      (he : e.root = .redeclaredVariable x) (h : ∀ᶠ fuel in atTop, env.sortOf fuel t = fail e)

/-- The sort that is given to a term whose sort is a term `A` is a normal form of `A`. -/
theorem sorted_spec (henv : env.IsAdmissible) {t : Term} {A : Nameless} {S : TermSort}
    (ht : HasSort env.signature env.metas env.locals t.nameless (.term A))
    (h : ∀ᶠ fuel in atTop, env.sortOf fuel t = ok S) :
    ∃ T, S = .term T ∧ T.IsNormal ∧ env.Derives t (.term T) ∧
      IsFamilyOrKind env.signature env.metas env.locals T.nameless ∧ Convertible T.nameless A := by
  obtain ⟨fuel, hfuel⟩ := h.exists
  have hderives := derives_of_sortOf henv hfuel
  have hconv := HasSort.unique hderives ht
  cases S with
  | kind => cases hconv
  | term T =>
    cases hconv with
    | term hTA =>
      exact ⟨T, rfl, sortOf_isNormal hfuel, hderives, hderives.isFamilyOrKind henv rfl, hTA⟩

/-- The sort that is given to a family is `Type`, and that to a kind is `Kind`. -/
theorem sorted_eq_type_or_kind (henv : env.IsAdmissible) {t : Term} {R : NamelessSort}
    (hR : R.ClassifiesFamilyOrKind)
    (ht : HasSort env.signature env.metas env.locals t.nameless R) {S : TermSort}
    (h : ∀ᶠ fuel in atTop, env.sortOf fuel t = ok S) : S = .type ∨ S = .kind := by
  rcases hR with rfl | rfl
  · obtain ⟨T, rfl, hT, _, hfamily, htype⟩ := sorted_spec henv ht h
    exact Or.inl (congrArg TermSort.term (Term.eq_type_of_convertible hT hfamily htype))
  · obtain ⟨fuel, hfuel⟩ := h.exists
    have hconv := HasSort.unique (derives_of_sortOf henv hfuel) ht
    cases S with
    | kind => exact Or.inr rfl
    | term T => cases hconv

theorem type_equal_eventually : ∀ᶠ fuel in atTop, Term.type.equal fuel .type = some true :=
  eventually_atTop.mpr ⟨2, fun fuel hle => by
    obtain ⟨k, rfl⟩ := Nat.exists_eq_add_of_le hle
    rw [Nat.add_comm]
    rfl⟩

theorem Settles.app (henv : env.IsAdmissible) (hlayered : env.IsLayered) {f a : Term}
    {A B : Nameless} (hf : HasSort env.signature env.metas env.locals f.nameless (.term (.pi A B)))
    (ha : HasSort env.signature env.metas env.locals a.nameless (.term A))
    (hfsettles : env.Settles f) (hasettles : env.Settles a) : env.Settles (.app f a) := by
  cases hfsettles with
  | refused e x hre he h =>
    refine .refused (.within (.app f a) e) x (by rw [Term.rebinds, hre]; rfl) he ?_
    filter_upwards [h] with fuel hfuel
    rw [sortOf, hfuel]
    rfl
  | sorted F hre hF =>
    obtain ⟨F, rfl, hFnormal, hFderives, hFfamily, hFpi⟩ := sorted_spec henv hf hF
    obtain ⟨x, C, D, rfl⟩ := Term.exists_pi_of_convertible hFnormal hFfamily hFpi
    have hwhnf := hFnormal.whnf_eventually
    cases hasettles with
    | refused e y hre' he h =>
      refine .refused (.within (.app f a) e) y (by rw [Term.rebinds, hre, hre']; rfl) he ?_
      filter_upwards [hF, hwhnf, h] with fuel hF hwhnf hfuel
      rw [sortOf_app_of_pi hF hwhnf, hfuel]
      rfl
    | sorted S hre' hS =>
      obtain ⟨A', rfl, hA'normal, hA'derives, hA'family, hA'A⟩ := sorted_spec henv ha hS
      rw [Derives, TermSort.nameless, Term.nameless_bind] at hFderives
      rw [Term.nameless_bind] at hFfamily hFpi
      -- The domain is a type, and the sort of the argument is convertible to it.
      obtain ⟨U, _, hU⟩ := hFfamily
      have hC := hU.pi_inv.1
      have hA'C := hA'A.trans hFpi.pi_inj.1.symm
      have hequal := Term.equal_eventually hA'normal hFnormal.1 henv hA'family ⟨_, Or.inl rfl, hC⟩
        hA'C
      have harg : env.Derives a (.term C) := HasSort.conv hA'derives hC (Or.inl rfl) hA'C
      -- The codomain for the argument is well-sorted, so it has a normal form.
      obtain ⟨V, _, hV⟩ := hFderives.codomain_isFamilyOrKind harg henv
      rw [Term.instantiate_close_nameless] at hV
      obtain ⟨T, hT⟩ := Term.exists_normalForm (hV.terminates hlayered)
      refine .sorted (.term T) (by rw [Term.rebinds, hre, hre']; rfl) ?_
      filter_upwards [hF, hwhnf, hS, hequal, hT] with fuel hF hwhnf hS hequal hT
      rw [sortOf_app_of_pi hF hwhnf, hS]
      show mapFail _ (expectSort fuel a (.term C) (.term A') >>= _) = _
      rw [expectSort, TermSort.equal, hequal, TermSort.normalForm, hT]
      rfl

/-- What a well-sorted atom has as its sort is well-sorted, so that it is given a normal form. -/
theorem Settles.atom (hlayered : env.IsLayered) {t A : Term}
    (ht : t.rebinds env.context.contains = false)
    (hA : IsFamilyOrKind env.signature env.metas env.locals A.nameless)
    (h : ∀ fuel, env.sortOf fuel t = ofOption ((TermSort.term A).normalForm fuel)) :
    env.Settles t := by
  obtain ⟨S, _, hS⟩ := hA
  obtain ⟨T, hT⟩ := Term.exists_normalForm (hS.terminates hlayered)
  refine .sorted (.term T) ht ?_
  filter_upwards [hT] with fuel hfuel
  rw [h, TermSort.normalForm, hfuel]
  rfl

/-- A binder is settled by its type and its scope, if the sort of the scope is admitted. -/
theorem Settles.bind (henv : env.IsAdmissible) {q : Binder} {x : Variable} {A s : Term}
    (hA : env.Derives A .type) (hAsettles : env.Settles A)
    (hssettles : env.context.contains x = false → (env.extend x A).Settles s)
    (hbinder : env.context.contains x = false → ∀ S,
      (∀ᶠ fuel in atTop, (env.extend x A).sortOf fuel s = ok S) →
      ∃ S', ∀ᶠ fuel in atTop, sortOfBinder fuel q x A s S = ok S') :
    env.Settles (.bind q x A s) := by
  by_cases hx : env.context.contains x = true
  · refine .refused (.within (.bind q x A s) (.redeclaredVariable x)) x
      (by rw [Term.rebinds, hx]; rfl) rfl (.of_forall fun fuel => ?_)
    rw [sortOf, if_pos hx]
    rfl
  rw [Bool.not_eq_true] at hx
  cases hAsettles with
  | refused e y hre he h =>
    refine .refused (.within (.bind q x A s) e) y (by rw [Term.rebinds, hx, hre]; rfl) he ?_
    filter_upwards [h] with fuel hfuel
    rw [sortOf, if_neg (by simp [hx]), hfuel]
    rfl
  | sorted K hre hK =>
    obtain ⟨K, rfl, hKnormal, _, hKfamily, hKtype⟩ := sorted_spec henv hA hK
    obtain rfl := Term.eq_type_of_convertible hKnormal hKfamily hKtype
    have hs := hssettles hx
    have hrebinds : (Term.bind q x A s).rebinds env.context.contains =
        s.rebinds (env.extend x A).context.contains := by
      rw [Term.rebinds, hx, hre, contains_extend]
      rfl
    cases hs with
    | refused e y hre' he h =>
      refine .refused (.within (.bind q x A s) e) y (hrebinds.trans hre') he ?_
      filter_upwards [hK, type_equal_eventually, h] with fuel hK htype hfuel
      rw [sortOf_bind_of_type hx hK htype, hfuel]
      rfl
    | sorted S hre' hS =>
      obtain ⟨S', hS'⟩ := hbinder hx S hS
      refine .sorted S' (hrebinds.trans hre') ?_
      filter_upwards [hK, type_equal_eventually, hS, hS'] with fuel hK htype hS hS'
      rw [sortOf_bind_of_type hx hK htype, hS]
      show mapFail _ (sortOfBinder fuel q x A s S) = _
      rw [hS']
      rfl

/-- A product whose scope is given a sort is given a sort. -/
theorem exists_sortOfBinder_pi (henv : env.IsAdmissible) {x : Variable} {A s : Term}
    {R : NamelessSort} (hR : R.ClassifiesFamilyOrKind)
    (hs : HasSort env.signature env.metas env.locals s.nameless R) {S : TermSort}
    (h : ∀ᶠ fuel in atTop, env.sortOf fuel s = ok S) :
    ∃ S', ∀ᶠ fuel in atTop, sortOfBinder fuel .pi x A s S = ok S' := by
  rcases sorted_eq_type_or_kind henv hR hs h with rfl | rfl
  · refine ⟨.type, ?_⟩
    filter_upwards [type_equal_eventually, eventually_ge_atTop 1] with fuel hequal hpos
    obtain ⟨k, rfl⟩ := Nat.exists_eq_add_of_le hpos
    rw [sortOfBinder, expectFamilyOrKind, TermSort.type, TermSort.classifiesFamilyOrKind, hequal,
      Nat.add_comm]
    rfl
  · exact ⟨.kind, .of_forall fun _ => rfl⟩

/-- An abstraction whose scope is given a sort that is a term is given a sort. -/
theorem exists_sortOfBinder_lam (henv : env.IsAdmissible) (hlayered : env.IsLayered)
    {x : Variable} {A s : Term} (hx : env.context.contains x = false) (hA : env.Derives A .type)
    {B : Nameless}
    (hs : HasSort env.signature env.metas (env.extend x A).locals s.nameless (.term B))
    {S : TermSort} (h : ∀ᶠ fuel in atTop, (env.extend x A).sortOf fuel s = ok S) :
    ∃ S', ∀ᶠ fuel in atTop, sortOfBinder fuel .lam x A s S = ok S' := by
  obtain ⟨T, rfl, _, hderives, _, _⟩ := sorted_spec (henv.extend hx hA) hs h
  -- The product of the sort is the sort of the abstraction, so it is well-sorted.
  have hlam := HasSort.lam hA (henv.close hx hA hderives)
  obtain ⟨U, _, hpi⟩ := hlam.isFamilyOrKind henv rfl
  have hterminates : (Term.pi x A T).nameless.Terminates := by
    rw [Term.nameless_bind]
    exact hpi.terminates hlayered
  obtain ⟨T', hT'⟩ := Term.exists_normalForm hterminates
  refine ⟨.term T', ?_⟩
  filter_upwards [hT'] with fuel hfuel
  show ofOption ((TermSort.term (.pi x A T)).normalForm fuel) = _
  rw [TermSort.normalForm, hfuel]
  rfl

/-- **Completeness of sorting.** A well-sorted term is given a sort, unless one of its binders binds
a variable that is declared already, and then it is refused for this reason. -/
theorem settles_of_hasSort (henv : env.IsAdmissible) (hlayered : env.IsLayered) {t : Term}
    {S : NamelessSort} (h : HasSort env.signature env.metas env.locals t.nameless S) :
    env.Settles t := by
  induction t generalizing env S with
  | type => exact .sorted .kind rfl (.of_forall fun _ => rfl)
  | const c =>
    obtain ⟨_, hformed, _⟩ := h.formed
    cases hformed with
    | const hc =>
      refine .atom hlayered rfl (henv.global _ (Or.inl ⟨_, hc⟩)) fun fuel => ?_
      rw [sortOf, hc]
      rfl
  | var x =>
    rw [Term.nameless_var] at h
    obtain ⟨_, hformed, _⟩ := h.formed
    cases hformed with
    | name hx =>
      have hdeclared := hx
      rw [locals, Option.map_eq_some_iff] at hx
      obtain ⟨A, hA, rfl⟩ := hx
      refine .atom hlayered rfl (henv.declared _ _ hdeclared) fun fuel => ?_
      rw [sortOf, hA]
      rfl
  | metaVar m =>
    obtain ⟨_, hformed, _⟩ := h.formed
    cases hformed with
    | metaVar hm =>
      refine .atom hlayered rfl (henv.global _ (Or.inr ⟨_, hm⟩)) fun fuel => ?_
      rw [sortOf, hm]
      rfl
  | app f a ihf iha =>
    obtain ⟨_, hformed, _⟩ := h.formed
    cases hformed with
    | app hf ha => exact .app henv hlayered hf ha (ihf henv hlayered hf) (iha henv hlayered ha)
  | bind q x A s ihA ihs =>
    rw [Term.nameless_bind] at h
    obtain ⟨_, hformed, _⟩ := h.formed
    cases hformed with
    | pi hA hs hS =>
      refine .bind henv hA (ihA henv hlayered hA) (fun hx => ?_) fun hx R hR => ?_
      · exact ihs (henv.extend hx hA) (hlayered.extend x (hA.layered hlayered).1)
          (hasSort_open hx hs)
      · have hscope := hasSort_open hx hs
        rw [hS.rename_eq] at hscope
        exact exists_sortOfBinder_pi (henv.extend hx hA) hS hscope hR
    | lam hA hs =>
      refine .bind henv hA (ihA henv hlayered hA) (fun hx => ?_) fun hx R hR => ?_
      · exact ihs (henv.extend hx hA) (hlayered.extend x (hA.layered hlayered).1)
          (hasSort_open hx hs)
      · exact exists_sortOfBinder_lam henv hlayered hx hA (hasSort_open hx hs) hR

/-! ## Sorts of accepted terms -/

/-- The sort of an accepted term is a family or a kind. -/
theorem isFamilyOrKind_of_sortOf (henv : env.IsAdmissible) {t T : Term}
    (h : env.sortOf fuel t = ok (.term T)) :
    IsFamilyOrKind env.signature env.metas env.locals T.nameless :=
  (derives_of_sortOf henv h).isFamilyOrKind henv rfl

/-- **Sorts of accepted terms are accepted unless their names clash.** In a validated environment,
the sort of an accepted term is given the sort `Type` or `Kind`, unless one of its binders binds a
variable of the context or of a binder around it. Then it is refused, for this reason. -/
theorem sortOf_sort_accepted (fuel fuel' : Nat) (env : Environment) (t T : Term)
    (henv : env.validate fuel = ok ()) (h : env.sortOf fuel' t = ok (.term T)) :
    (T.rebinds env.context.contains = false → ∃ S, (S = .type ∨ S = .kind) ∧
      ∃ bound, ∀ n, bound ≤ n → env.sortOf n T = ok S) ∧
    (T.rebinds env.context.contains = true → ∃ e x, e.root = .redeclaredVariable x ∧
      ∃ bound, ∀ n, bound ≤ n → env.sortOf n T = fail e) := by
  have hadmissible := isAdmissible_of_validate henv
  obtain ⟨R, hR, hT⟩ := isFamilyOrKind_of_sortOf hadmissible h
  cases settles_of_hasSort hadmissible (isLayered_of_validate henv) hT with
  | sorted S hre hS =>
    refine ⟨fun _ => ⟨S, sorted_eq_type_or_kind hadmissible hR hT hS, eventually_atTop.mp hS⟩, ?_⟩
    intro hre'
    rw [hre] at hre'
    exact absurd hre' (by simp)
  | refused e x hre he hfail =>
    refine ⟨fun hre' => ?_, fun _ => ⟨e, x, he, eventually_atTop.mp hfail⟩⟩
    rw [hre] at hre'
    exact absurd hre' (by simp)

/-- A predicate `good` on the functions from a type `a` to itself, and a proof `best` that the
identity is good. The name `x` is bound in the sort of `best`. -/
def functions : Environment where
  signature := ⟨[(.constant ⟨"best"⟩, .app (.const ⟨"good"⟩)
      (.lam ⟨"x"⟩ (.const ⟨"a"⟩) (.var ⟨"x"⟩))),
    (.constant ⟨"good"⟩, .pi ⟨"f"⟩ (.pi ⟨"x"⟩ (.const ⟨"a"⟩) (.const ⟨"a"⟩)) .type),
    (.constant ⟨"a"⟩, .type)]⟩
  context := .empty
  metas := .empty

/-- The sort `good (λ x : a, x)` of `best` is accepted. The sort `Π x : a, good (λ x : a, x)` of
`λ x : a, best` is not. -/
theorem sortOf_sort_accepted_functions :
    functions.validate 20 = ok () ∧
      (∃ T, functions.sortOf 20 (.const ⟨"best"⟩) = ok (.term T) ∧
        ∃ S, (S = .type ∨ S = .kind) ∧ ∃ bound, ∀ n, bound ≤ n → functions.sortOf n T = ok S) ∧
      ∃ T, functions.sortOf 20 (.lam ⟨"x"⟩ (.const ⟨"a"⟩) (.const ⟨"best"⟩)) = ok (.term T) ∧
        ∃ e x, e.root = .redeclaredVariable x ∧
          ∃ bound, ∀ n, bound ≤ n → functions.sortOf n T = fail e := by
  have hvalid : functions.validate 20 = ok () := by decide +kernel
  have hbest : functions.sortOf 20 (.const ⟨"best"⟩) = ok (.term (.app (.const ⟨"good"⟩)
      (.lam ⟨"x"⟩ (.const ⟨"a"⟩) (.var ⟨"x"⟩)))) := by decide +kernel
  have hlam : functions.sortOf 20 (.lam ⟨"x"⟩ (.const ⟨"a"⟩) (.const ⟨"best"⟩)) =
      ok (.term (.pi ⟨"x"⟩ (.const ⟨"a"⟩) (.app (.const ⟨"good"⟩)
        (.lam ⟨"x"⟩ (.const ⟨"a"⟩) (.var ⟨"x"⟩))))) := by decide +kernel
  exact ⟨hvalid, ⟨_, hbest, (sortOf_sort_accepted 20 20 _ _ _ hvalid hbest).1 (by decide +kernel)⟩,
    _, hlam, (sortOf_sort_accepted 20 20 _ _ _ hvalid hlam).2 (by decide +kernel)⟩

/-- A variable `x` of a type `a`, beside a constant in whose sort the name `x` is bound. -/
def clash : Environment where
  signature := ⟨[(.constant ⟨"next"⟩, .pi ⟨"x"⟩ (.const ⟨"a"⟩) (.const ⟨"a"⟩)),
    (.constant ⟨"a"⟩, .type)]⟩
  context := ⟨[(⟨"x"⟩, .const ⟨"a"⟩)]⟩
  metas := .empty

/-- The constant `next` is accepted and its sort `Π x : a, a` is refused, whatever the bound. -/
theorem sortOf_sort_refused_clash :
    clash.validate 20 = ok () ∧
      clash.sortOf 20 (.const ⟨"next"⟩) =
        ok (.term (.pi ⟨"x"⟩ (.const ⟨"a"⟩) (.const ⟨"a"⟩))) ∧
      ∀ fuel S, clash.sortOf fuel (.pi ⟨"x"⟩ (.const ⟨"a"⟩) (.const ⟨"a"⟩)) ≠ ok S := by
  refine ⟨by decide +kernel, by decide +kernel, fun fuel S h => ?_⟩
  obtain ⟨hx, _⟩ := sortOf_bind h
  exact absurd hx (by decide +kernel)

/-- **An accepted term checks against its own sort**, in a validated environment. -/
theorem check_sortOf (fuel fuel' : Nat) (env : Environment) (t : Term) (S : TermSort)
    (henv : env.validate fuel = ok ()) (h : env.sortOf fuel' t = ok S) :
    ∃ bound, ∀ n, bound ≤ n → env.check n t S = ok () := by
  have hadmissible := isAdmissible_of_validate henv
  have hequal : ∀ᶠ n in atTop, S.equal n S = some true := by
    cases S with
    | kind => exact .of_forall fun _ => rfl
    | term T =>
      have hT := sortOf_isNormal h
      have hfamily := isFamilyOrKind_of_sortOf hadmissible h
      exact Term.equal_eventually hT hT hadmissible hfamily hfamily (.refl _)
  apply eventually_atTop.mp
  filter_upwards [hequal, eventually_ge_atTop fuel'] with n hequal hle
  rw [check, (sortOf_kept hle env t).eq_ok h]
  show expectSort n t S S = ok ()
  rw [expectSort, require_eq_ok_iff]
  exact hequal

/-- The identity on vectors of length `m v` checks against its sort, a product, and the kind of
vectors against `Kind`. -/
theorem check_sortOf_vectors :
    vectors.validate 20 = ok () ∧
      (∃ T, vectors.sortOf 20 (.lam ⟨"u"⟩ (.app (.const ⟨"vec"⟩)
          (.app (.metaVar ⟨"m"⟩) (.var ⟨"v"⟩))) (.var ⟨"u"⟩)) = ok (.term T) ∧
        ∃ bound, ∀ n, bound ≤ n → vectors.check n (.lam ⟨"u"⟩ (.app (.const ⟨"vec"⟩)
          (.app (.metaVar ⟨"m"⟩) (.var ⟨"v"⟩))) (.var ⟨"u"⟩)) (.term T) = ok ()) ∧
      ∃ bound, ∀ n, bound ≤ n →
        vectors.check n (.pi ⟨"n"⟩ (.const ⟨"nat"⟩) .type) .kind = ok () := by
  have hvalid : vectors.validate 20 = ok () := by decide +kernel
  have hidentity : vectors.sortOf 20 (.lam ⟨"u"⟩ (.app (.const ⟨"vec"⟩)
      (.app (.metaVar ⟨"m"⟩) (.var ⟨"v"⟩))) (.var ⟨"u"⟩)) =
      ok (.term (.pi ⟨"u"⟩ (.app (.const ⟨"vec"⟩) (.app (.metaVar ⟨"m"⟩) (.var ⟨"v"⟩)))
        (.app (.const ⟨"vec"⟩) (.app (.metaVar ⟨"m"⟩) (.var ⟨"v"⟩))))) := by decide +kernel
  have hkind : vectors.sortOf 20 (.pi ⟨"n"⟩ (.const ⟨"nat"⟩) .type) = ok .kind := by decide +kernel
  exact ⟨hvalid, ⟨_, hidentity, check_sortOf 20 20 _ _ _ hvalid hidentity⟩,
    check_sortOf 20 20 _ _ _ hvalid hkind⟩

end Environment

end LogicalFramework

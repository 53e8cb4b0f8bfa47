import LogicalFramework.Proofs.Completeness

/-!
# Sorting answers

Sorting takes a bound, and has neither an answer nor a failure if the bound is used up. In a
validated environment this does not happen once the bound is large enough, whatever the term is.
The reductions on the way are of sorts, and every sort that is reached is well-sorted, because a
sort is reduced only after everything it was made from has been accepted.

* `Outcome.Answers` — that the outcome is settled for all large enough bounds, and how it is settled
  for a computation from its parts;
* `Environment.answers_sortOf` — sorting is settled, by induction on the term;
* `Environment.sortOf_decides` — every term is given a sort or a failure.
-/

namespace LogicalFramework

open Filter Outcome

/-! ## Outcomes that are settled -/

/-- That a bounded computation has one answer, or one failure, for all large enough bounds. -/
def Outcome.Answers {ε α : Type} (f : Nat → Outcome ε α) : Prop :=
  ∃ o, o ≠ exhausted ∧ ∀ᶠ fuel in atTop, f fuel = o

namespace Outcome.Answers

variable {ε ε' α β : Type}

theorem of_ok {f : Nat → Outcome ε α} {a : α} (h : ∀ᶠ fuel in atTop, f fuel = ok a) :
    Answers f :=
  ⟨ok a, by simp, h⟩

theorem of_fail {f : Nat → Outcome ε α} {e : ε} (h : ∀ᶠ fuel in atTop, f fuel = fail e) :
    Answers f :=
  ⟨fail e, by simp, h⟩

theorem ok (a : α) : Answers fun _ => (ok a : Outcome ε α) :=
  of_ok (.of_forall fun _ => rfl)

theorem fail (e : ε) : Answers fun _ => (fail e : Outcome ε α) :=
  of_fail (.of_forall fun _ => rfl)

theorem orFail (e : ε) (o : Option α) : Answers fun _ => orFail e o := by
  cases o with
  | none => exact fail e
  | some a => exact ok a

theorem ofOption {f : Nat → Option α} {a : α} (h : ∀ᶠ fuel in atTop, f fuel = some a) :
    Answers fun fuel => (ofOption (f fuel) : Outcome ε α) :=
  of_ok (h.mono fun fuel hfuel => by rw [hfuel]; rfl)

theorem require (e : ε) {f : Nat → Option Bool} {b : Bool}
    (h : ∀ᶠ fuel in atTop, f fuel = some b) : Answers fun fuel => require e (f fuel) := by
  cases b with
  | true => exact of_ok (h.mono fun fuel hfuel => by rw [hfuel]; rfl)
  | false => exact of_fail (h.mono fun fuel hfuel => by rw [hfuel]; rfl)

theorem mapFail (g : ε → ε') {f : Nat → Outcome ε α} (h : Answers f) :
    Answers fun fuel => (f fuel).mapFail g := by
  obtain ⟨o, ho, h⟩ := h
  refine ⟨o.mapFail g, ?_, h.mono fun fuel hfuel => congrArg (Outcome.mapFail g) hfuel⟩
  cases o with
  | ok a => simp [Outcome.mapFail]
  | fail e => simp [Outcome.mapFail]
  | exhausted => exact absurd rfl ho

/-- Two computations, one after the other. The second is settled for the answers that the first one
has for all large enough bounds. -/
theorem bind {f : Nat → Outcome ε α} {g : Nat → α → Outcome ε β} (hf : Answers f)
    (hg : ∀ a, (∀ᶠ fuel in atTop, f fuel = Outcome.ok a) → Answers fun fuel => g fuel a) :
    Answers fun fuel => f fuel >>= g fuel := by
  obtain ⟨o, ho, hf⟩ := hf
  cases o with
  | ok a =>
    obtain ⟨o', ho', hg⟩ := hg a hf
    refine ⟨o', ho', ?_⟩
    filter_upwards [hf, hg] with fuel hf hg
    rw [hf, ← hg]
    rfl
  | fail e => exact of_fail (hf.mono fun fuel hfuel => by rw [hfuel]; rfl)
  | exhausted => exact absurd rfl ho

/-- What is settled is an answer or a failure. -/
theorem cases {f : Nat → Outcome ε α} (h : Answers f) :
    (∃ a bound, ∀ n, bound ≤ n → f n = Outcome.ok a) ∨
      ∃ e bound, ∀ n, bound ≤ n → f n = Outcome.fail e := by
  obtain ⟨o, ho, h⟩ := h
  cases o with
  | ok a => exact Or.inl ⟨a, eventually_atTop.mp h⟩
  | fail e => exact Or.inr ⟨e, eventually_atTop.mp h⟩
  | exhausted => exact absurd rfl ho

end Outcome.Answers

/-! ## Sorts that are reduced and compared -/

namespace TermSort

/-- Whether the sort has no redex. -/
def IsNormal : TermSort → Prop
  | kind => True
  | term T => T.IsNormal

theorem answers_normalForm {ε : Type} {T : Term} (hT : T.nameless.Terminates) :
    Answers fun fuel => (ofOption ((term T).normalForm fuel) : Outcome ε TermSort) := by
  obtain ⟨T', hT'⟩ := Term.exists_normalForm hT
  refine .ofOption (a := term T') (hT'.mono fun fuel hfuel => ?_)
  rw [normalForm, hfuel, Option.map_some]

/-- A sort without a redex is its own normal form. -/
theorem IsNormal.answers_normalForm {ε : Type} {S : TermSort} (hS : S.IsNormal) :
    Answers fun fuel => (ofOption (S.normalForm fuel) : Outcome ε TermSort) := by
  cases S with
  | kind => exact .ok kind
  | term T =>
    have hT : T.nameless.Terminates :=
      ⟨_, fun u hu => absurd hu ((Term.isNormal_nameless T).mpr hS).not_step⟩
    exact TermSort.answers_normalForm hT

/-- The comparison of sorts without a redex answers. -/
theorem IsNormal.exists_equal {S S' : TermSort} (hS : S.IsNormal) (hS' : S'.IsNormal) :
    ∃ same, ∀ᶠ fuel in atTop, S.equal fuel S' = some same := by
  cases S with
  | kind =>
    cases S' with
    | kind => exact ⟨true, .of_forall fun _ => rfl⟩
    | term T => exact ⟨false, .of_forall fun _ => rfl⟩
  | term T =>
    cases S' with
    | kind => exact ⟨false, .of_forall fun _ => rfl⟩
    | term T' => exact Term.exists_equal hS hS'

theorem IsNormal.exists_classifiesFamilyOrKind {S : TermSort} (hS : S.IsNormal) :
    ∃ same, ∀ᶠ fuel in atTop, S.classifiesFamilyOrKind fuel = some same := by
  cases S with
  | kind => exact ⟨true, .of_forall fun _ => rfl⟩
  | term T => exact Term.exists_equal hS (r := .type) trivial

end TermSort

theorem answers_expectSort (t : Term) {S S' : TermSort} (hS : S.IsNormal) (hS' : S'.IsNormal) :
    Answers fun fuel => expectSort fuel t S S' := by
  obtain ⟨same, h⟩ := hS'.exists_equal hS
  exact .require _ h

theorem answers_expectFamilyOrKind (t : Term) {S : TermSort} (hS : S.IsNormal) :
    Answers fun fuel => expectFamilyOrKind fuel t S := by
  obtain ⟨same, h⟩ := hS.exists_classifiesFamilyOrKind
  exact .require _ h

theorem answers_expectPi (t : Term) {S : TermSort} (hS : S.IsNormal) :
    Answers fun fuel => expectPi fuel t S := by
  cases S with
  | kind => exact .fail _
  | term T =>
    refine .bind (.ofOption hS.whnf_eventually) fun T' _ => ?_
    split
    · exact .ok _
    · exact .fail _

namespace Environment

variable {env : Environment}

theorem isNormal_of_sortOf {fuel : Nat} {t : Term} {S : TermSort}
    (h : env.sortOf fuel t = ok S) : S.IsNormal := by
  cases S with
  | kind => trivial
  | term T => exact sortOf_isNormal h

/-- The sort of a sorted function is a product already, since it comes without a redex. -/
theorem eq_pi_of_expectPi {fuel fuel' : Nat} {f : Term} {F : TermSort} {x : Variable} {A B : Term}
    (hf : env.sortOf fuel f = ok F) (hpi : expectPi fuel' f F = ok (x, A, B)) :
    F = .term (.pi x A B) := by
  obtain ⟨T, rfl, hT⟩ := expectPi_eq_ok hpi
  rw [Term.whnf_of_isNormal (sortOf_isNormal hf) hT]

/-! ## Sorting -/

/-- A declared sort is well-sorted, so that it is given a normal form. -/
theorem answers_declared (hlayered : env.IsLayered) (e : SortError) {o : Option Term}
    (ho : ∀ A, o = some A → IsFamilyOrKind env.signature env.metas env.locals A.nameless) :
    Answers fun fuel => (do
      let A ← orFail e o
      ofOption ((TermSort.term A).normalForm fuel)) := by
  refine .bind (.orFail e o) fun A hA => ?_
  obtain ⟨_, hA⟩ := hA.exists
  rw [orFail_eq_ok_iff] at hA
  obtain ⟨S, _, hS⟩ := ho A hA
  exact TermSort.answers_normalForm (hS.terminates hlayered)

/-- A product applied to an argument whose sort is equal to the domain: the codomain for the
argument is well-sorted, so that it is given a normal form. -/
theorem answers_codomain (henv : env.IsAdmissible) (hlayered : env.IsLayered) {f a A B : Term}
    {x : Variable} {S : TermSort} (hf : env.Derives f (.term (.pi x A B)))
    (ha : env.Derives a S) {fuel : Nat} (hS : S.equal fuel (.term A) = some true) :
    Answers fun fuel => (ofOption ((TermSort.term (B.subst x a)).normalForm fuel) :
      Outcome SortError TermSort) := by
  cases S with
  | kind => exact absurd hS (by simp [TermSort.equal])
  | term A' =>
    rw [Derives, TermSort.nameless, Term.nameless_bind] at hf
    obtain ⟨_, _, hpi⟩ := hf.isFamilyOrKind henv rfl
    have harg : env.Derives a (.term A) :=
      HasSort.conv ha hpi.pi_inv.1 (Or.inl rfl) (Term.convertible_of_equal hS)
    obtain ⟨U, _, hU⟩ := hf.codomain_isFamilyOrKind harg henv
    rw [Term.instantiate_close_nameless] at hU
    exact TermSort.answers_normalForm (hU.terminates hlayered)

/-- The product of the sort of a scope is well-sorted, so that it is given a normal form. -/
theorem answers_pi (henv : env.IsAdmissible) (hlayered : env.IsLayered) {x : Variable}
    {A s B : Term} (hx : env.context.contains x = false) (hA : env.Derives A .type)
    (hs : (env.extend x A).Derives s (.term B)) :
    Answers fun fuel => (ofOption ((TermSort.term (.pi x A B)).normalForm fuel) :
      Outcome SortError TermSort) := by
  obtain ⟨U, _, hU⟩ := (HasSort.lam hA (henv.close hx hA hs)).isFamilyOrKind henv rfl
  apply TermSort.answers_normalForm
  rw [Term.nameless_bind]
  exact hU.terminates hlayered

/-- A binder of a new variable is sorted by its type and its scope. -/
theorem sortOf_bind_of_new (fuel : Nat) (q : Binder) {x : Variable} (A s : Term)
    (hx : env.context.contains x = false) :
    env.sortOf fuel (.bind q x A s) = mapFail (.within (.bind q x A s)) (do
      expectSort fuel A .type (← env.sortOf fuel A)
      sortOfBinder fuel q x A s (← (env.extend x A).sortOf fuel s)) := by
  rw [sortOf, if_neg (by simp [hx])]
  cases q <;> rfl

/-- The sort of a binder is settled if that of its scope is. -/
theorem answers_sortOfBinder (henv : env.IsAdmissible) (hlayered : env.IsLayered) (q : Binder)
    {x : Variable} {A s : Term} {S : TermSort} (hx : env.context.contains x = false)
    (hA : env.Derives A .type) {fuel : Nat} (hs : (env.extend x A).sortOf fuel s = ok S) :
    Answers fun fuel => sortOfBinder fuel q x A s S := by
  have hS := isNormal_of_sortOf hs
  have hderives := derives_of_sortOf (henv.extend hx hA) hs
  cases q with
  | pi => exact .bind (answers_expectFamilyOrKind s hS) fun _ _ => hS.answers_normalForm
  | lam =>
    cases S with
    | kind => exact .fail _
    | term B => exact answers_pi henv hlayered hx hA hderives

/-- **Sorting is settled.** In an environment of layered families and kinds, the outcome of sorting
is the same for all large enough bounds. -/
theorem answers_sortOf (henv : env.IsAdmissible) (hlayered : env.IsLayered) (t : Term) :
    Answers fun fuel => env.sortOf fuel t := by
  induction t generalizing env with
  | type => exact .ok _
  | const c =>
    exact answers_declared hlayered _ fun A hA => henv.global A (Or.inl ⟨c, hA⟩)
  | var x =>
    refine answers_declared hlayered _ fun A hA => henv.declared (.free x) _ ?_
    rw [locals, hA]
    rfl
  | metaVar m =>
    exact answers_declared hlayered _ fun A hA => henv.global A (Or.inr ⟨m, hA⟩)
  | app f a ihf iha =>
    simp only [sortOf]
    refine .mapFail _ (.bind (ihf henv hlayered) fun F hF => ?_)
    obtain ⟨fuel, hf⟩ := hF.exists
    refine .bind (answers_expectPi f (isNormal_of_sortOf hf)) fun parts hpi => ?_
    obtain ⟨x, A, B⟩ := parts
    obtain ⟨_, hpi⟩ := hpi.exists
    obtain rfl := eq_pi_of_expectPi hf hpi
    refine .bind (iha henv hlayered) fun S hS => ?_
    obtain ⟨_, ha⟩ := hS.exists
    have hA : (TermSort.term A).IsNormal := (sortOf_isNormal hf).1
    refine .bind (answers_expectSort a hA (isNormal_of_sortOf ha)) fun _ hequal => ?_
    obtain ⟨_, hequal⟩ := hequal.exists
    rw [expectSort, require_eq_ok_iff] at hequal
    exact answers_codomain henv hlayered (derives_of_sortOf henv hf) (derives_of_sortOf henv ha)
      hequal
  | bind q x A s ihA ihs =>
    by_cases hx : env.context.contains x = true
    · simp only [sortOf, hx, if_true]
      exact .mapFail _ (.fail _)
    rw [Bool.not_eq_true] at hx
    simp only [sortOf_bind_of_new _ q A s hx]
    refine .mapFail _ (.bind (ihA henv hlayered) fun K hK => ?_)
    obtain ⟨_, hsortA⟩ := hK.exists
    refine .bind (answers_expectSort A (S := .type) trivial (isNormal_of_sortOf hsortA))
      fun _ hequal => ?_
    obtain ⟨_, hequal⟩ := hequal.exists
    obtain ⟨A', rfl, hA'⟩ := expectSort_type_eq_ok hequal
    -- The type of the variable is accepted, so the variable can be declared.
    have hA : env.Derives A .type := derives_type_of_equal (derives_of_sortOf henv hsortA) hA'
    have hext := henv.extend hx hA
    refine .bind (ihs hext (hlayered.extend x (hA.layered hlayered).1)) fun S hS => ?_
    obtain ⟨_, hs⟩ := hS.exists
    exact answers_sortOfBinder henv hlayered q hx hA hs

/-- **Sorting decides.** In a validated environment every term, well-sorted or not, is given a sort
or a failure, which is the same for all large enough bounds. -/
theorem sortOf_decides (fuel : Nat) (env : Environment) (t : Term)
    (henv : env.validate fuel = ok ()) :
    (∃ S bound, ∀ n, bound ≤ n → env.sortOf n t = ok S) ∨
      ∃ e bound, ∀ n, bound ≤ n → env.sortOf n t = fail e :=
  (answers_sortOf (isAdmissible_of_validate henv) (isLayered_of_validate henv) t).cases

/-- The term `(λ x : nat, x x) (λ x : nat, x x)`, which has no normal form. -/
def selfApplication : Term :=
  .app (.lam ⟨"x"⟩ (.const ⟨"nat"⟩) (.app (.var ⟨"x"⟩) (.var ⟨"x"⟩)))
    (.lam ⟨"x"⟩ (.const ⟨"nat"⟩) (.app (.var ⟨"x"⟩) (.var ⟨"x"⟩)))

/-- Sorting decides on the vector `v`, whose declared sort has a redex, and on a term that has no
normal form. -/
theorem sortOf_decides_vectors :
    vectors.validate 20 = ok () ∧
      ((∃ S bound, ∀ n, bound ≤ n → vectors.sortOf n (.var ⟨"v"⟩) = ok S) ∨
        ∃ e bound, ∀ n, bound ≤ n → vectors.sortOf n (.var ⟨"v"⟩) = fail e) ∧
      ((∃ S bound, ∀ n, bound ≤ n → vectors.sortOf n selfApplication = ok S) ∨
        ∃ e bound, ∀ n, bound ≤ n → vectors.sortOf n selfApplication = fail e) := by
  have hvalid : vectors.validate 20 = ok () := by decide +kernel
  exact ⟨hvalid, sortOf_decides 20 _ _ hvalid, sortOf_decides 20 _ _ hvalid⟩

end Environment

end LogicalFramework

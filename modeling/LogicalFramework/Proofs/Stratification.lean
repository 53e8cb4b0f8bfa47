import LogicalFramework.Proofs.Soundness

/-!
# Where `Type` stands in a term

A term that has a sort is a kind, that is a chain of products that ends in `Type`, or it does not
mention `Type` at all. Which of the two it is can be read off its sort, and nothing is asked of the
environment. In a validated environment the same is true of the sort itself.

* `Environment.stratified_of_sortOf` — by induction on the term, from the cases of sorting;
* `HasSort.stratified` — the same for the typing rules, by induction on the derivation. Sorts are
  themselves well-sorted, so this is about sorts too;
* `Environment.sortOf_stratified` — both, and that `Type` is never an argument, an applied term, the
  type of a variable or the scope of an abstraction.
-/

namespace LogicalFramework

open Outcome

/-! ## Kinds -/

namespace Term

/-- Whether `Type` occurs. -/
def mentionsType : Term → Bool
  | type => true
  | app h a => h.mentionsType || a.mentionsType
  | bind _ _ A s => A.mentionsType || s.mentionsType
  | _ => false

/-- Whether the term is a chain of products that ends in `Type` and does not mention `Type` anywhere
else. -/
def isKind : Term → Bool
  | type => true
  | pi _ A s => !A.mentionsType && s.isKind
  | _ => false

/-- Whether the term applies `Type`, applies something to `Type`, binds a variable of type `Type` or
abstracts from `Type`. -/
def misplacesType : Term → Bool
  | app h a => h.isType || a.isType
  | bind q _ A s => A.isType || (q = .lam && s.isType)
  | _ => false

/-- The immediate subterms. -/
def parts : Term → List Term
  | app h a => [h, a]
  | bind _ _ A s => [A, s]
  | _ => []

/-- That a term occurs in another one, at its root or below it. -/
inductive IsSubterm (u : Term) : Term → Prop where
  | refl : IsSubterm u u
  | part {p t : Term} (hp : p ∈ t.parts) (h : IsSubterm u p) : IsSubterm u t

/-- A kind, or a term without `Type`. -/
def Stratified (t : Term) : Prop :=
  t.isKind = true ∨ t.mentionsType = false

theorem Stratified.app_inv {h a : Term} (ht : (app h a).Stratified) :
    h.mentionsType = false ∧ a.mentionsType = false := by
  have hfree : (h.mentionsType || a.mentionsType) = false := ht.resolve_left Bool.false_ne_true
  exact Bool.or_eq_false_iff.mp hfree

/-- The type of a bound variable is without `Type`. The scope of a product may be a kind, that of an
abstraction may not. -/
theorem Stratified.bind_inv {q : Binder} {x : Variable} {A s : Term}
    (ht : (bind q x A s).Stratified) :
    A.mentionsType = false ∧ (s.mentionsType = false ∨ q = .pi ∧ s.isKind = true) := by
  rcases ht with hkind | hfree
  · cases q with
    | lam => exact absurd hkind Bool.false_ne_true
    | pi =>
      simp only [isKind, Bool.and_eq_true, Bool.not_eq_true'] at hkind
      exact ⟨hkind.1, Or.inr ⟨rfl, hkind.2⟩⟩
  · simp only [mentionsType, Bool.or_eq_false_iff] at hfree
    exact ⟨hfree.1, Or.inl hfree.2⟩

/-- A part of a kind is a kind or without `Type`, and so is a part of a term without `Type`. -/
theorem Stratified.part {t p : Term} (ht : t.Stratified) (hp : p ∈ t.parts) : p.Stratified := by
  cases t with
  | app h a =>
    obtain ⟨hh, ha⟩ := ht.app_inv
    rcases List.mem_pair.mp hp with rfl | rfl
    · exact Or.inr hh
    · exact Or.inr ha
  | bind q x A s =>
    obtain ⟨hA, hs⟩ := ht.bind_inv
    rcases List.mem_pair.mp hp with rfl | rfl
    · exact Or.inr hA
    · exact hs.elim Or.inr fun hkind => Or.inl hkind.2
  | _ => exact absurd hp List.not_mem_nil

theorem Stratified.subterm {t u : Term} (ht : t.Stratified) (hu : u.IsSubterm t) :
    u.Stratified := by
  induction hu with
  | refl => exact ht
  | part hp _ ih => exact ih (ht.part hp)

theorem isType_eq_false {t : Term} (ht : t.mentionsType = false) : t.isType = false := by
  cases t with
  | type => exact absurd ht (by simp [mentionsType])
  | _ => rfl

theorem Stratified.misplacesType_eq_false {t : Term} (ht : t.Stratified) :
    t.misplacesType = false := by
  cases t with
  | app h a =>
    obtain ⟨hh, ha⟩ := ht.app_inv
    rw [misplacesType, isType_eq_false hh, isType_eq_false ha]
    rfl
  | bind q x A s =>
    obtain ⟨hA, hs | ⟨rfl, _⟩⟩ := ht.bind_inv
    · rw [misplacesType, isType_eq_false hA, isType_eq_false hs, Bool.and_false]
      rfl
    · rw [misplacesType, isType_eq_false hA]
      rfl
  | _ => rfl

end Term

/-! ## Kinds up to bound names -/

namespace Nameless

/-- Whether `Type` occurs. -/
def mentionsType : Nameless → Bool
  | type => true
  | app h a => h.mentionsType || a.mentionsType
  | bind _ A s => A.mentionsType || s.mentionsType
  | _ => false

/-- Whether the term is a chain of products that ends in `Type` and does not mention `Type` anywhere
else. -/
def isKind : Nameless → Bool
  | type => true
  | pi A s => !A.mentionsType && s.isKind
  | _ => false

@[simp]
theorem mentionsType_rename (t : Nameless) (ρ : Name → Name) :
    (t.rename ρ).mentionsType = t.mentionsType := by
  induction t generalizing ρ with
  | app h a ihh iha => rw [rename, mentionsType, mentionsType, ihh, iha]
  | bind q A s ihA ihs => rw [rename, mentionsType, mentionsType, ihA, ihs]
  | _ => rfl

@[simp]
theorem isKind_rename (t : Nameless) (ρ : Name → Name) : (t.rename ρ).isKind = t.isKind := by
  induction t generalizing ρ with
  | bind q A s _ ihs =>
    cases q with
    | lam => rfl
    | pi => rw [rename, isKind, isKind, mentionsType_rename, ihs]
  | _ => rfl

end Nameless

namespace Term

theorem mentionsType_nameless (t : Term) : t.nameless.mentionsType = t.mentionsType := by
  induction t with
  | app h a ihh iha => rw [nameless_app, Nameless.mentionsType, mentionsType, ihh, iha]
  | bind q x A s ihA ihs =>
    rw [nameless_bind, Nameless.mentionsType, mentionsType, Nameless.mentionsType_rename, ihA, ihs]
  | _ => rfl

theorem isKind_nameless (t : Term) : t.nameless.isKind = t.isKind := by
  induction t with
  | bind q x A s _ ihs =>
    rw [nameless_bind]
    cases q with
    | lam => rfl
    | pi => rw [Nameless.isKind, isKind, mentionsType_nameless, Nameless.isKind_rename, ihs]
  | _ => rfl

end Term

/-! ## Well-sorted terms -/

/-- What the typing rules give the sort `Kind` is a kind, and what they give another sort is without
`Type`. -/
theorem HasSort.stratified {sig : Signature} {metas : MetaContext} {Γ : Locals} {t : Nameless}
    {S : NamelessSort} (h : HasSort sig metas Γ t S) :
    (S = .kind ∧ t.isKind = true) ∨ (S ≠ .kind ∧ t.mentionsType = false) := by
  induction h with
  | type Γ => exact Or.inl ⟨rfl, rfl⟩
  | const _ | name _ | metaVar _ => exact Or.inr ⟨by simp, rfl⟩
  | pi _ _ _ ihA ihB =>
    have hA := (ihA.resolve_left (by simp)).2
    rcases ihB with ⟨hS, hB⟩ | ⟨hS, hB⟩
    · exact Or.inl ⟨hS, by rw [Nameless.isKind, hA, hB]; rfl⟩
    · exact Or.inr ⟨hS, by rw [Nameless.mentionsType, hA, hB]; rfl⟩
  | lam _ _ ihA ihs =>
    have hA := (ihA.resolve_left (by simp)).2
    have hs := (ihs.resolve_left (by simp)).2
    exact Or.inr ⟨by simp, by rw [Nameless.mentionsType, hA, hs]; rfl⟩
  | app _ _ ihf iha =>
    have hf := (ihf.resolve_left (by simp)).2
    have ha := (iha.resolve_left (by simp)).2
    exact Or.inr ⟨by simp, by rw [Nameless.mentionsType, hf, ha]; rfl⟩
  | conv _ _ _ _ iht _ => exact Or.inr ⟨by simp, (iht.resolve_left (by simp)).2⟩

/-- A family or a kind is a kind or without `Type`. -/
theorem IsFamilyOrKind.stratified {sig : Signature} {metas : MetaContext} {Γ : Locals} {T : Term}
    (h : IsFamilyOrKind sig metas Γ T.nameless) : T.Stratified := by
  obtain ⟨S, _, hT⟩ := h
  rw [Term.Stratified, ← Term.isKind_nameless, ← Term.mentionsType_nameless]
  exact hT.stratified.imp And.right And.right

namespace Environment

/-! ## Terms that are given a sort -/

/-- What is given the sort `Kind` is a kind, and what is given another sort is without `Type`,
whatever the environment. -/
theorem stratified_of_sortOf {env : Environment} {fuel : Nat} {t : Term} {S : TermSort}
    (h : env.sortOf fuel t = ok S) :
    (S = .kind ∧ t.isKind = true) ∨ ((∃ T, S = .term T) ∧ t.mentionsType = false) := by
  induction t generalizing env S with
  | type =>
    cases h
    exact Or.inl ⟨rfl, rfl⟩
  | const | var | metaVar =>
    obtain ⟨A, T, _, _, rfl⟩ := declared_eq_ok h
    exact Or.inr ⟨⟨T, rfl⟩, rfl⟩
  | app f a ihf iha =>
    obtain ⟨F, x, A, B, A', T, hf, _, ha, _, _, rfl⟩ := sortOf_app h
    have hf' := ((ihf hf).resolve_left (by simp)).2
    have ha' := ((iha ha).resolve_left (by simp)).2
    exact Or.inr ⟨⟨T, rfl⟩, by rw [Term.mentionsType, hf', ha']; rfl⟩
  | bind q x A s ihA ihs =>
    obtain ⟨_, ⟨A', hA, _⟩, R, hs, hcases⟩ := sortOf_bind h
    have hA' := ((ihA hA).resolve_left (by simp)).2
    rcases hcases with ⟨rfl, _, hS⟩ | ⟨rfl, B, T, rfl, _, rfl⟩
    · rcases ihs hs with ⟨rfl, hs'⟩ | ⟨⟨B, rfl⟩, hs'⟩
      · cases hS
        exact Or.inl ⟨rfl, by rw [Term.isKind, hA', hs']; rfl⟩
      · obtain ⟨T, _, rfl⟩ := TermSort.normalForm_eq_some hS
        exact Or.inr ⟨⟨T, rfl⟩, by rw [Term.mentionsType, hA', hs']; rfl⟩
    · have hs' := ((ihs hs).resolve_left (by simp)).2
      exact Or.inr ⟨⟨T, rfl⟩, by rw [Term.mentionsType, hA', hs']; rfl⟩

/-- **Stratification.** A term is given the sort `Kind` only if it is a chain of products that ends
in `Type`, with `Type` nowhere else, and another sort only if `Type` does not occur in it. So `Type`
is nowhere applied, an argument, the type of a variable or the scope of an abstraction. In a
validated environment the sort of a term is again such a chain or without `Type`. -/
theorem sortOf_stratified :
    (∀ (fuel : Nat) (env : Environment) (t : Term) (S : TermSort), env.sortOf fuel t = ok S →
      ((S = .kind ∧ t.isKind = true) ∨ ((∃ T, S = .term T) ∧ t.mentionsType = false)) ∧
        ∀ u : Term, u.IsSubterm t → u.misplacesType = false) ∧
    ∀ (fuel fuel' : Nat) (env : Environment) (t T : Term), env.validate fuel = ok () →
      env.sortOf fuel' t = ok (.term T) → T.isKind = true ∨ T.mentionsType = false := by
  constructor
  · intro fuel env t S h
    have hstratified := stratified_of_sortOf h
    have ht : t.Stratified := hstratified.imp And.right And.right
    exact ⟨hstratified, fun u hu => (ht.subterm hu).misplacesType_eq_false⟩
  · intro fuel fuel' env t T henv h
    have hadmissible := isAdmissible_of_validate henv
    exact ((derives_of_sortOf hadmissible h).isFamilyOrKind hadmissible rfl).stratified

/-- `Π n : nat, Π w : vec n, Type` is a kind, and its parts are where they may be. The constant `vec`
has a kind as its sort. -/
theorem sortOf_stratified_vectors :
    ((Term.pi ⟨"n"⟩ (.const ⟨"nat"⟩)
        (.pi ⟨"w"⟩ (.app (.const ⟨"vec"⟩) (.var ⟨"n"⟩)) .type)).isKind = true ∧
      (Term.pi ⟨"w"⟩ (.app (.const ⟨"vec"⟩) (.var ⟨"n"⟩)) .type).misplacesType = false) ∧
    vectors.validate 20 = ok () ∧
      vectors.sortOf 20 (.const ⟨"vec"⟩) = ok (.term (.pi ⟨"n"⟩ (.const ⟨"nat"⟩) .type)) ∧
      ((Term.pi ⟨"n"⟩ (.const ⟨"nat"⟩) .type).isKind = true ∨
        (Term.pi ⟨"n"⟩ (.const ⟨"nat"⟩) .type).mentionsType = false) := by
  have hkind : vectors.sortOf 20 (.pi ⟨"n"⟩ (.const ⟨"nat"⟩)
      (.pi ⟨"w"⟩ (.app (.const ⟨"vec"⟩) (.var ⟨"n"⟩)) .type)) = ok .kind := by decide +kernel
  have hvalid : vectors.validate 20 = ok () := by decide +kernel
  have hvec : vectors.sortOf 20 (.const ⟨"vec"⟩) =
      ok (.term (.pi ⟨"n"⟩ (.const ⟨"nat"⟩) .type)) := by decide +kernel
  obtain ⟨hstratified, hplaces⟩ := sortOf_stratified.1 20 vectors _ _ hkind
  refine ⟨⟨(hstratified.resolve_right (by simp)).2, hplaces _ ?_⟩, hvalid, hvec,
    sortOf_stratified.2 20 20 vectors _ _ hvalid hvec⟩
  exact .part (List.mem_pair.mpr (Or.inr rfl)) .refl

end Environment

end LogicalFramework

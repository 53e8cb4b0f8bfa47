import LogicalFramework.Proofs.Stratification

/-!
# Shapes

The shape of a type forgets what the type depends on: a product has an arrow as its shape, `Type`
has a shape of its own, and everything else has the base shape. Reduction can change the shape of a
term only where it puts an argument in the place of a family. Families are never arguments in the
λΠ-calculus, and a term in which this can be seen from the shapes is called layered.

* `Convertible.shape_eq` — convertible layered terms have the same shape;
* `HasSort.layered` — if all declared sorts are layered, then so are all well-sorted terms and their
  sorts;
* `Environment.isLayered_of_validate` — the declared sorts of a validated environment are layered.
-/

namespace LogicalFramework

/-! ## Shapes of terms -/

/-- What is left of a type if what it depends on is forgotten. -/
inductive Shape where
  /-- The shape of `Type`. -/
  | sort
  /-- The shape of a type that is no product, and of every object. -/
  | base
  /-- The shape of a product. -/
  | arrow (domain codomain : Shape)

/-- Whether it is the shape of a kind. -/
def Shape.endsInSort : Shape → Bool
  | sort => true
  | base => false
  | arrow _ codomain => codomain.endsInSort

namespace Nameless

/-- The shape of a term. A family has the shape of the types that it gives. -/
def shape : Nameless → Shape
  | type => .sort
  | app h _ => h.shape
  | lam _ s => s.shape
  | pi A B => .arrow A.shape B.shape
  | _ => .base

/-- Whether no argument has the shape of a family of products or of a kind, and no variable has the
shape of a kind as its type. -/
def Layered : Nameless → Prop
  | app h a => h.Layered ∧ a.Layered ∧ a.shape = .base
  | lam A s => A.Layered ∧ s.Layered
  | pi A B => A.Layered ∧ B.Layered ∧ A.shape.endsInSort = false
  | _ => True

@[simp]
theorem shape_rename (t : Nameless) (ρ : Name → Name) : (t.rename ρ).shape = t.shape := by
  induction t generalizing ρ with
  | app h a ihh _ => exact ihh ρ
  | bind q A s ihA ihs =>
    cases q with
    | lam => exact ihs (Name.lift ρ)
    | pi => rw [rename, shape, shape, ihA, ihs]
  | _ => rfl

@[simp]
theorem layered_rename (t : Nameless) (ρ : Name → Name) : (t.rename ρ).Layered ↔ t.Layered := by
  induction t generalizing ρ with
  | app h a ihh iha => simp only [rename, Layered, ihh, iha, shape_rename]
  | bind q A s ihA ihs => cases q <;> simp only [rename, Layered, ihA, ihs, shape_rename]
  | _ => exact Iff.rfl

/-- That a substitution is of layered terms that have the shape of an object. -/
def LayeredObjects (σ : Name → Nameless) : Prop :=
  ∀ n, (σ n).Layered ∧ (σ n).shape = .base

theorem LayeredObjects.lift {σ : Name → Nameless} (hσ : LayeredObjects σ) :
    LayeredObjects (lift σ) := by
  intro n
  rcases Name.eq_zero_or_succ n with rfl | ⟨m, rfl⟩
  · exact ⟨trivial, rfl⟩
  · rw [lift_succ, shift, layered_rename, shape_rename]
    exact hσ m

theorem LayeredObjects.under {a : Nameless} (ha : a.Layered) (hshape : a.shape = .base) :
    LayeredObjects (Name.under a name) := by
  intro n
  rcases Name.eq_zero_or_succ n with rfl | ⟨m, rfl⟩
  · exact ⟨ha, hshape⟩
  · rw [Name.under_succ]
    exact ⟨trivial, rfl⟩

theorem shape_subst {σ : Name → Nameless} (hσ : LayeredObjects σ) (t : Nameless) :
    (t.subst σ).shape = t.shape := by
  induction t generalizing σ with
  | name n => exact (hσ n).2
  | app h a ihh _ => exact ihh hσ
  | bind q A s ihA ihs =>
    cases q with
    | lam => exact ihs hσ.lift
    | pi => rw [subst, shape, shape, ihA hσ, ihs hσ.lift]
  | _ => rfl

theorem Layered.subst {t : Nameless} (ht : t.Layered) {σ : Name → Nameless}
    (hσ : LayeredObjects σ) : (t.subst σ).Layered := by
  induction t generalizing σ with
  | name n => exact (hσ n).1
  | app h a ihh iha =>
    obtain ⟨hh, ha, hshape⟩ := ht
    exact ⟨ihh hh hσ, iha ha hσ, by rw [shape_subst hσ, hshape]⟩
  | bind q A s ihA ihs =>
    cases q with
    | lam => exact ⟨ihA ht.1 hσ, ihs ht.2 hσ.lift⟩
    | pi =>
      obtain ⟨hA, hs, hshape⟩ := ht
      exact ⟨ihA hA hσ, ihs hs hσ.lift, by rw [shape_subst hσ, hshape]⟩
  | _ => trivial

theorem shape_instantiate (s : Nameless) {a : Nameless} (ha : a.Layered)
    (hshape : a.shape = .base) : (s.instantiate a).shape = s.shape :=
  shape_subst (.under ha hshape) s

theorem Layered.instantiate {s a : Nameless} (hs : s.Layered) (ha : a.Layered)
    (hshape : a.shape = .base) : (s.instantiate a).Layered :=
  hs.subst (.under ha hshape)

/-- A term without `Type` does not have the shape of a kind. -/
theorem endsInSort_shape {t : Nameless} (ht : t.mentionsType = false) :
    t.shape.endsInSort = false := by
  induction t with
  | type => exact absurd ht (by simp [mentionsType])
  | app h a ihh _ =>
    rw [mentionsType, Bool.or_eq_false_iff] at ht
    exact ihh ht.1
  | bind q A s _ ihs =>
    rw [mentionsType, Bool.or_eq_false_iff] at ht
    cases q <;> exact ihs ht.2
  | _ => rfl

end Nameless

/-! ## Shapes under reduction -/

/-- Reduction keeps layered terms layered and keeps their shapes. -/
theorem Parallel.layered {η : Prop} {s t : Nameless} (h : Parallel η s t) (hs : s.Layered) :
    t.Layered ∧ t.shape = s.shape := by
  induction h with
  | app _ _ ihf iha =>
    obtain ⟨hf, ha, hshape⟩ := hs
    obtain ⟨hg, hfg⟩ := ihf hf
    obtain ⟨hb, hab⟩ := iha ha
    exact ⟨⟨hg, hb, hab.trans hshape⟩, hfg⟩
  | bind q _ _ ihA ihs =>
    cases q with
    | lam =>
      obtain ⟨hB, _⟩ := ihA hs.1
      obtain ⟨ht, hst⟩ := ihs hs.2
      exact ⟨⟨hB, ht⟩, hst⟩
    | pi =>
      obtain ⟨hB, hAB⟩ := ihA hs.1
      obtain ⟨ht, hst⟩ := ihs hs.2.1
      refine ⟨⟨hB, ht, ?_⟩, ?_⟩
      · rw [hAB]
        exact hs.2.2
      · rw [Nameless.shape, Nameless.shape, hAB, hst]
  | beta A _ _ ihs iha =>
    obtain ⟨⟨_, hscope⟩, ha, hshape⟩ := hs
    obtain ⟨ht, hst⟩ := ihs hscope
    obtain ⟨hb, hab⟩ := iha ha
    rw [hshape] at hab
    exact ⟨ht.instantiate hb hab, (Nameless.shape_instantiate _ hb hab).trans hst⟩
  | eta _ A _ ih =>
    obtain ⟨_, hexpanded, _⟩ := hs
    rw [Nameless.shift, Nameless.layered_rename] at hexpanded
    obtain ⟨ht, hst⟩ := ih hexpanded
    exact ⟨ht, hst.trans (Nameless.shape_rename _ _).symm⟩
  | reset _ A _ ih =>
    obtain ⟨ht, hst⟩ := ih hs.2
    exact ⟨⟨trivial, ht⟩, hst⟩
  | _ => exact ⟨trivial, rfl⟩

theorem Parallel.Many.shape_eq {η : Prop} {s t : Nameless} (h : Parallel.Many η s t)
    (hs : s.Layered) : t.shape = s.shape := by
  have hboth : t.Layered ∧ t.shape = s.shape := by
    induction h with
    | refl => exact ⟨hs, rfl⟩
    | tail _ hstep ih =>
      obtain ⟨hu, hsu⟩ := ih
      obtain ⟨ht, hut⟩ := hstep.layered hu
      exact ⟨ht, hut.trans hsu⟩
  exact hboth.2

/-- Convertible layered terms have the same shape. -/
theorem Convertible.shape_eq {s t : Nameless} (h : Convertible s t) (hs : s.Layered)
    (ht : t.Layered) : s.shape = t.shape := by
  obtain ⟨d, hsd, htd⟩ := h.join
  exact (hsd.shape_eq hs).symm.trans (htd.shape_eq ht)

/-! ## Shapes of well-sorted terms -/

/-- Declarations of layered sorts only. -/
structure LayeredDeclarations (sig : Signature) (metas : MetaContext) (Γ : Locals) : Prop where
  /-- Constants and meta-variables are declared so. -/
  global : ∀ A : Term, HasSort.GlobalSort sig metas A → A.nameless.Layered
  /-- Local names are declared so. -/
  declared : ∀ n A, Γ n = some A → A.Layered

variable {sig : Signature} {metas : MetaContext} {Γ : Locals}

theorem LayeredDeclarations.push (h : LayeredDeclarations sig metas Γ) {A : Nameless}
    (hA : A.Layered) : LayeredDeclarations sig metas (Γ.push A) where
  global := h.global
  declared := by
    intro n B hn
    rcases Locals.push_cases hn with ⟨rfl, rfl⟩ | ⟨m, C, rfl, hm, rfl⟩
    · rw [Nameless.shift, Nameless.layered_rename]
      exact hA
    · rw [Nameless.shift, Nameless.layered_rename]
      exact h.declared m C hm

/-- What the shape of a sort says about a term: unless the sort has the shape of a kind, the term
has the shape of an object. -/
def NamelessSort.Shapes (S : NamelessSort) (t : Nameless) : Prop :=
  match S with
  | kind => True
  | term T => T.Layered ∧ (t.shape = .base ∨ T.shape.endsInSort = true)

/-- Well-sorted terms and their sorts are layered, if the declared sorts are. -/
theorem HasSort.layered {t : Nameless} {S : NamelessSort} (h : HasSort sig metas Γ t S)
    (hΓ : LayeredDeclarations sig metas Γ) : t.Layered ∧ S.Shapes t := by
  induction h with
  | type Γ => exact ⟨trivial, trivial⟩
  | const h => exact ⟨trivial, hΓ.global _ (Or.inl ⟨_, h⟩), Or.inl rfl⟩
  | name h => exact ⟨trivial, hΓ.declared _ _ h, Or.inl rfl⟩
  | metaVar h => exact ⟨trivial, hΓ.global _ (Or.inr ⟨_, h⟩), Or.inl rfl⟩
  | pi hA _ hS ihA ihB =>
    have hshape := Nameless.endsInSort_shape (hA.stratified.resolve_left (by simp)).2
    obtain ⟨hAlayered, _⟩ := ihA hΓ
    obtain ⟨hBlayered, _⟩ := ihB (hΓ.push hAlayered)
    refine ⟨⟨hAlayered, hBlayered, hshape⟩, ?_⟩
    rcases hS with rfl | rfl
    · exact ⟨trivial, Or.inr rfl⟩
    · trivial
  | lam hA _ ihA ihs =>
    have hshape := Nameless.endsInSort_shape (hA.stratified.resolve_left (by simp)).2
    obtain ⟨hAlayered, _⟩ := ihA hΓ
    obtain ⟨hs, hB, hcases⟩ := ihs (hΓ.push hAlayered)
    exact ⟨⟨hAlayered, hs⟩, ⟨hAlayered, hB, hshape⟩, hcases⟩
  | app _ _ ihf iha =>
    obtain ⟨hf, ⟨hA, hB, hshape⟩, hcases⟩ := ihf hΓ
    obtain ⟨ha, _, hobject⟩ := iha hΓ
    -- The sort of the argument is the type of a variable, so it does not have the shape of a kind.
    have hbase := hobject.resolve_right (by simp [hshape])
    refine ⟨⟨hf, ha, hbase⟩, hB.instantiate ha hbase, ?_⟩
    rw [Nameless.shape_instantiate _ ha hbase]
    exact hcases
  | conv _ _ _ hAB iht ihB =>
    obtain ⟨ht, hA, hcases⟩ := iht hΓ
    obtain ⟨hB, _⟩ := ihB hΓ
    rw [hAB.shape_eq hA hB] at hcases
    exact ⟨ht, hB, hcases⟩

/-- An argument of a well-sorted function has the shape of an object. -/
theorem HasSort.argument_shape {f a A B : Nameless} (hf : HasSort sig metas Γ f (.term (.pi A B)))
    (ha : HasSort sig metas Γ a (.term A)) (hΓ : LayeredDeclarations sig metas Γ) :
    a.Layered ∧ a.shape = .base := by
  obtain ⟨⟨_, halayered, hbase⟩, _⟩ := (HasSort.app hf ha).layered hΓ
  exact ⟨halayered, hbase⟩

/-! ## Validated declarations -/

open Outcome

/-- A declaration that is admitted by validated ones is validated together with them. -/
theorem Bindings.validate_add {κ : Type} [DecidableEq κ]
    {admitted : Bindings κ Term → Term → Outcome SortError Unit} {older : Bindings κ Term} {key : κ}
    {sort : Term} (hold : older.validate admitted = ok ()) (hkey : older.contains key = false)
    (hsort : admitted older sort = ok ()) : (older.add key sort).validate admitted = ok () := by
  unfold validate at hold ⊢
  rw [add, validate.go, hkey, hsort]
  exact hold

/-- Induction over validated declarations, with the older ones known to be validated. -/
theorem Bindings.validate_induction_validated {κ : Type} [DecidableEq κ]
    {admitted : Bindings κ Term → Term → Outcome SortError Unit} {P : Bindings κ Term → Prop}
    (hempty : P .empty)
    (hadd : ∀ older key sort, older.validate admitted = ok () → P older →
      older.contains key = false → admitted older sort = ok () → P (older.add key sort))
    {b : Bindings κ Term} (h : b.validate admitted = ok ()) : P b := by
  refine (validate_induction (P := fun b => b.validate admitted = ok () ∧ P b) ⟨rfl, hempty⟩ ?_ h).2
  rintro older key sort ⟨hvalid, hold⟩ hkey hsort
  exact ⟨validate_add hvalid hkey hsort, hadd older key sort hvalid hold hkey hsort⟩

namespace Environment

/-- That an environment declares layered sorts only. -/
abbrev IsLayered (env : Environment) : Prop :=
  LayeredDeclarations env.signature env.metas env.locals

theorem IsLayered.extend {env : Environment} (h : env.IsLayered) (x : Variable) {A : Term}
    (hA : A.nameless.Layered) : (env.extend x A).IsLayered where
  global := h.global
  declared := by
    intro n B hn
    by_cases hne : n = .free x
    · rw [hne, locals_extend_self] at hn
      rw [← Option.some.inj hn]
      exact hA
    · rw [locals_extend_of_ne env A hne] at hn
      exact h.declared n B hn

/-- What is given a sort in an environment of layered sorts is layered. -/
theorem layered_of_sortOf {env : Environment} (henv : env.IsAdmissible) (hlayered : env.IsLayered)
    {fuel : Nat} {t : Term} {S : TermSort} (h : env.sortOf fuel t = ok S) : t.nameless.Layered :=
  ((derives_of_sortOf henv h).layered hlayered).1

theorem layered_of_check {env : Environment} (henv : env.IsAdmissible) (hlayered : env.IsLayered)
    {fuel : Nat} {t : Term} {S : TermSort} {u : Unit} (h : env.check fuel t S = ok u) :
    t.nameless.Layered := by
  rw [check, bind_eq_ok_iff] at h
  obtain ⟨_, hsort, _⟩ := h
  exact layered_of_sortOf henv hlayered hsort

end Environment

theorem Signature.isLayered_of_validate {fuel : Nat} {sig : Signature}
    (h : sig.validate fuel = ok ()) : (Environment.ofSignature sig).IsLayered := by
  refine Bindings.validate_induction_validated
    (P := fun sig => (Environment.ofSignature sig).IsLayered) ?_ ?_ h
  · constructor
    · rintro A (⟨c, hc⟩ | ⟨m, hm⟩)
      · exact absurd hc (by simp [Environment.ofSignature, Signature.sortOf?])
      · exact absurd hm (by simp [Environment.ofSignature])
    · intro n A hn
      cases n with
      | free x => exact absurd hn (by simp [Environment.locals, Environment.ofSignature])
      | bound i => exact absurd hn (by simp [Environment.locals])
  · intro older key sort hvalid hold hkey hadmitted
    refine ⟨?_, hold.declared⟩
    rw [bind_eq_ok_iff] at hadmitted
    obtain ⟨S, hS, _⟩ := hadmitted
    have hsort := Environment.layered_of_sortOf (isAdmissible_of_validate hvalid) hold hS
    rintro B (⟨c, hc⟩ | hm)
    · rcases Bindings.lookup_or_eq_of_lookup_add hc with hc | rfl
      · exact hold.global B (Or.inl ⟨c, hc⟩)
      · exact hsort
    · exact hold.global B (Or.inr hm)

theorem Context.isLayered_of_validate {fuel : Nat} {sig : Signature} {ctx : Context}
    (hadmissible : (Environment.ofSignature sig).IsAdmissible)
    (hsig : (Environment.ofSignature sig).IsLayered) (h : ctx.validate fuel sig = ok ()) :
    Environment.IsLayered ⟨sig, ctx, .empty⟩ := by
  refine Bindings.validate_induction_validated
    (P := fun ctx => Environment.IsLayered ⟨sig, ctx, .empty⟩) hsig ?_ h
  intro older x A hvalid hold hx hcheck
  have holder := isAdmissible_of_validate hadmissible hvalid
  exact hold.extend x (Environment.layered_of_check holder hold hcheck)

theorem MetaContext.isLayered_of_validate {fuel : Nat} {sig : Signature} {ctx : Context}
    {metas : MetaContext} (hadmissible : Environment.IsAdmissible ⟨sig, ctx, .empty⟩)
    (hctx : Environment.IsLayered ⟨sig, ctx, .empty⟩) (h : metas.validate fuel sig ctx = ok ()) :
    Environment.IsLayered ⟨sig, ctx, metas⟩ := by
  refine Bindings.validate_induction_validated
    (P := fun metas => Environment.IsLayered ⟨sig, ctx, metas⟩) hctx ?_ h
  intro older m A hvalid hold hm hcheck
  refine ⟨?_, hold.declared⟩
  have holder := isAdmissible_of_validate hadmissible hvalid
  have hA := Environment.layered_of_check holder hold hcheck
  rintro B (hc | ⟨k, hk⟩)
  · exact hold.global B (Or.inl hc)
  · rcases Bindings.lookup_or_eq_of_lookup_add hk with hk | rfl
    · exact hold.global B (Or.inr ⟨k, hk⟩)
    · exact hA

namespace Environment

/-- A validated environment declares layered sorts only. -/
theorem isLayered_of_validate {env : Environment} {fuel : Nat} (h : env.validate fuel = ok ()) :
    env.IsLayered := by
  rw [validate, bind_eq_ok_iff] at h
  obtain ⟨_, hsig, h⟩ := h
  rw [bind_eq_ok_iff] at h
  obtain ⟨_, hctx, hmetas⟩ := h
  rw [mapFail_eq_ok_iff] at hsig hctx hmetas
  have hadmissible := Signature.isAdmissible_of_validate hsig
  have hlayered := Signature.isLayered_of_validate hsig
  exact MetaContext.isLayered_of_validate (Context.isAdmissible_of_validate hadmissible hctx)
    (Context.isLayered_of_validate hadmissible hlayered hctx) hmetas

end Environment

end LogicalFramework

import LogicalFramework.Proofs.LazyComparison
import LogicalFramework.Proofs.SubjectReduction

/-!
# Sorts are unique

The rule of conversion can be used anywhere in a derivation. Every other rule belongs to one form of
term, so a derivation is one that ends with the rule for the form of its term, up to conversion of
the sort:

* `HasSort.formed` — inversion of the typing rules, for all forms at once;
* `HasSort.unique` — the sort of a term is unique up to conversion;
* `HasSort.isPi_eq_false`, `HasSort.isLambda_eq_false` — a function is not itself a product, and a
  family or a kind is not an abstraction.
-/

namespace LogicalFramework

/-! ## Conversion of sorts -/

/-- Equality of sorts up to β and η. `Kind` equals `Kind` only. -/
inductive NamelessSort.Convertible : NamelessSort → NamelessSort → Prop where
  | kind : NamelessSort.Convertible kind kind
  | term {A B : Nameless} (h : LogicalFramework.Convertible A B) :
      NamelessSort.Convertible (term A) (term B)

namespace NamelessSort.Convertible

theorem refl (S : NamelessSort) : S.Convertible S := by
  cases S with
  | kind => exact kind
  | term A => exact term (.refl A)

theorem symm {S S' : NamelessSort} (h : S.Convertible S') : S'.Convertible S := by
  cases h with
  | kind => exact kind
  | term h => exact term h.symm

theorem trans {S S' S'' : NamelessSort} (h : S.Convertible S') (h' : S'.Convertible S'') :
    S.Convertible S'' := by
  cases h with
  | kind => exact h'
  | term h =>
    cases h' with
    | term h' => exact term (h.trans h')

/-- Neither `Type` nor `Kind` is convertible to a product. -/
theorem not_classifiesFamilyOrKind {S : NamelessSort} {A B : Nameless}
    (h : S.Convertible (.term (.pi A B))) : ¬S.ClassifiesFamilyOrKind := by
  rintro (rfl | rfl)
  · cases h with
    | term h => exact not_convertible_pi_type h.symm
  · cases h

end NamelessSort.Convertible

variable {sig : Signature} {metas : MetaContext} {Γ : Locals}

namespace HasSort

/-! ## Inversion -/

/-- That a term is given a sort by the rule for its form. -/
inductive Formed (sig : Signature) (metas : MetaContext) (Γ : Locals) :
    Nameless → NamelessSort → Prop where
  | type : Formed sig metas Γ .type .kind
  | const {c : Constant} {S : Term} (h : sig.sortOf? c = some S) :
      Formed sig metas Γ (.const c) (.term S.nameless)
  | name {n : Name} {S : Nameless} (h : Γ n = some S) : Formed sig metas Γ (.name n) (.term S)
  | metaVar {m : MetaVariable} {S : Term} (h : metas.lookup m = some S) :
      Formed sig metas Γ (.metaVar m) (.term S.nameless)
  | pi {A B : Nameless} {S : NamelessSort} (hA : HasSort sig metas Γ A (.term .type))
      (hB : HasSort sig metas (Γ.push A) B S) (hS : S.ClassifiesFamilyOrKind) :
      Formed sig metas Γ (.pi A B) S
  | lam {A s B : Nameless} (hA : HasSort sig metas Γ A (.term .type))
      (hs : HasSort sig metas (Γ.push A) s (.term B)) :
      Formed sig metas Γ (.lam A s) (.term (.pi A B))
  | app {f a A B : Nameless} (hf : HasSort sig metas Γ f (.term (.pi A B)))
      (ha : HasSort sig metas Γ a (.term A)) :
      Formed sig metas Γ (.app f a) (.term (B.instantiate a))

/-- Up to conversion of its sort, a term is given it by the rule for its form. -/
theorem formed {t : Nameless} {S : NamelessSort} (h : HasSort sig metas Γ t S) :
    ∃ S₀, Formed sig metas Γ t S₀ ∧ S₀.Convertible S := by
  induction h with
  | type Γ => exact ⟨_, .type, .refl _⟩
  | const h => exact ⟨_, .const h, .refl _⟩
  | name h => exact ⟨_, .name h, .refl _⟩
  | metaVar h => exact ⟨_, .metaVar h, .refl _⟩
  | pi hA hB hS _ _ => exact ⟨_, .pi hA hB hS, .refl _⟩
  | lam hA hs _ _ => exact ⟨_, .lam hA hs, .refl _⟩
  | app hf ha _ _ => exact ⟨_, .app hf ha, .refl _⟩
  | conv _ _ _ hAB ih _ =>
    obtain ⟨S₀, hformed, hconv⟩ := ih
    exact ⟨S₀, hformed, hconv.trans (.term hAB)⟩

/-! ## Uniqueness -/

/-- **Uniqueness of sorts.** Two sorts of a term are convertible. -/
theorem unique {t : Nameless} {S S' : NamelessSort} (h : HasSort sig metas Γ t S)
    (h' : HasSort sig metas Γ t S') : S.Convertible S' := by
  induction h generalizing S' with
  | conv _ _ _ hAB ih _ =>
    have hA := ih h'
    exact (NamelessSort.Convertible.term hAB.symm).trans hA
  | type Γ =>
    obtain ⟨S₀, hformed, hconv⟩ := h'.formed
    cases hformed
    exact hconv
  | const h | name h | metaVar h =>
    obtain ⟨S₀, hformed, hconv⟩ := h'.formed
    cases hformed
    rename_i hdeclared
    cases h.symm.trans hdeclared
    exact hconv
  | pi _ _ _ _ ihB =>
    obtain ⟨S₀, hformed, hconv⟩ := h'.formed
    cases hformed with
    | pi _ hB _ => exact (ihB hB).trans hconv
  | lam _ _ _ ihs =>
    obtain ⟨S₀, hformed, hconv⟩ := h'.formed
    cases hformed with
    | lam _ hs =>
      cases ihs hs with
      | term hB => exact (NamelessSort.Convertible.term (.bind .pi (.refl _) hB)).trans hconv
  | app _ _ ihf _ =>
    obtain ⟨S₀, hformed, hconv⟩ := h'.formed
    cases hformed with
    | app hf _ =>
      cases ihf hf with
      | term hpi =>
        exact (NamelessSort.Convertible.term (hpi.pi_inj.2.instantiate _)).trans hconv

/-! ## What the sort of a term says about its form -/

/-- A term whose sort is a product is not itself a product. -/
theorem isPi_eq_false {t A B : Nameless} (h : HasSort sig metas Γ t (.term (.pi A B))) :
    t.isPi = false := by
  obtain ⟨S, hformed, hconv⟩ := h.formed
  cases hformed with
  | pi _ _ hS => exact absurd hS hconv.not_classifiesFamilyOrKind
  | _ => rfl

/-- An abstraction is neither a family nor a kind. -/
theorem isLambda_eq_false {t : Nameless} {S : NamelessSort} (h : HasSort sig metas Γ t S)
    (hS : S.ClassifiesFamilyOrKind) : t.isLambda = false := by
  obtain ⟨S₀, hformed, hconv⟩ := h.formed
  cases hformed with
  | lam _ _ => exact absurd hS hconv.symm.not_classifiesFamilyOrKind
  | _ => rfl

end HasSort

end LogicalFramework

import LogicalFramework.Proofs.Confluence
import LogicalFramework.Proofs.Typing

/-!
# Sorts of well-sorted terms

If all declared sorts are families or kinds, so is the sort of every well-sorted term, and
β-reduction keeps the sort of a term:

* `HasSort.isFamilyOrKind` — a sort that is a term is a family or a kind;
* `HasSort.step`, `HasSort.reduces` — subject reduction.

Both rest on inversion of the rules and on the injectivity of products up to convertibility.
-/

namespace LogicalFramework

/-- That a term is a family or a kind. -/
def IsFamilyOrKind (sig : Signature) (metas : MetaContext) (Γ : Locals) (A : Nameless) : Prop :=
  ∃ S : NamelessSort, S.ClassifiesFamilyOrKind ∧ HasSort sig metas Γ A S

/-- Declarations of families and kinds only. -/
structure Admissible (sig : Signature) (metas : MetaContext) (Γ : Locals) : Prop where
  /-- Constants and meta-variables are declared so. -/
  global : ∀ A : Term, HasSort.GlobalSort sig metas A → IsFamilyOrKind sig metas Γ A.nameless
  /-- Local names are declared so. -/
  declared : ∀ n A, Γ n = some A → IsFamilyOrKind sig metas Γ A

variable {sig : Signature} {metas : MetaContext} {Γ : Locals}

theorem isFamilyOrKind_type : IsFamilyOrKind sig metas Γ .type :=
  ⟨.kind, Or.inr rfl, .type Γ⟩

theorem IsFamilyOrKind.weaken {A : Nameless} (h : IsFamilyOrKind sig metas Γ A) (B : Nameless) :
    IsFamilyOrKind sig metas (Γ.push B) A.shift := by
  obtain ⟨S, hS, hA⟩ := h
  have hweak := hA.weaken B
  rw [hS.rename_eq] at hweak
  exact ⟨S, hS, hweak⟩

theorem IsFamilyOrKind.mono {sig' : Signature} {metas' : MetaContext} {Δ : Locals} {A : Nameless}
    (h : IsFamilyOrKind sig metas Γ A)
    (hsig : ∀ c B, sig.sortOf? c = some B → sig'.sortOf? c = some B)
    (hmetas : ∀ m B, metas.lookup m = some B → metas'.lookup m = some B)
    (hΓ : ∀ n B, Γ n = some B → Δ n = some B) : IsFamilyOrKind sig' metas' Δ A := by
  obtain ⟨S, hS, hA⟩ := h
  exact ⟨S, hS, hA.mono hsig hmetas hΓ⟩

/-- Declarations stay admissible if a family or a kind is declared as one more sort. -/
theorem Admissible.add (h : Admissible sig metas Γ) {A : Term}
    (hA : IsFamilyOrKind sig metas Γ A.nameless) {sig' : Signature} {metas' : MetaContext}
    {Δ : Locals} (hsig : ∀ c B, sig.sortOf? c = some B → sig'.sortOf? c = some B)
    (hmetas : ∀ m B, metas.lookup m = some B → metas'.lookup m = some B)
    (hΓ : ∀ n B, Γ n = some B → Δ n = some B)
    (hglobal : ∀ B, HasSort.GlobalSort sig' metas' B → HasSort.GlobalSort sig metas B ∨ B = A)
    (hlocal : ∀ n B, Δ n = some B → Γ n = some B ∨ B = A.nameless) :
    Admissible sig' metas' Δ where
  global := by
    intro B hB
    rcases hglobal B hB with hold | rfl
    · exact (h.global B hold).mono hsig hmetas hΓ
    · exact hA.mono hsig hmetas hΓ
  declared := by
    intro n B hB
    rcases hlocal n B hB with hold | rfl
    · exact (h.declared n B hold).mono hsig hmetas hΓ
    · exact hA.mono hsig hmetas hΓ

/-- Declarations stay admissible in the scope of a binder. -/
theorem Admissible.push (h : Admissible sig metas Γ) {A : Nameless}
    (hA : HasSort sig metas Γ A (.term .type)) : Admissible sig metas (Γ.push A) where
  global := by
    intro B hB
    have hshift : B.nameless.shift = B.nameless :=
      HasSort.rename_global (ρ := Name.succ) (fun _ _ => rfl) hB
    have hweak := (h.global B hB).weaken A
    rw [hshift] at hweak
    exact hweak
  declared := by
    intro n B hn
    rcases Locals.push_cases hn with ⟨rfl, rfl⟩ | ⟨m, C, rfl, hm, rfl⟩
    · exact IsFamilyOrKind.weaken ⟨_, Or.inl rfl, hA⟩ A
    · exact (h.declared m C hm).weaken A

namespace HasSort

/-! ## Instances of substitution -/

/-- The scope of a binder, instantiated with an argument of the type of its variable. -/
theorem instantiate {A s a : Nameless} {S : NamelessSort}
    (hs : HasSort sig metas (Γ.push A) s S) (ha : HasSort sig metas Γ a (.term A)) :
    HasSort sig metas Γ (s.instantiate a) (S.subst (Name.under a Nameless.name)) := by
  apply hs.subst
  constructor
  · intro x _
    rfl
  · intro n B hn
    rcases Locals.push_cases hn with ⟨rfl, rfl⟩ | ⟨m, C, rfl, hm, rfl⟩
    · rw [← Nameless.instantiate, Nameless.instantiate_shift]
      exact ha
    · rw [← Nameless.instantiate, Nameless.instantiate_shift, Name.under_succ]
      exact name hm

/-- The type of the variable of a binder may be exchanged for a convertible one. -/
theorem convert_domain {A B s : Nameless} {S : NamelessSort}
    (hs : HasSort sig metas (Γ.push A) s S) (hA : HasSort sig metas Γ A (.term .type))
    (hAB : Convertible A B) : HasSort sig metas (Γ.push B) s S := by
  have hsubst := hs.subst (Δ := Γ.push B) (σ := Nameless.name) ?_
  · rw [Nameless.subst_name] at hsubst
    cases S with
    | kind => exact hsubst
    | term T =>
      rw [NamelessSort.subst, Nameless.subst_name] at hsubst
      exact hsubst
  · constructor
    · intro x _
      rfl
    · intro n C hn
      rw [Nameless.subst_name]
      rcases Locals.push_cases hn with ⟨rfl, rfl⟩ | ⟨m, C, rfl, hm, rfl⟩
      · -- The variable has the new type, which is convertible to the old one.
        exact conv (name rfl) (hA.weaken B) (Or.inl rfl) (Convertible.rename hAB.symm Name.succ)
      · refine name ?_
        rw [Locals.push_succ, hm]
        rfl

/-! ## Inversion -/

/-- What the rules say about a product. -/
theorem pi_inv {A B : Nameless} {S : NamelessSort} (h : HasSort sig metas Γ (.pi A B) S) :
    HasSort sig metas Γ A (.term .type) ∧ IsFamilyOrKind sig metas (Γ.push A) B := by
  generalize ht : Nameless.pi A B = t at h
  induction h with
  | pi hA hB hS _ _ =>
    cases ht
    exact ⟨hA, _, hS, hB⟩
  | conv _ _ _ _ ih _ => exact ih ht
  | _ => exact absurd ht (by simp)

/-- What the rules say about an abstraction. -/
theorem lam_inv {A s : Nameless} {S : NamelessSort} (h : HasSort sig metas Γ (.lam A s) S) :
    ∃ B T, S = .term T ∧ Convertible (.pi A B) T ∧ HasSort sig metas Γ A (.term .type) ∧
      HasSort sig metas (Γ.push A) s (.term B) := by
  generalize ht : Nameless.lam A s = t at h
  induction h with
  | lam hA hs _ _ =>
    cases ht
    exact ⟨_, _, rfl, .refl _, hA, hs⟩
  | conv _ _ _ hAB ih _ =>
    obtain ⟨B, T, hT, hconv, hA, hs⟩ := ih ht
    cases hT
    exact ⟨B, _, rfl, hconv.trans hAB, hA, hs⟩
  | _ => exact absurd ht (by simp)

/-! ## Sorts are families or kinds -/

/-- The sort of a well-sorted term, if it is a term, is a family or a kind. -/
theorem isFamilyOrKind {t : Nameless} {S : NamelessSort} (h : HasSort sig metas Γ t S)
    (hΓ : Admissible sig metas Γ) {T : Nameless} (hT : S = .term T) :
    IsFamilyOrKind sig metas Γ T := by
  induction h generalizing T with
  | type Γ => exact absurd hT (by simp)
  | const h =>
    cases hT
    exact hΓ.global _ (Or.inl ⟨_, h⟩)
  | name h =>
    cases hT
    exact hΓ.declared _ _ h
  | metaVar h =>
    cases hT
    exact hΓ.global _ (Or.inr ⟨_, h⟩)
  | pi _ _ hS _ _ =>
    rcases hS with rfl | rfl
    · cases hT
      exact isFamilyOrKind_type
    · exact absurd hT (by simp)
  | lam hA _ _ ihs =>
    cases hT
    obtain ⟨S, hS, hB⟩ := ihs (hΓ.push hA) rfl
    exact ⟨S, hS, pi hA hB hS⟩
  | app hf ha ihf _ =>
    cases hT
    obtain ⟨S, _, hpi⟩ := ihf hΓ rfl
    obtain ⟨_, U, hU, hB⟩ := hpi.pi_inv
    have hinst := hB.instantiate ha
    rw [hU.subst_eq] at hinst
    exact ⟨U, hU, hinst⟩
  | conv _ hB hS _ _ _ =>
    cases hT
    exact ⟨_, hS, hB⟩

/-- The domain of the sort of a well-sorted function is a type, and its codomain, for an argument,
is a family or a kind. -/
theorem codomain_isFamilyOrKind {f a A B : Nameless} (hf : HasSort sig metas Γ f (.term (.pi A B)))
    (ha : HasSort sig metas Γ a (.term A)) (hΓ : Admissible sig metas Γ) :
    IsFamilyOrKind sig metas Γ (B.instantiate a) :=
  (app hf ha).isFamilyOrKind hΓ rfl

/-! ## Subject reduction -/

/-- Contracting a well-sorted redex keeps its sort. -/
theorem beta {A s a C D : Nameless} (hf : HasSort sig metas Γ (.lam A s) (.term (.pi C D)))
    (ha : HasSort sig metas Γ a (.term C)) (hΓ : Admissible sig metas Γ) :
    HasSort sig metas Γ (s.instantiate a) (.term (D.instantiate a)) := by
  obtain ⟨B, T, hT, hconv, hA, hs⟩ := hf.lam_inv
  cases hT
  -- The abstraction and its sort agree on domain and codomain up to convertibility only.
  obtain ⟨hAC, hBD⟩ := hconv.pi_inj
  have haA : HasSort sig metas Γ a (.term A) := conv ha hA (Or.inl rfl) hAC.symm
  obtain ⟨U, hU, hD⟩ := hf.codomain_isFamilyOrKind ha hΓ
  exact conv (hs.instantiate haA) hD hU (hBD.instantiate a)

theorem step {t t' : Nameless} {S : NamelessSort} (h : HasSort sig metas Γ t S)
    (hΓ : Admissible sig metas Γ) (hstep : Step Beta t t') : HasSort sig metas Γ t' S := by
  induction h generalizing t' with
  | type | const _ | name _ | metaVar _ =>
    cases hstep with
    | root hβ => cases hβ
  | pi hA hB hS ihA ihB =>
    cases hstep with
    | root hβ => cases hβ
    | domain hAA' =>
      have hconv := convertible_of_step hAA'
      exact pi (ihA hΓ hAA') (hB.convert_domain hA hconv) hS
    | scope hBB' => exact pi hA (ihB (hΓ.push hA) hBB') hS
  | lam hA hs ihA ihs =>
    cases hstep with
    | root hβ => cases hβ
    | domain hAA' =>
      have hconv := convertible_of_step hAA'
      -- The sort of the reduct is the product over the reduced type.
      obtain ⟨U, hU, hpi⟩ := (lam hA hs).isFamilyOrKind hΓ rfl
      exact conv (lam (ihA hΓ hAA') (hs.convert_domain hA hconv)) hpi hU
        (.bind .pi hconv.symm (.refl _))
    | scope hss' => exact lam hA (ihs (hΓ.push hA) hss')
  | app hf ha ihf iha =>
    cases hstep with
    | root hβ =>
      cases hβ
      exact beta hf ha hΓ
    | head hff' => exact app (ihf hΓ hff') ha
    | argument haa' =>
      have hconv := convertible_of_step haa'
      -- The sort of the reduct has the reduced argument in the codomain.
      obtain ⟨U, hU, hB⟩ := hf.codomain_isFamilyOrKind ha hΓ
      exact conv (app hf (iha hΓ haa')) hB hU (Convertible.instantiate_right _ hconv.symm)
  | conv _ hB hS hAB iht _ => exact conv (iht hΓ hstep) hB hS hAB

/-- **Subject reduction.** -/
theorem reduces {t t' : Nameless} {S : NamelessSort} (h : HasSort sig metas Γ t S)
    (hΓ : Admissible sig metas Γ) (hred : Reduces Beta t t') : HasSort sig metas Γ t' S := by
  induction hred with
  | refl => exact h
  | tail _ hstep ih => exact ih.step hΓ hstep

/-- The sort of a term may be reduced. -/
theorem reduces_sort {t A A' : Nameless} (h : HasSort sig metas Γ t (.term A))
    (hΓ : Admissible sig metas Γ) (hred : Reduces Beta A A') :
    HasSort sig metas Γ t (.term A') := by
  obtain ⟨S, hS, hA⟩ := h.isFamilyOrKind hΓ rfl
  exact conv h (hA.reduces hΓ hred) hS (convertible_of_reduces hred)

end HasSort

end LogicalFramework

import LogicalFramework.Proofs.NormalForm
import LogicalFramework.Proofs.Shapes

/-!
# Strong normalization

Every sequence of β-contractions from a well-sorted term ends. The proof is by reducibility over
shapes: each shape stands for a set of terms, of which those for an arrow are the terms that take
the terms of the domain to terms of the codomain. Conversion keeps the shape of a sort, so that it
does not show in the sets.

* `Candidate` — what the sets have in common, `Candidate.arrow` and `Candidate.contains_lam` — how
  they are made and that abstractions are in them;
* `HasSort.reducible` — well-sorted terms are in the sets of their sorts, by induction on the
  derivation;
* `HasSort.terminates` — well-sorted terms terminate;
* `Nameless.Terminates.induction` — induction over what a term that terminates reduces to, and over
  what occurs in it.
-/

namespace LogicalFramework

namespace Nameless

/-! ## Terms that terminate -/

/-- That every sequence of contractions from the term ends. -/
def Terminates (t : Nameless) : Prop :=
  Acc (fun u t => Step Beta t u) t

namespace Terminates

theorem step {t u : Nameless} (ht : t.Terminates) (h : Step Beta t u) : u.Terminates :=
  ht.inv h

/-- A term terminates if its image does under an operation that keeps contractions. -/
theorem of_map {f : Nameless → Nameless} (hf : ∀ {t u}, Step Beta t u → Step Beta (f t) (f u))
    {t : Nameless} (h : (f t).Terminates) : t.Terminates :=
  Subrelation.accessible (fun hstep => hf hstep) (InvImage.accessible f h)

theorem head {h a : Nameless} (ht : (app h a).Terminates) : h.Terminates :=
  of_map (f := fun h => app h a) Step.head ht

theorem of_subst {t : Nameless} {σ : Name → Nameless} (h : (t.subst σ).Terminates) :
    t.Terminates :=
  of_map (f := fun t => t.subst σ) (fun hstep => hstep.subst (fun σ _ _ hβ => hβ.subst σ) σ) h

/-- A product terminates if its parts do. -/
theorem pi {A B : Nameless} (hA : A.Terminates) (hB : B.Terminates) :
    (Nameless.pi A B).Terminates := by
  induction hA generalizing B with
  | intro A hA ihA =>
    induction hB with
    | intro B hB ihB =>
      refine ⟨_, fun u hu => ?_⟩
      cases hu with
      | root hβ => cases hβ
      | domain hA' => exact ihA _ hA' ⟨B, hB⟩
      | scope hB' => exact ihB _ hB'

end Terminates

end Nameless

/-! ## Sets of terms that terminate -/

/-- A set of terms that terminate. It is closed under contraction, and it contains a term that is no
abstraction if it contains all terms to which that one contracts. -/
structure Candidate where
  /-- Whether a term is in the set. -/
  Contains : Nameless → Prop
  /-- The terms of the set terminate. -/
  terminates : ∀ {t}, Contains t → t.Terminates
  /-- The set is closed under contraction. -/
  step : ∀ {t u}, Contains t → Step Beta t u → Contains u
  /-- The set is closed under expansion to terms that are no abstractions. -/
  expand : ∀ {t}, t.isLambda = false → (∀ u, Step Beta t u → Contains u) → Contains t

namespace Candidate

/-- All terms that terminate. -/
def terminating : Candidate where
  Contains := Nameless.Terminates
  terminates := id
  step := Nameless.Terminates.step
  expand := fun _ h => ⟨_, h⟩

variable (C D : Candidate)

/-- A term without a redex that is no abstraction is in every set. -/
theorem contains_of_isNormal {t : Nameless} (ht : t.IsNormal) (hlam : t.isLambda = false) :
    C.Contains t :=
  C.expand hlam fun _ hstep => absurd hstep ht.not_step

/-- The terms that take the terms of `C` to terms of `D`. -/
def arrow : Candidate where
  Contains f := ∀ a, C.Contains a → D.Contains (.app f a)
  terminates := by
    intro f hf
    have htype : C.Contains .type := C.contains_of_isNormal trivial rfl
    exact (D.terminates (hf .type htype)).head
  step := fun hf hstep a ha => D.step (hf a ha) (.head hstep)
  expand := by
    intro f hlam hf a ha
    -- The argument may be contracted as well, so this is by induction on how it terminates.
    have haT := C.terminates ha
    induction haT with
    | intro a _ iha =>
      refine D.expand rfl fun u hu => ?_
      cases hu with
      | root hβ =>
        cases hβ
        exact Bool.noConfusion hlam
      | head hstep => exact hf _ hstep a ha
      | argument hstep => exact iha _ hstep (C.step ha hstep)

variable {C D}

/-- An abstraction takes the terms of `C` to terms of `D` if its scope, instantiated, does. -/
theorem contains_lam {A s : Nameless} (hA : A.Terminates)
    (hs : ∀ a, C.Contains a → D.Contains (s.instantiate a)) :
    (C.arrow D).Contains (.lam A s) := by
  have hsT : s.Terminates :=
    (D.terminates (hs .type (C.contains_of_isNormal trivial rfl))).of_subst
  -- The type, the scope and the argument of the redex can all be contracted.
  induction hA generalizing s with
  | intro A hA ihA =>
    induction hsT with
    | intro s hsT ihs =>
      intro a ha
      have haT := C.terminates ha
      induction haT with
      | intro a _ iha =>
        refine D.expand rfl fun u hu => ?_
        cases hu with
        | root hβ =>
          cases hβ
          exact hs a ha
        | head hstep =>
          cases hstep with
          | root hβ => cases hβ
          | domain hA' => exact ihA _ hA' hs ⟨s, hsT⟩ a ha
          | scope hs' =>
            have hscope : ∀ b, C.Contains b → D.Contains (Nameless.instantiate _ b) :=
              fun b hb => D.step (hs b hb) (hs'.subst (fun σ _ _ hβ => hβ.subst σ) _)
            exact ihs _ hs' hscope a ha
        | argument ha' => exact iha _ ha' (C.step ha ha')

end Candidate

/-- The set of terms that a shape stands for. -/
def Shape.candidate : Shape → Candidate
  | sort => .terminating
  | base => .terminating
  | arrow domain codomain => domain.candidate.arrow codomain.candidate

/-- The set of terms that a sort stands for. -/
def NamelessSort.candidate : NamelessSort → Candidate
  | kind => .terminating
  | term T => T.shape.candidate

/-! ## Well-sorted terms terminate -/

variable {sig : Signature} {metas : MetaContext} {Γ : Locals}

/-- A substitution of terms that are in the sets of the declared sorts. -/
def Locals.Reducible (Γ : Locals) (σ : Name → Nameless) : Prop :=
  ∀ n A, Γ n = some A → A.shape.candidate.Contains (σ n)

theorem Locals.Reducible.push {σ : Name → Nameless} (hσ : Γ.Reducible σ) {A a : Nameless}
    (ha : A.shape.candidate.Contains a) : (Γ.push A).Reducible (Name.under a σ) := by
  intro n B hn
  rcases Locals.push_cases hn with ⟨rfl, rfl⟩ | ⟨m, C, rfl, hm, rfl⟩
  · rw [Nameless.shift, Nameless.shape_rename]
    exact ha
  · rw [Nameless.shift, Nameless.shape_rename, Name.under_succ]
    exact hσ m C hm

/-- Substituting under a binder and then for its variable is one substitution. -/
theorem Nameless.instantiate_subst_lift (s a : Nameless) (σ : Name → Nameless) :
    (s.subst (lift σ)).instantiate a = s.subst (Name.under a σ) := by
  rw [instantiate, subst_subst]
  congr 1
  apply Name.under_ext
  · rfl
  · intro n
    show (lift σ n.succ).instantiate a = _
    rw [lift_succ, instantiate_shift, Name.under_succ]

/-- **Reducibility.** A well-sorted term, with terms from the sets of the declared sorts for its
names, is in the set of its sort. -/
theorem HasSort.reducible {t : Nameless} {S : NamelessSort} (h : HasSort sig metas Γ t S)
    (hΓ : LayeredDeclarations sig metas Γ) {σ : Name → Nameless} (hσ : Γ.Reducible σ) :
    S.candidate.Contains (t.subst σ) := by
  induction h generalizing σ with
  | type Γ => exact Candidate.contains_of_isNormal _ trivial rfl
  | const _ => exact Candidate.contains_of_isNormal _ trivial rfl
  | name h => exact hσ _ _ h
  | metaVar _ => exact Candidate.contains_of_isNormal _ trivial rfl
  | pi hA hB hS ihA ihB =>
    have hAT := ihA hΓ hσ
    have htype : ∀ C : Candidate, C.Contains .type := fun C => C.contains_of_isNormal trivial rfl
    have hBT := ihB (hΓ.push (hA.layered hΓ).1) (hσ.push (htype _))
    rw [← Nameless.instantiate_subst_lift] at hBT
    have hpi := Nameless.Terminates.pi hAT (Candidate.terminates _ hBT).of_subst
    rcases hS with rfl | rfl <;> exact hpi
  | lam hA _ ihA ihs =>
    refine Candidate.contains_lam (ihA hΓ hσ) fun a ha => ?_
    rw [Nameless.instantiate_subst_lift]
    exact ihs (hΓ.push (hA.layered hΓ).1) (hσ.push ha)
  | app hf ha ihf iha =>
    obtain ⟨halayered, hbase⟩ := hf.argument_shape ha hΓ
    rw [NamelessSort.candidate, Nameless.shape_instantiate _ halayered hbase]
    exact ihf hΓ hσ _ (iha hΓ hσ)
  | conv ht hB _ hAB iht _ =>
    obtain ⟨_, hA, _⟩ := ht.layered hΓ
    have hmem := iht hΓ hσ
    rw [NamelessSort.candidate, hAB.shape_eq hA (hB.layered hΓ).1] at hmem
    exact hmem

/-- **Strong normalization.** Every sequence of contractions from a well-sorted term ends. -/
theorem HasSort.terminates {t : Nameless} {S : NamelessSort} (h : HasSort sig metas Γ t S)
    (hΓ : LayeredDeclarations sig metas Γ) : t.Terminates := by
  have hmem := h.reducible hΓ (σ := Nameless.name) fun n A _ =>
    Candidate.contains_of_isNormal _ trivial rfl
  rw [Nameless.subst_name] at hmem
  exact Candidate.terminates _ hmem

/-! ## Induction on how a term terminates -/

namespace Nameless

/-- That a term occurs in another one, at its root or below it. -/
inductive Within (p : Nameless) : Nameless → Prop where
  | refl : Within p p
  | head {h a : Nameless} (hp : Within p h) : Within p (app h a)
  | argument {h a : Nameless} (hp : Within p a) : Within p (app h a)
  | domain {q : Binder} {A s : Nameless} (hp : Within p A) : Within p (bind q A s)
  | scope {q : Binder} {A s : Nameless} (hp : Within p s) : Within p (bind q A s)

theorem Within.trans {p q t : Nameless} (hp : p.Within q) (hq : q.Within t) : p.Within t := by
  induction hq with
  | refl => exact hp
  | head _ ih => exact head ih
  | argument _ ih => exact argument ih
  | domain _ ih => exact domain ih
  | scope _ ih => exact scope ih

/-- A contraction in a term that occurs in another one is a contraction in that one. -/
theorem Within.step {p t u : Nameless} (hp : p.Within t) (h : Step Beta p u) :
    ∃ t', Step Beta t t' ∧ u.Within t' := by
  induction hp with
  | refl => exact ⟨u, h, refl⟩
  | head _ ih =>
    obtain ⟨t', hstep, hu⟩ := ih
    exact ⟨_, .head hstep, head hu⟩
  | argument _ ih =>
    obtain ⟨t', hstep, hu⟩ := ih
    exact ⟨_, .argument hstep, argument hu⟩
  | domain _ ih =>
    obtain ⟨t', hstep, hu⟩ := ih
    exact ⟨_, .domain hstep, domain hu⟩
  | scope _ ih =>
    obtain ⟨t', hstep, hu⟩ := ih
    exact ⟨_, .scope hstep, scope hu⟩

theorem Within.reduces {p t u : Nameless} (hp : p.Within t) (h : Reduces Beta p u) :
    ∃ t', Reduces Beta t t' ∧ u.Within t' := by
  induction h with
  | refl => exact ⟨t, .refl, hp⟩
  | tail _ hstep ih =>
    obtain ⟨v, htv, hv⟩ := ih
    obtain ⟨t', hvt', hu⟩ := hv.step hstep
    exact ⟨t', htv.tail hvt', hu⟩

/-- A property of all terms that terminate is proved for a term from the same for what it reduces to
in one contraction or more, and for the smaller terms that occur in it. -/
theorem Terminates.induction {P : Nameless → Prop}
    (ih : ∀ t, (∀ u v, Step Beta t u → Reduces Beta u v → P v) →
      (∀ p, p.Within t → p.size < t.size → P p) → P t)
    {t : Nameless} (ht : t.Terminates) : P t := by
  -- For what occurs in a reduct of `t`, since a part of `t` is not a reduct of `t` itself.
  have hall : ∀ u, Reduces Beta t u → ∀ p : Nameless, p.Within u → P p := by
    induction ht with
    | intro t _ iht =>
      intro u htu
      rcases htu.cases_head with rfl | ⟨v, htv, hvu⟩
      · intro p hp
        induction hn : p.size using Nat.strong_induction_on generalizing p with
        | _ n ihn =>
        apply ih p
        · intro w v hpw hwv
          obtain ⟨t₁, htt₁, hw⟩ := hp.step hpw
          obtain ⟨t₂, ht₁t₂, hv⟩ := hw.reduces hwv
          exact iht t₁ htt₁ t₂ ht₁t₂ v hv
        · intro p' hp' hsize
          exact ihn p'.size (hn ▸ hsize) p' (hp'.trans hp) rfl
      · exact iht v htv u hvu
  exact hall t .refl t .refl

end Nameless

end LogicalFramework

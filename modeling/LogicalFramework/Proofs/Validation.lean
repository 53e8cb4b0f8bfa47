import LogicalFramework.Proofs.Decidability

/-!
# When validation answers

Declarations are validated from the newest on, so that a sort is looked up before the declaration it
stands in has been validated. A sort that is not well-sorted need not have a normal form, and then
the look-up does not end. This is the only way in which validation can have no answer: the newest
declaration of a validated list is always admitted or refused.

* `Bindings.RefusesOlder` — that a list without some of its newest declarations is refused;
* `Bindings.answers_validate` — validation answers or an older part of the list is refused, by
  induction from the oldest declaration;
* `Environment.validate_answers_or_older_refused` — the same for signatures, contexts, meta-contexts
  and environments;
* `Environment.validate_endless` — declarations for which there is no answer.
-/

namespace LogicalFramework

open Filter Outcome

/-! ## Declarations in general -/

namespace Bindings

variable {κ : Type} {validate : Nat → Bindings κ Term → Outcome (DeclarationError κ) Unit}

/-- That the validation of a list of declarations fails, with one fault for all large enough bounds.
-/
def Refuses (validate : Nat → Bindings κ Term → Outcome (DeclarationError κ) Unit)
    (b : Bindings κ Term) : Prop :=
  ∃ e, ∀ᶠ fuel in atTop, validate fuel b = fail e

/-- That what is left of a list of declarations without some of the newest ones is refused. -/
def RefusesOlder (validate : Nat → Bindings κ Term → Outcome (DeclarationError κ) Unit)
    (b : Bindings κ Term) : Prop :=
  ∃ newer older, newer ≠ [] ∧ b.newestFirst = newer ++ older ∧ Refuses validate ⟨older⟩

/-- That a list of declarations, or what is left of it without some of the newest ones, is refused.
-/
def RefusesPart (validate : Nat → Bindings κ Term → Outcome (DeclarationError κ) Unit)
    (b : Bindings κ Term) : Prop :=
  Refuses validate b ∨ RefusesOlder validate b

theorem RefusesPart.add {older : Bindings κ Term} (h : older.RefusesPart validate) (key : κ)
    (sort : Term) : (older.add key sort).RefusesOlder validate := by
  rcases h with h | ⟨newer, oldest, -, hsplit, h⟩
  · exact ⟨[(key, sort)], older.newestFirst, by simp, rfl, h⟩
  · exact ⟨(key, sort) :: newer, oldest, by simp, by simp [Bindings.add, hsplit], h⟩

/-- Declarations whose validation answers are validated or refused. -/
theorem validated_or_refuses {b : Bindings κ Term} (h : Answers fun fuel => validate fuel b) :
    (∀ᶠ fuel in atTop, validate fuel b = ok ()) ∨ b.Refuses validate := by
  obtain ⟨o, ho, h⟩ := h
  cases o with
  | ok _ => exact Or.inl h
  | fail e => exact Or.inr ⟨e, h⟩
  | exhausted => exact absurd rfl ho

/-- Declarations are validated, or a part of them is refused. -/
theorem validated_or_refusesPart {b : Bindings κ Term}
    (h : (Answers fun fuel => validate fuel b) ∨ b.RefusesOlder validate) :
    (∀ᶠ fuel in atTop, validate fuel b = ok ()) ∨ b.RefusesPart validate := by
  rcases h with h | h
  · exact (validated_or_refuses h).imp_right Or.inl
  · exact Or.inr (Or.inr h)

variable [DecidableEq κ] {admitted : Nat → Bindings κ Term → Term → Outcome SortError Unit}

theorem validate_cons (admitted : Bindings κ Term → Term → Outcome SortError Unit) (key : κ)
    (sort : Term) (older : List (κ × Term)) :
    Bindings.validate admitted ⟨(key, sort) :: older⟩ =
      if (mk older).contains key then .fail (.redeclared key)
      else (do
        (admitted ⟨older⟩ sort).mapFail (.illSorted key)
        Bindings.validate admitted ⟨older⟩) :=
  rfl

theorem validate_eq_exhausted {admitted : Bindings κ Term → Term → Outcome SortError Unit} {key : κ}
    {sort : Term} {older : List (κ × Term)} (hkey : (mk older).contains key = false)
    (h : admitted ⟨older⟩ sort = exhausted) :
    Bindings.validate admitted ⟨(key, sort) :: older⟩ = exhausted := by
  rw [validate_cons, hkey, h]
  rfl

/-- **Validation answers, or it is answered on an older part.** If the newest declaration of a list
is admitted or refused whenever the list without it is validated, then the validation of every list
answers, or fails for what is left without some of the newest declarations. -/
theorem answers_validate (hadmitted : ∀ older sort,
      (∀ᶠ fuel in atTop, Bindings.validate (admitted fuel) older = ok ()) →
        Answers fun fuel => admitted fuel older sort) (b : Bindings κ Term) :
    (Answers fun fuel => Bindings.validate (admitted fuel) b) ∨
      b.RefusesOlder fun fuel => Bindings.validate (admitted fuel) := by
  obtain ⟨entries⟩ := b
  induction entries with
  | nil => exact Or.inl (.ok ())
  | cons entry older ih =>
    obtain ⟨key, sort⟩ := entry
    rcases ih with holder | holder
    · rcases validated_or_refuses holder with hvalid | hrefused
      · left
        simp only [validate_cons]
        split
        · exact .fail _
        · exact .bind (.mapFail _ (hadmitted _ _ hvalid)) fun _ _ => holder
      · exact Or.inr (RefusesPart.add (Or.inl hrefused) key sort)
    · exact Or.inr (RefusesPart.add (Or.inr holder) key sort)

end Bindings

/-! ## Signatures, contexts and meta-contexts -/

open Bindings (RefusesOlder RefusesPart validated_or_refusesPart)

theorem Environment.answers_check {env : Environment} (henv : env.IsAdmissible)
    (hlayered : env.IsLayered) (t : Term) : Answers fun fuel => env.check fuel t .type := by
  refine .bind (answers_sortOf henv hlayered t) fun S hS => ?_
  obtain ⟨_, hS⟩ := hS.exists
  exact answers_expectSort t (S := .type) trivial (isNormal_of_sortOf hS)

theorem Signature.answers_validate (sig : Signature) :
    (Answers fun fuel => sig.validate fuel) ∨ sig.RefusesOlder Signature.validate := by
  refine Bindings.answers_validate (fun older sort hvalid => ?_) sig
  obtain ⟨_, hvalid⟩ := hvalid.exists
  refine .bind (Environment.answers_sortOf (isAdmissible_of_validate hvalid)
    (isLayered_of_validate hvalid) sort) fun S hS => ?_
  obtain ⟨_, hS⟩ := hS.exists
  exact answers_expectFamilyOrKind sort (Environment.isNormal_of_sortOf hS)

theorem Context.answers_validate {sig : Signature}
    (hsig : ∀ᶠ fuel in atTop, sig.validate fuel = ok ()) (ctx : Context) :
    (Answers fun fuel => ctx.validate fuel sig) ∨
      ctx.RefusesOlder fun fuel => Context.validate fuel sig := by
  obtain ⟨_, hsig⟩ := hsig.exists
  have hadmissible := Signature.isAdmissible_of_validate hsig
  refine Bindings.answers_validate (fun older sort hvalid => ?_) ctx
  obtain ⟨_, hvalid⟩ := hvalid.exists
  exact Environment.answers_check (isAdmissible_of_validate hadmissible hvalid)
    (isLayered_of_validate hadmissible (Signature.isLayered_of_validate hsig) hvalid) sort

theorem MetaContext.answers_validate {sig : Signature} {ctx : Context}
    (hsig : ∀ᶠ fuel in atTop, sig.validate fuel = ok ())
    (hctx : ∀ᶠ fuel in atTop, ctx.validate fuel sig = ok ()) (metas : MetaContext) :
    (Answers fun fuel => metas.validate fuel sig ctx) ∨
      metas.RefusesOlder fun fuel => MetaContext.validate fuel sig ctx := by
  obtain ⟨_, hsig⟩ := hsig.exists
  obtain ⟨_, hctx⟩ := hctx.exists
  have hadmissible := Signature.isAdmissible_of_validate hsig
  have hadmissible' := Context.isAdmissible_of_validate hadmissible hctx
  have hlayered :=
    Context.isLayered_of_validate hadmissible (Signature.isLayered_of_validate hsig) hctx
  refine Bindings.answers_validate (fun older sort hvalid => ?_) metas
  obtain ⟨_, hvalid⟩ := hvalid.exists
  exact Environment.answers_check (isAdmissible_of_validate hadmissible' hvalid)
    (isLayered_of_validate hadmissible' hlayered hvalid) sort

namespace Environment

/-- Validation of an environment answers, or an older part of one of its lists is refused. -/
theorem answers_validate (env : Environment) :
    (Answers fun fuel => env.validate fuel) ∨ env.signature.RefusesOlder Signature.validate ∨
      (env.context.RefusesOlder fun fuel => Context.validate fuel env.signature) ∨
      env.metas.RefusesOlder fun fuel => MetaContext.validate fuel env.signature env.context := by
  obtain ⟨sig, ctx, metas⟩ := env
  rcases Signature.answers_validate sig with hsig | hsig
  swap
  · exact Or.inr (Or.inl hsig)
  by_cases hctx : ctx.RefusesOlder fun fuel => Context.validate fuel sig
  · exact Or.inr (Or.inr (Or.inl hctx))
  by_cases hmetas : metas.RefusesOlder fun fuel => MetaContext.validate fuel sig ctx
  · exact Or.inr (Or.inr (Or.inr hmetas))
  -- Each list is reached only if those before it are validated.
  refine Or.inl (.bind (.mapFail _ hsig) fun _ hsig => ?_)
  simp only [mapFail_eq_ok_iff] at hsig
  refine .bind (.mapFail _ ((Context.answers_validate hsig ctx).resolve_right hctx))
    fun _ hctx => ?_
  simp only [mapFail_eq_ok_iff] at hctx
  exact .mapFail _ ((MetaContext.answers_validate hsig hctx metas).resolve_right hmetas)

/-- **When validation answers.** The validation of a signature, of a context, of a meta-context and
of an environment answers, with success or with a fault that is the same for all large enough
bounds, except if what it looks sorts up in is refused itself: an older part of the same list, or a
part of the lists that the sorts of this list may mention. -/
theorem validate_answers_or_older_refused (sig : Signature) (ctx : Context) (metas : MetaContext) :
    ((Answers fun fuel => sig.validate fuel) ∨ sig.RefusesOlder Signature.validate) ∧
    ((Answers fun fuel => ctx.validate fuel sig) ∨ sig.RefusesPart Signature.validate ∨
      ctx.RefusesOlder fun fuel => Context.validate fuel sig) ∧
    ((Answers fun fuel => metas.validate fuel sig ctx) ∨ sig.RefusesPart Signature.validate ∨
      (ctx.RefusesPart fun fuel => Context.validate fuel sig) ∨
      metas.RefusesOlder fun fuel => MetaContext.validate fuel sig ctx) ∧
    ((Answers fun fuel => Environment.validate fuel ⟨sig, ctx, metas⟩) ∨
      sig.RefusesOlder Signature.validate ∨
      (ctx.RefusesOlder fun fuel => Context.validate fuel sig) ∨
      metas.RefusesOlder fun fuel => MetaContext.validate fuel sig ctx) := by
  refine ⟨Signature.answers_validate sig, ?_, ?_, answers_validate ⟨sig, ctx, metas⟩⟩
  · rcases validated_or_refusesPart (Signature.answers_validate sig) with hsig | hsig
    · exact (Context.answers_validate hsig ctx).imp_right Or.inr
    · exact Or.inr (Or.inl hsig)
  · rcases validated_or_refusesPart (Signature.answers_validate sig) with hsig | hsig
    · rcases validated_or_refusesPart (Context.answers_validate hsig ctx) with hctx | hctx
      · exact (MetaContext.answers_validate hsig hctx metas).imp_right fun h => Or.inr (Or.inr h)
      · exact Or.inr (Or.inr (Or.inl hctx))
    · exact Or.inr (Or.inl hsig)

end Environment

/-! ## Declarations without an answer -/

namespace Term

/-- The abstraction `λ x : Type, x x x x x x`. -/
def repeater : Term :=
  .lam ⟨"x"⟩ .type ((var ⟨"x"⟩).applyAll (List.replicate 5 (var ⟨"x"⟩)))

/-- The repeater applied to itself. It reduces to a longer spine that has it at the head again. -/
def endless : Term :=
  app repeater repeater

theorem normalForm_app_eq_none {fuel : Nat} {h : Term} (a : Term)
    (hh : h.normalForm fuel = none) : (app h a).normalForm (fuel + 1) = none := by
  rw [normalForm, hh]
  rfl

/-- A spine whose head has no normal form within the bound has none. -/
theorem normalForm_applyAll_eq_none {fuel : Nat} {h : Term}
    (hh : ∀ n, n ≤ fuel → h.normalForm n = none) (arguments : List Term) :
    ∀ n, n ≤ fuel → (h.applyAll arguments).normalForm n = none := by
  induction arguments generalizing h with
  | nil => exact hh
  | cons a arguments ih =>
    refine ih fun n hn => ?_
    cases n with
    | zero => rfl
    | succ n => exact normalForm_app_eq_none a (hh n (by omega))

theorem normalForm_repeater {fuel : Nat} {t : Term} (h : repeater.normalForm fuel = some t) :
    t = repeater := by
  have hrepeater : repeater.normalForm 10 = some repeater := by decide +kernel
  exact Kept.unique (fun hle => normalForm_kept hle _) h hrepeater

/-- The term has no normal form, whatever the bound is. -/
theorem normalForm_endless (fuel : Nat) : endless.normalForm fuel = none := by
  induction fuel using Nat.strong_induction_on with
  | _ fuel ih =>
    cases fuel with
    | zero => rfl
    | succ fuel =>
      rw [Option.eq_none_iff_forall_ne_some]
      intro t ht
      obtain ⟨h', a', hh, ha, hcases⟩ := normalForm_app_cases ht
      obtain rfl := normalForm_repeater hh
      obtain rfl := normalForm_repeater ha
      rcases hcases with ⟨x, A, s, hlam, hs⟩ | ⟨hlam, _⟩
      · unfold repeater at hlam
        cases hlam
        have hspine : (((var ⟨"x"⟩).applyAll (List.replicate 5 (var ⟨"x"⟩))).subst ⟨"x"⟩ repeater) =
            endless.applyAll (List.replicate 4 repeater) := by decide +kernel
        rw [hspine, normalForm_applyAll_eq_none (fun n hn => ih n (by omega)) _ fuel le_rfl] at hs
        exact absurd hs (by simp)
      · exact absurd hlam (by decide)

end Term

namespace Environment

/-- Two declarations each. The older one is not well-sorted, and the newer one mentions it. -/
def endless : Environment where
  signature := ⟨[(.constant ⟨"next"⟩, .const ⟨"loop"⟩), (.constant ⟨"loop"⟩, Term.endless)]⟩
  context := ⟨[(⟨"y"⟩, .var ⟨"x"⟩), (⟨"x"⟩, Term.endless)]⟩
  metas := ⟨[(⟨"n"⟩, .metaVar ⟨"m"⟩), (⟨"m"⟩, Term.endless)]⟩

theorem check_eq_exhausted {env : Environment} {fuel : Nat} {t : Term} (S : TermSort)
    (h : env.sortOf fuel t = exhausted) : env.check fuel t S = exhausted := by
  rw [check, h]
  rfl

/-- A look-up has no answer if the declared sort has no normal form. -/
theorem declared_endless (fuel : Nat) :
    (ofOption ((TermSort.term Term.endless).normalForm fuel) : Outcome SortError TermSort) =
      exhausted := by
  rw [TermSort.normalForm, Term.normalForm_endless]
  rfl

/-- No bound is large enough to validate these declarations, neither the lists by themselves nor the
environment. -/
theorem validate_endless :
    (∀ fuel, endless.signature.validate fuel = exhausted) ∧
      (∀ fuel, endless.context.validate fuel .empty = exhausted) ∧
      (∀ fuel, endless.metas.validate fuel .empty .empty = exhausted) ∧
      ∀ fuel, endless.validate fuel = exhausted := by
  have hsig (fuel : Nat) : endless.signature.validate fuel = exhausted := by
    refine Bindings.validate_eq_exhausted (by decide) ?_
    have hloop : (ofSignature ⟨[(.constant ⟨"loop"⟩, Term.endless)]⟩).sortOf fuel
        (.const ⟨"loop"⟩) = exhausted := declared_endless fuel
    rw [hloop]
    rfl
  refine ⟨hsig, fun fuel => ?_, fun fuel => ?_, fun fuel => ?_⟩
  · exact Bindings.validate_eq_exhausted (by decide) (check_eq_exhausted _ (declared_endless fuel))
  · exact Bindings.validate_eq_exhausted (by decide) (check_eq_exhausted _ (declared_endless fuel))
  · rw [validate, hsig]
    rfl

end Environment

end LogicalFramework

import LogicalFramework.Proofs.UniqueSorts

/-!
# The convertibility test accepts convertible well-sorted terms

An answer of the test on two well-sorted terms that are convertible is true, if their sorts are
convertible too, or if both are families or kinds. The test compares the types in two abstractions,
which convertibility does not say anything about. They are convertible because the sorts are. An
abstraction against another term is opened, which keeps both sides well-sorted. Weak head normal
forms of which neither is an abstraction have the same shape and convertible parts:

* `Convertible.samePartsUpTo` — because η-expansions are abstractions;
* `HasSort.sort_convertible` — and the heads of two such applications have convertible sorts;
* `Conversion.NamelessSide.equal_of_convertible` — by induction on the bound, from these.
-/

namespace LogicalFramework

/-! ## Terms that keep their shape -/

namespace Nameless

/-- Whether the term is a weak head normal form and no abstraction. -/
def IsRigid (t : Nameless) : Prop :=
  t.isLambda = false ∧ t.IsWeakHeadNormal

namespace SamePartsUpTo

variable {R R' : Nameless → Nameless → Prop} {s t : Nameless}

theorem mono (h : SamePartsUpTo R s t) (hR : ∀ {s t}, R s t → R' s t) :
    SamePartsUpTo R' s t := by
  cases h with
  | type => exact type
  | const c => exact const c
  | name n => exact name n
  | metaVar m => exact metaVar m
  | app hf ha => exact app (hR hf) (hR ha)
  | bind q hA hs => exact bind q (hR hA) (hR hs)

theorem symm (hR : ∀ {s t}, R s t → R t s) (h : SamePartsUpTo R s t) : SamePartsUpTo R t s := by
  cases h with
  | type => exact type
  | const c => exact const c
  | name n => exact name n
  | metaVar m => exact metaVar m
  | app hf ha => exact app (hR hf) (hR ha)
  | bind q hA hs => exact bind q (hR hA) (hR hs)

end SamePartsUpTo

/-- A parallel reduction of a rigid term is one of its parts, and leaves it rigid. -/
theorem IsRigid.parallel {η : Prop} {t u : Nameless} (ht : t.IsRigid) (h : Parallel η t u) :
    u.IsRigid ∧ SamePartsUpTo (Parallel η) t u := by
  induction h with
  | type => exact ⟨ht, .type⟩
  | const c => exact ⟨ht, .const c⟩
  | name n => exact ⟨ht, .name n⟩
  | metaVar m => exact ⟨ht, .metaVar m⟩
  | app hf ha ihf _ => exact ⟨⟨rfl, (ihf ht.2).1⟩, .app hf ha⟩
  | bind q hA hs _ _ =>
    cases q with
    | lam => exact Bool.noConfusion ht.1
    | pi => exact ⟨⟨rfl, trivial⟩, .bind .pi hA hs⟩
  | beta A _ _ _ _ => exact Bool.noConfusion ht.2.1
  | eta _ A _ _ => exact Bool.noConfusion ht.1
  | reset _ A _ _ => exact Bool.noConfusion ht.1

theorem IsRigid.many {η : Prop} {t u : Nameless} (ht : t.IsRigid) (h : Parallel.Many η t u) :
    SamePartsUpTo (Parallel.Many η) t u := by
  have hboth : u.IsRigid ∧ SamePartsUpTo (Parallel.Many η) t u := by
    induction h with
    | refl => exact ⟨ht, .refl (fun _ => .refl) t⟩
    | tail _ hstep ih =>
      obtain ⟨hv, hparts⟩ := ih
      obtain ⟨hu, hparts'⟩ := hv.parallel hstep
      exact ⟨hu, hparts.trans Relation.ReflTransGen.trans (hparts'.mono .single)⟩
  exact hboth.2

end Nameless

/-- Convertible rigid terms have the same shape and convertible parts. -/
theorem Convertible.samePartsUpTo {s t : Nameless} (h : Convertible s t) (hs : s.IsRigid)
    (ht : t.IsRigid) : Nameless.SamePartsUpTo Convertible s t := by
  obtain ⟨d, hsd, htd⟩ := h.join
  have hsparts := (hs.many hsd).mono convertible_of_many
  have htparts := (ht.many htd).mono convertible_of_many
  exact hsparts.trans Congruence.trans (htparts.symm Congruence.symm)

/-! ## Opening abstractions -/

/-- An abstraction of `s` that is applied to the variable of a binder contracts to `s`. -/
theorem convertible_app_shift_lam (A s : Nameless) :
    Convertible (.app (Nameless.lam A s).shift (.name (.bound 0))) s := by
  have hβ := Beta.contract A.shift (s.rename (Name.lift Name.succ)) (.name (.bound 0))
  rw [Nameless.instantiate_rename_lift_succ] at hβ
  exact .rule (Or.inl hβ)

/-- The scope of an abstraction is convertible to what the abstraction is convertible to, applied to
the variable. -/
theorem Convertible.scope {A s t : Nameless} (h : Convertible (.lam A s) t) :
    Convertible s (.app t.shift (.name (.bound 0))) :=
  (convertible_app_shift_lam A s).symm.trans (.app (h.rename Name.succ) (.refl _))

variable {sig : Signature} {metas : MetaContext} {Γ : Locals}

namespace HasSort

/-- A function, applied to a variable of its domain, has its codomain as its sort. -/
theorem app_shift {t A B : Nameless} (h : HasSort sig metas Γ t (.term (.pi A B))) :
    HasSort sig metas (Γ.push A) (.app t.shift (.name (.bound 0))) (.term B) := by
  have happ := app (h.weaken A) (name (n := .bound 0) rfl)
  rw [Nameless.instantiate_rename_lift_succ] at happ
  exact happ

end HasSort

/-! ## Sorts that terms are compared at -/

/-- That two terms of these sorts may be compared: the sorts are convertible, or both terms are
families or kinds. -/
def NamelessSort.Comparable (S S' : NamelessSort) : Prop :=
  S.Convertible S' ∨ S.ClassifiesFamilyOrKind ∧ S'.ClassifiesFamilyOrKind

theorem NamelessSort.Comparable.symm {S S' : NamelessSort} (h : S.Comparable S') :
    S'.Comparable S :=
  h.imp NamelessSort.Convertible.symm And.symm

namespace HasSort

/-- What an abstraction is compared with has the sort of the abstraction. -/
theorem of_comparable_lam {A s t : Nameless} {S S' : NamelessSort}
    (hlam : HasSort sig metas Γ (.lam A s) S) (ht : HasSort sig metas Γ t S')
    (hS : S.Comparable S') (hΓ : Admissible sig metas Γ) :
    ∃ B, HasSort sig metas Γ A (.term .type) ∧ HasSort sig metas (Γ.push A) s (.term B) ∧
      HasSort sig metas Γ t (.term (.pi A B)) := by
  obtain ⟨S₀, hformed, hconv⟩ := hlam.formed
  cases hformed with
  | @lam _ _ B hA hs =>
    refine ⟨B, hA, hs, ?_⟩
    obtain ⟨U, hU, hpi⟩ := (lam hA hs).isFamilyOrKind hΓ rfl
    rcases hS with hSS' | ⟨hfamily, _⟩
    · cases hconv.trans hSS' with
      | term h => exact conv ht hpi hU h.symm
    · exact absurd hfamily hconv.symm.not_classifiesFamilyOrKind

/-- The sorts of convertible rigid terms that are no products are convertible. -/
theorem sort_convertible {f g : Nameless} {S S' : NamelessSort} (hf : HasSort sig metas Γ f S)
    (hg : HasSort sig metas Γ g S') (h : Convertible f g) (hfr : f.IsRigid) (hgr : g.IsRigid)
    (hpi : f.isPi = false) : S.Convertible S' := by
  induction f generalizing g S S' with
  | app f a ihf _ =>
    cases h.samePartsUpTo hfr hgr with
    | app hfg hab =>
      obtain ⟨S₀, hformed, hconv⟩ := hf.formed
      obtain ⟨S₀', hformed', hconv'⟩ := hg.formed
      cases hformed with
      | app hf ha =>
        cases hformed' with
        | app hg hb =>
          cases ihf hf hg hfg hfr.2 hgr.2 hf.isPi_eq_false with
          | term hpi =>
            have hcodomain := (hpi.pi_inj.2.instantiate _).trans
              (Convertible.instantiate_right _ hab)
            exact (hconv.symm.trans (.term hcodomain)).trans hconv'
  | bind q A s _ _ =>
    cases q with
    | lam => exact Bool.noConfusion hfr.1
    | pi => exact Bool.noConfusion hpi
  | _ =>
    cases h.samePartsUpTo hfr hgr
    exact hf.unique hg

end HasSort

/-! ## The test -/

namespace Conversion.NamelessSide

/-- That the test accepts the convertible well-sorted terms whose sorts are comparable, whenever it
answers. -/
def AcceptsConvertible (sig : Signature) (metas : MetaContext) (l r : NamelessSide)
    (equal : NamelessSide → NamelessSide → Option Bool) : Prop :=
  ∀ {Γ : Locals} {s t : Nameless} {S S' : NamelessSort}, Admissible sig metas Γ →
    HasSort sig metas Γ s S → HasSort sig metas Γ t S' → S.Comparable S' → Convertible s t →
    ∀ same, equal (l.put s) (r.put t) = some same → same = true

variable {equal : NamelessSide → NamelessSide → Option Bool} {l r : NamelessSide}
  {S S' : NamelessSort} {same : Bool}

/-- An abstraction is compared with another term. -/
theorem compareHeads_of_lam_left (hequal : AcceptsConvertible sig metas l r equal)
    (hΓ : Admissible sig metas Γ) {A s : Nameless} (hl : l.term = .lam A s)
    (hlsort : HasSort sig metas Γ l.term S) (hrsort : HasSort sig metas Γ r.term S')
    (hS : S.Comparable S') (hconv : Convertible l.term r.term)
    (h : compareHeads equal l r = some same) : same = true := by
  rw [hl] at hlsort hconv
  obtain ⟨B, hA, hs, hr⟩ := hlsort.of_comparable_lam hrsort hS hΓ
  cases hrterm : r.term with
  | bind q A' t =>
    rw [hrterm] at hr hconv
    cases q with
    | pi => exact absurd hr.isPi_eq_false (by simp [Nameless.isPi])
    | lam =>
      obtain ⟨S₀, hformed, hsort⟩ := hr.formed
      cases hformed with
      | lam hA' ht =>
        cases hsort with
        | term hpi =>
          obtain ⟨hdomain, hcodomain⟩ := hpi.pi_inj
          have hscopes := hconv.scope.trans (convertible_app_shift_lam A' t)
          rw [compareHeads_bind hl hrterm, if_pos rfl] at h
          exact eq_true_of_bind_ite
            (hequal hΓ hA hA' (Or.inl (.refl _)) hdomain.symm)
            (hequal (hΓ.push hA) hs (ht.convert_domain hA' hdomain)
              (Or.inl (.term hcodomain.symm)) hscopes) h
  | _ =>
    have hbinder : r.term.isBinder = false := by rw [hrterm]; rfl
    rw [compareHeads_lam_left hl hbinder] at h
    exact hequal (hΓ.push hA) hs hr.app_shift (Or.inl (.refl _)) hconv.scope same h

/-- A term that is no abstraction is compared with an abstraction. -/
theorem compareHeads_of_lam_right (hequal : AcceptsConvertible sig metas l r equal)
    (hΓ : Admissible sig metas Γ) {A s : Nameless} (hl : l.term.isLambda = false)
    (hr : r.term = .lam A s) (hlsort : HasSort sig metas Γ l.term S)
    (hrsort : HasSort sig metas Γ r.term S') (hS : S.Comparable S')
    (hconv : Convertible l.term r.term) (h : compareHeads equal l r = some same) :
    same = true := by
  rw [hr] at hrsort hconv
  obtain ⟨B, hA, hs, hlpi⟩ := hrsort.of_comparable_lam hlsort hS.symm hΓ
  have hbinder := Nameless.isBinder_eq_false hl hlpi.isPi_eq_false
  rw [compareHeads_lam_right hbinder hr] at h
  have hscopes : Convertible (.app l.term.shift (.name (.bound 0))) s :=
    (Convertible.scope hconv.symm).symm
  exact hequal (hΓ.push hA) hlpi.app_shift hs (Or.inl (.refl _)) hscopes same h

/-- Two rigid terms are compared. -/
theorem compareHeads_of_isRigid (hequal : AcceptsConvertible sig metas l r equal)
    (hΓ : Admissible sig metas Γ) (hl : l.term.IsRigid) (hr : r.term.IsRigid)
    (hlsort : HasSort sig metas Γ l.term S) (hrsort : HasSort sig metas Γ r.term S')
    (hconv : Convertible l.term r.term) (h : compareHeads equal l r = some same) :
    same = true := by
  have hparts := Convertible.samePartsUpTo hconv hl hr
  obtain ⟨l, δ⟩ := l
  obtain ⟨r, ε⟩ := r
  cases hparts with
  | app hfg hab =>
    obtain ⟨_, hformed, _⟩ := hlsort.formed
    obtain ⟨_, hformed', _⟩ := hrsort.formed
    cases hformed with
    | app hf ha =>
      cases hformed' with
      | app hg hb =>
        -- The heads are rigid again and no products, so their sorts are convertible.
        have hsorts := hf.sort_convertible hg hfg hl.2 hr.2 hf.isPi_eq_false
        have hfbinder := Nameless.isBinder_eq_false hl.2.1 hf.isPi_eq_false
        have hgbinder := Nameless.isBinder_eq_false hr.2.1 hg.isPi_eq_false
        rw [compareHeads_app rfl rfl, hfbinder, hgbinder] at h
        cases hsorts with
        | term hpi =>
          exact eq_true_of_bind_ite (hequal hΓ hf hg (Or.inl (.term hpi)) hfg)
            (hequal hΓ ha hb (Or.inl (.term hpi.pi_inj.1)) hab) h
  | bind q hAA' hBB' =>
    cases q with
    | lam => exact Bool.noConfusion hl.1
    | pi =>
      obtain ⟨hA, U, hU, hB⟩ := hlsort.pi_inv
      obtain ⟨hA', U', hU', hB'⟩ := hrsort.pi_inv
      rw [compareHeads_bind rfl rfl, if_pos rfl] at h
      exact eq_true_of_bind_ite (hequal hΓ hA hA' (Or.inl (.refl _)) hAA')
        (hequal (hΓ.push hA) hB (hB'.convert_domain hA' hAA'.symm) (Or.inr ⟨hU, hU'⟩) hBB') h
  | _ => simpa [compareHeads] using h.symm

/-- **The test accepts convertible well-sorted terms** whose sorts are comparable, whenever it
answers. -/
theorem equal_of_convertible {fuel : Nat} (hΓ : Admissible sig metas Γ)
    (hl : HasSort sig metas Γ l.term S) (hr : HasSort sig metas Γ r.term S')
    (hS : S.Comparable S') (hconv : Convertible l.term r.term)
    (h : NamelessSide.equal fuel l r = some same) : same = true := by
  induction fuel generalizing l r S S' Γ same with
  | zero => exact absurd h (by simp [NamelessSide.equal])
  | succ fuel ih =>
    obtain ⟨l', r', sameHeads, hl', hr', hheads, hsame⟩ := equal_succ h
    obtain ⟨hlred, hlwhnf⟩ := Nameless.whnf_spec hl'
    obtain ⟨hrred, hrwhnf⟩ := Nameless.whnf_spec hr'
    have hlsort := hl.reduces hΓ hlred
    have hrsort := hr.reduces hΓ hrred
    have hconv' : Convertible l' r' :=
      ((convertible_of_reduces hlred).symm.trans hconv).trans (convertible_of_reduces hrred)
    have hequal : AcceptsConvertible sig metas (l.put l') (r.put r') (NamelessSide.equal fuel) :=
      fun hΔ hs ht hST hst b hb => ih (l := l.put _) (r := r.put _) hΔ hs ht hST hst hb
    apply hsame
    by_cases hllam : l'.isLambda = true
    · obtain ⟨A, s, rfl⟩ := Nameless.exists_lam_of_isLambda hllam
      exact compareHeads_of_lam_left hequal hΓ rfl hlsort hrsort hS hconv' hheads
    · have hlrigid : l'.IsRigid := ⟨Bool.eq_false_iff.mpr hllam, hlwhnf⟩
      by_cases hrlam : r'.isLambda = true
      · obtain ⟨A, s, rfl⟩ := Nameless.exists_lam_of_isLambda hrlam
        exact compareHeads_of_lam_right hequal hΓ hlrigid.1 rfl hlsort hrsort hS hconv' hheads
      · exact compareHeads_of_isRigid hequal hΓ hlrigid ⟨Bool.eq_false_iff.mpr hrlam, hrwhnf⟩
          hlsort hrsort hconv' hheads

end Conversion.NamelessSide

/-- Convertible well-sorted terms whose sorts are comparable are accepted by the test, whenever it
answers. -/
theorem Term.equal_of_convertible {fuel : Nat} {l r : Term} {S S' : NamelessSort} {same : Bool}
    (hΓ : Admissible sig metas Γ) (hl : HasSort sig metas Γ l.nameless S)
    (hr : HasSort sig metas Γ r.nameless S') (hS : S.Comparable S')
    (hconv : Convertible l.nameless r.nameless) (h : l.equal fuel r = some same) :
    same = true := by
  rw [equal_eq_nameless (Valuation.Faithful.free []), ← nameless_eq_namelessIn,
    ← nameless_eq_namelessIn] at h
  exact Conversion.NamelessSide.equal_of_convertible hΓ hl hr hS hconv h

end LogicalFramework

import LogicalFramework.Proofs.Alpha
import LogicalFramework.Proofs.Reduction

/-!
# Soundness of the convertibility test

Two sides that the test finds equal are related by the least congruence that contains β, η and the
unfolding of the definitions that the sides still have. The names of opened binders are none of the
reserved ones, so the definitions say nothing about them and an opened binder can be closed again.
A side loses definitions on the way and never gains any, so the rules of an inner comparison are
rules of the outer one.
-/

namespace LogicalFramework

namespace Conversion

/-- The rules for the comparison of two sides. -/
def Rules (l r : Side) (s t : Nameless) : Prop :=
  BetaEta s t ∨ Delta l.definitions s t ∨ Delta r.definitions s t

/-- Two sides whose terms are equal by their rules. -/
def Related (l r : Side) : Prop :=
  Congruence (Rules l r) l.term.nameless r.term.nameless

/-! ## Closing an opened binder -/

theorem Rules.subst {l r : Side} {s t : Nameless} (h : Rules l r s t) {σ : Name → Nameless}
    (hσ : ∀ x ∈ reserved l r, σ (.free x) = .name (.free x)) :
    Rules l r (s.subst σ) (t.subst σ) := by
  unfold reserved at hσ
  rcases h with h | h | h
  · exact Or.inl (h.subst σ)
  · exact Or.inr (Or.inl (h.subst fun x hx => hσ x (List.mem_append_left _ hx)))
  · exact Or.inr (Or.inr (h.subst fun x hx => hσ x (List.mem_append_right _ hx)))

/-- Terms that are equal with a name free that is not reserved are equal under a binder of it. -/
theorem close_of_not_reserved {l r : Side} {s t : Nameless} (h : Congruence (Rules l r) s t)
    {z : Variable} (hz : z ∉ reserved l r) :
    Congruence (Rules l r) (s.rename (.close z)) (t.rename (.close z)) := by
  rw [Nameless.rename_eq_subst, Nameless.rename_eq_subst]
  refine h.subst (P := fun σ => ∀ x ∈ reserved l r, σ (.free x) = .name (.free x)) ?_ ?_ ?_
  · intro σ hσ x hx
    show (σ (.free x)).shift = _
    rw [hσ x hx]
    rfl
  · intro σ s t hσ hR
    exact hR.subst hσ
  · intro x hx
    have hxz : Name.free x ≠ .free z := by
      intro he
      exact hz (Name.free.inj he ▸ hx)
    rw [Name.close, if_neg hxz]
    rfl

/-! ## Comparing heads -/

/-- Two comparisons, the second made only if the first succeeds. -/
theorem bind_ite_eq_some_true {first second : Option Bool} :
    (do if ← first then second else some false) = some true ↔
      first = some true ∧ second = some true := by
  rcases first with _ | _ | _ <;> simp

/-- What opening an abstraction against a term gives: the scope renamed, and the term applied, to a
name that is neither reserved nor free in the term, nor in the scope unless it is bound there. -/
theorem openEta_spec (avoid : List Variable) (x : Variable) (s t : Term) :
    ∃ z, z ∉ avoid ∧ t.occursFree z = false ∧ (z = x ∨ s.occursFree z = false) ∧
      openEta avoid x s t = (s.rename x z, .app t (.var z)) := by
  unfold openEta
  dsimp only
  split
  · have hz := fresh_not_mem (avoid ++ t.freeVariables ++ s.freeVariables ++ [x]) x
    simp only [List.mem_append, Term.mem_freeVariables, not_or, Bool.not_eq_true] at hz
    exact ⟨_, hz.1.1.1, hz.1.1.2, Or.inr hz.1.2, rfl⟩
  · rename_i h
    simp only [Bool.or_eq_true, List.contains_iff_mem, not_or, Bool.not_eq_true] at h
    exact ⟨x, h.2, h.1, Or.inl rfl, rfl⟩

/-- An abstraction is equal to a term if its opened scope is equal to the term applied to the opened
variable. -/
theorem congruence_of_openEta {l r : Side} {x : Variable} {A s t : Term}
    (h : Congruence (Rules l r) (openEta (reserved l r) x s t).1.nameless
      (openEta (reserved l r) x s t).2.nameless) :
    Congruence (Rules l r) (Term.lam x A s).nameless t.nameless := by
  obtain ⟨z, hz, htz, hsz, he⟩ := openEta_spec (reserved l r) x s t
  rw [he] at h
  have hclosed := close_of_not_reserved h hz
  have hscope : (s.rename x z).nameless.rename (.close z) = s.nameless.rename (.close x) := by
    rw [Term.rename_close_nameless, Term.rename_close_nameless,
      Term.namelessIn_rename_bind s _ hsz]
  have happlied : (Term.app t (.var z)).nameless.rename (.close z) =
      .app t.nameless.shift (.name (.bound 0)) := by
    rw [Term.rename_close_nameless, Term.namelessIn, Term.namelessIn, Valuation.bind_self,
      Term.namelessIn_bind_of_not_occursFree t _ htz, ← Term.nameless_eq_namelessIn]
  rw [hscope, happlied] at hclosed
  rw [Term.nameless_bind]
  exact (Congruence.bind .lam (.refl _) hclosed).trans
    (.rule (Or.inl (Or.inr (Eta.contract _ _))))

/-- Two binders of one kind are equal if their types and their opened scopes are. -/
theorem congruence_of_openTogether {l r : Side} {q : Binder} {x y : Variable} {A B s t : Term}
    (hA : Congruence (Rules l r) A.nameless B.nameless)
    (h : Congruence (Rules l r) (Term.openTogether (reserved l r) x s y t).left.nameless
      (Term.openTogether (reserved l r) x s y t).right.nameless) :
    Congruence (Rules l r) (Term.bind q x A s).nameless (Term.bind q y B t).nameless := by
  have hclosed := close_of_not_reserved h (Term.binder_openTogether_not_mem _ x s y t)
  rw [Term.rename_close_nameless, Term.rename_close_nameless, Term.namelessIn_openTogether_left,
    Term.namelessIn_openTogether_right] at hclosed
  rw [Term.nameless_bind, Term.nameless_bind, Term.rename_close_nameless,
    Term.rename_close_nameless]
  exact Congruence.bind q hA hclosed

/-- If the comparison of parts is sound, so is the comparison of heads. -/
theorem compareHeads_sound {equal : Side → Side → Option Bool} {l r : Side}
    (hequal : ∀ l r, equal l r = some true → Related l r)
    (h : compareHeads equal l r = some true) : Related l r := by
  unfold Related
  unfold compareHeads at h
  split at h
  · rename_i f a g b hl hr
    split at h
    · exact absurd h (by simp)
    · rw [bind_ite_eq_some_true] at h
      rw [hl, hr]
      exact Congruence.app (hequal _ _ h.1) (hequal _ _ h.2)
  · rename_i q x A s q' y B t hl hr
    split at h
    · rename_i hq
      rw [bind_ite_eq_some_true] at h
      rw [hl, hr, hq]
      exact congruence_of_openTogether (hequal _ _ h.1) (hequal _ _ h.2)
    · exact absurd h (by simp)
  · rename_i x A s hl _
    rw [hl]
    exact congruence_of_openEta (hequal _ _ h)
  · rename_i x A s hr _
    rw [hr]
    exact (congruence_of_openEta (hequal _ _ h).symm).symm
  · rename_i hl hr
    simp only [Option.some.injEq, decide_eq_true_eq] at h
    rw [h]
    exact Congruence.refl _

/-! ## Unfolding -/

theorem congruence_applyAll {R : Nameless → Nameless → Prop} {f g : Term}
    (h : Congruence R f.nameless g.nameless) (arguments : List Term) :
    Congruence R (f.applyAll arguments).nameless (g.applyAll arguments).nameless := by
  induction arguments generalizing f g with
  | nil => exact h
  | cons a rest ih =>
    apply ih
    rw [Term.nameless_app, Term.nameless_app]
    exact Congruence.app h (.refl _)

/-- Fewer definitions unfold less. -/
theorem delta_mono {defs defs' : Definitions}
    (hsub : ∀ x u, defs.lookup x = some u → defs'.lookup x = some u) {s t : Nameless}
    (h : Delta defs s t) : Delta defs' s t := by
  obtain ⟨h⟩ := h
  exact Delta.unfold (hsub _ _ h)

/-- Unfolding a side replaces its term by one that is equal by a definition of the side, and leaves
it with some of its definitions. -/
theorem unfolded?_spec {s s' : Side} (h : s.unfolded? = some s') :
    Congruence (Delta s.definitions) s.term.nameless s'.term.nameless ∧
      ∀ x u, s'.definitions.lookup x = some u → s.definitions.lookup x = some u := by
  unfold Side.unfolded? at h
  split at h
  · rename_i x hhead
    rw [Option.map_eq_some_iff] at h
    obtain ⟨u, hu, rfl⟩ := h
    constructor
    · have hspine := Term.applyAll_arguments s.term
      rw [hhead] at hspine
      have hδ := congruence_applyAll (R := Delta s.definitions) (f := .var x)
        (.rule (Delta.unfold hu)) s.term.arguments
      rw [hspine] at hδ
      exact hδ
    · intro y v hv
      exact Bindings.lookup_of_lookup_erase hv
  · exact absurd h (by simp)

/-- Unfolding a side, or leaving it as it is if nothing can be unfolded. -/
theorem getD_unfolded?_spec (s : Side) :
    Congruence (Delta s.definitions) s.term.nameless (s.unfolded?.getD s).term.nameless ∧
      ∀ x u, (s.unfolded?.getD s).definitions.lookup x = some u →
        s.definitions.lookup x = some u := by
  cases h : s.unfolded? with
  | none => exact ⟨Congruence.refl _, fun _ _ hu => hu⟩
  | some s' => exact unfolded?_spec h

theorem compareUnfolded_sound {equal : Side → Side → Option Bool} {l r : Side}
    (hequal : ∀ l r, equal l r = some true → Related l r)
    (h : compareUnfolded equal l r = some true) : Related l r := by
  have hunfolded : equal (l.unfolded?.getD l) (r.unfolded?.getD r) = some true := by
    unfold compareUnfolded at h
    split at h
    · exact absurd h (by simp)
    · exact h
  obtain ⟨hl, hldefs⟩ := getD_unfolded?_spec l
  obtain ⟨hr, hrdefs⟩ := getD_unfolded?_spec r
  -- The unfolded sides have fewer definitions, and so fewer rules.
  have hinner : Congruence (Rules l r) (l.unfolded?.getD l).term.nameless
      (r.unfolded?.getD r).term.nameless := by
    refine (hequal _ _ hunfolded).mono fun s t hR => ?_
    exact hR.imp id (Or.imp (delta_mono hldefs) (delta_mono hrdefs))
  have hleft : Congruence (Rules l r) l.term.nameless (l.unfolded?.getD l).term.nameless :=
    hl.mono fun s t hδ => Or.inr (Or.inl hδ)
  have hright : Congruence (Rules l r) r.term.nameless (r.unfolded?.getD r).term.nameless :=
    hr.mono fun s t hδ => Or.inr (Or.inr hδ)
  exact (hleft.trans hinner).trans hright.symm

/-! ## The test -/

/-- Weak head reduction keeps a side related to itself. -/
theorem congruence_of_whnf {R : Nameless → Nameless → Prop} (hR : ∀ s t, Beta s t → R s t)
    {fuel : Nat} {t t' : Term} (h : t.whnf fuel = some t') :
    Congruence R t.nameless t'.nameless :=
  (Congruence.of_reduces (Term.whnf_reduces h)).mono hR

/-- How an answer of the test comes about: from the heads of the weak head normal forms, or, if these
are different, from the sides unfolded. -/
theorem equal_succ_cases {fuel : Nat} {l r : Side} {same : Bool}
    (h : equal (fuel + 1) l r = some same) :
    ∃ l' r', l.term.whnf fuel = some l' ∧ r.term.whnf fuel = some r' ∧
      ((compareHeads (equal fuel) (l.put l') (r.put r') = some true ∧ same = true) ∨
        (compareHeads (equal fuel) (l.put l') (r.put r') = some false ∧
          compareUnfolded (equal fuel) (l.put l') (r.put r') = some same)) := by
  rw [equal, Option.bind_eq_bind, Option.bind_eq_some_iff] at h
  obtain ⟨l', hl, h⟩ := h
  rw [Option.bind_eq_some_iff] at h
  obtain ⟨r', hr, h⟩ := h
  dsimp only at h
  rw [Option.bind_eq_bind, Option.bind_eq_some_iff] at h
  obtain ⟨sameHeads, hheads, h⟩ := h
  refine ⟨l', r', hl, hr, ?_⟩
  cases sameHeads with
  | true => exact Or.inl ⟨hheads, (Option.some.inj h).symm⟩
  | false => exact Or.inr ⟨hheads, h⟩

theorem equal_sound {fuel : Nat} {l r : Side} (h : equal fuel l r = some true) :
    Related l r := by
  induction fuel generalizing l r with
  | zero => exact absurd h (by simp [equal])
  | succ fuel ih =>
    obtain ⟨l', r', hl, hr, hcases⟩ := equal_succ_cases h
    have hwhnf : Related (l.put l') (r.put r') := by
      rcases hcases with ⟨hheads, _⟩ | ⟨_, hunfolded⟩
      · exact compareHeads_sound (fun _ _ => ih) hheads
      · exact compareUnfolded_sound (fun _ _ => ih) hunfolded
    have hβ : ∀ s t, Beta s t → Rules l r s t := fun s t hβ => Or.inl (Or.inl hβ)
    exact ((congruence_of_whnf hβ hl).trans hwhnf).trans (congruence_of_whnf hβ hr).symm

/-! ## Comparison with `Type` -/

theorem unfolded?_empty (t : Term) : Side.unfolded? ⟨t, .empty⟩ = none := by
  unfold Side.unfolded?
  split
  · rfl
  · rfl

/-- A term without a redex that the test finds equal to `Type` is `Type` or an abstraction. -/
theorem eq_type_or_isLambda {fuel : Nat} {t : Term} (ht : t.IsNormal)
    (h : t.equal fuel .type = some true) : t = .type ∨ t.isLambda = true := by
  cases fuel with
  | zero => exact absurd h (by simp [Term.equal, Term.equalUnder, equal])
  | succ fuel =>
    obtain ⟨t', r, hl, hr, hcases⟩ := equal_succ_cases h
    have hl' : t' = t := Term.whnf_of_isNormal ht hl
    have hr' : r = .type := Term.whnf_of_isNormal (by trivial) hr
    rw [hl', hr'] at hcases
    rcases hcases with ⟨hheads, _⟩ | ⟨_, hunfolded⟩
    · cases t with
      | type => exact Or.inl rfl
      | bind q x A s =>
        cases q with
        | pi => exact absurd hheads (by simp [compareHeads, Side.put])
        | lam => exact Or.inr rfl
      | _ => exact absurd hheads (by simp [compareHeads, Side.put])
    · have hnone := unfolded?_empty
      simp [compareUnfolded, Side.put, hnone] at hunfolded

end Conversion

theorem Term.congruence_of_equalUnder {fuel : Nat} {defs : Definitions} {l r : Term}
    (h : l.equalUnder fuel defs r = some true) :
    Congruence (BetaEtaDelta defs) l.nameless r.nameless :=
  (Conversion.equal_sound h).mono fun _ _ hR => hR.imp id fun hδ => hδ.elim id id

theorem Term.convertible_of_equal {fuel : Nat} {l r : Term} (h : l.equal fuel r = some true) :
    Convertible l.nameless r.nameless := by
  refine (Term.congruence_of_equalUnder h).mono fun s t hR => ?_
  rcases hR with hβη | hδ
  · exact hβη
  · obtain ⟨hlookup⟩ := hδ
    rw [Bindings.lookup_empty] at hlookup
    exact absurd hlookup (by simp)

/-- **Soundness of the convertibility test.** Terms that the test finds equal are related by the
least congruence that contains β, η and the unfolding of the given definitions, and by the one that
contains β and η only if no definitions are given. -/
theorem Term.equal_implies_convertible :
    (∀ (fuel : Nat) (defs : Definitions) (l r : Term), l.equalUnder fuel defs r = some true →
      Congruence (BetaEtaDelta defs) l.nameless r.nameless) ∧
    ∀ (fuel : Nat) (l r : Term), l.equal fuel r = some true →
      Congruence BetaEta l.nameless r.nameless :=
  ⟨fun _ _ _ _ => Term.congruence_of_equalUnder, fun _ _ _ => Term.convertible_of_equal⟩

/-- With `d` defined as `e`, which shadows a definition of `d` by itself, and `e` as `(λ x, x) c`,
the abstraction `λ x, d x` is found equal to `c`. Without definitions, `λ y, (λ z, f z) y` is found
equal to `f`. -/
theorem Term.equal_implies_convertible_shadowed :
    Congruence (BetaEtaDelta ⟨[(⟨"d"⟩, .var ⟨"e"⟩),
        (⟨"e"⟩, .app (.lam ⟨"x"⟩ .type (.var ⟨"x"⟩)) (.const ⟨"c"⟩)), (⟨"d"⟩, .var ⟨"d"⟩)]⟩)
      (Term.lam ⟨"x"⟩ .type (.app (.var ⟨"d"⟩) (.var ⟨"x"⟩))).nameless
      (Term.const ⟨"c"⟩).nameless ∧
    Congruence BetaEta
      (Term.lam ⟨"y"⟩ .type (.app (.lam ⟨"z"⟩ .type (.app (.var ⟨"f"⟩) (.var ⟨"z"⟩)))
        (.var ⟨"y"⟩))).nameless
      (Term.var ⟨"f"⟩).nameless :=
  ⟨Term.equal_implies_convertible.1 8 _ _ _ (by decide +kernel),
    Term.equal_implies_convertible.2 8 _ _ (by decide +kernel)⟩

end LogicalFramework

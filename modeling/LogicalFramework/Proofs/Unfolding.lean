import LogicalFramework.Proofs.Conversion
import Mathlib.Data.Fintype.Card
import Mathlib.Data.Fintype.EquivFin
import Mathlib.Order.WellFounded

/-!
# Unfolding all definitions

The value of a definition may mention other defined variables, so that unfolding has to be repeated.
If no definition depends on itself, the defined variables can be put in an order in which the value
of each mentions earlier ones only. Then repeated unfolding ends, and its result, up to bound names,
does not depend on the order in which variables are unfolded: it reads every defined variable as its
value, unfolded as well.

* `Definitions.IsAcyclic`, `Definitions.UnfoldsTo` — the condition and the result of unfolding;
* `Definitions.IsAcyclic.induction` — defined variables are taken one by one, after those that their
  values mention;
* `Definitions.IsAcyclic.exists_unfoldsTo`, `Definitions.IsAcyclic.exists_isUnfolding` — repeated
  unfolding ends, and there is a valuation that unfolds everything at once;
* `Definitions.IsUnfolding.nameless_eq` — the two agree.
-/

namespace LogicalFramework

/-! ## Occurrences -/

namespace Term

theorem mentions_nameless (t : Term) (y : Variable) :
    t.nameless.Mentions (.free y) ↔ t.occursFree y = true := by
  rw [nameless_eq_namelessIn, mentions_namelessIn]
  constructor
  · rintro ⟨x, hx, hxy⟩
    rwa [Name.free.inj hxy] at hx
  · exact fun hy => ⟨y, hy, rfl⟩

/-- What is free after a substitution was free before, or is free in what was put in. -/
theorem occursFree_of_subst {t u : Term} {x y : Variable}
    (h : (t.subst x u).occursFree y = true) :
    (y ≠ x ∧ t.occursFree y = true) ∨ u.occursFree y = true := by
  rw [← mentions_nameless, nameless_eq_namelessIn, namelessIn_subst, mentions_namelessIn] at h
  obtain ⟨z, hz, hy⟩ := h
  by_cases hzx : z = x
  · rw [hzx, Function.update_self, ← nameless_eq_namelessIn, mentions_nameless] at hy
    exact Or.inr hy
  · rw [Function.update_of_ne hzx] at hy
    obtain rfl := Name.free.inj hy
    exact Or.inl ⟨hzx, hz⟩

end Term

namespace Definitions

variable {defs : Definitions}

/-! ## Dependencies -/

/-- That the value of a defined variable mentions a defined variable. -/
def DependsOn (defs : Definitions) (x y : Variable) : Prop :=
  ∃ u, defs.lookup x = some u ∧ u.occursFree y = true ∧ defs.contains y = true

/-- That no variable depends on itself, neither directly nor through others. -/
def IsAcyclic (defs : Definitions) : Prop :=
  ∀ x, ¬Relation.TransGen defs.DependsOn x x

theorem contains_of_lookup {x : Variable} {u : Term} (h : defs.lookup x = some u) :
    defs.contains x = true := by
  rw [Bindings.contains, h]
  rfl

/-- Definitions are acyclic if there is a rank that is larger for a variable than for the defined
variables in its value. -/
theorem isAcyclic_of_rank (rank : Variable → Nat)
    (h : ∀ entry ∈ defs.newestFirst, ∀ y ∈ defs.keys, entry.2.occursFree y = true →
      rank y < rank entry.1) : defs.IsAcyclic := by
  have hlt : ∀ x y, Relation.TransGen defs.DependsOn x y → rank y < rank x := by
    have hdep : ∀ x y, defs.DependsOn x y → rank y < rank x := by
      rintro x y ⟨u, hu, huy, hy⟩
      exact h (x, u) (Bindings.mem_of_lookup hu) y ((Bindings.mem_keys _ y).mpr hy) huy
    intro x y hxy
    induction hxy with
    | single hxy => exact hdep _ _ hxy
    | tail _ hyz ih => exact (hdep _ _ hyz).trans ih
  exact fun x hx => lt_irrefl _ (hlt x x hx)

/-- Among finitely many variables there is one that none of them depends on. -/
theorem IsAcyclic.exists_source (h : defs.IsAcyclic) {K : Finset Variable} (hK : K.Nonempty) :
    ∃ x ∈ K, ∀ y ∈ K, ¬defs.DependsOn y x := by
  obtain ⟨x, hx⟩ := hK
  let r : K → K → Prop := fun y z => Relation.TransGen defs.DependsOn y z
  have : IsTrans K r := ⟨fun _ _ _ => Relation.TransGen.trans⟩
  have : Std.Irrefl r := ⟨fun y => h y⟩
  obtain ⟨m, _, hm⟩ := (Finite.wellFounded_of_trans_of_irrefl r).has_min Set.univ ⟨⟨x, hx⟩, trivial⟩
  exact ⟨m, m.2, fun y hy hdep => hm ⟨y, hy⟩ trivial (.single hdep)⟩

/-- **Induction on acyclic definitions.** What holds of no variables, and of each variable together
with variables that contain those it depends on and none that depends on it, holds of the defined
variables. -/
theorem IsAcyclic.induction (h : defs.IsAcyclic) {P : Finset Variable → Prop} (hempty : P ∅)
    (hinsert : ∀ K x u, x ∉ K → defs.lookup x = some u → (∀ y ∈ K, ¬defs.DependsOn y x) →
      (∀ y, defs.DependsOn x y → y ∈ K) → P K → P (insert x K)) : P defs.keys.toFinset := by
  -- A set that contains what its members depend on stays so without a member that is no dependency.
  have hclosed : ∀ n (K : Finset Variable), K.card = n → (∀ x ∈ K, defs.contains x = true) →
      (∀ x ∈ K, ∀ y, defs.DependsOn x y → y ∈ K) → P K := by
    intro n
    induction n with
    | zero =>
      intro K hcard _ _
      rw [Finset.card_eq_zero.mp hcard]
      exact hempty
    | succ n ih =>
      intro K hcard hdefined hdeps
      have hne : K.Nonempty := Finset.card_pos.mp (by omega)
      obtain ⟨x, hx, hsource⟩ := h.exists_source hne
      obtain ⟨u, hu⟩ := Option.isSome_iff_exists.mp (hdefined x hx)
      rw [← Finset.insert_erase hx]
      have hself : ∀ y ∈ K, ∀ z, defs.DependsOn y z → z ∈ K.erase x := by
        intro y hy z hyz
        refine Finset.mem_erase.mpr ⟨?_, hdeps y hy z hyz⟩
        rintro rfl
        exact hsource y hy hyz
      refine hinsert (K.erase x) x u (Finset.notMem_erase x K) hu
        (fun y hy => hsource y (Finset.mem_of_mem_erase hy)) (hself x hx) (ih _ ?_ ?_ ?_)
      · rw [Finset.card_erase_of_mem hx, hcard, Nat.add_sub_cancel]
      · exact fun y hy => hdefined y (Finset.mem_of_mem_erase hy)
      · exact fun y hy => hself y (Finset.mem_of_mem_erase hy)
  refine hclosed _ _ rfl (fun x hx => ?_) (fun x _ y hxy => ?_)
  · rwa [List.mem_toFinset, Bindings.mem_keys] at hx
  · obtain ⟨_, _, _, hy⟩ := hxy
    rwa [List.mem_toFinset, Bindings.mem_keys]

/-! ## Repeated unfolding -/

/-- One variable is replaced by its value, everywhere in the term. -/
def Unfolds (defs : Definitions) (t t' : Term) : Prop :=
  ∃ x u, defs.lookup x = some u ∧ t' = t.subst x u

/-- Variables are replaced by their values, one after the other, until no defined variable is
left. -/
def UnfoldsTo (defs : Definitions) (t t' : Term) : Prop :=
  Relation.ReflTransGen defs.Unfolds t t' ∧ ∀ x, t'.occursFree x = true → defs.contains x = false

theorem unfoldsTo_of_keys {t t' : Term} (h : Relation.ReflTransGen defs.Unfolds t t')
    (hkeys : ∀ x ∈ defs.keys, t'.occursFree x = false) : defs.UnfoldsTo t t' := by
  refine ⟨h, fun x hx => ?_⟩
  by_contra hdefined
  rw [Bool.not_eq_false, ← Bindings.mem_keys] at hdefined
  rw [hkeys x hdefined] at hx
  exact absurd hx (by simp)

/-- With acyclic definitions, repeated unfolding ends. -/
theorem IsAcyclic.exists_unfoldsTo (h : defs.IsAcyclic) (t : Term) : ∃ t', defs.UnfoldsTo t t' := by
  have hkeys : ∀ t : Term, (∀ y, t.occursFree y = true → defs.contains y = true →
      y ∈ defs.keys.toFinset) → ∃ t', defs.UnfoldsTo t t' := by
    refine h.induction (P := fun K => ∀ t : Term, (∀ y, t.occursFree y = true →
      defs.contains y = true → y ∈ K) → ∃ t', defs.UnfoldsTo t t') ?_ ?_
    · intro t ht
      refine ⟨t, .refl, fun x hx => ?_⟩
      by_contra hdefined
      exact Finset.notMem_empty x (ht x hx (by simpa using hdefined))
    · -- Unfolding the newest of the variables leaves the older ones only.
      intro K x u hxK hu _ hdeps ih t ht
      obtain ⟨t', hsteps, ht'⟩ := ih (t.subst x u) fun y hy hdefined => by
        rcases Term.occursFree_of_subst hy with ⟨hyx, hy⟩ | hy
        · exact Finset.mem_of_mem_insert_of_ne (ht y hy hdefined) hyx
        · exact hdeps y ⟨u, hu, hy, hdefined⟩
      exact ⟨t', .head ⟨x, u, hu, rfl⟩ hsteps, ht'⟩
  refine hkeys t fun y _ hy => ?_
  rwa [List.mem_toFinset, Bindings.mem_keys]

/-! ## Unfolding at once -/

/-- A valuation that unfolds all definitions at once: it reads a defined variable as its value, read
by the valuation as well, and leaves the other variables alone. -/
structure IsUnfolding (defs : Definitions) (ν : Valuation) : Prop where
  /-- What is read mentions no bound variable. -/
  shift_eq : ∀ x, (ν x).shift = ν x
  /-- Other variables stand for themselves. -/
  undefined : ∀ x, defs.contains x = false → ν x = .name (.free x)
  /-- Defined variables stand for their unfolded values. -/
  value : ∀ x u, defs.lookup x = some u → ν x = u.namelessIn ν

/-- With acyclic definitions, everything can be unfolded at once. -/
theorem IsAcyclic.exists_isUnfolding (h : defs.IsAcyclic) : ∃ ν, defs.IsUnfolding ν := by
  obtain ⟨ν, hshift, hother, hvalue⟩ : ∃ ν : Valuation, (∀ x, (ν x).shift = ν x) ∧
      (∀ x, x ∉ defs.keys.toFinset → ν x = .name (.free x)) ∧
      ∀ x ∈ defs.keys.toFinset, ∀ u, defs.lookup x = some u → ν x = u.namelessIn ν := by
    refine h.induction (P := fun K => ∃ ν : Valuation, (∀ x, (ν x).shift = ν x) ∧
      (∀ x, x ∉ K → ν x = .name (.free x)) ∧
      ∀ x ∈ K, ∀ u, defs.lookup x = some u → ν x = u.namelessIn ν)
      ⟨Valuation.free, fun _ => rfl, fun _ _ => rfl, by simp⟩ ?_
    rintro K x u hxK hu hsource hdeps ⟨ν, hshift, hother, hvalue⟩
    have hx : defs.contains x = true := contains_of_lookup hu
    -- A value that does not mention `x` is read as before.
    have hcongr : ∀ v : Term, v.occursFree x = false →
        v.namelessIn (Function.update ν x (u.namelessIn ν)) = v.namelessIn ν := by
      intro v hv
      refine Term.namelessIn_congr v fun y hy => Function.update_of_ne ?_ _ _
      exact Term.ne_of_occursFree hy hv
    refine ⟨Function.update ν x (u.namelessIn ν), ?_, ?_, ?_⟩
    · intro y
      by_cases hyx : y = x
      · rw [hyx, Function.update_self, Nameless.shift, Term.rename_namelessIn]
        exact Term.namelessIn_congr u fun z _ => hshift z
      · rw [Function.update_of_ne hyx, hshift]
    · intro y hy
      rw [Finset.mem_insert, not_or] at hy
      rw [Function.update_of_ne hy.1, hother y hy.2]
    · intro y hy v hv
      rcases Finset.mem_insert.mp hy with rfl | hyK
      · have huv : u = v := Option.some.inj (hu.symm.trans hv)
        have hself : u.occursFree y = false := by
          by_contra hself
          exact hxK (hdeps y ⟨u, hu, by simpa using hself, hx⟩)
        rw [Function.update_self, ← huv, hcongr u hself]
      · have hyx : y ≠ x := fun he => hxK (he ▸ hyK)
        have hvx : v.occursFree x = false := by
          by_contra hvx
          exact hsource y hyK ⟨v, hv, by simpa using hvx, hx⟩
        rw [Function.update_of_ne hyx, hcongr v hvx, hvalue y hyK v hv]
  refine ⟨ν, hshift, fun x hx => hother x ?_, fun x u hu => hvalue x ?_ u hu⟩
  · rw [List.mem_toFinset, Bindings.mem_keys, hx]
    exact Bool.false_ne_true
  · rw [List.mem_toFinset, Bindings.mem_keys]
    exact contains_of_lookup hu

end Definitions

/-- A valuation as a substitution, which leaves bound variables alone. -/
def Valuation.substitution (ν : Valuation) : Name → Nameless
  | .free x => ν x
  | .bound i => .name (.bound i)

theorem Term.subst_substitution (t : Term) (ν : Valuation) :
    t.nameless.subst ν.substitution = t.namelessIn ν := by
  rw [nameless_eq_namelessIn, subst_namelessIn]
  rfl

namespace Definitions.IsUnfolding

variable {defs : Definitions} {ν : Valuation}

/-- Under a binder, variables are unfolded as outside. -/
theorem lift_substitution (hν : defs.IsUnfolding ν) :
    Nameless.lift ν.substitution = ν.substitution := by
  funext n
  match n with
  | .free x => exact hν.shift_eq x
  | .bound 0 => rfl
  | .bound (i + 1) => rfl

/-- Unfolding a variable does not change how a term is read. -/
theorem namelessIn_of_unfolds (hν : defs.IsUnfolding ν) {t t' : Term} (h : defs.Unfolds t t') :
    t'.namelessIn ν = t.namelessIn ν := by
  obtain ⟨x, u, hu, rfl⟩ := h
  rw [Term.namelessIn_subst, ← hν.value x u hu, Function.update_eq_self]

/-- **Repeated unfolding unfolds everything at once.** -/
theorem nameless_eq (hν : defs.IsUnfolding ν) {t t' : Term} (h : defs.UnfoldsTo t t') :
    t'.nameless = t.nameless.subst ν.substitution := by
  obtain ⟨hsteps, ht'⟩ := h
  have hread : t'.namelessIn ν = t.namelessIn ν := by
    clear ht'
    induction hsteps with
    | refl => rfl
    | tail _ hstep ih => exact (hν.namelessIn_of_unfolds hstep).trans ih
  rw [Term.subst_substitution, ← hread, Term.nameless_eq_namelessIn]
  exact Term.namelessIn_congr t' fun x hx => (hν.undefined x (ht' x hx)).symm

/-- Terms that are equal by the definitions are convertible once unfolded. -/
theorem convertible (hν : defs.IsUnfolding ν) {s t : Nameless}
    (h : Congruence (BetaEtaDelta defs) s t) :
    Convertible (s.subst ν.substitution) (t.subst ν.substitution) := by
  induction h with
  | rule h =>
    rcases h with hβη | hδ
    · exact .rule (hβη.subst _)
    · obtain ⟨hu⟩ := hδ
      rw [Term.subst_substitution, ← hν.value _ _ hu]
      exact .refl _
  | refl t => exact .refl _
  | symm _ ih => exact ih.symm
  | trans _ _ ih ih' => exact ih.trans ih'
  | app _ _ ihf iha => exact .app ihf iha
  | bind q _ _ ihA ihs =>
    rw [Nameless.subst, Nameless.subst, hν.lift_substitution]
    exact .bind q ihA ihs

end Definitions.IsUnfolding

end LogicalFramework

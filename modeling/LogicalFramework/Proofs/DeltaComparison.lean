import LogicalFramework.Proofs.Soundness
import LogicalFramework.Proofs.TypedComparison
import LogicalFramework.Proofs.Unfolding
import LogicalFramework.Proofs.WeakHead

/-!
# Comparison with definitions and comparison after unfolding

The test with definitions unfolds a variable only when it is at the head of a side and the heads
differ, and drops the definition then. For acyclic definitions its answer is set against that of the
test without definitions on the terms with everything unfolded.

What the first accepts is convertible once unfolded, so that the second accepts it too if it is
well-sorted. What the first refuses, it refuses along a way of comparisons, from two sides to the
sides unfolded, or to the first of their parts that are refused. If the second accepts it, then on
this way there are two sides that cannot be unfolded, one of which is headed by a variable whose
definition has been dropped.

* `Conversion.NamelessSide.parts` — the parts that a comparison of weak head normal forms compares,
  up to the first that is refused;
* `Conversion.NamelessSide.refusalPath` — the way to a refusal;
* `Conversion.NamelessSide.AcceptedOnceUnfolded.exists_stuck` — the dropped definition on this way,
  by induction on the bound;
* `Term.equalUnder_agrees_with_unfolded` — the two tests.
-/

namespace LogicalFramework

theorem Nameless.exists_bind_of_isBinder {t : Nameless} (ht : t.isBinder = true) :
    ∃ q A s, t = bind q A s := by
  cases t with
  | bind q A s => exact ⟨q, A, s, rfl⟩
  | _ => exact absurd ht (by simp [isBinder])

/-! ## Heads that are not defined -/

namespace Definitions.IsUnfolding

variable {defs : Definitions} {ν : Valuation} {t : Nameless}

theorem substitution_eq_name (hν : defs.IsUnfolding ν) {n : Name}
    (hn : (Nameless.name n).unfoldHead? defs = none) : ν.substitution n = .name n := by
  cases n with
  | bound i => rfl
  | free x =>
    apply hν.undefined
    rw [Nameless.unfoldHead?, Option.map_eq_none_iff] at hn
    rw [Bindings.contains, hn]
    rfl

theorem unfoldHead?_of_app {h a : Nameless} (happ : (Nameless.app h a).unfoldHead? defs = none) :
    h.unfoldHead? defs = none := by
  rwa [Nameless.unfoldHead?, Option.map_eq_none_iff] at happ

theorem isBinder_subst (hν : defs.IsUnfolding ν) (ht : t.unfoldHead? defs = none) :
    (t.subst ν.substitution).isBinder = t.isBinder := by
  cases t with
  | name n => rw [Nameless.subst, hν.substitution_eq_name ht]
  | _ => rfl

theorem isLambda_subst (hν : defs.IsUnfolding ν) (ht : t.unfoldHead? defs = none) :
    (t.subst ν.substitution).isLambda = t.isLambda := by
  cases t with
  | name n => rw [Nameless.subst, hν.substitution_eq_name ht]
  | bind q A s => cases q <;> rfl
  | _ => rfl

/-- Unfolding makes no redex at a head that is not defined. -/
theorem isWeakHeadNormal_subst (hν : defs.IsUnfolding ν) (ht : t.unfoldHead? defs = none)
    (hnormal : t.IsWeakHeadNormal) : (t.subst ν.substitution).IsWeakHeadNormal := by
  induction t with
  | name n =>
    rw [Nameless.subst, hν.substitution_eq_name ht]
    trivial
  | app h a ihh _ =>
    have hh := unfoldHead?_of_app ht
    exact ⟨(hν.isLambda_subst hh).trans hnormal.1, ihh hh hnormal.2⟩
  | _ => trivial

/-- Unfolding the head of a term does not change the term with everything unfolded. -/
theorem subst_unfoldHead? (hν : defs.IsUnfolding ν) {defs' : Definitions}
    (hsub : ∀ x u, defs'.lookup x = some u → defs.lookup x = some u) {x : Variable} {t' : Nameless}
    (h : t.unfoldHead? defs' = some (x, t')) :
    t'.subst ν.substitution = t.subst ν.substitution := by
  induction t generalizing t' with
  | name n =>
    cases n with
    | bound i => exact absurd h (by simp [Nameless.unfoldHead?])
    | free y =>
      rw [Nameless.unfoldHead?, Option.map_eq_some_iff] at h
      obtain ⟨u, hu, he⟩ := h
      cases he
      rw [Term.subst_substitution, ← hν.value x u (hsub x u hu)]
      rfl
  | app f a ihf _ =>
    rw [Nameless.unfoldHead?, Option.map_eq_some_iff] at h
    obtain ⟨⟨y, f'⟩, hf, he⟩ := h
    cases he
    rw [Nameless.subst, Nameless.subst, ihf hf]
  | _ => exact absurd h (by simp [Nameless.unfoldHead?])

end Definitions.IsUnfolding

/-! ## The parts of two weak head normal forms -/

namespace Conversion

section allM

variable {α : Type} {p : α → Option Bool}

theorem allM_singleton (a : α) : [a].allM p = p a := by
  rw [List.allM]
  cases p a with
  | none => rfl
  | some b => cases b <;> rfl

theorem allM_pair (a b : α) : [a, b].allM p = (do if ← p a then p b else some false) := by
  rw [List.allM]
  cases p a with
  | none => rfl
  | some c =>
    cases c with
    | false => rfl
    | true => exact allM_singleton b

theorem allM_eq_some_true {l : List α} : l.allM p = some true ↔ ∀ a ∈ l, p a = some true := by
  induction l with
  | nil => simp [List.allM]
  | cons a l ih =>
    rw [List.allM, List.forall_mem_cons, ← ih]
    cases p a with
    | none => simp
    | some b => cases b <;> simp

/-- A pass that stops at the first item that is refused has met one if it refuses. -/
theorem exists_find?_of_allM {l : List α} (h : l.allM p = some false) :
    ∃ a, l.find? (fun a => p a = some false) = some a := by
  induction l with
  | nil => exact absurd h (by simp [List.allM])
  | cons a l ih =>
    rw [List.allM, Option.bind_eq_bind, Option.bind_eq_some_iff] at h
    obtain ⟨b, hb, h⟩ := h
    cases b with
    | true => simpa [hb] using ih h
    | false => exact ⟨a, by simp [hb]⟩

end allM

namespace NamelessSide

/-- What the comparison of two weak head normal forms comes to: they are refused at once, or their
parts are compared in turn. -/
def parts : Nameless → Nameless → Option (List (Nameless × Nameless))
  | .app h a, .app h' a' => if h.isBinder || h'.isBinder then none else some [(h, h'), (a, a')]
  | .bind q A s, .bind q' B t => if q = q' then some [(A, B), (s, t)] else none
  | .lam _ s, t => some [(s, .app t.shift (.name (.bound 0)))]
  | t, .lam _ s => some [(.app t.shift (.name (.bound 0)), s)]
  | s, t => if s = t then some [] else none

variable {defs : Definitions} {ν : Valuation} {e e' : NamelessSide → NamelessSide → Option Bool}
  {l r : NamelessSide}

/-- Weak head normal forms are accepted if their parts are, which are compared up to the first that
is refused. -/
theorem compareHeads_eq_allM (e : NamelessSide → NamelessSide → Option Bool) (l r : NamelessSide) :
    compareHeads e l r = (parts l.term r.term).elim (some false) fun ps =>
      ps.allM fun p => e (l.put p.1) (r.put p.2) := by
  have hatoms (s t : Nameless) : some (decide (s = t)) =
      (if s = t then some [] else none).elim (some false) fun ps : List (Nameless × Nameless) =>
        ps.allM fun p => e (l.put p.1) (r.put p.2) := by
    by_cases h : s = t <;> simp [h, List.allM]
  obtain ⟨l, δ⟩ := l
  obtain ⟨r, ε⟩ := r
  cases l with
  | app f a =>
    cases r with
    | app g b =>
      simp only [compareHeads, parts]
      split
      · rfl
      · rw [Option.elim_some, allM_pair]
    | bind q B t =>
      cases q with
      | lam => exact (allM_singleton _).symm
      | pi => exact hatoms _ _
    | _ => exact hatoms _ _
  | bind q A s =>
    cases r with
    | bind q' B t =>
      simp only [compareHeads, parts]
      split
      · rw [Option.elim_some, allM_pair]
      · rfl
    | _ =>
      cases q with
      | lam => exact (allM_singleton _).symm
      | pi => exact hatoms _ _
  | _ =>
    cases r with
    | bind q B t =>
      cases q with
      | lam => exact (allM_singleton _).symm
      | pi => exact hatoms _ _
    | _ => exact hatoms _ _

/-- An abstraction is compared with a term that is no binder, and a product is not. -/
theorem parts_bind_left (q : Binder) (A s : Nameless) {t : Nameless} (ht : t.isBinder = false) :
    parts (.bind q A s) t =
      if q = .lam then some [(s, .app t.shift (.name (.bound 0)))] else none := by
  cases t with
  | bind q' B u => exact absurd ht (by simp [Nameless.isBinder])
  | _ => cases q <;> rfl

theorem parts_bind_right (q : Binder) (A s : Nameless) {t : Nameless} (ht : t.isBinder = false) :
    parts t (.bind q A s) =
      if q = .lam then some [(.app t.shift (.name (.bound 0)), s)] else none := by
  cases t with
  | bind q' B u => exact absurd ht (by simp [Nameless.isBinder])
  | _ => cases q <;> rfl

/-- Unfolding commutes with bringing a term under an abstraction. -/
theorem subst_app_shift (hν : defs.IsUnfolding ν) (t : Nameless) :
    (Nameless.app t.shift (.name (.bound 0))).subst ν.substitution =
      .app (t.subst ν.substitution).shift (.name (.bound 0)) := by
  rw [Nameless.subst, ← Nameless.shift_subst, hν.lift_substitution]
  rfl

/-- The parts with everything unfolded. -/
def unfoldParts (ν : Valuation) (ps : List (Nameless × Nameless)) : List (Nameless × Nameless) :=
  ps.map fun p => (p.1.subst ν.substitution, p.2.subst ν.substitution)

/-- Terms that are no binders, and whose heads are not defined, have the shape of their unfoldings.
-/
theorem parts_subst_of_not_isBinder (hν : defs.IsUnfolding ν) {s t : Nameless}
    (hs : s.unfoldHead? defs = none) (ht : t.unfoldHead? defs = none) (hsb : s.isBinder = false)
    (htb : t.isBinder = false) :
    parts (s.subst ν.substitution) (t.subst ν.substitution) =
      (parts s t).map (unfoldParts ν) := by
  cases s with
  | bind q A s => exact absurd hsb (by simp [Nameless.isBinder])
  | app f a =>
    cases t with
    | bind q B t => exact absurd htb (by simp [Nameless.isBinder])
    | app g b =>
      have hf := Definitions.IsUnfolding.unfoldHead?_of_app hs
      have hg := Definitions.IsUnfolding.unfoldHead?_of_app ht
      simp only [Nameless.subst, parts, hν.isBinder_subst hf, hν.isBinder_subst hg]
      split <;> rfl
    | name n => simp [Nameless.subst, hν.substitution_eq_name ht, parts]
    | _ => rfl
  | name n =>
    cases t with
    | bind q B t => exact absurd htb (by simp [Nameless.isBinder])
    | name m =>
      simp only [Nameless.subst, hν.substitution_eq_name hs, hν.substitution_eq_name ht, parts]
      split <;> rfl
    | _ => simp [Nameless.subst, hν.substitution_eq_name hs, parts]
  | _ =>
    cases t with
    | bind q B t => exact absurd htb (by simp [Nameless.isBinder])
    | app g b => rfl
    | name m => simp [Nameless.subst, hν.substitution_eq_name ht, parts]
    | _ =>
      simp only [Nameless.subst, parts]
      split <;> rfl

/-- **Unfolding keeps the parts** of terms whose heads are not defined. An abstraction is compared
with a term that is no binder by bringing the term under the abstraction, and so are their
unfoldings. -/
theorem parts_subst (hν : defs.IsUnfolding ν) {s t : Nameless} (hs : s.unfoldHead? defs = none)
    (ht : t.unfoldHead? defs = none) :
    parts (s.subst ν.substitution) (t.subst ν.substitution) =
      (parts s t).map (unfoldParts ν) := by
  have hsb' := hν.isBinder_subst hs
  have htb' := hν.isBinder_subst ht
  cases hsb : s.isBinder with
  | false =>
    cases htb : t.isBinder with
    | false => exact parts_subst_of_not_isBinder hν hs ht hsb htb
    | true =>
      obtain ⟨q, A, u, rfl⟩ := Nameless.exists_bind_of_isBinder htb
      rw [Nameless.subst, hν.lift_substitution, parts_bind_right _ _ _ (hsb'.trans hsb),
        parts_bind_right _ _ _ hsb, ← subst_app_shift hν]
      cases q <;> rfl
  | true =>
    obtain ⟨q, A, u, rfl⟩ := Nameless.exists_bind_of_isBinder hsb
    rw [Nameless.subst, hν.lift_substitution]
    cases htb : t.isBinder with
    | false =>
      rw [parts_bind_left _ _ _ (htb'.trans htb), parts_bind_left _ _ _ htb,
        ← subst_app_shift hν]
      cases q <;> rfl
    | true =>
      obtain ⟨q', B, v, rfl⟩ := Nameless.exists_bind_of_isBinder htb
      rw [Nameless.subst, hν.lift_substitution]
      simp only [parts]
      split <;> rfl

/-! ## The way to a refusal -/

/-- What a refused comparison of two weak head normal forms goes on to: to the two sides with a head
unfolded or, if nothing can be unfolded, to the first parts that are refused. -/
def onward? (e : NamelessSide → NamelessSide → Option Bool) (l r : NamelessSide) :
    Option (NamelessSide × NamelessSide) :=
  match l.unfolded?, r.unfolded? with
  | none, none => do
    let ps ← parts l.term r.term
    let p ← ps.find? fun p => e (l.put p.1) (r.put p.2) = some false
    some (l.put p.1, r.put p.2)
  | l', r' => some (l'.getD l, r'.getD r)

/-- The weak head normal forms that a refused comparison goes through, each pair because the one
before it was refused. -/
def refusalPath (fuel : Nat) (l r : NamelessSide) : List (NamelessSide × NamelessSide) :=
  match fuel with
  | 0 => []
  | fuel + 1 =>
    match l.term.whnf fuel, r.term.whnf fuel with
    | some l', some r' =>
      (l.put l', r.put r') ::
        match onward? (equal fuel) (l.put l') (r.put r') with
        | some (l, r) => refusalPath fuel l r
        | none => []
    | _, _ => []

/-- That neither of two sides can be unfolded, and one is headed by a variable that is one of the
given definitions. Its definition has been dropped then. -/
def StuckOnDropped (defs : Definitions) (l r : NamelessSide) : Prop :=
  l.unfolded? = none ∧ r.unfolded? = none ∧
    ((l.term.unfoldHead? defs).isSome ∨ (r.term.unfoldHead? defs).isSome)

instance (defs : Definitions) (l r : NamelessSide) : Decidable (StuckOnDropped defs l r) :=
  inferInstanceAs (Decidable (_ ∧ _ ∧ _))

theorem onward?_of_unfolded (h : ¬(l.unfolded? = none ∧ r.unfolded? = none)) :
    onward? e l r = some (l.unfolded?.getD l, r.unfolded?.getD r) := by
  unfold onward?
  split
  · rename_i hl hr
    exact absurd ⟨hl, hr⟩ h
  · rfl

theorem compareUnfolded_of_unfolded (h : ¬(l.unfolded? = none ∧ r.unfolded? = none)) :
    compareUnfolded e l r = e (l.unfolded?.getD l) (r.unfolded?.getD r) := by
  unfold compareUnfolded
  split
  · rename_i hl hr
    exact absurd ⟨hl, hr⟩ h
  · rfl

theorem onward?_eq_some_iff_of_not_unfolded (hl : l.unfolded? = none) (hr : r.unfolded? = none)
    {q : NamelessSide × NamelessSide} :
    onward? e l r = some q ↔ ∃ ps p, parts l.term r.term = some ps ∧
      ps.find? (fun p => e (l.put p.1) (r.put p.2) = some false) = some p ∧
        (l.put p.1, r.put p.2) = q := by
  simp [onward?, hl, hr, Option.bind_eq_some_iff]

/-- A refused comparison goes on to one that is refused. -/
theorem refused_of_onward? (h : compareUnfolded e l r = some false)
    {q : NamelessSide × NamelessSide} (hq : onward? e l r = some q) : e q.1 q.2 = some false := by
  by_cases hnone : l.unfolded? = none ∧ r.unfolded? = none
  · obtain ⟨ps, p, _, hfind, rfl⟩ := (onward?_eq_some_iff_of_not_unfolded hnone.1 hnone.2).mp hq
    simpa using List.find?_some hfind
  · rw [onward?_of_unfolded hnone] at hq
    cases hq
    rwa [compareUnfolded_of_unfolded hnone] at h

/-- The pairs on the way of a refused comparison are compared and refused. -/
theorem refused_of_mem_refusalPath {fuel : Nat} (h : equal fuel l r = some false)
    {p : NamelessSide × NamelessSide} (hp : p ∈ refusalPath fuel l r) :
    ∃ n < fuel, compareHeads (equal n) p.1 p.2 = some false := by
  induction fuel generalizing l r with
  | zero => exact absurd hp (by simp [refusalPath])
  | succ fuel ih =>
    obtain ⟨l', r', hl, hr, ⟨_, hfalse⟩ | ⟨hheads, hunfolded⟩⟩ := equal_succ_cases h
    · exact absurd hfalse (by simp)
    simp only [refusalPath, hl, hr, List.mem_cons] at hp
    rcases hp with rfl | hp
    · exact ⟨fuel, Nat.lt_succ_self fuel, hheads⟩
    · split at hp
      · rename_i q hq
        obtain ⟨n, hn, hrefused⟩ := ih (refused_of_onward? hunfolded hq) hp
        exact ⟨n, Nat.lt_succ_of_lt hn, hrefused⟩
      · exact absurd hp (by simp)

/-! ## What is accepted once unfolded -/

/-- That the test without definitions accepts two terms, for some bound. The bounds for the weak
head normal forms are left open. -/
def Accepted (l r : Nameless) : Prop :=
  ∃ fuel l' r', l.HasWhnf l' ∧ r.HasWhnf r' ∧
    compareHeads (equal fuel) ⟨l', .empty⟩ ⟨r', .empty⟩ = some true

theorem accepted_of_equal {fuel : Nat} {l r : Nameless}
    (h : equal fuel ⟨l, .empty⟩ ⟨r, .empty⟩ = some true) : Accepted l r := by
  cases fuel with
  | zero => exact absurd h (by simp [equal])
  | succ fuel =>
    obtain ⟨l', r', hl, hr, ⟨hheads, _⟩ | ⟨_, hunfolded⟩⟩ := equal_succ_cases h
    · exact ⟨fuel, l', r', ⟨fuel, hl⟩, ⟨fuel, hr⟩, hheads⟩
    · exact absurd hunfolded (by simp [put, compareUnfolded_empty])

/-- That two sides with some of the given definitions are accepted once unfolded. -/
structure AcceptedOnceUnfolded (defs : Definitions) (ν : Valuation) (l r : NamelessSide) :
    Prop where
  /-- The definitions left on the left side are among the given ones. -/
  left : ∀ x u, l.definitions.lookup x = some u → defs.lookup x = some u
  /-- So are those left on the right side. -/
  right : ∀ x u, r.definitions.lookup x = some u → defs.lookup x = some u
  /-- The test without definitions accepts the unfoldings. -/
  accepted : Accepted (l.term.subst ν.substitution) (r.term.subst ν.substitution)

/-- Reduction of the sides to weak head normal form can be made before they are unfolded. -/
theorem AcceptedOnceUnfolded.put (h : AcceptedOnceUnfolded defs ν l r) {l' r' : Nameless}
    (hl : l.term.HasWhnf l') (hr : r.term.HasWhnf r') :
    AcceptedOnceUnfolded defs ν (l.put l') (r.put r') := by
  obtain ⟨n, w, w', hw, hw', hcompare⟩ := h.accepted
  exact ⟨h.left, h.right, n, w, w', hl.of_subst hw, hr.of_subst hw', hcompare⟩

/-- Unfolding a side, or leaving it as it is if nothing can be unfolded, keeps its unfolding and
gives it no new definitions. -/
theorem getD_unfolded?_spec (hν : defs.IsUnfolding ν) {s : NamelessSide}
    (hs : ∀ x u, s.definitions.lookup x = some u → defs.lookup x = some u) :
    (s.unfolded?.getD s).term.subst ν.substitution = s.term.subst ν.substitution ∧
      ∀ x u, (s.unfolded?.getD s).definitions.lookup x = some u → defs.lookup x = some u := by
  unfold unfolded?
  cases h : s.term.unfoldHead? s.definitions with
  | none => exact ⟨rfl, hs⟩
  | some unfolded =>
    obtain ⟨x, t⟩ := unfolded
    exact ⟨hν.subst_unfoldHead? hs h, fun y u hu => hs y u (Bindings.lookup_of_lookup_erase hu)⟩

/-- The first parts that are refused are accepted once unfolded, if the terms are and their heads
are not defined. -/
theorem exists_refused_part (hν : defs.IsUnfolding ν) (hl : l.term.unfoldHead? defs = none)
    (hr : r.term.unfoldHead? defs = none)
    (h' : compareHeads e' ⟨l.term.subst ν.substitution, .empty⟩
      ⟨r.term.subst ν.substitution, .empty⟩ = some true)
    (h : compareHeads e l r = some false) :
    ∃ ps p, parts l.term r.term = some ps ∧
      ps.find? (fun p => e (l.put p.1) (r.put p.2) = some false) = some p ∧
      e' ⟨p.1.subst ν.substitution, .empty⟩ ⟨p.2.subst ν.substitution, .empty⟩ = some true := by
  rw [compareHeads_eq_allM, parts_subst hν hl hr] at h'
  rw [compareHeads_eq_allM] at h
  cases hparts : parts l.term r.term with
  | none => exact absurd h' (by simp [hparts])
  | some ps =>
    rw [hparts] at h h'
    obtain ⟨p, hp⟩ := exists_find?_of_allM h
    refine ⟨ps, p, rfl, hp, ?_⟩
    exact allM_eq_some_true.mp h' _ (List.mem_map_of_mem (List.mem_of_find?_eq_some hp))

/-- Where a refused comparison of two weak head normal forms that are accepted once unfolded goes
on, if they are not stuck: to sides that are accepted once unfolded. -/
theorem AcceptedOnceUnfolded.stuck_or_onward (hν : defs.IsUnfolding ν)
    (h : AcceptedOnceUnfolded defs ν l r) (hl : l.term.IsWeakHeadNormal)
    (hr : r.term.IsWeakHeadNormal) (hrefused : compareHeads e l r = some false) :
    StuckOnDropped defs l r ∨
      ∃ q, onward? e l r = some q ∧ AcceptedOnceUnfolded defs ν q.1 q.2 := by
  by_cases hnone : l.unfolded? = none ∧ r.unfolded? = none
  · by_cases hheads : l.term.unfoldHead? defs = none ∧ r.term.unfoldHead? defs = none
    · -- Unfolding keeps the heads, and the parts are compared as before.
      obtain ⟨n, w, w', hw, hw', hcompare⟩ := h.accepted
      rw [hw.eq_of_isWeakHeadNormal (hν.isWeakHeadNormal_subst hheads.1 hl),
        hw'.eq_of_isWeakHeadNormal (hν.isWeakHeadNormal_subst hheads.2 hr)] at hcompare
      obtain ⟨ps, p, hps, hfind, hp⟩ :=
        exists_refused_part hν hheads.1 hheads.2 hcompare hrefused
      exact Or.inr ⟨_, (onward?_eq_some_iff_of_not_unfolded hnone.1 hnone.2).mpr
        ⟨ps, p, hps, hfind, rfl⟩, h.left, h.right, accepted_of_equal hp⟩
    · refine Or.inl ⟨hnone.1, hnone.2, ?_⟩
      rw [Option.isSome_iff_ne_none, Option.isSome_iff_ne_none]
      exact not_and_or.mp hheads
  · -- A head is unfolded, which changes nothing in the term with everything unfolded.
    obtain ⟨hlsubst, hldefs⟩ := getD_unfolded?_spec hν h.left
    obtain ⟨hrsubst, hrdefs⟩ := getD_unfolded?_spec hν h.right
    refine Or.inr ⟨_, onward?_of_unfolded hnone, hldefs, hrdefs, ?_⟩
    rw [hlsubst, hrsubst]
    exact h.accepted

/-- **A refusal of what is accepted once unfolded comes from a dropped definition**, which the
comparison meets on its way. -/
theorem AcceptedOnceUnfolded.exists_stuck (hν : defs.IsUnfolding ν) {fuel : Nat}
    (h : AcceptedOnceUnfolded defs ν l r) (hrefused : equal fuel l r = some false) :
    ∃ p ∈ refusalPath fuel l r, StuckOnDropped defs p.1 p.2 := by
  induction fuel generalizing l r with
  | zero => exact absurd hrefused (by simp [equal])
  | succ fuel ih =>
    obtain ⟨l', r', hl, hr, ⟨_, hfalse⟩ | ⟨hheads, hunfolded⟩⟩ := equal_succ_cases hrefused
    · exact absurd hfalse (by simp)
    simp only [refusalPath, hl, hr, List.exists_mem_cons_iff]
    rcases (h.put ⟨fuel, hl⟩ ⟨fuel, hr⟩).stuck_or_onward hν (Nameless.whnf_spec hl).2
      (Nameless.whnf_spec hr).2 hheads with hstuck | ⟨q, hq, haccepted⟩
    · exact Or.inl hstuck
    · right
      rw [hq]
      exact ih haccepted (refused_of_onward? hunfolded hq)

end NamelessSide
end Conversion

/-! ## Named terms -/

namespace Term

open Conversion.NamelessSide

/-- Terms that the test with definitions accepts are convertible once unfolded. -/
theorem convertible_of_equalUnder {defs : Definitions} (hacyclic : defs.IsAcyclic) {fuel : Nat}
    {l r l' r' : Term} (hl : defs.UnfoldsTo l l') (hr : defs.UnfoldsTo r r')
    (h : l.equalUnder fuel defs r = some true) : Convertible l'.nameless r'.nameless := by
  obtain ⟨ν, hν⟩ := hacyclic.exists_isUnfolding
  rw [hν.nameless_eq hl, hν.nameless_eq hr]
  exact hν.convertible (congruence_of_equalUnder h)

/-- What is accepted once unfolded and refused with the definitions is refused because of a dropped
definition. -/
theorem exists_stuck_of_equal {defs : Definitions} (hacyclic : defs.IsAcyclic) {fuel fuel' : Nat}
    {l r l' r' : Term} (hl : defs.UnfoldsTo l l') (hr : defs.UnfoldsTo r r')
    (h' : l'.equal fuel' r' = some true) (h : l.equalUnder fuel defs r = some false) :
    ∃ p ∈ refusalPath fuel ⟨l.nameless, defs⟩ ⟨r.nameless, defs⟩, StuckOnDropped defs p.1 p.2 ∧
      ∃ n < fuel, compareHeads (Conversion.NamelessSide.equal n) p.1 p.2 = some false := by
  obtain ⟨ν, hν⟩ := hacyclic.exists_isUnfolding
  rw [Term.equal, equalUnder_eq_nameless, hν.nameless_eq hl, hν.nameless_eq hr] at h'
  rw [equalUnder_eq_nameless] at h
  have haccepted : AcceptedOnceUnfolded defs ν ⟨l.nameless, defs⟩ ⟨r.nameless, defs⟩ :=
    ⟨fun _ _ hu => hu, fun _ _ hu => hu, accepted_of_equal h'⟩
  obtain ⟨p, hp, hstuck⟩ := haccepted.exists_stuck hν h
  exact ⟨p, hp, hstuck, refused_of_mem_refusalPath h hp⟩

/-- **Comparison with definitions and comparison after unfolding.** With acyclic definitions, both
terms can be unfolded. If both tests answer, then what the test with definitions accepts is
convertible once unfolded, and is accepted by the other test if it is well-sorted in a validated
environment. If it refuses what is accepted once unfolded, then it has compared, on the way to its
refusal, two weak head normal forms that it cannot unfold, one of which is headed by a variable
whose definition has been dropped. -/
theorem equalUnder_agrees_with_unfolded (defs : Definitions) (l r : Term)
    (hacyclic : defs.IsAcyclic) :
    (∃ l', defs.UnfoldsTo l l') ∧ (∃ r', defs.UnfoldsTo r r') ∧
      ∀ (l' r' : Term) (fuel fuel' : Nat) (same same' : Bool), defs.UnfoldsTo l l' →
        defs.UnfoldsTo r r' → l.equalUnder fuel defs r = some same →
        l'.equal fuel' r' = some same' →
        (same = true → Convertible l'.nameless r'.nameless) ∧
        (∀ (bound : Nat) (env : Environment) (S : TermSort), env.validate bound = .ok () →
          env.Derives l' S → env.Derives r' S → same = true → same' = true) ∧
        (same' = true → same = false →
          ∃ p ∈ refusalPath fuel ⟨l.nameless, defs⟩ ⟨r.nameless, defs⟩,
            StuckOnDropped defs p.1 p.2 ∧
            ∃ n < fuel, compareHeads (Conversion.NamelessSide.equal n) p.1 p.2 = some false) := by
  refine ⟨hacyclic.exists_unfoldsTo l, hacyclic.exists_unfoldsTo r, ?_⟩
  intro l' r' fuel fuel' same same' hl hr h h'
  refine ⟨?_, ?_, ?_⟩
  · rintro rfl
    exact convertible_of_equalUnder hacyclic hl hr h
  · rintro bound env S henv hlsort hrsort rfl
    exact equal_of_convertible (Environment.isAdmissible_of_validate henv) hlsort hrsort
      (Or.inl (.refl _)) (convertible_of_equalUnder hacyclic hl hr h) h'
  · rintro rfl rfl
    exact exists_stuck_of_equal hacyclic hl hr h' h

/-- The definition `d := λ x : a, x`. -/
def identity : Definitions :=
  ⟨[(⟨"d"⟩, .lam ⟨"x"⟩ (.const ⟨"a"⟩) (.var ⟨"x"⟩))]⟩

/-- The term `d (d c)`, in which the second `d` is met when the definition has been dropped. -/
def twice : Term :=
  .app (.var ⟨"d"⟩) (.app (.var ⟨"d"⟩) (.const ⟨"c"⟩))

theorem isAcyclic_identity : identity.IsAcyclic :=
  Definitions.isAcyclic_of_rank (fun _ => 0) (by decide +kernel)

theorem unfoldsTo_twice : ∃ t, identity.UnfoldsTo twice t ∧ t.equal 8 (.const ⟨"c"⟩) = some true :=
  ⟨_, Definitions.unfoldsTo_of_keys (.single ⟨⟨"d"⟩, _, rfl, rfl⟩) (by decide +kernel),
    by decide +kernel⟩

-- The terms `g c (d (d c))` and `g e c` are refused at `c` and `e`. The second arguments are never
-- compared, and the dropped definition is not met.
example :
    let l := (Term.app (.app (.const ⟨"g"⟩) (.const ⟨"c"⟩)) twice).nameless
    let r := (Term.app (.app (.const ⟨"g"⟩) (.const ⟨"e"⟩)) (.const ⟨"c"⟩)).nameless
    Conversion.NamelessSide.equal 12 ⟨l, identity⟩ ⟨r, identity⟩ = some false ∧
      (refusalPath 12 ⟨l, identity⟩ ⟨r, identity⟩).map (fun p => (p.1.term, p.2.term)) =
        [(l, r), (.app (.const ⟨"g"⟩) (.const ⟨"c"⟩), .app (.const ⟨"g"⟩) (.const ⟨"e"⟩)),
          (.const ⟨"c"⟩, .const ⟨"e"⟩)] ∧
      ∀ p ∈ refusalPath 12 ⟨l, identity⟩ ⟨r, identity⟩, ¬ StuckOnDropped identity p.1 p.2 := by
  decide +kernel

/-- A type `a` with functions `f` and `g`. -/
def functionsOnType : Environment where
  signature := ⟨[(.constant ⟨"g"⟩,
      .pi ⟨"x"⟩ (.const ⟨"a"⟩) (.pi ⟨"z"⟩ (.const ⟨"a"⟩) (.const ⟨"a"⟩))),
    (.constant ⟨"a"⟩, .type)]⟩
  context := ⟨[(⟨"f"⟩, .pi ⟨"x"⟩ (.const ⟨"a"⟩) (.const ⟨"a"⟩))]⟩
  metas := .empty

/-- The definitions `d := λ x : a, e x` and `e := f`. -/
def chained : Definitions :=
  ⟨[(⟨"d"⟩, .lam ⟨"x"⟩ (.const ⟨"a"⟩) (.app (.var ⟨"e"⟩) (.var ⟨"x"⟩))), (⟨"e"⟩, .var ⟨"f"⟩)]⟩

/-- The function `λ y : a, g (h y) (k y)`. -/
def pairOf (h k : Term) : Term :=
  .lam ⟨"y"⟩ (.const ⟨"a"⟩) (.app (.app (.const ⟨"g"⟩) (.app h (.var ⟨"y"⟩))) (.app k (.var ⟨"y"⟩)))

/-- The function `λ y, g (d y) (e y)` unfolds to `λ y, g ((λ x, f x) y) (f y)`. -/
theorem unfoldsTo_chained : chained.UnfoldsTo (pairOf (.var ⟨"d"⟩) (.var ⟨"e"⟩))
    (pairOf (.lam ⟨"x"⟩ (.const ⟨"a"⟩) (.app (.var ⟨"f"⟩) (.var ⟨"x"⟩))) (.var ⟨"f"⟩)) := by
  refine Definitions.unfoldsTo_of_keys (.tail (.single ⟨⟨"d"⟩, _, rfl, rfl⟩) ⟨⟨"e"⟩, _, rfl, ?_⟩) ?_
  · decide +kernel
  · decide +kernel

/-- The functions `λ y, g (d y) (e y)` and `λ y, g (f y) (f y)` are accepted by both tests. The
terms `d (d c)` and `c` are accepted once unfolded, and refused with the definition because of `d`.
-/
theorem equalUnder_agrees_with_unfolded_chained :
    (∃ l l' r S, chained.IsAcyclic ∧ chained.UnfoldsTo l l' ∧ chained.UnfoldsTo r r ∧
      functionsOnType.validate 20 = .ok () ∧ functionsOnType.Derives l' S ∧
      functionsOnType.Derives r S ∧ Convertible l'.nameless r.nameless ∧
      l.equalUnder 12 chained r = some true ∧ l'.equal 12 r = some true) ∧
    ∃ p ∈ refusalPath 8 ⟨twice.nameless, identity⟩ ⟨(Term.const ⟨"c"⟩).nameless, identity⟩,
      StuckOnDropped identity p.1 p.2 := by
  constructor
  · have hacyclic : chained.IsAcyclic :=
      Definitions.isAcyclic_of_rank (fun x => if x = ⟨"d"⟩ then 1 else 0) (by decide +kernel)
    have hr : chained.UnfoldsTo (pairOf (.var ⟨"f"⟩) (.var ⟨"f"⟩))
        (pairOf (.var ⟨"f"⟩) (.var ⟨"f"⟩)) :=
      Definitions.unfoldsTo_of_keys .refl (by decide +kernel)
    have henv : functionsOnType.validate 20 = .ok () := by decide +kernel
    have hadmissible := Environment.isAdmissible_of_validate henv
    have hlsort : functionsOnType.Derives (pairOf (.lam ⟨"x"⟩ (.const ⟨"a"⟩)
        (.app (.var ⟨"f"⟩) (.var ⟨"x"⟩))) (.var ⟨"f"⟩))
        (.term (.pi ⟨"y"⟩ (.const ⟨"a"⟩) (.const ⟨"a"⟩))) :=
      Environment.derives_of_sortOf hadmissible
        (show functionsOnType.sortOf 20 _ = .ok _ by decide +kernel)
    have hrsort : functionsOnType.Derives (pairOf (.var ⟨"f"⟩) (.var ⟨"f"⟩))
        (.term (.pi ⟨"y"⟩ (.const ⟨"a"⟩) (.const ⟨"a"⟩))) :=
      Environment.derives_of_sortOf hadmissible
        (show functionsOnType.sortOf 20 _ = .ok _ by decide +kernel)
    have h : (pairOf (.var ⟨"d"⟩) (.var ⟨"e"⟩)).equalUnder 12 chained
        (pairOf (.var ⟨"f"⟩) (.var ⟨"f"⟩)) = some true := by decide +kernel
    obtain ⟨same', h'⟩ := Option.isSome_iff_exists.mp (show ((pairOf (.lam ⟨"x"⟩ (.const ⟨"a"⟩)
      (.app (.var ⟨"f"⟩) (.var ⟨"x"⟩))) (.var ⟨"f"⟩)).equal 12
        (pairOf (.var ⟨"f"⟩) (.var ⟨"f"⟩))).isSome by decide +kernel)
    obtain ⟨hconv, hequal, _⟩ := (equalUnder_agrees_with_unfolded chained _ _
      hacyclic).2.2 _ _ 12 12 true same' unfoldsTo_chained hr h h'
    have hsame := hequal 20 _ _ henv hlsort hrsort rfl
    exact ⟨_, _, _, _, hacyclic, unfoldsTo_chained, hr, henv, hlsort, hrsort, hconv rfl, h,
      hsame ▸ h'⟩
  · obtain ⟨t, ht, hequal⟩ := unfoldsTo_twice
    have hc : identity.UnfoldsTo (.const ⟨"c"⟩) (.const ⟨"c"⟩) :=
      Definitions.unfoldsTo_of_keys .refl (by decide +kernel)
    obtain ⟨p, hp, hstuck, _⟩ := ((equalUnder_agrees_with_unfolded identity twice (.const ⟨"c"⟩)
      isAcyclic_identity).2.2 t (.const ⟨"c"⟩) 8 8 false true ht hc (by decide +kernel)
      hequal).2.2 rfl rfl
    exact ⟨p, hp, hstuck⟩

/-- With `d := λ x : a, x`, the term `d (d c)` is refused against `c`, because the definition has
been dropped when the second `d` is met, and is accepted once unfolded. With `d := (Π x : Type,
Type) c`, which is not well-sorted, `d` is accepted against itself, and refused once unfolded. -/
theorem equalUnder_differs_from_unfolded :
    (∃ (defs : Definitions) (l l' r : Term), defs.IsAcyclic ∧ defs.UnfoldsTo l l' ∧
      defs.UnfoldsTo r r ∧ l.equalUnder 8 defs r = some false ∧ l'.equal 8 r = some true) ∧
    ∃ (defs : Definitions) (l l' : Term), defs.IsAcyclic ∧ defs.UnfoldsTo l l' ∧
      l.equalUnder 8 defs l = some true ∧ l'.equal 8 l' = some false := by
  constructor
  · obtain ⟨t, ht, hequal⟩ := unfoldsTo_twice
    exact ⟨identity, twice, t, .const ⟨"c"⟩, isAcyclic_identity, ht,
      Definitions.unfoldsTo_of_keys .refl (by decide +kernel), by decide +kernel, hequal⟩
  · refine ⟨⟨[(⟨"d"⟩, .app (.pi ⟨"x"⟩ .type .type) (.const ⟨"c"⟩))]⟩, .var ⟨"d"⟩, _,
      Definitions.isAcyclic_of_rank (fun _ => 0) (by decide +kernel),
      Definitions.unfoldsTo_of_keys (.single ⟨⟨"d"⟩, _, rfl, rfl⟩) (by decide +kernel),
      by decide +kernel, by decide +kernel⟩

end Term

end LogicalFramework

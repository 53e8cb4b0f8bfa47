import LogicalFramework.Proofs.Symmetry
import LogicalFramework.Proofs.WeakHead

/-!
# η-expansion anywhere in a term

A part of a term without a redex is replaced by its η-expansion, an abstraction that applies the
part to its variable. The test finds the two terms equal, wherever the part is. What it does depends
on the place:

* at the head of an application the expansion makes a redex, and weak head reduction takes it back;
* at any other place the test comes to the part and its expansion in the end, and opens the
  abstraction against the part.

The part itself is no binder. The type of the new variable is never looked at, and so it need not
even have a normal form.

* `Term.OneHole` — the places in a term;
* `Conversion.NamelessSide.findsEqual_of_step` — nameless terms, one of which is the other with a
  part expanded, by induction on the place;
* `Term.equal_of_etaExpanded` — the same for named terms, where binders around the place may bind
  the name that the new variable is given.
-/

namespace LogicalFramework

open Filter

/-! ## Places in a term -/

/-- A term with one place left open, under any number of binders. -/
inductive Term.OneHole where
  /-- The open place itself. -/
  | hole
  /-- In the head of an application. -/
  | head (K : OneHole) (a : Term)
  /-- In the argument of an application. -/
  | argument (h : Term) (K : OneHole)
  /-- In the type of the variable of a binder. -/
  | domain (q : Binder) (x : Variable) (K : OneHole) (s : Term)
  /-- In the scope of a binder. -/
  | scope (q : Binder) (x : Variable) (A : Term) (K : OneHole)

/-- The term with `t` at the open place. Nothing is renamed: the binders around the place bind the
free variables of `t`. -/
def Term.OneHole.fill (t : Term) : OneHole → Term
  | hole => t
  | head K a => app (K.fill t) a
  | argument h K => app h (K.fill t)
  | domain q x K s => bind q x (K.fill t) s
  | scope q x A K => bind q x A (K.fill t)

/-- The rule η, for a term that is no binder. -/
def EtaNonBinder (s t : Nameless) : Prop :=
  Eta s t ∧ t.isBinder = false

/-- The nameless form of an abstraction that applies a term to its variable. -/
theorem Term.namelessIn_etaExpansion {n : Term} {x : Variable} (hx : n.occursFree x = false)
    (T : Term) (ν : Valuation) :
    (lam x T (app n (var x))).namelessIn ν = .etaExpansion (T.namelessIn ν) (n.namelessIn ν) := by
  rw [namelessIn, namelessIn, namelessIn, Valuation.bind_self,
    namelessIn_bind_of_not_occursFree n ν hx]

/-- A term with a part expanded contracts to the term by one η-step. -/
theorem Term.OneHole.step_fill {n : Term} {x : Variable} (hn : n.isBinder = false)
    (hx : n.occursFree x = false) (T : Term) (K : OneHole) {ν : Valuation} (hν : ν.IsNaming) :
    Step EtaNonBinder ((K.fill (lam x T (app n (var x)))).namelessIn ν)
      ((K.fill n).namelessIn ν) := by
  induction K generalizing ν with
  | hole =>
    rw [fill, fill, namelessIn_etaExpansion hx]
    have hbinder : (n.namelessIn ν).isBinder = false :=
      (Conversion.isBinder_namelessIn hν n).trans hn
    exact .root ⟨.contract _ _, hbinder⟩
  | head K a ih => exact .head (ih hν)
  | argument h K ih => exact .argument (ih hν)
  | domain q y K s ih => exact .domain (ih hν)
  | scope q y A K ih => exact .scope (ih (hν.bind y))

/-! ## Expansion at the head -/

namespace Nameless

/-- An applied η-expansion is a redex, which contracts to the application. -/
theorem weakHead_etaExpansion (A t a : Nameless) :
    WeakHead (app (etaExpansion A t) a) (app t a) := by
  have h := WeakHead.contract A (app t.shift (name (.bound 0))) a
  rwa [instantiate_app_shift] at h

/-- A term that is no binder, expanded somewhere and then applied: either the expansion is at the
head and is contracted there, or the expanded term is no binder and has no redex at its head. -/
theorem applied_of_step {f g : Nameless} (h : Step EtaNonBinder g f) (hf : f.IsNormal)
    (hpi : f.AppliesNoPi) (hbinder : f.isBinder = false) :
    (∀ a, WeakHead.Many (app g a) (app f a)) ∨ (g.IsWeakHeadNormal ∧ g.isBinder = false) := by
  induction h with
  | root hη =>
    obtain ⟨⟨A⟩, _⟩ := hη
    exact Or.inl fun a => .single (weakHead_etaExpansion A _ a)
  | head _ ih =>
    obtain ⟨hlam, hhead, _⟩ := hf
    rcases ih hhead hpi.2.1 (isBinder_eq_false hlam hpi.1) with hmany | ⟨hwhnf, hb⟩
    · exact Or.inl fun a => (hmany _).app a
    · exact Or.inr ⟨⟨isLambda_eq_false hb, hwhnf⟩, rfl⟩
  | argument _ _ => exact Or.inr ⟨⟨hf.1, hf.2.1.isWeakHeadNormal⟩, rfl⟩
  | domain _ _ | scope _ _ => exact absurd hbinder (by simp [isBinder])

end Nameless

/-! ## The test -/

namespace Conversion.NamelessSide

/-- That the test without definitions finds two terms equal, for all large enough bounds. -/
def FindsEqual (l r : Nameless) : Prop :=
  ∀ᶠ fuel in atTop, equal fuel ⟨l, .empty⟩ ⟨r, .empty⟩ = some true

variable {l r l' r' : Nameless}

/-- Terms are found equal if the heads of their weak head normal forms are. -/
theorem findsEqual_of_heads (hl : l.HasWhnf l') (hr : r.HasWhnf r')
    (h : ∀ᶠ fuel in atTop, compareHeads (equal fuel) ⟨l', .empty⟩ ⟨r', .empty⟩ = some true) :
    FindsEqual l r := by
  apply eventually_of_succ
  filter_upwards [hl.eventually, hr.eventually, h] with fuel hl hr h
  rw [equal_succ_of_whnf (l := ⟨l, .empty⟩) (r := ⟨r, .empty⟩) hl hr]
  exact Option.bind_eq_some_iff.mpr ⟨true, h, rfl⟩

/-- A term without a redex that applies no product is found equal to itself. -/
theorem findsEqual_self {t : Nameless} (ht : t.IsNormal) (hpi : t.AppliesNoPi) :
    FindsEqual t t := by
  obtain ⟨same, h⟩ := answers_of_isNormal ht ht
  obtain ⟨fuel, hfuel⟩ := h.exists
  have hsame : same = true :=
    equal_of_common_normalForm (l := ⟨t, .empty⟩) (r := ⟨t, .empty⟩) .refl .refl ht hpi hfuel
  rwa [hsame] at h

/-- Contractions at the head of a term do not change what it is found equal to. -/
theorem findsEqual_of_weakHead (h : WeakHead.Many l l') (hl' : l'.IsWeakHeadNormal)
    (hequal : FindsEqual l' r) : FindsEqual l r := by
  have hreduced := (h.hasWhnf hl'.hasWhnf).eventually
  have hfixed := hl'.hasWhnf.eventually
  have hnext := (tendsto_add_atTop_nat 1).eventually hequal
  apply eventually_of_succ
  filter_upwards [hreduced, hfixed, hnext] with fuel hreduced hfixed hnext
  -- Both comparisons go on from the same weak head normal form.
  rw [equal, hfixed] at hnext
  rw [equal, hreduced]
  exact hnext

/-- Applications are found equal if no binder is applied and head and argument are found equal. -/
theorem findsEqual_app {f g a b : Nameless} (hf : f.IsWeakHeadNormal) (hg : g.IsWeakHeadNormal)
    (hfb : f.isBinder = false) (hgb : g.isBinder = false) (hhead : FindsEqual f g)
    (hargument : FindsEqual a b) : FindsEqual (.app f a) (.app g b) := by
  have hl : (Nameless.app f a).IsWeakHeadNormal := ⟨Nameless.isLambda_eq_false hfb, hf⟩
  have hr : (Nameless.app g b).IsWeakHeadNormal := ⟨Nameless.isLambda_eq_false hgb, hg⟩
  apply findsEqual_of_heads hl.hasWhnf hr.hasWhnf
  filter_upwards [hhead, hargument] with fuel hhead hargument
  rw [compareHeads_app rfl rfl, hfb, hgb]
  exact bind_ite_eq_some_true.mpr ⟨hhead, hargument⟩

/-- Binders of one kind are found equal if their types and their scopes are. -/
theorem findsEqual_bind (q : Binder) {A B s t : Nameless} (hdomain : FindsEqual A B)
    (hscope : FindsEqual s t) : FindsEqual (.bind q A s) (.bind q B t) := by
  apply findsEqual_of_heads ⟨1, rfl⟩ ⟨1, rfl⟩
  filter_upwards [hdomain, hscope] with fuel hdomain hscope
  rw [compareHeads_bind rfl rfl, if_pos rfl]
  exact bind_ite_eq_some_true.mpr ⟨hdomain, hscope⟩

/-- An abstraction that applies a term to its variable is found equal to the term. -/
theorem findsEqual_etaExpansion (A : Nameless) {t : Nameless} (ht : t.IsNormal)
    (hpi : t.AppliesNoPi) (hbinder : t.isBinder = false) : FindsEqual (.etaExpansion A t) t := by
  apply findsEqual_of_heads ⟨1, rfl⟩ ht.isWeakHeadNormal.hasWhnf
  have happlied := findsEqual_self (ht.app_shift (Nameless.isLambda_eq_false hbinder))
    (hpi.app_shift hbinder)
  filter_upwards [happlied] with fuel happlied
  rw [compareHeads_lam_left rfl hbinder]
  exact happlied

/-- **A term with a part expanded is found equal to the term.** -/
theorem findsEqual_of_step {t u : Nameless} (h : Step EtaNonBinder u t) (ht : t.IsNormal)
    (hpi : t.AppliesNoPi) : FindsEqual u t := by
  induction h with
  | root hη =>
    obtain ⟨⟨A⟩, hbinder⟩ := hη
    exact findsEqual_etaExpansion A ht hpi hbinder
  | @head g f a hstep ih =>
    obtain ⟨hlam, hf, ha⟩ := ht
    have hbinder : f.isBinder = false := Nameless.isBinder_eq_false hlam hpi.1
    rcases Nameless.applied_of_step hstep hf hpi.2.1 hbinder with hmany | ⟨hg, hgb⟩
    · -- The expansion is at the head of the spine: weak head reduction takes it back.
      exact findsEqual_of_weakHead (hmany a) ⟨hlam, hf.isWeakHeadNormal⟩
        (findsEqual_self ⟨hlam, hf, ha⟩ hpi)
    · exact findsEqual_app hg hf.isWeakHeadNormal hgb hbinder (ih hf hpi.2.1)
        (findsEqual_self ha hpi.2.2)
  | @argument f a b _ ih =>
    obtain ⟨hlam, hf, hb⟩ := ht
    have hbinder : f.isBinder = false := Nameless.isBinder_eq_false hlam hpi.1
    exact findsEqual_app hf.isWeakHeadNormal hf.isWeakHeadNormal hbinder hbinder
      (findsEqual_self hf hpi.2.1) (ih hb hpi.2.2)
  | domain _ ih => exact findsEqual_bind _ (ih ht.1 hpi.1) (findsEqual_self ht.2 hpi.2)
  | scope _ ih => exact findsEqual_bind _ (findsEqual_self ht.1 hpi.1) (ih ht.2 hpi.2)

end Conversion.NamelessSide

/-! ## Named terms -/

namespace Term

open Conversion.NamelessSide

/-- **η is recognised everywhere.** Let a term have no redex and apply no product, and let one of
its parts that is no binder be replaced by an abstraction that applies the part to a variable not
free in it. The test finds the two terms equal, in both orders, for all large enough bounds. -/
theorem equal_of_etaExpanded (K : OneHole) (n T : Term) (x : Variable)
    (hnormal : (K.fill n).IsNormal) (hpi : (K.fill n).AppliesNoPi) (hn : n.isBinder = false)
    (hx : n.occursFree x = false) :
    ∃ bound, ∀ fuel, bound ≤ fuel →
      (K.fill n).equal fuel (K.fill (lam x T (app n (var x)))) = some true ∧
        (K.fill (lam x T (app n (var x)))).equal fuel (K.fill n) = some true := by
  have hstep := OneHole.step_fill hn hx T K Valuation.isNaming_free
  rw [← nameless_eq_namelessIn, ← nameless_eq_namelessIn] at hstep
  have hequal := findsEqual_of_step hstep ((isNormal_nameless _).mpr hnormal)
    ((appliesNoPi_nameless _).mpr hpi)
  rw [← eventually_atTop]
  filter_upwards [hequal] with fuel hfuel
  have hright : (K.fill (lam x T (app n (var x)))).equal fuel (K.fill n) = some true :=
    (equalUnder_eq_nameless fuel .empty _ _).trans hfuel
  exact ⟨(Conversion.equal_comm fuel _ _).trans hright, hright⟩

/-- The term `λ y : a, f (g y) y` with the place of `g` left open. -/
def placeOfG : OneHole :=
  .scope .lam ⟨"y"⟩ (const ⟨"a"⟩)
    (.head (.argument (var ⟨"f"⟩) (.head .hole (var ⟨"y"⟩))) (var ⟨"y"⟩))

/-- The term is found equal to `λ y : a, f ((λ y : p y, g y) y) y`, where the new variable has the
name of the binder around it and a type that mentions that binder. -/
theorem equal_of_etaExpanded_clash :
    (placeOfG.fill (var ⟨"g"⟩)).IsNormal ∧ (placeOfG.fill (var ⟨"g"⟩)).AppliesNoPi ∧
      ∃ r bound, r = lam ⟨"y"⟩ (const ⟨"a"⟩) (app (app (var ⟨"f"⟩) (app
          (lam ⟨"y"⟩ (app (var ⟨"p"⟩) (var ⟨"y"⟩)) (app (var ⟨"g"⟩) (var ⟨"y"⟩))) (var ⟨"y"⟩)))
            (var ⟨"y"⟩)) ∧
        ∀ fuel, bound ≤ fuel → (placeOfG.fill (var ⟨"g"⟩)).equal fuel r = some true ∧
          r.equal fuel (placeOfG.fill (var ⟨"g"⟩)) = some true := by
  have hnormal : (placeOfG.fill (var ⟨"g"⟩)).IsNormal := by
    simp [placeOfG, OneHole.fill, IsNormal, isLambda]
  have hpi : (placeOfG.fill (var ⟨"g"⟩)).AppliesNoPi := by
    simp [placeOfG, OneHole.fill, AppliesNoPi, isPi]
  obtain ⟨bound, h⟩ := equal_of_etaExpanded placeOfG (var ⟨"g"⟩) (app (var ⟨"p"⟩) (var ⟨"y"⟩)) ⟨"y"⟩
    hnormal hpi rfl (by decide)
  exact ⟨hnormal, hpi, _, bound, rfl, h⟩

end Term

end LogicalFramework

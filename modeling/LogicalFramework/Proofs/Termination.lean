import LogicalFramework.Proofs.Bounds
import LogicalFramework.Proofs.LazyComparison
import LogicalFramework.Proofs.StrongNormalization
import Mathlib.Order.Filter.AtTopBot.Basic

/-!
# Bounds that are large enough

Where reduction ends, the functions that reduce and compare terms answer once their bound is large
enough. That a statement is true of all large enough bounds is written `∀ᶠ fuel in atTop`.

* `Term.exists_normalForm` — a term that terminates has a normal form;
* `Term.IsNormal.whnf_eventually` — a term without a redex is its own weak head normal form;
* `Conversion.NamelessSide.IsInert.answers` — sides without a redex are compared, if unfolding makes
  none: it leaves fewer definitions each time, whatever their values mention;
* `Term.exists_equalUnder`, `Term.exists_equal` — the same for named terms.
-/

namespace LogicalFramework

open Filter

/-- What is true one step before all large enough bounds is true of these bounds. -/
theorem eventually_of_succ {p : Nat → Prop} (h : ∀ᶠ fuel in atTop, p (fuel + 1)) :
    ∀ᶠ fuel in atTop, p fuel := by
  rw [← map_add_atTop_eq_nat 1]
  exact h

/-- An answer that is kept by larger bounds is the answer for all large enough bounds. -/
theorem eventually_of_kept {α : Type} {f : Nat → Option α}
    (hf : ∀ {m n}, m ≤ n → Kept (f m) (f n)) {n : Nat} {a : α} (h : f n = some a) :
    ∀ᶠ fuel in atTop, f fuel = some a :=
  eventually_atTop.mpr ⟨n, fun _ hle => (hf hle).eq_some h⟩

/-! ## Normal forms -/

namespace Nameless

theorem whnf_app {fuel : Nat} {h h' a : Nameless} (hh : h.whnf fuel = some h')
    (hlam : h'.isLambda = false) : (app h a).whnf (fuel + 1) = some (app h' a) := by
  rw [whnf, hh, Option.bind_eq_bind, Option.bind_some]
  split
  · exact absurd hlam (by simp [isLambda])
  · rfl

/-- A term without a redex is its own weak head normal form. -/
theorem IsNormal.whnf_eventually {t : Nameless} (ht : t.IsNormal) :
    ∀ᶠ fuel in atTop, t.whnf fuel = some t := by
  induction t with
  | app h a ihh _ =>
    obtain ⟨hlam, hh, _⟩ := ht
    apply eventually_of_succ
    filter_upwards [ihh hh] with fuel hwhnf
    exact whnf_app hwhnf hlam
  | _ => exact eventually_of_succ (.of_forall fun _ => rfl)

theorem normalForm_app {fuel : Nat} {h h' a a' : Nameless} (hh : h.normalForm fuel = some h')
    (ha : a.normalForm fuel = some a') (hlam : h'.isLambda = false) :
    (app h a).normalForm (fuel + 1) = some (app h' a') := by
  rw [normalForm, hh, ha]
  simp only [Option.bind_eq_bind, Option.bind_some]
  split
  · exact absurd hlam (by simp [isLambda])
  · rfl

theorem normalForm_redex {fuel : Nat} {h a A s a' : Nameless}
    (hh : h.normalForm fuel = some (lam A s)) (ha : a.normalForm fuel = some a') :
    (app h a).normalForm (fuel + 1) = (s.instantiate a').normalForm fuel := by
  rw [normalForm, hh, ha]
  rfl

/-- A term that terminates has a normal form, to which it reduces. -/
theorem Terminates.exists_normalForm {t : Nameless} (ht : t.Terminates) :
    ∃ n, Reduces Beta t n ∧ ∀ᶠ fuel in atTop, t.normalForm fuel = some n := by
  refine Terminates.induction
    (P := fun t => ∃ n, Reduces Beta t n ∧ ∀ᶠ fuel in atTop, t.normalForm fuel = some n)
    (fun t hreducts hparts => ?_) ht
  cases t with
  | app h a =>
    obtain ⟨h', hhh', hh⟩ := hparts h (.head .refl) (by simp only [size]; omega)
    obtain ⟨a', haa', ha⟩ := hparts a (.argument .refl) (by simp only [size]; omega)
    have hboth : Reduces Beta (app h a) (app h' a') := hhh'.app haa'
    by_cases hlam : h'.isLambda = true
    · obtain ⟨A, s, rfl⟩ := exists_lam_of_isLambda hlam
      -- The normal forms of head and argument make a redex, and contracting it is one step more.
      have hcontract : Step Beta (app (lam A s) a') (s.instantiate a') := .root (.contract A s a')
      have hred : Reduces Beta (app h a) (s.instantiate a') := hboth.tail hcontract
      obtain ⟨u, hu, huv⟩ := Relation.TransGen.head'_iff.mp (.tail' hboth hcontract)
      obtain ⟨n, hn, hs⟩ := hreducts u _ hu huv
      refine ⟨n, hred.trans hn, eventually_of_succ ?_⟩
      filter_upwards [hh, ha, hs] with fuel hh ha hs
      rw [normalForm_redex hh ha, hs]
    · refine ⟨app h' a', hboth, eventually_of_succ ?_⟩
      filter_upwards [hh, ha] with fuel hh ha
      exact normalForm_app hh ha (Bool.eq_false_iff.mpr hlam)
  | bind q A s =>
    obtain ⟨A', hAA', hA⟩ := hparts A (.domain .refl) (by simp only [size]; omega)
    obtain ⟨s', hss', hs⟩ := hparts s (.scope .refl) (by simp only [size]; omega)
    refine ⟨bind q A' s', hAA'.bind q hss', eventually_of_succ ?_⟩
    filter_upwards [hA, hs] with fuel hA hs
    rw [normalForm, hA, hs]
    rfl
  | _ => exact ⟨_, .refl, eventually_of_succ (.of_forall fun _ => rfl)⟩

/-! ## Comparison -/

/-- The size of a term, with two for each binder. It is the measure on which comparison terminates:
opening an abstraction takes away at least three, and an η-expansion adds two. -/
def weight : Nameless → Nat
  | app h a => h.weight + a.weight + 1
  | bind _ A s => A.weight + s.weight + 2
  | _ => 1

theorem weight_pos (t : Nameless) : 0 < t.weight := by
  cases t <;> simp [weight]

@[simp]
theorem weight_rename (t : Nameless) (ρ : Name → Name) : (t.rename ρ).weight = t.weight := by
  induction t generalizing ρ with
  | app h a ihh iha => rw [rename, weight, weight, ihh, iha]
  | bind q A s ihA ihs => rw [rename, weight, weight, ihA, ihs]
  | _ => rfl

/-- The scope of an η-expansion of a term that is no abstraction has no redex, if the term has
none. -/
theorem IsNormal.app_shift {t : Nameless} (ht : t.IsNormal) (hlam : t.isLambda = false) :
    (app t.shift (name (.bound 0))).IsNormal := by
  refine ⟨?_, ?_, trivial⟩
  · rw [shift, isLambda_rename, hlam]
  · rw [shift, isNormal_rename]
    exact ht

theorem AppliesNoPi.app_shift {t : Nameless} (ht : t.AppliesNoPi) (hbinder : t.isBinder = false) :
    (app t.shift (name (.bound 0))).AppliesNoPi := by
  refine ⟨?_, ?_, trivial⟩
  · rw [shift, isPi_rename, isPi_eq_false hbinder]
  · rw [shift, appliesNoPi_rename]
    exact ht

theorem weight_app_shift (t : Nameless) :
    (app t.shift (name (.bound 0))).weight = t.weight + 2 := by
  rw [weight, shift, weight_rename]
  rfl

theorem unfoldHead?_empty (t : Nameless) : t.unfoldHead? .empty = none := by
  induction t with
  | name n => cases n <;> rfl
  | app h a ihh _ => rw [unfoldHead?, ihh, Option.map_none]
  | _ => rfl

end Nameless

namespace Conversion.NamelessSide

/-- That the comparison of two sides answers. -/
def Answers (l r : NamelessSide) : Prop :=
  ∃ same, ∀ᶠ fuel in atTop, equal fuel l r = some same

/-- That the comparison of the heads of two sides answers. -/
def HeadsAnswer (l r : NamelessSide) : Prop :=
  ∃ same, ∀ᶠ fuel in atTop, compareHeads (equal fuel) l r = some same

namespace HeadsAnswer

variable {l r l₁ r₁ l₂ r₂ : NamelessSide}

/-- The heads decide at once. -/
theorem of_decided {same : Bool} (hheads : ∀ e, compareHeads e l r = some same) :
    HeadsAnswer l r :=
  ⟨same, .of_forall fun _ => hheads _⟩

/-- The heads leave one comparison to be made. -/
theorem of_answers (h : Answers l₁ r₁) (hheads : ∀ e, compareHeads e l r = e l₁ r₁) :
    HeadsAnswer l r := by
  obtain ⟨same, h⟩ := h
  exact ⟨same, h.mono fun fuel hfuel => (hheads _).trans hfuel⟩

/-- The heads leave two comparisons to be made, one after the other. -/
theorem of_both (h₁ : Answers l₁ r₁) (h₂ : Answers l₂ r₂)
    (hheads : ∀ e, compareHeads e l r = (do if ← e l₁ r₁ then e l₂ r₂ else some false)) :
    HeadsAnswer l r := by
  obtain ⟨same₁, h₁⟩ := h₁
  obtain ⟨same₂, h₂⟩ := h₂
  refine ⟨if same₁ then same₂ else false, ?_⟩
  filter_upwards [h₁, h₂] with fuel h₁ h₂
  rw [hheads, h₁, h₂]
  cases same₁ <;> rfl

/-- An abstraction on the left only is opened against an η-expansion of the right side. -/
theorem lam_left {A s : Nameless} (hterm : l.term = .lam A s) (hl : l.term.IsNormal)
    (hr : r.term.IsNormal) (hbinder : r.term.isBinder = false)
    (ih : ∀ s t : Nameless, s.IsNormal → t.IsNormal →
      s.weight + t.weight < l.term.weight + r.term.weight → Answers (l.put s) (r.put t)) :
    HeadsAnswer l r := by
  have hweight := A.weight_pos
  rw [hterm] at hl
  refine of_answers (ih s _ hl.2 (hr.app_shift (Nameless.isLambda_eq_false hbinder)) ?_)
    fun e => compareHeads_lam_left hterm hbinder
  rw [Nameless.weight_app_shift, hterm, Nameless.weight]
  omega

/-- An abstraction on the right only is opened against an η-expansion of the left side. -/
theorem lam_right {A s : Nameless} (hterm : r.term = .lam A s) (hl : l.term.IsNormal)
    (hr : r.term.IsNormal) (hbinder : l.term.isBinder = false)
    (ih : ∀ s t : Nameless, s.IsNormal → t.IsNormal →
      s.weight + t.weight < l.term.weight + r.term.weight → Answers (l.put s) (r.put t)) :
    HeadsAnswer l r := by
  have hweight := A.weight_pos
  rw [hterm] at hr
  refine of_answers (ih _ s (hl.app_shift (Nameless.isLambda_eq_false hbinder)) hr.2 ?_)
    fun e => compareHeads_lam_right hbinder hterm
  rw [Nameless.weight_app_shift, hterm, Nameless.weight]
  omega

end HeadsAnswer

/-- Terms without a redex have their heads compared, if the comparison answers for lighter terms. -/
theorem headsAnswer_of_isNormal {l r : NamelessSide} (hl : l.term.IsNormal) (hr : r.term.IsNormal)
    (ih : ∀ s t : Nameless, s.IsNormal → t.IsNormal →
      s.weight + t.weight < l.term.weight + r.term.weight → Answers (l.put s) (r.put t)) :
    HeadsAnswer l r := by
  obtain ⟨l, δ⟩ := l
  obtain ⟨r, ε⟩ := r
  cases l with
  | app f a =>
    cases r with
    | app g b =>
      by_cases hbinder : (f.isBinder || g.isBinder) = true
      · exact .of_decided fun e => by rw [compareHeads_app rfl rfl, if_pos hbinder]
      · have hf := ih f g hl.2.1 hr.2.1 (by simp only [Nameless.weight]; omega)
        have ha := ih a b hl.2.2 hr.2.2 (by simp only [Nameless.weight]; omega)
        exact .of_both hf ha fun e => by rw [compareHeads_app rfl rfl, if_neg hbinder]
    | bind q B t =>
      cases q with
      | lam => exact .lam_right rfl hl hr rfl ih
      | pi => exact .of_decided fun e => rfl
    | _ => exact .of_decided fun e => rfl
  | bind q A s =>
    cases r with
    | bind q' B t =>
      by_cases hq : q = q'
      · have hA := ih A B hl.1 hr.1 (by simp only [Nameless.weight]; omega)
        have hs := ih s t hl.2 hr.2 (by simp only [Nameless.weight]; omega)
        exact .of_both hA hs fun e => by rw [compareHeads_bind rfl rfl, if_pos hq]
      · exact .of_decided fun e => by rw [compareHeads_bind rfl rfl, if_neg hq]
    | _ =>
      cases q with
      | lam => exact .lam_left rfl hl hr rfl ih
      | pi => exact .of_decided fun e => rfl
  | _ =>
    cases r with
    | bind q B t =>
      cases q with
      | lam => exact .lam_right rfl hl hr rfl ih
      | pi => exact .of_decided fun e => rfl
    | _ => exact .of_decided fun e => rfl

/-- Without definitions there is nothing to unfold. -/
theorem compareUnfolded_empty (e : NamelessSide → NamelessSide → Option Bool) (l r : Nameless) :
    compareUnfolded e ⟨l, .empty⟩ ⟨r, .empty⟩ = some false := by
  unfold compareUnfolded unfolded?
  rw [Nameless.unfoldHead?_empty, Nameless.unfoldHead?_empty]
  rfl

/-! ## Comparison with definitions -/

/-- That a side has no redex and that unfolding makes none in it. -/
structure IsInert (s : NamelessSide) : Prop where
  /-- The term has no redex. -/
  normal : s.term.IsNormal
  /-- No value has a redex, and none becomes one when it is applied. -/
  values : ∀ x u, s.definitions.lookup x = some u → u.IsNormal ∧ u.isLambda = false

namespace IsInert

variable {l r s : NamelessSide}

theorem put (hs : s.IsInert) {t : Nameless} (ht : t.IsNormal) : (s.put t).IsInert :=
  ⟨ht, hs.values⟩

/-- Unfolding the head of a term makes no redex. -/
theorem unfoldHead? (hs : s.IsInert) {t t' : Nameless} {x : Variable} (ht : t.IsNormal)
    (h : t.unfoldHead? s.definitions = some (x, t')) :
    t'.IsNormal ∧ t'.isLambda = false ∧ s.definitions.contains x = true := by
  induction t generalizing t' with
  | name n =>
    cases n with
    | bound i => exact absurd h (by simp [Nameless.unfoldHead?])
    | free y =>
      rw [Nameless.unfoldHead?, Option.map_eq_some_iff] at h
      obtain ⟨u, hu, he⟩ := h
      cases he
      obtain ⟨hnormal, hlam⟩ := hs.values x u hu
      rw [Term.isNormal_nameless, Term.isLambda_nameless]
      exact ⟨hnormal, hlam, by rw [Bindings.contains, hu]; rfl⟩
  | app f a ihf _ =>
    rw [Nameless.unfoldHead?, Option.map_eq_some_iff] at h
    obtain ⟨⟨y, f'⟩, hf, he⟩ := h
    cases he
    obtain ⟨hnormal, hlam, hx⟩ := ihf ht.2.1 hf
    exact ⟨⟨hlam, hnormal, ht.2.2⟩, rfl, hx⟩
  | _ => exact absurd h (by simp [Nameless.unfoldHead?])

/-- Unfolding leaves fewer definitions, and nothing that makes a redex. -/
theorem unfolded (hs : s.IsInert) {s' : NamelessSide} (h : s.unfolded? = some s') :
    s'.IsInert ∧ s'.definitions.size < s.definitions.size := by
  rw [unfolded?, Option.map_eq_some_iff] at h
  obtain ⟨⟨x, t⟩, ht, rfl⟩ := h
  obtain ⟨hnormal, _, hx⟩ := hs.unfoldHead? hs.normal ht
  exact ⟨⟨hnormal, fun y u hu => hs.values y u (Bindings.lookup_of_lookup_erase hu)⟩,
    Bindings.size_erase_lt hx⟩

/-- The sides are compared after unfolding, if the comparison answers with fewer definitions. -/
theorem unfoldedAnswer (hl : l.IsInert) (hr : r.IsInert)
    (ih : ∀ l' r' : NamelessSide, l'.IsInert → r'.IsInert →
      l'.definitions.size + r'.definitions.size < l.definitions.size + r.definitions.size →
      Answers l' r') :
    ∃ same, ∀ᶠ fuel in atTop, compareUnfolded (equal fuel) l r = some same := by
  unfold compareUnfolded
  cases hl' : l.unfolded? with
  | none =>
    cases hr' : r.unfolded? with
    | none => exact ⟨false, .of_forall fun _ => rfl⟩
    | some r' =>
      obtain ⟨hinert, hlt⟩ := hr.unfolded hr'
      exact ih l r' hl hinert (by omega)
  | some l' =>
    obtain ⟨hinert, hlt⟩ := hl.unfolded hl'
    cases hr' : r.unfolded? with
    | none => exact ih l' r hinert hr (by omega)
    | some r' =>
      obtain ⟨hinert', hlt'⟩ := hr.unfolded hr'
      exact ih l' r' hinert hinert' (by omega)

/-- **The comparison of sides in which no redex can come up answers**, also if their definitions
refer to each other in a circle. -/
theorem answers (hl : l.IsInert) (hr : r.IsInert) : Answers l r := by
  -- Unfolding can make terms heavier, but leaves fewer definitions. Everything else keeps the
  -- definitions and goes on with lighter terms.
  induction hm : l.definitions.size + r.definitions.size using Nat.strong_induction_on
    generalizing l r with
  | _ m ihfewer =>
  induction hn : l.term.weight + r.term.weight using Nat.strong_induction_on
    generalizing l r with
  | _ n ihlighter =>
  obtain ⟨sameHeads, hheads⟩ := headsAnswer_of_isNormal hl.normal hr.normal fun s t hs ht hlt =>
    ihlighter _ (hn ▸ hlt) (hl.put hs) (hr.put ht) hm rfl
  obtain ⟨same, hunfolded⟩ := hl.unfoldedAnswer hr fun l' r' hl' hr' hlt =>
    ihfewer _ (hm ▸ hlt) hl' hr' rfl
  refine ⟨if sameHeads then true else same, eventually_of_succ ?_⟩
  filter_upwards [hl.normal.whnf_eventually, hr.normal.whnf_eventually, hheads, hunfolded]
    with fuel hlwhnf hrwhnf hheads hunfolded
  rw [equal_succ_of_whnf hlwhnf hrwhnf]
  show (do
    if ← compareHeads (equal fuel) l r then some true else compareUnfolded (equal fuel) l r) = _
  rw [hheads, hunfolded]
  cases sameHeads <;> rfl

end IsInert

/-- The comparison of terms without a redex answers, if there are no definitions. -/
theorem answers_of_isNormal {l r : Nameless} (hl : l.IsNormal) (hr : r.IsNormal) :
    Answers ⟨l, .empty⟩ ⟨r, .empty⟩ :=
  IsInert.answers ⟨hl, by simp⟩ ⟨hr, by simp⟩

end Conversion.NamelessSide

/-! ## Named terms -/

namespace Term

/-- A term that terminates has a normal form. -/
theorem exists_normalForm {t : Term} (ht : t.nameless.Terminates) :
    ∃ n, ∀ᶠ fuel in atTop, t.normalForm fuel = some n := by
  obtain ⟨m, _, hm⟩ := ht.exists_normalForm
  obtain ⟨fuel, hfuel⟩ := hm.exists
  rw [normalForm_nameless, Option.map_eq_some_iff] at hfuel
  obtain ⟨n, hn, _⟩ := hfuel
  exact ⟨n, eventually_of_kept (fun hle => normalForm_kept hle t) hn⟩

/-- A term without a redex is its own weak head normal form. -/
theorem IsNormal.whnf_eventually {t : Term} (ht : t.IsNormal) :
    ∀ᶠ fuel in atTop, t.whnf fuel = some t := by
  filter_upwards [((isNormal_nameless t).mpr ht).whnf_eventually] with fuel hfuel
  rw [whnf_nameless, Option.map_eq_some_iff] at hfuel
  obtain ⟨t', ht', _⟩ := hfuel
  rw [ht', whnf_of_isNormal ht ht']

/-- The comparison of terms without a redex answers, if the values of the definitions have none
either and are no abstractions. -/
theorem exists_equalUnder {defs : Definitions} {l r : Term}
    (hdefs : ∀ x u, defs.lookup x = some u → u.IsNormal ∧ u.isLambda = false) (hl : l.IsNormal)
    (hr : r.IsNormal) : ∃ same, ∀ᶠ fuel in atTop, l.equalUnder fuel defs r = some same := by
  simp only [equalUnder_eq_nameless]
  exact Conversion.NamelessSide.IsInert.answers ⟨(isNormal_nameless l).mpr hl, hdefs⟩
    ⟨(isNormal_nameless r).mpr hr, hdefs⟩

/-- The comparison of terms without a redex answers. -/
theorem exists_equal {l r : Term} (hl : l.IsNormal) (hr : r.IsNormal) :
    ∃ same, ∀ᶠ fuel in atTop, l.equal fuel r = some same :=
  exists_equalUnder (by simp) hl hr

/-- Whether there is an abstraction anywhere in the term. -/
def hasLambda : Term → Bool
  | app h a => h.hasLambda || a.hasLambda
  | bind q _ A s => q = .lam || A.hasLambda || s.hasLambda
  | _ => false

/-- A term without an abstraction has no redex and is none. -/
theorem isNormal_of_hasLambda {t : Term} (ht : t.hasLambda = false) :
    t.IsNormal ∧ t.isLambda = false := by
  induction t with
  | app h a ihh iha =>
    rw [hasLambda, Bool.or_eq_false_iff] at ht
    obtain ⟨hh, hlam⟩ := ihh ht.1
    exact ⟨⟨hlam, hh, (iha ht.2).1⟩, rfl⟩
  | bind q x A s ihA ihs =>
    rw [hasLambda, Bool.or_eq_false_iff, Bool.or_eq_false_iff] at ht
    obtain ⟨⟨hq, hA⟩, hs⟩ := ht
    refine ⟨⟨(ihA hA).1, (ihs hs).1⟩, ?_⟩
    cases q with
    | lam => exact absurd hq (by simp)
    | pi => rfl
  | _ => exact ⟨trivial, rfl⟩

/-- **The comparison of terms without a redex answers**, with any definitions whose values have no
abstraction in them. A value may mention the variable that it defines, or two values each other's
variables, and what an older definition of a variable says does not matter. The answer is the same
for all large enough bounds. -/
theorem equal_terminates_on_normal :
    (∀ (defs : Definitions) (l r : Term),
      (∀ x u, defs.lookup x = some u → u.hasLambda = false) → l.IsNormal → r.IsNormal →
        ∃ same bound, ∀ fuel, bound ≤ fuel → l.equalUnder fuel defs r = some same) ∧
    ∀ l r : Term, l.IsNormal → r.IsNormal →
      ∃ same bound, ∀ fuel, bound ≤ fuel → l.equal fuel r = some same := by
  simp only [← eventually_atTop]
  constructor
  · intro defs l r hdefs hl hr
    exact exists_equalUnder (fun x u hu => isNormal_of_hasLambda (hdefs x u hu)) hl hr
  · intro l r hl hr
    exact exists_equal hl hr

/-- The definitions `e := c`, `f := e`, `e := f` and `d := d c`, the oldest one first. -/
def circular : Definitions :=
  .ofOldestFirst [(⟨"e"⟩, const ⟨"c"⟩), (⟨"f"⟩, var ⟨"e"⟩), (⟨"e"⟩, var ⟨"f"⟩),
    (⟨"d"⟩, app (var ⟨"d"⟩) (const ⟨"c"⟩))]

/-- The function `λ x : a, d x`. -/
def applyingD : Term :=
  lam ⟨"x"⟩ (const ⟨"a"⟩) (app (var ⟨"d"⟩) (var ⟨"x"⟩))

/-- With these definitions the function is found different from `e`. Without definitions it is found
equal to `d`. -/
theorem equal_terminates_on_normal_circular :
    (∀ x u, circular.lookup x = some u → u.hasLambda = false) ∧ applyingD.IsNormal ∧
      (∃ bound, ∀ fuel, bound ≤ fuel →
        applyingD.equalUnder fuel circular (var ⟨"e"⟩) = some false) ∧
      ∃ bound, ∀ fuel, bound ≤ fuel → applyingD.equal fuel (var ⟨"d"⟩) = some true := by
  have hentries : ∀ entry ∈ circular.newestFirst, entry.2.hasLambda = false := by decide
  have hdefs : ∀ x u, circular.lookup x = some u → u.hasLambda = false :=
    fun x u hu => hentries (x, u) (Bindings.mem_of_lookup hu)
  have hnormal : applyingD.IsNormal := ⟨trivial, rfl, trivial, trivial⟩
  have hdifferent : applyingD.equalUnder 8 circular (var ⟨"e"⟩) = some false := by decide +kernel
  have hequal : applyingD.equal 8 (var ⟨"d"⟩) = some true := by decide +kernel
  obtain ⟨same, bound, h⟩ :=
    equal_terminates_on_normal.1 circular applyingD (var ⟨"e"⟩) hdefs hnormal trivial
  obtain ⟨same', bound', h'⟩ :=
    equal_terminates_on_normal.2 applyingD (var ⟨"d"⟩) hnormal trivial
  obtain rfl := Kept.unique (fun hle => Conversion.equal_kept hle _ _) (h bound le_rfl) hdifferent
  obtain rfl := Kept.unique (fun hle => Conversion.equal_kept hle _ _) (h' bound' le_rfl) hequal
  exact ⟨hdefs, hnormal, ⟨bound, h⟩, bound', h'⟩

end Term

end LogicalFramework

import LogicalFramework.Proofs.NamelessConversion
import LogicalFramework.Proofs.NormalForm

/-!
# The convertibility test agrees with normal forms

The test reduces both sides to weak head normal form only and goes on with the parts. This is
enough: a weak head normal form has the shape of the normal form, and its parts have the parts of
the normal form as their normal forms. So if two terms have a common normal form, all parts that the
test compares have one as well, and it never finds a difference. Only where a product is applied
does the test give up, and then the normal form applies a product too.

* `Nameless.IsWeakHeadNormal.samePartsUpTo` — what weak head normal forms reduce to;
* `Conversion.NamelessSide.equal_of_common_normalForm` — the test accepts sides with a common normal
  form;
* `Term.equal_of_alphaEquivalent_normalForms` — the same for named terms and their normal forms.
-/

namespace LogicalFramework

/-! ## Weak head normal forms -/

namespace Nameless

/-- Whether no abstraction is applied at the head of the term. -/
def IsWeakHeadNormal : Nameless → Prop
  | app h _ => h.isLambda = false ∧ h.IsWeakHeadNormal
  | _ => True

theorem IsNormal.isWeakHeadNormal {t : Nameless} (ht : t.IsNormal) : t.IsWeakHeadNormal := by
  induction t with
  | app h a ihh _ => exact ⟨ht.1, ihh ht.2.1⟩
  | _ => trivial

/-- Terms of one shape whose parts are related by `R`. -/
inductive SamePartsUpTo (R : Nameless → Nameless → Prop) : Nameless → Nameless → Prop where
  | type : SamePartsUpTo R .type .type
  | const (c : Constant) : SamePartsUpTo R (.const c) (.const c)
  | name (n : Name) : SamePartsUpTo R (.name n) (.name n)
  | metaVar (m : MetaVariable) : SamePartsUpTo R (.metaVar m) (.metaVar m)
  | app {f g a b : Nameless} (hf : R f g) (ha : R a b) : SamePartsUpTo R (.app f a) (.app g b)
  | bind (q : Binder) {A B s t : Nameless} (hA : R A B) (hs : R s t) :
      SamePartsUpTo R (.bind q A s) (.bind q B t)

namespace SamePartsUpTo

variable {R : Nameless → Nameless → Prop} {s t u : Nameless}

theorem refl (hR : ∀ t, R t t) (t : Nameless) : SamePartsUpTo R t t := by
  cases t with
  | type => exact type
  | const c => exact const c
  | name n => exact name n
  | metaVar m => exact metaVar m
  | app h a => exact app (hR h) (hR a)
  | bind q A s => exact bind q (hR A) (hR s)

theorem trans (hR : ∀ {s t u}, R s t → R t u → R s u) (h : SamePartsUpTo R s t)
    (h' : SamePartsUpTo R t u) : SamePartsUpTo R s u := by
  cases h with
  | app hf ha =>
    cases h' with
    | app hf' ha' => exact app (hR hf hf') (hR ha ha')
  | bind q hA hs =>
    cases h' with
    | bind _ hA' hs' => exact bind q (hR hA hA') (hR hs hs')
  | _ => exact h'

theorem isBinder_eq (h : SamePartsUpTo R s t) : s.isBinder = t.isBinder := by
  cases h <;> rfl

theorem isLambda_eq (h : SamePartsUpTo R s t) : s.isLambda = t.isLambda := by
  cases h with
  | bind q => cases q <;> rfl
  | _ => rfl

end SamePartsUpTo

namespace IsWeakHeadNormal

/-- A contraction in a weak head normal form is one in its parts. -/
theorem step {t u : Nameless} (ht : t.IsWeakHeadNormal) (h : Step Beta t u) :
    u.IsWeakHeadNormal ∧ SamePartsUpTo (Reduces Beta) t u := by
  induction h with
  | root hβ =>
    obtain ⟨A, s, a⟩ := hβ
    exact Bool.noConfusion ht.1
  | head h ih =>
    obtain ⟨hlam, hf⟩ := ht
    obtain ⟨hg, hparts⟩ := ih hf
    rw [hparts.isLambda_eq] at hlam
    exact ⟨⟨hlam, hg⟩, .app (.single h) .refl⟩
  | argument h _ => exact ⟨ht, .app .refl (.single h)⟩
  | domain h _ => exact ⟨trivial, .bind _ (.single h) .refl⟩
  | scope h _ => exact ⟨trivial, .bind _ .refl (.single h)⟩

/-- What a weak head normal form reduces to has its shape, and its parts reduce to the parts. -/
theorem samePartsUpTo {t u : Nameless} (ht : t.IsWeakHeadNormal) (h : Reduces Beta t u) :
    SamePartsUpTo (Reduces Beta) t u := by
  have hboth : u.IsWeakHeadNormal ∧ SamePartsUpTo (Reduces Beta) t u := by
    induction h with
    | refl => exact ⟨ht, .refl (fun _ => .refl) t⟩
    | tail _ hstep ih =>
      obtain ⟨hv, hparts⟩ := ih
      obtain ⟨hu, hparts'⟩ := hv.step hstep
      exact ⟨hu, hparts.trans Relation.ReflTransGen.trans hparts'⟩
  exact hboth.2

end IsWeakHeadNormal

/-- How the weak head normal form of an application comes about. -/
theorem whnf_app_cases {fuel : Nat} {h a t : Nameless} (ht : (app h a).whnf (fuel + 1) = some t) :
    (∃ A s, h.whnf fuel = some (lam A s) ∧ (s.instantiate a).whnf fuel = some t) ∨
      ∃ h', h.whnf fuel = some h' ∧ h'.isLambda = false ∧ t = app h' a := by
  rw [whnf, Option.bind_eq_bind, Option.bind_eq_some_iff] at ht
  obtain ⟨h', hh, ht⟩ := ht
  split at ht
  · exact Or.inl ⟨_, _, hh, ht⟩
  · rename_i hlam
    refine Or.inr ⟨h', hh, ?_, (Option.some.inj ht).symm⟩
    unfold isLambda
    split
    · exact absurd rfl (hlam _ _)
    · rfl

/-- Weak head reduction reaches a weak head normal form by contractions. -/
theorem whnf_spec {fuel : Nat} {t t' : Nameless} (h : t.whnf fuel = some t') :
    Reduces Beta t t' ∧ t'.IsWeakHeadNormal := by
  induction fuel generalizing t t' with
  | zero => exact absurd h (by simp [whnf])
  | succ fuel ih =>
    cases t with
    | app f a =>
      rcases whnf_app_cases h with ⟨A, s, hf, hs⟩ | ⟨f', hf, hlam, rfl⟩
      · have hhead : Reduces Beta (app f a) (app (lam A s) a) := (ih hf).1.app .refl
        obtain ⟨hscope, ht'⟩ := ih hs
        exact ⟨(hhead.tail (.root (.contract A s a))).trans hscope, ht'⟩
      · obtain ⟨hred, hwhnf⟩ := ih hf
        exact ⟨hred.app .refl, hlam, hwhnf⟩
    | _ =>
      cases h
      exact ⟨.refl, trivial⟩

/-- Whether no product is applied, anywhere in the term. -/
def AppliesNoPi : Nameless → Prop
  | app h a => h.isPi = false ∧ h.AppliesNoPi ∧ a.AppliesNoPi
  | bind _ A s => A.AppliesNoPi ∧ s.AppliesNoPi
  | _ => True

@[simp]
theorem appliesNoPi_rename (t : Nameless) (ρ : Name → Name) :
    (t.rename ρ).AppliesNoPi ↔ t.AppliesNoPi := by
  induction t generalizing ρ with
  | app h a ihh iha => simp only [rename, AppliesNoPi, isPi_rename, ihh, iha]
  | bind q A s ihA ihs => simp only [rename, AppliesNoPi, ihA, ihs]
  | _ => exact Iff.rfl

theorem isBinder_eq_false {t : Nameless} (hlam : t.isLambda = false) (hpi : t.isPi = false) :
    t.isBinder = false := by
  cases t with
  | bind q A s =>
    cases q with
    | lam => exact hlam
    | pi => exact hpi
  | _ => rfl

theorem isLambda_eq_false {t : Nameless} (h : t.isBinder = false) : t.isLambda = false := by
  cases t with
  | bind q A s => exact absurd h (by simp [isBinder])
  | _ => rfl

theorem isPi_eq_false {t : Nameless} (h : t.isBinder = false) : t.isPi = false := by
  cases t with
  | bind q A s => exact absurd h (by simp [isBinder])
  | _ => rfl

end Nameless

/-! ## The test on nameless terms -/

namespace Conversion

/-- Two comparisons that answer true, if they answer, do so one after the other. -/
theorem eq_true_of_bind_ite {first second : Option Bool} {same : Bool}
    (hfirst : ∀ b, first = some b → b = true) (hsecond : ∀ b, second = some b → b = true)
    (h : (do if ← first then second else some false) = some same) : same = true := by
  cases first with
  | none => exact absurd h (by simp)
  | some b =>
    rw [hfirst b rfl] at h
    exact hsecond same h

namespace NamelessSide

/-- The test on terms with the given weak head normal forms: their heads are compared, and if these
are different, the sides unfolded. -/
theorem equal_succ_of_whnf {fuel : Nat} {l r : NamelessSide} {l' r' : Nameless}
    (hl : l.term.whnf fuel = some l') (hr : r.term.whnf fuel = some r') :
    equal (fuel + 1) l r = (do
      if ← compareHeads (equal fuel) (l.put l') (r.put r') then some true
      else compareUnfolded (equal fuel) (l.put l') (r.put r')) := by
  rw [equal, hl, hr]
  rfl

/-- How an answer of the test comes about: from the heads of the weak head normal forms, or, if
these are different, from the sides unfolded. -/
theorem equal_succ_cases {fuel : Nat} {l r : NamelessSide} {same : Bool}
    (h : equal (fuel + 1) l r = some same) :
    ∃ l' r', l.term.whnf fuel = some l' ∧ r.term.whnf fuel = some r' ∧
      ((compareHeads (equal fuel) (l.put l') (r.put r') = some true ∧ same = true) ∨
        (compareHeads (equal fuel) (l.put l') (r.put r') = some false ∧
          compareUnfolded (equal fuel) (l.put l') (r.put r') = some same)) := by
  rw [equal, Option.bind_eq_bind, Option.bind_eq_some_iff] at h
  obtain ⟨l', hl, h⟩ := h
  rw [Option.bind_eq_some_iff] at h
  obtain ⟨r', hr, h⟩ := h
  dsimp only at h
  rw [Option.bind_eq_bind, Option.bind_eq_some_iff] at h
  obtain ⟨sameHeads, hheads, h⟩ := h
  refine ⟨l', r', hl, hr, ?_⟩
  cases sameHeads with
  | true => exact Or.inl ⟨hheads, (Option.some.inj h).symm⟩
  | false => exact Or.inr ⟨hheads, h⟩

/-- An answer of the test is that of the comparison of weak head normal forms, if this is true. -/
theorem equal_succ {fuel : Nat} {l r : NamelessSide} {same : Bool}
    (h : equal (fuel + 1) l r = some same) :
    ∃ l' r' sameHeads, l.term.whnf fuel = some l' ∧ r.term.whnf fuel = some r' ∧
      compareHeads (equal fuel) (l.put l') (r.put r') = some sameHeads ∧
      (sameHeads = true → same = true) := by
  obtain ⟨l', r', hl, hr, ⟨hheads, hsame⟩ | ⟨hheads, _⟩⟩ := equal_succ_cases h
  · exact ⟨l', r', true, hl, hr, hheads, fun _ => hsame⟩
  · exact ⟨l', r', false, hl, hr, hheads, fun hfalse => absurd hfalse (by simp)⟩

/-- If the comparison of parts accepts those with a common normal form, so does the comparison of
heads. -/
theorem compareHeads_of_common_normalForm {equal : NamelessSide → NamelessSide → Option Bool}
    {l r : NamelessSide} {n : Nameless} {same : Bool}
    (hequal : ∀ s t m, Reduces Beta s m → Reduces Beta t m → m.IsNormal → m.AppliesNoPi →
      ∀ b, equal (l.put s) (r.put t) = some b → b = true)
    (hl : l.term.IsWeakHeadNormal) (hr : r.term.IsWeakHeadNormal) (hln : Reduces Beta l.term n)
    (hrn : Reduces Beta r.term n) (hn : n.IsNormal) (hpi : n.AppliesNoPi)
    (h : compareHeads equal l r = some same) : same = true := by
  have hlparts := hl.samePartsUpTo hln
  have hrparts := hr.samePartsUpTo hrn
  obtain ⟨l, δ⟩ := l
  obtain ⟨r, ε⟩ := r
  -- Both sides have the shape of the normal form.
  cases hlparts with
  | app hf ha =>
    cases hrparts with
    | app hg hb =>
      have hbinder := Nameless.isBinder_eq_false hn.1 hpi.1
      rw [compareHeads_app rfl rfl, (hl.2.samePartsUpTo hf).isBinder_eq,
        (hr.2.samePartsUpTo hg).isBinder_eq, hbinder] at h
      exact eq_true_of_bind_ite (hequal _ _ _ hf hg hn.2.1 hpi.2.1)
        (hequal _ _ _ ha hb hn.2.2 hpi.2.2) h
  | bind q hA hs =>
    cases hrparts with
    | bind _ hB ht =>
      rw [compareHeads_bind rfl rfl, if_pos rfl] at h
      exact eq_true_of_bind_ite (hequal _ _ _ hA hB hn.1 hpi.1) (hequal _ _ _ hs ht hn.2 hpi.2) h
  | _ =>
    cases hrparts
    simpa [compareHeads] using h.symm

/-- The test accepts sides whose terms have a common normal form, whenever it answers. -/
theorem equal_of_common_normalForm {fuel : Nat} {l r : NamelessSide} {n : Nameless} {same : Bool}
    (hl : Reduces Beta l.term n) (hr : Reduces Beta r.term n) (hn : n.IsNormal)
    (hpi : n.AppliesNoPi) (h : equal fuel l r = some same) : same = true := by
  induction fuel generalizing l r n same with
  | zero => exact absurd h (by simp [equal])
  | succ fuel ih =>
    obtain ⟨l', r', sameHeads, hl', hr', hheads, hsame⟩ := equal_succ h
    obtain ⟨hlred, hlwhnf⟩ := Nameless.whnf_spec hl'
    obtain ⟨hrred, hrwhnf⟩ := Nameless.whnf_spec hr'
    apply hsame
    exact compareHeads_of_common_normalForm (l := l.put l') (r := r.put r')
      (fun s t m hs ht hm hmpi b hb => ih (l := l.put s) (r := r.put t) hs ht hm hmpi hb)
      hlwhnf hrwhnf (hn.reduces_of_reduces hl hlred) (hn.reduces_of_reduces hr hrred) hn hpi hheads

end NamelessSide

end Conversion

/-! ## Named terms -/

namespace Term

/-- Whether no product is applied, anywhere in the term. -/
def AppliesNoPi : Term → Prop
  | app h a => h.isPi = false ∧ h.AppliesNoPi ∧ a.AppliesNoPi
  | bind _ _ A s => A.AppliesNoPi ∧ s.AppliesNoPi
  | _ => True

theorem appliesNoPi_nameless (t : Term) : t.nameless.AppliesNoPi ↔ t.AppliesNoPi := by
  induction t with
  | app h a ihh iha =>
    simp only [nameless_app, Nameless.AppliesNoPi, AppliesNoPi, isPi_nameless, ihh, iha]
  | bind q x A s ihA ihs =>
    simp only [nameless_bind, Nameless.AppliesNoPi, AppliesNoPi, Nameless.appliesNoPi_rename, ihA,
      ihs]
  | _ => exact Iff.rfl

/-- Without definitions, the test is that on the nameless forms. -/
theorem equal_eq_nameless {ν : Valuation} (hν : ν.Faithful []) (fuel : Nat) (l r : Term) :
    l.equal fuel r =
      Conversion.NamelessSide.equal fuel ⟨l.namelessIn ν, .empty⟩ ⟨r.namelessIn ν, .empty⟩ :=
  Conversion.equal_eq_nameless (l := ⟨l, .empty⟩) (r := ⟨r, .empty⟩) fuel hν

/-- Terms that reduce to one normal form are accepted by the test, whenever it answers. -/
theorem equal_of_reduces {fuel : Nat} {l r n : Term} {same : Bool}
    (hl : Reduces Beta l.nameless n.nameless) (hr : Reduces Beta r.nameless n.nameless)
    (hn : n.IsNormal) (hpi : n.AppliesNoPi) (h : l.equal fuel r = some same) : same = true := by
  rw [equal_eq_nameless (Valuation.Faithful.free []), ← nameless_eq_namelessIn,
    ← nameless_eq_namelessIn] at h
  exact Conversion.NamelessSide.equal_of_common_normalForm hl hr ((isNormal_nameless n).mpr hn)
    ((appliesNoPi_nameless n).mpr hpi) h

/-- **The lazy comparison agrees with normal forms.** Terms whose normal forms differ in bound names
only, and apply no product, are accepted by the convertibility test whenever it answers. So it
accepts a term against itself and against its normal form. -/
theorem equal_of_alphaEquivalent_normalForms :
    (∀ (fuel fuel' bound : Nat) (l r l' r' : Term) (same : Bool), l.normalForm fuel = some l' →
      r.normalForm fuel' = some r' → alphaEquivalent l' r' = true → l'.AppliesNoPi →
      l.equal bound r = some same → same = true) ∧
    ∀ (fuel bound : Nat) (t t' : Term) (same : Bool), t.normalForm fuel = some t' →
      t'.AppliesNoPi → (t.equal bound t = some same → same = true) ∧
        (t.equal bound t' = some same → same = true) ∧
        (t'.equal bound t = some same → same = true) := by
  constructor
  · intro fuel fuel' bound l r l' r' same hl hr hα hpi h
    have hrr' := normalForm_reduces hr
    rw [← (alphaEquivalent_iff_nameless l' r').mp hα] at hrr'
    exact equal_of_reduces (normalForm_reduces hl) hrr' (normalForm_isNormal hl) hpi h
  · intro fuel bound t t' same ht hpi
    have htt' := normalForm_reduces ht
    have ht' := normalForm_isNormal ht
    exact ⟨equal_of_reduces htt' htt' ht' hpi, equal_of_reduces htt' .refl ht' hpi,
      equal_of_reduces .refl htt' ht' hpi⟩

/-- The term `(λ g, λ z : g c, g z) (λ y, f y)`, which has redexes only once its head is
contracted. -/
def redexInHead : Term :=
  app (lam ⟨"g"⟩ type (lam ⟨"z"⟩ (app (var ⟨"g"⟩) (const ⟨"c"⟩)) (app (var ⟨"g"⟩) (var ⟨"z"⟩))))
    (lam ⟨"y"⟩ type (app (var ⟨"f"⟩) (var ⟨"y"⟩)))

/-- The term `λ w : f c, (λ u, f u) w`, with a redex under a binder. -/
def redexInScope : Term :=
  lam ⟨"w"⟩ (app (var ⟨"f"⟩) (const ⟨"c"⟩))
    (app (lam ⟨"u"⟩ type (app (var ⟨"f"⟩) (var ⟨"u"⟩))) (var ⟨"w"⟩))

/-- Two terms with the normal form `λ z : f c, f z`, up to the name of `z`, are accepted, and so is
the first against its normal form. -/
theorem equal_of_alphaEquivalent_normalForms_redexes :
    ∃ l' r', redexInHead.normalForm 6 = some l' ∧ redexInScope.normalForm 6 = some r' ∧ l' ≠ r' ∧
      alphaEquivalent l' r' = true ∧ l'.AppliesNoPi ∧
      redexInHead.equal 6 redexInScope = some true ∧ redexInHead.equal 6 l' = some true := by
  have hl : redexInHead.normalForm 6 = some (lam ⟨"z"⟩ (app (var ⟨"f"⟩) (const ⟨"c"⟩))
      (app (var ⟨"f"⟩) (var ⟨"z"⟩))) := by decide +kernel
  have hr : redexInScope.normalForm 6 = some (lam ⟨"w"⟩ (app (var ⟨"f"⟩) (const ⟨"c"⟩))
      (app (var ⟨"f"⟩) (var ⟨"w"⟩))) := by decide +kernel
  have hα : alphaEquivalent (lam ⟨"z"⟩ (app (var ⟨"f"⟩) (const ⟨"c"⟩))
      (app (var ⟨"f"⟩) (var ⟨"z"⟩))) (lam ⟨"w"⟩ (app (var ⟨"f"⟩) (const ⟨"c"⟩))
      (app (var ⟨"f"⟩) (var ⟨"w"⟩))) = true := by decide +kernel
  have hpi : (lam ⟨"z"⟩ (app (var ⟨"f"⟩) (const ⟨"c"⟩))
      (app (var ⟨"f"⟩) (var ⟨"z"⟩))).AppliesNoPi := by simp [AppliesNoPi, isPi]
  obtain ⟨same, h⟩ := Option.isSome_iff_exists.mp
    (show (redexInHead.equal 6 redexInScope).isSome = true by decide +kernel)
  obtain ⟨same', h'⟩ := Option.isSome_iff_exists.mp
    (show (redexInHead.equal 6 (lam ⟨"z"⟩ (app (var ⟨"f"⟩) (const ⟨"c"⟩))
      (app (var ⟨"f"⟩) (var ⟨"z"⟩)))).isSome = true by decide +kernel)
  refine ⟨_, _, hl, hr, by decide, hα, hpi, ?_, ?_⟩
  · rw [h, equal_of_alphaEquivalent_normalForms.1 6 6 6 _ _ _ _ same hl hr hα hpi h]
  · rw [h', (equal_of_alphaEquivalent_normalForms.2 6 6 _ _ same' hl hpi).2.1 h']

end Term

end LogicalFramework

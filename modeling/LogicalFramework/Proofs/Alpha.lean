import LogicalFramework.Proofs.NamelessForm
import LogicalFramework.Term.Alpha

/-!
# Equality up to bound names is equality of nameless forms

Opening two binders with one name leaves the scopes under their binders as they were, on both sides
and whatever names are to be avoided. The comparison that opens binder after binder therefore
decides equality of nameless forms, for terms whose free variables are shared.
-/

namespace LogicalFramework.Term

/-! ## Opening two binders -/

/-- A binder may take any name that does not occur free in its scope. -/
theorem namelessIn_rename_bind (s : Term) {x z : Variable} (ν : Valuation)
    (hz : z = x ∨ s.occursFree z = false) :
    (s.rename x z).namelessIn (ν.bind z) = s.namelessIn (ν.bind x) := by
  rw [namelessIn_rename, Valuation.bind_self]
  apply namelessIn_congr
  intro w hw
  by_cases hwx : w = x
  · rw [hwx, Function.update_self, Valuation.bind_self]
  · have hwz : w ≠ z := by
      rcases hz with rfl | hz
      · exact hwx
      · exact ne_of_occursFree hw hz
    rw [Function.update_of_ne hwx, Valuation.bind_of_ne _ hwz, Valuation.bind_of_ne _ hwx]

/-- What opening two binders can do: the common name need not be avoided, and each scope is the old
one renamed to a name that it does not mention otherwise. -/
theorem openTogether_spec (avoid : List Variable) (x : Variable) (s : Term) (y : Variable)
    (t : Term) :
    ∃ z, z ∉ avoid ∧ (z = x ∨ s.occursFree z = false) ∧ (z = y ∨ t.occursFree z = false) ∧
      openTogether avoid x s y t = ⟨z, s.rename x z, t.rename y z⟩ := by
  have rename_self : ∀ (r : Term) (w : Variable), r.rename w w = r := fun r w => if_pos rfl
  unfold openTogether
  split
  · -- The left binder keeps its name.
    rename_i h
    simp only [Bool.and_eq_true, Bool.or_eq_true, Bool.not_eq_true', decide_eq_true_eq] at h
    refine ⟨x, by simpa using h.1, Or.inl rfl, h.2, ?_⟩
    rw [rename_self]
  · split
    · -- The right binder keeps its name.
      rename_i h
      simp only [Bool.and_eq_true, Bool.not_eq_true'] at h
      refine ⟨y, by simpa using h.1, Or.inr h.2, Or.inl rfl, ?_⟩
      rw [rename_self]
    · -- Both binders take a new name.
      have hz := fresh_not_mem (avoid ++ s.freeVariables ++ t.freeVariables ++ [x, y]) x
      simp only [List.mem_append, mem_freeVariables, not_or, Bool.not_eq_true] at hz
      exact ⟨_, hz.1.1.1, Or.inr hz.1.1.2, Or.inr hz.1.2, rfl⟩

theorem binder_openTogether_not_mem (avoid : List Variable) (x : Variable) (s : Term)
    (y : Variable) (t : Term) : (openTogether avoid x s y t).binder ∉ avoid := by
  obtain ⟨z, hz, _, _, h⟩ := openTogether_spec avoid x s y t
  rw [h]
  exact hz

theorem namelessIn_openTogether_left (avoid : List Variable) (x : Variable) (s : Term)
    (y : Variable) (t : Term) (ν : Valuation) :
    (openTogether avoid x s y t).left.namelessIn (ν.bind (openTogether avoid x s y t).binder) =
      s.namelessIn (ν.bind x) := by
  obtain ⟨z, _, hs, _, h⟩ := openTogether_spec avoid x s y t
  rw [h]
  exact namelessIn_rename_bind s ν hs

theorem namelessIn_openTogether_right (avoid : List Variable) (x : Variable) (s : Term)
    (y : Variable) (t : Term) (ν : Valuation) :
    (openTogether avoid x s y t).right.namelessIn (ν.bind (openTogether avoid x s y t).binder) =
      t.namelessIn (ν.bind y) := by
  obtain ⟨z, _, _, ht, h⟩ := openTogether_spec avoid x s y t
  rw [h]
  exact namelessIn_rename_bind t ν ht

/-! ## The comparison -/

/-- Opened scopes have the same nameless form exactly if the scopes under their binders do. -/
theorem nameless_openTogether_eq_iff (avoid : List Variable) (x : Variable) (s : Term)
    (y : Variable) (t : Term) :
    (openTogether avoid x s y t).left.nameless = (openTogether avoid x s y t).right.nameless ↔
      s.namelessIn (Valuation.free.bind x) = t.namelessIn (Valuation.free.bind y) := by
  rw [← namelessIn_free_bind_inj, namelessIn_openTogether_left, namelessIn_openTogether_right]

/-- The free variables of an opened scope are shared, the common name included, exactly if those of
the scope under its binder are. -/
theorem occursFree_openTogether_left (avoid : List Variable) (x : Variable) (s : Term)
    (y : Variable) (t : Term) (shared : List Variable) :
    (∀ w, (openTogether avoid x s y t).left.occursFree w = true →
        w ∈ (openTogether avoid x s y t).binder :: shared) ↔
      ∀ w, s.occursFree w = true → w ≠ x → w ∈ shared := by
  have hfree : ∀ w, (openTogether avoid x s y t).left.occursFree w = true ∧
      w ≠ (openTogether avoid x s y t).binder ↔ s.occursFree w = true ∧ w ≠ x := by
    intro w
    rw [← mentions_namelessIn_free_bind, ← mentions_namelessIn_free_bind,
      namelessIn_openTogether_left]
  constructor
  · intro h w hw hwx
    obtain ⟨hl, hne⟩ := (hfree w).mpr ⟨hw, hwx⟩
    exact (List.mem_cons.mp (h w hl)).resolve_left hne
  · intro h w hw
    by_cases hne : w = (openTogether avoid x s y t).binder
    · rw [hne]
      exact List.mem_cons_self
    · obtain ⟨hs, hwx⟩ := (hfree w).mp ⟨hw, hne⟩
      exact List.mem_cons_of_mem _ (h w hs hwx)

/-- The comparison decides equality of nameless forms, for terms whose free variables are shared. -/
theorem alphaEqual_iff_nameless (shared : List Variable) (l r : Term) :
    alphaEqual shared l r = true ↔
      l.nameless = r.nameless ∧ ∀ x, l.occursFree x = true → x ∈ shared := by
  fun_induction alphaEqual shared l r with
  | case1 shared => simp [occursFree]
  | case2 shared c d => simp [occursFree]
  | case3 shared m n => simp [occursFree]
  | case4 shared x y => simp [occursFree]
  | case5 shared h a h' a' ihh iha =>
    rw [Bool.and_eq_true, ihh, iha]
    simp only [nameless_app, Nameless.app.injEq, occursFree, Bool.or_eq_true]
    constructor
    · rintro ⟨⟨hh, hhf⟩, ha, haf⟩
      exact ⟨⟨hh, ha⟩, fun x hx => hx.elim (hhf x) (haf x)⟩
    · rintro ⟨⟨hh, ha⟩, hf⟩
      exact ⟨⟨hh, fun x hx => hf x (Or.inl hx)⟩, ha, fun x hx => hf x (Or.inr hx)⟩
  | case6 shared q x A s q' y B t ihA ihs =>
    dsimp only at ihs
    rw [Bool.and_eq_true, Bool.and_eq_true, ihA, ihs, nameless_openTogether_eq_iff,
      occursFree_openTogether_left, nameless_bind, nameless_bind, rename_close_nameless,
      rename_close_nameless]
    simp only [decide_eq_true_eq, Nameless.bind.injEq, occursFree, Bool.or_eq_true,
      Bool.and_eq_true]
    constructor
    · rintro ⟨⟨hq, hA, hAf⟩, hs, hsf⟩
      exact ⟨⟨hq, hA, hs⟩, fun w hw => hw.elim (hAf w) fun h => hsf w h.2 (Ne.symm h.1)⟩
    · rintro ⟨⟨hq, hA, hs⟩, hf⟩
      exact ⟨⟨hq, hA, fun w hw => hf w (Or.inl hw)⟩, hs,
        fun w hw hwx => hf w (Or.inr ⟨Ne.symm hwx, hw⟩)⟩
  | case7 shared l r h1 h2 h3 h4 h5 h6 =>
    -- The terms differ in shape, and so do their nameless forms.
    constructor
    · intro h
      exact absurd h Bool.false_ne_true
    · rintro ⟨h, _⟩
      exfalso
      cases l with
      | type =>
        cases r with
        | type => exact h1 rfl rfl
        | _ => simp [nameless_bind] at h
      | const c =>
        cases r with
        | const d => exact h2 _ _ rfl rfl
        | _ => simp [nameless_bind] at h
      | metaVar m =>
        cases r with
        | metaVar n => exact h3 _ _ rfl rfl
        | _ => simp [nameless_bind] at h
      | var x =>
        cases r with
        | var y => exact h4 _ _ rfl rfl
        | _ => simp [nameless_bind] at h
      | app f a =>
        cases r with
        | app g b => exact h5 _ _ _ _ rfl rfl
        | _ => simp [nameless_bind] at h
      | bind q x A s =>
        cases r with
        | bind q' y B t => exact h6 _ _ _ _ _ _ _ _ rfl rfl
        | _ => simp [nameless_bind] at h

/-- Terms are equivalent exactly if they have the same nameless form. -/
theorem alphaEquivalent_iff_nameless (l r : Term) :
    alphaEquivalent l r = true ↔ l.nameless = r.nameless := by
  rw [alphaEquivalent, alphaEqual_iff_nameless]
  constructor
  · exact And.left
  · intro h
    refine ⟨h, fun x hx => List.mem_append_left _ ?_⟩
    exact (mem_freeVariables l x).mpr hx

/-- **Equality up to bound names is equality of nameless forms.** With a list of shared variables
the free variables of the left term have to be on the list. -/
theorem alpha_iff_nameless :
    (∀ (shared : List Variable) (l r : Term), alphaEqual shared l r = true ↔
      l.nameless = r.nameless ∧ ∀ x ∈ l.freeVariables, x ∈ shared) ∧
    ∀ l r : Term, alphaEquivalent l r = true ↔ l.nameless = r.nameless := by
  refine ⟨fun shared l r => ?_, alphaEquivalent_iff_nameless⟩
  rw [alphaEqual_iff_nameless]
  simp only [mem_freeVariables]

/-! ## Renamed binders -/

/-- A binder may take any name that does not occur free in its scope, up to bound names. -/
theorem alphaEquivalent_bind_rename (q : Binder) (T s : Term) {x z : Variable}
    (hz : z = x ∨ s.occursFree z = false) :
    alphaEquivalent (bind q z T (s.rename x z)) (bind q x T s) = true := by
  rw [alphaEquivalent_iff_nameless, nameless_bind, nameless_bind, rename_close_nameless,
    rename_close_nameless, namelessIn_rename_bind s Valuation.free hz]

/-- **Opening two binders with one name is correct.** The common name is none of those to avoid, and
under it both scopes are what they were under their own names. -/
theorem alphaEquivalent_openTogether (avoid : List Variable) (x : Variable) (s : Term)
    (y : Variable) (t : Term) :
    ∃ z s' t', openTogether avoid x s y t = ⟨z, s', t'⟩ ∧ z ∉ avoid ∧
      ∀ (q : Binder) (T : Term), alphaEquivalent (bind q z T s') (bind q x T s) = true ∧
        alphaEquivalent (bind q z T t') (bind q y T t) = true := by
  obtain ⟨z, hz, hs, ht, hopen⟩ := openTogether_spec avoid x s y t
  refine ⟨z, s.rename x z, t.rename y z, hopen, hz, fun q T => ⟨?_, ?_⟩⟩
  · exact alphaEquivalent_bind_rename q T s hs
  · exact alphaEquivalent_bind_rename q T t ht

end LogicalFramework.Term

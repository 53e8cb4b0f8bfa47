import LogicalFramework.Proofs.Alpha

/-!
# Laws of substitution

Two substitutions can be exchanged, up to bound names. The binders that are renamed on the way, and
the names that they are given, depend on the order.

Which binders are renamed is exact. A substitution that captures nothing is the plain replacement,
which keeps the name of every binder, and one that would capture is not.

* `alphaEquivalent_subst_subst` — the exchange of two substitutions;
* `Captures` — that a binder would capture a free variable of the term that is put in;
* `subst_eq_replace_iff` — substitution and plain replacement, by induction on the term.
-/

namespace LogicalFramework.Term

/-! ## Two substitutions -/

/-- **Exchange of substitutions.** A substitution for `x` followed by one for `y` is, up to bound
names, the one for `y` followed by one for `x`, if `x` is not free in what is put in for `y`. -/
theorem alphaEquivalent_subst_subst (x y : Variable) (t u v : Term) (hxy : x ≠ y)
    (hv : v.occursFree x = false) :
    alphaEquivalent ((t.subst x u).subst y v) ((t.subst y v).subst x (u.subst y v)) = true := by
  rw [alphaEquivalent_iff_nameless, nameless_eq_namelessIn, nameless_eq_namelessIn]
  generalize Valuation.free = ν
  -- What is put in for `y` reads the same whatever `x` stands for.
  have hsame (w : Nameless) : v.namelessIn (Function.update ν x w) = v.namelessIn ν := by
    apply namelessIn_congr
    intro z hz
    exact Function.update_of_ne (ne_of_occursFree hz hv) _ _
  calc ((t.subst x u).subst y v).namelessIn ν
    _ = t.namelessIn (Function.update (Function.update ν y (v.namelessIn ν)) x
          (u.namelessIn (Function.update ν y (v.namelessIn ν)))) := by
        rw [namelessIn_subst, namelessIn_subst]
    _ = t.namelessIn (Function.update (Function.update ν x ((u.subst y v).namelessIn ν)) y
          (v.namelessIn ν)) := by
        rw [Function.update_comm hxy, namelessIn_subst u]
    _ = ((t.subst y v).subst x (u.subst y v)).namelessIn ν := by
        rw [namelessIn_subst (t.subst y v), namelessIn_subst t, hsame]

/-- The binder of `λ z : a, x y` is renamed once in either order, to `$z_1` if `z` is put in for `x`
first and to `$z_6` if `$z_5` is put in for `y` first. -/
theorem alphaEquivalent_subst_subst_clash :
    ((lam ⟨"z"⟩ (const ⟨"a"⟩) (app (var ⟨"x"⟩) (var ⟨"y"⟩))).subst ⟨"x"⟩ (var ⟨"z"⟩)).subst ⟨"y"⟩
        (var ⟨"$z_5"⟩) =
      lam ⟨"$z_1"⟩ (const ⟨"a"⟩) (app (var ⟨"z"⟩) (var ⟨"$z_5"⟩)) ∧
    ((lam ⟨"z"⟩ (const ⟨"a"⟩) (app (var ⟨"x"⟩) (var ⟨"y"⟩))).subst ⟨"y"⟩ (var ⟨"$z_5"⟩)).subst ⟨"x"⟩
        ((var ⟨"z"⟩).subst ⟨"y"⟩ (var ⟨"$z_5"⟩)) =
      lam ⟨"$z_6"⟩ (const ⟨"a"⟩) (app (var ⟨"z"⟩) (var ⟨"$z_5"⟩)) ∧
    alphaEquivalent (lam ⟨"$z_1"⟩ (const ⟨"a"⟩) (app (var ⟨"z"⟩) (var ⟨"$z_5"⟩)))
      (lam ⟨"$z_6"⟩ (const ⟨"a"⟩) (app (var ⟨"z"⟩) (var ⟨"$z_5"⟩))) = true := by
  have hl : ((lam ⟨"z"⟩ (const ⟨"a"⟩) (app (var ⟨"x"⟩) (var ⟨"y"⟩))).subst ⟨"x"⟩
      (var ⟨"z"⟩)).subst ⟨"y"⟩ (var ⟨"$z_5"⟩) =
      lam ⟨"$z_1"⟩ (const ⟨"a"⟩) (app (var ⟨"z"⟩) (var ⟨"$z_5"⟩)) := by decide +kernel
  have hr : ((lam ⟨"z"⟩ (const ⟨"a"⟩) (app (var ⟨"x"⟩) (var ⟨"y"⟩))).subst ⟨"y"⟩
      (var ⟨"$z_5"⟩)).subst ⟨"x"⟩ ((var ⟨"z"⟩).subst ⟨"y"⟩ (var ⟨"$z_5"⟩)) =
      lam ⟨"$z_6"⟩ (const ⟨"a"⟩) (app (var ⟨"z"⟩) (var ⟨"$z_5"⟩)) := by decide +kernel
  refine ⟨hl, hr, ?_⟩
  rw [← hl, ← hr]
  exact alphaEquivalent_subst_subst ⟨"x"⟩ ⟨"y"⟩ _ _ _ (by decide) (by decide)

/-! ## Plain replacement -/

/-- The term with `u` in place of the free occurrences of `x`. Every binder keeps its name, and may
bind free variables of `u`. -/
def replace (t : Term) (x : Variable) (u : Term) : Term :=
  match t with
  | type => type
  | const c => const c
  | metaVar m => metaVar m
  | var y => if y = x then u else var y
  | app h a => app (h.replace x u) (a.replace x u)
  | bind q y A s => bind q y (A.replace x u) (if y = x then s else s.replace x u)

/-- That a binder would capture: it binds a free variable of `u`, and an occurrence of `x` that is
free in the term is in its scope. -/
def Captures (t : Term) (x : Variable) (u : Term) : Prop :=
  ∃ outer y s, t.BindsAt outer y s ∧ x ∉ outer ∧ y ≠ x ∧ s.occursFree x = true ∧
    y ∈ u.freeVariables

variable {x : Variable} {u : Term}

/-- Only free occurrences are replaced, so where there is none nothing is captured. -/
theorem Captures.occursFree {t : Term} (h : t.Captures x u) : t.occursFree x = true := by
  obtain ⟨outer, y, s, hbinds, hx, hyx, hs, _⟩ := h
  exact hbinds.occursFree hx hyx hs

theorem not_captures_of_isAtom {t : Term} (ht : t.isAtom = true) : ¬ t.Captures x u := by
  rintro ⟨outer, y, s, hbinds, _⟩
  rw [hbinds.isAtom_eq_false] at ht
  exact Bool.false_ne_true ht

theorem captures_app (h a : Term) :
    (app h a).Captures x u ↔ h.Captures x u ∨ a.Captures x u := by
  constructor
  · rintro ⟨outer, y, s, hbinds, hcapture⟩
    cases hbinds with
    | head hh => exact Or.inl ⟨outer, y, s, hh, hcapture⟩
    | argument ha => exact Or.inr ⟨outer, y, s, ha, hcapture⟩
  · rintro (⟨outer, y, s, hbinds, hcapture⟩ | ⟨outer, y, s, hbinds, hcapture⟩)
    · exact ⟨outer, y, s, .head hbinds, hcapture⟩
    · exact ⟨outer, y, s, .argument hbinds, hcapture⟩

/-- Nothing is captured in the scope of a binder of `x`. Any other binder may capture, and so may
the binders in its scope. -/
theorem captures_bind (q : Binder) (y : Variable) (A s : Term) :
    (bind q y A s).Captures x u ↔ A.Captures x u ∨
      y ≠ x ∧ (s.occursFree x = true ∧ y ∈ u.freeVariables ∨ s.Captures x u) := by
  constructor
  · rintro ⟨outer, z, r, hbinds, hx, hcapture⟩
    cases hbinds with
    | here => exact Or.inr ⟨hcapture.1, Or.inl hcapture.2⟩
    | domain hA => exact Or.inl ⟨outer, z, r, hA, hx, hcapture⟩
    | scope hs =>
      rw [List.mem_cons, not_or] at hx
      exact Or.inr ⟨Ne.symm hx.1, Or.inr ⟨_, z, r, hs, hx.2, hcapture⟩⟩
  · rintro (⟨outer, z, r, hbinds, hcapture⟩ | ⟨hyx, hhere | ⟨outer, z, r, hbinds, hx, hcapture⟩⟩)
    · exact ⟨outer, z, r, .domain hbinds, hcapture⟩
    · exact ⟨[], y, s, .here q y A s, List.not_mem_nil, hyx, hhere⟩
    · refine ⟨y :: outer, z, r, .scope hbinds, ?_, hcapture⟩
      rw [List.mem_cons, not_or]
      exact ⟨Ne.symm hyx, hx⟩

/-- Substitution is plain replacement exactly if nothing is captured. -/
theorem subst_eq_replace_iff (t : Term) : t.subst x u = t.replace x u ↔ ¬ t.Captures x u := by
  induction t with
  | type => exact iff_of_true (subst_type x u) (not_captures_of_isAtom rfl)
  | const c => exact iff_of_true (subst_const c x u) (not_captures_of_isAtom rfl)
  | metaVar m => exact iff_of_true (subst_metaVar m x u) (not_captures_of_isAtom rfl)
  | var y => exact iff_of_true (subst_var x y u) (not_captures_of_isAtom rfl)
  | app h a ihh iha =>
    rw [subst_app, replace, app.injEq, ihh, iha, captures_app, not_or]
  | bind q y A s ihA ihs =>
    rw [subst_bind, replace, captures_bind, not_or, ← ihA]
    by_cases hyx : y = x
    · simp [hyx]
    · rw [if_neg hyx, if_neg hyx]
      split
      · -- The binder is renamed, to a name that is not free in `u` while its own name is.
        rename_i hcapture
        simp only [Bool.and_eq_true, List.contains_iff_mem] at hcapture
        obtain ⟨hyu, hxs⟩ := hcapture
        have hname : Variable.fresh (u.freeVariables ++ s.freeVariables) y ≠ y := by
          intro he
          have hfresh := fresh_not_mem (u.freeVariables ++ s.freeVariables) y
          rw [he] at hfresh
          exact hfresh (List.mem_append_left _ hyu)
        refine iff_of_false (fun he => hname (bind.inj he).2.1) ?_
        exact fun h => h.2 ⟨hyx, Or.inl ⟨hxs, hyu⟩⟩
      · rename_i hcapture
        simp only [Bool.and_eq_true, List.contains_iff_mem] at hcapture
        have hhere : ¬ (s.occursFree x = true ∧ y ∈ u.freeVariables) := fun h => hcapture h.symm
        simp only [bind.injEq, true_and, ihs, ne_eq, hyx, not_false_eq_true, hhere, false_or]

theorem replace_of_not_occursFree {t : Term} (h : t.occursFree x = false) :
    t.replace x u = t := by
  induction t with
  | var y => exact if_neg (by simpa [occursFree] using h)
  | app f a ihf iha =>
    simp only [occursFree, Bool.or_eq_false_iff] at h
    rw [replace, ihf h.1, iha h.2]
  | bind q y A s ihA ihs =>
    simp only [occursFree, Bool.or_eq_false_iff, Bool.and_eq_false_iff] at h
    rw [replace, ihA h.1]
    split
    · rfl
    · rename_i hyx
      rw [ihs (h.2.resolve_left (by simpa using hyx))]
  | _ => rfl

theorem replace_self (t : Term) (x : Variable) : t.replace x (var x) = t := by
  induction t with
  | var y => simp +contextual [replace]
  | app f a ihf iha => rw [replace, ihf, iha]
  | bind q y A s ihA ihs => simp [replace, ihA, ihs]
  | _ => rfl

/-- **Binders are renamed only where they capture.** Substitution is the plain replacement, which
keeps the name of every binder, exactly if no binder captures. So nothing changes at all if a
variable is put in for itself, or for a variable that is not free. -/
theorem subst_keeps_binders (x : Variable) (u t : Term) :
    (t.subst x u = t.replace x u ↔ ¬ t.Captures x u) ∧ t.subst x (var x) = t ∧
      (t.occursFree x = false → t.subst x u = t) := by
  refine ⟨subst_eq_replace_iff t, ?_, fun h => ?_⟩
  · have hcaptures : ¬ t.Captures x (var x) := by
      rintro ⟨outer, y, s, _, _, hyx, _, hy⟩
      exact hyx (by simpa using hy)
    rw [(subst_eq_replace_iff t).mpr hcaptures, replace_self]
  · have hcaptures : ¬ t.Captures x u := by
      intro hcapture
      rw [hcapture.occursFree] at h
      exact Bool.noConfusion h
    rw [(subst_eq_replace_iff t).mpr hcaptures, replace_of_not_occursFree h]

/-- In `λ y : x, λ x : y, y x` only the type of `y` has `x` free, so the binder of `y` keeps its
name when `y` is put in for `x`. In `λ y : x, x y` it does not. The variable `x` is not free in
`λ x : y, y x`, which is left as it is. -/
theorem subst_keeps_binders_shadowed :
    (lam ⟨"y"⟩ (var ⟨"x"⟩) (lam ⟨"x"⟩ (var ⟨"y"⟩) (app (var ⟨"y"⟩) (var ⟨"x"⟩)))).subst ⟨"x"⟩
        (var ⟨"y"⟩) =
      lam ⟨"y"⟩ (var ⟨"y"⟩) (lam ⟨"x"⟩ (var ⟨"y"⟩) (app (var ⟨"y"⟩) (var ⟨"x"⟩))) ∧
    (lam ⟨"y"⟩ (var ⟨"x"⟩) (app (var ⟨"x"⟩) (var ⟨"y"⟩))).subst ⟨"x"⟩ (var ⟨"y"⟩) ≠
      lam ⟨"y"⟩ (var ⟨"y"⟩) (app (var ⟨"y"⟩) (var ⟨"y"⟩)) ∧
    (lam ⟨"x"⟩ (var ⟨"y"⟩) (app (var ⟨"y"⟩) (var ⟨"x"⟩))).subst ⟨"x"⟩ (var ⟨"y"⟩) =
      lam ⟨"x"⟩ (var ⟨"y"⟩) (app (var ⟨"y"⟩) (var ⟨"x"⟩)) := by
  refine ⟨?_, ?_, (subst_keeps_binders ⟨"x"⟩ (var ⟨"y"⟩) _).2.2 (by decide)⟩
  · refine (subst_keeps_binders ⟨"x"⟩ (var ⟨"y"⟩) _).1.mpr ?_
    have hatom (y : Variable) : ¬ (var y).Captures ⟨"x"⟩ (var ⟨"y"⟩) := not_captures_of_isAtom rfl
    simp [captures_bind, captures_app, hatom, occursFree]
  · intro h
    refine (subst_keeps_binders ⟨"x"⟩ (var ⟨"y"⟩) _).1.mp h ?_
    simp [captures_bind, occursFree]

end LogicalFramework.Term

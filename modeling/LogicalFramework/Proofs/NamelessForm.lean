import LogicalFramework.Proofs.Fresh
import LogicalFramework.Proofs.Nameless
import LogicalFramework.Proofs.Variables
import LogicalFramework.Term.Substitution
import Mathlib.Logic.Function.Basic

/-!
# Nameless forms of terms

The nameless form of a term is read off under the list of the binders around it. Proofs read it off
under a valuation instead, which gives every variable a nameless term. A valuation makes
substitution visible: to substitute in a term is to change the valuation at one variable.

* `namelessUnder_eq_namelessIn` — the two readings agree;
* `namelessIn_subst` — substitution changes the valuation at the replaced variable;
* `nameless_subst` — substitution on named terms is substitution on nameless terms.
-/

namespace LogicalFramework

/-- The name that a variable has under binders, the innermost one first. -/
def Name.resolve (binders : List Variable) (x : Variable) : Name :=
  match binders.idxOf? x with
  | some i => .bound i
  | none => .free x

/-- The renaming that binds the free variable `x` by a new binder around the term. -/
def Name.close (x : Variable) (n : Name) : Name :=
  if n = .free x then .bound 0 else n.succ

/-- Nameless terms for the variables of a term. -/
abbrev Valuation := Variable → Nameless

namespace Valuation

/-- Every variable stands for itself. -/
def free : Valuation :=
  fun x => .name (.free x)

/-- The valuation for the scope of a binder of `x`. -/
def bind (ν : Valuation) (x : Variable) : Valuation :=
  fun y => if y = x then .name (.bound 0) else (ν y).shift

@[simp]
theorem bind_self (ν : Valuation) (x : Variable) : ν.bind x x = .name (.bound 0) :=
  if_pos rfl

theorem bind_of_ne (ν : Valuation) {x y : Variable} (h : y ≠ x) : ν.bind x y = (ν y).shift :=
  if_neg h

/-- A binder of `x` hides what `x` stands for outside. -/
theorem bind_update (ν : Valuation) (x : Variable) (u : Nameless) :
    Valuation.bind (Function.update ν x u) x = ν.bind x := by
  funext y
  by_cases hyx : y = x
  · rw [hyx, bind_self, bind_self]
  · rw [bind_of_ne _ hyx, bind_of_ne _ hyx, Function.update_of_ne hyx]

end Valuation

namespace Term

/-- The nameless form of a term under binders, the innermost one first. -/
def namelessUnder (binders : List Variable) : Term → Nameless
  | type => .type
  | const c => .const c
  | var x => .name (.resolve binders x)
  | metaVar m => .metaVar m
  | app h a => .app (h.namelessUnder binders) (a.namelessUnder binders)
  | bind q x A s => .bind q (A.namelessUnder binders) (s.namelessUnder (x :: binders))

/-- The nameless form of a term. -/
def nameless (t : Term) : Nameless :=
  t.namelessUnder []

/-- The nameless form of a term whose free variables stand for the terms that `ν` gives. -/
def namelessIn (ν : Valuation) : Term → Nameless
  | type => .type
  | const c => .const c
  | var x => ν x
  | metaVar m => .metaVar m
  | app h a => .app (h.namelessIn ν) (a.namelessIn ν)
  | bind q x A s => .bind q (A.namelessIn ν) (s.namelessIn (ν.bind x))

/-! ## The two readings agree -/

theorem resolve_cons (x : Variable) (binders : List Variable) (y : Variable) :
    Name.resolve (x :: binders) y = if y = x then .bound 0 else (Name.resolve binders y).succ := by
  unfold Name.resolve
  rw [List.idxOf?_cons]
  by_cases h : y = x
  · simp [h]
  · have hxy : (x == y) = false := beq_false_of_ne (Ne.symm h)
    rw [hxy, if_neg h]
    cases binders.idxOf? y <;> rfl

theorem namelessUnder_eq_namelessIn (t : Term) (binders : List Variable) :
    t.namelessUnder binders = t.namelessIn fun x => .name (.resolve binders x) := by
  induction t generalizing binders with
  | app h a ihh iha => rw [namelessUnder, namelessIn, ihh, iha]
  | bind q x A s ihA ihs =>
    rw [namelessUnder, namelessIn, ihA, ihs]
    congr 2
    funext y
    rw [resolve_cons, Valuation.bind]
    split <;> rfl
  | _ => rfl

theorem nameless_eq_namelessIn (t : Term) : t.nameless = t.namelessIn Valuation.free :=
  namelessUnder_eq_namelessIn t []

@[simp]
theorem nameless_type : type.nameless = .type := rfl

@[simp]
theorem nameless_const (c : Constant) : (const c).nameless = .const c := rfl

@[simp]
theorem nameless_var (x : Variable) : (var x).nameless = .name (.free x) := rfl

@[simp]
theorem nameless_metaVar (m : MetaVariable) : (metaVar m).nameless = .metaVar m := rfl

@[simp]
theorem nameless_app (h a : Term) : (app h a).nameless = .app h.nameless a.nameless := rfl

/-! ## Changing the valuation -/

/-- Only the values of the free variables matter. -/
theorem namelessIn_congr (t : Term) {ν μ : Valuation}
    (h : ∀ x, t.occursFree x = true → ν x = μ x) : t.namelessIn ν = t.namelessIn μ := by
  induction t generalizing ν μ with
  | var x => exact h x (by simp [occursFree])
  | app f a ihf iha =>
    rw [namelessIn, namelessIn, ihf fun x hx => h x (by simp [occursFree, hx]),
      iha fun x hx => h x (by simp [occursFree, hx])]
  | bind q y A s ihA ihs =>
    rw [namelessIn, namelessIn, ihA fun x hx => h x (by simp [occursFree, hx])]
    congr 1
    apply ihs
    intro x hx
    by_cases hxy : x = y
    · rw [hxy, Valuation.bind_self, Valuation.bind_self]
    · rw [Valuation.bind_of_ne _ hxy, Valuation.bind_of_ne _ hxy,
        h x (by simp [occursFree, hx, Ne.symm hxy])]
  | _ => rfl

theorem subst_namelessIn (t : Term) (ν : Valuation) (σ : Name → Nameless) :
    (t.namelessIn ν).subst σ = t.namelessIn fun x => (ν x).subst σ := by
  induction t generalizing ν σ with
  | app h a ihh iha => rw [namelessIn, Nameless.subst, namelessIn, ihh, iha]
  | bind q y A s ihA ihs =>
    rw [namelessIn, Nameless.subst, namelessIn, ihA, ihs]
    congr 2
    funext x
    by_cases hxy : x = y
    · rw [hxy, Valuation.bind_self, Valuation.bind_self]
      rfl
    · rw [Valuation.bind_of_ne _ hxy, Valuation.bind_of_ne _ hxy, Nameless.shift_subst]
  | _ => rfl

theorem rename_namelessIn (t : Term) (ν : Valuation) (ρ : Name → Name) :
    (t.namelessIn ν).rename ρ = t.namelessIn fun x => (ν x).rename ρ := by
  rw [Nameless.rename_eq_subst, subst_namelessIn]
  congr 1
  funext x
  rw [Nameless.rename_eq_subst]

/-- A binder of a variable that does not occur free only shifts. -/
theorem namelessIn_bind_of_not_occursFree (t : Term) (ν : Valuation) {y : Variable}
    (h : t.occursFree y = false) : t.namelessIn (ν.bind y) = (t.namelessIn ν).shift := by
  rw [Nameless.shift, rename_namelessIn]
  apply namelessIn_congr
  intro x hx
  rw [Valuation.bind_of_ne _ (ne_of_occursFree hx h), Nameless.shift]

/-- The scope of a binder of `x`, instantiated with `a`, reads `x` as `a`. -/
theorem instantiate_namelessIn_bind (s : Term) (ν : Valuation) (x : Variable) (a : Nameless) :
    (s.namelessIn (ν.bind x)).instantiate a = s.namelessIn (Function.update ν x a) := by
  rw [Nameless.instantiate, subst_namelessIn]
  congr 1
  funext y
  by_cases hyx : y = x
  · rw [hyx, Valuation.bind_self, Function.update_self]
    rfl
  · rw [Valuation.bind_of_ne _ hyx, Function.update_of_ne hyx]
    exact Nameless.instantiate_shift (ν y) a

/-- To bind `x` around a term is to close the free name `x`. -/
theorem rename_close_nameless (s : Term) (x : Variable) :
    s.nameless.rename (.close x) = s.namelessIn (Valuation.free.bind x) := by
  rw [nameless_eq_namelessIn, rename_namelessIn]
  congr 1
  funext y
  show Nameless.name (Name.close x (.free y)) = Valuation.free.bind x y
  by_cases hyx : y = x
  · rw [hyx, Valuation.bind_self, Name.close, if_pos rfl]
  · rw [Valuation.bind_of_ne _ hyx, Name.close, if_neg fun h => hyx (Name.free.inj h)]
    rfl

theorem nameless_bind (q : Binder) (x : Variable) (A s : Term) :
    (bind q x A s).nameless = .bind q A.nameless (s.nameless.rename (.close x)) := by
  rw [rename_close_nameless, nameless_eq_namelessIn, nameless_eq_namelessIn, namelessIn]

/-- The scopes of two binders of `x` agree exactly if they do with `x` free. -/
theorem namelessIn_free_bind_inj {s t : Term} {x : Variable} :
    s.namelessIn (Valuation.free.bind x) = t.namelessIn (Valuation.free.bind x) ↔
      s.nameless = t.nameless := by
  constructor
  · intro h
    have hinst := congrArg (fun r => r.instantiate (Valuation.free x)) h
    simp only [instantiate_namelessIn_bind, Function.update_eq_self] at hinst
    rw [nameless_eq_namelessIn, nameless_eq_namelessIn]
    exact hinst
  · intro h
    rw [← rename_close_nameless, ← rename_close_nameless, h]

/-! ## Occurrences -/

/-- The names of a nameless form are those of the values of the free variables. -/
theorem mentions_namelessIn (t : Term) (ν : Valuation) (n : Name) :
    (t.namelessIn ν).Mentions n ↔ ∃ x, t.occursFree x = true ∧ (ν x).Mentions n := by
  induction t generalizing ν n with
  | var y => simp [namelessIn, occursFree]
  | app h a ihh iha =>
    simp only [namelessIn, Nameless.Mentions, occursFree, Bool.or_eq_true, ihh, iha]
    grind
  | bind q y A s ihA ihs =>
    simp only [namelessIn, Nameless.Mentions, occursFree, Bool.or_eq_true, Bool.and_eq_true,
      decide_eq_true_eq, ihA, ihs]
    constructor
    · rintro (⟨x, hx, hn⟩ | ⟨x, hx, hn⟩)
      · exact ⟨x, Or.inl hx, hn⟩
      · by_cases hxy : x = y
        · rw [hxy, Valuation.bind_self] at hn
          exact absurd hn.symm (Name.succ_ne_zero n)
        · rw [Valuation.bind_of_ne _ hxy, Nameless.shift, Nameless.mentions_rename] at hn
          obtain ⟨m, hm, hmn⟩ := hn
          rw [Name.succ_injective hmn] at hm
          exact ⟨x, Or.inr ⟨Ne.symm hxy, hx⟩, hm⟩
    · rintro ⟨x, hx | ⟨hyx, hx⟩, hn⟩
      · exact Or.inl ⟨x, hx, hn⟩
      · refine Or.inr ⟨x, hx, ?_⟩
        rw [Valuation.bind_of_ne _ (Ne.symm hyx), Nameless.shift, Nameless.mentions_rename]
        exact ⟨n, hn, rfl⟩
  | _ => simp [namelessIn, Nameless.Mentions, occursFree]

/-- The free names in the scope of a binder of `x` are its free variables other than `x`. -/
theorem mentions_namelessIn_free_bind (s : Term) (x y : Variable) :
    (s.namelessIn (Valuation.free.bind x)).Mentions (.free y) ↔
      s.occursFree y = true ∧ y ≠ x := by
  rw [mentions_namelessIn]
  constructor
  · rintro ⟨w, hw, hy⟩
    by_cases hwx : w = x
    · rw [hwx, Valuation.bind_self] at hy
      exact absurd hy (by simp [Nameless.Mentions])
    · rw [Valuation.bind_of_ne _ hwx] at hy
      have hwy : w = y := Name.free.inj hy
      exact ⟨hwy ▸ hw, hwy ▸ hwx⟩
  · rintro ⟨hy, hyx⟩
    refine ⟨y, hy, ?_⟩
    rw [Valuation.bind_of_ne _ hyx]
    rfl

/-! ## Substitution -/

/-- The scope of a binder of `y` whose name becomes `z` reads `x` as `u` if `z` captures neither a
variable of the scope nor, where `x` is replaced, one of `u`. -/
theorem namelessIn_update_bind (s : Term) (ν : Valuation) {x y z : Variable} {u : Term}
    (hzs : z = y ∨ s.occursFree z = false)
    (hu : s.occursFree x = true → u.occursFree z = false) :
    s.namelessIn (Function.update (Function.update (ν.bind z) x (u.namelessIn (ν.bind z))) y
        (.name (.bound 0))) =
      s.namelessIn (Valuation.bind (Function.update ν x (u.namelessIn ν)) y) := by
  apply namelessIn_congr
  intro w hw
  by_cases hwy : w = y
  · rw [hwy, Function.update_self, Valuation.bind_self]
  · rw [Function.update_of_ne hwy, Valuation.bind_of_ne _ hwy]
    by_cases hwx : w = x
    · rw [hwx] at hw
      rw [hwx, Function.update_self, Function.update_self,
        namelessIn_bind_of_not_occursFree u ν (hu hw)]
    · have hwz : w ≠ z := by
        rcases hzs with rfl | hzs
        · exact hwy
        · exact ne_of_occursFree hw hzs
      rw [Function.update_of_ne hwx, Function.update_of_ne hwx, Valuation.bind_of_ne _ hwz]

/-- **Substitution lemma.** To substitute `u` for `x` is to read `x` as `u`. -/
theorem namelessIn_subst (t : Term) (x : Variable) (u : Term) (ν : Valuation) :
    (t.subst x u).namelessIn ν = t.namelessIn (Function.update ν x (u.namelessIn ν)) := by
  -- Renaming a binder keeps the size of its scope, so the scope can be renamed and then substituted
  -- in: the induction is on the size and not on the term.
  induction hn : t.size using Nat.strong_induction_on generalizing t x u ν with
  | _ n ih =>
  cases t with
  | type => rw [subst_type]; rfl
  | const c => rw [subst_const]; rfl
  | metaVar m => rw [subst_metaVar]; rfl
  | var y =>
    rw [subst_var]
    by_cases hyx : y = x
    · rw [if_pos hyx, hyx, namelessIn, Function.update_self]
    · rw [if_neg hyx, namelessIn, namelessIn, Function.update_of_ne hyx]
  | app h a =>
    rw [size] at hn
    rw [subst_app, namelessIn, namelessIn, ih h.size (by omega) h x u ν rfl,
      ih a.size (by omega) a x u ν rfl]
  | bind q y A s =>
    rw [size] at hn
    have hA := ih A.size (by omega) A x u ν rfl
    have hs := ih s.size (by omega) s
    rw [subst_bind]
    split
    · -- The binder binds `x` itself, so `x` is not free in its scope.
      rename_i hyx
      rw [namelessIn, namelessIn, hA, hyx, Valuation.bind_update]
    · rename_i hyx
      split
      · -- The binder would capture a variable of `u`: it is renamed to `z` first.
        rename_i hcapture
        simp only [Bool.and_eq_true, List.contains_iff_mem] at hcapture
        obtain ⟨_, hxs⟩ := hcapture
        generalize hz : Variable.fresh (u.freeVariables ++ s.freeVariables) y = z
        have hfresh := fresh_not_mem (u.freeVariables ++ s.freeVariables) y
        rw [hz, List.mem_append, mem_freeVariables, mem_freeVariables, not_or,
          Bool.not_eq_true, Bool.not_eq_true] at hfresh
        obtain ⟨hzu, hzs⟩ := hfresh
        have hzx : z ≠ x := (ne_of_occursFree hxs hzs).symm
        have hrenamed := ih (s.subst y (var z)).size (by rw [size_subst_var]; omega)
          (s.subst y (var z)) x u (ν.bind z) rfl
        show (bind q z _ _).namelessIn ν = _
        rw [namelessIn, namelessIn, hA, hrenamed, hs y (var z) _ rfl]
        congr 1
        rw [namelessIn, Function.update_of_ne hzx, Valuation.bind_self]
        exact namelessIn_update_bind s ν (Or.inr hzs) fun _ => hzu
      · -- The binder keeps its name: either it is not free in `u`, or `x` is not replaced.
        rename_i hcapture
        rw [namelessIn, namelessIn, hA, hs x u _ rfl]
        congr 1
        have hu : s.occursFree x = true → u.occursFree y = false := by
          intro hxs
          simp only [Bool.and_eq_true, List.contains_iff_mem, mem_freeVariables, hxs, and_true,
            Bool.not_eq_true] at hcapture
          exact hcapture
        rw [← namelessIn_update_bind s ν (Or.inl rfl) hu]
        congr 1
        symm
        rw [Function.update_eq_self_iff, Function.update_of_ne hyx, Valuation.bind_self]

/-- Renaming is substitution, also of a variable for itself. -/
theorem namelessIn_rename (t : Term) (x y : Variable) (ν : Valuation) :
    (t.rename x y).namelessIn ν = t.namelessIn (Function.update ν x (ν y)) := by
  unfold rename
  split
  · rename_i hxy
    rw [hxy, Function.update_eq_self]
  · exact namelessIn_subst t x (var y) ν

/-- Substitution on named terms is substitution on nameless terms: no free variable of `u` is
captured, no bound variable is replaced, and nothing else changes but bound names. -/
theorem nameless_subst (t : Term) (x : Variable) (u : Term) :
    (t.subst x u).nameless = t.nameless.substFree x u.nameless := by
  rw [nameless_eq_namelessIn, namelessIn_subst, nameless_eq_namelessIn t, Nameless.substFree,
    subst_namelessIn]
  congr 1
  funext y
  rw [← nameless_eq_namelessIn u]
  by_cases hyx : y = x
  · rw [hyx, Function.update_self]
    exact (if_pos rfl).symm
  · rw [Function.update_of_ne hyx]
    exact (if_neg fun h => hyx (Name.free.inj h)).symm

end Term

end LogicalFramework

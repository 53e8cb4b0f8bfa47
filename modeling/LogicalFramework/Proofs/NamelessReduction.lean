import LogicalFramework.Proofs.Reduction

/-!
# Reduction functions on nameless terms

The reduction functions substitute, and substitution chooses bound names. The choice does not show
in the nameless form: read off nameless terms, the two functions are functions of the nameless form
alone, with the same bound.

A term is read under a valuation that gives names to its free variables. A binder opens a new name,
and two free variables may even be given the same name: renaming makes no redex and removes none.

* `Term.whnf_namelessIn`, `Term.normalForm_namelessIn` — the functions on terms compute those on
  nameless terms, for any bound.
-/

namespace LogicalFramework

/-! ## Valuations that give names -/

/-- That every variable stands for a name. -/
def Valuation.IsNaming (ν : Valuation) : Prop :=
  ∀ x, ∃ n, ν x = .name n

namespace Valuation

theorem isNaming_free : free.IsNaming :=
  fun x => ⟨.free x, rfl⟩

theorem IsNaming.bind {ν : Valuation} (hν : ν.IsNaming) (x : Variable) :
    (ν.bind x).IsNaming := by
  intro y
  by_cases hyx : y = x
  · exact ⟨.bound 0, by rw [hyx, bind_self]⟩
  · obtain ⟨n, hn⟩ := hν y
    exact ⟨n.succ, by rw [bind_of_ne ν hyx, hn]; rfl⟩

end Valuation

/-! ## The functions on nameless terms -/

namespace Nameless

/-- The weak head normal form. -/
def whnf (fuel : Nat) (t : Nameless) : Option Nameless :=
  match fuel, t with
  | 0, _ => none
  | fuel + 1, app h a => do
    match ← h.whnf fuel with
    | lam _ s => (s.instantiate a).whnf fuel
    | h' => some (app h' a)
  | _ + 1, t => some t

/-- The β-normal form. -/
def normalForm (fuel : Nat) (t : Nameless) : Option Nameless :=
  match fuel, t with
  | 0, _ => none
  | fuel + 1, app h a => do
    let h' ← h.normalForm fuel
    let a' ← a.normalForm fuel
    match h' with
    | lam _ s => (s.instantiate a').normalForm fuel
    | h' => some (app h' a')
  | fuel + 1, bind q A s => do
    let A' ← A.normalForm fuel
    let s' ← s.normalForm fuel
    some (bind q A' s')
  | _ + 1, t => some t

end Nameless

/-! ## Agreement -/

namespace Term

variable {ν : Valuation}

theorem namelessIn_subst_eq_instantiate (x : Variable) (s a : Term) (ν : Valuation) :
    (s.subst x a).namelessIn ν = (s.namelessIn (ν.bind x)).instantiate (a.namelessIn ν) := by
  rw [namelessIn_subst, instantiate_namelessIn_bind]

/-- Weak head reduction computes the weak head normal form of the nameless form. -/
theorem whnf_namelessIn (hν : ν.IsNaming) (fuel : Nat) (t : Term) :
    (t.namelessIn ν).whnf fuel = (t.whnf fuel).map (namelessIn ν) := by
  induction fuel generalizing t with
  | zero => rfl
  | succ fuel ih =>
    cases t with
    | app h a =>
      rw [namelessIn, Nameless.whnf, whnf, ih h]
      cases h.whnf fuel with
      | none => rfl
      | some h' =>
        simp only [Option.map_some, Option.bind_eq_bind, Option.bind_some]
        cases h' with
        | var x =>
          obtain ⟨n, hn⟩ := hν x
          simp only [namelessIn, hn, Option.map_some]
        | bind q x A s =>
          cases q with
          | lam =>
            have hscope := ih (s.subst x a)
            rw [namelessIn_subst_eq_instantiate] at hscope
            exact hscope
          | pi => rfl
        | _ => rfl
    | var x =>
      obtain ⟨n, hn⟩ := hν x
      simp only [namelessIn, whnf, hn, Nameless.whnf, Option.map_some]
    | _ => rfl

/-- Normalisation computes the normal form of the nameless form. -/
theorem normalForm_namelessIn (hν : ν.IsNaming) (fuel : Nat) (t : Term) :
    (t.namelessIn ν).normalForm fuel = (t.normalForm fuel).map (namelessIn ν) := by
  induction fuel generalizing t ν with
  | zero => rfl
  | succ fuel ih =>
    cases t with
    | app h a =>
      rw [namelessIn, Nameless.normalForm, normalForm, ih hν h, ih hν a]
      cases h.normalForm fuel with
      | none => rfl
      | some h' =>
        cases a.normalForm fuel with
        | none => rfl
        | some a' =>
          simp only [Option.map_some, Option.bind_eq_bind, Option.bind_some]
          cases h' with
          | var x =>
            obtain ⟨n, hn⟩ := hν x
            simp only [namelessIn, hn, Option.map_some]
          | bind q x A s =>
            cases q with
            | lam =>
              have hscope := ih hν (s.subst x a')
              rw [namelessIn_subst_eq_instantiate] at hscope
              exact hscope
            | pi => rfl
          | _ => rfl
    | bind q x A s =>
      rw [namelessIn, Nameless.normalForm, normalForm, ih hν A, ih (hν.bind x) s]
      cases A.normalForm fuel with
      | none => rfl
      | some A' =>
        cases s.normalForm fuel with
        | none => rfl
        | some s' => rfl
    | var x =>
      obtain ⟨n, hn⟩ := hν x
      simp only [namelessIn, normalForm, hn, Nameless.normalForm, Option.map_some]
    | _ => rfl

theorem whnf_nameless (fuel : Nat) (t : Term) :
    t.nameless.whnf fuel = (t.whnf fuel).map nameless := by
  rw [nameless_eq_namelessIn, whnf_namelessIn Valuation.isNaming_free]
  exact congrArg (fun f => (t.whnf fuel).map f) (funext fun u => (nameless_eq_namelessIn u).symm)

theorem normalForm_nameless (fuel : Nat) (t : Term) :
    t.nameless.normalForm fuel = (t.normalForm fuel).map nameless := by
  rw [nameless_eq_namelessIn, normalForm_namelessIn Valuation.isNaming_free]
  exact congrArg (fun f => (t.normalForm fuel).map f)
    (funext fun u => (nameless_eq_namelessIn u).symm)

end Term

end LogicalFramework

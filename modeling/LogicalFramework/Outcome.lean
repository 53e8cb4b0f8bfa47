/-!
# Outcomes of bounded computations

Judging a term may reduce terms, and reduction need not end. The outcome of a judgement made with
bounded means is an answer, a failure, or neither when the means are used up.
-/

namespace LogicalFramework

/-- The outcome of a computation with bounded means. -/
inductive Outcome (ε α : Type) where
  /-- The computation answers. -/
  | ok (value : α)
  /-- The computation fails. -/
  | fail (error : ε)
  /-- The computation has used up its means. -/
  | exhausted
deriving DecidableEq

namespace Outcome

variable {ε ε' α β : Type}

/-- Continues with the answer, if there is one. -/
def andThen (o : Outcome ε α) (f : α → Outcome ε β) : Outcome ε β :=
  match o with
  | ok a => f a
  | fail e => fail e
  | exhausted => exhausted

instance : Monad (Outcome ε) where
  pure := ok
  bind := andThen

/-- The outcome with its failure changed. -/
def mapFail (f : ε → ε') : Outcome ε α → Outcome ε' α
  | ok a => ok a
  | fail e => fail (f e)
  | exhausted => exhausted

/-- A computation that cannot fail. -/
def ofOption : Option α → Outcome ε α
  | some a => ok a
  | none => exhausted

/-- An answer that has to be there. -/
def orFail (e : ε) : Option α → Outcome ε α
  | some a => ok a
  | none => fail e

/-- Fails unless the condition, once it is decided, holds. -/
def require (e : ε) : Option Bool → Outcome ε Unit
  | some true => ok ()
  | some false => fail e
  | none => exhausted

/-! ## How outcomes arise -/

theorem bind_eq_ok_iff {o : Outcome ε α} {f : α → Outcome ε β} {b : β} :
    (o >>= f) = ok b ↔ ∃ a, o = ok a ∧ f a = ok b := by
  cases o <;> simp [bind, andThen]

theorem bind_eq_fail_iff {o : Outcome ε α} {f : α → Outcome ε β} {e : ε} :
    (o >>= f) = fail e ↔ o = fail e ∨ ∃ a, o = ok a ∧ f a = fail e := by
  cases o <;> simp [bind, andThen]

theorem ofOption_eq_ok_iff {o : Option α} {a : α} :
    (ofOption o : Outcome ε α) = ok a ↔ o = some a := by
  cases o <;> simp [ofOption]

theorem orFail_eq_ok_iff {e : ε} {o : Option α} {a : α} : orFail e o = ok a ↔ o = some a := by
  cases o <;> simp [orFail]

theorem require_eq_ok_iff {e : ε} {o : Option Bool} {u : Unit} :
    require e o = ok u ↔ o = some true := by
  rcases o with _ | _ | _ <;> simp [require]

@[simp]
theorem mapFail_eq_ok_iff {o : Outcome ε α} {f : ε → ε'} {a : α} :
    o.mapFail f = ok a ↔ o = ok a := by
  cases o <;> simp [mapFail]

@[simp]
theorem mapFail_eq_fail_iff {o : Outcome ε α} {f : ε → ε'} {e' : ε'} :
    o.mapFail f = fail e' ↔ ∃ e, o = fail e ∧ f e = e' := by
  cases o <;> simp [mapFail]

end Outcome

end LogicalFramework

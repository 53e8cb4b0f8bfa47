import LogicalFramework.Sorting

/-!
# Larger bounds

The functions that reduce, compare and sort terms are given a bound, and have no answer if it is
used up. A larger bound only adds answers. An answer that is there is kept, and so is a failure.

* `Term.whnf_kept`, `Term.normalForm_kept`, `Conversion.equal_kept` — for reduction and comparison;
* `Environment.sortOf_kept` — for sorting, by induction on the term.
-/

namespace LogicalFramework

/-! ## Answers that are kept -/

/-- That `o'` has the answer of `o`, if `o` has one. -/
def Kept {α : Type} (o o' : Option α) : Prop :=
  o = none ∨ o' = o

namespace Kept

variable {α β : Type}

theorem refl (o : Option α) : Kept o o :=
  Or.inr rfl

theorem eq_some {o o' : Option α} {a : α} (h : Kept o o') (ha : o = some a) : o' = some a := by
  rcases h with rfl | rfl
  · exact absurd ha (by simp)
  · exact ha

theorem bind {o o' : Option α} {f f' : α → Option β} (h : Kept o o')
    (hf : ∀ a, Kept (f a) (f' a)) : Kept (o >>= f) (o' >>= f') := by
  rcases h with rfl | rfl
  · exact Or.inl rfl
  · cases o' with
    | none => exact Or.inl rfl
    | some a => exact hf a

theorem map {o o' : Option α} (f : α → β) (h : Kept o o') : Kept (o.map f) (o'.map f) := by
  rcases h with rfl | rfl
  · exact Or.inl rfl
  · exact refl _

theorem ite {c : Prop} [Decidable c] {o o' p p' : Option α} (ho : Kept o o') (hp : Kept p p') :
    Kept (if c then o else p) (if c then o' else p') := by
  split
  · exact ho
  · exact hp

/-- An answer that is kept by larger bounds is the only one. -/
theorem unique {f : Nat → Option α} (hf : ∀ {m n}, m ≤ n → Kept (f m) (f n)) {m n : Nat} {a b : α}
    (ha : f m = some a) (hb : f n = some b) : a = b := by
  rcases Nat.le_total m n with hle | hle
  · exact Option.some.inj (((hf hle).eq_some ha).symm.trans hb)
  · exact Option.some.inj (ha.symm.trans ((hf hle).eq_some hb))

end Kept

/-- That `o'` has the answer or the failure of `o`, if `o` has one. -/
def Outcome.Kept {ε α : Type} (o o' : Outcome ε α) : Prop :=
  o = exhausted ∨ o' = o

namespace Outcome.Kept

variable {ε ε' α β : Type}

theorem refl (o : Outcome ε α) : Kept o o :=
  Or.inr rfl

theorem eq_ok {o o' : Outcome ε α} {a : α} (h : Kept o o') (ha : o = ok a) : o' = ok a := by
  rcases h with rfl | rfl
  · exact absurd ha (by simp)
  · exact ha

theorem bind {o o' : Outcome ε α} {f f' : α → Outcome ε β} (h : Kept o o')
    (hf : ∀ a, Kept (f a) (f' a)) : Kept (o >>= f) (o' >>= f') := by
  rcases h with rfl | rfl
  · exact Or.inl rfl
  · cases o' with
    | ok a => exact hf a
    | fail e => exact refl _
    | exhausted => exact Or.inl rfl

theorem mapFail {o o' : Outcome ε α} (f : ε → ε') (h : Kept o o') :
    Kept (o.mapFail f) (o'.mapFail f) := by
  rcases h with rfl | rfl
  · exact Or.inl rfl
  · exact refl _

theorem ofOption {o o' : Option α} (h : LogicalFramework.Kept o o') :
    Kept (ofOption o : Outcome ε α) (ofOption o') := by
  rcases h with rfl | rfl
  · exact Or.inl rfl
  · exact refl _

theorem require (e : ε) {o o' : Option Bool} (h : LogicalFramework.Kept o o') :
    Kept (require e o) (require e o') := by
  rcases h with rfl | rfl
  · exact Or.inl rfl
  · exact refl _

end Outcome.Kept

/-! ## Reduction -/

namespace Term

variable {fuel fuel' : Nat}

theorem whnf_kept (h : fuel ≤ fuel') (t : Term) : Kept (t.whnf fuel) (t.whnf fuel') := by
  induction fuel generalizing fuel' t with
  | zero => exact Or.inl rfl
  | succ fuel ih =>
    obtain ⟨k, rfl⟩ := Nat.exists_eq_add_of_lt h
    have hk : fuel ≤ fuel + k := Nat.le_add_right fuel k
    cases t with
    | app f a =>
      rw [whnf, whnf]
      refine (ih hk f).bind fun f' => ?_
      cases f' with
      | bind q x A s =>
        cases q with
        | lam => exact ih hk _
        | pi => exact .refl _
      | _ => exact .refl _
    | _ => exact .refl _

theorem normalForm_kept (h : fuel ≤ fuel') (t : Term) :
    Kept (t.normalForm fuel) (t.normalForm fuel') := by
  induction fuel generalizing fuel' t with
  | zero => exact Or.inl rfl
  | succ fuel ih =>
    obtain ⟨k, rfl⟩ := Nat.exists_eq_add_of_lt h
    have hk : fuel ≤ fuel + k := Nat.le_add_right fuel k
    cases t with
    | app f a =>
      rw [normalForm, normalForm]
      refine (ih hk f).bind fun f' => (ih hk a).bind fun a' => ?_
      cases f' with
      | bind q x A s =>
        cases q with
        | lam => exact ih hk _
        | pi => exact .refl _
      | _ => exact .refl _
    | bind q x A s =>
      rw [normalForm, normalForm]
      exact (ih hk A).bind fun A' => (ih hk s).bind fun s' => .refl _
    | _ => exact .refl _

end Term

/-! ## Comparison -/

namespace Conversion

variable {e e' : Side → Side → Option Bool}

theorem compareHeads_kept (h : ∀ l r, Kept (e l r) (e' l r)) (l r : Side) :
    Kept (compareHeads e l r) (compareHeads e' l r) := by
  unfold compareHeads
  split
  · exact .ite (.refl _) ((h _ _).bind fun same => .ite (h _ _) (.refl _))
  · exact .ite ((h _ _).bind fun same => .ite (h _ _) (.refl _)) (.refl _)
  · exact h _ _
  · exact h _ _
  · exact .refl _

theorem compareUnfolded_kept (h : ∀ l r, Kept (e l r) (e' l r)) (l r : Side) :
    Kept (compareUnfolded e l r) (compareUnfolded e' l r) := by
  unfold compareUnfolded
  split
  · exact .refl _
  · exact h _ _

theorem equal_kept {fuel fuel' : Nat} (h : fuel ≤ fuel') (l r : Side) :
    Kept (equal fuel l r) (equal fuel' l r) := by
  induction fuel generalizing fuel' l r with
  | zero => exact Or.inl rfl
  | succ fuel ih =>
    obtain ⟨k, rfl⟩ := Nat.exists_eq_add_of_lt h
    have hk : fuel ≤ fuel + k := Nat.le_add_right fuel k
    rw [equal, equal]
    refine (Term.whnf_kept hk _).bind fun l' => (Term.whnf_kept hk _).bind fun r' => ?_
    exact (compareHeads_kept (fun l r => ih hk l r) _ _).bind fun same =>
      .ite (.refl _) (compareUnfolded_kept (fun l r => ih hk l r) _ _)

end Conversion

/-! ## Sorting -/

section Sorting

variable {fuel fuel' : Nat} (h : fuel ≤ fuel')

include h

theorem TermSort.normalForm_kept (S : TermSort) :
    Kept (S.normalForm fuel) (S.normalForm fuel') := by
  cases S with
  | kind => exact .refl _
  | term t => exact (Term.normalForm_kept h t).map _

theorem TermSort.equal_kept (S S' : TermSort) : Kept (S.equal fuel S') (S.equal fuel' S') := by
  cases S with
  | kind => cases S' <;> exact .refl _
  | term t =>
    cases S' with
    | kind => exact .refl _
    | term u => exact Conversion.equal_kept h _ _

theorem TermSort.classifiesFamilyOrKind_kept (S : TermSort) :
    Kept (S.classifiesFamilyOrKind fuel) (S.classifiesFamilyOrKind fuel') := by
  cases S with
  | kind => exact .refl _
  | term t => exact Conversion.equal_kept h _ _

theorem expectPi_kept (t : Term) (S : TermSort) :
    (expectPi fuel t S).Kept (expectPi fuel' t S) := by
  cases S with
  | kind => exact .refl _
  | term A => exact .bind (.ofOption (Term.whnf_kept h A)) fun _ => .refl _

theorem Environment.sortOf_kept (env : Environment) (t : Term) :
    (env.sortOf fuel t).Kept (env.sortOf fuel' t) := by
  induction t generalizing env with
  | type => exact .refl _
  | const | var | metaVar =>
    exact .bind (.refl _) fun A => .ofOption (TermSort.normalForm_kept h _)
  | app f a ihf iha =>
    rw [sortOf, sortOf]
    refine .mapFail _ (.bind (ihf env) fun F => .bind (expectPi_kept h f F) fun parts => ?_)
    obtain ⟨x, A, B⟩ := parts
    refine .bind (iha env) fun A' => .bind (.require _ (TermSort.equal_kept h _ _)) fun _ => ?_
    exact .ofOption (TermSort.normalForm_kept h _)
  | bind q x A s ihA ihs =>
    rw [sortOf, sortOf]
    refine .mapFail _ ?_
    split
    · exact .refl _
    refine .bind (ihA env) fun K => .bind (.require _ (TermSort.equal_kept h _ _)) fun _ => ?_
    refine .bind (ihs _) fun S => ?_
    cases q with
    | pi =>
      exact .bind (.require _ (TermSort.classifiesFamilyOrKind_kept h S)) fun _ =>
        .ofOption (TermSort.normalForm_kept h _)
    | lam => exact .bind (.refl _) fun B => .ofOption (TermSort.normalForm_kept h _)

end Sorting

end LogicalFramework

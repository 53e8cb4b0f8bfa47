import LogicalFramework.Proofs.Scoping
import LogicalFramework.Proofs.Union

/-!
# When the union of contexts is well formed

In the union, the declarations that only the left context has come before all others. What they
depend on may come later then, and a sort of the right context may bind a variable that is now
declared before it. If neither is the case, the union of well-formed contexts is well formed, and
otherwise it is refused for this reason.

* `Environment.sortOf_relocated` — a term that is sorted in one context is sorted alike in another
  one that declares its free variables alike, or it is misplaced there, by induction on the term;
* `Context.validate_filter`, `Context.validate_append` — the two things that the union does to
  declarations: some are left out, and others are put before them;
* `Context.union_validated` — when the union is well formed.
-/

namespace LogicalFramework

open Filter Outcome

namespace Environment

/-! ## Sorting in another context -/

/-- Why a term is refused in a context though it is sorted in another one: the context lacks a
variable of the term, or declares one that the term binds. -/
inductive Misplaced (ctx : Context) (t : Term) (e : SortError) : Prop where
  | undeclared (x : Variable) (hfree : t.occursFree x = true) (hx : ctx.contains x = false)
      (he : e.root = .undeclaredVariable x)
  | redeclared (outer : List Variable) (x : Variable) (s : Term) (hbinds : t.BindsAt outer x s)
      (hx : ctx.contains x = true) (he : e.root = .redeclaredVariable x)

namespace Misplaced

variable {ctx : Context} {e : SortError}

/-- What makes a part of a term misplaced makes the whole term so, if the part is not in a scope. -/
theorem within {t t' : Term} (h : Misplaced ctx t e)
    (hfree : ∀ x, t.occursFree x = true → t'.occursFree x = true)
    (hbinds : ∀ outer x s, t.BindsAt outer x s → t'.BindsAt outer x s) :
    Misplaced ctx t' (.within t' e) := by
  cases h with
  | undeclared x hx hdeclared he => exact .undeclared x (hfree x hx) hdeclared he
  | redeclared outer x s hx hdeclared he =>
    exact .redeclared outer x s (hbinds outer x s hx) hdeclared he

/-- The scope of a binder is misplaced where the variable of the binder is declared, too. If it does
not bind this variable again, then for a reason that the binder has as well. -/
theorem scope {q : Binder} {y : Variable} {A r : Term} (h : Misplaced (ctx.add y A) r e)
    (hy : ∀ outer s, ¬ r.BindsAt outer y s) :
    Misplaced ctx (.bind q y A r) (.within (.bind q y A r) e) := by
  cases h with
  | undeclared x hfree hx he =>
    rw [Bindings.contains, Bindings.lookup_add] at hx
    by_cases hyx : y = x
    · rw [if_pos hyx] at hx
      exact absurd hx (by simp)
    · rw [if_neg hyx] at hx
      exact .undeclared x (by simp [Term.occursFree, hyx, hfree]) hx he
  | redeclared outer x s hbinds hx he =>
    have hyx : y ≠ x := by
      rintro rfl
      exact hy outer s hbinds
    rw [Bindings.contains, Bindings.lookup_add, if_neg hyx] at hx
    exact .redeclared (y :: outer) x s (.scope hbinds) hx he

end Misplaced

/-- The environment with another context. -/
def withContext (env : Environment) (ctx : Context) : Environment :=
  { env with context := ctx }

theorem withContext_extend (env : Environment) (ctx : Context) (x : Variable) (A : Term) :
    (env.withContext ctx).extend x A = (env.extend x A).withContext (ctx.add x A) :=
  rfl

/-- That a term has the same outcome in another context, or is refused because it is misplaced
there. -/
def Relocates (fuel : Nat) (env : Environment) (ctx : Context) (t : Term) : Prop :=
  (env.withContext ctx).sortOf fuel t = env.sortOf fuel t ∨
    ∃ e, Misplaced ctx t e ∧ (env.withContext ctx).sortOf fuel t = fail e

variable {fuel : Nat} {env : Environment} {ctx : Context} {S : TermSort}

theorem Relocates.app {f a : Term} (hS : env.sortOf fuel (.app f a) = ok S)
    (hf : Relocates fuel env ctx f) (ha : Relocates fuel env ctx a) :
    Relocates fuel env ctx (.app f a) := by
  rcases hf with hf | ⟨e, he, hf⟩
  · rcases ha with ha | ⟨e, he, ha⟩
    · left
      rw [sortOf, sortOf, hf, ha]
    · obtain ⟨F, x, A, B, _, _, hsort, hpi, _⟩ := sortOf_app hS
      refine Or.inr ⟨_, he.within (fun y hy => ?_) fun _ _ _ => .argument, ?_⟩
      · simp [Term.occursFree, hy]
      · rw [sortOf_app_of_pi (hf.trans hsort) hpi, ha]
        rfl
  · refine Or.inr ⟨_, he.within (fun y hy => ?_) fun _ _ _ => .head, ?_⟩
    · simp [Term.occursFree, hy]
    · rw [sortOf, hf]
      rfl

/-- A binder of a variable that the context declares is misplaced. Any other one depends on its type
and its scope. -/
theorem Relocates.bind {q : Binder} {x : Variable} {A s : Term}
    (hS : env.sortOf fuel (.bind q x A s) = ok S) (hA : Relocates fuel env ctx A)
    (hs : Relocates fuel (env.extend x A) (ctx.add x A) s) :
    Relocates fuel env ctx (.bind q x A s) := by
  obtain ⟨hx, ⟨A', hsort, hequal⟩, R, hscope, _⟩ := sortOf_bind hS
  by_cases hx' : ctx.contains x = true
  · refine Or.inr ⟨.within (.bind q x A s) (.redeclaredVariable x),
      .redeclared [] x s (.here q x A s) hx' rfl, ?_⟩
    rw [sortOf, withContext, if_pos hx']
    rfl
  rw [Bool.not_eq_true] at hx'
  have hbind : (env.withContext ctx).sortOf fuel (.bind q x A s) = _ :=
    sortOf_bind_of_new fuel q A s hx'
  rw [withContext_extend] at hbind
  rcases hA with hA | ⟨e, he, hA⟩
  · rcases hs with hs | ⟨e, he, hs⟩
    · left
      rw [hbind, hA, hs, sortOf_bind_of_new fuel q A s hx]
    · -- The variable of the binder is not bound again, since the scope is sorted with it declared.
      have hnew : ∀ outer r, ¬ s.BindsAt outer x r := by
        intro outer r hbinds
        have hnot := ((wellScoped_of_sortOf hscope).binders_new outer x r hbinds).1
        rw [contains_extend] at hnot
        exact absurd hnot (by simp)
      refine Or.inr ⟨_, he.scope hnew, ?_⟩
      have hexpect : expectSort fuel A .type (.term A') = ok () := by
        rw [expectSort, require_eq_ok_iff]
        exact hequal
      rw [hbind, hA, hsort, hs]
      show mapFail _ (expectSort fuel A .type (.term A') >>= _) = _
      rw [hexpect]
      rfl
  · refine Or.inr ⟨_, he.within (fun y hy => ?_) fun _ _ _ => .domain, ?_⟩
    · simp [Term.occursFree, hy]
    · rw [hbind, hA]
      rfl

/-- **Sorting in another context.** A term that is given a sort is given the same sort in a context
that declares each of its free variables alike or not at all, unless it is misplaced there. -/
theorem sortOf_relocated {t : Term} (hS : env.sortOf fuel t = ok S)
    (hctx : ∀ x A, t.occursFree x = true → ctx.lookup x = some A → env.context.lookup x = some A) :
    (env.withContext ctx).sortOf fuel t = ok S ∨
      ∃ e, Misplaced ctx t e ∧ (env.withContext ctx).sortOf fuel t = fail e := by
  rw [← hS]
  show Relocates fuel env ctx t
  induction t generalizing env ctx S with
  | type => exact Or.inl rfl
  | const c => exact Or.inl rfl
  | metaVar m => exact Or.inl rfl
  | var x =>
    cases hx : ctx.lookup x with
    | none =>
      have hnot : ctx.contains x = false := by rw [Bindings.contains, hx]; rfl
      refine Or.inr ⟨.undeclaredVariable x,
        .undeclared x (by simp [Term.occursFree]) hnot rfl, ?_⟩
      rw [sortOf, withContext, hx]
      rfl
    | some A =>
      left
      rw [sortOf, sortOf, withContext, hx, hctx x A (by simp [Term.occursFree]) hx]
  | app f a ihf iha =>
    obtain ⟨_, _, _, _, _, _, hf, _, ha, _⟩ := sortOf_app hS
    refine .app hS (ihf hf fun x A hfree => hctx x A ?_) (iha ha fun x A hfree => hctx x A ?_)
    · simp [Term.occursFree, hfree]
    · simp [Term.occursFree, hfree]
  | bind q x A s ihA ihs =>
    obtain ⟨_, ⟨_, hA, _⟩, _, hs, _⟩ := sortOf_bind hS
    refine .bind hS (ihA hA fun y B hfree => hctx y B ?_) (ihs hs fun y B hfree hy => ?_)
    · simp [Term.occursFree, hfree]
    · rw [Bindings.lookup_add] at hy
      rw [extend, Bindings.lookup_add]
      by_cases hxy : x = y
      · rwa [if_pos hxy] at hy ⊢
      · rw [if_neg hxy] at hy ⊢
        exact hctx y B (by simp [Term.occursFree, hxy, hfree]) hy

/-- What is checked to be a type is a type in such a context, too, or it is misplaced there. -/
theorem check_relocated {t : Term} (hS : env.check fuel t .type = ok ())
    (hctx : ∀ x A, t.occursFree x = true → ctx.lookup x = some A → env.context.lookup x = some A) :
    (env.withContext ctx).check fuel t .type = ok () ∨
      ∃ e, Misplaced ctx t e ∧ (env.withContext ctx).check fuel t .type = fail e := by
  have hsort := hS
  rw [check, bind_eq_ok_iff] at hsort
  obtain ⟨S, hsort, hexpect⟩ := hsort
  rcases sortOf_relocated hsort hctx with h | ⟨e, he, h⟩
  · left
    rw [check, h]
    exact hexpect
  · refine Or.inr ⟨e, he, ?_⟩
    rw [check, h]
    rfl

theorem wellScoped_of_check {t : Term} {S : TermSort} {u : Unit} (h : env.check fuel t S = ok u) :
    env.WellScoped t := by
  rw [check, bind_eq_ok_iff] at h
  obtain ⟨_, hsort, _⟩ := h
  exact wellScoped_of_sortOf hsort

end Environment

namespace Context

/-! ## Declarations that are left out or put before -/

variable {sig : Signature} {fuel : Nat}

/-- A validated context is a variable with a type, declared after a validated context that does not
declare it. -/
theorem validate_cons_ok {x : Variable} {A : Term} {older : List (Variable × Term)}
    (h : Context.validate fuel sig ⟨(x, A) :: older⟩ = ok ()) :
    (Bindings.mk older).contains x = false ∧
      Environment.check fuel ⟨sig, ⟨older⟩, .empty⟩ A .type = ok () ∧
      Context.validate fuel sig ⟨older⟩ = ok () := by
  rw [Context.validate, Bindings.validate_cons] at h
  split at h
  · exact absurd h (by simp)
  · rename_i hx
    rw [bind_eq_ok_iff] at h
    obtain ⟨_, hA, h⟩ := h
    rw [mapFail_eq_ok_iff] at hA
    exact ⟨by simpa using hx, hA, h⟩

theorem validate_cons_of_check {x : Variable} {A : Term} {older : List (Variable × Term)}
    (hx : (Bindings.mk older).contains x = false)
    (hA : Environment.check fuel ⟨sig, ⟨older⟩, .empty⟩ A .type = ok ()) :
    Context.validate fuel sig ⟨(x, A) :: older⟩ = Context.validate fuel sig ⟨older⟩ := by
  rw [Context.validate, Bindings.validate_cons, hx, hA]
  rfl

theorem validate_cons_of_check_fail {x : Variable} {A : Term} {older : List (Variable × Term)}
    {e : SortError} (hx : (Bindings.mk older).contains x = false)
    (hA : Environment.check fuel ⟨sig, ⟨older⟩, .empty⟩ A .type = fail e) :
    Context.validate fuel sig ⟨(x, A) :: older⟩ = fail (.illSorted x e) := by
  rw [Context.validate, Bindings.validate_cons, hx, hA]
  rfl

/-- A type of a variable, among some of the declarations only: it is a type, or it mentions a
variable that is left out. -/
theorem check_filter (keep : Variable → Bool) {A : Term} {older : List (Variable × Term)}
    (hA : Environment.check fuel ⟨sig, ⟨older⟩, .empty⟩ A .type = ok ()) :
    Environment.check fuel ⟨sig, ⟨older.filter fun entry => keep entry.1⟩, .empty⟩ A .type = ok () ∨
      ∃ y e, A.occursFree y = true ∧ keep y = false ∧ e.root = .undeclaredVariable y ∧
        Environment.check fuel ⟨sig, ⟨older.filter fun entry => keep entry.1⟩, .empty⟩ A .type =
          fail e := by
  have hscoped := Environment.wellScoped_of_check hA
  have hctx : ∀ y B, A.occursFree y = true →
      (Bindings.mk (older.filter fun entry => keep entry.1)).lookup y = some B →
      (Bindings.mk older).lookup y = some B := by
    intro y B _ hy
    rw [Bindings.lookup_filter] at hy
    split at hy
    · exact hy
    · exact absurd hy (by simp)
  rcases Environment.check_relocated hA hctx with hcheck | ⟨e, he, hcheck⟩
  · exact Or.inl hcheck
  cases he with
  | undeclared y hfree hy he =>
    have hdeclared := hscoped.free_declared y ((Term.mem_freeVariables A y).mpr hfree)
    rw [Bindings.contains_filter, hdeclared, Bool.and_true] at hy
    exact Or.inr ⟨y, e, hfree, hy, he, hcheck⟩
  | redeclared outer y s hbinds hy _ =>
    -- What a binder binds was not declared before, so it is not declared now.
    rw [Bindings.contains_filter, (hscoped.binders_new outer y s hbinds).1] at hy
    exact absurd hy (by simp)

/-- A type of a variable, with other declarations before: it is a type, or it binds one of their
variables. -/
theorem check_append {B : Term} {newer : List (Variable × Term)} (older : List (Variable × Term))
    (hB : Environment.check fuel ⟨sig, ⟨newer⟩, .empty⟩ B .type = ok ()) :
    Environment.check fuel ⟨sig, ⟨newer ++ older⟩, .empty⟩ B .type = ok () ∨
      ∃ outer y s e, B.BindsAt outer y s ∧ (Bindings.mk older).contains y = true ∧
        e.root = .redeclaredVariable y ∧
        Environment.check fuel ⟨sig, ⟨newer ++ older⟩, .empty⟩ B .type = fail e := by
  have hscoped := Environment.wellScoped_of_check hB
  have hctx : ∀ y C, B.occursFree y = true → (Bindings.mk (newer ++ older)).lookup y = some C →
      (Bindings.mk newer).lookup y = some C := by
    intro y C hfree hy
    have hdeclared := hscoped.free_declared y ((Term.mem_freeVariables B y).mpr hfree)
    rw [Bindings.contains, Option.isSome_iff_exists] at hdeclared
    obtain ⟨C', hC'⟩ := hdeclared
    rw [Bindings.lookup_append, hC', Option.some_or] at hy
    exact hC'.trans hy
  rcases Environment.check_relocated hB hctx with hcheck | ⟨e, he, hcheck⟩
  · exact Or.inl hcheck
  cases he with
  | undeclared y hfree hy _ =>
    -- What is free was declared before, so it is declared now.
    rw [Bindings.contains_append,
      hscoped.free_declared y ((Term.mem_freeVariables B y).mpr hfree)] at hy
    exact absurd hy (by simp)
  | redeclared outer y s hbinds hy he =>
    rw [Bindings.contains_append, (hscoped.binders_new outer y s hbinds).1, Bool.false_or] at hy
    exact Or.inr ⟨outer, y, s, e, hbinds, hy, he, hcheck⟩

/-- **Declarations that are left out.** If only the declarations of some variables of a validated
context are kept, the result is validated, or one of them is refused because it mentions a variable
that is left out. -/
theorem validate_filter (keep : Variable → Bool) {entries : List (Variable × Term)}
    (h : Context.validate fuel sig ⟨entries⟩ = ok ()) :
    Context.validate fuel sig ⟨entries.filter fun entry => keep entry.1⟩ = ok () ∨
      ∃ x A y e, (x, A) ∈ entries ∧ keep x = true ∧ A.occursFree y = true ∧ keep y = false ∧
        e.root = .undeclaredVariable y ∧
        Context.validate fuel sig ⟨entries.filter fun entry => keep entry.1⟩ =
          fail (.illSorted x e) := by
  induction entries with
  | nil => exact Or.inl rfl
  | cons entry older ih =>
    obtain ⟨x, A⟩ := entry
    obtain ⟨hx, hA, holder⟩ := validate_cons_ok h
    -- What becomes of the older declarations is what becomes of all, if this one is in order.
    have hrest : ∀ kept, Context.validate fuel sig kept =
        Context.validate fuel sig ⟨older.filter fun entry => keep entry.1⟩ →
        Context.validate fuel sig kept = ok () ∨
          ∃ x' A' y e, (x', A') ∈ (x, A) :: older ∧ keep x' = true ∧ A'.occursFree y = true ∧
            keep y = false ∧ e.root = .undeclaredVariable y ∧
            Context.validate fuel sig kept = fail (.illSorted x' e) := by
      intro kept hkept
      rw [hkept]
      rcases ih holder with hvalid | ⟨x', A', y, e, hmem, hrest⟩
      · exact Or.inl hvalid
      · exact Or.inr ⟨x', A', y, e, List.mem_cons_of_mem _ hmem, hrest⟩
    rw [List.filter_cons]
    split
    · rename_i hkeep
      have hnew : (Bindings.mk (older.filter fun entry => keep entry.1)).contains x = false := by
        rw [Bindings.contains_filter, hx, Bool.and_false]
      rcases check_filter keep hA with hcheck | ⟨y, e, hfree, hy, he, hcheck⟩
      · exact hrest _ (validate_cons_of_check hnew hcheck)
      · exact Or.inr ⟨x, A, y, e, List.mem_cons_self, hkeep, hfree, hy, he,
          validate_cons_of_check_fail hnew hcheck⟩
    · exact hrest _ rfl

/-- **Declarations that are put before.** If the declarations of other variables are put before
those of a validated context, they alone decide, or one of the validated declarations is refused
because its type binds one of the other variables. -/
theorem validate_append {newer older : List (Variable × Term)}
    (h : Context.validate fuel sig ⟨newer⟩ = ok ())
    (hdisjoint : ∀ x A, (x, A) ∈ newer → (Bindings.mk older).contains x = false) :
    Context.validate fuel sig ⟨newer ++ older⟩ = Context.validate fuel sig ⟨older⟩ ∨
      ∃ x B outer y s e, (x, B) ∈ newer ∧ B.BindsAt outer y s ∧
        (Bindings.mk older).contains y = true ∧ e.root = .redeclaredVariable y ∧
        Context.validate fuel sig ⟨newer ++ older⟩ = fail (.illSorted x e) := by
  induction newer with
  | nil => exact Or.inl rfl
  | cons entry newer ih =>
    obtain ⟨x, B⟩ := entry
    obtain ⟨hx, hB, hnewer⟩ := validate_cons_ok h
    have hnew : (Bindings.mk (newer ++ older)).contains x = false := by
      rw [Bindings.contains_append, hx, hdisjoint x B List.mem_cons_self, Bool.or_false]
    rw [List.cons_append]
    rcases check_append older hB with hcheck | ⟨outer, y, s, e, hbinds, hy, he, hcheck⟩
    · rw [validate_cons_of_check hnew hcheck]
      rcases ih hnewer fun y C hmem => hdisjoint y C (List.mem_cons_of_mem _ hmem) with
        hsame | ⟨x', B', outer, y, s, e, hmem, hrest⟩
      · exact Or.inl hsame
      · exact Or.inr ⟨x', B', outer, y, s, e, List.mem_cons_of_mem _ hmem, hrest⟩
    · exact Or.inr ⟨x, B, outer, y, s, e, List.mem_cons_self, hbinds, hy, he,
        validate_cons_of_check_fail hnew hcheck⟩

/-- The type of a variable of a validated context is well scoped among the older declarations. -/
theorem wellScoped_of_validate (newer : List (Variable × Term)) {older : List (Variable × Term)}
    {x : Variable} {A : Term}
    (h : Context.validate fuel sig ⟨newer ++ (x, A) :: older⟩ = ok ()) :
    Environment.WellScoped ⟨sig, ⟨older⟩, .empty⟩ A := by
  induction newer with
  | nil => exact Environment.wellScoped_of_check (validate_cons_ok h).2.1
  | cons entry newer ih => exact ih (validate_cons_ok h).2.2

/-! ## The union -/

/-- That the declarations which only the left context has can come before those of the right one:
their types mention no variable of the right context, and no type in the right context binds one of
their variables. -/
structure CanPrecede (left right : Context) : Prop where
  /-- What is moved to the front depends on nothing that comes after it. -/
  independent : ∀ x A, (x, A) ∈ left.newestFirst → right.contains x = false →
    ∀ y, A.occursFree y = true → right.contains y = false
  /-- What is behind it binds none of its variables. -/
  unbound : ∀ x B, (x, B) ∈ right.newestFirst →
    ∀ outer y s, B.BindsAt outer y s → left.contains y = true → right.contains y = true

/-- The fault of a declaration that stands in the way of this. -/
inductive Displaced (left right : Context) : DeclarationError Variable → Prop where
  | dependent {x y : Variable} {A : Term} {e : SortError} (hx : (x, A) ∈ left.newestFirst)
      (hleft : right.contains x = false) (hfree : A.occursFree y = true)
      (hy : right.contains y = true) (he : e.root = .undeclaredVariable y) :
      Displaced left right (.illSorted x e)
  | binding {x y : Variable} {B s : Term} {outer : List Variable} {e : SortError}
      (hx : (x, B) ∈ right.newestFirst) (hbinds : B.BindsAt outer y s)
      (hleft : left.contains y = true) (hy : right.contains y = false)
      (he : e.root = .redeclaredVariable y) : Displaced left right (.illSorted x e)

variable {left right : Context}

theorem Displaced.not_canPrecede {e : DeclarationError Variable} (h : left.Displaced right e) :
    ¬ left.CanPrecede right := by
  intro hprecede
  cases h with
  | dependent hx hleft hfree hy _ =>
    exact absurd (hy.symm.trans (hprecede.independent _ _ hx hleft _ hfree)) (by simp)
  | binding hx hbinds hleft hy _ =>
    exact absurd (hy.symm.trans (hprecede.unbound _ _ hx _ _ _ hbinds hleft)) (by simp)

/-- If the merged context is validated, the types of its variables are well scoped in place. -/
theorem canPrecede_of_validate (h : (left.merge right).validate fuel sig = ok ()) :
    left.CanPrecede right where
  independent := by
    intro x A hx hleft y hfree
    have hkept : (x, A) ∈ left.newestFirst.filter fun entry => !right.contains entry.1 :=
      List.mem_filter.mpr ⟨hx, by simp [hleft]⟩
    obtain ⟨newer, older, hsplit⟩ := List.append_of_mem hkept
    rw [merge, hsplit, ← List.append_assoc] at h
    have hdeclared := (wellScoped_of_validate _ h).free_declared y
      ((Term.mem_freeVariables A y).mpr hfree)
    -- What is declared before is one of the declarations that only the left context has.
    have hmem : (Bindings.mk (left.newestFirst.filter fun entry =>
        !right.contains entry.1)).contains y = true := by
      rw [hsplit, ← List.singleton_append, ← List.append_assoc, Bindings.contains_append]
      simp [hdeclared]
    rw [contains_filter_not, Bool.and_eq_true] at hmem
    simpa using hmem.1
  unbound := by
    intro x B hx outer y s hbinds hleft
    obtain ⟨newer, older, hsplit⟩ := List.append_of_mem hx
    rw [merge, hsplit, List.append_assoc, List.cons_append] at h
    have hnew := ((wellScoped_of_validate _ h).binders_new outer y s hbinds).1
    rw [Bindings.contains_append, Bool.or_eq_false_iff, contains_filter_not, hleft] at hnew
    simpa using hnew.2

/-- The merged context is validated, or a declaration stands in the way. -/
theorem validate_merge (hleft : left.validate fuel sig = ok ())
    (hright : right.validate fuel sig = ok ()) :
    (left.merge right).validate fuel sig = ok () ∨
      ∃ e, left.Displaced right e ∧ (left.merge right).validate fuel sig = fail e := by
  have hdisjoint : ∀ x B, (x, B) ∈ right.newestFirst →
      (Bindings.mk (left.newestFirst.filter fun entry => !right.contains entry.1)).contains x =
        false := by
    intro x B hx
    have hdeclared : right.contains x = true := Bindings.contains_iff.mpr ⟨B, hx⟩
    rw [contains_filter_not, hdeclared]
    rfl
  rcases validate_append hright hdisjoint with hkept | ⟨x, B, outer, y, s, e, hx, hbinds, hy, he, h⟩
  · rw [merge, hkept]
    rcases validate_filter (fun x => !right.contains x) hleft with
      hvalid | ⟨x, A, y, e, hx, hkeep, hfree, hy, he, h⟩
    · exact Or.inl hvalid
    · exact Or.inr ⟨_, .dependent hx (by simpa using hkeep) hfree (by simpa using hy) he, h⟩
  · rw [contains_filter_not, Bool.and_eq_true] at hy
    exact Or.inr ⟨_, .binding hx hbinds hy.2 (by simpa using hy.1) he, h⟩

/-- **When the union is well formed.** The union of well-formed contexts is well formed exactly if
no type of a variable that only the left context declares mentions a variable of the right one, and
no type in the right context binds a variable that only the left one declares. Otherwise it is
refused, for a declaration of this kind and because of the variable in question. -/
theorem union_validated (fuel₁ fuel₂ fuel₃ : Nat) (sig : Signature) (left right u : Context)
    (hleft : left.validate fuel₁ sig = ok ()) (hright : right.validate fuel₂ sig = ok ())
    (hu : left.union fuel₃ right = ok u) :
    ((∀ᶠ fuel in atTop, u.validate fuel sig = ok ()) ↔ left.CanPrecede right) ∧
      (¬ left.CanPrecede right →
        ∃ e, left.Displaced right e ∧ ∀ᶠ fuel in atTop, u.validate fuel sig = fail e) := by
  rw [eq_merge_of_union hu]
  have hlasting := lasting_validate sig (left.merge right)
  obtain ⟨n, hleft, hright⟩ := ((lasting_validate sig left).eventually hleft (by simp)).and
    ((lasting_validate sig right).eventually hright (by simp)) |>.exists
  constructor
  · constructor
    · intro h
      obtain ⟨_, h⟩ := h.exists
      exact canPrecede_of_validate h
    · intro hprecede
      rcases validate_merge hleft hright with h | ⟨e, he, _⟩
      · exact hlasting.eventually h (by simp)
      · exact absurd hprecede he.not_canPrecede
  · intro hnot
    rcases validate_merge hleft hright with h | ⟨e, he, h⟩
    · exact absurd (canPrecede_of_validate h) hnot
    · exact ⟨e, he, hlasting.eventually h (by simp)⟩

/-- A number `n` and a vector of this length. -/
def sizedVector : Context :=
  .ofOldestFirst [(⟨"n"⟩, .const ⟨"nat"⟩), (⟨"v"⟩, .app (.const ⟨"vec"⟩) (.var ⟨"n"⟩))]

/-- Two numbers `k` and `n`, and a vector of length `k`. -/
def twoSizes : Context :=
  .ofOldestFirst [(⟨"k"⟩, .const ⟨"nat"⟩), (⟨"u"⟩, .app (.const ⟨"vec"⟩) (.var ⟨"k"⟩)),
    (⟨"n"⟩, .const ⟨"nat"⟩)]

/-- The union of `twoSizes` with `sizedVector` is well formed. That of `sizedVector` with `twoSizes`
is refused: `v`, a vector of length `n`, comes first there. -/
theorem union_validated_sizedVector :
    (∃ u, twoSizes.union 20 sizedVector = ok u ∧
      ∀ᶠ fuel in atTop, u.validate fuel Environment.vectors.signature = ok ()) ∧
    ∃ u, sizedVector.union 20 twoSizes = ok u ∧ ∃ e, sizedVector.Displaced twoSizes e ∧
      ∀ᶠ fuel in atTop, u.validate fuel Environment.vectors.signature = fail e := by
  have hsized : sizedVector.validate 20 Environment.vectors.signature = ok () := by decide +kernel
  have htwo : twoSizes.validate 20 Environment.vectors.signature = ok () := by decide +kernel
  have hfirst : twoSizes.union 20 sizedVector = ok (twoSizes.merge sizedVector) := by
    decide +kernel
  have hsecond : sizedVector.union 20 twoSizes = ok (sizedVector.merge twoSizes) := by
    decide +kernel
  refine ⟨⟨_, hfirst, (union_validated 20 20 20 _ _ _ _ htwo hsized hfirst).1.mpr ?_⟩,
    _, hsecond, (union_validated 20 20 20 _ _ _ _ hsized htwo hsecond).2 ?_⟩
  · constructor
    · intro x A hx hnew y hfree
      have hindependent : ∀ entry ∈ twoSizes.newestFirst, sizedVector.contains entry.1 = false →
          ∀ y ∈ entry.2.freeVariables, sizedVector.contains y = false := by decide +kernel
      exact hindependent (x, A) hx hnew y ((Term.mem_freeVariables A y).mpr hfree)
    · -- There are no binders in the types.
      intro x B hx outer y s hbinds _
      have htypes : ∀ entry ∈ sizedVector.newestFirst, entry.2 = .const ⟨"nat"⟩ ∨
          entry.2 = .app (.const ⟨"vec"⟩) (.var ⟨"n"⟩) := by decide +kernel
      have hB : B = .const ⟨"nat"⟩ ∨ B = .app (.const ⟨"vec"⟩) (.var ⟨"n"⟩) := htypes (x, B) hx
      rcases hB with rfl | rfl
      · cases hbinds
      · cases hbinds with
        | head hbinds => cases hbinds
        | argument hbinds => cases hbinds
  · intro hprecede
    have hn := hprecede.independent ⟨"v"⟩ (.app (.const ⟨"vec"⟩) (.var ⟨"n"⟩)) (by decide)
      (by decide +kernel) ⟨"n"⟩ (by decide +kernel)
    exact absurd hn (by decide +kernel)

/-- A union need not be well formed. For `n : nat`, `v : vec n` and `n : nat` it is `v : vec n`,
`n : nat`, and for `x : nat` and `f : Π x : nat, nat` it is both declarations. Neither is accepted,
whatever the bound. -/
theorem union_refused :
    Environment.vectors.signature.validate 20 = ok () ∧
      (sizedVector.validate 20 Environment.vectors.signature = ok () ∧
        Context.validate 20 Environment.vectors.signature ⟨[(⟨"n"⟩, .const ⟨"nat"⟩)]⟩ = ok () ∧
        sizedVector.union 20 ⟨[(⟨"n"⟩, .const ⟨"nat"⟩)]⟩ =
          ok ⟨[(⟨"n"⟩, .const ⟨"nat"⟩), (⟨"v"⟩, .app (.const ⟨"vec"⟩) (.var ⟨"n"⟩))]⟩ ∧
        ∀ fuel, Context.validate fuel Environment.vectors.signature
          ⟨[(⟨"n"⟩, .const ⟨"nat"⟩), (⟨"v"⟩, .app (.const ⟨"vec"⟩) (.var ⟨"n"⟩))]⟩ ≠ ok ()) ∧
      Context.validate 20 Environment.vectors.signature ⟨[(⟨"x"⟩, .const ⟨"nat"⟩)]⟩ = ok () ∧
      Context.validate 20 Environment.vectors.signature
        ⟨[(⟨"f"⟩, .pi ⟨"x"⟩ (.const ⟨"nat"⟩) (.const ⟨"nat"⟩))]⟩ = ok () ∧
      Context.union 20 ⟨[(⟨"x"⟩, .const ⟨"nat"⟩)]⟩
        ⟨[(⟨"f"⟩, .pi ⟨"x"⟩ (.const ⟨"nat"⟩) (.const ⟨"nat"⟩))]⟩ =
        ok ⟨[(⟨"f"⟩, .pi ⟨"x"⟩ (.const ⟨"nat"⟩) (.const ⟨"nat"⟩)), (⟨"x"⟩, .const ⟨"nat"⟩)]⟩ ∧
      ∀ fuel, Context.validate fuel Environment.vectors.signature
        ⟨[(⟨"f"⟩, .pi ⟨"x"⟩ (.const ⟨"nat"⟩) (.const ⟨"nat"⟩)), (⟨"x"⟩, .const ⟨"nat"⟩)]⟩ ≠
          ok () := by
  refine ⟨by decide +kernel, ⟨by decide +kernel, by decide +kernel, by decide +kernel, ?_⟩,
    by decide +kernel, by decide +kernel, by decide +kernel, ?_⟩
  · intro fuel h
    have hn := (wellScoped_of_validate [(⟨"n"⟩, .const ⟨"nat"⟩)] h).free_declared ⟨"n"⟩
      (by decide +kernel)
    exact absurd hn (by decide +kernel)
  · intro fuel h
    have hx := ((wellScoped_of_validate [] h).binders_new [] ⟨"x"⟩ _ (.here _ _ _ _)).1
    exact absurd hx (by decide +kernel)

end Context

end LogicalFramework

import LogicalFramework.Proofs.Conversion
import LogicalFramework.Proofs.Sorting
import LogicalFramework.Proofs.SubjectReduction
import LogicalFramework.Validation

/-!
# Soundness of sorting

A sort that is found for a term in a validated environment is one that the typing rules derive.

* `Environment.derives_of_sortOf` — in an environment that declares families and kinds only, by
  induction on the term. A binder is opened by declaring its variable, and the derivation for the
  scope is closed again by renaming the variable to the bound one. This can be done because no
  declared sort mentions a variable that is not declared.
* `Environment.isAdmissible_of_validate` — a validated environment declares families and kinds only,
  by induction from the oldest declaration, with the first result at each step.
-/

namespace LogicalFramework

open Outcome

namespace Environment

/-- That an environment declares families and kinds only. -/
abbrev IsAdmissible (env : Environment) : Prop :=
  Admissible env.signature env.metas env.locals

/-! ## Declaring the variable of a binder -/

/-- A declared name is not a variable that is new to the context. -/
theorem ne_free_of_locals {env : Environment} {x : Variable} {n : Name} {A : Nameless}
    (hx : env.context.contains x = false) (hn : env.locals n = some A) : n ≠ .free x := by
  rintro rfl
  rw [Bindings.contains, Option.isSome_eq_false_iff, Option.isNone_iff_eq_none] at hx
  rw [locals, hx] at hn
  exact absurd hn (by simp)

theorem locals_extend_self (env : Environment) (x : Variable) (A : Term) :
    (env.extend x A).locals (.free x) = some A.nameless := by
  rw [locals, extend, Bindings.lookup_add, if_pos rfl]
  rfl

theorem locals_extend_of_ne (env : Environment) {x : Variable} (A : Term) {n : Name}
    (hn : n ≠ .free x) : (env.extend x A).locals n = env.locals n := by
  cases n with
  | bound i => rfl
  | free y =>
    have hxy : x ≠ y := fun he => hn (he ▸ rfl)
    rw [locals, extend, Bindings.lookup_add, if_neg hxy]
    rfl

theorem IsAdmissible.extend {env : Environment} (h : env.IsAdmissible) {x : Variable} {A : Term}
    (hx : env.context.contains x = false) (hA : env.Derives A .type) :
    (env.extend x A).IsAdmissible := by
  refine h.add (A := A) ⟨_, Or.inl rfl, hA⟩ (fun _ _ hc => hc) (fun _ _ hm => hm) ?_
    (fun _ hB => Or.inl hB) ?_
  · intro n B hn
    rw [locals_extend_of_ne env A (ne_free_of_locals hx hn)]
    exact hn
  · intro n B hn
    by_cases hne : n = .free x
    · rw [hne, locals_extend_self] at hn
      exact Or.inr (Option.some.inj hn).symm
    · rw [locals_extend_of_ne env A hne] at hn
      exact Or.inl hn

/-- Only declared variables occur in a family or a kind, so a new one can be bound in it without
effect. -/
theorem rename_close_of_isFamilyOrKind {env : Environment} {x : Variable} {A : Nameless}
    (hx : env.context.contains x = false)
    (hA : IsFamilyOrKind env.signature env.metas env.locals A) :
    A.rename (.close x) = A.shift := by
  obtain ⟨S, _, hA⟩ := hA
  rw [Nameless.shift, Nameless.rename_eq_subst, Nameless.rename_eq_subst]
  apply Nameless.subst_congr
  intro n hn
  obtain ⟨B, hB⟩ := hA.exists_of_mentions hn
  rw [Name.close, if_neg (ne_free_of_locals hx hB)]

/-- A derivation with the variable of a binder declared is one for the scope of the binder. -/
theorem IsAdmissible.close {env : Environment} (h : env.IsAdmissible) {x : Variable} {A s : Term}
    {S : TermSort} (hx : env.context.contains x = false) (hA : env.Derives A .type)
    (hs : (env.extend x A).Derives s S) :
    HasSort env.signature env.metas (env.locals.push A.nameless) (s.nameless.rename (.close x))
      (S.nameless.rename (.close x)) := by
  apply HasSort.rename hs
  constructor
  · rintro y ⟨B, hy, hB⟩
    -- The sort that mentions `y` is well-sorted, so `y` is declared, as `x` is not.
    have hmentions : B.nameless.Mentions (.free y) := by
      rw [Term.nameless_eq_namelessIn, Term.mentions_namelessIn]
      exact ⟨y, hy, rfl⟩
    obtain ⟨U, _, hBU⟩ := h.global B hB
    obtain ⟨C, hC⟩ := hBU.exists_of_mentions hmentions
    rw [Name.close, if_neg (ne_free_of_locals hx hC)]
    rfl
  · intro n B hn
    by_cases hne : n = .free x
    · rw [hne, locals_extend_self] at hn
      cases hn
      rw [rename_close_of_isFamilyOrKind hx ⟨_, Or.inl rfl, hA⟩, hne, Name.close, if_pos rfl]
      rfl
    · rw [locals_extend_of_ne env A hne] at hn
      rw [rename_close_of_isFamilyOrKind hx (h.declared n B hn), Name.close, if_neg hne,
        Locals.push, Name.under_succ, hn]
      rfl

/-! ## Sorting -/

/-- A family or a kind without a redex that the test finds equal to `Type` is `Type`. -/
theorem eq_type_of_equal {env : Environment} {fuel : Nat} {T : Term} (hT : T.IsNormal)
    (hsort : IsFamilyOrKind env.signature env.metas env.locals T.nameless)
    (h : T.equal fuel .type = some true) : T = .type := by
  rcases Conversion.eq_type_or_isLambda hT h with rfl | hlam
  · rfl
  · -- An abstraction has a product as its sort, and neither `Type` nor `Kind` is one.
    obtain ⟨S, hS, hT⟩ := hsort
    cases T with
    | bind q x A s =>
      cases q with
      | pi => exact absurd hlam (by simp [Term.isLambda])
      | lam =>
        rw [Term.nameless_bind] at hT
        obtain ⟨B, C, rfl, hconv, _, _⟩ := hT.lam_inv
        rcases hS with hS | hS
        · cases hS
          exact absurd hconv not_convertible_pi_type
        · exact absurd hS (by simp)
    | _ => exact absurd hlam (by simp [Term.isLambda])

/-- A term whose sort the test finds equal to `Type` is a family of sort `Type`. -/
theorem derives_type_of_equal {env : Environment} {fuel : Nat} {t T : Term}
    (h : env.Derives t (.term T)) (hT : T.equal fuel .type = some true) : env.Derives t .type :=
  HasSort.conv h (.type _) (Or.inr rfl) (Term.convertible_of_equal hT)

/-- A sort that is found in an admissible environment is derived by the typing rules. -/
theorem derives_of_sortOf {env : Environment} (henv : env.IsAdmissible) {fuel : Nat} {t : Term}
    {S : TermSort} (h : env.sortOf fuel t = ok S) : env.Derives t S := by
  induction t generalizing env S with
  | type =>
    cases h
    exact HasSort.type _
  | const c =>
    obtain ⟨A, T, hA, hT, rfl⟩ := sortOf_const h
    exact (HasSort.const hA).reduces_sort henv (Term.normalForm_reduces hT)
  | var x =>
    obtain ⟨A, T, hA, hT, rfl⟩ := sortOf_var h
    have hx : env.locals (.free x) = some A.nameless := by
      rw [locals, hA]
      rfl
    exact (HasSort.name hx).reduces_sort henv (Term.normalForm_reduces hT)
  | metaVar m =>
    obtain ⟨A, T, hA, hT, rfl⟩ := sortOf_metaVar h
    exact (HasSort.metaVar hA).reduces_sort henv (Term.normalForm_reduces hT)
  | app f a ihf iha =>
    obtain ⟨F, x, A, B, A', T, hf, hF, ha, hequal, hT, rfl⟩ := sortOf_app h
    have hpi : env.Derives f (.term (.pi x A B)) :=
      (ihf henv hf).reduces_sort henv (Term.whnf_reduces hF)
    rw [Derives, TermSort.nameless, Term.nameless_bind] at hpi
    -- The product is a family or a kind, so its domain is a type and can be converted to.
    obtain ⟨_, _, hfam⟩ := hpi.isFamilyOrKind henv rfl
    have harg : env.Derives a (.term A) :=
      HasSort.conv (iha henv ha) hfam.pi_inv.1 (Or.inl rfl) (Term.convertible_of_equal hequal)
    have happ := HasSort.app hpi harg
    rw [Term.instantiate_close_nameless] at happ
    exact happ.reduces_sort henv (Term.normalForm_reduces hT)
  | bind q x A s ihA ihs =>
    obtain ⟨hx, ⟨A', hsortA, hA'⟩, R, hsortR, hcases⟩ := sortOf_bind h
    have hA : env.Derives A .type := derives_type_of_equal (ihA henv hsortA) hA'
    have hext := henv.extend hx hA
    have hs := ihs hext hsortR
    have hscope := henv.close hx hA hs
    unfold Derives
    rw [Term.nameless_bind]
    rcases hcases with ⟨rfl, hR, hS⟩ | ⟨rfl, B, T, rfl, hT, rfl⟩
    · cases R with
      | kind =>
        cases hS
        exact HasSort.pi hA hscope (Or.inr rfl)
      | term T =>
        -- The sort of the scope is `Type` itself, so it does not mention the variable.
        have htype : T = .type :=
          eq_type_of_equal (sortOf_isNormal hsortR) (hs.isFamilyOrKind hext rfl) hR
        subst htype
        obtain ⟨T', hT', rfl⟩ := TermSort.normalForm_eq_some hS
        have hT'type : T' = .type := by
          cases fuel with
          | zero => exact absurd hT' (by simp [Term.normalForm])
          | succ fuel => exact (Option.some.inj hT').symm
        subst hT'type
        exact HasSort.pi hA hscope (Or.inl rfl)
    · have hlam := HasSort.lam hA hscope
      have hred := Term.normalForm_reduces hT
      rw [Term.nameless_bind] at hred
      exact hlam.reduces_sort henv hred

/-- What is checked against `Type` in an admissible environment has the sort `Type`. -/
theorem derives_type_of_check {env : Environment} (henv : env.IsAdmissible) {fuel : Nat} {t : Term}
    {u : Unit} (h : env.check fuel t .type = ok u) : env.Derives t .type := by
  rw [check, bind_eq_ok_iff] at h
  obtain ⟨S, hS, h⟩ := h
  obtain ⟨T, rfl, hT⟩ := expectSort_type_eq_ok h
  exact derives_type_of_equal (derives_of_sortOf henv hS) hT

end Environment

/-! ## Validated declarations -/

/-- Induction over validated declarations, from the oldest to the newest. -/
theorem Bindings.validate_induction {κ : Type} [DecidableEq κ]
    {admitted : Bindings κ Term → Term → Outcome SortError Unit} {P : Bindings κ Term → Prop}
    (hempty : P .empty)
    (hadd : ∀ older key sort, P older → older.contains key = false →
      admitted older sort = ok () → P (older.add key sort))
    {b : Bindings κ Term} (h : b.validate admitted = ok ()) : P b := by
  obtain ⟨entries⟩ := b
  unfold Bindings.validate at h
  induction entries with
  | nil => exact hempty
  | cons entry older ih =>
    obtain ⟨key, sort⟩ := entry
    rw [Bindings.validate.go] at h
    split at h
    · exact absurd h (by simp)
    · rename_i hkey
      rw [bind_eq_ok_iff] at h
      obtain ⟨_, hsort, hgo⟩ := h
      rw [mapFail_eq_ok_iff] at hsort
      exact hadd ⟨older⟩ key sort (ih hgo) (by simpa using hkey) hsort

theorem Signature.isAdmissible_of_validate {fuel : Nat} {sig : Signature}
    (h : sig.validate fuel = ok ()) : (Environment.ofSignature sig).IsAdmissible := by
  refine Bindings.validate_induction (P := fun sig => (Environment.ofSignature sig).IsAdmissible)
    ?_ ?_ h
  · constructor
    · rintro A (⟨c, hc⟩ | ⟨m, hm⟩)
      · exact absurd hc (by simp [Environment.ofSignature, Signature.sortOf?])
      · exact absurd hm (by simp [Environment.ofSignature])
    · intro n A hn
      cases n with
      | free x => exact absurd hn (by simp [Environment.locals, Environment.ofSignature])
      | bound i => exact absurd hn (by simp [Environment.locals])
  · intro older key sort hold hkey hadmitted
    rw [bind_eq_ok_iff] at hadmitted
    obtain ⟨S, hS, hfam⟩ := hadmitted
    rw [expectFamilyOrKind, require_eq_ok_iff] at hfam
    have hsort := Environment.derives_of_sortOf hold hS
    have hA : IsFamilyOrKind older .empty (Environment.ofSignature older).locals sort.nameless := by
      cases S with
      | kind => exact ⟨_, Or.inr rfl, hsort⟩
      | term T => exact ⟨_, Or.inl rfl, Environment.derives_type_of_equal hsort hfam⟩
    refine hold.add hA (fun c B hc => Bindings.lookup_add_of_lookup hkey hc) (fun _ _ hm => hm)
      (fun _ _ hn => hn) ?_ (fun _ _ hn => Or.inl hn)
    rintro B (⟨c, hc⟩ | hm)
    · exact (Bindings.lookup_or_eq_of_lookup_add hc).imp (fun hold => Or.inl ⟨c, hold⟩) id
    · exact Or.inl (Or.inr hm)

theorem Context.isAdmissible_of_validate {fuel : Nat} {sig : Signature} {ctx : Context}
    (hsig : (Environment.ofSignature sig).IsAdmissible) (h : ctx.validate fuel sig = ok ()) :
    Environment.IsAdmissible ⟨sig, ctx, .empty⟩ := by
  refine Bindings.validate_induction
    (P := fun ctx => Environment.IsAdmissible ⟨sig, ctx, .empty⟩) hsig ?_ h
  intro older x A hold hx hcheck
  exact hold.extend hx (Environment.derives_type_of_check hold hcheck)

theorem MetaContext.isAdmissible_of_validate {fuel : Nat} {sig : Signature} {ctx : Context}
    {metas : MetaContext} (hctx : Environment.IsAdmissible ⟨sig, ctx, .empty⟩)
    (h : metas.validate fuel sig ctx = ok ()) : Environment.IsAdmissible ⟨sig, ctx, metas⟩ := by
  refine Bindings.validate_induction
    (P := fun metas => Environment.IsAdmissible ⟨sig, ctx, metas⟩) hctx ?_ h
  intro older m A hold hm hcheck
  have hA := Environment.derives_type_of_check hold hcheck
  refine hold.add (A := A) ⟨_, Or.inl rfl, hA⟩ (fun _ _ hc => hc)
    (fun k B hk => Bindings.lookup_add_of_lookup hm hk) (fun _ _ hn => hn) ?_
    (fun _ _ hn => Or.inl hn)
  rintro B (hc | ⟨k, hk⟩)
  · exact Or.inl (Or.inl hc)
  · exact (Bindings.lookup_or_eq_of_lookup_add hk).imp (fun hold => Or.inr ⟨k, hold⟩) id

namespace Environment

/-- A validated environment declares families and kinds only. -/
theorem isAdmissible_of_validate {env : Environment} {fuel : Nat} (h : env.validate fuel = ok ()) :
    env.IsAdmissible := by
  rw [validate, bind_eq_ok_iff] at h
  obtain ⟨_, hsig, h⟩ := h
  rw [bind_eq_ok_iff] at h
  obtain ⟨_, hctx, hmetas⟩ := h
  rw [mapFail_eq_ok_iff] at hsig hctx hmetas
  have henv := Signature.isAdmissible_of_validate hsig
  exact MetaContext.isAdmissible_of_validate (Context.isAdmissible_of_validate henv hctx) hmetas

/-- **Soundness of sorting.** In a validated environment, every sort that is found for a term is
derived by the typing rules. -/
theorem sortOf_sound (fuel fuel' : Nat) (env : Environment) (t : Term) (S : TermSort)
    (henv : env.validate fuel = ok ()) (h : env.sortOf fuel' t = ok S) : env.Derives t S :=
  derives_of_sortOf (isAdmissible_of_validate henv) h

/-- Vectors over a type of numbers. The variable `v` is declared as a vector of length
`(λ n, n) 3`, and the meta-variable `m` takes vectors of length `3`. -/
def vectors : Environment where
  signature := ⟨[(.constant ⟨"vec"⟩, .pi ⟨"n"⟩ (.const ⟨"nat"⟩) .type),
    (.naturals, .const ⟨"nat"⟩), (.constant ⟨"nat"⟩, .type)]⟩
  context := ⟨[(⟨"v"⟩, .app (.const ⟨"vec"⟩)
    (.app (.lam ⟨"n"⟩ (.const ⟨"nat"⟩) (.var ⟨"n"⟩)) (.const (.natural 3))))]⟩
  metas := ⟨[(⟨"m"⟩, .pi ⟨"w"⟩ (.app (.const ⟨"vec"⟩) (.const (.natural 3))) (.const ⟨"nat"⟩))]⟩

/-- The identity on vectors of length `m v`. -/
theorem sortOf_sound_vectors :
    vectors.validate 20 = ok () ∧
      vectors.Derives
        (.lam ⟨"u"⟩ (.app (.const ⟨"vec"⟩) (.app (.metaVar ⟨"m"⟩) (.var ⟨"v"⟩))) (.var ⟨"u"⟩))
        (.term (.pi ⟨"u"⟩ (.app (.const ⟨"vec"⟩) (.app (.metaVar ⟨"m"⟩) (.var ⟨"v"⟩)))
          (.app (.const ⟨"vec"⟩) (.app (.metaVar ⟨"m"⟩) (.var ⟨"v"⟩))))) := by
  have hvalid : vectors.validate 20 = ok () := by decide +kernel
  exact ⟨hvalid, sortOf_sound 20 20 _ _ _ hvalid (by decide +kernel)⟩

end Environment

end LogicalFramework

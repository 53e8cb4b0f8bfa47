import LogicalFramework.Proofs.EtaReduction
import LogicalFramework.Proofs.Validation

/-!
# Validation reports the newest fault

Several declarations may be faulty, and one declaration in several ways. Each is judged among the
declarations older than it, whether these are in order or not. Validation accepts a list exactly if
every declaration is in order, and what it reports otherwise is the fault of the newest one that is
not. A declaration is its key and its sort together with the older declarations, so the declarations
of a list are the suffixes of the list, newest first.

* `SortRequirement` — what declared sorts are asked for: a sort `Type`, or one that is `Type` or
  `Kind`, where `Type` is meant up to η;
* `SortRequirement.type_decidedBy` — the comparison with `Type` decides this;
* `Bindings.AllInOrder`, `Bindings.NewestFault` — the two verdicts on a list;
* `Bindings.reportsNewest` — validation gives the verdict, by induction from the oldest declaration;
* `Environment.validate_reports_newest` — the same for signatures, contexts and meta-contexts, that
  environments report the first fault of the three, and that η makes no difference to what is
  accepted among accepted declarations.
-/

namespace LogicalFramework

open Filter Outcome

/-! ## Outcomes for large bounds -/

/-- A computation that has one value for all large enough bounds has the properties of the value. -/
theorem eventually_iff_of_settled {α : Type} {f : Nat → α} {a : α}
    (h : ∀ᶠ fuel in atTop, f fuel = a) (P : α → Prop) : (∀ᶠ fuel in atTop, P (f fuel)) ↔ P a := by
  rw [eventually_congr (h.mono fun fuel hfuel => by rw [hfuel]), eventually_const]

namespace Outcome

variable {ε ε' α β : Type} {f : Nat → Outcome ε α} {g : Nat → α → Outcome ε β}

/-- That larger bounds keep the answer or the failure of a bounded computation. -/
def Lasting (f : Nat → Outcome ε α) : Prop :=
  ∀ m n, m ≤ n → (f m).Kept (f n)

namespace Lasting

theorem eventually (hf : Lasting f) {n : Nat} {o : Outcome ε α} (h : f n = o)
    (ho : o ≠ exhausted) : ∀ᶠ fuel in atTop, f fuel = o := by
  refine eventually_atTop.mpr ⟨n, fun m hle => ?_⟩
  rcases hf n m hle with hexhausted | hkept
  · exact absurd (h.symm.trans hexhausted) ho
  · exact hkept.trans h

theorem mapFail (hf : Lasting f) (g : ε → ε') : Lasting fun fuel => (f fuel).mapFail g :=
  fun m n hle => (hf m n hle).mapFail g

theorem mapFail_fail_iff (hf : Lasting f) {g : ε → ε'} {e' : ε'} :
    (∀ᶠ fuel in atTop, (f fuel).mapFail g = fail e') ↔
      ∃ e, (∀ᶠ fuel in atTop, f fuel = fail e) ∧ g e = e' := by
  simp only [mapFail_eq_fail_iff]
  constructor
  · intro h
    obtain ⟨n, e, hn, he⟩ := h.exists
    exact ⟨e, hf.eventually hn (by simp), he⟩
  · rintro ⟨e, h, he⟩
    exact h.mono fun fuel hfuel => ⟨e, hfuel, he⟩

theorem bind_ok_iff (hf : Lasting f) {b : β} :
    (∀ᶠ fuel in atTop, (f fuel >>= g fuel) = ok b) ↔
      ∃ a, (∀ᶠ fuel in atTop, f fuel = ok a) ∧ ∀ᶠ fuel in atTop, g fuel a = ok b := by
  simp only [bind_eq_ok_iff]
  constructor
  · intro h
    obtain ⟨n, a, hn, _⟩ := h.exists
    have hfa := hf.eventually hn (by simp)
    refine ⟨a, hfa, ?_⟩
    filter_upwards [h, hfa] with fuel ⟨a', ha', hg⟩ ha
    cases ha.symm.trans ha'
    exact hg
  · rintro ⟨a, hfa, hga⟩
    filter_upwards [hfa, hga] with fuel ha hg
    exact ⟨a, ha, hg⟩

/-- Two computations, one after the other, fail if the first fails, or if it answers and the second
fails. -/
theorem bind_fail_iff (hf : Lasting f) {e : ε} :
    (∀ᶠ fuel in atTop, (f fuel >>= g fuel) = fail e) ↔
      (∀ᶠ fuel in atTop, f fuel = fail e) ∨
        ∃ a, (∀ᶠ fuel in atTop, f fuel = ok a) ∧ ∀ᶠ fuel in atTop, g fuel a = fail e := by
  simp only [bind_eq_fail_iff]
  constructor
  · intro h
    obtain ⟨n, hn | ⟨a, hn, _⟩⟩ := h.exists
    · exact Or.inl (hf.eventually hn (by simp))
    · have hfa := hf.eventually hn (by simp)
      refine Or.inr ⟨a, hfa, ?_⟩
      filter_upwards [h, hfa] with fuel hfail ha
      rcases hfail with hfail | ⟨a', ha', hg⟩
      · exact absurd (ha.symm.trans hfail) (by simp)
      · cases ha.symm.trans ha'
        exact hg
  · rintro (h | ⟨a, hfa, hga⟩)
    · exact h.mono fun fuel hfuel => Or.inl hfuel
    · filter_upwards [hfa, hga] with fuel ha hg
      exact Or.inr ⟨a, ha, hg⟩

end Lasting

end Outcome

/-! ## Requirements on declared sorts -/

/-- That a sort is a term that reduces to `Type` by η, such as `Type` or `λ x : A, Type x`. -/
def TermSort.IsTypeUpToEta (S : TermSort) : Prop :=
  ∃ T, S = .term T ∧ Reduces Eta T.nameless .type

/-- What the sort of a declared sort must be. -/
structure SortRequirement where
  /-- The sorts that meet the requirement. -/
  Fits : TermSort → Prop
  /-- The error if the sort of a term does not. -/
  misfit : Term → TermSort → SortError

namespace SortRequirement

/-- The sort must be `Type`, up to η. -/
def type : SortRequirement where
  Fits := TermSort.IsTypeUpToEta
  misfit t S := .mismatch t .type S

/-- The sort must be `Type`, up to η, or `Kind`. -/
def familyOrKind : SortRequirement where
  Fits S := S = .kind ∨ S.IsTypeUpToEta
  misfit t S := .notFamilyOrKind t S

/-- The sort must be `Type` itself. -/
def exactlyType : SortRequirement where
  Fits S := S = .type
  misfit := type.misfit

/-- The sort must be `Type` itself or `Kind`. -/
def exactlyTypeOrKind : SortRequirement where
  Fits S := S = .kind ∨ S = .type
  misfit := familyOrKind.misfit

/-- That a test with a bound decides a requirement, for sorts without a redex. -/
structure DecidedBy (requirement : SortRequirement) (test : Nat → TermSort → Option Bool) :
    Prop where
  /-- Larger bounds keep the result of the test. -/
  kept : ∀ {m n}, m ≤ n → ∀ S, Kept (test m S) (test n S)
  /-- The test answers, with the truth. -/
  decides : ∀ {S : TermSort}, S.IsNormal →
    ∃ met, (∀ᶠ fuel in atTop, test fuel S = some met) ∧ (met = true ↔ requirement.Fits S)

/-- Comparison with `Type` decides whether a sort is `Type` up to η. -/
theorem type_decidedBy : type.DecidedBy fun fuel S => S.equal fuel .type where
  kept := fun hle S => TermSort.equal_kept hle S .type
  decides := by
    intro S hS
    have htype : TermSort.type.IsNormal := trivial
    obtain ⟨met, hmet⟩ := hS.exists_equal htype
    refine ⟨met, hmet, ?_⟩
    rw [← Option.some.injEq, ← eventually_iff_of_settled hmet (· = some true)]
    cases S with
    | kind =>
      refine iff_of_false (fun h => ?_) ?_
      · obtain ⟨_, hfuel⟩ := h.exists
        exact absurd hfuel (by simp [TermSort.equal, TermSort.type])
      · rintro ⟨T, hT, _⟩
        exact absurd hT (by simp)
    | term T =>
      refine (Term.equal_type_iff_reduces hS).trans ⟨fun h => ⟨T, rfl, h⟩, ?_⟩
      rintro ⟨_, hT, h⟩
      cases hT
      exact h

theorem familyOrKind_decidedBy :
    familyOrKind.DecidedBy fun fuel S => S.classifiesFamilyOrKind fuel where
  kept := fun hle S => TermSort.classifiesFamilyOrKind_kept hle S
  decides := by
    intro S hS
    cases S with
    | kind => exact ⟨true, .of_forall fun _ => rfl, by simp [familyOrKind]⟩
    | term T =>
      obtain ⟨met, hmet, hfits⟩ := type_decidedBy.decides hS
      exact ⟨met, hmet, hfits.trans ⟨Or.inr, fun h => h.resolve_left (by simp)⟩⟩

/-- That two requirements agree on the sorts that terms are given in admissible environments. -/
def AgreesWith (requirement requirement' : SortRequirement) : Prop :=
  ∀ {env : Environment} {fuel : Nat} {t : Term} {S : TermSort}, env.IsAdmissible →
    env.sortOf fuel t = ok S → (requirement.Fits S ↔ requirement'.Fits S)

/-- An expansion of `Type` is an abstraction, and no abstraction is a family or a kind. -/
theorem type_agreesWith_exactlyType : type.AgreesWith exactlyType := by
  intro env fuel t S henv h
  constructor
  · rintro ⟨T, rfl, hη⟩
    have hT := Environment.isNormal_of_sortOf h
    obtain ⟨bound, hbound⟩ := ((Term.equal_type_iff_reduces hT).mpr hη).exists
    have hfamily := (Environment.derives_of_sortOf henv h).isFamilyOrKind henv rfl
    exact congrArg TermSort.term (Environment.eq_type_of_equal hT hfamily hbound)
  · rintro rfl
    exact ⟨_, rfl, .refl⟩

theorem familyOrKind_agreesWith_exactlyTypeOrKind :
    familyOrKind.AgreesWith exactlyTypeOrKind :=
  fun henv h => or_congr_right (type_agreesWith_exactlyType henv h)

end SortRequirement

namespace Environment

variable (env : Environment) (requirement : SortRequirement)

/-- That a term is given a sort that meets a requirement. -/
def Admits (t : Term) : Prop :=
  ∃ S, (∀ᶠ fuel in atTop, env.sortOf fuel t = ok S) ∧ requirement.Fits S

/-- Why a term is not given a sort that meets a requirement: because it is given none, or because
the one that it is given does not meet it. -/
inductive Rejects (t : Term) : SortError → Prop where
  | unsorted {e : SortError} (h : ∀ᶠ fuel in atTop, env.sortOf fuel t = fail e) : Rejects t e
  | misfit {S : TermSort} (h : ∀ᶠ fuel in atTop, env.sortOf fuel t = ok S)
      (hS : ¬ requirement.Fits S) : Rejects t (requirement.misfit t S)

/-- Checks with a test that the sort of a term meets a requirement. -/
def checkRequirement (test : Nat → TermSort → Option Bool) (fuel : Nat) (t : Term) :
    Outcome SortError Unit := do
  let S ← env.sortOf fuel t
  require (requirement.misfit t S) (test fuel S)

variable {env requirement} {test : Nat → TermSort → Option Bool} {t : Term}

theorem lasting_sortOf (env : Environment) (t : Term) : Lasting fun fuel => env.sortOf fuel t :=
  fun _ _ hle => sortOf_kept hle env t

theorem lasting_checkRequirement (env : Environment) (htest : requirement.DecidedBy test)
    (t : Term) : Lasting fun fuel => env.checkRequirement requirement test fuel t :=
  fun m n hle => .bind (lasting_sortOf env t m n hle) fun S => .require _ (htest.kept hle S)

/-- The test of a sort that a term is given decides the requirement. -/
theorem decides_of_sortOf (htest : requirement.DecidedBy test) {S : TermSort}
    (h : ∀ᶠ fuel in atTop, env.sortOf fuel t = ok S) :
    ∃ met, (∀ᶠ fuel in atTop, test fuel S = some met) ∧ (met = true ↔ requirement.Fits S) := by
  obtain ⟨fuel, hfuel⟩ := h.exists
  exact htest.decides (isNormal_of_sortOf hfuel)

theorem checkRequirement_ok_iff (htest : requirement.DecidedBy test) :
    (∀ᶠ fuel in atTop, env.checkRequirement requirement test fuel t = ok ()) ↔
      env.Admits requirement t := by
  unfold checkRequirement Admits
  rw [(lasting_sortOf env t).bind_ok_iff]
  refine exists_congr fun S => and_congr_right fun hS => ?_
  obtain ⟨met, hmet, hfits⟩ := decides_of_sortOf htest hS
  rw [eventually_iff_of_settled hmet fun o => require (requirement.misfit t S) o = ok (),
    require_eq_ok_iff, Option.some.injEq, hfits]

theorem checkRequirement_fail_iff (htest : requirement.DecidedBy test) {e : SortError} :
    (∀ᶠ fuel in atTop, env.checkRequirement requirement test fuel t = fail e) ↔
      env.Rejects requirement t e := by
  have hrequire {S : TermSort} (hS : ∀ᶠ fuel in atTop, env.sortOf fuel t = ok S) :
      (∀ᶠ fuel in atTop, require (requirement.misfit t S) (test fuel S) = fail e) ↔
        ¬ requirement.Fits S ∧ requirement.misfit t S = e := by
    obtain ⟨met, hmet, hfits⟩ := decides_of_sortOf htest hS
    rw [eventually_iff_of_settled hmet fun o => require (requirement.misfit t S) o = fail e,
      ← hfits]
    cases met <;> simp [require]
  unfold checkRequirement
  rw [(lasting_sortOf env t).bind_fail_iff]
  constructor
  · rintro (h | ⟨S, hS, h⟩)
    · exact .unsorted h
    · obtain ⟨hmisfit, rfl⟩ := (hrequire hS).mp h
      exact .misfit hS hmisfit
  · intro h
    cases h with
    | unsorted h => exact Or.inl h
    | misfit hS hmisfit => exact Or.inr ⟨_, hS, (hrequire hS).mpr ⟨hmisfit, rfl⟩⟩

/-- A term on which sorting answers is given a sort that meets a requirement, or there is an error.
-/
theorem admits_or_rejects (requirement : SortRequirement)
    (h : Answers fun fuel => env.sortOf fuel t) :
    env.Admits requirement t ∨ ∃ e, env.Rejects requirement t e := by
  obtain ⟨o, ho, h⟩ := h
  cases o with
  | ok S =>
    by_cases hS : requirement.Fits S
    · exact Or.inl ⟨S, h, hS⟩
    · exact Or.inr ⟨_, .misfit h hS⟩
  | fail e => exact Or.inr ⟨e, .unsorted h⟩
  | exhausted => exact absurd rfl ho

end Environment

/-! ## Verdicts on a list of declarations -/

namespace Bindings

variable {κ : Type} [DecidableEq κ] (environment : Bindings κ Term → Environment)
  (requirement : SortRequirement)

/-- That a declaration is in order: no older one has its key, and in the environment of the older
ones its sort is given a sort that meets the requirement. -/
def InOrder (older : Bindings κ Term) (key : κ) (sort : Term) : Prop :=
  older.contains key = false ∧ (environment older).Admits requirement sort

/-- What is wrong with a declaration. A second declaration of a key is this fault and no other. -/
inductive FaultOf (older : Bindings κ Term) (key : κ) (sort : Term) :
    DeclarationError κ → Prop where
  | redeclared (hkey : older.contains key = true) : FaultOf older key sort (.redeclared key)
  | illSorted {cause : SortError} (hkey : older.contains key = false)
      (hsort : (environment older).Rejects requirement sort cause) :
      FaultOf older key sort (.illSorted key cause)

/-- That every declaration is in order. -/
def AllInOrder (b : Bindings κ Term) : Prop :=
  ∀ key sort older, (key, sort) :: older <:+ b.newestFirst →
    InOrder environment requirement ⟨older⟩ key sort

/-- The fault of the newest declaration that is not in order: those that are newer than it are. -/
def NewestFault (b : Bindings κ Term) (e : DeclarationError κ) : Prop :=
  ∃ key sort older, (key, sort) :: older <:+ b.newestFirst ∧
    FaultOf environment requirement ⟨older⟩ key sort e ∧
    ∀ key' sort' older', (key', sort') :: older' <:+ b.newestFirst →
      (key, sort) :: older <:+ older' → InOrder environment requirement ⟨older'⟩ key' sort'

/-- That a validation gives the verdict: it accepts a list in which every declaration is in order
and reports the newest fault otherwise. If sorting answers on the declared sorts that are to be
judged, one of the two is the case. -/
structure ReportsNewest (validate : Nat → Outcome (DeclarationError κ) Unit) (b : Bindings κ Term) :
    Prop where
  /-- What is accepted. -/
  accepted : (∀ᶠ fuel in atTop, validate fuel = ok ()) ↔ AllInOrder environment requirement b
  /-- What is reported. -/
  reported : ∀ e, (∀ᶠ fuel in atTop, validate fuel = fail e) ↔
    NewestFault environment requirement b e
  /-- That there is a verdict. -/
  judged : (∀ key sort older, (key, sort) :: older <:+ b.newestFirst →
      (mk older).contains key = false →
      Answers fun fuel => (environment ⟨older⟩).sortOf fuel sort) →
    AllInOrder environment requirement b ∨ ∃ e, NewestFault environment requirement b e

variable {environment requirement} {test : Nat → TermSort → Option Bool} {key : κ} {sort : Term}
  {older : List (κ × Term)} {e : DeclarationError κ}

/-! ### One more declaration -/

theorem allInOrder_cons :
    AllInOrder environment requirement ⟨(key, sort) :: older⟩ ↔
      InOrder environment requirement ⟨older⟩ key sort ∧
        AllInOrder environment requirement ⟨older⟩ := by
  constructor
  · intro h
    refine ⟨h key sort older List.suffix_rfl, fun key' sort' older' hsuffix => ?_⟩
    exact h key' sort' older' (hsuffix.trans (List.suffix_cons _ _))
  · rintro ⟨hhead, holder⟩ key' sort' older' hsuffix
    rcases List.suffix_cons_iff.mp hsuffix with heq | hsuffix
    · cases heq
      exact hhead
    · exact holder key' sort' older' hsuffix

/-- The newest fault is that of the newest declaration, or this one is in order and it is that of
the older ones. -/
theorem newestFault_cons :
    NewestFault environment requirement ⟨(key, sort) :: older⟩ e ↔
      FaultOf environment requirement ⟨older⟩ key sort e ∨
        InOrder environment requirement ⟨older⟩ key sort ∧
          NewestFault environment requirement ⟨older⟩ e := by
  constructor
  · rintro ⟨key', sort', older', hsuffix, hfault, hnewer⟩
    rcases List.suffix_cons_iff.mp hsuffix with heq | hsuffix
    · cases heq
      exact Or.inl hfault
    · refine Or.inr ⟨hnewer key sort older List.suffix_rfl hsuffix, ?_⟩
      refine ⟨key', sort', older', hsuffix, hfault, fun key₁ sort₁ older₁ h₁ => ?_⟩
      exact hnewer key₁ sort₁ older₁ (h₁.trans (List.suffix_cons _ _))
  · rintro (hfault | ⟨hhead, key', sort', older', hsuffix, hfault, hnewer⟩)
    · refine ⟨key, sort, older, List.suffix_rfl, hfault, fun key₁ sort₁ older₁ h₁ h => ?_⟩
      -- There is no newer declaration in the list.
      have hle := h₁.length_le
      have hle' := h.length_le
      simp only [List.length_cons] at hle hle'
      omega
    · refine ⟨key', sort', older', hsuffix.trans (List.suffix_cons _ _), hfault, ?_⟩
      intro key₁ sort₁ older₁ h₁ h
      rcases List.suffix_cons_iff.mp h₁ with heq | h₁
      · cases heq
        exact hhead
      · exact hnewer key₁ sort₁ older₁ h₁ h

/-- Requirements that agree give the same verdict, if declarations in order make admissible
environments. -/
theorem allInOrder_congr {requirement' : SortRequirement}
    (hagree : requirement.AgreesWith requirement')
    (hadmissible : ∀ older, AllInOrder environment requirement older →
      (environment older).IsAdmissible) (b : Bindings κ Term) :
    AllInOrder environment requirement b ↔ AllInOrder environment requirement' b := by
  obtain ⟨entries⟩ := b
  induction entries with
  | nil => exact iff_of_true (fun _ _ _ h => absurd h (by simp)) fun _ _ _ h => absurd h (by simp)
  | cons entry older ih =>
    obtain ⟨key, sort⟩ := entry
    rw [allInOrder_cons, allInOrder_cons, ← ih]
    refine and_congr_left fun holder => and_congr_right fun _ => ?_
    refine exists_congr fun S => and_congr_right fun hS => ?_
    obtain ⟨_, hfuel⟩ := hS.exists
    exact hagree (hadmissible ⟨older⟩ holder) hfuel

/-! ### Validation -/

/-- The validation of declarations in environments made of the older ones. -/
def validateIn (environment : Bindings κ Term → Environment) (requirement : SortRequirement)
    (test : Nat → TermSort → Option Bool) (fuel : Nat) (b : Bindings κ Term) :
    Outcome (DeclarationError κ) Unit :=
  b.validate fun older sort => (environment older).checkRequirement requirement test fuel sort

theorem lasting_validateIn (environment : Bindings κ Term → Environment)
    (htest : requirement.DecidedBy test) (b : Bindings κ Term) :
    Lasting fun fuel => validateIn environment requirement test fuel b := by
  intro m n hle
  obtain ⟨entries⟩ := b
  induction entries with
  | nil => exact .refl _
  | cons entry older ih =>
    obtain ⟨key, sort⟩ := entry
    simp only [validateIn, validate_cons]
    split
    · exact .refl _
    · have hsort := Environment.lasting_checkRequirement (environment ⟨older⟩) htest sort
      exact .bind (hsort.mapFail (DeclarationError.illSorted key) m n hle) fun _ => ih

/-- The validation of a list with one more declaration: the declaration is judged first. -/
theorem validateIn_cons (fuel : Nat) :
    validateIn environment requirement test fuel ⟨(key, sort) :: older⟩ =
      if (mk older).contains key then .fail (.redeclared key)
      else (do
        ((environment ⟨older⟩).checkRequirement requirement test fuel sort).mapFail
          (.illSorted key)
        validateIn environment requirement test fuel ⟨older⟩) :=
  rfl

theorem validateIn_cons_ok_iff (htest : requirement.DecidedBy test) :
    (∀ᶠ fuel in atTop,
        validateIn environment requirement test fuel ⟨(key, sort) :: older⟩ = ok ()) ↔
      InOrder environment requirement ⟨older⟩ key sort ∧
        ∀ᶠ fuel in atTop, validateIn environment requirement test fuel ⟨older⟩ = ok () := by
  have hsort := Environment.lasting_checkRequirement (environment ⟨older⟩) htest sort
  simp only [validateIn_cons, InOrder]
  by_cases hkey : (mk older).contains key = true
  · simp only [hkey, if_true, eventually_const, reduceCtorEq, Bool.true_eq_false, false_and]
  · rw [Bool.not_eq_true] at hkey
    simp only [hkey, Bool.false_eq_true, if_false, true_and]
    rw [(hsort.mapFail (DeclarationError.illSorted key)).bind_ok_iff]
    simp only [mapFail_eq_ok_iff]
    rw [← Environment.checkRequirement_ok_iff htest]
    exact ⟨fun ⟨_, h⟩ => h, fun h => ⟨(), h⟩⟩

theorem validateIn_cons_fail_iff (htest : requirement.DecidedBy test) :
    (∀ᶠ fuel in atTop,
        validateIn environment requirement test fuel ⟨(key, sort) :: older⟩ = fail e) ↔
      FaultOf environment requirement ⟨older⟩ key sort e ∨
        InOrder environment requirement ⟨older⟩ key sort ∧
          ∀ᶠ fuel in atTop, validateIn environment requirement test fuel ⟨older⟩ = fail e := by
  have hsort := Environment.lasting_checkRequirement (environment ⟨older⟩) htest sort
  simp only [validateIn_cons, InOrder]
  by_cases hkey : (mk older).contains key = true
  · simp only [hkey, if_true, eventually_const, fail.injEq, Bool.true_eq_false, false_and, or_false]
    constructor
    · rintro rfl
      exact .redeclared hkey
    · intro h
      cases h with
      | redeclared _ => rfl
      | illSorted hnew _ => exact absurd (hkey.symm.trans hnew) (by simp)
  · rw [Bool.not_eq_true] at hkey
    simp only [hkey, Bool.false_eq_true, if_false, true_and]
    rw [(hsort.mapFail (DeclarationError.illSorted key)).bind_fail_iff, hsort.mapFail_fail_iff]
    simp only [mapFail_eq_ok_iff]
    refine or_congr ?_ ?_
    · constructor
      · rintro ⟨cause, hcause, rfl⟩
        exact .illSorted hkey ((Environment.checkRequirement_fail_iff htest).mp hcause)
      · intro h
        cases h with
        | redeclared hold => exact absurd (hkey.symm.trans hold) (by simp)
        | illSorted _ hcause =>
          exact ⟨_, (Environment.checkRequirement_fail_iff htest).mpr hcause, rfl⟩
    · rw [← Environment.checkRequirement_ok_iff htest]
      exact ⟨fun ⟨_, h⟩ => h, fun h => ⟨(), h⟩⟩

/-- **Validation gives the verdict on a list**, whatever the environments and the requirement, if
its test decides the requirement. -/
theorem reportsNewest (environment : Bindings κ Term → Environment)
    (htest : requirement.DecidedBy test) (b : Bindings κ Term) :
    ReportsNewest environment requirement
      (fun fuel => validateIn environment requirement test fuel b) b := by
  obtain ⟨entries⟩ := b
  induction entries with
  | nil =>
    have hall : AllInOrder environment requirement (⟨[]⟩ : Bindings κ Term) := by
      intro key sort older hsuffix
      exact absurd hsuffix (by simp)
    refine ⟨iff_of_true (.of_forall fun _ => rfl) hall, fun e => ?_, fun _ => Or.inl hall⟩
    refine iff_of_false (fun h => ?_) ?_
    · obtain ⟨_, hfail⟩ := h.exists
      exact absurd hfail (by simp [validateIn, validate, validate.go])
    · rintro ⟨key, sort, older, hsuffix, _⟩
      exact absurd hsuffix (by simp)
  | cons entry older ih =>
    obtain ⟨key, sort⟩ := entry
    constructor
    · rw [validateIn_cons_ok_iff htest, allInOrder_cons, ih.accepted]
    · intro e
      rw [validateIn_cons_fail_iff htest, newestFault_cons, ih.reported]
    · intro hanswers
      simp only [allInOrder_cons, newestFault_cons]
      by_cases hkey : (mk older).contains key = true
      · exact Or.inr ⟨_, Or.inl (.redeclared hkey)⟩
      rw [Bool.not_eq_true] at hkey
      have hsort := hanswers key sort older List.suffix_rfl hkey
      rcases Environment.admits_or_rejects requirement hsort with hadmits | ⟨cause, hcause⟩
      · have holder := ih.judged fun key' sort' older' hsuffix =>
          hanswers key' sort' older' (hsuffix.trans (List.suffix_cons _ _))
        rcases holder with hall | ⟨e, hfault⟩
        · exact Or.inl ⟨⟨hkey, hadmits⟩, hall⟩
        · exact Or.inr ⟨e, Or.inr ⟨⟨hkey, hadmits⟩, hfault⟩⟩
      · exact Or.inr ⟨_, Or.inl (.illSorted hkey hcause)⟩

/-- If what is accepted makes admissible environments, it may be judged by any requirement that
agrees with the one that is tested. -/
theorem accepted_iff_of_agreesWith {requirement' : SortRequirement}
    (htest : requirement.DecidedBy test) (hagree : requirement.AgreesWith requirement')
    (hadmissible : ∀ older fuel, validateIn environment requirement test fuel older = ok () →
      (environment older).IsAdmissible) (b : Bindings κ Term) :
    (∀ᶠ fuel in atTop, validateIn environment requirement test fuel b = ok ()) ↔
      AllInOrder environment requirement' b := by
  rw [(reportsNewest environment htest b).accepted]
  refine allInOrder_congr hagree (fun older h => ?_) b
  obtain ⟨fuel, hvalid⟩ := ((reportsNewest environment htest older).accepted.mpr h).exists
  exact hadmissible older fuel hvalid

end Bindings

/-! ## Environments -/

theorem Signature.lasting_validate (sig : Signature) : Lasting fun fuel => sig.validate fuel :=
  Bindings.lasting_validateIn Environment.ofSignature SortRequirement.familyOrKind_decidedBy sig

theorem Context.lasting_validate (sig : Signature) (ctx : Context) :
    Lasting fun fuel => ctx.validate fuel sig :=
  Bindings.lasting_validateIn (fun older => ⟨sig, older, .empty⟩) SortRequirement.type_decidedBy ctx

theorem MetaContext.lasting_validate (sig : Signature) (ctx : Context) (metas : MetaContext) :
    Lasting fun fuel => metas.validate fuel sig ctx :=
  Bindings.lasting_validateIn (fun older => ⟨sig, ctx, older⟩) SortRequirement.type_decidedBy metas

namespace Environment

/-- The first fault of an environment: of the signature, of the context if the signature is
accepted, and of the meta-context if both are. -/
inductive FirstFault (env : Environment) : EnvironmentError → Prop where
  | signature {e : DeclarationError SignatureKey}
      (h : ∀ᶠ fuel in atTop, env.signature.validate fuel = fail e) : FirstFault env (.signature e)
  | context {e : DeclarationError Variable}
      (hsig : ∀ᶠ fuel in atTop, env.signature.validate fuel = ok ())
      (h : ∀ᶠ fuel in atTop, Context.validate fuel env.signature env.context = fail e) :
      FirstFault env (.context e)
  | metas {e : DeclarationError MetaVariable}
      (hsig : ∀ᶠ fuel in atTop, env.signature.validate fuel = ok ())
      (hctx : ∀ᶠ fuel in atTop, Context.validate fuel env.signature env.context = ok ())
      (h : ∀ᶠ fuel in atTop,
        MetaContext.validate fuel env.signature env.context env.metas = fail e) :
      FirstFault env (.metas e)

theorem validate_ok_iff (env : Environment) :
    (∀ᶠ fuel in atTop, env.validate fuel = ok ()) ↔
      (∀ᶠ fuel in atTop, env.signature.validate fuel = ok ()) ∧
      (∀ᶠ fuel in atTop, Context.validate fuel env.signature env.context = ok ()) ∧
      ∀ᶠ fuel in atTop,
        MetaContext.validate fuel env.signature env.context env.metas = ok () := by
  have hsig := (Signature.lasting_validate env.signature).mapFail EnvironmentError.signature
  have hctx := (Context.lasting_validate env.signature env.context).mapFail EnvironmentError.context
  unfold validate
  rw [hsig.bind_ok_iff]
  simp only [hctx.bind_ok_iff, mapFail_eq_ok_iff]
  constructor
  · rintro ⟨_, hsig, _, hrest⟩
    exact ⟨hsig, hrest⟩
  · rintro ⟨hsig, hrest⟩
    exact ⟨(), hsig, (), hrest⟩

theorem validate_fail_iff (env : Environment) (e : EnvironmentError) :
    (∀ᶠ fuel in atTop, env.validate fuel = fail e) ↔ env.FirstFault e := by
  have hsig := Signature.lasting_validate env.signature
  have hctx := Context.lasting_validate env.signature env.context
  have hmetas := MetaContext.lasting_validate env.signature env.context env.metas
  unfold validate
  rw [(hsig.mapFail EnvironmentError.signature).bind_fail_iff, hsig.mapFail_fail_iff]
  simp only [(hctx.mapFail EnvironmentError.context).bind_fail_iff, hctx.mapFail_fail_iff,
    hmetas.mapFail_fail_iff, mapFail_eq_ok_iff]
  constructor
  · rintro (⟨e, h, rfl⟩ | ⟨_, hsig, ⟨e, h, rfl⟩ | ⟨_, hctx, e, h, rfl⟩⟩)
    · exact .signature h
    · exact .context hsig h
    · exact .metas hsig hctx h
  · intro h
    cases h with
    | signature h => exact Or.inl ⟨_, h, rfl⟩
    | context hsig h => exact Or.inr ⟨(), hsig, Or.inl ⟨_, h, rfl⟩⟩
    | metas hsig hctx h => exact Or.inr ⟨(), hsig, Or.inr ⟨(), hctx, _, h, rfl⟩⟩

/-- **Validation reports the newest fault.** A signature, a context or a meta-context is accepted
exactly if every declaration has a new key and a sort that is admitted among the older declarations:
for a signature one of sort `Type` or `Kind`, for a context one of sort `Type`, and for a
meta-context one of sort `Type` in the whole context. What is reported otherwise is the fault of the
newest declaration that fails this, and of an environment the first fault in the order of its parts.

That a sort is `Type` is meant up to η. What is accepted has sorts that are `Type` itself, in every
signature, in a context if the signature is accepted, and in a meta-context if both are. -/
theorem validate_reports_newest (sig : Signature) (ctx : Context) (metas : MetaContext) :
    sig.ReportsNewest ofSignature .familyOrKind (fun fuel => sig.validate fuel) ∧
    ctx.ReportsNewest (fun older => ⟨sig, older, .empty⟩) .type
      (fun fuel => ctx.validate fuel sig) ∧
    metas.ReportsNewest (fun older => ⟨sig, ctx, older⟩) .type
      (fun fuel => metas.validate fuel sig ctx) ∧
    ((∀ᶠ fuel in atTop, Environment.validate fuel ⟨sig, ctx, metas⟩ = ok ()) ↔
      (∀ᶠ fuel in atTop, sig.validate fuel = ok ()) ∧
      (∀ᶠ fuel in atTop, ctx.validate fuel sig = ok ()) ∧
      ∀ᶠ fuel in atTop, metas.validate fuel sig ctx = ok ()) ∧
    (∀ e, (∀ᶠ fuel in atTop, Environment.validate fuel ⟨sig, ctx, metas⟩ = fail e) ↔
      FirstFault ⟨sig, ctx, metas⟩ e) ∧
    ((∀ᶠ fuel in atTop, sig.validate fuel = ok ()) ↔
      sig.AllInOrder ofSignature .exactlyTypeOrKind) ∧
    ((∀ᶠ fuel in atTop, sig.validate fuel = ok ()) →
      ((∀ᶠ fuel in atTop, ctx.validate fuel sig = ok ()) ↔
        ctx.AllInOrder (fun older => ⟨sig, older, .empty⟩) .exactlyType)) ∧
    ((∀ᶠ fuel in atTop, sig.validate fuel = ok ()) →
      (∀ᶠ fuel in atTop, ctx.validate fuel sig = ok ()) →
      ((∀ᶠ fuel in atTop, metas.validate fuel sig ctx = ok ()) ↔
        metas.AllInOrder (fun older => ⟨sig, ctx, older⟩) .exactlyType)) := by
  refine ⟨Bindings.reportsNewest _ SortRequirement.familyOrKind_decidedBy sig,
    Bindings.reportsNewest _ SortRequirement.type_decidedBy ctx,
    Bindings.reportsNewest _ SortRequirement.type_decidedBy metas,
    validate_ok_iff ⟨sig, ctx, metas⟩, validate_fail_iff ⟨sig, ctx, metas⟩, ?_, ?_, ?_⟩
  · exact Bindings.accepted_iff_of_agreesWith SortRequirement.familyOrKind_decidedBy
      SortRequirement.familyOrKind_agreesWith_exactlyTypeOrKind
      (fun _ _ => Signature.isAdmissible_of_validate) sig
  · intro hsig
    obtain ⟨_, hsig⟩ := hsig.exists
    have henv := Signature.isAdmissible_of_validate hsig
    exact Bindings.accepted_iff_of_agreesWith SortRequirement.type_decidedBy
      SortRequirement.type_agreesWith_exactlyType
      (fun _ _ => Context.isAdmissible_of_validate henv) ctx
  · intro hsig hctx
    obtain ⟨_, hsig⟩ := hsig.exists
    obtain ⟨_, hctx⟩ := hctx.exists
    have henv := Context.isAdmissible_of_validate (Signature.isAdmissible_of_validate hsig) hctx
    exact Bindings.accepted_iff_of_agreesWith SortRequirement.type_decidedBy
      SortRequirement.type_agreesWith_exactlyType
      (fun _ _ => MetaContext.isAdmissible_of_validate henv) metas

/-- The declarations `y : b`, `z : a`, `x : b`, `z : b` and `p : a`, oldest first, for a type `a`.
The constant `b` is not declared, so only `z : a` and `p : a` are in order. -/
def faulty : Environment where
  signature := ⟨[(.constant ⟨"a"⟩, .type)]⟩
  context := .ofOldestFirst [(⟨"y"⟩, .const ⟨"b"⟩), (⟨"z"⟩, .const ⟨"a"⟩), (⟨"x"⟩, .const ⟨"b"⟩),
    (⟨"z"⟩, .const ⟨"b"⟩), (⟨"p"⟩, .const ⟨"a"⟩)]
  metas := .empty

/-- What is reported is that `z` is declared again. That its second sort is not admitted either is
not reported, and no fault of the older declarations is. The signature is accepted, so that `Type`
may be taken literally in what the context should be. -/
theorem validate_reports_newest_faulty :
    faulty.context.NewestFault (fun older => ⟨faulty.signature, older, .empty⟩) .type
        (.redeclared ⟨"z"⟩) ∧
      (∀ᶠ fuel in atTop, faulty.validate fuel = fail (.context (.redeclared ⟨"z"⟩))) ∧
      faulty.signature.AllInOrder ofSignature .exactlyTypeOrKind ∧
      ¬ faulty.context.AllInOrder (fun older => ⟨faulty.signature, older, .empty⟩)
        .exactlyType := by
  have hsig : faulty.signature.validate 10 = ok () := by decide +kernel
  have hctx : faulty.context.validate 10 faulty.signature = fail (.redeclared ⟨"z"⟩) := by
    decide +kernel
  have hsigs := (Signature.lasting_validate _).eventually hsig (by simp)
  have hctxs := (Context.lasting_validate _ _).eventually hctx (by simp)
  obtain ⟨_, hreports, _, _, hfirst, hsigexact, hctxexact, _⟩ :=
    validate_reports_newest faulty.signature faulty.context faulty.metas
  refine ⟨(hreports.reported _).mp hctxs, (hfirst _).mpr (.context hsigs hctxs),
    hsigexact.mp hsigs, fun hall => ?_⟩
  obtain ⟨_, hok, hfail⟩ := (((hctxexact hsigs).mpr hall).and hctxs).exists
  exact absurd (hok.symm.trans hfail) (by simp)

/-- The abstraction `λ x : a, Type x`, an expansion of `Type` that has no sort. -/
def expandedType : Term :=
  .lam ⟨"x"⟩ (.const ⟨"a"⟩) (.app .type (.var ⟨"x"⟩))

/-- The declarations `a : Type` and `p : λ x : a, Type x`. -/
def expanded : Signature :=
  ⟨[(.constant ⟨"p"⟩, expandedType), (.constant ⟨"a"⟩, .type)]⟩

theorem eventually_sortOf_expanded :
    ∀ᶠ fuel in atTop, (ofSignature expanded).sortOf fuel (.const ⟨"p"⟩) = ok (.term expandedType) :=
  (lasting_sortOf _ _).eventually (n := 10) (by decide +kernel) (by simp)

/-- The context `y : p` is accepted, although the sort of `p` is not `Type` itself. In the signature
with `q : p` too, what is reported is `p`, and not `q`, which is the newest declaration of a sort
whose own sort is neither `Type` itself nor `Kind`. -/
theorem validate_takes_expansion_for_type :
    (∃ (sig : Signature) (ctx : Context), (∀ᶠ fuel in atTop, ctx.validate fuel sig = ok ()) ∧
      ¬ ctx.AllInOrder (fun older => ⟨sig, older, .empty⟩) .exactlyType) ∧
    ∃ (sig : Signature) (p q : SignatureKey) (cause cause' : SortError), p ≠ q ∧
      (∀ᶠ fuel in atTop, sig.validate fuel = fail (.illSorted p cause)) ∧
      sig.NewestFault ofSignature .exactlyTypeOrKind (.illSorted q cause') := by
  constructor
  · refine ⟨expanded, ⟨[(⟨"y"⟩, .const ⟨"p"⟩)]⟩,
      (Context.lasting_validate _ _).eventually (n := 10) (by decide +kernel) (by simp), ?_⟩
    intro hall
    obtain ⟨_, S, hS, hfits⟩ := hall ⟨"y"⟩ (.const ⟨"p"⟩) [] List.suffix_rfl
    obtain ⟨_, hS, hp⟩ := (hS.and eventually_sortOf_expanded).exists
    cases hS.symm.trans hp
    exact absurd hfits (by simp [SortRequirement.exactlyType, TermSort.type, expandedType])
  · have hreported : Signature.validate 10 (expanded.add (.constant ⟨"q"⟩) (.const ⟨"p"⟩)) =
        fail (.illSorted (.constant ⟨"p"⟩) (.within expandedType
          (.within (.app .type (.var ⟨"x"⟩)) (.notPi .type .kind)))) := by decide +kernel
    have hnew : expanded.contains (.constant ⟨"q"⟩) = false := by decide
    have hmisfit : ¬ SortRequirement.exactlyTypeOrKind.Fits (.term expandedType) := by
      simp [SortRequirement.exactlyTypeOrKind, TermSort.type, expandedType]
    exact ⟨_, .constant ⟨"p"⟩, .constant ⟨"q"⟩, _, _, by decide,
      (Signature.lasting_validate _).eventually hreported (by simp),
      Bindings.newestFault_cons.mpr
        (Or.inl (.illSorted hnew (.misfit eventually_sortOf_expanded hmisfit)))⟩

end Environment

end LogicalFramework

import LogicalFramework.Proofs.ErrorTrace
import LogicalFramework.Proofs.NewestFault
import LogicalFramework.Union

/-!
# The union of contexts

The union goes through the right context from its oldest declaration on. If the left context
declares the variable too, the newest of its sorts is compared with the sort at hand, and the union
fails at the first two sorts that differ. Otherwise its declarations are those that only the left
context has, and then all of the right one, also those that are shadowed on either side.

* `Context.merge` — the union of contexts that agree;
* `Context.union_eq` — the loop over the right context, which takes the shared variables away from
  the left one, as a comparison and a merge;
* `Context.union_ok_iff`, `Context.union_fail_iff` — when the union is this, and when and how it
  fails, by induction from the oldest declaration;
* `Context.union_right_biased` — the same in one statement, for comparisons that answer;
* `Context.union_associative` — unions in either order are the same context.
-/

namespace LogicalFramework

open Filter Outcome

/-- That two terms are found equal, for all large enough bounds. -/
def Term.EqualTo (l r : Term) : Prop :=
  ∀ᶠ fuel in atTop, l.equal fuel r = some true

namespace Context

/-! ## Merging -/

/-- The declarations of the left context for which the right one has none, and all of the right
context after them. -/
def merge (left right : Context) : Context :=
  ⟨right.newestFirst ++ left.newestFirst.filter fun entry => !right.contains entry.1⟩

/-- The variables that only the left context declares. -/
theorem contains_filter_not (left right : Context) (x : Variable) :
    (Bindings.mk (left.newestFirst.filter fun entry => !right.contains entry.1)).contains x =
      (!right.contains x && left.contains x) :=
  Bindings.contains_filter left.newestFirst (fun x => !right.contains x) x

theorem contains_merge (left right : Context) (x : Variable) :
    (left.merge right).contains x = (right.contains x || left.contains x) := by
  rw [merge, Bindings.contains_append, contains_filter_not]
  cases right.contains x <;> rfl

theorem oldestFirst_merge (left right : Context) :
    (left.merge right).oldestFirst =
      (left.oldestFirst.filter fun entry => !right.contains entry.1) ++ right.oldestFirst := by
  rw [Bindings.oldestFirst, merge, List.reverse_append, ← List.filter_reverse]
  rfl

/-- Merging is associative. What is left of the first context is what neither of the others
declares. -/
theorem merge_assoc (a b c : Context) : (a.merge b).merge c = a.merge (b.merge c) := by
  have hdeclared (entry : Variable × Term) :
      (!c.contains entry.1 && !b.contains entry.1) = !(b.merge c).contains entry.1 := by
    rw [contains_merge, Bool.not_or]
  ext1
  calc c.newestFirst ++ (a.merge b).newestFirst.filter (fun entry => !c.contains entry.1)
      = c.newestFirst ++ (b.newestFirst.filter (fun entry => !c.contains entry.1) ++
          a.newestFirst.filter fun entry => !c.contains entry.1 && !b.contains entry.1) := by
        rw [merge, List.filter_append, List.filter_filter]
    _ = (b.merge c).newestFirst ++
          a.newestFirst.filter fun entry => !(b.merge c).contains entry.1 := by
        simp only [hdeclared]
        rw [merge, List.append_assoc]

/-! ### One declaration at a time -/

/-- A context without the variables of a list, which are erased one at a time. -/
def eraseAll (ctx : Context) (entries : List (Variable × Term)) : Context :=
  entries.foldl (fun ctx entry => ctx.erase entry.1) ctx

theorem newestFirst_eraseAll (ctx : Context) (entries : List (Variable × Term)) :
    (ctx.eraseAll entries).newestFirst =
      ctx.newestFirst.filter fun entry => entries.all fun gone => entry.1 ≠ gone.1 := by
  unfold eraseAll
  induction entries generalizing ctx with
  | nil => simp
  | cons gone entries ih =>
    rw [List.foldl_cons, ih, Bindings.erase, List.filter_filter]
    simp only [List.all_cons, Bool.and_comm]

theorem newestFirst_addAll (ctx : Context) (entries : List (Variable × Term)) :
    (ctx.addAll entries).newestFirst = entries.reverse ++ ctx.newestFirst := by
  unfold addAll
  induction entries generalizing ctx with
  | nil => rfl
  | cons entry entries ih =>
    rw [List.foldl_cons, ih, List.reverse_cons, List.append_assoc]
    rfl

/-- Merging erases what the right context declares from the left one, a variable at a time, and then
adds the declarations of the right one, the oldest first. -/
theorem merge_eq_addAll (left right : Context) :
    left.merge right = (left.eraseAll right.oldestFirst).addAll right.oldestFirst := by
  have hdeclared (x : Variable) :
      (!right.contains x) = right.oldestFirst.all fun gone => x ≠ gone.1 := by
    rw [Bool.eq_iff_iff, Bool.not_eq_true', Bool.eq_false_iff, Ne, Bindings.contains_iff,
      List.all_eq_true]
    simp only [Bindings.oldestFirst, List.mem_reverse, decide_eq_true_eq]
    constructor
    · rintro h ⟨_, B⟩ hmem rfl
      exact h ⟨B, hmem⟩
    · rintro h ⟨B, hmem⟩
      exact h (x, B) hmem rfl
  ext1
  rw [newestFirst_addAll, newestFirst_eraseAll, merge]
  simp only [hdeclared]
  rw [Bindings.oldestFirst, List.reverse_reverse]

/-! ## Comparisons -/

/-- That a declaration agrees with a context: if the context declares the variable too, then with an
equal sort. -/
def AgreesAt (left : Context) (entry : Variable × Term) : Prop :=
  ∀ A, left.lookup entry.1 = some A → A.EqualTo entry.2

/-- That a context declares a variable with a sort that is found to differ from another one. -/
def ClashesAt (left : Context) (e : Incompatibility) : Prop :=
  left.lookup e.x = some e.left ∧ ∀ᶠ fuel in atTop, e.left.equal fuel e.right = some false

/-- The clash of a context with the first declaration of a list that does not agree with it. -/
def FirstClash (left : Context) (entries : List (Variable × Term)) (e : Incompatibility) : Prop :=
  ∃ before after, entries = before ++ (e.x, e.right) :: after ∧ left.ClashesAt e ∧
    ∀ entry ∈ before, left.AgreesAt entry

/-- That the comparisons of a context with the declarations of a list answer. Those that come after
the first clash are not made, so nothing is asked of them. -/
def ComparisonsAnswer (left : Context) (entries : List (Variable × Term)) : Prop :=
  ∀ before x B after A, entries = before ++ (x, B) :: after →
    (∀ entry ∈ before, left.AgreesAt entry) → left.lookup x = some A →
    ∃ same, ∀ᶠ fuel in atTop, A.equal fuel B = some same

variable {left : Context} {entry : Variable × Term} {entries : List (Variable × Term)}
  {e : Incompatibility}

theorem ClashesAt.not_equalTo (h : left.ClashesAt e) : ¬ e.left.EqualTo e.right := by
  intro hequal
  rw [Term.EqualTo, eventually_iff_of_settled h.2 (· = some true)] at hequal
  exact absurd hequal (by simp)

/-- The first clash is with the first declaration, or this one agrees and it is with a later one. -/
theorem firstClash_cons :
    left.FirstClash (entry :: entries) e ↔
      (entry = (e.x, e.right) ∧ left.ClashesAt e) ∨
        left.AgreesAt entry ∧ left.FirstClash entries e := by
  constructor
  · rintro ⟨before, after, hsplit, hclash, hbefore⟩
    cases before with
    | nil =>
      cases hsplit
      exact Or.inl ⟨rfl, hclash⟩
    | cons first before =>
      cases hsplit
      rw [List.forall_mem_cons] at hbefore
      exact Or.inr ⟨hbefore.1, before, after, rfl, hclash, hbefore.2⟩
  · rintro (⟨rfl, hclash⟩ | ⟨hagrees, before, after, rfl, hclash, hbefore⟩)
    · exact ⟨[], entries, rfl, hclash, by simp⟩
    · exact ⟨entry :: before, after, rfl, hclash, List.forall_mem_cons.mpr ⟨hagrees, hbefore⟩⟩

/-- Comparisons that answer within one bound answer. -/
theorem comparisonsAnswer_of_bound (fuel : Nat)
    (h : ∀ entry ∈ entries,
      (left.lookup entry.1).all (fun A => (A.equal fuel entry.2).isSome) = true) :
    left.ComparisonsAnswer entries := by
  rintro before x B after A rfl _ hA
  have hsome := h (x, B) (by simp)
  rw [hA, Option.all_some, Option.isSome_iff_exists] at hsome
  obtain ⟨same, hsame⟩ := hsome
  exact ⟨same, eventually_of_kept (fun hle => Conversion.equal_kept hle _ _) hsame⟩

/-- If the comparisons answer, all declarations agree or there is a first clash. -/
theorem agrees_or_firstClash (h : left.ComparisonsAnswer entries) :
    (∀ entry ∈ entries, left.AgreesAt entry) ∨ ∃ e, left.FirstClash entries e := by
  induction entries with
  | nil => exact Or.inl (by simp)
  | cons entry entries ih =>
    obtain ⟨x, B⟩ := entry
    by_cases hagrees : left.AgreesAt (x, B)
    · have hrest : left.ComparisonsAnswer entries := by
        rintro before y C after A rfl hbefore hA
        exact h ((x, B) :: before) y C after A rfl (List.forall_mem_cons.mpr ⟨hagrees, hbefore⟩) hA
      rcases ih hrest with hall | ⟨e, hclash⟩
      · exact Or.inl (List.forall_mem_cons.mpr ⟨hagrees, hall⟩)
      · exact Or.inr ⟨e, firstClash_cons.mpr (Or.inr ⟨hagrees, hclash⟩)⟩
    · rw [AgreesAt] at hagrees
      push Not at hagrees
      obtain ⟨A, hA, hdiffer⟩ := hagrees
      obtain ⟨same, hsame⟩ := h [] x B entries A rfl (by simp) hA
      cases same with
      | true => exact absurd hsame hdiffer
      | false => exact Or.inr ⟨⟨x, A, B⟩, firstClash_cons.mpr (Or.inl ⟨rfl, hA, hsame⟩)⟩

/-! ## One declaration -/

/-- Checks that a declaration agrees with a context, if the context declares the variable too. -/
def agreesOn (fuel : Nat) (left : Context) (x : Variable) (B : Term) :
    Outcome Incompatibility Unit :=
  match left.lookup x with
  | some A => .require ⟨x, A, B⟩ (A.equal fuel B)
  | none => .ok ()

theorem lasting_agreesOn (left : Context) (x : Variable) (B : Term) :
    Lasting fun fuel => left.agreesOn fuel x B := by
  intro m n hle
  simp only [agreesOn]
  cases left.lookup x with
  | none => exact .refl _
  | some A => exact .require _ (Conversion.equal_kept hle _ _)

theorem agreesOn_ok_iff (left : Context) (x : Variable) (B : Term) :
    (∀ᶠ fuel in atTop, left.agreesOn fuel x B = ok ()) ↔ left.AgreesAt (x, B) := by
  simp only [agreesOn, AgreesAt]
  cases left.lookup x with
  | none => simp
  | some A => simp [require_eq_ok_iff, Term.EqualTo]

theorem agreesOn_fail_iff (left : Context) (x : Variable) (B : Term) (e : Incompatibility) :
    (∀ᶠ fuel in atTop, left.agreesOn fuel x B = fail e) ↔
      (x, B) = (e.x, e.right) ∧ left.ClashesAt e := by
  cases hx : left.lookup x with
  | none =>
    simp only [agreesOn, hx, eventually_const, reduceCtorEq, false_iff]
    rintro ⟨heq, hlookup, _⟩
    cases heq
    exact absurd (hx.symm.trans hlookup) (by simp)
  | some A =>
    simp only [agreesOn, hx, require_eq_fail_iff]
    constructor
    · intro h
      obtain ⟨_, _, rfl⟩ := h.exists
      exact ⟨rfl, hx, h.mono fun _ hfuel => hfuel.1⟩
    · rintro ⟨heq, hlookup, hdiffer⟩
      cases heq
      cases hx.symm.trans hlookup
      exact hdiffer.mono fun _ hfuel => ⟨hfuel, rfl⟩

/-! ## The union -/

/-- Checks that the declarations of a list agree with a context, in the order of the list. -/
def agreesWith (fuel : Nat) (left : Context) : List (Variable × Term) → Outcome Incompatibility Unit
  | [] => .ok ()
  | (x, B) :: rest => do
    left.agreesOn fuel x B
    left.agreesWith fuel rest

/-- The loop over a list of declarations compares them with the left context and erases from a part
of it what they declare. Of the variables that the left context does not declare, the part has none
to erase. -/
theorem withoutShared_eq {left merged : Context} (fuel : Nat) (entries : List (Variable × Term))
    (hpart : ∀ x, merged.contains x = true → left.contains x = true) :
    left.withoutShared fuel merged entries =
      (do left.agreesWith fuel entries; ok (merged.eraseAll entries)) := by
  induction entries generalizing merged with
  | nil => rfl
  | cons entry entries ih =>
    obtain ⟨x, B⟩ := entry
    have herased : ∀ y, (merged.erase x).contains y = true → left.contains y = true := by
      intro y hy
      rw [Bindings.contains_erase, Bool.and_eq_true] at hy
      exact hpart y hy.2
    simp only [withoutShared, agreesWith, agreesOn]
    cases hx : left.lookup x with
    | some A =>
      dsimp only
      rw [ih herased]
      cases require (Incompatibility.mk x A B) (A.equal fuel B) <;> rfl
    | none =>
      have habsent : merged.contains x = false := by
        rw [Bool.eq_false_iff]
        intro h
        exact absurd (hpart x h) (by simp [Bindings.contains, hx])
      dsimp only
      rw [ih hpart, eraseAll, eraseAll, List.foldl_cons, Bindings.erase_of_not_contains habsent]
      rfl

/-- The union compares the declarations of the right context with the left one, and is the merged
context if they agree. -/
theorem union_eq (fuel : Nat) (left right : Context) :
    left.union fuel right =
      (do left.agreesWith fuel right.oldestFirst; ok (left.merge right)) := by
  rw [union, withoutShared_eq fuel right.oldestFirst fun _ h => h, merge_eq_addAll]
  cases left.agreesWith fuel right.oldestFirst <;> rfl

theorem lasting_agreesWith (left : Context) (entries : List (Variable × Term)) :
    Lasting fun fuel => left.agreesWith fuel entries := by
  intro m n hle
  induction entries with
  | nil => exact .refl _
  | cons entry entries ih => exact .bind (lasting_agreesOn left _ _ m n hle) fun _ => ih

theorem agreesWith_ok_iff (left : Context) (entries : List (Variable × Term)) :
    (∀ᶠ fuel in atTop, left.agreesWith fuel entries = ok ()) ↔
      ∀ entry ∈ entries, left.AgreesAt entry := by
  induction entries with
  | nil => simp [agreesWith]
  | cons entry entries ih =>
    obtain ⟨x, B⟩ := entry
    simp only [agreesWith]
    rw [(lasting_agreesOn left x B).bind_ok_iff, List.forall_mem_cons, ← agreesOn_ok_iff, ← ih]
    exact Unique.exists_iff

/-- The comparison with a list of declarations fails at the first clash. -/
theorem agreesWith_fail_iff (left : Context) (entries : List (Variable × Term))
    (e : Incompatibility) :
    (∀ᶠ fuel in atTop, left.agreesWith fuel entries = fail e) ↔ left.FirstClash entries e := by
  induction entries with
  | nil =>
    simp only [agreesWith, eventually_const, reduceCtorEq, false_iff]
    rintro ⟨before, after, hsplit, _⟩
    exact absurd hsplit (by simp)
  | cons entry entries ih =>
    obtain ⟨x, B⟩ := entry
    simp only [agreesWith]
    rw [(lasting_agreesOn left x B).bind_fail_iff, firstClash_cons, agreesOn_fail_iff,
      ← agreesOn_ok_iff, ← ih]
    exact or_congr_right Unique.exists_iff

theorem lasting_union (left right : Context) : Lasting fun fuel => left.union fuel right := by
  simp only [union_eq]
  exact fun m n hle => .bind (lasting_agreesWith left _ m n hle) fun _ => .refl _

/-- The union is the merged context if all declarations of the right context agree. -/
theorem union_ok_iff (left right u : Context) :
    (∀ᶠ fuel in atTop, left.union fuel right = ok u) ↔
      (∀ entry ∈ right.oldestFirst, left.AgreesAt entry) ∧ left.merge right = u := by
  simp only [union_eq]
  rw [(lasting_agreesWith left right.oldestFirst).bind_ok_iff, ← agreesWith_ok_iff]
  simp only [eventually_const, ok.injEq]
  exact Unique.exists_iff

/-- The union fails if there is a first clash, with this clash. -/
theorem union_fail_iff (left right : Context) (e : Incompatibility) :
    (∀ᶠ fuel in atTop, left.union fuel right = fail e) ↔
      left.FirstClash right.oldestFirst e := by
  simp only [union_eq]
  rw [(lasting_agreesWith left right.oldestFirst).bind_fail_iff, agreesWith_fail_iff]
  simp only [eventually_const, reduceCtorEq, and_false, exists_false, or_false]

/-- A union within some bound is the merged context. -/
theorem eq_merge_of_union {fuel : Nat} {left right u : Context}
    (h : left.union fuel right = ok u) : u = left.merge right := by
  rw [union_eq, bind_eq_ok_iff] at h
  obtain ⟨_, _, h⟩ := h
  cases h
  rfl

/-- **The union is the right-biased merge.** If the comparisons of the sorts answer, the union fails
exactly if a declaration of the right context has a sort that is not equal to the newest one that
the left context declares for the variable, and it reports the oldest such declaration. Otherwise it
is the declarations that only the left context has, in their order, followed by those of the right
context, as if each variable were erased from the left context and then declared again. -/
theorem union_right_biased (left right : Context)
    (hanswer : left.ComparisonsAnswer right.oldestFirst) :
    ((∃ e, ∀ᶠ fuel in atTop, left.union fuel right = fail e) ↔
      ∃ x A B, (x, B) ∈ right.oldestFirst ∧ left.lookup x = some A ∧ ¬ A.EqualTo B) ∧
    (∀ e, (∀ᶠ fuel in atTop, left.union fuel right = fail e) ↔
      left.FirstClash right.oldestFirst e) ∧
    ((∀ x A B, (x, B) ∈ right.oldestFirst → left.lookup x = some A → A.EqualTo B) →
      ∃ u : Context, (∀ᶠ fuel in atTop, left.union fuel right = ok u) ∧
        u.oldestFirst =
          (left.oldestFirst.filter fun entry => !right.contains entry.1) ++ right.oldestFirst ∧
        u = (left.eraseAll right.oldestFirst).addAll right.oldestFirst) := by
  refine ⟨⟨?_, ?_⟩, union_fail_iff left right, fun hequal => ?_⟩
  · rintro ⟨e, he⟩
    obtain ⟨before, after, hsplit, hclash, _⟩ := (union_fail_iff left right e).mp he
    exact ⟨e.x, e.left, e.right, by simp [hsplit], hclash.1, hclash.not_equalTo⟩
  · rintro ⟨x, A, B, hmem, hA, hdiffer⟩
    rcases agrees_or_firstClash hanswer with hall | ⟨e, hclash⟩
    · exact absurd (hall _ hmem A hA) hdiffer
    · exact ⟨e, (union_fail_iff left right e).mpr hclash⟩
  · refine ⟨left.merge right, (union_ok_iff left right _).mpr ⟨fun entry hmem A hA => ?_, rfl⟩,
      oldestFirst_merge left right, merge_eq_addAll left right⟩
    exact hequal _ A _ hmem hA

/-- The declarations `x : b`, `y : a` and `x : (λ t : Type, t) a`, oldest first. The first one is
shadowed. -/
def shadowing : Context :=
  .ofOldestFirst [(⟨"x"⟩, .const ⟨"b"⟩), (⟨"y"⟩, .const ⟨"a"⟩),
    (⟨"x"⟩, .app (.lam ⟨"t"⟩ .type (.var ⟨"t"⟩)) (.const ⟨"a"⟩))]

/-- The union of `shadowing` with `z : b`, `x : a`, `z : a` keeps `y` of it, which comes first. That
with `x : a`, `x : b`, `y : b` fails for the second declaration of `x`. Neither the shadowed sort of
`x` nor that `y` clashes too makes a difference. -/
theorem union_right_biased_shadowing :
    (∃ u : Context, (∀ᶠ fuel in atTop, shadowing.union fuel (.ofOldestFirst
        [(⟨"z"⟩, .const ⟨"b"⟩), (⟨"x"⟩, .const ⟨"a"⟩), (⟨"z"⟩, .const ⟨"a"⟩)]) = ok u) ∧
      u.oldestFirst = [(⟨"y"⟩, .const ⟨"a"⟩), (⟨"z"⟩, .const ⟨"b"⟩), (⟨"x"⟩, .const ⟨"a"⟩),
        (⟨"z"⟩, .const ⟨"a"⟩)]) ∧
    shadowing.FirstClash [(⟨"x"⟩, .const ⟨"a"⟩), (⟨"x"⟩, .const ⟨"b"⟩), (⟨"y"⟩, .const ⟨"b"⟩)]
      ⟨⟨"x"⟩, .app (.lam ⟨"t"⟩ .type (.var ⟨"t"⟩)) (.const ⟨"a"⟩), .const ⟨"b"⟩⟩ := by
  constructor
  · obtain ⟨hfails, _, hmerged⟩ := union_right_biased shadowing (.ofOldestFirst
      [(⟨"z"⟩, .const ⟨"b"⟩), (⟨"x"⟩, .const ⟨"a"⟩), (⟨"z"⟩, .const ⟨"a"⟩)])
      (comparisonsAnswer_of_bound 10 (by decide +kernel))
    have hunion := (lasting_union shadowing (.ofOldestFirst
      [(⟨"z"⟩, .const ⟨"b"⟩), (⟨"x"⟩, .const ⟨"a"⟩), (⟨"z"⟩, .const ⟨"a"⟩)])).eventually
      (n := 10) (o := ok ⟨[(⟨"z"⟩, .const ⟨"a"⟩), (⟨"x"⟩, .const ⟨"a"⟩), (⟨"z"⟩, .const ⟨"b"⟩),
        (⟨"y"⟩, .const ⟨"a"⟩)]⟩) (by decide +kernel) (by simp)
    -- The union does not fail, so there is no clash.
    obtain ⟨u, hu, hentries, _⟩ := hmerged fun x A B hmem hA => by
      by_contra hdiffer
      obtain ⟨e, he⟩ := hfails.mpr ⟨x, A, B, hmem, hA, hdiffer⟩
      obtain ⟨_, hok, hfail⟩ := (hunion.and he).exists
      exact absurd (hok.symm.trans hfail) (by simp)
    exact ⟨u, hu, hentries.trans (by decide +kernel)⟩
  · obtain ⟨_, hreports, _⟩ := union_right_biased shadowing (.ofOldestFirst
      [(⟨"x"⟩, .const ⟨"a"⟩), (⟨"x"⟩, .const ⟨"b"⟩), (⟨"y"⟩, .const ⟨"b"⟩)])
      (comparisonsAnswer_of_bound 10 (by decide +kernel))
    refine (hreports _).mp ((lasting_union _ _).eventually (n := 10) ?_ (by simp))
    decide +kernel

/-- **The union is associative.** If all four unions are defined, the union of two contexts with a
third one is that of the first with the union of the others, declaration by declaration. -/
theorem union_associative (fuel₁ fuel₂ fuel₃ fuel₄ : Nat) (a b c ab bc u v : Context)
    (hab : a.union fuel₁ b = ok ab) (hu : ab.union fuel₂ c = ok u)
    (hbc : b.union fuel₃ c = ok bc) (hv : a.union fuel₄ bc = ok v) : u = v := by
  rw [eq_merge_of_union hu, eq_merge_of_union hab, eq_merge_of_union hv, eq_merge_of_union hbc,
    merge_assoc]

/-- Three contexts that share variables with each other, with `z` declared twice in the last one.
The unions of all three are `y`, `x`, `z` and `z` again. -/
theorem union_associative_shadowing :
    ∃ b c ab bc u v : Context, shadowing.union 10 b = ok ab ∧ ab.union 10 c = ok u ∧
      b.union 10 c = ok bc ∧ shadowing.union 10 bc = ok v ∧
      u.oldestFirst.map Prod.fst = [⟨"y"⟩, ⟨"x"⟩, ⟨"z"⟩, ⟨"z"⟩] ∧ u = v := by
  have hab : shadowing.union 10 ⟨[(⟨"x"⟩, .const ⟨"a"⟩), (⟨"z"⟩, .const ⟨"a"⟩)]⟩ =
      ok ⟨[(⟨"x"⟩, .const ⟨"a"⟩), (⟨"z"⟩, .const ⟨"a"⟩), (⟨"y"⟩, .const ⟨"a"⟩)]⟩ := by
    decide +kernel
  have hu : Context.union 10 ⟨[(⟨"x"⟩, .const ⟨"a"⟩), (⟨"z"⟩, .const ⟨"a"⟩), (⟨"y"⟩, .const ⟨"a"⟩)]⟩
      ⟨[(⟨"z"⟩, .const ⟨"a"⟩), (⟨"z"⟩, .const ⟨"a"⟩)]⟩ =
      ok ⟨[(⟨"z"⟩, .const ⟨"a"⟩), (⟨"z"⟩, .const ⟨"a"⟩), (⟨"x"⟩, .const ⟨"a"⟩),
        (⟨"y"⟩, .const ⟨"a"⟩)]⟩ := by decide +kernel
  have hbc : Context.union 10 ⟨[(⟨"x"⟩, .const ⟨"a"⟩), (⟨"z"⟩, .const ⟨"a"⟩)]⟩
      ⟨[(⟨"z"⟩, .const ⟨"a"⟩), (⟨"z"⟩, .const ⟨"a"⟩)]⟩ =
      ok ⟨[(⟨"z"⟩, .const ⟨"a"⟩), (⟨"z"⟩, .const ⟨"a"⟩), (⟨"x"⟩, .const ⟨"a"⟩)]⟩ := by
    decide +kernel
  have hv : shadowing.union 10
      ⟨[(⟨"z"⟩, .const ⟨"a"⟩), (⟨"z"⟩, .const ⟨"a"⟩), (⟨"x"⟩, .const ⟨"a"⟩)]⟩ =
      ok ⟨[(⟨"z"⟩, .const ⟨"a"⟩), (⟨"z"⟩, .const ⟨"a"⟩), (⟨"x"⟩, .const ⟨"a"⟩),
        (⟨"y"⟩, .const ⟨"a"⟩)]⟩ := by decide +kernel
  exact ⟨_, _, _, _, _, _, hab, hu, hbc, hv, by decide +kernel,
    union_associative 10 10 10 10 _ _ _ _ _ _ _ hab hu hbc hv⟩

end Context

end LogicalFramework

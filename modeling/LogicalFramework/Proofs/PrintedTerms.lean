import LogicalFramework.Proofs.Alpha
import LogicalFramework.Proofs.PrintedForms

/-!
# Printed terms are unambiguous

A printed term determines the term up to bound names, if no identifier is a constant here and a
variable there. A term is found at the front of a text that goes on with something that ends it. The
parts of a term are found one after the other: the domain of an arrow and the head and the arguments
of an application are operands and spines, everything else is between marks.

* `Term.Determined` — that a term is determined by a text that begins with it;
* `Term.operand_inj` — the same for operands, from the parts of the spine;
* `Term.operand_ne_product` — an arrow is not taken for a dependent product;
* `Term.determined` — all terms are determined, by induction on the term;
* `Term.render_unambiguous` — the result for whole texts.
-/

namespace LogicalFramework.Term

open Text

theorem nameless_applyAll (h : Term) (as : List Term) :
    (h.applyAll as).nameless = (as.map nameless).foldl .app h.nameless := by
  unfold applyAll
  induction as generalizing h with
  | nil => rfl
  | cons a as ih => exact ih (app h a)

/-! ## Determined terms -/

/-- That a text which begins with the term and goes on with something that ends it determines the
term up to bound names. -/
def Determined (names : List String) (t : Term) : Prop :=
  ∀ (u : Term) (rest rest' : List Char), u.IsLegible names → Closes rest → Closes rest' →
    t.shown ++ rest = u.shown ++ rest' → t.nameless = u.nameless ∧ rest = rest'

/-- That the parts of a spine are determined, as far as they are not atoms. -/
structure SpineDetermined (names : List String) (t : Term) : Prop where
  /-- The head. -/
  head : t.spineHead.isAtom = false → Determined names t.spineHead
  /-- The arguments. -/
  arguments : ∀ a ∈ t.arguments, Determined names a

variable {names : List String} {rest rest' : List Char}

theorem argument_inj {a b : Term} (ha : a.IsLegible names) (hb : b.IsLegible names)
    (hdetermined : a.isAtom = false → Determined names a) (hrest : EndsName rest)
    (hrest' : EndsName rest') (h : a.argument ++ rest = b.argument ++ rest') :
    a.nameless = b.nameless ∧ rest = rest' := by
  rcases a.argument_cases with ⟨n, hn, harg⟩ | ⟨m, rfl, harg⟩ | ⟨hatom, harg⟩
  · rw [harg] at h
    rcases b.argument_cases with ⟨n', hn', harg'⟩ | ⟨m', _, harg'⟩ | ⟨_, harg'⟩
    · rw [harg'] at h
      obtain ⟨hname, hrests⟩ := isRun_append_inj (hrest.isRun (ha.name_chars hn).2)
        (hrest'.isRun (hb.name_chars hn').2) h
      obtain rfl := String.toList_inj.mp hname
      exact ⟨congrArg nameless (ha.eq_of_name? hb hn hn'), hrests⟩
    · rw [harg'] at h
      exact absurd h (ha.name_append_ne hn (by decide) _ _)
    · rw [harg'] at h
      exact absurd h (ha.name_append_ne hn (by decide) _ _)
  · rw [harg] at h
    rcases b.argument_cases with ⟨n', hn', harg'⟩ | ⟨m', rfl, harg'⟩ | ⟨_, harg'⟩
    · rw [harg'] at h
      exact absurd h.symm (hb.name_append_ne hn' (by decide) _ _)
    · rw [harg'] at h
      obtain ⟨hid, hrests⟩ := IsPlainName.append_inj ha hb hrest hrest' (List.cons.inj h).2
      exact ⟨congrArg (fun m => (metaVar m).nameless) (MetaVariable.ext hid), hrests⟩
    · rw [harg'] at h
      exact absurd (List.cons.inj h).1 (by decide)
  · rw [harg] at h
    rcases b.argument_cases with ⟨n', hn', harg'⟩ | ⟨m', rfl, harg'⟩ | ⟨_, harg'⟩
    · rw [harg'] at h
      exact absurd h.symm (hb.name_append_ne hn' (by decide) _ _)
    · rw [harg'] at h
      exact absurd (List.cons.inj h).1 (by decide)
    · rw [harg'] at h
      have hinner : a.shown ++ ')' :: rest = b.shown ++ ')' :: rest' := by
        simpa using (List.cons.inj h).2
      obtain ⟨hab, hrests⟩ :=
        hdetermined hatom b _ _ hb (closes_paren rest) (closes_paren rest') hinner
      exact ⟨hab, (List.cons.inj hrests).2⟩

/-- What ends an operand is not a further argument. -/
theorem IsLegible.not_endsOperand_argument {b : Term} (hb : b.IsLegible names)
    (hrest : EndsName rest) : ¬ EndsOperand (' ' :: (b.argument ++ rest)) := by
  rintro (hcloses | ⟨more, he⟩)
  · exact not_closes_blank _ hcloses
  · have he := (List.cons.inj he).2
    rcases b.argument_cases with ⟨n, hn, harg⟩ | ⟨m, _, harg⟩ | ⟨_, harg⟩
    · -- The argument would be the name `-`, and what ends a name does not begin with `>`.
      have hdash : Token.IsRun isNameChar ['-'] ('>' :: more) := by
        refine ⟨List.all_eq_true.mp (by decide), ?_⟩
        rintro c ⟨⟩
        decide
      rw [harg] at he
      have hend := (isRun_append_inj (hrest.isRun (hb.name_chars hn).2) hdash he).2
      exact absurd (hrest '>' (by rw [hend]; rfl)) (by decide)
    · rw [harg] at he
      exact absurd (List.cons.inj he).1 (by decide)
    · rw [harg] at he
      exact absurd (List.cons.inj he).1 (by decide)

/-- Arguments are determined one after the other, and their number by what follows. -/
theorem argumentsShown_inj {as bs : List Term} (has : ∀ a ∈ as, a.IsLegible names)
    (hbs : ∀ b ∈ bs, b.IsLegible names) (hdetermined : ∀ a ∈ as, Determined names a)
    (hrest : EndsOperand rest) (hrest' : EndsOperand rest')
    (h : argumentsShown as ++ rest = argumentsShown bs ++ rest') :
    as.map nameless = bs.map nameless ∧ rest = rest' := by
  induction as generalizing bs with
  | nil =>
    cases bs with
    | nil => exact ⟨rfl, h⟩
    | cons b bs =>
      have hb := hbs b List.mem_cons_self
      have hmore := endsName_argumentsShown bs hrest'.endsName
      refine absurd ?_ (hb.not_endsOperand_argument hmore)
      have he : rest = ' ' :: (b.argument ++ (argumentsShown bs ++ rest')) := by
        simpa [argumentsShown] using h
      exact he ▸ hrest
  | cons a as ih =>
    have ha := has a List.mem_cons_self
    have hmore := endsName_argumentsShown as hrest.endsName
    cases bs with
    | nil =>
      refine absurd ?_ (ha.not_endsOperand_argument hmore)
      have he : rest' = ' ' :: (a.argument ++ (argumentsShown as ++ rest)) := by
        simpa [argumentsShown] using h.symm
      exact he ▸ hrest'
    | cons b bs =>
      have hb := hbs b List.mem_cons_self
      have hmore' := endsName_argumentsShown bs hrest'.endsName
      have he : a.argument ++ (argumentsShown as ++ rest) =
          b.argument ++ (argumentsShown bs ++ rest') := by
        simpa [argumentsShown] using h
      obtain ⟨hab, htail⟩ := argument_inj ha hb (fun _ => hdetermined a List.mem_cons_self) hmore
        hmore' he
      obtain ⟨hargs, hrests⟩ := ih (fun c hc => has c (List.mem_cons_of_mem a hc))
        (fun c hc => hbs c (List.mem_cons_of_mem b hc))
        (fun c hc => hdetermined c (List.mem_cons_of_mem a hc)) htail
      exact ⟨congrArg₂ List.cons hab hargs, hrests⟩

/-- An operand is determined if the parts of its spine are. -/
theorem operand_inj {t u : Term} (ht : t.IsLegible names) (hu : u.IsLegible names)
    (hspine : SpineDetermined names t) (hrest : EndsOperand rest) (hrest' : EndsOperand rest')
    (h : t.operand ++ rest = u.operand ++ rest') : t.nameless = u.nameless ∧ rest = rest' := by
  rw [operand_eq_spine, operand_eq_spine, List.append_assoc, List.append_assoc] at h
  obtain ⟨hhead, htail⟩ := argument_inj ht.spineHead hu.spineHead hspine.head
    (endsName_argumentsShown _ hrest.endsName) (endsName_argumentsShown _ hrest'.endsName) h
  obtain ⟨hargs, hrests⟩ :=
    argumentsShown_inj ht.arguments hu.arguments hspine.arguments hrest hrest' htail
  refine ⟨?_, hrests⟩
  calc t.nameless = (t.spineHead.applyAll t.arguments).nameless := by rw [applyAll_arguments]
    _ = (u.spineHead.applyAll u.arguments).nameless := by
      rw [nameless_applyAll, nameless_applyAll, hhead, hargs]
    _ = u.nameless := by rw [applyAll_arguments]

/-! ## Bound names -/

/-- An operand does not begin like a bound variable with its type. -/
theorem IsLegible.operand_ne_bound {t : Term} (ht : t.IsLegible names) {id : String}
    (hid : IsPlainName id) (hrest : EndsOperand rest) (more : List Char) :
    t.operand ++ rest ≠ id.toList ++ ' ' :: ':' :: more := by
  rw [operand_eq_spine, List.append_assoc]
  intro h
  rcases t.spineHead.argument_cases with ⟨n, hn, harg⟩ | ⟨m, _, harg⟩ | ⟨_, harg⟩
  · have hends := endsName_argumentsShown t.arguments hrest.endsName
    rw [harg] at h
    obtain ⟨_, htail⟩ := isRun_append_inj (hends.isRun (ht.spineHead.name_chars hn).2)
      ((endsName_blank (':' :: more)).isRun hid.chars) h
    cases hargs : t.arguments with
    | nil =>
      rw [hargs] at htail
      have he : rest = ' ' :: ':' :: more := htail
      rcases hrest with hcloses | ⟨_, he'⟩
      · exact not_closes_blank _ (he ▸ hcloses)
      · rw [he] at he'
        exact absurd (List.cons.inj (List.cons.inj he').2).1 (by decide)
    | cons a as =>
      have ha := ht.arguments a (by simp [hargs])
      rw [hargs] at htail
      have he : a.argument ++ (argumentsShown as ++ rest) = ':' :: more := by
        simpa [argumentsShown] using htail
      exact ha.argument_append_ne (by decide) _ _ he
  · rw [harg] at h
    exact hid.append_ne (by decide) _ _ h.symm
  · rw [harg] at h
    exact hid.append_ne (by decide) _ _ h.symm

/-- An operand does not begin like a dependent product. -/
theorem IsLegible.operand_ne_product {t : Term} (ht : t.IsLegible names) {id : String}
    (hid : IsPlainName id) (rest more : List Char) :
    t.operand ++ rest ≠ '(' :: (id.toList ++ ' ' :: ':' :: more) := by
  rw [operand_eq_spine, List.append_assoc]
  intro h
  rcases t.spineHead.argument_cases with ⟨n, hn, harg⟩ | ⟨m, _, harg⟩ | ⟨hatom, harg⟩
  · rw [harg] at h
    exact ht.spineHead.name_append_ne hn (by decide) _ _ h
  · rw [harg] at h
    exact absurd (List.cons.inj h).1 (by decide)
  · -- The parenthesis opens a binder, and none of the three forms of binders begins with a name
    -- and a colon.
    rw [harg] at h
    have hinner : t.spineHead.shown ++ ')' :: (argumentsShown t.arguments ++ rest) =
        id.toList ++ ' ' :: ':' :: more := by
      simpa using (List.cons.inj h).2
    have hbinder := isBinder_spineHead hatom
    have hlegible := ht.spineHead
    generalize t.spineHead = g at hinner hbinder hlegible
    cases g.printedForm with
    | operand hnot => exact absurd (hbinder.symm.trans hnot) (by decide)
    | lam x A s =>
      rw [shown_lam] at hinner
      exact hid.append_ne (by decide) _ _ hinner.symm
    | product x A s hfree =>
      rw [shown_product x A hfree] at hinner
      exact hid.append_ne (by decide) _ _ hinner.symm
    | arrow x A s hfree =>
      rw [shown_arrow x A hfree, List.append_assoc] at hinner
      exact hlegible.2.1.operand_ne_bound hid (endsOperand_arrow _) _ hinner

/-! ## All terms are determined -/

theorem determined_of_spine {t : Term} (ht : t.IsLegible names) (hbinder : t.isBinder = false)
    (hspine : SpineDetermined names t) : Determined names t := by
  intro u rest rest' hu hrest hrest' h
  rw [shown_of_not_isBinder hbinder] at h
  cases u.printedForm with
  | operand hbinder' =>
    rw [shown_of_not_isBinder hbinder'] at h
    exact operand_inj ht hu hspine (Or.inl hrest) (Or.inl hrest') h
  | lam x A s =>
    rw [shown_lam] at h
    exact absurd h (ht.operand_append_ne (by decide) _ _)
  | product x A s hfree =>
    rw [shown_product x A hfree, List.cons_append, List.append_assoc] at h
    exact absurd h (ht.operand_ne_product hu.1 _ _)
  | arrow x A s hfree =>
    rw [shown_arrow x A hfree, List.append_assoc] at h
    have hend := (operand_inj ht hu.2.1 hspine (Or.inl hrest) (endsOperand_arrow _) h).2
    exact absurd (hend ▸ hrest) (not_closes_blank _)

/-- A bound variable with its type and its scope are determined, if what stands between the type and
the scope ends the type. -/
theorem bound_inj (q : Binder) {x y : Variable} {A B s r : Term} (hx : IsPlainName x.id)
    (hA : Determined names A) (hs : Determined names s) (hu : (bind q y B r).IsLegible names)
    (between : List Char) (hbetween : ∀ more, Closes (between ++ more)) (hrest : Closes rest)
    (hrest' : Closes rest')
    (h : x.id.toList ++ ' ' :: ':' :: ' ' :: (A.shown ++ (between ++ (s.shown ++ rest))) =
      y.id.toList ++ ' ' :: ':' :: ' ' :: (B.shown ++ (between ++ (r.shown ++ rest')))) :
    (bind q x A s).nameless = (bind q y B r).nameless ∧ rest = rest' := by
  obtain ⟨hy, hB, hr⟩ := hu
  obtain ⟨hid, hdomain⟩ := hx.append_inj hy (endsName_blank _) (endsName_blank _) h
  simp only [List.cons.injEq, true_and] at hdomain
  obtain ⟨hAB, hscope⟩ := hA B _ _ hB (hbetween _) (hbetween _) hdomain
  obtain ⟨hsr, hrests⟩ := hs r _ _ hr hrest hrest' (List.append_cancel_left hscope)
  rw [nameless_bind, nameless_bind, hAB, hsr, Variable.ext hid]
  exact ⟨rfl, hrests⟩

theorem determined_lam {x : Variable} {A s : Term} (hx : IsPlainName x.id)
    (hA : Determined names A) (hs : Determined names s) : Determined names (lam x A s) := by
  intro u rest rest' hu hrest hrest' h
  rw [shown_lam] at h
  cases u.printedForm with
  | operand hbinder =>
    rw [shown_of_not_isBinder hbinder] at h
    exact absurd h.symm (hu.operand_append_ne (by decide) _ _)
  | product y B r hfree =>
    rw [shown_product y B hfree] at h
    exact absurd (List.cons.inj h).1 (by decide)
  | arrow y B r hfree =>
    rw [shown_arrow y B hfree, List.append_assoc] at h
    exact absurd h.symm (hu.2.1.operand_append_ne (by decide) _ _)
  | lam y B r =>
    rw [shown_lam] at h
    refine bound_inj .lam hx hA hs hu ['.', ' '] (fun more => closes_dot (' ' :: more)) hrest
      hrest' ?_
    simpa using h

theorem determined_product {x : Variable} {A s : Term} (hx : IsPlainName x.id)
    (hA : Determined names A) (hs : Determined names s) (hfree : s.occursFree x = true) :
    Determined names (pi x A s) := by
  intro u rest rest' hu hrest hrest' h
  rw [shown_product x A hfree] at h
  cases u.printedForm with
  | operand hbinder =>
    rw [shown_of_not_isBinder hbinder, List.cons_append, List.append_assoc] at h
    exact absurd h.symm (hu.operand_ne_product hx _ _)
  | lam y B r =>
    rw [shown_lam] at h
    exact absurd (List.cons.inj h).1 (by decide)
  | arrow y B r hfree' =>
    rw [shown_arrow y B hfree', List.cons_append, List.append_assoc, List.append_assoc] at h
    exact absurd h.symm (hu.2.1.operand_ne_product hx _ _)
  | product y B r hfree' =>
    rw [shown_product y B hfree'] at h
    refine bound_inj .pi hx hA hs hu [')', ' ', '-', '>', ' '] (fun more => closes_paren _) hrest
      hrest' ?_
    simpa using h

/-- The name of a variable that its scope does not mention does not matter. -/
theorem nameless_bind_of_not_occursFree (q : Binder) {x : Variable} (A : Term) {s : Term}
    (h : s.occursFree x = false) :
    (bind q x A s).nameless = .bind q A.nameless s.nameless.shift := by
  rw [nameless_bind, rename_close_nameless, namelessIn_bind_of_not_occursFree s _ h,
    ← nameless_eq_namelessIn]

theorem determined_arrow {x : Variable} {A s : Term} (hlegible : A.IsLegible names)
    (hA : SpineDetermined names A) (hs : Determined names s) (hfree : s.occursFree x = false) :
    Determined names (pi x A s) := by
  intro u rest rest' hu hrest hrest' h
  rw [shown_arrow x A hfree, List.append_assoc] at h
  cases u.printedForm with
  | operand hbinder =>
    rw [shown_of_not_isBinder hbinder] at h
    have hend := (operand_inj hlegible hu hA (endsOperand_arrow _) (Or.inl hrest') h).2
    exact absurd (hend ▸ hrest') (not_closes_blank _)
  | lam y B r =>
    rw [shown_lam] at h
    exact absurd h (hlegible.operand_append_ne (by decide) _ _)
  | product y B r hfree' =>
    rw [shown_product y B hfree'] at h
    simp only [List.cons_append, List.append_assoc] at h
    exact absurd h (hlegible.operand_ne_product hu.1 _ _)
  | arrow y B r hfree' =>
    obtain ⟨_, hB, hr⟩ := hu
    rw [shown_arrow y B hfree'] at h
    simp only [List.cons_append, List.append_assoc] at h
    obtain ⟨hAB, hscope⟩ :=
      operand_inj hlegible hB hA (endsOperand_arrow _) (endsOperand_arrow _) h
    simp only [List.cons.injEq, true_and] at hscope
    obtain ⟨hsr, hrests⟩ := hs r _ _ hr hrest hrest' hscope
    rw [nameless_bind_of_not_occursFree _ A hfree, nameless_bind_of_not_occursFree _ B hfree', hAB,
      hsr]
    exact ⟨rfl, hrests⟩

/-- An atom is its own spine. -/
theorem determined_of_isAtom {t : Term} (ht : t.IsLegible names) (h : t.isAtom = true) :
    Determined names t ∧ SpineDetermined names t := by
  have hspine : SpineDetermined names t ∧ t.isBinder = false := by
    cases t with
    | app f a => exact absurd h Bool.false_ne_true
    | bind q x A s => exact absurd h Bool.false_ne_true
    | _ =>
      refine ⟨⟨fun hatom => ?_, fun a ha => absurd ha List.not_mem_nil⟩, rfl⟩
      exact absurd hatom (by simp [spineHead, isAtom])
  exact ⟨determined_of_spine ht hspine.2 hspine.1, hspine.1⟩

/-- Every term is determined. The spine of an application is the one of its head with one argument
more, so the parts of the spine are carried along. -/
theorem determined {t : Term} (ht : t.IsLegible names) :
    Determined names t ∧ SpineDetermined names t := by
  induction t with
  | app f a ihf iha =>
    obtain ⟨_, hf⟩ := ihf ht.1
    obtain ⟨ha, _⟩ := iha ht.2
    have hspine : SpineDetermined names (app f a) := by
      refine ⟨hf.head, ?_⟩
      rw [arguments_app]
      intro b hb
      rcases List.mem_append.mp hb with hb | hb
      · exact hf.arguments b hb
      · exact List.mem_singleton.mp hb ▸ ha
    exact ⟨determined_of_spine ht rfl hspine, hspine⟩
  | bind q x A s ihA ihs =>
    obtain ⟨hx, hA, hs⟩ := ht
    obtain ⟨hdomain, hspine⟩ := ihA hA
    obtain ⟨hscope, _⟩ := ihs hs
    have hbind : Determined names (bind q x A s) := by
      cases q with
      | lam => exact determined_lam hx hdomain hscope
      | pi =>
        cases hfree : s.occursFree x with
        | true => exact determined_product hx hdomain hscope hfree
        | false => exact determined_arrow hA hspine hscope hfree
    exact ⟨hbind, fun _ => hbind, fun a ha => absurd ha List.not_mem_nil⟩
  | _ => exact determined_of_isAtom ht rfl

/-! ## The result -/

/-- **Printed terms are unambiguous.** Terms that are printed alike differ in bound names only, if
their identifiers are plain names and none is the one of a constant and of a variable, bound or
free. -/
theorem render_unambiguous (t u : Term)
    (hnames : ∀ id ∈ t.identifiers ++ u.identifiers, IsPlainName id)
    (hkinds : ∀ c ∈ t.constants ++ u.constants, ∀ x ∈ t.allVariables ++ u.allVariables,
      c.id ≠ x.id)
    (h : t.render = u.render) : alphaEquivalent t u = true := by
  have hvariables : ∀ x ∈ t.allVariables ++ u.allVariables,
      x.id ∉ (t.constants ++ u.constants).map Constant.id := by
    intro x hx hmem
    obtain ⟨c, hc, he⟩ := List.mem_map.mp hmem
    exact hkinds c hc x hx he
  have ht := isLegible_of_identifiers (fun id hid => hnames id (List.mem_append_left _ hid))
    (fun c hc => List.mem_map_of_mem (List.mem_append_left u.constants hc))
    fun x hx => hvariables x (List.mem_append_left _ hx)
  have hu := isLegible_of_identifiers (fun id hid => hnames id (List.mem_append_right _ hid))
    (fun c hc => List.mem_map_of_mem (List.mem_append_right t.constants hc))
    fun x hx => hvariables x (List.mem_append_right _ hx)
  rw [alphaEquivalent_iff_nameless]
  refine ((determined ht).1 u [] [] hu (by simp [Closes]) (by simp [Closes]) ?_).1
  rw [shown, shown, h]

/-- `λ f : a → a, (x : a) → p (f x) → Type`, the arrows being products over `y` and over `z`. -/
def twoArrows (y z : Variable) : Term :=
  lam ⟨"f"⟩ (pi y (const ⟨"a"⟩) (const ⟨"a"⟩))
    (pi ⟨"x"⟩ (const ⟨"a"⟩)
      (pi z (app (const ⟨"p"⟩) (app (var ⟨"f"⟩) (var ⟨"x"⟩))) type))

/-- The variables of arrows are not printed, and may be those of the binders around. -/
theorem render_unambiguous_arrows :
    (twoArrows ⟨"y"⟩ ⟨"z"⟩).render = "\\f : a -> a. (x : a) -> p (f x) -> Type" ∧
      (twoArrows ⟨"f"⟩ ⟨"x"⟩).render = "\\f : a -> a. (x : a) -> p (f x) -> Type" ∧
      alphaEquivalent (twoArrows ⟨"y"⟩ ⟨"z"⟩) (twoArrows ⟨"f"⟩ ⟨"x"⟩) = true := by
  have hl : (twoArrows ⟨"y"⟩ ⟨"z"⟩).render = "\\f : a -> a. (x : a) -> p (f x) -> Type" := by
    decide +kernel
  have hr : (twoArrows ⟨"f"⟩ ⟨"x"⟩).render = "\\f : a -> a. (x : a) -> p (f x) -> Type" := by
    decide +kernel
  refine ⟨hl, hr, render_unambiguous _ _ ?_ ?_ (hl.trans hr.symm)⟩
  · decide +kernel
  · decide +kernel

end LogicalFramework.Term

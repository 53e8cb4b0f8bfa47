import LogicalFramework.Proofs.Dependence
import LogicalFramework.Proofs.Tokens
import LogicalFramework.Term.Printer

/-!
# The forms of printed terms

A printed term has parentheses only where they are needed, a product that does not depend on its
variable is printed without it, and constants and variables look alike. A text is read from the
left, and what follows a term tells where the term ends. In parentheses, and as a type or a scope,
a term is followed by a closing parenthesis, a dot or nothing. The domain of an arrow is followed
by the arrow. The head of an application is followed by arguments, so that an application is
printed as the head of its spine with all arguments.

* `Text.Closes`, `Text.EndsOperand`, `Text.EndsName` — what follows a term, an operand or a name;
* `Term.PrintedForm` — the four forms in which a term is printed;
* `Term.operand_eq_spine` — a printed operand as a spine;
* `Term.IsLegible` — that identifiers are plain names and constants are told from variables;
* `Term.argument_cases` — the three forms of a printed argument, known by the first character.
-/

namespace LogicalFramework

/-! ## Names -/

/-- The characters of plain names: ASCII letters and digits, and four more. -/
def Text.isNameChar (c : Char) : Bool :=
  c.isAlphanum || "_$-'".toList.contains c

/-- That an identifier is a text of name characters and not the sort `Type`. -/
structure IsPlainName (id : String) : Prop where
  /-- There is a character. -/
  ne_empty : id ≠ ""
  /-- All are name characters. -/
  chars : ∀ c ∈ id.toList, Text.isNameChar c = true
  /-- It is not the sort `Type`. -/
  ne_type : id ≠ "Type"

instance (id : String) : Decidable (IsPlainName id) :=
  have : Decidable (∀ c ∈ id.toList, Text.isNameChar c = true) := List.decidableBAll _ _
  decidable_of_iff (id ≠ "" ∧ (∀ c ∈ id.toList, Text.isNameChar c = true) ∧ id ≠ "Type")
    ⟨fun ⟨h₁, h₂, h₃⟩ => ⟨h₁, h₂, h₃⟩, fun ⟨h₁, h₂, h₃⟩ => ⟨h₁, h₂, h₃⟩⟩

/-- The identifiers of a term: those of constants, of variables, bound or free, and of
meta-variables. -/
def Term.identifiers (t : Term) : List String :=
  t.constants.map Constant.id ++ t.allVariables.map Variable.id ++
    t.metaVariables.map MetaVariable.id

/-! ## What follows a printed term -/

namespace Text

/-- That a text ends the term before it: a closing parenthesis, a dot or nothing follows. -/
def Closes (rest : List Char) : Prop :=
  ∀ c ∈ rest.head?, c = ')' ∨ c = '.'

/-- That a text ends the operand before it: it ends the term, or an arrow follows. -/
def EndsOperand (rest : List Char) : Prop :=
  Closes rest ∨ ∃ more, rest = ' ' :: '-' :: '>' :: more

/-- That a text ends the name before it. -/
def EndsName (rest : List Char) : Prop :=
  ∀ c ∈ rest.head?, c = ' ' ∨ c = ')' ∨ c = '.'

/-- That a character begins an operand or an argument. -/
def Begins (c : Char) : Prop :=
  isNameChar c = true ∨ c = '?' ∨ c = '('

instance (c : Char) : Decidable (Begins c) :=
  inferInstanceAs (Decidable (_ ∨ _ ∨ _))

variable {rest rest' : List Char}

theorem closes_paren (rest : List Char) : Closes (')' :: rest) := by
  rintro c ⟨⟩
  exact Or.inl rfl

theorem closes_dot (rest : List Char) : Closes ('.' :: rest) := by
  rintro c ⟨⟩
  exact Or.inr rfl

theorem not_closes_blank (rest : List Char) : ¬ Closes (' ' :: rest) := by
  intro h
  exact absurd (h ' ' rfl) (by decide)

theorem endsOperand_arrow (rest : List Char) : EndsOperand (' ' :: '-' :: '>' :: rest) :=
  Or.inr ⟨rest, rfl⟩

theorem endsName_blank (rest : List Char) : EndsName (' ' :: rest) := by
  rintro c ⟨⟩
  exact Or.inl rfl

theorem EndsOperand.endsName (h : EndsOperand rest) : EndsName rest := by
  rcases h with h | ⟨more, rfl⟩
  · exact fun c hc => Or.inr (h c hc)
  · exact endsName_blank _

theorem EndsName.isRun {name : List Char} (hname : ∀ c ∈ name, isNameChar c = true)
    (h : EndsName rest) : Token.IsRun isNameChar name rest := by
  refine ⟨hname, fun c hc => ?_⟩
  rcases h c hc with rfl | rfl | rfl <;> decide

theorem name_append_ne {name : String} (hne : name ≠ "")
    (hchars : ∀ c ∈ name.toList, isNameChar c = true) {c : Char} (hc : isNameChar c = false)
    (rest more : List Char) : name.toList ++ rest ≠ c :: more := by
  cases hname : name.toList with
  | nil => exact absurd (String.toList_eq_nil_iff.mp hname) hne
  | cons d ds =>
    intro he
    have hd : isNameChar d = true := hchars d (by simp [hname])
    rw [(List.cons.inj he).1, hc] at hd
    exact Bool.false_ne_true hd

/-- A name is as long as it can be, so a text that begins with a name determines it. -/
theorem isRun_append_inj {p : Char → Bool} {name name' : List Char}
    (h : Token.IsRun p name rest) (h' : Token.IsRun p name' rest')
    (heq : name ++ rest = name' ++ rest') : name = name' ∧ rest = rest' := by
  have hname := h.takeWhile_eq
  have hrest := h.dropWhile_eq
  rw [heq] at hname hrest
  exact ⟨hname.symm.trans h'.takeWhile_eq, hrest.symm.trans h'.dropWhile_eq⟩

end Text

open Text

/-- A name does not begin like anything else. -/
theorem IsPlainName.append_ne {id : String} (h : IsPlainName id) {c : Char}
    (hc : isNameChar c = false) (rest more : List Char) : id.toList ++ rest ≠ c :: more :=
  name_append_ne h.ne_empty h.chars hc rest more

/-- A plain name before something that ends it is determined by the text. -/
theorem IsPlainName.append_inj {id id' : String} (h : IsPlainName id) (h' : IsPlainName id')
    {rest rest' : List Char} (hrest : EndsName rest) (hrest' : EndsName rest')
    (heq : id.toList ++ rest = id'.toList ++ rest') : id = id' ∧ rest = rest' := by
  obtain ⟨hname, hrests⟩ := isRun_append_inj (hrest.isRun h.chars) (hrest'.isRun h'.chars) heq
  exact ⟨String.toList_inj.mp hname, hrests⟩

namespace Term

/-! ## Forms -/

/-- The characters of a printed term. -/
def shown (t : Term) : List Char :=
  t.render.toList

/-- A printed term as the head of an application or the domain of an arrow. -/
def operand (t : Term) : List Char :=
  if t.isBinder then '(' :: (t.shown ++ [')']) else t.shown

/-- A printed term as an argument. -/
def argument (t : Term) : List Char :=
  if t.isAtom then t.shown else '(' :: (t.shown ++ [')'])

theorem shown_lam (x : Variable) (A s : Term) :
    (lam x A s).shown =
      '\\' :: (x.id.toList ++ ' ' :: ':' :: ' ' :: (A.shown ++ '.' :: ' ' :: s.shown)) := by
  simp [shown, render, Variable.render]

theorem shown_product (x : Variable) (A : Term) {s : Term} (h : s.occursFree x = true) :
    (pi x A s).shown = '(' :: (x.id.toList ++
      ' ' :: ':' :: ' ' :: (A.shown ++ ')' :: ' ' :: '-' :: '>' :: ' ' :: s.shown)) := by
  simp [shown, render, Variable.render, h]

theorem shown_arrow (x : Variable) (A : Term) {s : Term} (h : s.occursFree x = false) :
    (pi x A s).shown = A.operand ++ ' ' :: '-' :: '>' :: ' ' :: s.shown := by
  cases hA : A.isBinder <;> simp [shown, operand, render, h, hA, parenthesized]

theorem shown_metaVar (m : MetaVariable) : (metaVar m).shown = '?' :: m.id.toList := by
  simp [shown, render, MetaVariable.render]

theorem shown_of_not_isBinder {t : Term} (h : t.isBinder = false) : t.shown = t.operand := by
  rw [operand, h, if_neg Bool.false_ne_true]

/-- The four forms in which a term is printed. -/
inductive PrintedForm : Term → Prop where
  | operand {t : Term} (h : t.isBinder = false) : PrintedForm t
  | lam (x : Variable) (A s : Term) : PrintedForm (lam x A s)
  | product (x : Variable) (A s : Term) (h : s.occursFree x = true) : PrintedForm (pi x A s)
  | arrow (x : Variable) (A s : Term) (h : s.occursFree x = false) : PrintedForm (pi x A s)

theorem printedForm (t : Term) : PrintedForm t := by
  cases t with
  | bind q x A s =>
    cases q with
    | lam => exact .lam x A s
    | pi =>
      cases hfree : s.occursFree x with
      | true => exact .product x A s hfree
      | false => exact .arrow x A s hfree
  | _ => exact .operand rfl

/-! ## Spines -/

theorem operand_app (h a : Term) : (app h a).operand = h.operand ++ ' ' :: a.argument := by
  have happ : (app h a).isBinder = false := rfl
  cases hh : h.isBinder <;> cases ha : a.isAtom <;>
    simp [shown, operand, argument, render, happ, hh, ha, parenthesized]

/-- Printed arguments, each after a blank. -/
def argumentsShown (as : List Term) : List Char :=
  as.flatMap fun a => ' ' :: a.argument

/-- An operand is the head of its spine, printed as an argument, followed by the arguments. -/
theorem operand_eq_spine (t : Term) :
    t.operand = t.spineHead.argument ++ argumentsShown t.arguments := by
  induction t with
  | app h a ihh _ => simp [operand_app, ihh, spineHead, arguments_app, argumentsShown]
  | _ =>
    simp [argumentsShown, spineHead, arguments, spineArguments, operand, argument, isBinder, isAtom]

theorem endsName_argumentsShown (as : List Term) {rest : List Char} (h : EndsName rest) :
    EndsName (argumentsShown as ++ rest) := by
  cases as with
  | nil => exact h
  | cons a as => exact endsName_blank _

/-- The head of a spine is an atom or a binder. -/
theorem isBinder_spineHead {t : Term} (h : t.spineHead.isAtom = false) :
    t.spineHead.isBinder = true := by
  induction t with
  | app f a ihf _ => exact ihf h
  | bind q x A s => rfl
  | _ => exact absurd h (by simp [spineHead, isAtom])

/-! ## Legible terms -/

/-- That the identifiers of a term are plain names, those of its constants being on a list and those
of its variables not. -/
def IsLegible (names : List String) : Term → Prop
  | type => True
  | const c => IsPlainName c.id ∧ c.id ∈ names
  | var x => IsPlainName x.id ∧ x.id ∉ names
  | metaVar m => IsPlainName m.id
  | app h a => h.IsLegible names ∧ a.IsLegible names
  | bind _ x A s => IsPlainName x.id ∧ A.IsLegible names ∧ s.IsLegible names

variable {names : List String}

/-- A term is legible if its identifiers are plain names and constants and variables are told
apart. -/
theorem isLegible_of_mem {t : Term}
    (hconstants : ∀ c ∈ t.constants, IsPlainName c.id ∧ c.id ∈ names)
    (hvariables : ∀ x ∈ t.allVariables, IsPlainName x.id ∧ x.id ∉ names)
    (hmetas : ∀ m ∈ t.metaVariables, IsPlainName m.id) : t.IsLegible names := by
  induction t with
  | type => trivial
  | const c => exact hconstants c (by simp [constants])
  | var x => exact hvariables x (by simp [allVariables, collectVariables])
  | metaVar m => exact hmetas m (by simp [metaVariables, collectMetaVariables])
  | app f a ihf iha =>
    simp only [constants, List.mem_append] at hconstants
    simp only [mem_allVariables_app] at hvariables
    simp only [mem_metaVariables_app] at hmetas
    exact ⟨ihf (fun c hc => hconstants c (Or.inl hc)) (fun x hx => hvariables x (Or.inl hx))
        (fun m hm => hmetas m (Or.inl hm)),
      iha (fun c hc => hconstants c (Or.inr hc)) (fun x hx => hvariables x (Or.inr hx))
        (fun m hm => hmetas m (Or.inr hm))⟩
  | bind q x A s ihA ihs =>
    simp only [constants, List.mem_append] at hconstants
    simp only [mem_allVariables_bind] at hvariables
    simp only [mem_metaVariables_bind] at hmetas
    exact ⟨(hvariables x (Or.inl rfl)).1,
      ihA (fun c hc => hconstants c (Or.inl hc)) (fun x hx => hvariables x (Or.inr (Or.inl hx)))
        (fun m hm => hmetas m (Or.inl hm)),
      ihs (fun c hc => hconstants c (Or.inr hc)) (fun x hx => hvariables x (Or.inr (Or.inr hx)))
        (fun m hm => hmetas m (Or.inr hm))⟩

theorem isLegible_of_identifiers {t : Term} (hnames : ∀ id ∈ t.identifiers, IsPlainName id)
    (hconstants : ∀ c ∈ t.constants, c.id ∈ names)
    (hvariables : ∀ x ∈ t.allVariables, x.id ∉ names) : t.IsLegible names := by
  refine isLegible_of_mem (fun c hc => ⟨hnames c.id ?_, hconstants c hc⟩)
    (fun x hx => ⟨hnames x.id ?_, hvariables x hx⟩) fun m hm => hnames m.id ?_
  · exact List.mem_append_left _ (List.mem_append_left _ (List.mem_map_of_mem hc))
  · exact List.mem_append_left _ (List.mem_append_right _ (List.mem_map_of_mem hx))
  · exact List.mem_append_right _ (List.mem_map_of_mem hm)

theorem IsLegible.spineHead {t : Term} (h : t.IsLegible names) : t.spineHead.IsLegible names := by
  induction t with
  | app f a ihf _ => exact ihf h.1
  | _ => exact h

theorem IsLegible.arguments {t : Term} (h : t.IsLegible names) :
    ∀ a ∈ t.arguments, a.IsLegible names := by
  induction t with
  | app f a ihf _ =>
    rw [arguments_app]
    intro b hb
    rcases List.mem_append.mp hb with hb | hb
    · exact ihf h.1 b hb
    · exact List.mem_singleton.mp hb ▸ h.2
  | _ => exact fun a ha => absurd ha List.not_mem_nil

/-- The name that a term is printed as, if it is no more than a name. -/
def name? : Term → Option String
  | type => some "Type"
  | const c => some c.id
  | var x => some x.id
  | _ => none

theorem exists_name?_or_metaVar {t : Term} (h : t.isAtom = true) :
    (∃ n, t.name? = some n) ∨ ∃ m, t = metaVar m := by
  cases t with
  | type => exact Or.inl ⟨_, rfl⟩
  | const c => exact Or.inl ⟨_, rfl⟩
  | var x => exact Or.inl ⟨_, rfl⟩
  | metaVar m => exact Or.inr ⟨m, rfl⟩
  | app f a => exact absurd h Bool.false_ne_true
  | bind q x A s => exact absurd h Bool.false_ne_true

theorem shown_of_name? {t : Term} {n : String} (h : t.name? = some n) : t.shown = n.toList := by
  cases t with
  | type =>
    cases h
    rfl
  | const c =>
    cases h
    rfl
  | var x =>
    cases h
    rfl
  | _ => exact absurd h (by simp [name?])

theorem IsLegible.name_chars {t : Term} {n : String} (ht : t.IsLegible names)
    (h : t.name? = some n) : n ≠ "" ∧ ∀ c ∈ n.toList, isNameChar c = true := by
  cases t with
  | type =>
    cases h
    exact ⟨by decide, List.all_eq_true.mp (by decide)⟩
  | const c =>
    cases h
    exact ⟨ht.1.ne_empty, ht.1.chars⟩
  | var x =>
    cases h
    exact ⟨ht.1.ne_empty, ht.1.chars⟩
  | _ => exact absurd h (by simp [name?])

/-- Terms that are printed as the same name are the same: neither a constant nor a variable is
called `Type`, and none is called like one of the other kind. -/
theorem IsLegible.eq_of_name? {t u : Term} {n : String} (ht : t.IsLegible names)
    (hu : u.IsLegible names) (h : t.name? = some n) (h' : u.name? = some n) : t = u := by
  cases t with
  | type =>
    cases h
    cases u with
    | type => rfl
    | const d => exact absurd (Option.some.inj h') hu.1.ne_type
    | var y => exact absurd (Option.some.inj h') hu.1.ne_type
    | _ => exact absurd h' (by simp [name?])
  | const c =>
    cases h
    cases u with
    | type => exact absurd (Option.some.inj h').symm ht.1.ne_type
    | const d => exact congrArg const (Constant.ext (Option.some.inj h').symm)
    | var y => exact absurd ht.2 (Option.some.inj h' ▸ hu.2)
    | _ => exact absurd h' (by simp [name?])
  | var x =>
    cases h
    cases u with
    | type => exact absurd (Option.some.inj h').symm ht.1.ne_type
    | const d => exact absurd hu.2 ((Option.some.inj h').symm ▸ ht.2)
    | var y => exact congrArg var (Variable.ext (Option.some.inj h').symm)
    | _ => exact absurd h' (by simp [name?])
  | _ => exact absurd h (by simp [name?])

/-! ## First characters -/

theorem IsLegible.name_append_ne {t : Term} {n : String} (ht : t.IsLegible names)
    (h : t.name? = some n) {c : Char} (hc : isNameChar c = false) (rest more : List Char) :
    n.toList ++ rest ≠ c :: more :=
  Text.name_append_ne (ht.name_chars h).1 (ht.name_chars h).2 hc rest more

/-- An argument is printed as a name, as a meta-variable or in parentheses. -/
theorem argument_cases (t : Term) :
    (∃ n, t.name? = some n ∧ t.argument = n.toList) ∨
      (∃ m, t = metaVar m ∧ t.argument = '?' :: m.id.toList) ∨
      t.isAtom = false ∧ t.argument = '(' :: (t.shown ++ [')']) := by
  unfold argument
  cases hatom : t.isAtom with
  | true =>
    rcases exists_name?_or_metaVar hatom with ⟨n, hn⟩ | ⟨m, rfl⟩
    · exact Or.inl ⟨n, hn, shown_of_name? hn⟩
    · exact Or.inr (Or.inl ⟨m, rfl, shown_metaVar m⟩)
  | false => exact Or.inr (Or.inr ⟨rfl, rfl⟩)

theorem IsLegible.argument_append_ne {t : Term} (ht : t.IsLegible names) {c : Char}
    (hc : ¬ Begins c) (rest more : List Char) : t.argument ++ rest ≠ c :: more := by
  simp only [Begins, not_or, Bool.not_eq_true] at hc
  rcases t.argument_cases with ⟨n, hn, harg⟩ | ⟨m, _, harg⟩ | ⟨_, harg⟩
  · rw [harg]
    exact ht.name_append_ne hn hc.1 rest more
  · rw [harg]
    exact fun he => hc.2.1 (List.cons.inj he).1.symm
  · rw [harg]
    exact fun he => hc.2.2 (List.cons.inj he).1.symm

theorem IsLegible.operand_append_ne {t : Term} (ht : t.IsLegible names) {c : Char}
    (hc : ¬ Begins c) (rest more : List Char) : t.operand ++ rest ≠ c :: more := by
  rw [operand_eq_spine, List.append_assoc]
  exact ht.spineHead.argument_append_ne hc _ more

end Term

end LogicalFramework

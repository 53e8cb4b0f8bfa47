import LogicalFramework.Union
import LogicalFramework.Validation

/-!
# Reports

Terms, declarations and failures as trees of labelled parts, for display. Nothing reads a report
back.
-/

namespace LogicalFramework

/-- A tree of labelled parts. -/
inductive Report where
  /-- A text. -/
  | text (s : String)
  /-- A number. -/
  | number (n : UInt64)
  /-- A sequence of parts. -/
  | sequence (items : List Report)
  /-- Parts with labels. -/
  | record (fields : List (String × Report))

/-! ## Identifiers, terms and sorts -/

/-- A literal is reported as a number, any other constant by its name. -/
def Constant.report (c : Constant) : Report :=
  match c.natural? with
  | some n => .number n
  | none => .text c.id

/-- A variable is reported by its name. -/
def Variable.report (x : Variable) : Report :=
  .text x.id

/-- A meta-variable is reported by its name. -/
def MetaVariable.report (m : MetaVariable) : Report :=
  .text m.id

/-- The key of the literals is reported as it is shown, a constant as such. -/
def SignatureKey.report : SignatureKey → Report
  | .constant c => c.report
  | .naturals => .text SignatureKey.naturals.render

/-- The label of a binder in a report. -/
def Binder.label : Binder → String
  | .lam => "lambda"
  | .pi => "pi"

/-- The report of a term. -/
def Term.report : Term → Report
  | .type => .text "Type"
  | .const c => c.report
  | .var x => x.report
  | .metaVar m => m.report
  | .app h a => .record [("application", .record [("head", h.report), ("argument", a.report)])]
  | .bind q x A s =>
    .record [(q.label, .record [("bound", x.report), ("type", A.report), ("scope", s.report)])]

/-- The report of a sort. -/
def TermSort.report : TermSort → Report
  | .kind => .text "Kind"
  | .term t => t.report

/-! ## Failures -/

/-- The label of an error in a report. -/
def SortError.label : SortError → String
  | undeclaredConstant _ => "UndeclaredConstant"
  | undeclaredVariable _ => "UndeclaredVariable"
  | undeclaredMetaVariable _ => "UndeclaredMetaVariable"
  | redeclaredVariable _ => "RedeclaredVariable"
  | mismatch _ _ _ => "FailedCheck"
  | notPi _ _ => "FailedCheckPi"
  | notObjectOrFamily _ _ => "FailedCheckObjectOrFamily"
  | notFamilyOrKind _ _ => "FailedCheckFamilyOrKind"
  | within _ _ => "BadChildSort"

/-- The report of an error. The errors inside it are reported with it. -/
def SortError.report (e : SortError) : Report :=
  .record (("error", .text e.label) ::
    match e with
    | undeclaredConstant c => [("id", c.report)]
    | undeclaredVariable x => [("id", x.report)]
    | undeclaredMetaVariable m => [("id", m.report)]
    | redeclaredVariable x => [("id", x.report)]
    | mismatch t expected actual =>
      [("subject", t.report), ("expected", expected.report), ("actual", actual.report)]
    | notPi t actual => [("subject", t.report), ("actual", actual.report)]
    | notObjectOrFamily t actual => [("subject", t.report), ("actual", actual.report)]
    | notFamilyOrKind t actual => [("subject", t.report), ("actual", actual.report)]
    | within t cause => [("subject", t.report), ("child", cause.report)])

/-- How declarations of one kind are reported. -/
structure DeclarationStyle (κ : Type) where
  /-- The report of a key. -/
  key : κ → Report
  /-- The label of a second declaration. -/
  redeclared : String

/-- The label of a fault in a report. -/
def DeclarationError.label {κ : Type} (style : DeclarationStyle κ) : DeclarationError κ → String
  | redeclared _ => style.redeclared
  | illSorted _ _ => "BadEntry"

/-- The report of a fault. -/
def DeclarationError.report {κ : Type} (style : DeclarationStyle κ) (e : DeclarationError κ) :
    Report :=
  .record (("error", .text (e.label style)) ::
    match e with
    | redeclared key => [("id", style.key key)]
    | illSorted key cause => [("id", style.key key), ("cause", cause.report)])

/-- How signatures are reported. -/
def Signature.style : DeclarationStyle SignatureKey :=
  ⟨SignatureKey.report, "RedeclaredConstant"⟩

/-- How contexts are reported. -/
def Context.style : DeclarationStyle Variable :=
  ⟨Variable.report, "RedeclaredVariable"⟩

/-- How meta-contexts are reported. -/
def MetaContext.style : DeclarationStyle MetaVariable :=
  ⟨MetaVariable.report, "RedeclaredMetaVariable"⟩

/-- The label of an incompatibility in a report. -/
def Incompatibility.label : String :=
  "CtxIncompatibility"

/-- The report of an incompatibility. -/
def Incompatibility.report (e : Incompatibility) : Report :=
  .record [("error", .text Incompatibility.label), ("id", e.x.report), ("left", e.left.report),
    ("right", e.right.report)]

/-! ## Declarations -/

/-- The report of declarations, oldest first. -/
def Bindings.report {κ : Type} (style : DeclarationStyle κ) (b : Bindings κ Term) : Report :=
  .sequence (b.oldestFirst.map fun (key, sort) =>
    .record [("id", style.key key), ("sort", sort.report)])

end LogicalFramework

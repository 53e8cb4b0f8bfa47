import LogicalFramework.Identifier

/-!
# Terms and sorts

Terms of the λΠ-calculus with named variables. A binder binds its variable in its scope and not in
the type of the variable. Equality of terms is syntactic: nothing is renamed, and identifiers of
different kinds are different terms.
-/

namespace LogicalFramework

/-- The two ways to bind a variable. -/
inductive Binder where
  /-- Abstraction. -/
  | lam
  /-- Dependent product. -/
  | pi
deriving DecidableEq

/-- Terms of the λΠ-calculus. -/
inductive Term where
  /-- The sort of all families. -/
  | type
  /-- A declared constant or a literal. -/
  | const (c : Constant)
  /-- A variable, bound or free. -/
  | var (x : Variable)
  /-- A term yet to be found. -/
  | metaVar (m : MetaVariable)
  /-- The application of `head` to `argument`. -/
  | app (head argument : Term)
  /-- A binder of `x` with its type. The variable is bound in `scope` only. -/
  | bind (binder : Binder) (x : Variable) (domain scope : Term)
deriving DecidableEq

/-- What classifies a term: a term, that is `Type` or a family, or `Kind`, which is not a term and
is itself not classified. -/
inductive TermSort where
  /-- The sort of `Type` and of the kinds of families. -/
  | kind
  /-- A term as a sort. -/
  | term (t : Term)
deriving DecidableEq

namespace Term

/-- The abstraction of `x` over `scope`. -/
@[match_pattern]
abbrev lam (x : Variable) (domain scope : Term) : Term :=
  .bind .lam x domain scope

/-- The dependent product of `scope` over `x`. -/
@[match_pattern]
abbrev pi (x : Variable) (domain scope : Term) : Term :=
  .bind .pi x domain scope

/-- The literal with value `n`. -/
def natural (n : UInt64) : Term :=
  .const (.natural n)

/-! ## Shapes -/

/-- Whether the term is `Type`. -/
def isType : Term → Bool
  | type => true
  | _ => false

/-- Whether the term is a constant. -/
def isConstant : Term → Bool
  | const _ => true
  | _ => false

/-- Whether the term is a literal. -/
def isNatural : Term → Bool
  | const c => c.isNatural
  | _ => false

/-- Whether the term is a variable. -/
def isVariable : Term → Bool
  | var _ => true
  | _ => false

/-- Whether the term is a meta-variable. -/
def isMetaVariable : Term → Bool
  | metaVar _ => true
  | _ => false

/-- Whether the term is an application. -/
def isApplication : Term → Bool
  | app _ _ => true
  | _ => false

/-- Whether the term is an abstraction. -/
def isLambda : Term → Bool
  | lam _ _ _ => true
  | _ => false

/-- Whether the term is a dependent product. -/
def isPi : Term → Bool
  | pi _ _ _ => true
  | _ => false

/-- Whether the term is an abstraction or a dependent product. -/
def isBinder : Term → Bool
  | bind _ _ _ _ => true
  | _ => false

/-- Whether the term has no subterms. -/
def isAtom : Term → Bool
  | app _ _ => false
  | bind _ _ _ _ => false
  | _ => true

/-- The variable, its type and the scope of a binder. -/
def binder? : Term → Option (Variable × Term × Term)
  | bind _ x A s => some (x, A, s)
  | _ => none

/-- The number of nodes. -/
def size : Term → Nat
  | app h a => h.size + a.size + 1
  | bind _ _ A s => A.size + s.size + 1
  | _ => 1

theorem size_pos (t : Term) : 0 < t.size := by
  cases t <;> simp [size]

/-! ## Application spines -/

/-- The application of a head to a list of arguments, first argument first. -/
def applyAll (head : Term) (arguments : List Term) : Term :=
  arguments.foldl app head

/-- The head of an application spine, that is the term left when all arguments are taken off. -/
def spineHead : Term → Term
  | app h _ => h.spineHead
  | t => t

/-- The arguments of an application spine, put before `more`. -/
def spineArguments : Term → List Term → List Term
  | app h a, more => h.spineArguments (a :: more)
  | _, more => more

/-- The arguments of an application spine, first argument first. -/
def arguments (t : Term) : List Term :=
  t.spineArguments []

theorem applyAll_spineArguments (t : Term) (more : List Term) :
    applyAll t.spineHead (t.spineArguments more) = applyAll t more := by
  induction t generalizing more with
  | app h a ihh _ => exact ihh (a :: more)
  | _ => rfl

/-- A term is its head applied to its arguments. -/
theorem applyAll_arguments (t : Term) : applyAll t.spineHead t.arguments = t :=
  applyAll_spineArguments t []

theorem spineArguments_eq_append (t : Term) (more : List Term) :
    t.spineArguments more = t.arguments ++ more := by
  unfold arguments
  induction t generalizing more with
  | app h a ihh _ =>
    rw [spineArguments, spineArguments, ihh (a :: more), ihh [a], List.append_assoc]
    rfl
  | _ => rfl

/-- The last argument of an application comes after those of its head. -/
theorem arguments_app (h a : Term) : (app h a).arguments = h.arguments ++ [a] :=
  spineArguments_eq_append h [a]

end Term

namespace TermSort

/-- The sort `Type`. -/
def type : TermSort :=
  .term .type

/-- Whether the sort is `Kind`. -/
def isKind : TermSort → Bool
  | kind => true
  | term _ => false

/-- The sort as a term, which `Kind` is not. -/
def term? : TermSort → Option Term
  | kind => none
  | term t => some t

end TermSort

end LogicalFramework

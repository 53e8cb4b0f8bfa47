import LogicalFramework.Sorting

/-!
# Well-formed environments

Declarations are validated from the newest to the oldest. A declaration must not declare again what
an older one declares, and its sort must be admitted by the older ones. The first fault that is met
is reported, a second declaration before a bad sort.
-/

namespace LogicalFramework

/-- A fault of a declaration. -/
inductive DeclarationError (κ : Type) where
  /-- An older declaration has the same key. -/
  | redeclared (key : κ)
  /-- The declared sort is not admitted. -/
  | illSorted (key : κ) (cause : SortError)
deriving DecidableEq

/-- The sort errors behind a fault, outermost first. -/
def DeclarationError.causes {κ : Type} : DeclarationError κ → List SortError
  | redeclared _ => []
  | illSorted _ cause => cause.trace

/-- Validates declarations, newest first. The condition on a declared sort depends on the
declarations older than it. -/
def Bindings.validate {κ : Type} [DecidableEq κ]
    (admitted : Bindings κ Term → Term → Outcome SortError Unit) (b : Bindings κ Term) :
    Outcome (DeclarationError κ) Unit :=
  go b.newestFirst
where
  /-- Validates a list of declarations, newest first. -/
  go : List (κ × Term) → Outcome (DeclarationError κ) Unit
    | [] => .ok ()
    | (key, sort) :: older =>
      if (Bindings.mk older).contains key then .fail (.redeclared key)
      else do
        (admitted ⟨older⟩ sort).mapFail (.illSorted key)
        go older

/-- A signature is well formed if every declared sort is a family or a kind. -/
def Signature.validate (fuel : Nat) (sig : Signature) :
    Outcome (DeclarationError SignatureKey) Unit :=
  Bindings.validate (fun older sort => do
    expectFamilyOrKind fuel sort (← (Environment.ofSignature older).sortOf fuel sort)) sig

/-- A context is well formed if every declared sort has sort `Type`. -/
def Context.validate (fuel : Nat) (sig : Signature) (ctx : Context) :
    Outcome (DeclarationError Variable) Unit :=
  Bindings.validate (fun older sort => Environment.check fuel ⟨sig, older, .empty⟩ sort .type) ctx

/-- A meta-context is well formed if every declared sort has sort `Type`. The sorts may mention all
variables of the context. -/
def MetaContext.validate (fuel : Nat) (sig : Signature) (ctx : Context) (metas : MetaContext) :
    Outcome (DeclarationError MetaVariable) Unit :=
  Bindings.validate (fun older sort => Environment.check fuel ⟨sig, ctx, older⟩ sort .type) metas

/-- A fault of an environment. -/
inductive EnvironmentError where
  /-- A fault of the signature. -/
  | signature (error : DeclarationError SignatureKey)
  /-- A fault of the context. -/
  | context (error : DeclarationError Variable)
  /-- A fault of the meta-context. -/
  | metas (error : DeclarationError MetaVariable)
deriving DecidableEq

/-- Validates the signature, then the context, then the meta-context. -/
def Environment.validate (fuel : Nat) (env : Environment) : Outcome EnvironmentError Unit := do
  (env.signature.validate fuel).mapFail .signature
  (Context.validate fuel env.signature env.context).mapFail .context
  (MetaContext.validate fuel env.signature env.context env.metas).mapFail .metas

/-! ## Texts -/

/-- How faults of one kind of declarations are worded. -/
structure DeclarationWording (κ : Type) where
  /-- A declared key. -/
  key : κ → String
  /-- A key that is declared twice. -/
  declared : κ → String
  /-- The kind of declarations. -/
  entry : String

/-- The text of a fault. -/
def DeclarationError.message {κ : Type} (wording : DeclarationWording κ) :
    DeclarationError κ → String
  | redeclared key => wording.declared key ++ " is declared more than once"
  | illSorted key _ => "bad " ++ wording.entry ++ " entry for " ++ wording.key key

/-- The wording for signatures. -/
def Signature.wording : DeclarationWording SignatureKey :=
  ⟨SignatureKey.render, SignatureKey.render, "signature"⟩

/-- The wording for contexts. -/
def Context.wording : DeclarationWording Variable :=
  ⟨Variable.render, fun x => "variable " ++ x.render, "context"⟩

/-- The wording for meta-contexts. -/
def MetaContext.wording : DeclarationWording MetaVariable :=
  ⟨MetaVariable.render, fun m => "meta-variable " ++ m.render, "meta-context"⟩

end LogicalFramework

import LogicalFramework.Bindings
import LogicalFramework.Term

/-!
# Environments

A term is judged in an environment: a signature that declares constants, a context that declares
variables and a meta-context that declares meta-variables. None of them rejects a second
declaration of a name. Whether they are well formed is judged separately.
-/

namespace LogicalFramework

/-- Declared sorts of variables. -/
abbrev Context := Bindings Variable Term

/-- Declared sorts of meta-variables. -/
abbrev MetaContext := Bindings MetaVariable Term

/-- What a signature declares: a constant, or all literals at once. -/
inductive SignatureKey where
  /-- A constant by its name. -/
  | constant (c : Constant)
  /-- The literals, whatever their value. -/
  | naturals
deriving DecidableEq

namespace SignatureKey

/-- The key under which a constant is declared. -/
def of (c : Constant) : SignatureKey :=
  if c.isNatural then naturals else constant c

/-- A key as it is shown to a reader. -/
def render : SignatureKey → String
  | constant c => c.render
  | naturals => "<natural numbers>"

/-- The constant that a key declares by name. -/
def constant? : SignatureKey → Option Constant
  | constant c => some c
  | naturals => none

end SignatureKey

/-- Declared sorts of constants and of the literals. -/
abbrev Signature := Bindings SignatureKey Term

namespace Signature

/-- The declared sort of a constant. All literals have the sort declared for literals. -/
def sortOf? (sig : Signature) (c : Constant) : Option Term :=
  sig.lookup (.of c)

/-- Whether a constant has a declared sort. -/
def declares (sig : Signature) (c : Constant) : Bool :=
  (sig.sortOf? c).isSome

/-- The constants declared by name, newest first, each once. -/
def constants (sig : Signature) : List Constant :=
  sig.keys.filterMap SignatureKey.constant?

end Signature

/-- A signature, a context and a meta-context. -/
structure Environment where
  /-- The sorts of constants. -/
  signature : Signature
  /-- The sorts of variables. -/
  context : Context
  /-- The sorts of meta-variables. -/
  metas : MetaContext
deriving DecidableEq

namespace Environment

/-- The environment that declares constants only. -/
def ofSignature (sig : Signature) : Environment :=
  ⟨sig, .empty, .empty⟩

/-- The environment with one more variable. -/
def extend (env : Environment) (x : Variable) (sort : Term) : Environment :=
  { env with context := env.context.add x sort }

end Environment

end LogicalFramework

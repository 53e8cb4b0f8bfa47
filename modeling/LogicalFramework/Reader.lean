import LogicalFramework.Environment
import LogicalFramework.Reader.Token
import LogicalFramework.Term.Variables

/-!
# Written terms

Terms are written as parenthesized expressions.

    Type             the sort Type
    42               a literal
    ?m_0             a meta-variable
    c                a constant if the signature declares it, else a variable
    (lam x A b)      the abstraction of x of type A over b
    (pi x A B)       the product of B over x of type A
    (-> A B C)       the products A -> B -> C that do not depend on their variables
    (f a b)          the application of f to a and b

A reader takes one term from the front of its input and leaves the rest, also after an error. The
rest is never longer than the input, which is what makes the recursion end.
-/

namespace LogicalFramework

/-- Why no term can be read. -/
inductive ReadError where
  /-- The input ends too early. -/
  | endOfInput
  /-- A closing parenthesis where a term should begin. -/
  | unexpectedClose
  /-- An opening parenthesis that nothing follows but its closing one. -/
  | expectedTerm
  /-- A binder without a bound variable. -/
  | expectedSymbol
  /-- A binder that does not end after its scope. -/
  | expectedClose
  /-- A numeral that is too large for a literal. -/
  | numeralOutOfRange (text : String)
  /-- Something follows the term. -/
  | trailingInput
deriving DecidableEq

/-- The text of an error. -/
def ReadError.message : ReadError → String
  | endOfInput => "Unexpected EOF"
  | unexpectedClose => "Unexpected token: )"
  | expectedTerm => "Expected term"
  | expectedSymbol => "Expected symbol"
  | expectedClose => "Expected )"
  | numeralOutOfRange text => "Numeral out of range: " ++ text
  | trailingInput => "Trailing input after term"

namespace Reader

/-! ## Steps of reading -/

/-- What reading gives, and the input that is left. -/
structure Step (input : List Char) (α : Type) where
  /-- What was read, or why nothing could be. -/
  result : Except ReadError α
  /-- The input that is left. -/
  rest : List Char
  /-- Reading does not add to the input. -/
  length_rest : rest.length ≤ input.length

namespace Step

variable {α β : Type} {input : List Char}

/-- Continues reading after a success. -/
def andThen (step : Step input α)
    (f : α → (rest : List Char) → rest.length ≤ input.length → Step rest β) : Step input β :=
  match step.result with
  | .error e => ⟨.error e, step.rest, step.length_rest⟩
  | .ok a =>
    let next := f a step.rest step.length_rest
    ⟨next.result, next.rest, Nat.le_trans next.length_rest step.length_rest⟩

/-- A step on a shorter input as a step on the whole. -/
def widen {rest : List Char} (step : Step rest α) (h : rest.length ≤ input.length) :
    Step input α :=
  ⟨step.result, step.rest, Nat.le_trans step.length_rest h⟩

/-- Changes what was read. -/
def map (f : α → β) (step : Step input α) : Step input β :=
  ⟨step.result.map f, step.rest, step.length_rest⟩

/-- Reads nothing. -/
def done (result : Except ReadError α) : Step input α :=
  ⟨result, input, Nat.le_refl _⟩

/-- Finds the input at its end. -/
def atEnd : Step input α :=
  ⟨.error .endOfInput, [], Nat.zero_le _⟩

end Step

/-! ## Atoms -/

/-- The literal that a numeral denotes. -/
def literal (text : String) : Except ReadError Term :=
  match Decimal.word? text.toList with
  | some n => .ok (.natural n)
  | none => .error (.numeralOutOfRange text)

/-- The atom that a symbol denotes. -/
def atom (sig : Signature) (text : String) : Term :=
  if text = "Type" then .type
  else
    match text.toList with
    | '?' :: name => .metaVar ⟨String.ofList name⟩
    | _ => if sig.declares ⟨text⟩ then .const ⟨text⟩ else .var ⟨text⟩

/-- What a keyword after an opening parenthesis announces. -/
inductive Keyword where
  /-- A binder. -/
  | binder (q : Binder)
  /-- Products that do not depend on their variables. -/
  | arrow

/-- The keyword that a token is. -/
def keyword? : Token → Option Keyword
  | .symbol text =>
    if text = "lam" then some (.binder .lam)
    else if text = "pi" then some (.binder .pi)
    else if text = "->" then some .arrow
    else none
  | _ => none

/-- The products of a list of terms that do not depend on their variables, nested to the right. -/
def arrows (A : Term) : List Term → Term
  | [] => A
  | B :: more => A.arrow (arrows B more)

/-- Reads a bound variable. -/
def readBound (input : List Char) : Step input Variable :=
  match h : Token.next? input with
  | none => ⟨.error .expectedSymbol, [], Nat.zero_le _⟩
  | some (.symbol text, rest) => ⟨.ok ⟨text⟩, rest, Nat.le_of_lt (Token.length_lt_of_next? h)⟩
  | some (_, rest) => ⟨.error .expectedSymbol, rest, Nat.le_of_lt (Token.length_lt_of_next? h)⟩

/-- Reads the end of a binder. -/
def readClose (input : List Char) : Step input Unit :=
  match h : Token.next? input with
  | none => ⟨.error .expectedClose, [], Nat.zero_le _⟩
  | some (.closeParen, rest) => ⟨.ok (), rest, Nat.le_of_lt (Token.length_lt_of_next? h)⟩
  | some (_, rest) => ⟨.error .expectedClose, rest, Nat.le_of_lt (Token.length_lt_of_next? h)⟩

/-! ## Terms -/

mutual

/-- Reads a term. -/
def readTerm (sig : Signature) (input : List Char) : Step input Term :=
  match h : Token.next? input with
  | none => .atEnd
  | some (token, rest) =>
    have hlt := Token.length_lt_of_next? h
    (readFrom sig token rest).widen (Nat.le_of_lt hlt)
termination_by 2 * input.length

/-- Reads the term that begins with the given token, which is already taken off the input. -/
def readFrom (sig : Signature) (token : Token) (input : List Char) : Step input Term :=
  match token with
  | .numeral text => .done (literal text)
  | .symbol text => .done (.ok (atom sig text))
  | .closeParen => .done (.error .unexpectedClose)
  | .openParen => readCompound sig input
termination_by 2 * input.length + 1

/-- Reads a compound term after its opening parenthesis. -/
def readCompound (sig : Signature) (input : List Char) : Step input Term :=
  match h : Token.next? input with
  | none => .atEnd
  | some (token, rest) =>
    have hlt := Token.length_lt_of_next? h
    let step : Step rest Term :=
      match keyword? token with
      | some (.binder q) =>
        (readBound rest).andThen fun x rest₁ _ =>
        (readTerm sig rest₁).andThen fun A rest₂ _ =>
        (readTerm sig rest₂).andThen fun s rest₃ _ =>
        (readClose rest₃).map fun _ => .bind q x A s
      | some .arrow =>
        (readTerm sig rest).andThen fun A rest₁ _ =>
        (readTerm sig rest₁).andThen fun B rest₂ _ =>
        (readArguments sig rest₂).map fun more => arrows A (B :: more)
      | none =>
        if token = .closeParen then .done (.error .expectedTerm)
        else
          (readFrom sig token rest).andThen fun head rest₁ _ =>
          (readTerm sig rest₁).andThen fun a rest₂ _ =>
          (readArguments sig rest₂).map fun more => head.applyAll (a :: more)
    step.widen (Nat.le_of_lt hlt)
termination_by 2 * input.length

/-- Reads terms up to a closing parenthesis, which is taken off the input. -/
def readArguments (sig : Signature) (input : List Char) : Step input (List Term) :=
  match h : Token.next? input with
  | none => .atEnd
  | some (.closeParen, rest) => ⟨.ok [], rest, Nat.le_of_lt (Token.length_lt_of_next? h)⟩
  | some (token, rest) =>
    have hlt := Token.length_lt_of_next? h
    let step : Step rest (List Term) :=
      (readFrom sig token rest).andThen fun a rest₁ _ =>
      (readArguments sig rest₁).map fun more => a :: more
    step.widen (Nat.le_of_lt hlt)
termination_by 2 * input.length

end

/-- Whether the input ended before a term was read. -/
def Step.endsInput {input : List Char} (step : Step input Term) : Bool :=
  match step.result with
  | .error .endOfInput => true
  | _ => false

/-- Unless the input ends, reading a term takes something off it. -/
theorem length_rest_readTerm_lt (sig : Signature) (input : List Char)
    (h : (readTerm sig input).endsInput = false) :
    (readTerm sig input).rest.length < input.length := by
  rw [readTerm] at h ⊢
  split at h
  · exact absurd h (by simp [Step.endsInput, Step.atEnd])
  · rename_i token rest hn
    exact Nat.lt_of_le_of_lt (readFrom sig token rest).length_rest (Token.length_lt_of_next? hn)

/-- Reads terms one after the other, errors included, until the input ends. -/
def readEach (sig : Signature) (input : List Char) : List (Except ReadError Term) :=
  let step := readTerm sig input
  if h : step.endsInput then [step.result]
  else
    have := length_rest_readTerm_lt sig input (Bool.eq_false_iff.2 h)
    step.result :: readEach sig step.rest
termination_by input.length

end Reader

/-! ## Whole texts -/

/-- The term that a text denotes. -/
def Term.read (sig : Signature) (text : String) : Except ReadError Term :=
  let step := Reader.readTerm sig text.toList
  match step.result with
  | .error e => .error e
  | .ok t => if (Token.next? step.rest).isNone then .ok t else .error .trailingInput

/-- The terms and errors that a text holds, up to its end. -/
def Term.readEach (sig : Signature) (text : String) : List (Except ReadError Term) :=
  Reader.readEach sig text.toList

/-- The signature that a list of names and written sorts denotes, oldest first. A sort is read with
the declarations before it. -/
def Signature.read (entries : List (String × String)) : Except ReadError Signature :=
  entries.foldlM (fun sig (name, sort) => do
    return sig.add (.constant ⟨name⟩) (← Term.read sig sort)) .empty

/-- The context that a list of names and written sorts denotes, oldest first. -/
def Context.read (sig : Signature) (entries : List (String × String)) :
    Except ReadError Context :=
  entries.foldlM (fun ctx (name, sort) => do
    return ctx.add ⟨name⟩ (← Term.read sig sort)) .empty

/-- The environment that written declarations of constants and variables denote. -/
def Environment.read (constants locals : List (String × String)) :
    Except ReadError Environment := do
  let sig ← Signature.read constants
  return ⟨sig, ← Context.read sig locals, .empty⟩

end LogicalFramework

import LogicalFramework.Proofs.Tokens
import LogicalFramework.Reader

/-!
# Progress of the reader

A call of the reader ends, whatever it is given, and takes characters off the front of its input or
finds the input at its end. Called again and again, also after errors, the reader therefore comes to
the end of its input.

The routines of the reader call each other. They are written out here as programs on the input that
is left, with a bound on the depth of their recursion and nothing known about lengths.

* `Reader.Routine`, `Reader.readTermWithin` — the bounded routines;
* `Reader.performWithin` — they give what the reader gives, if the bound is large enough for the length
  of the input;
* `Reader.takeOffWithin` — they only take off the front of their input;
* `Reader.exists_readEach_eq_map_call` — repeated calls, by induction on the length of the input;
* `Reader.readTerm_makes_progress` — one call and repeated calls of the reader.
-/

namespace LogicalFramework.Reader

/-! ## Bounded routines -/

/-- A program that reads from the input that is left. After an error the input stays where it is,
and there is no outcome if the bound on the depth is used up. -/
abbrev Routine := ExceptT ReadError (StateT (List Char) Option)

namespace Routine

variable {α : Type}

/-- The routine without an outcome. -/
def exhausted : Routine α := fun _ => none

/-- A step of reading that needs no recursion. -/
def perform (step : (input : List Char) → Step input α) : Routine α := fun input =>
  some ((step input).result, (step input).rest)

/-- Takes the next token off the input, if there is one. -/
def takeToken : Routine (Option Token) := fun input =>
  match Token.next? input with
  | none => some (.ok none, [])
  | some (token, rest) => some (.ok (some token), rest)

end Routine

open Routine (exhausted perform takeToken)

mutual

/-- Reads a term. -/
def readTermWithin (sig : Signature) (fuel : Nat) : Routine Term :=
  match fuel with
  | 0 => exhausted
  | fuel + 1 => do
    match ← takeToken with
    | none => throw .endOfInput
    | some token => readFromWithin sig fuel token

/-- Reads the term that begins with the given token. -/
def readFromWithin (sig : Signature) (fuel : Nat) (token : Token) : Routine Term :=
  match fuel, token with
  | 0, _ => exhausted
  | _ + 1, .numeral text => perform fun _ => .done (literal text)
  | _ + 1, .symbol text => return atom sig text
  | _ + 1, .closeParen => throw .unexpectedClose
  | fuel + 1, .openParen => readCompoundWithin sig fuel

/-- Reads a compound term after its opening parenthesis. -/
def readCompoundWithin (sig : Signature) (fuel : Nat) : Routine Term :=
  match fuel with
  | 0 => exhausted
  | fuel + 1 => do
    match ← takeToken with
    | none => throw .endOfInput
    | some token =>
      match keyword? token with
      | some (.binder q) => do
        let x ← perform readBound
        let A ← readTermWithin sig fuel
        let s ← readTermWithin sig fuel
        perform readClose
        return .bind q x A s
      | some .arrow => do
        let A ← readTermWithin sig fuel
        let B ← readTermWithin sig fuel
        let more ← readArgumentsWithin sig fuel
        return arrows A (B :: more)
      | none =>
        if token = .closeParen then throw .expectedTerm
        else do
          let head ← readFromWithin sig fuel token
          let a ← readTermWithin sig fuel
          let more ← readArgumentsWithin sig fuel
          return head.applyAll (a :: more)

/-- Reads terms up to a closing parenthesis. -/
def readArgumentsWithin (sig : Signature) (fuel : Nat) : Routine (List Term) :=
  match fuel with
  | 0 => exhausted
  | fuel + 1 => do
    match ← takeToken with
    | none => throw .endOfInput
    | some .closeParen => return []
    | some token =>
      let a ← readFromWithin sig fuel token
      let more ← readArgumentsWithin sig fuel
      return a :: more

end

/-! ## Bounded routines and steps -/

/-- That a routine does with its input what a step does. -/
def Performs {α : Type} {input : List Char} (routine : Routine α) (step : Step input α) : Prop :=
  routine input = some (step.result, step.rest)

namespace Performs

variable {α β : Type} {input : List Char}

theorem andThen {routine : Routine α} {step : Step input α} {f : α → Routine β}
    {g : α → (rest : List Char) → rest.length ≤ input.length → Step rest β}
    (h : Performs routine step)
    (hf : ∀ a, step.result = .ok a → Performs (f a) (g a step.rest step.length_rest)) :
    Performs (routine >>= f) (step.andThen g) := by
  have hbind : (routine >>= f) input =
      match step.result with
      | .ok a => f a step.rest
      | .error e => some (.error e, step.rest) := by
    show (routine input).bind _ = _
    rw [h]
    cases step.result <;> rfl
  unfold Performs Step.andThen
  rw [hbind]
  cases hresult : step.result with
  | error e => rfl
  | ok a => exact hf a hresult

theorem map {routine : Routine α} {step : Step input α} (f : α → β) (h : Performs routine step) :
    Performs (do return f (← routine)) (step.map f) := by
  show (routine input).bind _ = _
  rw [h]
  unfold Step.map
  cases step.result <;> rfl

theorem perform (step : (input : List Char) → Step input α) (input : List Char) :
    Performs (perform step) (step input) :=
  rfl

end Performs

namespace Routine

variable {α : Type} {input : List Char} {f : Option Token → Routine α}

theorem takeToken_bind_of_none (h : Token.next? input = none) :
    (takeToken >>= f) input = f none [] := by
  show (takeToken input).bind _ = _
  rw [takeToken, h]
  rfl

theorem takeToken_bind_of_some {token : Token} {rest : List Char}
    (h : Token.next? input = some (token, rest)) :
    (takeToken >>= f) input = f (some token) rest := by
  show (takeToken input).bind _ = _
  rw [takeToken, h]
  rfl

end Routine

/-- That the bounded routines do what the reader does, on inputs for whose length the bound is large
enough. A routine that is given its first token may call another one on the whole of its input, and
so needs one more. -/
structure PerformWithin (sig : Signature) (fuel : Nat) : Prop where
  term : ∀ input, 2 * input.length < fuel → Performs (readTermWithin sig fuel) (readTerm sig input)
  token : ∀ token input, 2 * input.length + 1 < fuel →
    Performs (readFromWithin sig fuel token) (readFrom sig token input)
  compound : ∀ input, 2 * input.length < fuel →
    Performs (readCompoundWithin sig fuel) (readCompound sig input)
  arguments : ∀ input, 2 * input.length < fuel →
    Performs (readArgumentsWithin sig fuel) (readArguments sig input)

namespace PerformWithin

variable {sig : Signature} {fuel : Nat} {input : List Char}

theorem readTerm_succ (h : PerformWithin sig fuel) (hfuel : 2 * input.length < fuel + 1) :
    Performs (readTermWithin sig (fuel + 1)) (readTerm sig input) := by
  unfold Performs
  rw [readTermWithin, readTerm]
  split
  · rename_i hnext
    rw [Routine.takeToken_bind_of_none hnext]
    rfl
  · rename_i token rest hnext
    have hlt := Token.length_lt_of_next? hnext
    rw [Routine.takeToken_bind_of_some hnext]
    exact h.token token rest (by omega)

theorem readFrom_succ (h : PerformWithin sig fuel) (token : Token)
    (hfuel : 2 * input.length + 1 < fuel + 1) :
    Performs (readFromWithin sig (fuel + 1) token) (readFrom sig token input) := by
  cases token with
  | openParen =>
    rw [readFromWithin, readFrom]
    exact h.compound input (by omega)
  | _ =>
    rw [readFromWithin, readFrom]
    rfl

theorem readCompound_succ (h : PerformWithin sig fuel) (hfuel : 2 * input.length < fuel + 1) :
    Performs (readCompoundWithin sig (fuel + 1)) (readCompound sig input) := by
  unfold Performs
  rw [readCompoundWithin, readCompound]
  split
  · rename_i hnext
    rw [Routine.takeToken_bind_of_none hnext]
    rfl
  rename_i token rest hnext
  have hlt := Token.length_lt_of_next? hnext
  rw [Routine.takeToken_bind_of_some hnext]
  -- Every later part is read from what is left, which is not longer.
  have hterm (rest' : List Char) (hle : rest'.length ≤ rest.length) := h.term rest' (by omega)
  have harguments (rest' : List Char) (hle : rest'.length ≤ rest.length) :=
    h.arguments rest' (by omega)
  dsimp only
  cases keyword? token with
  | some keyword =>
    cases keyword with
    | binder q =>
      refine Performs.andThen (.perform readBound rest) fun x _ => ?_
      have hle₁ := (readBound rest).length_rest
      refine Performs.andThen (hterm _ hle₁) fun A _ => ?_
      have hle₂ := (readTerm sig (readBound rest).rest).length_rest.trans hle₁
      exact Performs.andThen (hterm _ hle₂) fun s _ => .map _ (.perform readClose _)
    | arrow =>
      refine Performs.andThen (hterm rest le_rfl) fun A _ => ?_
      have hle₁ := (readTerm sig rest).length_rest
      refine Performs.andThen (hterm _ hle₁) fun B _ => .map _ (harguments _ ?_)
      exact (readTerm sig (readTerm sig rest).rest).length_rest.trans hle₁
  | none =>
    dsimp only
    split
    · rfl
    · refine Performs.andThen (h.token token rest (by omega)) fun head _ => ?_
      have hle₁ := (readFrom sig token rest).length_rest
      refine Performs.andThen (hterm _ hle₁) fun a _ => .map _ (harguments _ ?_)
      exact (readTerm sig (readFrom sig token rest).rest).length_rest.trans hle₁

theorem readArguments_succ (h : PerformWithin sig fuel) (hfuel : 2 * input.length < fuel + 1) :
    Performs (readArgumentsWithin sig (fuel + 1)) (readArguments sig input) := by
  unfold Performs
  rw [readArgumentsWithin, readArguments]
  split
  · rename_i hnext
    rw [Routine.takeToken_bind_of_none hnext]
    rfl
  · rename_i rest hnext
    rw [Routine.takeToken_bind_of_some hnext]
    rfl
  · rename_i token rest hclose hnext
    have hlt := Token.length_lt_of_next? hnext
    rw [Routine.takeToken_bind_of_some hnext]
    have hrest := (readFrom sig token rest).length_rest
    -- A closing parenthesis has been dealt with, so the token begins a term.
    cases token with
    | closeParen => exact absurd rfl hclose
    | _ => exact Performs.andThen (h.token _ rest (by omega)) fun a _ =>
        .map _ (h.arguments _ (by omega))

end PerformWithin

theorem performWithin (sig : Signature) (fuel : Nat) : PerformWithin sig fuel := by
  induction fuel with
  | zero => exact ⟨by omega, by omega, by omega, by omega⟩
  | succ fuel ih =>
    exact ⟨fun _ => ih.readTerm_succ, fun token _ => ih.readFrom_succ token,
      fun _ => ih.readCompound_succ, fun _ => ih.readArguments_succ⟩

/-! ## What is taken off the input -/

/-- That a routine takes off the front of its input, whether it succeeds or not. -/
def TakesOff {α : Type} (routine : Routine α) : Prop :=
  ∀ input result rest, routine input = some (result, rest) → rest <:+ input

namespace TakesOff

variable {α β : Type}

theorem exhausted : TakesOff (exhausted : Routine α) := by
  intro input result rest h
  exact absurd h (by simp [Routine.exhausted])

theorem pure (a : α) : TakesOff (pure a : Routine α) := by
  intro input result rest h
  cases h
  exact List.suffix_rfl

theorem throw (e : ReadError) : TakesOff (throw e : Routine α) := by
  intro input result rest h
  cases h
  exact List.suffix_rfl

theorem bind {routine : Routine α} {f : α → Routine β} (h : TakesOff routine)
    (hf : ∀ a, TakesOff (f a)) : TakesOff (routine >>= f) := by
  intro input result rest hrun
  obtain ⟨⟨result', middle⟩, hroutine, hrest⟩ := Option.bind_eq_some_iff.mp hrun
  have hmiddle := h input result' middle hroutine
  cases result' with
  | error e =>
    cases hrest
    exact hmiddle
  | ok a => exact (hf a middle result rest hrest).trans hmiddle

theorem perform {step : (input : List Char) → Step input α}
    (h : ∀ input, (step input).rest <:+ input) : TakesOff (perform step) := by
  intro input result rest hrun
  cases hrun
  exact h input

theorem takeToken : TakesOff takeToken := by
  intro input result rest hrun
  unfold Routine.takeToken at hrun
  split at hrun
  · cases hrun
    exact List.nil_suffix
  · rename_i token rest' hnext
    cases hrun
    exact Token.suffix_of_next? hnext

theorem readBound : TakesOff (Routine.perform readBound) := by
  refine perform fun input => ?_
  unfold Reader.readBound
  split
  · exact List.nil_suffix
  · rename_i hnext
    exact Token.suffix_of_next? hnext
  · rename_i hnext
    exact Token.suffix_of_next? hnext

theorem readClose : TakesOff (Routine.perform readClose) := by
  refine perform fun input => ?_
  unfold Reader.readClose
  split
  · exact List.nil_suffix
  · rename_i hnext
    exact Token.suffix_of_next? hnext
  · rename_i hnext
    exact Token.suffix_of_next? hnext

end TakesOff

/-- That the bounded routines take off the front of their input. -/
structure TakeOffWithin (sig : Signature) (fuel : Nat) : Prop where
  term : TakesOff (readTermWithin sig fuel)
  token : ∀ token, TakesOff (readFromWithin sig fuel token)
  compound : TakesOff (readCompoundWithin sig fuel)
  arguments : TakesOff (readArgumentsWithin sig fuel)

namespace TakeOffWithin

variable {sig : Signature} {fuel : Nat}

theorem readTerm_succ (h : TakeOffWithin sig fuel) :
    TakesOff (readTermWithin sig (fuel + 1)) := by
  rw [readTermWithin]
  refine .bind .takeToken fun token? => ?_
  cases token? with
  | none => exact .throw _
  | some token => exact h.token token

theorem readFrom_succ (h : TakeOffWithin sig fuel) (token : Token) :
    TakesOff (readFromWithin sig (fuel + 1) token) := by
  cases token with
  | numeral text =>
    rw [readFromWithin]
    exact .perform fun _ => List.suffix_rfl
  | symbol text =>
    rw [readFromWithin]
    exact .pure _
  | closeParen =>
    rw [readFromWithin]
    exact .throw _
  | openParen =>
    rw [readFromWithin]
    exact h.compound

theorem readCompound_succ (h : TakeOffWithin sig fuel) :
    TakesOff (readCompoundWithin sig (fuel + 1)) := by
  rw [readCompoundWithin]
  refine .bind .takeToken fun token? => ?_
  cases token? with
  | none => exact .throw _
  | some token =>
    dsimp only
    split
    · exact .bind .readBound fun _ => .bind h.term fun _ => .bind h.term fun _ =>
        .bind .readClose fun _ => .pure _
    · exact .bind h.term fun _ => .bind h.term fun _ => .bind h.arguments fun _ => .pure _
    · split
      · exact .throw _
      · exact .bind (h.token token) fun _ => .bind h.term fun _ => .bind h.arguments fun _ =>
          .pure _

theorem readArguments_succ (h : TakeOffWithin sig fuel) :
    TakesOff (readArgumentsWithin sig (fuel + 1)) := by
  rw [readArgumentsWithin]
  refine .bind .takeToken fun token? => ?_
  split
  · exact .throw _
  · exact .pure _
  · exact .bind (h.token _) fun _ => .bind h.arguments fun _ => .pure _

end TakeOffWithin

theorem takeOffWithin (sig : Signature) (fuel : Nat) : TakeOffWithin sig fuel := by
  induction fuel with
  | zero =>
    constructor
    · rw [readTermWithin]
      exact .exhausted
    · intro token
      rw [readFromWithin]
      exact .exhausted
    · rw [readCompoundWithin]
      exact .exhausted
    · rw [readArgumentsWithin]
      exact .exhausted
  | succ fuel ih =>
    exact ⟨ih.readTerm_succ, ih.readFrom_succ, ih.readCompound_succ, ih.readArguments_succ⟩

/-- What a call leaves is the end of its input. -/
theorem rest_readTerm_suffix (sig : Signature) (input : List Char) :
    (readTerm sig input).rest <:+ input :=
  (takeOffWithin sig _).term _ _ _
    ((performWithin sig (2 * input.length + 1)).term input (Nat.lt_succ_self _))

/-! ## Repeated calls -/

/-- A call takes something off its input, or its input is blank. -/
theorem readTerm_progress (sig : Signature) (input : List Char) :
    (readTerm sig input).rest.length < input.length ∨
      (readTerm sig input).result = .error .endOfInput ∧ ∀ c ∈ input, Text.isBlank c = true := by
  rw [readTerm]
  split
  · rename_i hnext
    exact Or.inr ⟨rfl, Token.forall_isBlank_of_next? hnext⟩
  · rename_i token rest hnext
    have hle := (readFrom sig token rest).length_rest
    exact Or.inl (Nat.lt_of_le_of_lt hle (Token.length_lt_of_next? hnext))

/-- The input that is left after `n` calls, whatever they gave. -/
def remaining (sig : Signature) : Nat → List Char → List Char
  | 0, input => input
  | n + 1, input => remaining sig n (readTerm sig input).rest

/-- What the call after `n` others gives. -/
def call (sig : Signature) (input : List Char) (n : Nat) : Except ReadError Term :=
  (readTerm sig (remaining sig n input)).result

theorem Step.endsInput_iff {input : List Char} {step : Step input Term} :
    step.endsInput = true ↔ step.result = .error .endOfInput := by
  unfold Step.endsInput
  split
  · rename_i h
    simp [h]
  · rename_i h
    simpa using h

/-- Reading goes on to the first call that finds the input at its end. Each call before it takes
something off the input. -/
theorem exists_readEach_eq_map_call (sig : Signature) (input : List Char) :
    ∃ n ≤ input.length, call sig input n = .error .endOfInput ∧
      (∀ k < n, call sig input k ≠ .error .endOfInput) ∧
      readEach sig input = (List.range (n + 1)).map (call sig input) := by
  induction hlength : input.length using Nat.strongRecOn generalizing input with
  | _ length ih =>
  rw [readEach]
  split
  · rename_i hends
    exact ⟨0, Nat.zero_le _, Step.endsInput_iff.mp hends, by simp, rfl⟩
  · rename_i hends
    have hlt := length_rest_readTerm_lt sig input (Bool.eq_false_iff.mpr hends)
    obtain ⟨n, hn, hend, hbefore, heach⟩ :=
      ih (readTerm sig input).rest.length (by omega) (readTerm sig input).rest rfl
    -- The call after `n + 1` others is the call after `n` others on what the first one left.
    refine ⟨n + 1, by omega, hend, fun k hk => ?_, ?_⟩
    · cases k with
      | zero => exact fun h => hends (Step.endsInput_iff.mpr h)
      | succ k => exact hbefore k (by omega)
    · rw [List.range_succ_eq_map, List.map_cons, List.map_map, heach]
      rfl

/-- **The reader makes progress.** A call ends: the depth of its recursion is bounded by the length
of the input. It takes at least one character off the front of its input, or reports the end of an
input that has only blanks. So repeated calls, which go on after errors, come to the end of a text
with at most one call more than the text has characters. -/
theorem readTerm_makes_progress (sig : Signature) :
    (∀ (input : List Char) (more : Nat), readTermWithin sig (2 * input.length + 1 + more) input =
      some ((readTerm sig input).result, (readTerm sig input).rest)) ∧
    (∀ input : List Char, (∃ taken ≠ [], taken ++ (readTerm sig input).rest = input) ∨
      (readTerm sig input).result = .error .endOfInput ∧ ∀ c ∈ input, Text.isBlank c = true) ∧
    ∀ text : String, ∃ n ≤ text.length, call sig text.toList n = .error .endOfInput ∧
      (∀ k < n, call sig text.toList k ≠ .error .endOfInput) ∧
      Term.readEach sig text = (List.range (n + 1)).map (call sig text.toList) := by
  refine ⟨fun input more => ?_, fun input => ?_, fun text => ?_⟩
  · exact (performWithin sig _).term input (by omega)
  · obtain ⟨taken, htaken⟩ := rest_readTerm_suffix sig input
    refine (readTerm_progress sig input).imp_left fun hlt => ⟨taken, ?_, htaken⟩
    rintro rfl
    exact absurd hlt (by simp [← htaken])
  · rw [← String.length_toList]
    exact exists_readEach_eq_map_call sig text.toList

-- The closing parenthesis is an error of its own, and reading goes on after it. The opening one is
-- taken off before the input ends.
example : Term.readEach .empty ") x (f" =
    [.error .unexpectedClose, .ok (.var ⟨"x"⟩), .error .endOfInput] := by decide +kernel

end LogicalFramework.Reader

import LogicalFramework.Reader.Token
import Mathlib.Data.List.TakeWhile

/-!
# Splitting a text into tokens

A text is split by rules that name the characters of each token and where it ends. Runs of digits
and of symbol characters are as long as they can be. The reader has a function for the first token
only, and splitting a text is taking tokens off it until none is left.

* `Token.Splits` — the rules;
* `Token.splits_cons_iff`, `Token.splits_nil_iff` — the rules and the first token;
* `Token.splits_iff_takes` — the rules and repeated taking.
-/

namespace LogicalFramework.Token

/-- That the characters of `run` all satisfy `p` and that the input after it does not go on with
such a character. -/
structure IsRun (p : Char → Bool) (run input : List Char) : Prop where
  /-- The characters of the run. -/
  all : ∀ c ∈ run, p c = true
  /-- The run is as long as it can be. -/
  ends : ∀ c ∈ input.head?, p c = false

/-- How a text is split into tokens. -/
inductive Splits : List Char → List Token → Prop where
  | nil : Splits [] []
  | blank {c : Char} {input : List Char} {tokens : List Token} (hc : Text.isBlank c = true)
      (h : Splits input tokens) : Splits (c :: input) tokens
  | openParen {input : List Char} {tokens : List Token} (h : Splits input tokens) :
      Splits ('(' :: input) (openParen :: tokens)
  | closeParen {input : List Char} {tokens : List Token} (h : Splits input tokens) :
      Splits (')' :: input) (closeParen :: tokens)
  | numeral {c : Char} {run input : List Char} {tokens : List Token} (hc : c.isDigit = true)
      (hrun : IsRun Char.isDigit run input) (h : Splits input tokens) :
      Splits (c :: (run ++ input)) (numeral (String.ofList (c :: run)) :: tokens)
  | symbol {c : Char} {run input : List Char} {tokens : List Token}
      (hc : continuesSymbol c = true) (hdigit : c.isDigit = false)
      (hrun : IsRun continuesSymbol run input) (h : Splits input tokens) :
      Splits (c :: (run ++ input)) (symbol (String.ofList (c :: run)) :: tokens)

/-! ## Runs -/

theorem IsRun.takeWhile_eq {p : Char → Bool} {run input : List Char} (h : IsRun p run input) :
    (run ++ input).takeWhile p = run := by
  have hend : input.takeWhile p = [] := by
    cases input with
    | nil => rfl
    | cons c input => simp [h.ends c rfl]
  rw [List.takeWhile_append_of_pos h.all, hend, List.append_nil]

theorem IsRun.dropWhile_eq {p : Char → Bool} {run input : List Char} (h : IsRun p run input) :
    (run ++ input).dropWhile p = input := by
  rw [List.dropWhile_append_of_pos h.all]
  cases input with
  | nil => rfl
  | cons c input => simp [h.ends c rfl]

/-- The longest run at the front of an input. -/
theorem isRun_takeWhile (p : Char → Bool) (input : List Char) :
    IsRun p (input.takeWhile p) (input.dropWhile p) where
  all := fun c hc => List.mem_takeWhile_imp hc
  ends := by
    intro c hc
    induction input with
    | nil => exact absurd hc (by simp)
    | cons d input ih =>
      cases hd : p d with
      | true => exact ih (by simpa [hd] using hc)
      | false =>
        obtain rfl : d = c := by simpa [hd] using hc
        exact hd

/-! ## The first token -/

/-- Digits are neither blanks nor parentheses. -/
theorem continuesSymbol_of_isDigit {c : Char} (hc : c.isDigit = true) :
    continuesSymbol c = true := by
  have hrange : 48 ≤ c.toNat ∧ c.toNat ≤ 57 := by
    simpa [Char.isDigit, UInt32.le_iff_toNat_le] using hc
  have hopen : c ≠ '(' := by
    rintro rfl
    exact absurd hrange (by decide)
  have hclose : c ≠ ')' := by
    rintro rfl
    exact absurd hrange (by decide)
  have hblank : Text.isBlank c = false := by
    simp only [Text.isBlank, Bool.or_eq_false_iff, Bool.and_eq_false_iff, decide_eq_false_iff_not,
      beq_eq_false_iff_ne]
    omega
  simp [continuesSymbol, hopen, hclose, hblank]

theorem next?_of_isBlank {c : Char} (hc : Text.isBlank c = true) (input : List Char) :
    next? (c :: input) = next? input := by
  unfold next?
  rw [List.dropWhile_cons_of_pos hc]

/-- A character that can be in a symbol is the first one of a token. -/
theorem next?_of_continuesSymbol {c : Char} (hc : continuesSymbol c = true) (input : List Char) :
    next? (c :: input) =
      if c.isDigit then
        some (numeral (String.ofList (c :: input.takeWhile Char.isDigit)),
          input.dropWhile Char.isDigit)
      else
        some (symbol (String.ofList (c :: input.takeWhile continuesSymbol)),
          input.dropWhile continuesSymbol) := by
  simp only [continuesSymbol, Bool.not_eq_true', Bool.or_eq_false_iff,
    decide_eq_false_iff_not] at hc
  obtain ⟨⟨hblank, hopen⟩, hclose⟩ := hc
  unfold next?
  rw [List.dropWhile_cons_of_neg (by simp [hblank])]
  dsimp only
  rw [if_neg hopen, if_neg hclose]

/-- A token is taken off the front. -/
theorem suffix_of_next? {input rest : List Char} {token : Token}
    (h : next? input = some (token, rest)) : rest <:+ input := by
  unfold next? at h
  split at h
  · exact absurd h (by simp)
  · rename_i c cs hdrop
    have hcs : cs <:+ input :=
      (List.suffix_cons c cs).trans (hdrop ▸ List.dropWhile_suffix Text.isBlank)
    split_ifs at h
    · cases h
      exact hcs
    · cases h
      exact hcs
    · cases h
      exact (List.dropWhile_suffix _).trans hcs
    · cases h
      exact (List.dropWhile_suffix _).trans hcs

/-- An input without a token has only blanks. -/
theorem forall_isBlank_of_next? {input : List Char} (h : next? input = none) :
    ∀ c ∈ input, Text.isBlank c = true := by
  unfold next? at h
  split at h
  · rename_i hdrop
    exact List.dropWhile_eq_nil_iff.mp hdrop
  · split_ifs at h

/-- The first token of a text that is split, and how the rest is split. -/
theorem Splits.next?_eq {input : List Char} {tokens : List Token} : Splits input tokens →
    match tokens with
    | [] => next? input = none
    | token :: tokens => ∃ rest, next? input = some (token, rest) ∧ Splits rest tokens := by
  intro h
  induction h with
  | nil => rfl
  | blank hc _ ih =>
    rw [next?_of_isBlank hc]
    exact ih
  | openParen h _ => exact ⟨_, rfl, h⟩
  | closeParen h _ => exact ⟨_, rfl, h⟩
  | numeral hc hrun h _ =>
    refine ⟨_, ?_, h⟩
    rw [next?_of_continuesSymbol (continuesSymbol_of_isDigit hc), if_pos hc, hrun.takeWhile_eq,
      hrun.dropWhile_eq]
  | symbol hc hdigit hrun h _ =>
    refine ⟨_, ?_, h⟩
    rw [next?_of_continuesSymbol hc, if_neg (by simp [hdigit]), hrun.takeWhile_eq,
      hrun.dropWhile_eq]

/-- Blanks in front of a text do not matter. -/
theorem Splits.of_dropWhile {input : List Char} {tokens : List Token}
    (h : Splits (input.dropWhile Text.isBlank) tokens) : Splits input tokens := by
  induction input with
  | nil => exact h
  | cons c input ih =>
    by_cases hc : Text.isBlank c = true
    · rw [List.dropWhile_cons_of_pos hc] at h
      exact .blank hc (ih h)
    · rwa [List.dropWhile_cons_of_neg hc] at h

/-- A text is split by splitting what is left after its first token. -/
theorem Splits.of_next? {input rest : List Char} {token : Token} {tokens : List Token}
    (hnext : next? input = some (token, rest)) (h : Splits rest tokens) :
    Splits input (token :: tokens) := by
  apply Splits.of_dropWhile
  unfold next? at hnext
  split at hnext
  · exact absurd hnext (by simp)
  · rename_i c cs hdrop
    have hblank : Text.isBlank c = false :=
      (isRun_takeWhile Text.isBlank input).ends c (by simp [hdrop])
    rw [hdrop]
    split_ifs at hnext with hopen hclose hdigit
    · cases hnext
      exact hopen ▸ .openParen h
    · cases hnext
      exact hclose ▸ .closeParen h
    · cases hnext
      have hsplit := Splits.numeral hdigit (isRun_takeWhile Char.isDigit cs) h
      rwa [List.takeWhile_append_dropWhile] at hsplit
    · cases hnext
      have hc : continuesSymbol c = true := by simp [continuesSymbol, hblank, hopen, hclose]
      have hsplit :=
        Splits.symbol hc (by simpa using hdigit) (isRun_takeWhile continuesSymbol cs) h
      rwa [List.takeWhile_append_dropWhile] at hsplit

theorem splits_cons_iff {input : List Char} {token : Token} {tokens : List Token} :
    Splits input (token :: tokens) ↔
      ∃ rest, next? input = some (token, rest) ∧ Splits rest tokens :=
  ⟨fun h => h.next?_eq, fun ⟨_, hnext, h⟩ => .of_next? hnext h⟩

theorem splits_nil_iff {input : List Char} : Splits input [] ↔ next? input = none := by
  refine ⟨fun h => h.next?_eq, fun h => .of_dropWhile ?_⟩
  unfold next? at h
  split at h
  · rename_i hdrop
    rw [hdrop]
    exact .nil
  · split_ifs at h

/-! ## Taking tokens -/

/-- That tokens are taken off the input, one after the other, and what is left then. -/
def Takes (input : List Char) : List Token → List Char → Prop
  | [], rest => input = rest
  | token :: tokens, rest => ∃ next, next? input = some (token, next) ∧ Takes next tokens rest

theorem Takes.cons {input next rest : List Char} {token : Token} {tokens : List Token}
    (hnext : next? input = some (token, next)) (h : Takes next tokens rest) :
    Takes input (token :: tokens) rest :=
  ⟨next, hnext, h⟩

theorem takes_singleton {input rest : List Char} {token : Token} :
    Takes input [token] rest ↔ next? input = some (token, rest) := by
  simp [Takes]

theorem takes_append {input rest : List Char} {tokens tokens' : List Token} :
    Takes input (tokens ++ tokens') rest ↔
      ∃ middle, Takes input tokens middle ∧ Takes middle tokens' rest := by
  induction tokens generalizing input with
  | nil => simp [Takes]
  | cons token tokens ih =>
    simp only [List.cons_append, Takes, ih]
    constructor
    · rintro ⟨next, hnext, middle, h, h'⟩
      exact ⟨middle, ⟨next, hnext, h⟩, h'⟩
    · rintro ⟨middle, ⟨next, hnext, h⟩, h'⟩
      exact ⟨next, hnext, middle, h, h'⟩

/-- **Splitting is repeated taking**, until no token is left. -/
theorem splits_iff_takes {input : List Char} {tokens : List Token} :
    Splits input tokens ↔ ∃ rest, Takes input tokens rest ∧ next? rest = none := by
  induction tokens generalizing input with
  | nil => simp [splits_nil_iff, Takes]
  | cons token tokens ih =>
    simp only [splits_cons_iff, Takes, ih]
    constructor
    · rintro ⟨next, hnext, rest, h, hend⟩
      exact ⟨rest, ⟨next, hnext, h⟩, hend⟩
    · rintro ⟨rest, ⟨next, hnext, h⟩, hend⟩
      exact ⟨next, hnext, rest, h, hend⟩

end LogicalFramework.Token

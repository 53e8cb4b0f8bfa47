import LogicalFramework.Text.Blank

/-!
# Tokens

Written terms consist of parentheses, symbols and numerals, with blanks between them where needed. A
numeral is a run of decimal digits and ends at the first other character. A symbol starts with any
other character and ends before a blank or a parenthesis.
-/

namespace LogicalFramework

/-- A token of a written term. -/
inductive Token where
  /-- An opening parenthesis. -/
  | openParen
  /-- A closing parenthesis. -/
  | closeParen
  /-- A symbol. -/
  | symbol (text : String)
  /-- A run of decimal digits. -/
  | numeral (text : String)
deriving DecidableEq

namespace Token

/-- Whether a character can continue a symbol. -/
def continuesSymbol (c : Char) : Bool :=
  !(Text.isBlank c || c = '(' || c = ')')

/-- The first token of the input and the input after it. There is none if only blanks are left. -/
def next? (input : List Char) : Option (Token × List Char) :=
  match input.dropWhile Text.isBlank with
  | [] => none
  | c :: rest =>
    if c = '(' then some (openParen, rest)
    else if c = ')' then some (closeParen, rest)
    else if c.isDigit then
      some (numeral (String.ofList (c :: rest.takeWhile Char.isDigit)), rest.dropWhile Char.isDigit)
    else
      some (symbol (String.ofList (c :: rest.takeWhile continuesSymbol)),
        rest.dropWhile continuesSymbol)

theorem length_dropWhile_le {α : Type} (p : α → Bool) (xs : List α) :
    (xs.dropWhile p).length ≤ xs.length :=
  (List.dropWhile_sublist p).length_le

/-- A token takes at least one character. -/
theorem length_lt_of_next? {input rest : List Char} {token : Token}
    (h : next? input = some (token, rest)) : rest.length < input.length := by
  have hle := length_dropWhile_le Text.isBlank input
  unfold next? at h
  split at h
  · exact absurd h (by simp)
  · rename_i c cs hc
    rw [hc, List.length_cons] at hle
    have hd := length_dropWhile_le Char.isDigit cs
    have hs := length_dropWhile_le continuesSymbol cs
    split at h
    · cases h
      omega
    · split at h
      · cases h
        omega
      · split at h
        · cases h
          omega
        · cases h
          omega

end Token

end LogicalFramework

/-!
# Decimal numerals

Numerals occur in two places. Identifiers may carry a number, and then only the one canonical
decimal text of a number counts, so that the number and its text determine each other. Terms may be
written with natural-number literals, and there leading zeros are accepted.

Numbers are machine words: indices are signed, literals unsigned, both of 64 bits. A numeral beyond
that range is no number.

* `index?_renderIndex`, `renderIndex_of_index?`: an index and its canonical text determine each other.
* `natural?_renderNatural`, `renderNatural_of_natural?`: so do a literal and its canonical text.
-/

namespace LogicalFramework.Decimal

/-! ## Natural numbers -/

/-- The value of a nonempty run of decimal digits. Leading zeros are accepted. -/
def value? (cs : List Char) : Option Nat :=
  if cs ≠ [] ∧ cs.all Char.isDigit then some (Nat.ofDigitChars 10 cs 0) else none

/-- The value of a numeral that fits an unsigned 64-bit word. -/
def word? (cs : List Char) : Option UInt64 :=
  match value? cs with
  | some n => if h : n < UInt64.size then some (UInt64.ofNatLT n h) else none
  | none => none

/-- The canonical text of a natural number: no leading zeros. -/
def renderNatural (n : UInt64) : List Char :=
  Nat.toDigits 10 n.toNat

/-- The natural number whose canonical text is `cs`. -/
def natural? (cs : List Char) : Option UInt64 :=
  (word? cs).filter fun n => renderNatural n = cs

/-! ## Signed indices -/

/-- The canonical text of an index: its digits, after a minus sign if it is negative. -/
def renderIndex (i : Int64) : List Char :=
  if i.toInt < 0 then '-' :: Nat.toDigits 10 i.toInt.natAbs else Nat.toDigits 10 i.toInt.natAbs

/-- The value of a numeral with an optional minus sign. -/
def signed? : List Char → Option Int
  | '-' :: cs => (value? cs).map fun n : Nat => -(n : Int)
  | cs => (value? cs).map fun n : Nat => (n : Int)

/-- The index whose canonical text is `cs`. -/
def index? (cs : List Char) : Option Int64 :=
  match signed? cs with
  | some z =>
    let i := Int64.ofInt z
    if i.toInt = z ∧ renderIndex i = cs then some i else none
  | none => none

/-! ## Text and number determine each other -/

theorem value?_toDigits (n : Nat) : value? (Nat.toDigits 10 n) = some n := by
  have hne : Nat.toDigits 10 n ≠ [] := by
    intro h
    have := Nat.length_toDigits_pos (b := 10) (n := n)
    simp [h] at this
  have hd : (Nat.toDigits 10 n).all Char.isDigit = true :=
    List.all_eq_true.2 fun c hc => Nat.isDigit_of_mem_toDigits (by decide) (by decide) hc
  simp [value?, hne, hd, Nat.ofDigitChars_toDigits]

theorem natural?_renderNatural (n : UInt64) : natural? (renderNatural n) = some n := by
  have h : word? (renderNatural n) = some n := by
    simp [word?, renderNatural, value?_toDigits, n.toNat_lt_size]
  simp [natural?, h]

theorem renderNatural_of_natural? {cs : List Char} {n : UInt64} (h : natural? cs = some n) :
    renderNatural n = cs := by
  simp only [natural?, Option.filter_eq_some_iff, decide_eq_true_eq] at h
  exact h.2

theorem signed?_renderIndex (i : Int64) : signed? (renderIndex i) = some i.toInt := by
  unfold renderIndex
  split
  · rename_i h
    simp only [signed?, value?_toDigits, Option.map_some, Option.some.injEq]
    omega
  · rename_i h
    have hm : ∀ cs, Nat.toDigits 10 i.toInt.natAbs ≠ '-' :: cs := by
      intro cs hc
      have := Nat.isDigit_of_mem_toDigits (b := 10) (n := i.toInt.natAbs) (c := '-')
        (by decide) (by decide) (by simp [hc])
      exact absurd this (by decide)
    unfold signed?
    split
    · rename_i cs hc
      exact absurd hc (hm cs)
    · simp only [value?_toDigits, Option.map_some, Option.some.injEq]
      omega

theorem index?_renderIndex (i : Int64) : index? (renderIndex i) = some i := by
  simp [index?, signed?_renderIndex]

theorem renderIndex_of_index? {cs : List Char} {i : Int64} (h : index? cs = some i) :
    renderIndex i = cs := by
  unfold index? at h
  split at h
  · simp only [Option.ite_none_right_eq_some, Option.some.injEq] at h
    obtain ⟨⟨-, hr⟩, rfl⟩ := h
    exact hr
  · exact absurd h (by simp)

end LogicalFramework.Decimal

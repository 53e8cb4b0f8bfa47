/-!
# Splitting text

A text is split at the last occurrence of a separator. The part after the split then has no
separator, and the two parts determine the text.
-/

namespace LogicalFramework.Text

/-- Splits a text at its last occurrence of `sep`, which neither part keeps. -/
def splitAtLast (sep : Char) : List Char → Option (List Char × List Char)
  | [] => none
  | c :: cs =>
    match splitAtLast sep cs with
    | some (before, after) => some (c :: before, after)
    | none => if c = sep then some ([], cs) else none

theorem splitAtLast_eq_none {sep : Char} {cs : List Char} (h : sep ∉ cs) :
    splitAtLast sep cs = none := by
  induction cs with
  | nil => rfl
  | cons c cs ih =>
    simp only [List.mem_cons, not_or] at h
    simp [splitAtLast, ih h.2, Ne.symm h.1]

theorem splitAtLast_append {sep : Char} (before : List Char) {after : List Char}
    (h : sep ∉ after) : splitAtLast sep (before ++ sep :: after) = some (before, after) := by
  induction before with
  | nil => simp [splitAtLast, splitAtLast_eq_none h]
  | cons c cs ih => simp [splitAtLast, ih]

theorem eq_of_splitAtLast {sep : Char} {cs before after : List Char}
    (h : splitAtLast sep cs = some (before, after)) : cs = before ++ sep :: after := by
  induction cs generalizing before with
  | nil => simp [splitAtLast] at h
  | cons c cs ih =>
    unfold splitAtLast at h
    split at h
    · rename_i b a hs
      simp only [Option.some.injEq, Prod.mk.injEq] at h
      obtain ⟨rfl, rfl⟩ := h
      simp [ih hs]
    · split at h
      · simp only [Option.some.injEq, Prod.mk.injEq] at h
        obtain ⟨rfl, rfl⟩ := h
        simp_all
      · exact absurd h (by simp)

end LogicalFramework.Text

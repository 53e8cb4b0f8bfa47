import LogicalFramework.Proofs.Grammar
import LogicalFramework.Term.Printer

/-!
# Writing terms and reading them back

A term is written with every compound term in parentheses, and reading gives the term back. This
needs identifiers that are read as what they are: one symbol each, a constant declared and a
variable not declared, and no keyword for the head of an application.

* `Term.write` — the text of a term;
* `Term.IsReadable` — what is asked of the identifiers;
* `Term.splits_write` — the tokens of the text, by induction on the term;
* `Term.denotes_tokens` — the tokens denote the term, by induction again;
* `Term.read_write` — reading a text that was written.
-/

namespace LogicalFramework

/-! ## Written terms -/

/-- The keyword of a binder. -/
def Binder.keyword : Binder → String
  | .lam => "lam"
  | .pi => "pi"

/-- A term as it is written, with every compound term in parentheses. -/
def Term.write : Term → String
  | .type => "Type"
  | .const c => c.id
  | .var x => x.id
  | .metaVar m => "?" ++ m.id
  | .app h a => parenthesized (h.write ++ " " ++ a.write)
  | .bind q x A s =>
    parenthesized (q.keyword ++ " " ++ x.id ++ " " ++ A.write ++ " " ++ s.write)

/-- That an identifier has neither blanks nor parentheses. -/
def IsUnbroken (id : String) : Prop :=
  ∀ c ∈ id.toList, Text.isBlank c = false ∧ c ≠ '(' ∧ c ≠ ')'

/-- That an identifier is a symbol. -/
structure IsSymbol (id : String) : Prop where
  /-- Nothing in it ends a symbol. -/
  unbroken : IsUnbroken id
  /-- There is a first character. -/
  ne_empty : id ≠ ""
  /-- It does not begin like a numeral. -/
  head_not_digit : ∀ c ∈ id.toList.head?, c.isDigit = false

/-- That an identifier is a symbol that stands for a constant or a variable. -/
structure IsAtomName (id : String) : Prop extends IsSymbol id where
  /-- It is not the sort `Type`. -/
  ne_type : id ≠ "Type"
  /-- It does not begin like a meta-variable. -/
  head_ne_question : id.toList.head? ≠ some '?'

instance (id : String) : Decidable (IsUnbroken id) :=
  List.decidableBAll (fun c => Text.isBlank c = false ∧ c ≠ '(' ∧ c ≠ ')') id.toList

instance (id : String) : Decidable (IsSymbol id) :=
  have : Decidable (∀ c ∈ id.toList.head?, c.isDigit = false) := Option.decidableForallMem _
  decidable_of_iff (IsUnbroken id ∧ id ≠ "" ∧ ∀ c ∈ id.toList.head?, c.isDigit = false)
    ⟨fun ⟨h₁, h₂, h₃⟩ => ⟨h₁, h₂, h₃⟩, fun ⟨h₁, h₂, h₃⟩ => ⟨h₁, h₂, h₃⟩⟩

instance (id : String) : Decidable (IsAtomName id) :=
  decidable_of_iff (IsSymbol id ∧ id ≠ "Type" ∧ id.toList.head? ≠ some '?')
    ⟨fun ⟨h₁, h₂, h₃⟩ => ⟨h₁, h₂, h₃⟩, fun ⟨h₁, h₂, h₃⟩ => ⟨h₁, h₂, h₃⟩⟩

namespace Term

/-- Whether the term is a constant or a variable with the name of a keyword. -/
def isKeyword : Term → Bool
  | const c => ["lam", "pi", "->"].contains c.id
  | var x => ["lam", "pi", "->"].contains x.id
  | _ => false

/-- That the identifiers of a term are read as what they are in it. -/
def IsReadable (sig : Signature) : Term → Prop
  | type => True
  | const c => c.isNatural = true ∨ IsAtomName c.id ∧ sig.declares c = true
  | var x => IsAtomName x.id ∧ sig.declares ⟨x.id⟩ = false
  | metaVar m => IsUnbroken m.id
  | app h a => h.IsReadable sig ∧ a.IsReadable sig ∧ h.isKeyword = false
  | bind _ x A s => IsSymbol x.id ∧ A.IsReadable sig ∧ s.IsReadable sig

instance decidableIsReadable (sig : Signature) : (t : Term) → Decidable (t.IsReadable sig)
  | type => inferInstanceAs (Decidable True)
  | const c => inferInstanceAs (Decidable (c.isNatural = true ∨ _ ∧ sig.declares c = true))
  | var x => inferInstanceAs (Decidable (IsAtomName x.id ∧ sig.declares ⟨x.id⟩ = false))
  | metaVar m => inferInstanceAs (Decidable (IsUnbroken m.id))
  | app h a =>
    have := decidableIsReadable sig h
    have := decidableIsReadable sig a
    inferInstanceAs (Decidable (_ ∧ _ ∧ h.isKeyword = false))
  | bind _ x A s =>
    have := decidableIsReadable sig A
    have := decidableIsReadable sig s
    inferInstanceAs (Decidable (IsSymbol x.id ∧ _ ∧ _))

/-- The tokens of a term as it is written. -/
def tokens : Term → List Token
  | type => [.symbol "Type"]
  | const c => if c.isNatural then [.numeral c.id] else [.symbol c.id]
  | var x => [.symbol x.id]
  | metaVar m => [.symbol ("?" ++ m.id)]
  | app h a => .openParen :: (h.tokens ++ (a.tokens ++ [.closeParen]))
  | bind q x A s =>
    .openParen :: .symbol q.keyword :: .symbol x.id :: (A.tokens ++ s.tokens ++ [.closeParen])

end Term

/-! ## Symbols and numerals -/

theorem IsUnbroken.continuesSymbol {id : String} (h : IsUnbroken id) :
    ∀ c ∈ id.toList, Token.continuesSymbol c = true := by
  intro c hc
  obtain ⟨hblank, hopen, hclose⟩ := h c hc
  simp [Token.continuesSymbol, hblank, hopen, hclose]

theorem IsUnbroken.isSymbol_question {id : String} (h : IsUnbroken id) : IsSymbol ("?" ++ id) where
  unbroken := by
    intro c hc
    rw [String.toList_append, List.mem_append] at hc
    rcases hc with hc | hc
    · obtain rfl : c = '?' := by simpa using hc
      decide
    · exact h c hc
  ne_empty := by
    intro he
    have hlist := congrArg String.toList he
    simp at hlist
  head_not_digit := by simp

theorem isSymbol_keyword (q : Binder) : IsSymbol q.keyword := by
  cases q <;> decide

/-- The text of a literal is a run of digits. -/
theorem Constant.exists_digits {c : Constant} (h : c.isNatural = true) :
    ∃ n : UInt64, c = .natural n ∧ c.id.toList ≠ [] ∧ c.id.toList.all Char.isDigit = true ∧
      n.toNat = Nat.ofDigitChars 10 c.id.toList 0 := by
  obtain ⟨n, hn⟩ := Option.isSome_iff_exists.mp h
  have hid : c.id.toList = Nat.toDigits 10 n.toNat := (Decimal.renderNatural_of_natural? hn).symm
  have hvalue := Decimal.value?_toDigits n.toNat
  rw [← hid, Decimal.value?, Option.ite_none_right_eq_some] at hvalue
  obtain ⟨⟨hne, hdigits⟩, hvalue⟩ := hvalue
  exact ⟨n, (natural_of_natural? hn).symm, hne, hdigits, (Option.some.inj hvalue).symm⟩

namespace Token

/-- That a text does not continue a symbol before it. -/
def EndsSymbol (rest : List Char) : Prop :=
  ∀ c ∈ rest.head?, continuesSymbol c = false

theorem endsSymbol_blank (rest : List Char) : EndsSymbol (' ' :: rest) := by
  rintro c ⟨⟩
  decide

theorem endsSymbol_close (rest : List Char) : EndsSymbol (')' :: rest) := by
  rintro c ⟨⟩
  decide

variable {rest : List Char} {tokens : List Token}

/-- A symbol is one token, if what follows does not continue it. -/
theorem splits_of_isSymbol {id : String} (hid : IsSymbol id) (hrest : EndsSymbol rest)
    (h : Splits rest tokens) : Splits (id.toList ++ rest) (symbol id :: tokens) := by
  have hchars := hid.unbroken.continuesSymbol
  have hdigit := hid.head_not_digit
  cases hlist : id.toList with
  | nil => exact absurd (String.toList_eq_nil_iff.mp hlist) hid.ne_empty
  | cons c run =>
    rw [hlist] at hchars hdigit
    have hrun : IsRun continuesSymbol run rest :=
      ⟨fun d hd => hchars d (List.mem_cons_of_mem c hd), hrest⟩
    have hsplits := Splits.symbol (hchars c List.mem_cons_self) (hdigit c rfl) hrun h
    rwa [← hlist, String.ofList_toList] at hsplits

/-- A run of digits is one token, if what follows does not continue a symbol. -/
theorem splits_of_digits {text : String} (hne : text.toList ≠ [])
    (hdigits : text.toList.all Char.isDigit = true) (hrest : EndsSymbol rest)
    (h : Splits rest tokens) : Splits (text.toList ++ rest) (numeral text :: tokens) := by
  rw [List.all_eq_true] at hdigits
  obtain ⟨c, run, hlist⟩ := List.exists_cons_of_ne_nil hne
  rw [hlist] at hdigits ⊢
  have hrun : IsRun Char.isDigit run rest := by
    refine ⟨fun d hd => hdigits d (List.mem_cons_of_mem c hd), fun d hd => ?_⟩
    rw [Bool.eq_false_iff]
    intro hdigit
    exact absurd (continuesSymbol_of_isDigit hdigit) (by simp [hrest d hd])
  have hsplits := Splits.numeral (hdigits c List.mem_cons_self) hrun h
  rwa [← hlist, String.ofList_toList] at hsplits

end Token

namespace Term

/-! ## The tokens of a text -/

open Token

theorem splits_write {sig : Signature} {t : Term} (ht : t.IsReadable sig) {rest : List Char}
    {more : List Token} (hrest : EndsSymbol rest) (h : Splits rest more) :
    Splits (t.write.toList ++ rest) (t.tokens ++ more) := by
  induction t generalizing rest more with
  | type => exact splits_of_isSymbol (by decide) hrest h
  | const c =>
    rw [tokens, write]
    split
    · rename_i hnatural
      obtain ⟨_, _, hne, hdigits, _⟩ := c.exists_digits hnatural
      exact splits_of_digits hne hdigits hrest h
    · rename_i hnatural
      exact splits_of_isSymbol (ht.resolve_left hnatural).1.toIsSymbol hrest h
  | var x => exact splits_of_isSymbol ht.1.toIsSymbol hrest h
  | metaVar m => exact splits_of_isSymbol (IsUnbroken.isSymbol_question ht) hrest h
  | app f a ihf iha =>
    obtain ⟨hf, ha, _⟩ := ht
    have hargument := iha ha (endsSymbol_close rest) (.closeParen h)
    have hhead := ihf hf (endsSymbol_blank _) (.blank (by decide) hargument)
    simpa [write, parenthesized, tokens] using Splits.openParen hhead
  | bind q x A s ihA ihs =>
    obtain ⟨hx, hA, hs⟩ := ht
    have hscope := ihs hs (endsSymbol_close rest) (.closeParen h)
    have hdomain := ihA hA (endsSymbol_blank _) (.blank (by decide) hscope)
    have hbound := splits_of_isSymbol hx (endsSymbol_blank _) (.blank (by decide) hdomain)
    have hkeyword :=
      splits_of_isSymbol (isSymbol_keyword q) (endsSymbol_blank _) (.blank (by decide) hbound)
    simpa [write, parenthesized, tokens] using Splits.openParen hkeyword

/-! ## What the tokens denote -/

open Reader (Denotes IsHead)

/-- A term that is no keyword can be the head of an application. -/
theorem isHead_tokens {t : Term} (h : t.isKeyword = false) : IsHead t.tokens := by
  cases t with
  | type => exact .symbol (by decide)
  | const c =>
    rw [tokens]
    split
    · exact .numeral c.id
    · exact .symbol (by simpa [isKeyword] using h)
  | var x => exact .symbol (by simpa [isKeyword] using h)
  | metaVar m =>
    refine .symbol fun hmem => ?_
    have hhead : ("?" ++ m.id).toList.head? = some '?' := by simp
    simp only [List.mem_cons, List.not_mem_nil, or_false] at hmem
    rcases hmem with he | he | he
    all_goals
      rw [he] at hhead
      exact absurd hhead (by decide)
  | app f a => exact .compound _
  | bind q x A s => exact .compound _

theorem denotes_tokens {sig : Signature} {t : Term} (ht : t.IsReadable sig) :
    Denotes sig t.tokens t := by
  induction t with
  | type => exact .symbol .type
  | const c =>
    rw [tokens]
    split
    · rename_i hnatural
      obtain ⟨n, hc, hne, hdigits, hvalue⟩ := c.exists_digits hnatural
      have hdenotes : Denotes sig [.numeral c.id] (.natural n) := .numeral hne hdigits hvalue
      rwa [natural, ← hc] at hdenotes
    · rename_i hnatural
      obtain ⟨hname, hdeclared⟩ := ht.resolve_left hnatural
      exact .symbol (.const hname.ne_type hname.head_ne_question hdeclared)
  | var x => exact .symbol (.var ht.1.ne_type ht.1.head_ne_question ht.2)
  | metaVar m => exact .symbol (.metaVar m.id)
  | app f a ihf iha =>
    obtain ⟨hf, ha, hkeyword⟩ := ht
    have hpart : ∀ p ∈ [(a.tokens, a)], Denotes sig p.1 p.2 := by simpa using iha ha
    have hdenotes := Denotes.application (isHead_tokens hkeyword) (ihf hf) (by simp) hpart
    simpa [tokens] using hdenotes
  | bind q x A s ihA ihs =>
    obtain ⟨_, hA, hs⟩ := ht
    exact .binder (by cases q <;> simp [Binder.keyword]) (ihA hA) (ihs hs)

/-- **Reading gives back what was written.** A term with readable identifiers is read back from its
text, with all its identifiers and not only up to bound names. -/
theorem read_write (sig : Signature) (t : Term) (ht : t.IsReadable sig) :
    Term.read sig t.write = .ok t := by
  have hsplits := splits_write ht (by simp [EndsSymbol]) Splits.nil
  rw [List.append_nil, List.append_nil] at hsplits
  obtain ⟨rest, htakes, hend⟩ := Token.splits_iff_takes.mp hsplits
  exact read_eq_ok_iff.mpr ⟨rest, Reader.reads_of_denotes (denotes_tokens ht) htakes, hend⟩

/-- `Π lam : a, f 12 (?m_0 lam)`, a product over a variable with the name of a keyword. -/
def keywordProduct : Term :=
  pi ⟨"lam"⟩ (const ⟨"a"⟩)
    (app (app (const ⟨"f"⟩) (natural 12)) (app (metaVar ⟨"m_0"⟩) (var ⟨"lam"⟩)))

/-- A signature with the constants of `keywordProduct`. -/
def keywordSignature : Signature :=
  (Bindings.empty.add (.constant ⟨"a"⟩) type).add (.constant ⟨"f"⟩) type

/-- A keyword may be a bound variable, and an argument as such. A head may be compound or a
meta-variable. -/
theorem read_write_keyword :
    keywordProduct.IsReadable keywordSignature ∧
      keywordProduct.write = "(pi lam a ((f 12) (?m_0 lam)))" ∧
      Term.read keywordSignature "(pi lam a ((f 12) (?m_0 lam)))" = .ok keywordProduct := by
  have hreadable : keywordProduct.IsReadable keywordSignature := by decide +kernel
  have hwrite : keywordProduct.write = "(pi lam a ((f 12) (?m_0 lam)))" := by decide +kernel
  refine ⟨hreadable, hwrite, ?_⟩
  rw [← hwrite]
  exact read_write _ _ hreadable

end Term

end LogicalFramework

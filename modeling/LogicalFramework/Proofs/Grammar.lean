import LogicalFramework.Proofs.Tokens
import LogicalFramework.Reader

/-!
# The grammar of written terms

Written terms have a grammar over tokens:

    term  ::=  INT  |  SYM  |  ( lam SYM term term )  |  ( pi SYM term term )
            |  ( -> term term term* )  |  ( head term term* )
    head  ::=  INT  |  SYM other than lam, pi and ->  |  a term in parentheses

A derivation denotes a term: atoms are resolved by the signature, arrows are nested to the right and
applications to the left. The reader accepts what has a derivation and gives the term that this
denotes.

* `Reader.Denotes` — the grammar and what its derivations denote;
* `Reader.Step.Reads` — how the routines of the reader are made from each other;
* `Reader.reads_of_denotes` — what is derived is read, by induction on the derivation;
* `Reader.derived` — what is read is derived, by induction on the length of the input;
* `Term.read_eq_ok_iff_denotes` — the same for whole texts.
-/

namespace LogicalFramework

namespace Reader

/-! ## The grammar -/

/-- The term that a symbol stands for. -/
inductive Resolves (sig : Signature) : String → Term → Prop where
  | type : Resolves sig "Type" .type
  | metaVar (name : String) : Resolves sig ("?" ++ name) (.metaVar ⟨name⟩)
  | const {text : String} (htype : text ≠ "Type") (hmeta : text.toList.head? ≠ some '?')
      (h : sig.declares ⟨text⟩ = true) : Resolves sig text (.const ⟨text⟩)
  | var {text : String} (htype : text ≠ "Type") (hmeta : text.toList.head? ≠ some '?')
      (h : sig.declares ⟨text⟩ = false) : Resolves sig text (.var ⟨text⟩)

/-- Whether tokens can be the head of an application. -/
inductive IsHead : List Token → Prop where
  | numeral (text : String) : IsHead [.numeral text]
  | symbol {text : String} (h : text ∉ ["lam", "pi", "->"]) : IsHead [.symbol text]
  | compound (tokens : List Token) : IsHead (.openParen :: tokens)

/-- The term that tokens denote. The parts of a compound term are given with what they denote. -/
inductive Denotes (sig : Signature) : List Token → Term → Prop where
  | numeral {text : String} {n : UInt64} (hne : text.toList ≠ [])
      (hdigits : text.toList.all Char.isDigit = true)
      (hn : n.toNat = Nat.ofDigitChars 10 text.toList 0) :
      Denotes sig [.numeral text] (.natural n)
  | symbol {text : String} {t : Term} (h : Resolves sig text t) : Denotes sig [.symbol text] t
  | binder {keyword name : String} {q : Binder} {domain scope : List Token} {A s : Term}
      (hq : (keyword, q) ∈ [("lam", Binder.lam), ("pi", Binder.pi)]) (hA : Denotes sig domain A)
      (hs : Denotes sig scope s) :
      Denotes sig (.openParen :: .symbol keyword :: .symbol name ::
        (domain ++ scope ++ [.closeParen])) (.bind q ⟨name⟩ A s)
  | arrow {parts : List (List Token × Term)} {sources : List Term} {target : Term}
      (hterms : parts.map Prod.snd = sources ++ [target]) (hne : sources ≠ [])
      (h : ∀ p ∈ parts, Denotes sig p.1 p.2) :
      Denotes sig (.openParen :: .symbol "->" :: (parts.flatMap Prod.fst ++ [.closeParen]))
        (sources.foldr Term.arrow target)
  | application {head : List Token} {f : Term} {parts : List (List Token × Term)}
      (hhead : IsHead head) (hf : Denotes sig head f) (hne : parts ≠ [])
      (h : ∀ p ∈ parts, Denotes sig p.1 p.2) :
      Denotes sig (.openParen :: (head ++ (parts.flatMap Prod.fst ++ [.closeParen])))
        ((parts.map Prod.snd).foldl Term.app f)

/-! ## Steps that read something -/

namespace Step

variable {α β : Type} {input rest : List Char}

/-- That a step reads `a` and leaves `rest`. -/
def Reads (step : Step input α) (a : α) (rest : List Char) : Prop :=
  step.result = .ok a ∧ step.rest = rest

theorem reads_andThen {step : Step input α} {f : α → (rest : List Char) → Step rest β} {b : β} :
    (step.andThen fun a middle _ => f a middle).Reads b rest ↔
      ∃ a middle, step.Reads a middle ∧ (f a middle).Reads b rest := by
  unfold andThen
  split
  · rename_i e he
    simp [Reads, he]
  · rename_i a ha
    constructor
    · exact fun h => ⟨a, step.rest, ⟨ha, rfl⟩, h⟩
    · rintro ⟨_, _, ⟨ha', rfl⟩, h⟩
      cases ha.symm.trans ha'
      exact h

theorem reads_widen {step : Step input α} {whole : List Char} {h : input.length ≤ whole.length}
    {a : α} : (step.widen h).Reads a rest ↔ step.Reads a rest :=
  Iff.rfl

theorem reads_map {step : Step input α} {f : α → β} {b : β} :
    (step.map f).Reads b rest ↔ ∃ a, step.Reads a rest ∧ b = f a := by
  unfold map Reads
  cases step.result with
  | error e => simp [Except.map]
  | ok a =>
    constructor
    · rintro ⟨hb, hrest⟩
      exact ⟨a, ⟨rfl, hrest⟩, (Except.ok.inj hb).symm⟩
    · rintro ⟨_, ⟨ha, hrest⟩, rfl⟩
      cases ha
      exact ⟨rfl, hrest⟩

end Step

theorem reads_readBound {input rest : List Char} {x : Variable} :
    (readBound input).Reads x rest ↔ Token.next? input = some (.symbol x.id, rest) := by
  obtain ⟨name⟩ := x
  unfold readBound
  split
  · simp_all [Step.Reads]
  · simp_all [Step.Reads]
  · rename_i token _ hsymbol hnext
    constructor
    · exact fun h => absurd h.1 (by simp)
    · intro h
      cases hnext.symm.trans h
      exact absurd rfl (hsymbol name)

theorem reads_readClose {input rest : List Char} {u : Unit} :
    (readClose input).Reads u rest ↔ Token.next? input = some (.closeParen, rest) := by
  unfold readClose
  split <;> simp_all [Step.Reads]

section

variable {sig : Signature} {input rest : List Char} {t : Term}

theorem reads_readTerm :
    (readTerm sig input).Reads t rest ↔ ∃ token middle, Token.next? input = some (token, middle) ∧
      (readFrom sig token middle).Reads t rest := by
  rw [readTerm]
  split
  · rename_i hnext
    simp [Step.Reads, Step.atEnd, hnext]
  · rename_i token middle hnext
    constructor
    · exact fun h => ⟨token, middle, hnext, h⟩
    · rintro ⟨_, _, hnext', h⟩
      cases hnext.symm.trans hnext'
      exact h

theorem reads_readTerm_of_next? {token : Token} {middle : List Char}
    (hnext : Token.next? input = some (token, middle)) :
    (readTerm sig input).Reads t rest ↔ (readFrom sig token middle).Reads t rest := by
  rw [reads_readTerm]
  constructor
  · rintro ⟨_, _, hnext', h⟩
    cases hnext.symm.trans hnext'
    exact h
  · exact fun h => ⟨token, middle, hnext, h⟩

theorem exists_next?_of_readCompound (h : (readCompound sig input).Reads t rest) :
    ∃ token middle, Token.next? input = some (token, middle) := by
  rw [readCompound] at h
  split at h
  · exact absurd h.1 (by simp [Step.atEnd])
  · rename_i token middle hnext
    exact ⟨token, middle, hnext⟩

/-- A compound term is a binder, products, or an application of a head that is read as a term. -/
theorem reads_readCompound {token : Token} {middle : List Char}
    (hnext : Token.next? input = some (token, middle)) :
    (readCompound sig input).Reads t rest ↔
      match keyword? token with
      | some (.binder q) => ∃ x r₁ A r₂ s r₃, (readBound middle).Reads x r₁ ∧
          (readTerm sig r₁).Reads A r₂ ∧ (readTerm sig r₂).Reads s r₃ ∧
          (readClose r₃).Reads () rest ∧ t = .bind q x A s
      | some .arrow => ∃ A r₁ B r₂ more, (readTerm sig middle).Reads A r₁ ∧
          (readTerm sig r₁).Reads B r₂ ∧ (readArguments sig r₂).Reads more rest ∧
          t = arrows A (B :: more)
      | none => ∃ f r₁ a r₂ more, (readTerm sig input).Reads f r₁ ∧ (readTerm sig r₁).Reads a r₂ ∧
          (readArguments sig r₂).Reads more rest ∧ t = f.applyAll (a :: more) := by
  rw [readCompound]
  split
  · rename_i hnext'
    exact absurd (hnext.symm.trans hnext') (by simp)
  rename_i token' middle' hnext'
  cases hnext.symm.trans hnext'
  simp only [Step.reads_widen]
  cases hk : keyword? token with
  | some keyword =>
    cases keyword with
    | binder q =>
      simp only [Step.reads_andThen, Step.reads_map]
      constructor
      · rintro ⟨x, r₁, hx, A, r₂, hA, s, r₃, hs, _, hclose, rfl⟩
        exact ⟨x, r₁, A, r₂, s, r₃, hx, hA, hs, hclose, rfl⟩
      · rintro ⟨x, r₁, A, r₂, s, r₃, hx, hA, hs, hclose, rfl⟩
        exact ⟨x, r₁, hx, A, r₂, hA, s, r₃, hs, (), hclose, rfl⟩
    | arrow =>
      simp only [Step.reads_andThen, Step.reads_map]
      constructor
      · rintro ⟨A, r₁, hA, B, r₂, hB, more, hmore, rfl⟩
        exact ⟨A, r₁, B, r₂, more, hA, hB, hmore, rfl⟩
      · rintro ⟨A, r₁, B, r₂, more, hA, hB, hmore, rfl⟩
        exact ⟨A, r₁, hA, B, r₂, hB, more, hmore, rfl⟩
  | none =>
    simp only [reads_readTerm_of_next? hnext]
    split
    · -- Neither routine takes a closing parenthesis for the beginning of a term.
      rename_i hclose
      rw [hclose, readFrom]
      simp [Step.Reads, Step.done]
    · simp only [Step.reads_andThen, Step.reads_map]
      constructor
      · rintro ⟨f, r₁, hf, a, r₂, ha, more, hmore, rfl⟩
        exact ⟨f, r₁, a, r₂, more, hf, ha, hmore, rfl⟩
      · rintro ⟨f, r₁, a, r₂, more, hf, ha, hmore, rfl⟩
        exact ⟨f, r₁, hf, a, r₂, ha, more, hmore, rfl⟩

theorem reads_readArguments_nil :
    (readArguments sig input).Reads [] rest ↔ Token.next? input = some (.closeParen, rest) := by
  rw [readArguments]
  split
  · rename_i hnext
    simp [Step.Reads, Step.atEnd, hnext]
  · rename_i hnext
    simp [Step.Reads, hnext]
  · rename_i token middle hclose hnext
    simp only [Step.reads_widen, Step.reads_andThen, Step.reads_map]
    constructor
    · rintro ⟨_, _, _, _, _, h⟩
      exact absurd h (by simp)
    · intro h
      cases hnext.symm.trans h
      exact absurd rfl hclose

/-- Arguments are read as terms, one after the other. -/
theorem reads_readArguments_cons {more : List Term} :
    (readArguments sig input).Reads (t :: more) rest ↔
      ∃ middle, (readTerm sig input).Reads t middle ∧
        (readArguments sig middle).Reads more rest := by
  rw [readArguments]
  split
  · rename_i hnext
    simp only [reads_readTerm, hnext]
    simp [Step.Reads, Step.atEnd]
  · rename_i middle hnext
    simp only [reads_readTerm_of_next? hnext]
    rw [readFrom]
    simp [Step.Reads, Step.done]
  · rename_i token middle hclose hnext
    simp only [Step.reads_widen, Step.reads_andThen, Step.reads_map, reads_readTerm_of_next? hnext]
    constructor
    · rintro ⟨_, r, ht, _, hmore, h⟩
      cases h
      exact ⟨r, ht, hmore⟩
    · rintro ⟨r, ht, hmore⟩
      exact ⟨t, r, ht, more, hmore, rfl⟩

theorem reads_readFrom {token : Token} :
    (readFrom sig token input).Reads t rest ↔
      match token with
      | .numeral text => literal text = .ok t ∧ input = rest
      | .symbol text => atom sig text = t ∧ input = rest
      | .closeParen => False
      | .openParen => (readCompound sig input).Reads t rest := by
  cases token with
  | symbol text =>
    rw [readFrom]
    simp [Step.Reads, Step.done]
  | closeParen =>
    rw [readFrom]
    simp [Step.Reads, Step.done]
  | numeral text =>
    rw [readFrom]
    rfl
  | openParen => rw [readFrom]

end

/-! ## Atoms -/

theorem resolves_iff {sig : Signature} {text : String} {t : Term} :
    Resolves sig text t ↔ atom sig text = t := by
  constructor
  · intro h
    unfold atom
    cases h with
    | type => rfl
    | metaVar name =>
      have htext : ("?" ++ name).toList = '?' :: name.toList := by simp
      have hne : "?" ++ name ≠ "Type" := by
        intro he
        rw [he] at htext
        exact absurd htext (by simp)
      rw [if_neg hne, htext]
      simp
    | const htype hmeta h =>
      rw [if_neg htype]
      split
      · rename_i htext
        exact absurd (by simp [htext]) hmeta
      · rw [if_pos h]
    | var htype hmeta h =>
      rw [if_neg htype]
      split
      · rename_i htext
        exact absurd (by simp [htext]) hmeta
      · rw [if_neg (by simp [h])]
  · rintro rfl
    unfold atom
    by_cases htype : text = "Type"
    · rw [if_pos htype, htype]
      exact .type
    · rw [if_neg htype]
      split
      · rename_i name htext
        have hmeta : text = "?" ++ String.ofList name := by
          rw [← String.toList_inj, htext]
          simp
        exact hmeta ▸ .metaVar _
      · rename_i hmeta
        have hhead : text.toList.head? ≠ some '?' := by
          intro hhead
          obtain ⟨name, htext⟩ := List.head?_eq_some_iff.mp hhead
          exact hmeta name htext
        split_ifs with hdeclared
        · exact .const htype hhead hdeclared
        · exact .var htype hhead (by simpa using hdeclared)

theorem literal_eq_ok_iff {text : String} {t : Term} :
    literal text = .ok t ↔ ∃ n : UInt64, text.toList ≠ [] ∧
      text.toList.all Char.isDigit = true ∧ n.toNat = Nat.ofDigitChars 10 text.toList 0 ∧
      t = .natural n := by
  unfold literal Decimal.word? Decimal.value?
  by_cases hdigits : text.toList ≠ [] ∧ text.toList.all Char.isDigit = true
  · rw [if_pos hdigits]
    dsimp only
    constructor
    · intro h
      split at h
      · rename_i n hn
        split at hn
        · rename_i hsize
          cases hn
          exact ⟨_, hdigits.1, hdigits.2, by simp, (Except.ok.inj h).symm⟩
        · exact absurd hn (by simp)
      · exact absurd h (by simp)
    · rintro ⟨n, _, _, hn, rfl⟩
      have hsize : Nat.ofDigitChars 10 text.toList 0 < UInt64.size := hn ▸ n.toNat_lt_size
      have hword : UInt64.ofNatLT _ hsize = n := UInt64.toNat_inj.mp (by simp [hn])
      simp only [dif_pos hsize, hword]
  · rw [if_neg hdigits]
    constructor
    · exact fun h => absurd h (by simp)
    · rintro ⟨_, hne, hall, _⟩
      exact absurd ⟨hne, hall⟩ hdigits

theorem keyword?_symbol_binder {keyword : String} {q : Binder} :
    keyword? (.symbol keyword) = some (.binder q) ↔
      (keyword, q) ∈ [("lam", Binder.lam), ("pi", Binder.pi)] := by
  rw [keyword?]
  split_ifs with hlam hpi harrow
  · subst hlam
    cases q <;> simp
  · subst hpi
    cases q <;> simp
  · simp [hlam, hpi]
  · simp [hlam, hpi]

theorem keyword?_symbol_eq_none {text : String} :
    keyword? (.symbol text) = none ↔ text ∉ ["lam", "pi", "->"] := by
  rw [keyword?]
  split_ifs with hlam hpi harrow
  · simp [hlam]
  · simp [hpi]
  · simp [harrow]
  · simp [hlam, hpi, harrow]

theorem exists_symbol_of_keyword? {token : Token} {keyword : Keyword}
    (h : keyword? token = some keyword) : ∃ text, token = .symbol text := by
  cases token with
  | symbol text => exact ⟨text, rfl⟩
  | _ => exact absurd h (by simp [keyword?])

theorem eq_arrow_of_keyword? {token : Token} (h : keyword? token = some .arrow) :
    token = .symbol "->" := by
  obtain ⟨text, rfl⟩ := exists_symbol_of_keyword? h
  rw [keyword?] at h
  split_ifs at h with hlam hpi harrow
  · exact absurd h (by simp)
  · exact absurd h (by simp)
  · rw [harrow]

/-- A head does not begin with a keyword. -/
theorem IsHead.exists_cons {head : List Token} (h : IsHead head) :
    ∃ token tokens, head = token :: tokens ∧ keyword? token = none := by
  cases h with
  | numeral text => exact ⟨_, _, rfl, rfl⟩
  | symbol h => exact ⟨_, _, rfl, keyword?_symbol_eq_none.mpr h⟩
  | compound tokens => exact ⟨_, _, rfl, rfl⟩

/-- A term that does not begin with a keyword is a head. -/
theorem Denotes.isHead {sig : Signature} {token : Token} {tokens : List Token} {t : Term}
    (h : Denotes sig (token :: tokens) t) (hkeyword : keyword? token = none) :
    IsHead (token :: tokens) := by
  cases h with
  | numeral => exact .numeral _
  | symbol => exact .symbol (keyword?_symbol_eq_none.mp hkeyword)
  | binder => exact .compound _
  | arrow => exact .compound _
  | application => exact .compound _

/-- Products that do not depend on their variables are nested to the right. -/
theorem arrows_eq_foldr {A target : Term} {more sources : List Term}
    (h : A :: more = sources ++ [target]) :
    arrows A more = sources.foldr Term.arrow target := by
  induction more generalizing A sources with
  | nil =>
    cases sources with
    | nil =>
      cases h
      rfl
    | cons B sources => exact absurd h (by simp)
  | cons B more ih =>
    cases sources with
    | nil => exact absurd h (by simp)
    | cons C sources =>
      obtain ⟨rfl, hmore⟩ : A = C ∧ B :: more = sources ++ [target] := by simpa using h
      rw [arrows, ih hmore]
      rfl

/-! ## What is derived is read -/

open Token (Takes takes_append takes_singleton)

variable {sig : Signature}

/-- Arguments are read if each of them is. -/
theorem reads_readArguments {parts : List (List Token × Term)} {input rest : List Char}
    (h : ∀ p ∈ parts, ∀ input rest, Takes input p.1 rest → (readTerm sig input).Reads p.2 rest)
    (htakes : Takes input (parts.flatMap Prod.fst ++ [.closeParen]) rest) :
    (readArguments sig input).Reads (parts.map Prod.snd) rest := by
  induction parts generalizing input with
  | nil =>
    obtain ⟨_, hclose, rfl⟩ := htakes
    exact reads_readArguments_nil.mpr hclose
  | cons p parts ih =>
    rw [List.flatMap_cons, List.append_assoc, takes_append] at htakes
    obtain ⟨middle, hp, htakes⟩ := htakes
    exact reads_readArguments_cons.mpr ⟨middle, h p List.mem_cons_self _ _ hp,
      ih (fun q hq => h q (List.mem_cons_of_mem _ hq)) htakes⟩

theorem reads_of_openParen {input middle rest : List Char} {t : Term}
    (hopen : Token.next? input = some (.openParen, middle))
    (h : (readCompound sig middle).Reads t rest) : (readTerm sig input).Reads t rest :=
  (reads_readTerm_of_next? hopen).mpr (reads_readFrom.mpr h)

/-- **What is derived is read.** -/
theorem reads_of_denotes {tokens : List Token} {t : Term} (h : Denotes sig tokens t)
    {input rest : List Char} (htakes : Takes input tokens rest) :
    (readTerm sig input).Reads t rest := by
  induction h generalizing input rest with
  | numeral hne hdigits hn =>
    obtain ⟨_, hnext, rfl⟩ := htakes
    exact (reads_readTerm_of_next? hnext).mpr
      (reads_readFrom.mpr ⟨literal_eq_ok_iff.mpr ⟨_, hne, hdigits, hn, rfl⟩, rfl⟩)
  | symbol h =>
    obtain ⟨_, hnext, rfl⟩ := htakes
    exact (reads_readTerm_of_next? hnext).mpr (reads_readFrom.mpr ⟨resolves_iff.mp h, rfl⟩)
  | binder hq _ _ ihA ihs =>
    obtain ⟨_, hopen, _, hkeyword, _, hname, htakes⟩ := htakes
    rw [List.append_assoc, takes_append] at htakes
    obtain ⟨_, hA, htakes⟩ := htakes
    rw [takes_append] at htakes
    obtain ⟨_, hs, _, hclose, rfl⟩ := htakes
    refine reads_of_openParen hopen ((reads_readCompound hkeyword).mpr ?_)
    rw [keyword?_symbol_binder.mpr hq]
    exact ⟨_, _, _, _, _, _, reads_readBound.mpr hname, ihA hA, ihs hs, reads_readClose.mpr hclose,
      rfl⟩
  | @arrow parts sources target hterms hne _ ih =>
    obtain ⟨_, hopen, _, hkeyword, htakes⟩ := htakes
    have hread := reads_readArguments (fun p hp _ _ => ih p hp) htakes
    obtain ⟨A, B, more, hlist⟩ : ∃ A B more, sources ++ [target] = A :: B :: more := by
      match sources, hne with
      | [A], _ => exact ⟨A, target, [], rfl⟩
      | A :: B :: sources, _ => exact ⟨A, B, sources ++ [target], rfl⟩
    rw [hterms, hlist, reads_readArguments_cons] at hread
    obtain ⟨_, hA, hread⟩ := hread
    rw [reads_readArguments_cons] at hread
    obtain ⟨_, hB, hmore⟩ := hread
    refine reads_of_openParen hopen ((reads_readCompound hkeyword).mpr ?_)
    exact ⟨A, _, B, _, more, hA, hB, hmore, (arrows_eq_foldr hlist.symm).symm⟩
  | @application head f parts hhead _ hne _ ihf ih =>
    obtain ⟨_, hopen, htakes⟩ := htakes
    rw [takes_append] at htakes
    obtain ⟨_, hf, htakes⟩ := htakes
    have hread := reads_readArguments (fun p hp _ _ => ih p hp) htakes
    obtain ⟨a, more, hlist⟩ := List.exists_cons_of_ne_nil (List.map_eq_nil_iff.not.mpr hne)
    rw [hlist, reads_readArguments_cons] at hread
    obtain ⟨_, ha, hmore⟩ := hread
    obtain ⟨token, tokens, rfl, hkeyword⟩ := hhead.exists_cons
    obtain ⟨_, hnext, _⟩ := id hf
    refine reads_of_openParen hopen ((reads_readCompound hnext).mpr ?_)
    rw [hkeyword, hlist]
    exact ⟨f, _, a, _, more, ihf hf, ha, hmore, rfl⟩

/-! ## What is read is derived -/

/-- That what is read from an input has a derivation. -/
def Derived (sig : Signature) (input : List Char) : Prop :=
  ∀ t rest, (readTerm sig input).Reads t rest →
    ∃ tokens, Takes input tokens rest ∧ Denotes sig tokens t

theorem exists_parts_of_readArguments {bound : Nat} {input rest : List Char} {ts : List Term}
    (hterm : ∀ input : List Char, input.length ≤ bound → Derived sig input)
    (hinput : input.length ≤ bound) (h : (readArguments sig input).Reads ts rest) :
    ∃ parts : List (List Token × Term), parts.map Prod.snd = ts ∧
      (∀ p ∈ parts, Denotes sig p.1 p.2) ∧
      Takes input (parts.flatMap Prod.fst ++ [.closeParen]) rest := by
  induction ts generalizing input with
  | nil => exact ⟨[], rfl, by simp, rest, reads_readArguments_nil.mp h, rfl⟩
  | cons t ts ih =>
    rw [reads_readArguments_cons] at h
    obtain ⟨middle, ht, hmore⟩ := h
    have hmiddle : middle.length ≤ input.length := ht.2 ▸ (readTerm sig input).length_rest
    obtain ⟨tokens, htakes, hdenotes⟩ := hterm input hinput t middle ht
    obtain ⟨parts, rfl, hparts, hrest⟩ := ih (hmiddle.trans hinput) hmore
    refine ⟨(tokens, t) :: parts, rfl, List.forall_mem_cons.mpr ⟨hdenotes, hparts⟩, ?_⟩
    rw [List.flatMap_cons, List.append_assoc, takes_append]
    exact ⟨middle, htakes, hrest⟩

/-- A binder that is read has a derivation, if its type and its scope have. -/
theorem exists_denotes_of_binder {bound : Nat} {input rest r₁ r₂ r₃ : List Char}
    {keyword : String} {q : Binder} {x : Variable} {A s : Term}
    (hterm : ∀ input : List Char, input.length ≤ bound → Derived sig input)
    (hinput : input.length ≤ bound) (hkeyword : keyword? (.symbol keyword) = some (.binder q))
    (hx : (readBound input).Reads x r₁) (hA : (readTerm sig r₁).Reads A r₂)
    (hs : (readTerm sig r₂).Reads s r₃) (hclose : (readClose r₃).Reads () rest) :
    ∃ tokens, Takes input tokens rest ∧
      Denotes sig (.openParen :: .symbol keyword :: tokens) (.bind q x A s) := by
  have hr₁ : r₁.length ≤ input.length := hx.2 ▸ (readBound input).length_rest
  have hr₂ : r₂.length ≤ r₁.length := hA.2 ▸ (readTerm sig r₁).length_rest
  obtain ⟨domain, hdomain, hA⟩ := hterm r₁ (hr₁.trans hinput) A r₂ hA
  obtain ⟨scope, hscope, hs⟩ := hterm r₂ (hr₂.trans (hr₁.trans hinput)) s r₃ hs
  have hrest : Takes r₂ (scope ++ [.closeParen]) rest :=
    takes_append.mpr ⟨r₃, hscope, takes_singleton.mpr (reads_readClose.mp hclose)⟩
  have hparts : Takes r₁ (domain ++ scope ++ [.closeParen]) rest := by
    rw [List.append_assoc]
    exact takes_append.mpr ⟨r₂, hdomain, hrest⟩
  exact ⟨_, .cons (reads_readBound.mp hx) hparts,
    .binder (keyword?_symbol_binder.mp hkeyword) hA hs⟩

/-- What is read after an opening parenthesis has a derivation, if this is so for terms from inputs
that are not longer. -/
theorem exists_denotes_of_readCompound {input rest : List Char} {t : Term}
    (hterm : ∀ input' : List Char, input'.length ≤ input.length → Derived sig input')
    (h : (readCompound sig input).Reads t rest) :
    ∃ tokens, Takes input tokens rest ∧ Denotes sig (.openParen :: tokens) t := by
  obtain ⟨token, middle, hnext⟩ := exists_next?_of_readCompound h
  have hmiddle : middle.length ≤ input.length := (Token.length_lt_of_next? hnext).le
  rw [reads_readCompound hnext] at h
  split at h
  · rename_i q hkeyword
    obtain ⟨x, r₁, A, r₂, s, r₃, hx, hA, hs, hclose, rfl⟩ := h
    obtain ⟨keyword, rfl⟩ := exists_symbol_of_keyword? hkeyword
    obtain ⟨tokens, htakes, hdenotes⟩ :=
      exists_denotes_of_binder hterm hmiddle hkeyword hx hA hs hclose
    exact ⟨_, .cons hnext htakes, hdenotes⟩
  · rename_i hkeyword
    obtain ⟨A, r₁, B, r₂, more, hA, hB, hmore, rfl⟩ := h
    obtain rfl := eq_arrow_of_keyword? hkeyword
    have hread : (readArguments sig middle).Reads (A :: B :: more) rest :=
      reads_readArguments_cons.mpr ⟨r₁, hA, reads_readArguments_cons.mpr ⟨r₂, hB, hmore⟩⟩
    obtain ⟨parts, hterms, hparts, htakes⟩ := exists_parts_of_readArguments hterm hmiddle hread
    have hlist :
        A :: B :: more = (A :: B :: more).dropLast ++ [(A :: B :: more).getLast (by simp)] :=
      (List.dropLast_concat_getLast _).symm
    refine ⟨_, .cons hnext htakes, ?_⟩
    rw [arrows_eq_foldr hlist]
    exact .arrow (hterms.trans hlist) (by simp) hparts
  · rename_i hkeyword
    obtain ⟨f, r₁, a, r₂, more, hf, ha, hmore, rfl⟩ := h
    have hr₁ : r₁.length ≤ input.length := hf.2 ▸ (readTerm sig input).length_rest
    have hread : (readArguments sig r₁).Reads (a :: more) rest :=
      reads_readArguments_cons.mpr ⟨r₂, ha, hmore⟩
    obtain ⟨head, hhead, hf⟩ := hterm input le_rfl f r₁ hf
    obtain ⟨parts, hterms, hparts, htakes⟩ := exists_parts_of_readArguments hterm hr₁ hread
    have hishead : IsHead head := by
      cases head with
      | nil => cases hf
      | cons token' tokens =>
        obtain ⟨_, hnext', _⟩ := hhead
        cases hnext.symm.trans hnext'
        exact hf.isHead hkeyword
    refine ⟨_, takes_append.mpr ⟨r₁, hhead, htakes⟩, ?_⟩
    have hne : parts ≠ [] := by
      rintro rfl
      exact absurd hterms (by simp)
    rw [Term.applyAll, ← hterms]
    exact .application hishead hf hne hparts

/-- **What is read is derived.** -/
theorem derived (sig : Signature) (input : List Char) : Derived sig input := by
  induction hn : input.length using Nat.strong_induction_on generalizing input with
  | _ n ih =>
  intro t rest h
  obtain ⟨token, middle, hnext, h⟩ := reads_readTerm.mp h
  rw [reads_readFrom] at h
  cases token with
  | numeral text =>
    obtain ⟨hliteral, rfl⟩ := h
    obtain ⟨n, hne, hdigits, hn, rfl⟩ := literal_eq_ok_iff.mp hliteral
    exact ⟨_, takes_singleton.mpr hnext, .numeral hne hdigits hn⟩
  | symbol text =>
    obtain ⟨hatom, rfl⟩ := h
    exact ⟨_, takes_singleton.mpr hnext, .symbol (resolves_iff.mpr hatom)⟩
  | closeParen => exact h.elim
  | openParen =>
    have hlt := Token.length_lt_of_next? hnext
    obtain ⟨tokens, htakes, hdenotes⟩ := exists_denotes_of_readCompound
      (fun input' hinput' => ih input'.length (by omega) input' rfl) h
    exact ⟨_, .cons hnext htakes, hdenotes⟩

end Reader

/-! ## Whole texts -/

/-- A text is read as the term at its front, if nothing but blanks follows. -/
theorem Term.read_eq_ok_iff {sig : Signature} {text : String} {t : Term} :
    Term.read sig text = .ok t ↔
      ∃ rest, (Reader.readTerm sig text.toList).Reads t rest ∧ Token.next? rest = none := by
  unfold Term.read Reader.Step.Reads
  constructor
  · intro h
    dsimp only at h
    split at h
    · exact absurd h (by simp)
    · rename_i t' hresult
      split_ifs at h with hend
      cases h
      exact ⟨_, ⟨hresult, rfl⟩, Option.isNone_iff_eq_none.mp hend⟩
  · rintro ⟨_, ⟨hresult, rfl⟩, hend⟩
    simp [hresult, hend]

/-- **The reader accepts exactly its grammar.** A text is read as a term if and only if it splits
into tokens, each as long as it can be, that denote this term. -/
theorem Term.read_eq_ok_iff_denotes (sig : Signature) (text : String) (t : Term) :
    Term.read sig text = .ok t ↔
      ∃ tokens, Token.Splits text.toList tokens ∧ Reader.Denotes sig tokens t := by
  rw [Term.read_eq_ok_iff]
  constructor
  · rintro ⟨rest, h, hend⟩
    obtain ⟨tokens, htakes, hdenotes⟩ := Reader.derived sig text.toList t rest h
    exact ⟨tokens, Token.splits_iff_takes.mpr ⟨rest, htakes, hend⟩, hdenotes⟩
  · rintro ⟨tokens, hsplits, hdenotes⟩
    obtain ⟨rest, htakes, hend⟩ := Token.splits_iff_takes.mp hsplits
    exact ⟨rest, Reader.reads_of_denotes hdenotes htakes, hend⟩

-- A numeral ends before a symbol without a blank, and a keyword is a symbol if it is not the head.
example : Term.read .empty "(f 12lam)" =
    .ok (.app (.app (.var ⟨"f"⟩) (.natural 12)) (.var ⟨"lam"⟩)) := by decide +kernel

end LogicalFramework

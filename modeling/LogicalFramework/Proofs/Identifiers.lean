import LogicalFramework.Identifier

/-!
# Identifiers and their structure

A variable, a meta-variable or a constant is known by its identifier, and its structure is read off
the string. Here a name is a record of its identifier and of the structure it was made with, and two
names are equal only if all of this is. A name is made from a string, and then it gets the structure
that can be read off it, or from its structure, and then the string is written. For names that are
made in these ways identifier and structure determine each other, so that nothing is lost if only
the identifier is kept.

* `DeterminedById` — that names are determined by their identifiers;
* `Variable.Record`, `MetaVariable.Record`, `Constant.Record` — names with their structure, and the
  ways to make them;
* `identifier_determines_structure` — the result for all three.
-/

namespace LogicalFramework

/-- That a name of type `ν` is read off every string, and that the names which are made in certain
ways are determined by their identifiers. -/
structure DeterminedById {ν : Type} (id : ν → String) (parse : String → ν) (IsMade : ν → Prop) :
    Prop where
  /-- A name that is read off a string has it as its identifier. -/
  id_parse : ∀ s, id (parse s) = s
  /-- A name that is made in any way is read off its identifier. -/
  parse_id : ∀ v, IsMade v → parse (id v) = v
  /-- Names are equal if their identifiers are. -/
  eq_iff : ∀ v w, IsMade v → IsMade w → (v = w ↔ id v = id w)

/-- Names that are read off their identifiers are determined by them. -/
theorem DeterminedById.of_parse_id {ν : Type} {id : ν → String} {parse : String → ν}
    {IsMade : ν → Prop} (id_parse : ∀ s, id (parse s) = s)
    (parse_id : ∀ v, IsMade v → parse (id v) = v) : DeterminedById id parse IsMade where
  id_parse := id_parse
  parse_id := parse_id
  eq_iff := by
    intro v w hv hw
    constructor
    · rintro rfl
      rfl
    · intro h
      calc v = parse (id v) := (parse_id v hv).symm
        _ = parse (id w) := by rw [h]
        _ = w := parse_id w hw

/-! ## Variables -/

/-- A variable with its base and, if it is generated, its index. -/
@[ext]
structure Variable.Record where
  /-- The identifier. -/
  id : String
  /-- The name that variants are generated from. -/
  base : String
  /-- The index of a generated variable. -/
  index : Option Int64
deriving DecidableEq

namespace Variable.Record

/-- The variable generated from the name `base` with the given index. -/
def generated (base : String) (index : Int64) : Record :=
  ⟨(Variable.generated base index).id, base, some index⟩

/-- A generated variable with an empty base. -/
def indexed (index : Int64) : Record :=
  generated "" index

/-- The variable that is read off a string: a generated one if the string has this form, and
otherwise one that is its own base. -/
def parse (s : String) : Record :=
  match (Variable.mk s).parts? with
  | some (base, index) => generated base index
  | none => ⟨s, s, none⟩

/-- The ways to make a variable. -/
inductive IsMade : Record → Prop where
  | parse (s : String) : IsMade (parse s)
  | generated (base : String) (index : Int64) : IsMade (generated base index)
  | indexed (index : Int64) : IsMade (indexed index)

theorem parse_id_generated (base : String) (index : Int64) :
    parse (generated base index).id = generated base index := by
  have hparts := parts?_generated base index
  rw [parse, generated, hparts]
  rfl

/-- A string that has the form of a generated variable is the one that is written for it. -/
theorem id_parse (s : String) : (parse s).id = s := by
  unfold parse
  split
  · rename_i base index hparts
    exact congrArg Variable.id (generated_of_parts? hparts)
  · rfl

theorem parse_id_of_isMade {v : Record} (h : v.IsMade) : parse v.id = v := by
  cases h with
  | parse s => rw [id_parse]
  | generated base index => exact parse_id_generated base index
  | indexed index => exact parse_id_generated "" index

/-- The record of a variable holds the base and the index that are read off the variable. -/
theorem parse_id_variable (x : Variable) : parse x.id = ⟨x.id, x.base, x.index?⟩ := by
  unfold parse Variable.base Variable.index?
  split
  · rename_i base index hparts
    rw [generated, generated_of_parts? hparts, hparts]
    rfl
  · rename_i hparts
    rw [hparts]
    rfl

/-- The structure of a generated variable determines it. -/
theorem eq_generated_iff {v : Record} (h : v.IsMade) (base : String) (index : Int64) :
    v = generated base index ↔ v.base = base ∧ v.index = some index := by
  constructor
  · rintro rfl
    exact ⟨rfl, rfl⟩
  · rintro ⟨hbase, hindex⟩
    have hv := (parse_id_of_isMade h).symm
    unfold parse at hv
    split at hv
    · rename_i b i _
      have hb : b = base := (congrArg Record.base hv).symm.trans hbase
      have hi : some i = some index := (congrArg Record.index hv).symm.trans hindex
      rw [hv, hb, Option.some.inj hi]
    · have hplain : v.index = none := congrArg Record.index hv
      exact absurd (hplain.symm.trans hindex) (by simp)

end Variable.Record

/-! ## Meta-variables -/

/-- A meta-variable with, if it has one, its index. -/
@[ext]
structure MetaVariable.Record where
  /-- The identifier. -/
  id : String
  /-- The index of an indexed meta-variable. -/
  index : Option Int64
deriving DecidableEq

namespace MetaVariable.Record

/-- The meta-variable that is read off a string. -/
def parse (s : String) : Record :=
  ⟨s, (MetaVariable.mk s).index?⟩

/-- The meta-variable with the given index. -/
def indexed (index : Int64) : Record :=
  ⟨(MetaVariable.indexed index).id, some index⟩

/-- The ways to make a meta-variable. -/
inductive IsMade : Record → Prop where
  | parse (s : String) : IsMade (parse s)
  | indexed (index : Int64) : IsMade (indexed index)

theorem parse_id_of_isMade {m : Record} (h : m.IsMade) : parse m.id = m := by
  cases h with
  | parse s => rfl
  | indexed index => exact congrArg (Record.mk _) (index?_indexed index)

/-- The index of a meta-variable determines it. -/
theorem eq_indexed_iff {m : Record} (h : m.IsMade) (index : Int64) :
    m = indexed index ↔ m.index = some index := by
  constructor
  · rintro rfl
    rfl
  · intro hindex
    have hread : (MetaVariable.mk m.id).index? = some index :=
      (congrArg Record.index (parse_id_of_isMade h)).trans hindex
    ext1
    · exact congrArg MetaVariable.id (indexed_of_index? hread).symm
    · exact hindex

end MetaVariable.Record

/-! ## Constants -/

/-- A constant with, if it is a literal, its value. -/
@[ext]
structure Constant.Record where
  /-- The identifier. -/
  id : String
  /-- The value of a literal. -/
  value : Option UInt64
deriving DecidableEq

namespace Constant.Record

/-- The constant that is read off a string. -/
def parse (s : String) : Record :=
  ⟨s, (Constant.mk s).natural?⟩

/-- The literal with value `n`. -/
def natural (n : UInt64) : Record :=
  ⟨(Constant.natural n).id, some n⟩

/-- The ways to make a constant. -/
inductive IsMade : Record → Prop where
  | parse (s : String) : IsMade (parse s)
  | natural (n : UInt64) : IsMade (natural n)

theorem parse_id_of_isMade {c : Record} (h : c.IsMade) : parse c.id = c := by
  cases h with
  | parse s => rfl
  | natural n => exact congrArg (Record.mk _) (natural?_natural n)

/-- The value of a literal determines it. -/
theorem eq_natural_iff {c : Record} (h : c.IsMade) (n : UInt64) :
    c = natural n ↔ c.value = some n := by
  constructor
  · rintro rfl
    rfl
  · intro hvalue
    have hread : (Constant.mk c.id).natural? = some n :=
      (congrArg Record.value (parse_id_of_isMade h)).trans hvalue
    ext1
    · exact congrArg Constant.id (natural_of_natural? hread).symm
    · exact hvalue

end Constant.Record

/-! ## The result -/

/-- **Identifiers and structure determine each other.** For each kind of name, a name is read off
every string and has it as its identifier. Every name that is made, from a string or from its
structure, is read off its identifier, so that names are equal exactly if their identifiers are. Its
structure is the one that the identifier has and, if there is any, determines the name. -/
theorem identifier_determines_structure :
    (DeterminedById Variable.Record.id Variable.Record.parse Variable.Record.IsMade ∧
      (∀ x : Variable, Variable.Record.parse x.id = ⟨x.id, x.base, x.index?⟩) ∧
      ∀ v : Variable.Record, v.IsMade → ∀ base index,
        v = .generated base index ↔ v.base = base ∧ v.index = some index) ∧
    (DeterminedById MetaVariable.Record.id MetaVariable.Record.parse MetaVariable.Record.IsMade ∧
      (∀ m : MetaVariable, MetaVariable.Record.parse m.id = ⟨m.id, m.index?⟩) ∧
      ∀ m : MetaVariable.Record, m.IsMade → ∀ index,
        m = .indexed index ↔ m.index = some index) ∧
    (DeterminedById Constant.Record.id Constant.Record.parse Constant.Record.IsMade ∧
      (∀ c : Constant, Constant.Record.parse c.id = ⟨c.id, c.natural?⟩) ∧
      ∀ c : Constant.Record, c.IsMade → ∀ n, c = .natural n ↔ c.value = some n) := by
  refine ⟨⟨.of_parse_id ?_ ?_, ?_, ?_⟩, ⟨.of_parse_id ?_ ?_, ?_, ?_⟩, ⟨.of_parse_id ?_ ?_, ?_, ?_⟩⟩
  · exact Variable.Record.id_parse
  · exact fun _ => Variable.Record.parse_id_of_isMade
  · exact Variable.Record.parse_id_variable
  · exact fun _ => Variable.Record.eq_generated_iff
  · exact fun _ => rfl
  · exact fun _ => MetaVariable.Record.parse_id_of_isMade
  · exact fun _ => rfl
  · exact fun _ => MetaVariable.Record.eq_indexed_iff
  · exact fun _ => rfl
  · exact fun _ => Constant.Record.parse_id_of_isMade
  · exact fun _ => rfl
  · exact fun _ => Constant.Record.eq_natural_iff

/-- A base may itself look like a generated name, and a numeral may be the least or the largest one.
One that is not canonical is no index. -/
theorem identifier_determines_structure_nested :
    Variable.Record.parse "$$x_1_-2" = .generated "$x_1" (-2) ∧
      Variable.Record.parse "$x_007" ≠ .generated "x" 7 ∧
      MetaVariable.Record.parse "m_-9223372036854775808" = .indexed Int64.minValue ∧
      Constant.Record.parse "18446744073709551615" = .natural (-1) := by
  obtain ⟨⟨hvariable, -, -⟩, ⟨hmeta, -, -⟩, hconstant, -, -⟩ := identifier_determines_structure
  refine ⟨?_, ?_, ?_, ?_⟩
  · have hid : (Variable.Record.generated "$x_1" (-2)).id = "$$x_1_-2" := by decide +kernel
    rw [← hid]
    exact hvariable.parse_id _ (.generated "$x_1" (-2))
  · intro h
    have hid := (hvariable.eq_iff _ _ (.parse "$x_007") (.generated "x" 7)).mp h
    exact absurd hid (by decide +kernel)
  · have hid : (MetaVariable.Record.indexed Int64.minValue).id = "m_-9223372036854775808" := by
      decide +kernel
    rw [← hid]
    exact hmeta.parse_id _ (.indexed Int64.minValue)
  · have hid : (Constant.Record.natural (-1)).id = "18446744073709551615" := by decide +kernel
    rw [← hid]
    exact hconstant.parse_id _ (.natural (-1))

end LogicalFramework

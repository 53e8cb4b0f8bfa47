import LogicalFramework.Decimal
import LogicalFramework.Text.Split

/-!
# Identifiers

Constants, variables and meta-variables are known by their identifier, a string, and by nothing
else. Some identifiers have a structure, which is read off the string:

* a constant whose identifier is the canonical text of a natural number is that *literal*;
* a variable whose identifier has the form `$base_index` is *generated* from the name `base`;
* a meta-variable whose identifier has the form `m_index` is *indexed*.

Since only canonical numerals count, structure and identifier determine each other.
-/

namespace LogicalFramework

/-! ## Constants -/

/-- A globally declared name, or a natural-number literal. -/
@[ext]
structure Constant where
  /-- The name of the constant. -/
  id : String
deriving DecidableEq

namespace Constant

/-- The literal with value `n`. -/
def natural (n : UInt64) : Constant :=
  ⟨String.ofList (Decimal.renderNatural n)⟩

/-- The value of a literal. -/
def natural? (c : Constant) : Option UInt64 :=
  Decimal.natural? c.id.toList

/-- Whether the constant is a literal. -/
def isNatural (c : Constant) : Bool :=
  c.natural?.isSome

/-- Constants are shown by their name. -/
def render (c : Constant) : String :=
  c.id

theorem natural?_natural (n : UInt64) : (natural n).natural? = some n := by
  simp [natural, natural?, Decimal.natural?_renderNatural]

theorem natural_of_natural? {c : Constant} {n : UInt64} (h : c.natural? = some n) :
    natural n = c := by
  ext1
  simp [natural, Decimal.renderNatural_of_natural? h]

end Constant

/-! ## Variables -/

/-- A local name. -/
@[ext]
structure Variable where
  /-- The name of the variable. -/
  id : String
deriving DecidableEq

namespace Variable

/-- The variable generated from the name `base` with the given index. -/
def generated (base : String) (index : Int64) : Variable :=
  ⟨String.ofList ('$' :: base.toList ++ '_' :: Decimal.renderIndex index)⟩

/-- A generated variable with an empty base. -/
def indexed (index : Int64) : Variable :=
  generated "" index

/-- The base and the index of a generated variable. -/
def parts? (x : Variable) : Option (String × Int64) :=
  match x.id.toList with
  | '$' :: cs =>
    match Text.splitAtLast '_' cs with
    | some (base, numeral) => (Decimal.index? numeral).map fun i => (String.ofList base, i)
    | none => none
  | _ => none

/-- The name that variants of the variable are generated from: the base of a generated variable,
the identifier of any other. -/
def base (x : Variable) : String :=
  match x.parts? with
  | some (b, _) => b
  | none => x.id

/-- The index of a generated variable. -/
def index? (x : Variable) : Option Int64 :=
  x.parts?.map Prod.snd

/-- Whether the variable is generated. -/
def isGenerated (x : Variable) : Bool :=
  x.index?.isSome

/-- Whether the variable is generated from the empty name. -/
def isIndexed (x : Variable) : Bool :=
  x.isGenerated && x.base.isEmpty

/-- Variables are shown by their name. -/
def render (x : Variable) : String :=
  x.id

/-- Variables are ordered by their names, character by character. -/
instance : Ord Variable where
  compare x y := compare x.id y.id

theorem underscore_not_mem_renderIndex (i : Int64) : '_' ∉ Decimal.renderIndex i := by
  unfold Decimal.renderIndex
  split <;> simp

/-- A generated variable has the base and the index it was generated from. -/
theorem parts?_generated (base : String) (i : Int64) :
    (generated base i).parts? = some (base, i) := by
  simp [parts?, generated, Text.splitAtLast_append _ (underscore_not_mem_renderIndex i),
    Decimal.index?_renderIndex]

/-- The base and the index of a variable determine it. -/
theorem generated_of_parts? {x : Variable} {base : String} {i : Int64}
    (h : x.parts? = some (base, i)) : generated base i = x := by
  unfold parts? at h
  split at h
  · rename_i cs hx
    split at h
    · rename_i b n hs
      simp only [Option.map_eq_some_iff, Prod.mk.injEq] at h
      obtain ⟨j, hj, rfl, rfl⟩ := h
      ext1
      rw [← String.toList_inj, hx, Text.eq_of_splitAtLast hs]
      simp [generated, Decimal.renderIndex_of_index? hj]
    · exact absurd h (by simp)
  · exact absurd h (by simp)

end Variable

/-! ## Meta-variables -/

/-- The name of a term that is yet to be found. -/
@[ext]
structure MetaVariable where
  /-- The name of the meta-variable. -/
  id : String
deriving DecidableEq

namespace MetaVariable

/-- The meta-variable with the given index. -/
def indexed (index : Int64) : MetaVariable :=
  ⟨String.ofList ('m' :: '_' :: Decimal.renderIndex index)⟩

/-- The index of an indexed meta-variable. -/
def index? (m : MetaVariable) : Option Int64 :=
  match m.id.toList with
  | 'm' :: '_' :: numeral => Decimal.index? numeral
  | _ => none

/-- Whether the meta-variable is indexed. -/
def isIndexed (m : MetaVariable) : Bool :=
  m.index?.isSome

/-- Meta-variables are shown after a question mark. -/
def render (m : MetaVariable) : String :=
  "?" ++ m.id

/-- Meta-variables are ordered by their names, character by character. -/
instance : Ord MetaVariable where
  compare m n := compare m.id n.id

theorem index?_indexed (i : Int64) : (indexed i).index? = some i := by
  simp [index?, indexed, Decimal.index?_renderIndex]

theorem indexed_of_index? {m : MetaVariable} {i : Int64} (h : m.index? = some i) :
    indexed i = m := by
  unfold index? at h
  split at h
  · rename_i n hm
    ext1
    rw [← String.toList_inj, hm]
    simp [indexed, Decimal.renderIndex_of_index? h]
  · exact absurd h (by simp)

end MetaVariable

/-! ## Sorted listings -/

/-- The members of a list in ascending order, each once. -/
def ascending {α : Type} [Ord α] [BEq α] (xs : List α) : List α :=
  (xs.mergeSort fun a b => (compare a b).isLE).eraseDups

end LogicalFramework

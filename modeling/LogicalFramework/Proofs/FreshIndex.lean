import LogicalFramework.Proofs.Fresh
import Mathlib.Order.Bounds.Defs

/-!
# The indices of fresh names

A fresh name is generated with the next index after those in use. Which index this is, is said in
integers without bounds: one more than the largest or, if the largest is the last index there is,
the least one that is not in use. Indices are machine words, and the sums that are computed on the
way never leave their range.

* `IsNextIndex` — the next index, and that it is computed without wrapping;
* `isNextIndex_nextIndex` — what `nextIndex` computes, if there is an index that is not in use;
* `exists_unused_or_all_used` — when there is one, by counting;
* `fresh_names_exact` — fresh variables and fresh meta-variables.
-/

namespace LogicalFramework

/-! ## Sums of indices -/

/-- A sum that is in the range of the indices is computed exactly. -/
theorem toInt_add_ofNat {start : Int64} {k : Nat} (h : start.toInt + k ≤ Int64.maxValue.toInt) :
    (start + Int64.ofNat k).toInt = start.toInt + k := by
  have hmin := Int64.le_toInt start
  rw [Int64.toInt_maxValue] at h
  rw [Int64.toInt_add, Int64.toInt_ofNat', Int.bmod_def, Int.bmod_def]
  simp only [Int64.size]
  omega

/-- Every index from `start` on is reached by counting. -/
theorem exists_eq_add_ofNat {start i : Int64} (h : start ≤ i) :
    ∃ k : Nat, start + Int64.ofNat k = i ∧ i.toInt = start.toInt + k := by
  have hle : start.toInt ≤ i.toInt := Int64.le_iff_toInt_le.mp h
  have hk : i.toInt = start.toInt + (i.toInt - start.toInt).toNat := by omega
  refine ⟨(i.toInt - start.toInt).toNat, ?_, hk⟩
  apply Int64.toInt_inj.mp
  rw [toInt_add_ofNat, ← hk]
  rw [← hk]
  exact Int64.toInt_le i

theorem le_add_ofNat {start : Int64} {k : Nat} (h : start.toInt + k ≤ Int64.maxValue.toInt) :
    start ≤ start + Int64.ofNat k := by
  rw [Int64.le_iff_toInt_le, toInt_add_ofNat h]
  omega

/-! ## The next index -/

/-- That `i` is the next index after those in use, and that the sums which lead to it are exact. -/
inductive IsNextIndex (used : List Int64) (start : Int64) : Int64 → Prop where
  /-- No index is in use. -/
  | first (h : used = []) : IsNextIndex used start start
  /-- One more than the largest index in use. -/
  | after {largest i : Int64} (h : IsGreatest {j | j ∈ used} largest)
      (hi : i.toInt = largest.toInt + 1) : IsNextIndex used start i
  /-- If there is no index after the largest in use, the least one that is not in use. The search
  counts up to it, and never past the last index. -/
  | unused {i : Int64} (h : IsGreatest {j | j ∈ used} Int64.maxValue)
      (hi : IsLeast {j | start ≤ j ∧ j ∉ used} i)
      (hexact : ∀ k : Nat, start.toInt + k ≤ i.toInt + 1 →
        (start + Int64.ofNat k).toInt = start.toInt + k) : IsNextIndex used start i

/-- The first unused index is the least one, if there is any from `start` on. -/
theorem isLeast_firstUnused {used : List Int64} {start : Int64} (h : used.length < 2 ^ 63)
    (hfree : ∃ i, start ≤ i ∧ i ∉ used) :
    IsLeast {j | start ≤ j ∧ j ∉ used} (firstUnused used start) := by
  obtain ⟨k, hk, hunused, hbefore⟩ := firstUnused_spec used start h
  -- Counting stops at the latest at any index that is not in use.
  have hstop : ∀ i, start ≤ i → i ∉ used → start.toInt + k ≤ i.toInt := by
    intro i hi hiused
    obtain ⟨n, hn, hint⟩ := exists_eq_add_ofNat hi
    have hkn : ¬ n < k := fun hlt => hiused (hn ▸ hbefore n hlt)
    omega
  obtain ⟨i, hi, hiused⟩ := hfree
  have hmax : start.toInt + k ≤ Int64.maxValue.toInt :=
    (hstop i hi hiused).trans (Int64.toInt_le i)
  rw [hk]
  refine ⟨⟨le_add_ofNat hmax, hunused⟩, ?_⟩
  rintro j ⟨hj, hjused⟩
  rw [Int64.le_iff_toInt_le, toInt_add_ofNat hmax]
  exact hstop j hj hjused

theorem isGreatest_of_max?_eq_some {used : List Int64} {largest : Int64}
    (h : used.max? = some largest) : IsGreatest {j | j ∈ used} largest := by
  have hmax : Std.MaxEqOr Int64 := by
    constructor
    intro a b
    show (if a ≤ b then b else a) = a ∨ (if a ≤ b then b else a) = b
    split
    · exact Or.inr rfl
    · exact Or.inl rfl
  exact ⟨List.max?_mem h, fun _ hj => le_of_max?_eq_some h hj⟩

theorem isNextIndex_nextIndex {used : List Int64} {start : Int64} (h : used.length < 2 ^ 63)
    (hfree : ∃ i, start ≤ i ∧ i ∉ used) : IsNextIndex used start (nextIndex used start) := by
  unfold nextIndex
  cases hmax : used.max? with
  | none => exact .first (List.max?_eq_none_iff.mp hmax)
  | some largest =>
    have hgreatest := isGreatest_of_max?_eq_some hmax
    show IsNextIndex used start
      (if largest = Int64.maxValue then firstUnused used start else largest + 1)
    split
    · rename_i hlast
      rw [hlast] at hgreatest
      have hleast := isLeast_firstUnused h hfree
      refine .unused hgreatest hleast fun k hk => toInt_add_ofNat (hk.trans ?_)
      -- The index that is found is not the last one, since this is in use.
      have hne : (firstUnused used start).toInt ≠ Int64.maxValue.toInt := by
        intro he
        apply hleast.1.2
        rw [Int64.toInt_inj.mp he]
        exact hgreatest.1
      have hle := Int64.toInt_le (firstUnused used start)
      omega
    · rename_i hne
      refine .after hgreatest ?_
      have htop : largest.toInt ≠ Int64.maxValue.toInt := fun he => hne (Int64.toInt_inj.mp he)
      have hle := Int64.toInt_le largest
      exact toInt_add_ofNat (k := 1) (by omega)

/-- From a start that is not negative on, all indices are in use only if there are as many in
use. -/
theorem exists_unused_or_all_used (used : List Int64) (start : Int64) (hstart : 0 ≤ start.toInt) :
    (∃ i, start ≤ i ∧ i ∉ used) ∨
      (2 ^ 63 ≤ used.length + start.toInt ∧ ∀ i, start ≤ i → i ∈ used) := by
  by_cases hfree : ∃ i, start ≤ i ∧ i ∉ used
  · exact Or.inl hfree
  · push Not at hfree
    refine Or.inr ⟨?_, hfree⟩
    have hmax := Int64.toInt_le start
    have hcount : (Int64.maxValue.toInt + 1 - start.toInt).toNat ≤ used.length := by
      rw [Int64.toInt_maxValue] at hmax ⊢
      apply le_length_of_consecutive (by omega)
      intro k hk
      refine hfree _ (le_add_ofNat ?_)
      rw [Int64.toInt_maxValue]
      omega
    rw [Int64.toInt_maxValue] at hcount
    omega

/-! ## Fresh names -/

/-- The indices that are in use with a base. A variable that is not generated counts 0. -/
def Variable.indicesInUse (avoid : List Variable) (base : String) : List Int64 :=
  (avoid.filter fun x => x.base = base).map fun x => x.index?.getD 0

theorem length_indicesInUse_le (avoid : List Variable) (base : String) :
    (Variable.indicesInUse avoid base).length ≤ avoid.length := by
  rw [Variable.indicesInUse, List.length_map]
  exact List.length_filter_le _ _

/-- A fresh meta-variable is none of those to avoid, since their indices are in use. -/
theorem metaVariable_fresh_not_mem {avoid : List MetaVariable} (h : avoid.length < 2 ^ 63) :
    MetaVariable.fresh avoid ∉ avoid := by
  intro hmem
  refine nextIndex_not_mem (avoid.filterMap MetaVariable.index?) 0 ?_ ?_
  · exact (List.length_filterMap_le _ _).trans_lt h
  · exact List.mem_filterMap.mpr ⟨_, hmem, MetaVariable.index?_indexed _⟩

/-- **Fresh names are fresh and their indices exact.** A fresh variable is none of those to avoid.
It is the candidate or, if this is to be avoided, generated from the base of the candidate with the
next index after those in use with that base. There is a next index unless all the `2 ^ 63 - 1`
positive ones are in use, which takes a list of this length. A fresh meta-variable is none of those
to avoid and has the next index after those in use. -/
theorem fresh_names_exact (avoid : List Variable) (candidate : Variable)
    (metas : List MetaVariable) (havoid : avoid.length < 2 ^ 63) (hmetas : metas.length < 2 ^ 63) :
    (Variable.fresh avoid candidate ∉ avoid ∧
      (candidate ∉ avoid → Variable.fresh avoid candidate = candidate) ∧
      (candidate ∈ avoid → ∃ i, Variable.fresh avoid candidate = .generated candidate.base i ∧
        (IsNextIndex (Variable.indicesInUse avoid candidate.base) 1 i ∨
          avoid.length = 2 ^ 63 - 1 ∧
            ∀ j : Int64, 0 < j → j ∈ Variable.indicesInUse avoid candidate.base))) ∧
    (MetaVariable.fresh metas ∉ metas ∧ ∃ i, MetaVariable.fresh metas = .indexed i ∧
      IsNextIndex (metas.filterMap MetaVariable.index?) 0 i) := by
  refine ⟨⟨fresh_not_mem avoid candidate, fresh_of_not_mem, fun hmem => ?_⟩,
    metaVariable_fresh_not_mem hmetas, _, rfl, ?_⟩
  · have hlen := length_indicesInUse_le avoid candidate.base
    refine ⟨_, fresh_of_mem hmem havoid, ?_⟩
    rcases exists_unused_or_all_used (Variable.indicesInUse avoid candidate.base) 1 (by decide)
      with hfree | ⟨hcount, hall⟩
    · exact Or.inl (isNextIndex_nextIndex (by omega) hfree)
    · rw [Int64.toInt_one] at hcount
      refine Or.inr ⟨by omega, fun j hj => hall j ?_⟩
      rw [Int64.lt_iff_toInt_lt, Int64.toInt_zero] at hj
      rw [Int64.le_iff_toInt_le, Int64.toInt_one]
      omega
  · have hlen := List.length_filterMap_le MetaVariable.index? metas
    apply isNextIndex_nextIndex (by omega)
    rcases exists_unused_or_all_used (metas.filterMap MetaVariable.index?) 0 (by decide)
      with hfree | ⟨hcount, _⟩
    · exact hfree
    · rw [Int64.toInt_zero] at hcount
      omega

/-- With `y`, `$y_1` and the variable with the last index to avoid, `y` becomes `$y_2`. With `m_0`
and the meta-variable with the last index to avoid, `m_1` is fresh. -/
theorem fresh_names_exact_lastIndex :
    Variable.fresh [⟨"y"⟩, .generated "y" 1, .generated "y" Int64.maxValue] ⟨"y"⟩ =
      .generated "y" 2 ∧
    (∃ i, Variable.generated "y" 2 = .generated "y" i ∧ IsNextIndex (Variable.indicesInUse
      [⟨"y"⟩, .generated "y" 1, .generated "y" Int64.maxValue] "y") 1 i) ∧
    MetaVariable.fresh [.indexed 0, .indexed Int64.maxValue] = .indexed 1 ∧
    MetaVariable.indexed 1 ∉ [.indexed 0, .indexed Int64.maxValue] := by
  have hvariable : Variable.fresh [⟨"y"⟩, .generated "y" 1, .generated "y" Int64.maxValue] ⟨"y"⟩ =
      .generated "y" 2 := by decide +kernel
  have hmeta : MetaVariable.fresh [.indexed 0, .indexed Int64.maxValue] = .indexed 1 := by
    decide +kernel
  obtain ⟨⟨_, _, hindex⟩, hfresh, _⟩ := fresh_names_exact
    [⟨"y"⟩, .generated "y" 1, .generated "y" Int64.maxValue] ⟨"y"⟩
    [.indexed 0, .indexed Int64.maxValue] (by simp) (by simp)
  obtain ⟨i, hi, hnext⟩ := hindex (by simp)
  rw [hvariable] at hi
  rw [hmeta] at hfresh
  have hbase : Variable.base ⟨"y"⟩ = "y" := by decide +kernel
  rw [hbase] at hi hnext
  exact ⟨hvariable, ⟨i, hi, hnext.resolve_right fun h => absurd h.1 (by simp)⟩, hmeta, hfresh⟩

end LogicalFramework

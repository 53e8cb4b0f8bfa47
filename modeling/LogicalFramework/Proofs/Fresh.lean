import LogicalFramework.Identifier.Fresh
import Mathlib.Algebra.Order.BigOperators.Group.List
import Mathlib.Algebra.Order.Group.Nat
import Mathlib.Data.List.Nodup
import Mathlib.Data.List.Perm.Subperm

/-!
# Fresh names are fresh

A fresh variable is never one of those to avoid, whatever their names and their number. As long as
fewer than `2 ^ 63` variables are to be avoided it is the candidate or generated from the base of
the candidate: the search for an unused index succeeds by counting.
-/

namespace LogicalFramework

/-! ## Unused indices -/

/-- Up to `2 ^ 64` consecutive indices are all different. -/
theorem nodup_consecutive (start : Int64) (n : Nat) (hn : n ≤ 2 ^ 64) :
    ((List.range n).map fun k => start + Int64.ofNat k).Nodup := by
  apply List.Nodup.map_on _ List.nodup_range
  intro j hj k hk h
  rw [List.mem_range] at hj hk
  have hjk : Int64.ofNat j = Int64.ofNat k := (Int64.add_right_inj start).mp h
  have hint := congrArg (fun i : Int64 => i.toInt) hjk
  simp only [Int64.toInt_ofNat', Int.bmod_def, Int64.size] at hint
  omega

/-- If `n` consecutive indices are in use then `n` indices are. -/
theorem le_length_of_consecutive {used : List Int64} {start : Int64} {n : Nat} (hn : n ≤ 2 ^ 64)
    (h : ∀ k < n, start + Int64.ofNat k ∈ used) : n ≤ used.length := by
  have hall : ((List.range n).map fun k => start + Int64.ofNat k) ⊆ used := by
    intro i hi
    obtain ⟨k, hk, rfl⟩ := List.mem_map.mp hi
    exact h k (List.mem_range.mp hk)
  have hlen := (List.subperm_of_subset (nodup_consecutive start n hn) hall).length_le
  rwa [List.length_map, List.length_range] at hlen

/-- The first unused index is found by counting up from `start` over indices in use. It is found
because one more index than are in use cannot all be in use. -/
theorem firstUnused_spec (used : List Int64) (start : Int64) (h : used.length < 2 ^ 63) :
    ∃ k : Nat, firstUnused used start = start + Int64.ofNat k ∧ start + Int64.ofNat k ∉ used ∧
      ∀ j < k, start + Int64.ofNat j ∈ used := by
  unfold firstUnused
  rw [List.find?_map]
  cases hfind : (List.range (used.length + 1)).find?
      ((fun i => !used.contains i) ∘ fun k => start + Int64.ofNat k) with
  | some k =>
    obtain ⟨hk, _, hbefore⟩ := List.find?_range_eq_some.mp hfind
    exact ⟨k, rfl, by simpa using hk, fun j hj => by simpa using hbefore j hj⟩
  | none =>
    exfalso
    have hall : ∀ k < used.length + 1, start + Int64.ofNat k ∈ used := by
      intro k hk
      simpa using List.find?_eq_none.mp hfind k (List.mem_range.mpr hk)
    have hlen := le_length_of_consecutive (by omega) hall
    omega

theorem firstUnused_not_mem (used : List Int64) (start : Int64) (h : used.length < 2 ^ 63) :
    firstUnused used start ∉ used := by
  obtain ⟨k, hk, hunused, _⟩ := firstUnused_spec used start h
  rw [hk]
  exact hunused

/-- The largest of a list of indices bounds the list. -/
theorem le_of_max?_eq_some {used : List Int64} {largest : Int64} (h : used.max? = some largest)
    {i : Int64} (hi : i ∈ used) : i ≤ largest := by
  have hsup : Std.LawfulOrderSup Int64 := by
    constructor
    intro a b c
    show (if a ≤ b then b else a) ≤ c ↔ a ≤ c ∧ b ≤ c
    split
    · rename_i hab
      exact ⟨fun hbc => ⟨Int64.le_trans hab hbc, hbc⟩, And.right⟩
    · rename_i hab
      have hba : b ≤ a := (Int64.le_total a b).resolve_left hab
      exact ⟨fun hac => ⟨hac, Int64.le_trans hba hac⟩, And.left⟩
  exact (List.max?_le_iff h).mp (Int64.le_refl largest) i hi

/-- The next index is none of those in use. -/
theorem nextIndex_not_mem (used : List Int64) (start : Int64) (h : used.length < 2 ^ 63) :
    nextIndex used start ∉ used := by
  unfold nextIndex
  cases hmax : used.max? with
  | none =>
    rw [List.max?_eq_none_iff] at hmax
    rw [hmax]
    exact List.not_mem_nil
  | some largest =>
    show (if largest = Int64.maxValue then firstUnused used start else largest + 1) ∉ used
    split
    · exact firstUnused_not_mem used start h
    · rename_i hne
      intro hmem
      have hle : largest + 1 ≤ largest := le_of_max?_eq_some hmax hmem
      have hmin := Int64.le_toInt largest
      have hlt : largest.toInt < 2 ^ 63 - 1 := by
        have hbound := Int64.toInt_le largest
        have htop : largest.toInt ≠ Int64.maxValue.toInt := fun he => hne (Int64.toInt_inj.mp he)
        rw [Int64.toInt_maxValue] at hbound htop
        omega
      rw [Int64.le_iff_toInt_le, Int64.toInt_add, Int64.toInt_one, Int.bmod_def] at hle
      omega

/-! ## Fresh variables -/

/-- A name longer than all of a list is not in the list. -/
theorem longerThan_not_mem (avoid : List Variable) : Variable.longerThan avoid ∉ avoid := by
  intro hmem
  have hle : (Variable.longerThan avoid).id.length ≤ (avoid.map fun x => x.id.length).sum :=
    List.single_le_sum (by simp) _ (List.mem_map_of_mem hmem)
  have hlen : (Variable.longerThan avoid).id.length = (avoid.map fun x => x.id.length).sum + 1 := by
    rw [Variable.longerThan, String.length_ofList, List.length_cons, List.length_flatMap]
    simp only [String.length_toList]
  omega

/-- A generated variable in use has its index among those in use with its base. -/
theorem index_mem_of_generated_mem {avoid : List Variable} {base : String} {i : Int64}
    (h : Variable.generated base i ∈ avoid) :
    i ∈ (avoid.filter fun x => x.base = base).map fun x => x.index?.getD 0 := by
  rw [List.mem_map]
  refine ⟨.generated base i, ?_, ?_⟩
  · rw [List.mem_filter]
    exact ⟨h, by simp [Variable.base, Variable.parts?_generated]⟩
  · simp [Variable.index?, Variable.parts?_generated]

/-- A fresh variable that stands for a variable to avoid is generated from the base of that
variable, with the next index. -/
theorem fresh_of_mem {avoid : List Variable} {candidate : Variable} (hmem : candidate ∈ avoid)
    (hlen : avoid.length < 2 ^ 63) :
    Variable.fresh avoid candidate =
      .generated candidate.base (nextIndex
        ((avoid.filter fun x => x.base = candidate.base).map fun x => x.index?.getD 0) 1) := by
  have hnext : Variable.generated candidate.base (nextIndex
      ((avoid.filter fun x => x.base = candidate.base).map fun x => x.index?.getD 0) 1) ∉ avoid := by
    intro h
    refine nextIndex_not_mem _ 1 ?_ (index_mem_of_generated_mem h)
    rw [List.length_map]
    exact lt_of_le_of_lt (List.length_filter_le _ _) hlen
  simp [Variable.fresh, hmem, hnext]

/-- A fresh variable is none of those to avoid. -/
theorem fresh_not_mem (avoid : List Variable) (candidate : Variable) :
    Variable.fresh avoid candidate ∉ avoid := by
  unfold Variable.fresh
  split
  · dsimp only
    split
    · exact longerThan_not_mem avoid
    · rename_i h
      simpa using h
  · rename_i h
    simpa using h

end LogicalFramework

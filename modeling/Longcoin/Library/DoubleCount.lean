import Mathlib.Algebra.Order.BigOperators.Group.List
import Mathlib.Tactic.Abel

/-! Counting a sum in two ways: over the keys where it is and over the keys where it is used. -/

namespace Longcoin.Library.DoubleCount
open List

variable {α K : Type}

theorem sum_filter_add (entries : List α) (p : α → Bool) (f : α → ℤ) :
    (entries.map f).sum = ((entries.filter p).map f).sum + ((entries.filter fun entry => !p entry).map f).sum := by
  induction entries with
  | nil => rfl
  | cons entry rest ih =>
    rw [map_cons, sum_cons, ih, filter_cons, filter_cons]
    cases p entry
    · simp only [Bool.false_eq_true, if_false, Bool.not_false, if_true, map_cons, sum_cons]
      abel
    · simp only [Bool.not_true, Bool.false_eq_true, if_false, if_true, map_cons, sum_cons]
      abel

theorem sum_filter_of_zero (entries : List α) (p : α → Bool) (f : α → ℤ)
    (zero : ∀ entry ∈ entries, p entry = false → f entry = 0) : ((entries.filter p).map f).sum = (entries.map f).sum := by
  rw [sum_filter_add entries p f, left_eq_add]
  refine sum_eq_zero fun value member => ?_
  obtain ⟨entry, inside, rfl⟩ := mem_map.mp member
  obtain ⟨there, out⟩ := mem_filter.mp inside
  exact zero entry there (by simpa using out)

theorem sum_used [DecidableEq K] {all used : List K} (distinctAll : all.Nodup) (distinctUsed : used.Nodup) (f : K → ℤ)
    (support : ∀ key ∈ used, key ∉ all → f key = 0) :
    ((all.filter fun key => decide (key ∈ used)).map f).sum = (used.map f).sum := by
  have same : (all.filter fun key => decide (key ∈ used)).Perm (used.filter fun key => decide (key ∈ all)) := by
    rw [perm_ext_iff_of_nodup (distinctAll.filter _) (distinctUsed.filter _)]
    intro key
    simp only [mem_filter, decide_eq_true_eq]
    exact and_comm
  rw [(same.map f).sum_eq, sum_filter_of_zero used _ f]
  intro key member absent
  exact support key member (by simpa using absent)

theorem sum_flatMap (entries : List α) (parts : α → List K) (f : K → ℤ) :
    ((entries.flatMap parts).map f).sum = (entries.map fun entry => ((parts entry).map f).sum).sum := by
  induction entries with
  | nil => rfl
  | cons entry rest ih => rw [flatMap_cons, map_append, sum_append, ih, map_cons, sum_cons]

end Longcoin.Library.DoubleCount

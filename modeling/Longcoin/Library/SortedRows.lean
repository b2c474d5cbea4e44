import Mathlib.Data.Finset.Sort
import Mathlib.Data.List.Sigma

/-! Rows made from numbered items, and walks through sorted keys. -/

namespace Longcoin.Library
open List

theorem filterMap_map_sublist {α β γ : Type} {entry : α → Option β} {position : β → γ} {source : α → γ}
    (placed : ∀ item found, entry item = some found → position found = source item) (items : List α) :
    ((items.filterMap entry).map position).Sublist (items.map source) := by
  induction items with
  | nil => exact .slnil
  | cons item items ih =>
    rw [filterMap_cons, map_cons]
    cases found : entry item with
    | none => exact ih.cons _
    | some result =>
      dsimp only
      rw [map_cons, placed item result found]
      exact ih.cons_cons _

theorem mem_zipIdx_filterMap {α β : Type} {entry : α × Nat → Option β} {items : List α} {row : β} :
    row ∈ items.zipIdx.filterMap entry ↔ ∃ i item, items[i]? = some item ∧ entry (item, i) = some row := by
  rw [mem_filterMap]
  constructor
  · rintro ⟨⟨item, i⟩, member, made⟩
    exact ⟨i, item, mem_zipIdx_iff_getElem?.mp member, made⟩
  · rintro ⟨i, item, at', made⟩
    exact ⟨(item, i), mem_zipIdx_iff_getElem?.mpr at', made⟩

theorem takeWhile_pairwise {α : Type} {items : List α} {wanted : α → Bool}
    (first : items.Pairwise fun item later => wanted later = true → wanted item = true) :
    items.takeWhile wanted = items.filter wanted := by
  induction items with
  | nil => rfl
  | cons item rest ih =>
    obtain ⟨before, restFirst⟩ := pairwise_cons.mp first
    cases want : wanted item with
    | true => rw [takeWhile_cons_of_pos want, filter_cons_of_pos want, ih restFirst]
    | false =>
      have unwanted : ¬ wanted item = true := by rw [want]; exact Bool.false_ne_true
      rw [takeWhile_cons_of_neg unwanted, filter_cons_of_neg unwanted, eq_comm, filter_eq_nil_iff]
      exact fun later member want' => unwanted (before later member want')

theorem dropWhile_pairwise {α : Type} {items : List α} {skipped : α → Bool}
    (first : items.Pairwise fun item later => skipped later = true → skipped item = true) :
    items.dropWhile skipped = items.filter fun item => !skipped item := by
  induction items with
  | nil => rfl
  | cons item rest ih =>
    obtain ⟨before, restFirst⟩ := pairwise_cons.mp first
    rw [dropWhile_cons, filter_cons]
    cases skip : skipped item with
    | true => exact ih restFirst
    | false =>
      simp only [Bool.false_eq_true, if_false, Bool.not_false, if_true, cons.injEq, true_and]
      refine (filter_eq_self.mpr fun later member => ?_).symm
      rw [Bool.not_eq_true', ← Bool.not_eq_true]
      exact fun skip' => Bool.false_ne_true (skip.symm.trans (before later member skip'))

section Scan

variable {K : Type} [LinearOrder K]

theorem takeWhile_sorted {keys : List K} {wanted : K → Bool} (sorted : keys.Pairwise (· < ·))
    (between : ∀ key ∈ keys, ∀ later ∈ keys, key < later → wanted later = true → wanted key = true) :
    keys.takeWhile wanted = keys.filter wanted :=
  takeWhile_pairwise (sorted.imp_of_mem fun inside member => between _ inside _ member)

theorem scan_sorted {keys : List K} {wanted : K → Bool} {lower : K} (sorted : keys.Pairwise (· < ·))
    (reached : ∀ key, wanted key = true → lower ≤ key)
    (between : ∀ key later, lower ≤ key → key < later → wanted later = true → wanted key = true) :
    (keys.dropWhile fun key => decide (key < lower)).takeWhile wanted = keys.filter wanted := by
  induction keys with
  | nil => rfl
  | cons key rest ih =>
    obtain ⟨above, restSorted⟩ := pairwise_cons.mp sorted
    by_cases less : key < lower
    · have unwanted : ¬ wanted key = true := fun want => absurd less (reached key want).not_gt
      rw [dropWhile_cons, if_pos (decide_eq_true less), filter_cons_of_neg unwanted, ih restSorted]
    · rw [dropWhile_cons, if_neg fun yes => less (of_decide_eq_true yes)]
      refine takeWhile_sorted sorted fun first inside later _ => between first later ?_
      rcases mem_cons.mp inside with rfl | later
      · exact not_lt.mp less
      · exact (not_lt.mp less).trans (above first later).le

end Scan

end Longcoin.Library

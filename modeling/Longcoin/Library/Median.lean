import Mathlib.Data.List.Sort

/-! The middle of a sorted list, and what most of its elements say about it. -/

namespace Longcoin.Library.Median
open List

variable {α : Type} {xs : List α} {k : Nat} {x : α}

theorem split_at (here : xs[k]? = some x) : xs = xs.take k ++ x :: xs.drop (k + 1) := by
  obtain ⟨inside, rfl⟩ := List.getElem?_eq_some_iff.mp here
  rw [getElem_cons_drop, take_append_drop]

variable [LinearOrder α] {p : α → Bool}

section

variable (sorted : xs.Pairwise (· ≤ ·))
include sorted

theorem countP_after (here : xs[k]? = some x) (none : ∀ y ≤ x, p y = false) : xs.countP p + (k + 1) ≤ xs.length := by
  have whole := split_at here
  have inside : k < xs.length := (List.getElem?_eq_some_iff.mp here).1
  have before : (xs.take k).countP p = 0 := by
    apply countP_eq_zero.mpr
    intro y member
    rw [whole, pairwise_append] at sorted
    rw [none y (sorted.2.2 y member x mem_cons_self)]
    exact Bool.false_ne_true
  have after := @countP_le_length α p (xs.drop (k + 1))
  have count : xs.countP p = (xs.take k).countP p + (xs.drop (k + 1)).countP p := by
    conv_lhs => rw [whole]
    rw [countP_append, countP_cons, none x le_rfl]
    simp
  rw [length_drop] at after
  omega

theorem countP_before (here : xs[k]? = some x) (none : ∀ y, x ≤ y → p y = false) : xs.countP p ≤ k := by
  have whole := split_at here
  have after : (xs.drop (k + 1)).countP p = 0 := by
    apply countP_eq_zero.mpr
    intro y member
    rw [whole, pairwise_append, pairwise_cons] at sorted
    rw [none y (sorted.2.1.1 y member)]
    exact Bool.false_ne_true
  have before := @countP_le_length α p (xs.take k)
  have count : xs.countP p = (xs.take k).countP p + (xs.drop (k + 1)).countP p := by
    conv_lhs => rw [whole]
    rw [countP_append, countP_cons, none x le_rfl]
    simp
  rw [length_take] at before
  omega

theorem median_between (odd : xs.length = 2 * k + 1) (here : xs[k]? = some x) {a b : α}
    (most : xs.length < 2 * xs.countP fun y => a ≤ y ∧ y ≤ b) : a ≤ x ∧ x ≤ b := by
  constructor
  · by_contra below
    have few := @countP_after α xs k x _ (fun y => decide (a ≤ y ∧ y ≤ b)) sorted here fun y le =>
      decide_eq_false fun between => below (between.1.trans le)
    omega
  · by_contra above
    have few := @countP_before α xs k x _ (fun y => decide (a ≤ y ∧ y ≤ b)) sorted here fun y le =>
      decide_eq_false fun between => above (le.trans between.2)
    omega

theorem median_least (odd : xs.length = 2 * k + 1) (here : xs[k]? = some x) {least : α}
    (bound : ∀ y ∈ xs, least ≤ y) : x = least ↔ xs.length < 2 * xs.countP fun y => y = least := by
  constructor
  · rintro rfl
    have inside : k < xs.length := (List.getElem?_eq_some_iff.mp here).1
    have whole := split_at here
    have before : (xs.take k).countP (fun y => decide (y = x)) = k := by
      have all : (xs.take k).countP (fun y => decide (y = x)) = (xs.take k).length := by
        apply countP_eq_length.mpr
        intro y member
        apply decide_eq_true
        apply le_antisymm
        · rw [whole, pairwise_append] at sorted
          exact sorted.2.2 y member x mem_cons_self
        · exact bound y (mem_of_mem_take member)
      rw [all, length_take, Nat.min_eq_left (Nat.le_of_lt inside)]
    have count : xs.countP (fun y => decide (y = x)) =
        (xs.take k).countP (fun y => decide (y = x)) + ((xs.drop (k + 1)).countP (fun y => decide (y = x)) + 1) := by
      conv_lhs => rw [whole]
      rw [countP_append, countP_cons, decide_eq_true rfl]
      rfl
    omega
  · intro most
    have same : (xs.countP fun y => decide (y = least)) = xs.countP fun y => decide (least ≤ y ∧ y ≤ least) := by
      congr 1
      funext y
      rw [decide_eq_decide, and_comm]
      exact le_antisymm_iff
    rw [same] at most
    obtain ⟨lower, upper⟩ := median_between sorted odd here most
    exact le_antisymm upper lower

end

end Longcoin.Library.Median

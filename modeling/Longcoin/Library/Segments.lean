import Mathlib.Data.List.Basic
import Mathlib.Algebra.Order.Ring.Nat

/-! The parts of a list under the nodes of a complete binary tree. -/

namespace Longcoin.Library.Segments
open List

variable {α : Type}

/-- The entries under the node at a height and position. -/
def span (items : List α) (height pos : Nat) : List α := (items.drop (pos * 2 ^ height)).take (2 ^ height)

theorem left_start (height pos : Nat) : pos * 2 * 2 ^ height = pos * 2 ^ (height + 1) := by
  rw [Nat.mul_assoc, Nat.pow_succ, Nat.mul_comm 2]

theorem right_start (height pos : Nat) : (pos * 2 + 1) * 2 ^ height = pos * 2 ^ (height + 1) + 2 ^ height := by
  rw [Nat.add_mul, left_start, Nat.one_mul]

variable (items : List α) (height pos : Nat)

theorem length_span : (span items height pos).length = min (2 ^ height) (items.length - pos * 2 ^ height) := by
  rw [span, length_take, length_drop]

theorem take_span : (span items (height + 1) pos).take (2 ^ height) = span items height (pos * 2) := by
  rw [span, span, left_start, take_take, Nat.two_pow_succ, Nat.min_eq_left (Nat.le_add_right _ _)]

theorem drop_span : (span items (height + 1) pos).drop (2 ^ height) = span items height (pos * 2 + 1) := by
  rw [span, span, right_start, drop_take, drop_drop, Nat.two_pow_succ, Nat.add_sub_cancel]

theorem map_span {β : Type} (f : α → β) : (span items height pos).map f = span (items.map f) height pos := by
  rw [span, span, map_take, map_drop]

theorem span_whole (fits : items.length ≤ 2 ^ height) : span items height 0 = items := by
  rw [span, Nat.zero_mul, drop_zero, take_of_length_le fits]

variable {items height pos}

theorem span_short (short : (span items (height + 1) pos).length ≤ 2 ^ height) :
    span items height (pos * 2) = span items (height + 1) pos := by
  rw [← take_span, take_of_length_le short]

theorem span_leaf (inside : pos * 2 ^ 0 < items.length) : ∃ item, span items 0 pos = [item] := by
  rw [Nat.pow_zero, Nat.mul_one] at inside
  refine ⟨items[pos], ?_⟩
  rw [span, Nat.pow_zero, Nat.mul_one, drop_eq_getElem_cons inside, take_succ_cons, take_zero]

theorem long_iff : ¬(span items (height + 1) pos).length ≤ 2 ^ height ↔ (pos * 2 + 1) * 2 ^ height < items.length := by
  have positive := Nat.two_pow_pos height
  rw [length_span, right_start, Nat.two_pow_succ]
  omega

end Longcoin.Library.Segments

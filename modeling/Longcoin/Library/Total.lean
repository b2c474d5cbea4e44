import Mathlib.Algebra.BigOperators.Finprod
import Mathlib.Algebra.Order.BigOperators.Group.Finset
import Mathlib.Tactic.Abel

/-! The total of a quantity over all keys of a map, and how it moves when one key changes. -/

namespace Longcoin.Library.Total
open Finset

variable {K M : Type} [AddCommGroup M]

noncomputable def total (amount : K → M) : M := ∑ᶠ key, amount key

theorem total_eq_sum [Fintype K] (amount : K → M) : total amount = ∑ key, amount key :=
  finsum_eq_sum_of_fintype amount

@[simp] theorem total_zero : total (fun _ : K => (0 : M)) = 0 := finsum_zero

theorem total_nonneg (amount : K → ℤ) (nonneg : ∀ key, 0 ≤ amount key) : 0 ≤ total amount :=
  finsum_nonneg nonneg

variable [Finite K]

theorem total_update [DecidableEq K] (amount : K → M) (key : K) (value : M) :
    total (Function.update amount key value) = total amount - amount key + value := by
  have := Fintype.ofFinite K
  rw [total_eq_sum, total_eq_sum, sum_update_of_mem (mem_univ key)]
  rw [← add_sum_erase univ amount (mem_univ key), sdiff_singleton_eq_erase]
  abel

theorem total_mono (amount amount' : K → ℤ) (below : ∀ key, amount key ≤ amount' key) : total amount ≤ total amount' := by
  have := Fintype.ofFinite K
  rw [total_eq_sum, total_eq_sum]
  exact sum_le_sum fun key _ => below key

end Longcoin.Library.Total

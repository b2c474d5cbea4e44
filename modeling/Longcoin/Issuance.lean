import Longcoin.CoinsValue
import Mathlib.Algebra.BigOperators.Intervals

/-! How much money the block subsidies add up to under the main-network halving interval. -/

namespace Longcoin.Issuance
open Primitives Validation ConnectBlock Finset

/-- The subsidies of the blocks up to a height, from height 1 on. -/
def issued (env : Env) : Nat → CAmount
  | 0 => 0
  | n + 1 => issued env n + getBlockSubsidy env (n + 1)

def halved (halvings : Nat) : Nat := if 64 ≤ halvings then 0 else 10000 >>> halvings

theorem getBlockSubsidy_eq (env : Env) (nHeight : Nat) :
    getBlockSubsidy env nHeight = (halved (nHeight / env.nSubsidyHalvingInterval) : Nat) := by
  unfold getBlockSubsidy halved
  dsimp only
  split_ifs <;> rfl

theorem halved_le (halvings : Nat) : halved halvings ≤ 10000 := by
  unfold halved
  split_ifs
  · omega
  · rw [Nat.shiftRight_eq_div_pow]
    exact Nat.div_le_self _ _

theorem halved_eq_zero {halvings : Nat} (late : 14 ≤ halvings) : halved halvings = 0 := by
  unfold halved
  split_ifs
  · rfl
  · rw [Nat.shiftRight_eq_div_pow]
    apply Nat.div_eq_of_lt
    calc
      10000 < 2 ^ 14 := by decide
      _ ≤ 2 ^ halvings := Nat.pow_le_pow_right (by decide) late

theorem subsidy_nonneg (env : Env) (nHeight : Nat) : 0 ≤ getBlockSubsidy env nHeight := by
  rw [getBlockSubsidy_eq]
  exact Int.natCast_nonneg _

theorem subsidy_le (env : Env) (nHeight : Nat) : getBlockSubsidy env nHeight ≤ 10000 := by
  rw [getBlockSubsidy_eq]
  exact_mod_cast halved_le _

theorem sum_schedule (reward : Nat → Nat) {interval : Nat} (positive : 0 < interval) (count : Nat) :
    ∑ height ∈ range (interval * count), reward (height / interval) = interval * ∑ k ∈ range count, reward k := by
  induction count with
  | zero => simp
  | succ count ih =>
    have last : ∑ offset ∈ range interval, reward ((interval * count + offset) / interval) = interval * reward count := by
      calc
        _ = ∑ offset ∈ range interval, reward count := by
          apply sum_congr rfl
          intro offset member
          rw [Nat.mul_add_div positive, Nat.div_eq_of_lt (mem_range.mp member), add_zero]
        _ = interval * reward count := by rw [sum_const, card_range, smul_eq_mul]
    rw [Nat.mul_succ, sum_range_add, ih, last, sum_range_succ, Nat.mul_add]

theorem issued_le_sum (env : Env) (n : Nat) :
    issued env n ≤ ((∑ height ∈ range (n + 1), halved (height / env.nSubsidyHalvingInterval) : Nat) : Int) := by
  induction n with
  | zero => exact Int.natCast_nonneg _
  | succ n ih =>
    rw [issued, getBlockSubsidy_eq, sum_range_succ, Nat.cast_add]
    exact add_le_add_left ih _

theorem issued_le_maxMoney {env : Env} (main : env.nSubsidyHalvingInterval = 210000000) (n : Nat) :
    issued env n ≤ MAX_MONEY := by
  have cut : ∑ height ∈ range (n + 1), halved (height / 210000000) ≤
      ∑ height ∈ range (210000000 * 14), halved (height / 210000000) := by
    apply sum_le_sum_of_ne_zero
    intro height _ paid
    rw [mem_range]
    by_contra late
    exact paid (halved_eq_zero ((Nat.le_div_iff_mul_le (by omega)).mpr (by omega)))
  rw [sum_schedule halved (by omega) 14] at cut
  have bound := issued_le_sum env n
  rw [main] at bound
  have value : 210000000 * ∑ k ∈ range 14, halved k = 4198950000000 := by decide
  rw [value] at cut
  calc
    issued env n ≤ _ := bound
    _ ≤ (4198950000000 : Nat) := by exact_mod_cast cut
    _ ≤ MAX_MONEY := by decide

end Longcoin.Issuance

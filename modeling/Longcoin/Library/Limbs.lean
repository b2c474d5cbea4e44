import Mathlib.Data.Nat.Digits.Lemmas
import Mathlib.Data.Nat.Bitwise

/-! Natural numbers as lists of words, the least significant word first. -/

namespace Longcoin.Library.Limbs
open List

variable {w : Nat}

def value (limbs : List (BitVec w)) : Nat := Nat.ofDigits (2 ^ w) (limbs.map BitVec.toNat)

@[simp] theorem value_nil : value ([] : List (BitVec w)) = 0 := rfl

@[simp] theorem value_cons (limb : BitVec w) (limbs : List (BitVec w)) :
    value (limb :: limbs) = limb.toNat + 2 ^ w * value limbs := by
  rw [value, map_cons, Nat.ofDigits_cons]
  rfl

theorem value_append (low high : List (BitVec w)) : value (low ++ high) = value low + 2 ^ (w * low.length) * value high := by
  rw [value, map_append, Nat.ofDigits_append, length_map, ← pow_mul]
  rfl

theorem value_lt (limbs : List (BitVec w)) : value limbs < 2 ^ (w * limbs.length) := by
  induction limbs with
  | nil => exact Nat.one_pos
  | cons limb limbs ih =>
    have small := limb.isLt
    rw [value_cons, length_cons, Nat.mul_succ, Nat.add_comm (w * limbs.length), pow_add]
    calc limb.toNat + 2 ^ w * value limbs < 2 ^ w + 2 ^ w * value limbs := Nat.add_lt_add_right small _
      _ = 2 ^ w * (value limbs + 1) := by ring
      _ ≤ 2 ^ w * 2 ^ (w * limbs.length) := Nat.mul_le_mul_left _ ih

@[simp] theorem value_replicate_zero (count : Nat) : value (replicate count (0 : BitVec w)) = 0 := by
  induction count with
  | zero => rfl
  | succ count ih =>
    rw [replicate_succ, value_cons, ih]
    simp

theorem testBit_value (positive : 0 < w) (limbs : List (BitVec w)) (place : Nat) :
    (value limbs).testBit place = (limbs.getD (place / w) 0).getLsbD (place % w) := by
  induction limbs generalizing place with
  | nil => simp
  | cons limb limbs ih =>
    rw [value_cons, Nat.add_comm, Nat.testBit_two_pow_mul_add _ limb.isLt]
    split_ifs with low
    · rw [Nat.div_eq_of_lt low, Nat.mod_eq_of_lt low]
      rfl
    · have high : w ≤ place := not_lt.mp low
      have split : place / w = (place - w) / w + 1 := by
        rw [← Nat.add_div_right _ positive, Nat.sub_add_cancel high]
      rw [ih, split, getD_cons_succ, Nat.mod_eq_sub_mod high]

theorem value_take_succ (limbs : List (BitVec w)) (count : Nat) (inside : count < limbs.length) :
    value (limbs.take (count + 1)) = value (limbs.take count) + 2 ^ (w * count) * (limbs.getD count 0).toNat := by
  rw [take_add_one, getElem?_eq_getElem inside, value_append, length_take, Nat.min_eq_left inside.le,
    getD_eq_getElem _ _ inside]
  simp

theorem value_complement (limbs : List (BitVec w)) :
    value (limbs.map fun limb => ~~~limb) + value limbs + 1 = 2 ^ (w * limbs.length) := by
  induction limbs with
  | nil => simp
  | cons limb limbs ih =>
    have flipped : (~~~limb).toNat + limb.toNat + 1 = 2 ^ w := by
      rw [BitVec.toNat_not]
      have small := limb.isLt
      omega
    rw [map_cons, value_cons, value_cons, length_cons, Nat.mul_succ, Nat.add_comm (w * limbs.length), pow_add, ← ih,
      Nat.mul_add, Nat.mul_add, Nat.mul_one]
    omega

end Longcoin.Library.Limbs

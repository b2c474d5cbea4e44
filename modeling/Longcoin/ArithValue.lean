import Longcoin.ArithUint256

/-! Every operator of `base_uint` computes what it says of the number, modulo `2 ^ BITS`. -/

namespace Longcoin.ArithUint256
open Library.Limbs List

variable {WIDTH : Nat}

theorem value_addLoop (carry : Nat) {xs ys : List (BitVec 32)} (length : xs.length = ys.length) :
    value (addLoop carry xs ys) = (carry + value xs + value ys) % 2 ^ (32 * xs.length) := by
  induction xs generalizing carry ys with
  | nil =>
    rw [eq_nil_of_length_eq_zero length.symm]
    simp [addLoop, Nat.mod_one]
  | cons x xs ih =>
    cases ys with
    | nil => cases length
    | cons y ys =>
      have whole : carry + value (x :: xs) + value (y :: ys) =
          (carry + x.toNat + y.toNat) + 2 ^ 32 * (value xs + value ys) := by
        rw [value_cons, value_cons]
        ring
      rw [addLoop, value_cons, ih _ (Nat.succ.inj length), whole, length_cons, Nat.mul_succ, Nat.add_comm (32 * xs.length),
        pow_add, Nat.mod_mul, Nat.add_mul_mod_self_left, Nat.add_mul_div_left _ _ (Nat.two_pow_pos 32), BitVec.toNat_ofNat,
        Nat.add_assoc (_ / 2 ^ 32)]

theorem value_mulLoop (b32 : BitVec 32) (carry : Nat) (xs : List (BitVec 32)) :
    value (mulLoop b32 carry xs) = (carry + b32.toNat * value xs) % 2 ^ (32 * xs.length) := by
  induction xs generalizing carry with
  | nil => simp [mulLoop, Nat.mod_one]
  | cons x xs ih =>
    have whole : carry + b32.toNat * value (x :: xs) = (carry + b32.toNat * x.toNat) + 2 ^ 32 * (b32.toNat * value xs) := by
      rw [value_cons]
      ring
    rw [mulLoop, value_cons, ih, whole, length_cons, Nat.mul_succ, Nat.add_comm (32 * xs.length), pow_add, Nat.mod_mul,
      Nat.add_mul_mod_self_left, Nat.add_mul_div_left _ _ (Nat.two_pow_pos 32), BitVec.toNat_ofNat]

theorem value_incrementLoop (xs : List (BitVec 32)) : value (incrementLoop xs) = (value xs + 1) % 2 ^ (32 * xs.length) := by
  induction xs with
  | nil => simp [incrementLoop]
  | cons x xs ih =>
    have size := value_lt xs
    have word := x.isLt
    have next : (x + 1).toNat = (x.toNat + 1) % 2 ^ 32 := by simp [BitVec.toNat_add]
    rw [length_cons, Nat.mul_succ, Nat.add_comm (32 * xs.length), pow_add, value_cons, incrementLoop]
    split_ifs with wraps
    · have full : x.toNat + 1 = 2 ^ 32 := by
        rw [wraps] at next
        have zero : (x.toNat + 1) % 2 ^ 32 = 0 := next.symm
        omega
      have whole : x.toNat + 2 ^ 32 * value xs + 1 = 2 ^ 32 * (value xs + 1) := by
        rw [Nat.mul_succ, ← full]
        ring
      rw [value_cons, ih, wraps, whole, Nat.mul_mod_mul_left]
      exact Nat.zero_add _
    · have small : x.toNat + 1 < 2 ^ 32 := by
        by_contra large
        refine wraps (BitVec.eq_of_toNat_eq ?_)
        rw [next, show x.toNat + 1 = 2 ^ 32 by omega]
        rfl
      have bounded : x.toNat + 2 ^ 32 * value xs + 1 < 2 ^ 32 * 2 ^ (32 * xs.length) := by
        calc x.toNat + 2 ^ 32 * value xs + 1 < 2 ^ 32 * (value xs + 1) := by omega
          _ ≤ 2 ^ 32 * 2 ^ (32 * xs.length) := Nat.mul_le_mul_left _ size
      rw [value_cons, next, Nat.mod_eq_of_lt small, Nat.mod_eq_of_lt bounded]
      ring

namespace BaseUint

theorem toNat_lt (a : BaseUint WIDTH) : a.toNat < 2 ^ (32 * WIDTH) := by
  have bound := value_lt a.pn
  rw [a.size] at bound
  exact bound

@[simp] theorem toNat_zero (WIDTH : Nat) : (zero WIDTH).toNat = 0 := value_replicate_zero WIDTH

theorem toNat_add (a b : BaseUint WIDTH) : (a.add b).toNat = (a.toNat + b.toNat) % 2 ^ (32 * WIDTH) := by
  have sum := value_addLoop 0 (a.size.trans b.size.symm)
  rw [a.size, Nat.zero_add] at sum
  exact sum

theorem toNat_mul32 (a : BaseUint WIDTH) (b32 : BitVec 32) :
    (a.mul32 b32).toNat = a.toNat * b32.toNat % 2 ^ (32 * WIDTH) := by
  have product := value_mulLoop b32 0 a.pn
  rw [a.size, Nat.zero_add, Nat.mul_comm] at product
  exact product

theorem toNat_complement (a : BaseUint WIDTH) : a.complement.toNat = 2 ^ (32 * WIDTH) - 1 - a.toNat := by
  have sum := value_complement a.pn
  rw [a.size] at sum
  change value (a.pn.map fun limb => ~~~limb) = 2 ^ (32 * WIDTH) - 1 - value a.pn
  omega

theorem toNat_negate (a : BaseUint WIDTH) : a.negate.toNat = (2 ^ (32 * WIDTH) - a.toNat) % 2 ^ (32 * WIDTH) := by
  have next := value_incrementLoop a.complement.pn
  rw [a.complement.size] at next
  have small := a.toNat_lt
  calc a.negate.toNat = (a.complement.toNat + 1) % 2 ^ (32 * WIDTH) := next
    _ = (2 ^ (32 * WIDTH) - a.toNat) % 2 ^ (32 * WIDTH) := by
      rw [toNat_complement]
      congr 1
      omega

theorem toNat_sub {a b : BaseUint WIDTH} (less : b.toNat ≤ a.toNat) : (a.sub b).toNat = a.toNat - b.toNat := by
  have smallA := a.toNat_lt
  have smallB := b.toNat_lt
  rw [sub, toNat_add, toNat_negate, Nat.add_mod_mod]
  calc (a.toNat + (2 ^ (32 * WIDTH) - b.toNat)) % 2 ^ (32 * WIDTH)
      = (a.toNat - b.toNat + 2 ^ (32 * WIDTH)) % 2 ^ (32 * WIDTH) := by
        congr 1
        omega
    _ = (a.toNat - b.toNat) % 2 ^ (32 * WIDTH) := Nat.add_mod_right _ _
    _ = a.toNat - b.toNat := Nat.mod_eq_of_lt (by omega)

theorem compareLoop_eq (a b : List (BitVec 32)) (count : Nat) (insideA : count ≤ a.length) (insideB : count ≤ b.length) :
    compareLoop a b count =
      if value (a.take count) < value (b.take count) then -1
      else if value (b.take count) < value (a.take count) then 1 else 0 := by
  induction count with
  | zero => simp [compareLoop]
  | succ count ih =>
    have lowA := value_lt (a.take count)
    have lowB := value_lt (b.take count)
    rw [length_take, Nat.min_eq_left (by omega)] at lowA lowB
    rw [compareLoop, ih (by omega) (by omega), value_take_succ a count (by omega), value_take_succ b count (by omega)]
    generalize value (a.take count) = x at lowA ⊢
    generalize value (b.take count) = y at lowB ⊢
    generalize (a.getD count 0).toNat = top
    generalize (b.getD count 0).toNat = top'
    -- A larger word outweighs all words below it.
    have outweighs {u v lowU lowV : Nat} (less : u < v) (bound : lowU < 2 ^ (32 * count)) :
        lowU + 2 ^ (32 * count) * u < lowV + 2 ^ (32 * count) * v := by
      calc lowU + 2 ^ (32 * count) * u < 2 ^ (32 * count) * (u + 1) := by rw [Nat.mul_succ]; omega
        _ ≤ 2 ^ (32 * count) * v := Nat.mul_le_mul_left _ less
        _ ≤ lowV + 2 ^ (32 * count) * v := Nat.le_add_left _ _
    rcases lt_trichotomy top top' with less | rfl | more
    · rw [if_pos less, if_pos (outweighs less lowA)]
    · simp only [lt_irrefl, if_false, Nat.add_lt_add_iff_right]
    · have above := @outweighs _ _ _ x more lowB
      rw [if_neg (by omega), if_pos more, if_neg (by omega), if_pos above]

theorem compareTo_eq (a b : BaseUint WIDTH) :
    a.compareTo b = if a.toNat < b.toNat then -1 else if b.toNat < a.toNat then 1 else 0 := by
  have loop := compareLoop_eq a.pn b.pn WIDTH a.size.ge b.size.ge
  rw [take_of_length_le a.size.le, take_of_length_le b.size.le] at loop
  exact loop

theorem compareTo_nonneg {a b : BaseUint WIDTH} : a.compareTo b ≥ 0 ↔ b.toNat ≤ a.toNat := by
  rw [compareTo_eq]
  split_ifs <;> omega

theorem compareTo_pos {a b : BaseUint WIDTH} : a.compareTo b > 0 ↔ b.toNat < a.toNat := by
  rw [compareTo_eq]
  split_ifs <;> omega

theorem value_eq_zero {limbs : List (BitVec 32)} : value limbs = 0 ↔ ∀ limb ∈ limbs, limb = 0 := by
  induction limbs with
  | nil => simp
  | cons limb limbs ih =>
    rw [value_cons, forall_mem_cons, ← ih]
    constructor
    · intro none
      have low : limb.toNat = 0 := by omega
      exact ⟨BitVec.eq_of_toNat_eq low, by omega⟩
    · rintro ⟨rfl, rest⟩
      rw [rest]
      rfl

theorem equalTo_zero (a : BaseUint (WIDTH + 2)) : a.equalTo 0 = true ↔ a.toNat = 0 := by
  obtain ⟨pn, size⟩ := a
  match pn, size with
  | low :: high :: rest, size =>
    rw [toNat, value_eq_zero]
    simp [equalTo, and_comm]

theorem highestBit_spec (word : BitVec 32) (bits : Nat) (nonzero : word ≠ 0) (small : word.toNat < 2 ^ (bits + 1)) :
    2 ^ highestBit word bits ≤ word.toNat ∧ word.toNat < 2 ^ (highestBit word bits + 1) := by
  induction bits with
  | zero =>
    have positive : word.toNat ≠ 0 := fun zero => nonzero (BitVec.eq_of_toNat_eq zero)
    exact ⟨Nat.one_le_iff_ne_zero.mpr positive, small⟩
  | succ bits ih =>
    rw [highestBit]
    split_ifs with isSet
    · exact ⟨Nat.ge_two_pow_of_testBit isSet, small⟩
    · refine ih (Nat.lt_pow_two_of_testBit _ fun place above => ?_)
      rcases Nat.lt_or_ge (bits + 1) place with beyond | same
      · exact Nat.testBit_lt_two_pow (small.trans_le (Nat.pow_le_pow_right (by decide) beyond))
      · rw [show place = bits + 1 by omega]
        exact Bool.eq_false_iff.mpr isSet

theorem size_eq {n k : Nat} (low : 2 ^ k ≤ n) (high : n < 2 ^ (k + 1)) : Nat.size n = k + 1 :=
  le_antisymm (Nat.size_le.mpr high) (Nat.lt_size.mpr low)

theorem bitsLoop_eq (pn : List (BitVec 32)) (count : Nat) (inside : count ≤ pn.length) :
    bitsLoop pn count = Nat.size (value (pn.take count)) := by
  induction count with
  | zero => simp [bitsLoop]
  | succ count ih =>
    have low := value_lt (pn.take count)
    rw [length_take, Nat.min_eq_left (by omega)] at low
    rw [bitsLoop, value_take_succ pn count (by omega)]
    split_ifs with found
    · obtain ⟨atLeast, below⟩ := highestBit_spec (pn.getD count 0) 31 found (pn.getD count 0).isLt
      generalize (pn.getD count 0).toNat = top at atLeast below ⊢
      generalize highestBit (pn.getD count 0) 31 = place at atLeast below ⊢
      refine (size_eq ?_ ?_).symm
      · calc 2 ^ (32 * count + place) = 2 ^ (32 * count) * 2 ^ place := pow_add ..
          _ ≤ 2 ^ (32 * count) * top := Nat.mul_le_mul_left _ atLeast
          _ ≤ value (pn.take count) + 2 ^ (32 * count) * top := Nat.le_add_left _ _
      · calc value (pn.take count) + 2 ^ (32 * count) * top < 2 ^ (32 * count) * (top + 1) := by rw [Nat.mul_succ]; omega
          _ ≤ 2 ^ (32 * count) * 2 ^ (place + 1) := Nat.mul_le_mul_left _ below
          _ = 2 ^ (32 * count + place + 1) := by rw [← pow_add, Nat.add_assoc]
    · rw [ne_eq, not_not] at found
      rw [ih (by omega), found]
      simp

theorem bits_eq (a : BaseUint WIDTH) : a.bits = Nat.size a.toNat := by
  have loop := bitsLoop_eq a.pn WIDTH a.size.ge
  rw [take_of_length_le a.size.le] at loop
  exact loop

end BaseUint

end Longcoin.ArithUint256

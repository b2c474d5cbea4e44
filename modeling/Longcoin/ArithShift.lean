import Longcoin.ArithValue

/-! The shifts of `base_uint`, bit by bit, and the long division that is built on them. -/

namespace Longcoin.ArithUint256
open Library.Limbs BaseUint List

variable {WIDTH : Nat}

theorem getD_orWord {pn : List (BitVec 32)} {i : Nat} (inside : i < pn.length) (word : BitVec 32) (j : Nat) :
    (orWord pn i word).getD j 0 = if i = j then pn.getD j 0 ||| word else pn.getD j 0 := by
  rw [orWord, getD_eq_getElem?_getD, getElem?_set]
  split_ifs with same
  · subst same
    rfl
  · rw [getD_eq_getElem?_getD]

theorem getD_shiftLeftTurn (k shift : Nat) (a : List (BitVec 32)) {pn : List (BitVec 32)} (length : pn.length = WIDTH)
    (i : Nat) {j : Nat} (inside : j < WIDTH) :
    (shiftLeftTurn WIDTH k shift a pn i).getD j 0 = pn.getD j 0 |||
      (if i + k + 1 = j ∧ shift ≠ 0 then a.getD i 0 >>> (32 - shift) else 0) |||
        (if i + k = j then a.getD i 0 <<< shift else 0) := by
  rw [shiftLeftTurn]
  by_cases upper : i + k + 1 < WIDTH ∧ shift ≠ 0
  · rw [if_pos upper, if_pos (by omega), getD_orWord (by rw [length_orWord, length]; omega),
      getD_orWord (by rw [length]; exact upper.1)]
    by_cases next : i + k + 1 = j
    · simp [next, upper.2, show ¬i + k = j by omega]
    · by_cases same : i + k = j <;> simp [next, same]
  · rw [if_neg upper]
    have none : ¬(i + k + 1 = j ∧ shift ≠ 0) := fun both => upper ⟨both.1 ▸ inside, both.2⟩
    rw [if_neg none]
    by_cases lower : i + k < WIDTH
    · rw [if_pos lower, getD_orWord (by rw [length]; exact lower)]
      split_ifs <;> simp
    · rw [if_neg lower, if_neg (by omega)]
      simp

theorem getD_shiftLeft_loop (k shift : Nat) (a : List (BitVec 32)) (count : Nat) {j : Nat} (inside : j < WIDTH) :
    ((range count).foldl (shiftLeftTurn WIDTH k shift a) (replicate WIDTH 0)).getD j 0 =
      (if k + 1 ≤ j ∧ j < count + k + 1 ∧ shift ≠ 0 then a.getD (j - k - 1) 0 >>> (32 - shift) else 0) |||
        (if k ≤ j ∧ j < count + k then a.getD (j - k) 0 <<< shift else 0) := by
  induction count with
  | zero =>
    have noUpper : ¬(k + 1 ≤ j ∧ j < 0 + k + 1 ∧ shift ≠ 0) := by omega
    have noLower : ¬(k ≤ j ∧ j < 0 + k) := by omega
    rw [if_neg noUpper, if_neg noLower, range_zero, foldl_nil, getD_replicate _ inside]
    rfl
  | succ count ih =>
    have length : ((range count).foldl (shiftLeftTurn WIDTH k shift a) (replicate WIDTH 0)).length = WIDTH := by
      rw [length_foldl_turn (length_shiftLeftTurn k shift a), length_replicate]
    rw [range_succ, foldl_append, foldl_cons, foldl_nil, getD_shiftLeftTurn k shift a length count inside, ih]
    rcases lt_trichotomy j (count + k) with below | here | above
    · simp only [show ¬count + k + 1 = j by omega, show ¬count + k = j by omega, false_and, if_false, BitVec.ofNat_eq_ofNat, BitVec.or_zero,
        show j < count + k + 1 by omega, show j < count + 1 + k + 1 by omega, show j < count + 1 + k by omega, below]
    · subst here
      simp only [show ¬count + k + 1 = count + k by omega, false_and, if_false, BitVec.ofNat_eq_ofNat, BitVec.or_zero, lt_irrefl, and_false,
        show count + k < count + k + 1 by omega, show count + k < count + 1 + k + 1 by omega, show count + k < count + 1 + k by omega,
        show k ≤ count + k by omega, and_self, if_true, true_and, Nat.add_sub_cancel]
    · by_cases next : count + k + 1 = j
      · subst next
        simp only [show ¬count + k = count + k + 1 by omega, if_false, BitVec.ofNat_eq_ofNat, BitVec.or_zero, lt_irrefl, and_false, false_and,
          show ¬count + k + 1 < count + k by omega, show count + k + 1 < count + 1 + k + 1 by omega,
          show ¬count + k + 1 < count + 1 + k by omega, show k + 1 ≤ count + k + 1 by omega, true_and,
          show count + k + 1 - k - 1 = count by omega, BitVec.ofNat_eq_ofNat, BitVec.or_zero, BitVec.zero_or]
      · simp only [next, false_and, if_false, show ¬count + k = j by omega, BitVec.ofNat_eq_ofNat, BitVec.or_zero,
          show ¬j < count + k + 1 by omega, show ¬j < count + k by omega, show ¬j < count + 1 + k + 1 by omega,
          show ¬j < count + 1 + k by omega, and_false]

theorem testBit_shiftLeft (a : BaseUint WIDTH) (shift place : Nat) :
    (a.shiftLeft shift).toNat.testBit place = (decide (place < 32 * WIDTH) && (decide (shift ≤ place) && a.toNat.testBit (place - shift))) := by
  rw [BaseUint.toNat, testBit_value (by decide), BaseUint.toNat, testBit_value (by decide)]
  by_cases inside : place < 32 * WIDTH
  · rw [shiftLeft, getD_shiftLeft_loop _ _ _ _ (by omega : place / 32 < WIDTH), BitVec.getLsbD_or]
    have split := Nat.div_add_mod shift 32
    have splitPlace := Nat.div_add_mod place 32
    have small := Nat.mod_lt shift (show 0 < 32 by decide)
    have smallPlace := Nat.mod_lt place (show 0 < 32 by decide)
    generalize shift / 32 = k at split ⊢
    generalize shift % 32 = s at split small ⊢
    generalize place / 32 = j at splitPlace ⊢
    generalize place % 32 = b at splitPlace smallPlace ⊢
    rw [decide_eq_true inside, Bool.true_and]
    by_cases reaches : shift ≤ place
    · rw [decide_eq_true reaches, Bool.true_and]
      rcases Nat.lt_or_ge b s with low | high
      · -- The bit comes out of the word below.
        have word : (place - shift) / 32 = j - k - 1 := by omega
        have bit : (place - shift) % 32 = b + 32 - s := by omega
        have upper : k + 1 ≤ j ∧ j < WIDTH + k + 1 ∧ s ≠ 0 := by omega
        rw [word, bit, if_pos upper, BitVec.getLsbD_ushiftRight, show 32 - s + b = b + 32 - s by omega]
        have empty : ((if k ≤ j ∧ j < WIDTH + k then a.pn.getD (j - k) 0 <<< s else 0) : BitVec 32).getLsbD b = false := by
          split_ifs
          · rw [BitVec.getLsbD_shiftLeft, decide_eq_true low]
            simp
          · exact BitVec.getLsbD_zero
        rw [empty, Bool.or_false]
      · have word : (place - shift) / 32 = j - k := by omega
        have bit : (place - shift) % 32 = b - s := by omega
        have lower : k ≤ j ∧ j < WIDTH + k := by omega
        rw [word, bit, if_pos lower, BitVec.getLsbD_shiftLeft, decide_eq_true smallPlace, decide_eq_false (not_lt.mpr high)]
        have empty : ((if k + 1 ≤ j ∧ j < WIDTH + k + 1 ∧ s ≠ 0 then a.pn.getD (j - k - 1) 0 >>> (32 - s) else 0) :
            BitVec 32).getLsbD b = false := by
          split_ifs with upper
          · rw [BitVec.getLsbD_ushiftRight]
            exact BitVec.getLsbD_of_ge _ _ (by omega)
          · exact BitVec.getLsbD_zero
        rw [empty]
        simp
    · rw [decide_eq_false reaches, Bool.false_and]
      have noUpper : ¬(k + 1 ≤ j ∧ j < WIDTH + k + 1 ∧ s ≠ 0) := by omega
      rw [if_neg noUpper]
      split_ifs with lower
      · rw [BitVec.getLsbD_shiftLeft, decide_eq_true (by omega : b < s)]
        simp
      · simp
  · rw [decide_eq_false inside, Bool.false_and, getD_eq_default]
    · exact BitVec.getLsbD_zero
    · rw [(a.shiftLeft shift).size]
      omega

theorem getD_shiftRightTurn (k shift : Nat) (a : List (BitVec 32)) {pn : List (BitVec 32)} (length : pn.length = WIDTH)
    {i : Nat} (turn : i < WIDTH) (j : Nat) :
    (shiftRightTurn k shift a pn i).getD j 0 = pn.getD j 0 |||
      (if i = j + k + 1 ∧ shift ≠ 0 then a.getD i 0 <<< (32 - shift) else 0) |||
        (if i = j + k then a.getD i 0 >>> shift else 0) := by
  rw [shiftRightTurn]
  by_cases upper : i ≥ k + 1 ∧ shift ≠ 0
  · rw [if_pos upper, if_pos (by omega), getD_orWord (by rw [length_orWord, length]; omega),
      getD_orWord (by rw [length]; omega)]
    by_cases next : i = j + k + 1
    · simp [next, upper.2, show ¬j + k + 1 - k = j by omega, show j + k + 1 - k - 1 = j by omega]
    · by_cases same : i = j + k
      · have apart : ¬j - 1 = j := by omega
        simp [same, apart]
      · simp [next, same, show ¬i - k - 1 = j by omega, show ¬i - k = j by omega]
  · rw [if_neg upper]
    have none : ¬(i = j + k + 1 ∧ shift ≠ 0) := fun both => upper ⟨by omega, both.2⟩
    rw [if_neg none]
    by_cases lower : i ≥ k
    · rw [if_pos lower, getD_orWord (by rw [length]; omega)]
      by_cases same : i = j + k
      · simp [same]
      · simp [same, show ¬i - k = j by omega]
    · rw [if_neg lower, if_neg (by omega)]
      simp

theorem getD_shiftRight_loop (k shift : Nat) (a : List (BitVec 32)) {count : Nat} (turns : count ≤ WIDTH) (j : Nat) :
    ((range count).foldl (shiftRightTurn k shift a) (replicate WIDTH 0)).getD j 0 =
      (if j + k + 1 < count ∧ shift ≠ 0 then a.getD (j + k + 1) 0 <<< (32 - shift) else 0) |||
        (if j + k < count then a.getD (j + k) 0 >>> shift else 0) := by
  induction count with
  | zero => simp
  | succ count ih =>
    have length : ((range count).foldl (shiftRightTurn k shift a) (replicate WIDTH 0)).length = WIDTH := by
      rw [length_foldl_turn (length_shiftRightTurn k shift a), length_replicate]
    rw [range_succ, foldl_append, foldl_cons, foldl_nil,
      getD_shiftRightTurn k shift a length (by omega) j, ih (by omega)]
    rcases lt_trichotomy (j + k) count with below | here | above
    · by_cases next : count = j + k + 1
      · subst next
        simp only [lt_irrefl, false_and, if_false, below, if_true, true_and, show ¬j + k + 1 = j + k by omega,
          show j + k + 1 < j + k + 1 + 1 by omega, show j + k < j + k + 1 + 1 by omega, BitVec.ofNat_eq_ofNat, BitVec.or_zero, BitVec.zero_or]
        exact BitVec.or_comm _ _
      · simp only [next, false_and, if_false, show ¬count = j + k by omega, BitVec.ofNat_eq_ofNat, BitVec.or_zero, below, if_true,
          show j + k + 1 < count by omega, show j + k + 1 < count + 1 by omega, show j + k < count + 1 by omega]
    · subst here
      simp only [show ¬j + k + 1 < j + k by omega, show ¬j + k + 1 < j + k + 1 by omega, show ¬j + k = j + k + 1 by omega,
        false_and, if_false, lt_irrefl, if_true, show j + k < j + k + 1 by omega, BitVec.ofNat_eq_ofNat, BitVec.or_zero, BitVec.zero_or]
    · simp only [show ¬j + k + 1 < count by omega, show ¬j + k + 1 < count + 1 by omega, show ¬count = j + k + 1 by omega,
        show ¬count = j + k by omega, show ¬j + k < count by omega, show ¬j + k < count + 1 by omega, false_and, if_false,
        BitVec.ofNat_eq_ofNat, BitVec.or_zero]

theorem testBit_shiftRight (a : BaseUint WIDTH) (shift place : Nat) :
    (a.shiftRight shift).toNat.testBit place = a.toNat.testBit (place + shift) := by
  rw [BaseUint.toNat, testBit_value (by decide), BaseUint.toNat, testBit_value (by decide), shiftRight,
    getD_shiftRight_loop _ _ _ le_rfl, BitVec.getLsbD_or]
  have beyond (j : Nat) (outside : ¬j < WIDTH) : a.pn.getD j 0 = 0 :=
    getD_eq_default _ _ (by rw [a.size]; omega)
  have split := Nat.div_add_mod shift 32
  have splitPlace := Nat.div_add_mod place 32
  have small := Nat.mod_lt shift (show 0 < 32 by decide)
  have smallPlace := Nat.mod_lt place (show 0 < 32 by decide)
  have positionWord : (place + shift) / 32 = if place % 32 + shift % 32 < 32 then place / 32 + shift / 32 else
      place / 32 + shift / 32 + 1 := by
    split_ifs <;> omega
  have positionBit : (place + shift) % 32 = if place % 32 + shift % 32 < 32 then place % 32 + shift % 32 else
      place % 32 + shift % 32 - 32 := by
    split_ifs <;> omega
  rw [positionWord, positionBit]
  generalize shift / 32 = k
  generalize shift % 32 = s at small ⊢
  generalize place / 32 = j
  generalize place % 32 = b at smallPlace ⊢
  have lower : ((if j + k < WIDTH then a.pn.getD (j + k) 0 >>> s else 0) : BitVec 32).getLsbD b =
      (a.pn.getD (j + k) 0).getLsbD (s + b) := by
    split_ifs with inside
    · exact BitVec.getLsbD_ushiftRight ..
    · rw [beyond _ inside]
      simp
  by_cases within : b + s < 32
  · have upper : ((if j + k + 1 < WIDTH ∧ s ≠ 0 then a.pn.getD (j + k + 1) 0 <<< (32 - s) else 0) : BitVec 32).getLsbD b =
        false := by
      split_ifs
      · rw [BitVec.getLsbD_shiftLeft, decide_eq_true (by omega : b < 32 - s)]
        simp
      · exact BitVec.getLsbD_zero
    rw [if_pos within, if_pos within, upper, lower, Bool.false_or, Nat.add_comm s b]
  · have upper : ((if j + k + 1 < WIDTH ∧ s ≠ 0 then a.pn.getD (j + k + 1) 0 <<< (32 - s) else 0) : BitVec 32).getLsbD b =
        (a.pn.getD (j + k + 1) 0).getLsbD (b + s - 32) := by
      split_ifs with inside
      · rw [BitVec.getLsbD_shiftLeft, decide_eq_true smallPlace, decide_eq_false (by omega : ¬b < 32 - s)]
        simp only [Bool.not_false, Bool.true_and]
        congr 1
        omega
      · rw [beyond (j + k + 1) (by omega)]
        simp
    rw [if_neg within, if_neg within, upper, lower, BitVec.getLsbD_of_ge _ (s + b) (by omega), Bool.or_false]

namespace BaseUint

theorem toNat_shiftLeft (a : BaseUint WIDTH) (shift : Nat) :
    (a.shiftLeft shift).toNat = a.toNat * 2 ^ shift % 2 ^ (32 * WIDTH) := by
  apply Nat.eq_of_testBit_eq
  intro place
  rw [testBit_shiftLeft, Nat.testBit_mod_two_pow, ← Nat.shiftLeft_eq, Nat.testBit_shiftLeft]

theorem toNat_shiftRight (a : BaseUint WIDTH) (shift : Nat) : (a.shiftRight shift).toNat = a.toNat / 2 ^ shift := by
  apply Nat.eq_of_testBit_eq
  intro place
  rw [testBit_shiftRight, Nat.testBit_div_two_pow]

theorem toNat_setBit (a : BaseUint WIDTH) {shift : Nat} (inside : shift < 32 * WIDTH) :
    (a.setBit shift).toNat = a.toNat ||| 2 ^ shift := by
  apply Nat.eq_of_testBit_eq
  intro place
  rw [Nat.testBit_or, Nat.testBit_two_pow, toNat, testBit_value (by decide), toNat, testBit_value (by decide),
    setBit, getD_orWord (by rw [a.size]; omega)]
  have single : ((1 : BitVec 32) <<< (shift % 32)).getLsbD (place % 32) = decide (place % 32 = shift % 32) := by
    have small := Nat.mod_lt shift (show 0 < 32 by decide)
    have smallPlace := Nat.mod_lt place (show 0 < 32 by decide)
    rw [BitVec.getLsbD_shiftLeft, decide_eq_true smallPlace, Bool.true_and, BitVec.ofNat_eq_ofNat, BitVec.getLsbD_one]
    by_cases same : place % 32 = shift % 32
    · simp [same]
    · simp [same]
      omega
  split_ifs with word
  · rw [BitVec.getLsbD_or, single]
    congr 1
    exact decide_eq_decide.mpr (by omega)
  · rw [decide_eq_false (by omega : ¬shift = place), Bool.or_false]

theorem or_two_pow {quotient shift : Nat} (above : 2 ^ (shift + 1) ∣ quotient) : quotient ||| 2 ^ shift = quotient + 2 ^ shift := by
  obtain ⟨high, rfl⟩ := above
  have below : 2 ^ shift < 2 ^ (shift + 1) := Nat.pow_lt_pow_right (by decide) (Nat.lt_succ_self shift)
  exact (Nat.two_pow_add_eq_or_of_lt below high).symm

/-- The invariant of the long division: `div` is the divisor shifted to the place of the next bit, the quotient has only
bits above it, and what is left is less than twice `div`. -/
theorem divLoop_spec (b : BaseUint WIDTH) (turns : Nat) (quotient num div : BaseUint WIDTH) (inside : turns ≤ 32 * WIDTH)
    (aligned : 0 < turns → div.toNat = b.toNat * 2 ^ (turns - 1)) (above : 2 ^ turns ∣ quotient.toNat)
    (left : num.toNat < b.toNat * 2 ^ turns) :
    (divLoop turns quotient num div).1.toNat * b.toNat + (divLoop turns quotient num div).2.toNat =
        quotient.toNat * b.toNat + num.toNat ∧ (divLoop turns quotient num div).2.toNat < b.toNat := by
  induction turns generalizing quotient num div with
  | zero => exact ⟨rfl, by simpa [divLoop] using left⟩
  | succ shift ih =>
    have place : div.toNat = b.toNat * 2 ^ shift := aligned (Nat.succ_pos shift)
    have next : 0 < shift → (div.shiftRight 1).toNat = b.toNat * 2 ^ (shift - 1) := by
      intro positive
      rw [toNat_shiftRight, place, pow_one]
      obtain ⟨less, rfl⟩ : ∃ less, shift = less + 1 := ⟨shift - 1, by omega⟩
      rw [Nat.add_sub_cancel, pow_succ, ← Nat.mul_assoc]
      exact Nat.mul_div_cancel _ (by decide)
    have double : b.toNat * 2 ^ (shift + 1) = b.toNat * 2 ^ shift + b.toNat * 2 ^ shift := by
      rw [pow_succ]
      ring
    rw [divLoop]
    by_cases fits : num.compareTo div ≥ 0
    · rw [if_pos fits]
      have enough := compareTo_nonneg.mp fits
      have bit : (quotient.setBit shift).toNat = quotient.toNat + 2 ^ shift := by
        rw [toNat_setBit quotient (by omega), or_two_pow above]
      have rest := toNat_sub enough
      obtain ⟨total, small⟩ := ih (quotient.setBit shift) (num.sub div) (div.shiftRight 1) (by omega) next
        (by
          rw [bit]
          exact Nat.dvd_add ((pow_dvd_pow 2 (Nat.le_succ shift)).trans above) (dvd_refl _))
        (by
          rw [rest, place]
          omega)
      refine ⟨?_, small⟩
      calc _ = (quotient.setBit shift).toNat * b.toNat + (num.sub div).toNat := total
        _ = (quotient.toNat + 2 ^ shift) * b.toNat + (num.toNat - b.toNat * 2 ^ shift) := by rw [bit, rest, place]
        _ = quotient.toNat * b.toNat + (b.toNat * 2 ^ shift + (num.toNat - b.toNat * 2 ^ shift)) := by ring
        _ = quotient.toNat * b.toNat + num.toNat := by rw [Nat.add_sub_cancel' (place ▸ enough)]
    · rw [if_neg fits]
      have less : num.toNat < b.toNat * 2 ^ shift := by
        rw [← place]
        exact not_le.mp fun enough => fits (compareTo_nonneg.mpr enough)
      exact ih quotient num (div.shiftRight 1) (by omega) next ((pow_dvd_pow 2 (Nat.le_succ shift)).trans above) less

theorem bits_eq_zero {b : BaseUint WIDTH} : b.bits = 0 ↔ b.toNat = 0 := by
  rw [bits_eq, Nat.size_eq_zero]

theorem bits_le (a : BaseUint WIDTH) : a.bits ≤ 32 * WIDTH := by
  rw [bits_eq, Nat.size_le]
  exact a.toNat_lt

theorem divide_spec {a b : BaseUint WIDTH} (nonzero : b.toNat ≠ 0) :
    ∃ quotient remainder, a.divide b = .ok (quotient, remainder) ∧ quotient.toNat = a.toNat / b.toNat ∧
      remainder.toNat = a.toNat % b.toNat := by
  have positive : 0 < b.toNat := Nat.pos_of_ne_zero nonzero
  rw [divide, if_neg (mt bits_eq_zero.mp nonzero)]
  by_cases longer : b.bits > a.bits
  · rw [if_pos longer]
    have less : a.toNat < b.toNat := by
      rw [bits_eq, bits_eq, gt_iff_lt] at longer
      exact (Nat.lt_size_self _).trans_le (Nat.lt_size.mp longer)
    exact ⟨zero WIDTH, a, rfl, by rw [toNat_zero, Nat.div_eq_of_lt less], (Nat.mod_eq_of_lt less).symm⟩
  · rw [if_neg longer]
    have order : b.bits ≤ a.bits := not_lt.mp longer
    have lengthB : b.toNat < 2 ^ b.bits := by
      rw [bits_eq]
      exact Nat.lt_size_self _
    have lengthA : a.toNat < 2 ^ a.bits := by
      rw [bits_eq]
      exact Nat.lt_size_self _
    have bitsPositive : 0 < b.bits := Nat.pos_of_ne_zero (mt bits_eq_zero.mp nonzero)
    have topB : 2 ^ (b.bits - 1) ≤ b.toNat := by
      have inside : b.bits - 1 < Nat.size b.toNat := by
        rw [← bits_eq]
        omega
      exact Nat.lt_size.mp inside
    have within := a.bits_le
    have aligned : (b.shiftLeft (a.bits - b.bits)).toNat = b.toNat * 2 ^ (a.bits - b.bits) := by
      rw [toNat_shiftLeft, Nat.mod_eq_of_lt]
      calc b.toNat * 2 ^ (a.bits - b.bits) < 2 ^ b.bits * 2 ^ (a.bits - b.bits) :=
            Nat.mul_lt_mul_of_pos_right lengthB (Nat.two_pow_pos _)
        _ = 2 ^ a.bits := by rw [← pow_add, Nat.add_sub_cancel' order]
        _ ≤ 2 ^ (32 * WIDTH) := Nat.pow_le_pow_right (by decide) within
    have start : a.toNat < b.toNat * 2 ^ (a.bits - b.bits + 1) := by
      calc a.toNat < 2 ^ a.bits := lengthA
        _ = 2 ^ (b.bits - 1) * 2 ^ (a.bits - b.bits + 1) := by
          rw [← pow_add]
          congr 1
          omega
        _ ≤ b.toNat * 2 ^ (a.bits - b.bits + 1) := Nat.mul_le_mul_right _ topB
    obtain ⟨total, small⟩ := divLoop_spec b (a.bits - b.bits + 1) (zero WIDTH) a (b.shiftLeft (a.bits - b.bits)) (by omega)
      (fun _ => aligned) (by rw [toNat_zero]; exact dvd_zero _) start
    rw [toNat_zero, Nat.zero_mul, Nat.zero_add] at total
    generalize divLoop (a.bits - b.bits + 1) (zero WIDTH) a (b.shiftLeft (a.bits - b.bits)) = result at total small ⊢
    refine ⟨result.1, result.2, rfl, ?_, ?_⟩
    · rw [← total, Nat.mul_comm, Nat.mul_add_div positive, Nat.div_eq_of_lt small, Nat.add_zero]
    · rw [← total, Nat.mul_comm, Nat.mul_add_mod, Nat.mod_eq_of_lt small]

end BaseUint

end Longcoin.ArithUint256

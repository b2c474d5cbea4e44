import Mathlib.Data.Nat.Size
import Mathlib.Tactic.Linarith
import Mathlib.Tactic.Ring

/-! Numbers kept as their leading three digits in base 256, one bit less, and the count of all digits. -/

namespace Longcoin.Library.Mantissa

/-- The value of a mantissa at an exponent, the fraction cut off. -/
def decode (exponent mantissa : Nat) : Nat := mantissa * 256 ^ exponent / 256 ^ 3

/-- The mantissa is what is left of the number at the exponent, and it has its full length. -/
structure Leading (number exponent mantissa : Nat) : Prop where
  long : 2 ^ 15 ≤ mantissa
  fits : mantissa < 2 ^ 23
  below : mantissa * 256 ^ exponent ≤ number * 256 ^ 3
  above : number * 256 ^ 3 < (mantissa + 1) * 256 ^ exponent

theorem decode_high {exponent : Nat} (high : 3 ≤ exponent) (mantissa : Nat) :
    decode exponent mantissa = mantissa * 256 ^ (exponent - 3) := by
  obtain ⟨more, rfl⟩ := Nat.exists_eq_add_of_le high
  rw [decode, Nat.add_sub_cancel_left, pow_add, Nat.mul_left_comm, Nat.mul_div_cancel_left _ (by decide)]

theorem decode_low {exponent : Nat} (low : exponent ≤ 3) (mantissa : Nat) :
    decode exponent mantissa = mantissa / 256 ^ (3 - exponent) := by
  have split : 256 ^ 3 = 256 ^ exponent * 256 ^ (3 - exponent) := by
    rw [← pow_add, Nat.add_sub_cancel' low]
  rw [decode, split, Nat.mul_comm mantissa, Nat.mul_div_mul_left _ _ (Nat.pow_pos (by decide))]

theorem Leading.unique {number exponent mantissa exponent' mantissa' : Nat} (one : Leading number exponent mantissa)
    (two : Leading number exponent' mantissa') : exponent = exponent' ∧ mantissa = mantissa' := by
  have order {e m e' m' : Nat} (first : Leading number e m) (second : Leading number e' m') : e' ≤ e := by
    by_contra later
    obtain ⟨more, rfl⟩ : ∃ more, e' = e + 1 + more := ⟨e' - (e + 1), by omega⟩
    have step : 256 ^ (e + 1) ≤ 256 ^ (e + 1 + more) := Nat.pow_le_pow_right (by decide) (Nat.le_add_right _ _)
    have longer : (m + 1) * 256 ^ e ≤ m' * 256 ^ (e + 1 + more) := by
      calc (m + 1) * 256 ^ e ≤ 2 ^ 23 * 256 ^ e := Nat.mul_le_mul_right _ first.fits
        _ = 2 ^ 15 * 256 ^ (e + 1) := by rw [pow_succ]; ring
        _ ≤ m' * 256 ^ (e + 1 + more) := Nat.mul_le_mul second.long step
    exact absurd (first.above.trans_le (longer.trans second.below)) (lt_irrefl _)
  have same : exponent = exponent' := le_antisymm (order two one) (order one two)
  subst same
  have compare {m m' : Nat} (first : Leading number exponent m) (second : Leading number exponent m') : m ≤ m' := by
    by_contra larger
    have less : (m' + 1) * 256 ^ exponent ≤ m * 256 ^ exponent := Nat.mul_le_mul_right _ (not_le.mp larger)
    exact absurd (second.above.trans_le (less.trans first.below)) (lt_irrefl _)
  exact ⟨rfl, le_antisymm (compare one two) (compare two one)⟩

def kept (number exponent : Nat) : Nat := number / 256 ^ (exponent - 3) * 256 ^ (exponent - 3)

theorem kept_le (number exponent : Nat) : kept number exponent ≤ number := Nat.div_mul_le_self ..

theorem lt_kept_add (number exponent : Nat) : number < kept number exponent + 256 ^ (exponent - 3) :=
  Nat.lt_div_mul_add (Nat.pow_pos (by decide))

theorem kept_div (number exponent : Nat) : kept number exponent / 256 ^ (exponent - 3) = number / 256 ^ (exponent - 3) :=
  Nat.mul_div_cancel _ (Nat.pow_pos (by decide))

section

variable {number exponent mantissa : Nat} (leading : Leading number exponent mantissa)
  (exact' : exponent < 3 → mantissa * 256 ^ exponent = number * 256 ^ 3)
include leading exact'

theorem Leading.decode_eq :
    decode exponent mantissa = kept number exponent ∧ decode exponent mantissa * 256 ^ 3 = mantissa * 256 ^ exponent := by
  rcases Nat.lt_or_ge exponent 3 with low | high
  · have whole : decode exponent mantissa = number := by
      rw [decode, exact' low, Nat.mul_div_cancel _ (by decide)]
    rw [kept, Nat.sub_eq_zero_of_le low.le, pow_zero, Nat.div_one, Nat.mul_one, whole]
    exact ⟨rfl, (exact' low).symm⟩
  · rw [decode_high high]
    obtain ⟨more, rfl⟩ := Nat.exists_eq_add_of_le high
    have split : 256 ^ (3 + more) = 256 ^ more * 256 ^ 3 := by rw [pow_add, Nat.mul_comm]
    have below := leading.below
    have above := leading.above
    rw [split, ← Nat.mul_assoc] at below above
    have positive : 0 < 256 ^ more := Nat.pow_pos (by decide)
    have atLeast := Nat.le_of_mul_le_mul_right below (show 0 < 256 ^ 3 by decide)
    have less := Nat.lt_of_mul_lt_mul_right above
    rw [kept, Nat.add_sub_cancel_left, split, Nat.mul_assoc]
    refine ⟨?_, rfl⟩
    congr 1
    exact ((Nat.div_eq_iff positive).mpr ⟨by omega, by rw [Nat.succ_mul] at less; omega⟩).symm

theorem Leading.kept : Leading (Mantissa.kept number exponent) exponent mantissa := by
  obtain ⟨value, whole⟩ := leading.decode_eq exact'
  rw [← value]
  refine ⟨leading.long, leading.fits, whole.ge, ?_⟩
  rw [whole, Nat.succ_mul]
  exact Nat.lt_add_of_pos_right (Nat.pow_pos (by decide))

theorem Leading.greatest {exponent' mantissa' : Nat} (fits : mantissa' < 2 ^ 23)
    (below : decode exponent' mantissa' ≤ number) : decode exponent' mantissa' ≤ Mantissa.kept number exponent := by
  obtain ⟨value, whole⟩ := leading.decode_eq exact'
  rcases Nat.lt_or_ge exponent' exponent with shorter | longer
  · -- A shorter number is below all mantissas of full length.
    rw [← value]
    refine Nat.le_of_mul_le_mul_right ?_ (show 0 < 256 ^ 3 by decide)
    obtain ⟨more, rfl⟩ : ∃ more, exponent = exponent' + 1 + more := ⟨exponent - (exponent' + 1), by omega⟩
    have step : 256 ^ (exponent' + 1) ≤ 256 ^ (exponent' + 1 + more) :=
      Nat.pow_le_pow_right (by decide) (Nat.le_add_right _ _)
    calc decode exponent' mantissa' * 256 ^ 3 ≤ mantissa' * 256 ^ exponent' := Nat.div_mul_le_self ..
      _ ≤ 2 ^ 23 * 256 ^ exponent' := Nat.mul_le_mul_right _ fits.le
      _ = 2 ^ 15 * 256 ^ (exponent' + 1) := by rw [pow_succ]; ring
      _ ≤ mantissa * 256 ^ (exponent' + 1 + more) := Nat.mul_le_mul leading.long step
      _ = decode (exponent' + 1 + more) mantissa * 256 ^ 3 := whole.symm
  · rcases Nat.lt_or_ge exponent 3 with low | high
    · rw [Mantissa.kept, Nat.sub_eq_zero_of_le low.le, pow_zero, Nat.div_one, Nat.mul_one]
      exact below
    · have multiple : 256 ^ (exponent - 3) ∣ decode exponent' mantissa' := by
        rw [decode_high (high.trans longer)]
        exact (pow_dvd_pow 256 (by omega)).mul_left _
      obtain ⟨factor, same⟩ := multiple
      rw [same] at below ⊢
      rw [Mantissa.kept, Nat.mul_comm]
      exact Nat.mul_le_mul_right _ ((Nat.le_div_iff_mul_le (Nat.pow_pos (by decide))).mpr (by rwa [Nat.mul_comm]))

end

def digits (number : Nat) : Nat := (Nat.size number + 7) / 8

theorem lt_pow_digits (number : Nat) : number < 256 ^ digits number := by
  calc number < 2 ^ Nat.size number := Nat.lt_size_self number
    _ ≤ 2 ^ (8 * digits number) := Nat.pow_le_pow_right (by decide) (by rw [digits]; omega)
    _ = 256 ^ digits number := by rw [pow_mul, show 2 ^ 8 = 256 by decide]

theorem pow_digits_le {number : Nat} (positive : 0 < number) : 256 ^ (digits number - 1) ≤ number := by
  have bits := Nat.size_pos.mpr positive
  calc 256 ^ (digits number - 1) = 2 ^ (8 * (digits number - 1)) := by rw [pow_mul, show 2 ^ 8 = 256 by decide]
    _ ≤ 2 ^ (Nat.size number - 1) := Nat.pow_le_pow_right (by decide) (by rw [digits]; omega)
    _ ≤ number := Nat.lt_size.mp (by omega)

theorem digits_pos {number : Nat} (positive : 0 < number) : 0 < digits number := by
  have bits := Nat.size_pos.mpr positive
  rw [digits]
  omega

def leadingDigits (number : Nat) : Nat :=
  if digits number ≤ 3 then number * 256 ^ (3 - digits number) else number / 256 ^ (digits number - 3)

theorem leadingDigits_low {number : Nat} (low : digits number ≤ 3) :
    leadingDigits number * 256 ^ digits number = number * 256 ^ 3 := by
  rw [leadingDigits, if_pos low, Nat.mul_assoc, ← pow_add, Nat.sub_add_cancel low]

theorem leadingDigits_bounds (number : Nat) : leadingDigits number * 256 ^ digits number ≤ number * 256 ^ 3 ∧
    number * 256 ^ 3 < (leadingDigits number + 1) * 256 ^ digits number := by
  by_cases low : digits number ≤ 3
  · rw [Nat.succ_mul, leadingDigits_low low]
    exact ⟨le_rfl, Nat.lt_add_of_pos_right (Nat.pow_pos (by decide))⟩
  · obtain ⟨more, long⟩ : ∃ more, digits number = 3 + more := ⟨digits number - 3, by omega⟩
    have split : 256 ^ (3 + more) = 256 ^ more * 256 ^ 3 := by rw [pow_add, Nat.mul_comm]
    rw [leadingDigits, if_neg low, long, Nat.add_sub_cancel_left, split, ← Nat.mul_assoc, ← Nat.mul_assoc]
    refine ⟨Nat.mul_le_mul_right _ (Nat.div_mul_le_self ..), Nat.mul_lt_mul_of_pos_right ?_ (by decide)⟩
    rw [Nat.succ_mul]
    exact Nat.lt_div_mul_add (Nat.pow_pos (by decide))

theorem leadingDigits_lt (number : Nat) : leadingDigits number < 2 ^ 24 := by
  have bounds := (leadingDigits_bounds number).1
  have size := lt_pow_digits number
  have less : leadingDigits number * 256 ^ digits number < 2 ^ 24 * 256 ^ digits number := by
    calc leadingDigits number * 256 ^ digits number ≤ number * 256 ^ 3 := bounds
      _ < 256 ^ digits number * 256 ^ 3 := Nat.mul_lt_mul_of_pos_right size (by decide)
      _ = 2 ^ 24 * 256 ^ digits number := by rw [Nat.mul_comm, show 256 ^ 3 = 2 ^ 24 by decide]
  exact Nat.lt_of_mul_lt_mul_right less

theorem le_leadingDigits {number : Nat} (positive : 0 < number) : 2 ^ 16 ≤ leadingDigits number := by
  have above := (leadingDigits_bounds number).2
  have size := pow_digits_le positive
  have digit := digits_pos positive
  obtain ⟨more, long⟩ : ∃ more, digits number = more + 1 := ⟨digits number - 1, by omega⟩
  rw [long, Nat.add_sub_cancel] at size
  rw [long] at above
  have less : 2 ^ 16 * 256 ^ (more + 1) < (leadingDigits number + 1) * 256 ^ (more + 1) := by
    calc 2 ^ 16 * 256 ^ (more + 1) = 256 ^ more * 256 ^ 3 := by rw [pow_succ]; ring
      _ ≤ number * 256 ^ 3 := Nat.mul_le_mul_right _ size
      _ < (leadingDigits number + 1) * 256 ^ (more + 1) := above
  exact Nat.lt_succ_iff.mp (Nat.lt_of_mul_lt_mul_right less)

def encode (number : Nat) : Nat × Nat :=
  if leadingDigits number < 2 ^ 23 then (digits number, leadingDigits number)
  else (digits number + 1, leadingDigits number / 256)

theorem encode_leading {number : Nat} (positive : 0 < number) : Leading number (encode number).1 (encode number).2 := by
  obtain ⟨below, above⟩ := leadingDigits_bounds number
  have long := le_leadingDigits positive
  have short := leadingDigits_lt number
  rw [encode]
  split_ifs with fits
  · exact ⟨by omega, fits, below, above⟩
  · have low := Nat.div_mul_le_self (leadingDigits number) 256
    have high : leadingDigits number + 1 ≤ (leadingDigits number / 256 + 1) * 256 := by omega
    refine ⟨by omega, by omega, ?_, ?_⟩
    · calc leadingDigits number / 256 * 256 ^ (digits number + 1) = leadingDigits number / 256 * 256 * 256 ^ digits number := by
            rw [pow_succ]
            ring
        _ ≤ leadingDigits number * 256 ^ digits number := Nat.mul_le_mul_right _ low
        _ ≤ number * 256 ^ 3 := below
    · calc number * 256 ^ 3 < (leadingDigits number + 1) * 256 ^ digits number := above
        _ ≤ (leadingDigits number / 256 + 1) * 256 * 256 ^ digits number := Nat.mul_le_mul_right _ high
        _ = (leadingDigits number / 256 + 1) * 256 ^ (digits number + 1) := by
          rw [pow_succ]
          ring

theorem encode_exact (number : Nat) (low : (encode number).1 < 3) :
    (encode number).2 * 256 ^ (encode number).1 = number * 256 ^ 3 := by
  rw [encode] at low ⊢
  split_ifs at low ⊢ with fits
  · exact leadingDigits_low low.le
  · have short : digits number ≤ 2 := by omega
    have exact' := leadingDigits_low (by omega : digits number ≤ 3)
    have multiple : 256 ∣ leadingDigits number := by
      rw [leadingDigits, if_pos (by omega)]
      exact (dvd_pow_self 256 (by omega)).mul_left _
    rw [← exact', pow_succ, Nat.mul_comm (256 ^ digits number), ← Nat.mul_assoc, Nat.div_mul_cancel multiple]

theorem encode_zero : encode 0 = (0, 0) := by
  have none : digits 0 = 0 := by simp [digits]
  have empty : leadingDigits 0 = 0 := by simp [leadingDigits, none]
  rw [encode, empty, none]
  rfl

theorem decode_encode (number : Nat) : decode (encode number).1 (encode number).2 = kept number (encode number).1 := by
  rcases Nat.eq_zero_or_pos number with rfl | positive
  · rw [encode_zero]
    rfl
  · exact ((encode_leading positive).decode_eq (encode_exact number)).1

theorem kept_pos {number : Nat} (positive : 0 < number) : 0 < kept number (encode number).1 := by
  have leading := (encode_leading positive).kept (encode_exact number)
  by_contra none
  have below := leading.below
  rw [Nat.eq_zero_of_not_pos none, Nat.zero_mul] at below
  have long := leading.long
  have pow : 0 < 256 ^ (encode number).1 := Nat.pow_pos (by decide)
  have product := Nat.mul_pos (by omega : 0 < (encode number).2) pow
  omega

theorem sub_kept_lt (number : Nat) : (number - kept number (encode number).1) * 256 ^ 2 < 256 ^ digits number := by
  have error := lt_kept_add number (encode number).1
  have size : (encode number).1 ≤ digits number + 1 := by
    rw [encode]
    split_ifs
    · exact Nat.le_succ _
    · exact le_rfl
  rcases Nat.lt_or_ge (encode number).1 3 with low | high
  · have whole : kept number (encode number).1 = number := by
      rw [kept, Nat.sub_eq_zero_of_le low.le, pow_zero, Nat.div_one, Nat.mul_one]
    rw [whole, Nat.sub_self, Nat.zero_mul]
    exact Nat.pow_pos (by decide)
  · calc (number - kept number (encode number).1) * 256 ^ 2 < 256 ^ ((encode number).1 - 3) * 256 ^ 2 :=
          Nat.mul_lt_mul_of_pos_right (Nat.sub_lt_left_of_lt_add (kept_le _ _) error) (by decide)
      _ = 256 ^ ((encode number).1 - 1) := by
        rw [← pow_add]
        congr 1
        omega
      _ ≤ 256 ^ digits number := Nat.pow_le_pow_right (by decide) (by omega)

theorem encode_kept (number : Nat) : encode (kept number (encode number).1) = encode number := by
  rcases Nat.eq_zero_or_pos number with rfl | positive
  · rw [encode_zero]
    rfl
  · have same := (encode_leading (kept_pos positive)).unique ((encode_leading positive).kept (encode_exact number))
    exact Prod.ext same.1 same.2

theorem decode_le_kept {number exponent mantissa : Nat} (fits : mantissa < 2 ^ 23) (below : decode exponent mantissa ≤ number) :
    decode exponent mantissa ≤ kept number (encode number).1 := by
  rcases Nat.eq_zero_or_pos number with rfl | positive
  · exact below.trans (Nat.zero_le _)
  · exact (encode_leading positive).greatest (encode_exact number) fits below

end Longcoin.Library.Mantissa

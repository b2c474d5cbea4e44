import Longcoin.Primitives
import Mathlib.Tactic.Ring

/-! `CFeeRate` (`amount.h`, `amount.cpp`): fees of sizes and rates of fees. -/

namespace Longcoin.FeeRate

/-- The `uint64_t` that an amount is converted to next to a `size_t`. -/
def toUInt64 (value : Int) : Nat := (value % 2 ^ 64).toNat

def toCAmount (value : Nat) : Int := if value < 2 ^ 63 then value else (value : Int) - 2 ^ 64

/-- A rate in base units for 1000 bytes. The constructors make it positive. -/
structure CFeeRate where
  nSatoshisPerK : Int
  positive : 1 ≤ nSatoshisPerK
deriving DecidableEq, Repr

/-- `CFeeRate(nSatoshisPerK)`, which `CFeeRate()` is for 1. -/
def CFeeRate.ofPerK (perK : Int) : CFeeRate :=
  if positive : 1 ≤ perK then ⟨perK, positive⟩ else ⟨1, Int.le_refl 1⟩

/-- `CFeeRate(nFeePaid, nSize)`. A size up to 1000 counts for nothing. -/
def CFeeRate.ofFee (nFeePaid : Int) (nSize : Nat) : CFeeRate :=
  CFeeRate.ofPerK (if nSize > 1000 then toCAmount (toUInt64 (nFeePaid * 1000) / nSize) else 0)

namespace CFeeRate

/-- `GetFee`. -/
def getFee (rate : CFeeRate) (nSize : Nat) : Int :=
  toCAmount (toUInt64 rate.nSatoshisPerK * nSize % 2 ^ 64 / 1001 + 1)

def getFeePerK (rate : CFeeRate) : Int := rate.getFee 1000

/-- `operator+=`. -/
def add (rate other : CFeeRate) : CFeeRate :=
  ⟨rate.nSatoshisPerK + other.nSatoshisPerK, by have := rate.positive; have := other.positive; omega⟩

end CFeeRate

/-- `DEFAULT_MIN_RELAY_TX_FEE`. -/
def DEFAULT_MIN_RELAY_TX_FEE : Int := 1

theorem toUInt64_of_fits {value : Int} (positive : 0 ≤ value) (fits : value < 2 ^ 64) : (toUInt64 value : Int) = value := by
  rw [toUInt64, Int.emod_eq_of_lt positive fits, Int.toNat_of_nonneg positive]

theorem toCAmount_of_fits {value : Nat} (fits : value < 2 ^ 63) : toCAmount value = value := if_pos fits

open CFeeRate

theorem CFeeRate.ofPerK_value (perK : Int) : (ofPerK perK).nSatoshisPerK = max perK 1 := by
  rw [ofPerK]
  split
  · next positive => exact (max_eq_left positive).symm
  · next other => exact (max_eq_right (show perK ≤ 1 by omega)).symm

theorem CFeeRate.getFee_value {rate : CFeeRate} {nSize : Nat} (fits : rate.nSatoshisPerK * nSize < 2 ^ 64) :
    rate.getFee nSize = rate.nSatoshisPerK * nSize / 1001 + 1 := by
  have positive := rate.positive
  cases nSize with
  | zero =>
    rw [getFee, Nat.mul_zero, Nat.cast_zero, Int.mul_zero]
    rfl
  | succ less =>
    have small : rate.nSatoshisPerK < 2 ^ 64 := by
      have one : rate.nSatoshisPerK * 1 ≤ rate.nSatoshisPerK * ((less + 1 : Nat) : Int) :=
        Int.mul_le_mul_of_nonneg_left (by omega) (by omega)
      omega
    have value := toUInt64_of_fits (by omega) small
    have product : toUInt64 rate.nSatoshisPerK * (less + 1) < 2 ^ 64 := by
      rw [← value] at fits
      exact_mod_cast fits
    rw [getFee, Nat.mod_eq_of_lt product, toCAmount_of_fits (by omega)]
    push_cast at value ⊢
    rw [value]

theorem CFeeRate.getFee_positive (rate : CFeeRate) (nSize : Nat) : 1 ≤ rate.getFee nSize := by
  have below : toUInt64 rate.nSatoshisPerK * nSize % 2 ^ 64 < 2 ^ 64 := Nat.mod_lt _ (by decide)
  rw [getFee, toCAmount_of_fits (by omega)]
  omega

theorem CFeeRate.ofFee_value {nFeePaid : Int} {nSize : Nat} (large : 1000 < nSize) (positive : 0 ≤ nFeePaid)
    (fits : nFeePaid * 1000 < 2 ^ 64) : (ofFee nFeePaid nSize).nSatoshisPerK = max (nFeePaid * 1000 / nSize) 1 := by
  have value := toUInt64_of_fits (by omega) fits
  have below : toUInt64 (nFeePaid * 1000) / nSize < 2 ^ 63 := by
    have bound : toUInt64 (nFeePaid * 1000) < 2 ^ 64 := by omega
    refine (Nat.div_lt_iff_lt_mul (by omega)).mpr ?_
    calc toUInt64 (nFeePaid * 1000) < 2 ^ 64 := bound
      _ ≤ 2 ^ 63 * nSize := by omega
  rw [ofFee, if_pos large, ofPerK_value, toCAmount_of_fits below, Int.natCast_ediv, value]

theorem CFeeRate.ofFee_le {nFeePaid : Int} {nSize : Nat} (large : 1000 < nSize) (positive : 0 ≤ nFeePaid) :
    (ofFee nFeePaid nSize).nSatoshisPerK ≤ max (nFeePaid * 1000 / nSize) 1 := by
  have least : (toUInt64 (nFeePaid * 1000) : Int) ≤ nFeePaid * 1000 := by
    rw [toUInt64]
    omega
  have below : toUInt64 (nFeePaid * 1000) / nSize < 2 ^ 63 := by
    have bound : toUInt64 (nFeePaid * 1000) < 2 ^ 64 := by
      rw [toUInt64]
      omega
    refine (Nat.div_lt_iff_lt_mul (by omega)).mpr ?_
    calc toUInt64 (nFeePaid * 1000) < 2 ^ 64 := bound
      _ ≤ 2 ^ 63 * nSize := by omega
  rw [ofFee, if_pos large, ofPerK_value, toCAmount_of_fits below, Int.natCast_ediv]
  exact max_le_max_right 1 (Int.ediv_le_ediv (by omega) least)

theorem CFeeRate.ofFee_small {nFeePaid : Int} {nSize : Nat} (small : nSize ≤ 1000) :
    (ofFee nFeePaid nSize).nSatoshisPerK = 1 := by
  rw [ofFee, if_neg (by omega), ofPerK_value]
  rfl

theorem CFeeRate.lower_of_ofFee_lt {old new : Int} {oldSize newSize : Nat} (positive : 1 ≤ new) (large : 1000 < oldSize)
    (fits : old * 1000 < 2 ^ 64) (lower : (ofFee old oldSize).nSatoshisPerK < (ofFee new newSize).nSatoshisPerK) :
    old * newSize < new * oldSize := by
  have least := (ofFee old oldSize).positive
  have largeToo : 1000 < newSize := by
    by_contra small
    have one : (ofFee new newSize).nSatoshisPerK = 1 := ofFee_small (by omega)
    omega
  by_cases negative : old < 0
  · have below : old * newSize ≤ 0 := Int.mul_nonpos_of_nonpos_of_nonneg (by omega) (by omega)
    have above : 0 < new * oldSize := Int.mul_pos (by omega) (by omega)
    omega
  · have most := ofFee_le largeToo (show 0 ≤ new by omega)
    rw [ofFee_value large (by omega) fits] at least lower
    have quotients : old * 1000 / oldSize < new * 1000 / newSize := by omega
    -- the quotients differ by one at least, and so the products are in order
    have oldBound : old * 1000 < (old * 1000 / oldSize + 1) * oldSize := Int.lt_ediv_add_one_mul_self _ (by omega)
    have newBound : new * 1000 / newSize * newSize ≤ new * 1000 := Int.ediv_mul_le _ (by omega)
    have scaled : old * newSize * 1000 < new * oldSize * 1000 := by
      calc old * newSize * 1000 = old * 1000 * newSize := by ring
        _ < (old * 1000 / oldSize + 1) * oldSize * newSize := Int.mul_lt_mul_of_pos_right oldBound (by omega)
        _ ≤ new * 1000 / newSize * oldSize * newSize := by
            refine Int.mul_le_mul_of_nonneg_right (Int.mul_le_mul_of_nonneg_right (by omega) (by omega)) (by omega)
        _ = new * 1000 / newSize * newSize * oldSize := by ring
        _ ≤ new * 1000 * oldSize := Int.mul_le_mul_of_nonneg_right newBound (by omega)
        _ = new * oldSize * 1000 := by ring
    omega

/-- One base unit for each started 1000 bytes, and one for nothing. -/
def startedThousands (nSize : Nat) : Int := if nSize ≤ 1000 then 1 else ((nSize + 999) / 1000 : Nat)

/-- What a fee should be next to the rate it is made from: it grows with the size and with the rate, 1000 bytes cost
the rate, paying it gives at least the rate back, and the default rate is one unit for each started 1000 bytes. -/
structure Consistent (rate larger : CFeeRate) (s t : Nat) : Prop where
  growsWithSize : s ≤ t → rate.getFee s ≤ rate.getFee t
  growsWithRate : rate.nSatoshisPerK ≤ larger.nSatoshisPerK → rate.getFee s ≤ larger.getFee s
  perK : rate.getFeePerK = rate.nSatoshisPerK
  paid : rate.nSatoshisPerK ≤ (CFeeRate.ofFee (rate.getFee s) s).nSatoshisPerK
  default : (CFeeRate.ofPerK DEFAULT_MIN_RELAY_TX_FEE).getFee s = startedThousands s

structure Fits (rate larger : CFeeRate) (s t : Nat) : Prop where
  size : s < 2 ^ 31
  other : t < 2 ^ 31
  fee : rate.nSatoshisPerK * s < 2 ^ 63
  otherFee : rate.nSatoshisPerK * t < 2 ^ 63
  largerFee : larger.nSatoshisPerK * s < 2 ^ 63
  perK : rate.nSatoshisPerK * 1000 < 2 ^ 63
  paid : rate.getFee s * 1000 < 2 ^ 63

/-- The quotient of a product by 1001 and the remainder together stay within 1000. -/
def Rounds (product : Int) : Prop := product / 1001 + product % 1001 ≤ 1000

theorem perK_iff {rate : CFeeRate} (fits : rate.nSatoshisPerK * 1000 < 2 ^ 63) :
    rate.getFeePerK = rate.nSatoshisPerK ↔ rate.nSatoshisPerK ≤ 1001 := by
  have positive := rate.positive
  rw [getFeePerK, getFee_value (by push_cast; omega)]
  push_cast
  omega

theorem paid_iff {rate : CFeeRate} {s : Nat} (fits : rate.nSatoshisPerK * s < 2 ^ 63) (paid : rate.getFee s * 1000 < 2 ^ 63) :
    rate.nSatoshisPerK ≤ (ofFee (rate.getFee s) s).nSatoshisPerK ↔
      rate.nSatoshisPerK = 1 ∨ 1000 < s ∧ Rounds (rate.nSatoshisPerK * s) := by
  have positive := rate.positive
  have feePositive := rate.getFee_positive s
  by_cases large : 1000 < s
  · have value := getFee_value (show rate.nSatoshisPerK * s < 2 ^ 64 by omega)
    rw [ofFee_value large (by omega) (by omega), Rounds]
    have exact : rate.nSatoshisPerK ≤ rate.getFee s * 1000 / s ↔ rate.nSatoshisPerK * s ≤ rate.getFee s * 1000 :=
      Int.le_ediv_iff_mul_le (by omega)
    have rounded : rate.nSatoshisPerK * s ≤ rate.getFee s * 1000 ↔
        rate.nSatoshisPerK * s / 1001 + rate.nSatoshisPerK * s % 1001 ≤ 1000 := by
      rw [value]
      omega
    rw [le_max_iff, exact, rounded]
    constructor
    · rintro (enough | one)
      · exact .inr ⟨large, enough⟩
      · exact .inl (by omega)
    · rintro (one | ⟨-, enough⟩)
      · exact .inr (by omega)
      · exact .inl enough
  · rw [ofFee_small (by omega)]
    constructor
    · intro least
      exact .inl (by omega)
    · rintro (one | ⟨above, -⟩)
      · omega
      · exact absurd above large

theorem default_iff {s : Nat} (size : s < 2 ^ 31) :
    (ofPerK DEFAULT_MIN_RELAY_TX_FEE).getFee s = startedThousands s ↔ Rounds s := by
  have one : (ofPerK DEFAULT_MIN_RELAY_TX_FEE).nSatoshisPerK = 1 := rfl
  rw [getFee_value (by rw [one]; omega), one, startedThousands, Rounds]
  split <;> push_cast <;> omega

/-- Fees grow with the size and the rate for every rate; the rest holds just for rates up to 1001, for the rate 1 or
sizes above 1000 whose product with the rate rounds within a thousand, and for sizes that round so themselves. -/
theorem consistent_iff {rate larger : CFeeRate} {s t : Nat} (fits : Fits rate larger s t) :
    Consistent rate larger s t ↔ rate.nSatoshisPerK ≤ 1001 ∧
      (rate.nSatoshisPerK = 1 ∨ 1000 < s ∧ Rounds (rate.nSatoshisPerK * s)) ∧ Rounds s := by
  have positive := rate.positive
  have grows : s ≤ t → rate.getFee s ≤ rate.getFee t := by
    intro below
    have product : rate.nSatoshisPerK * s ≤ rate.nSatoshisPerK * t := Int.mul_le_mul_of_nonneg_left (by omega) (by omega)
    have bound := fits.otherFee
    rw [getFee_value (by omega), getFee_value (by omega)]
    omega
  have growsToo : rate.nSatoshisPerK ≤ larger.nSatoshisPerK → rate.getFee s ≤ larger.getFee s := by
    intro below
    have product : rate.nSatoshisPerK * s ≤ larger.nSatoshisPerK * s := Int.mul_le_mul_of_nonneg_right below (by omega)
    have bound := fits.largerFee
    rw [getFee_value (by omega), getFee_value (by omega)]
    omega
  rw [← perK_iff fits.perK, ← paid_iff fits.fee fits.paid, ← default_iff fits.size]
  exact ⟨fun all => ⟨all.perK, all.paid, all.default⟩, fun ⟨perK, paid, default⟩ => ⟨grows, growsToo, perK, paid, default⟩⟩

theorem consistent_iff_sample : Consistent ⟨1, by decide⟩ ⟨2, by decide⟩ 1500 2500 :=
  (consistent_iff ⟨by decide, by decide, by decide, by decide, by decide, by decide, by decide⟩).mpr
    ⟨by decide, .inl rfl, by unfold Rounds; decide⟩

/-- At 2 units for 1000 bytes a fee for 500 bytes is no rate of 2, and at the default rate 2001 bytes cost no 3 units. -/
theorem inconsistent : ¬ (2 : Int) ≤ (ofFee ((ofPerK 2).getFee 500) 500).nSatoshisPerK ∧
    (ofPerK DEFAULT_MIN_RELAY_TX_FEE).getFee 2001 = 2 ∧ startedThousands 2001 = 3 ∧ (ofPerK 1002).getFeePerK = 1001 ∧
    ¬ ∀ (rate larger : CFeeRate) (s t : Nat), Fits rate larger s t → Consistent rate larger s t := by
  refine ⟨by decide, by decide, by decide, by decide, fun every => ?_⟩
  have fits : Fits ⟨1, by decide⟩ ⟨1, by decide⟩ 2001 2001 :=
    ⟨by decide, by decide, by decide, by decide, by decide, by decide, by decide⟩
  exact absurd (every _ _ _ _ fits).default (by decide)

end Longcoin.FeeRate

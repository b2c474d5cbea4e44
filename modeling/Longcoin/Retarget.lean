import Longcoin.Pow

/-! The bounds of a retarget on the main network (`CalculateNextWorkRequired`). -/

namespace Longcoin.Pow
open Library ArithUint256 BaseUint

theorem toNat_powLimit : powLimit.toNat = 2 ^ 231 - 1 := by decide +kernel

theorem timespan_eras (block : Int) : mainParams.powTargetTimespan block = 86400 ∨ mainParams.powTargetTimespan block = 3600 := by
  rw [Params.powTargetTimespan]
  split_ifs
  · exact .inr rfl
  · exact .inr rfl
  · exact .inl rfl
  · exact .inr rfl

def clampedTimespan (timespan elapsed : Int) : Int := min (timespan * 4) (max (timespan / 4) elapsed)

theorem clampedTimespan_bounds {timespan : Int} (positive : 0 ≤ timespan) (elapsed : Int) :
    timespan / 4 ≤ clampedTimespan timespan elapsed ∧ clampedTimespan timespan elapsed ≤ timespan * 4 := by
  rw [clampedTimespan]
  omega

theorem actualTimespan_eq {params : Params} {pindexLast : CBlockIndex} (nFirstBlockTime : Int)
    (positive : 0 ≤ params.powTargetTimespan pindexLast.nHeight) : actualTimespan params pindexLast nFirstBlockTime =
      clampedTimespan (params.powTargetTimespan pindexLast.nHeight) (pindexLast.getBlockTime - nFirstBlockTime) := by
  have quarter := Int.tdiv_eq_ediv_of_nonneg (b := 4) positive
  simp only [actualTimespan, clampedTimespan, quarter]
  split_ifs <;> omega

def exactTarget (params : Params) (pindexLast : CBlockIndex) (nFirstBlockTime : Int) : Nat :=
  min params.powLimit.toNat ((setCompact pindexLast.nBits).target.toNat *
    (clampedTimespan (params.powTargetTimespan pindexLast.nHeight) (pindexLast.getBlockTime - nFirstBlockTime)).toNat /
      (params.powTargetTimespan pindexLast.nHeight).toNat)

/-- What holds of a retarget: nothing overflows, and the new target is the exact one up to its lowest bytes. -/
structure Retargets (params : Params) (pindexLast : CBlockIndex) (nFirstBlockTime : Int) (nBits : BitVec 32) : Prop where
  fits : (setCompact pindexLast.nBits).target.toNat * (actualTimespan params pindexLast nFirstBlockTime).toNat ≤ 2 ^ 256 - 1
  computed : calculateNextWorkRequired params pindexLast nFirstBlockTime = .ok nBits
  notNegative : (setCompact nBits).fNegative = false
  notOverflow : (setCompact nBits).fOverflow = false
  limited : (setCompact nBits).target.toNat ≤ params.powLimit.toNat
  quadruple : (setCompact nBits).target.toNat ≤ 4 * (setCompact pindexLast.nBits).target.toNat
  below : (setCompact nBits).target.toNat ≤ exactTarget params pindexLast nFirstBlockTime
  close : (exactTarget params pindexLast nFirstBlockTime - (setCompact nBits).target.toNat) * 256 ^ 2 <
    256 ^ Mantissa.digits (exactTarget params pindexLast nFirstBlockTime)
  dropped : ∃ bytes, (setCompact nBits).target.toNat =
    exactTarget params pindexLast nFirstBlockTime / 256 ^ bytes * 256 ^ bytes

theorem toNat_product {pindexLast : CBlockIndex} {factor : Int} (positive : 0 ≤ factor) (small : factor ≤ 86400 * 4)
    (below : (setCompact pindexLast.nBits).target.toNat ≤ powLimit.toNat) :
    (setCompact pindexLast.nBits).target.toNat * factor.toNat < 2 ^ 256 ∧
      ((setCompact pindexLast.nBits).target.mul32 (BitVec.ofInt 32 factor)).toNat =
        (setCompact pindexLast.nBits).target.toNat * factor.toNat := by
  have cut : (BitVec.ofInt 32 factor).toNat = factor.toNat := by
    rw [BitVec.toNat_ofInt, Int.emod_eq_of_lt positive (by omega)]
  have product : (setCompact pindexLast.nBits).target.toNat * factor.toNat < 2 ^ 256 :=
    calc (setCompact pindexLast.nBits).target.toNat * factor.toNat ≤ (2 ^ 231 - 1) * (86400 * 4) :=
          Nat.mul_le_mul (toNat_powLimit ▸ below) (by omega)
      _ < 2 ^ 256 := by decide
  refine ⟨product, ?_⟩
  rw [toNat_mul32, cut, Nat.mod_eq_of_lt product]

theorem quotient_le {target factor timespan : Nat} (small : factor ≤ timespan * 4) :
    target * factor / timespan ≤ 4 * target := by
  have product : target * factor ≤ timespan * (4 * target) :=
    calc target * factor ≤ target * (timespan * 4) := Nat.mul_le_mul_left _ small
      _ = timespan * (4 * target) := by ring
  exact Nat.div_le_of_le_mul product

theorem toNat_limited (limit number : ArithUint) :
    (if number.compareTo limit > 0 then limit else number).toNat = min limit.toNat number.toNat := by
  have order := compareTo_pos (a := number) (b := limit)
  split_ifs with above
  · exact (min_eq_left (order.mp above).le).symm
  · exact (min_eq_right (not_lt.mp fun greater => above (order.mpr greater))).symm

/-- A retarget on the main network is free of overflow and bounded in every era. -/
theorem retarget_bounded (pindexLast pindexFirst : CBlockIndex)
    (below : (setCompact pindexLast.nBits).target.toNat ≤ mainParams.powLimit.toNat) :
    ∃ nBits, Retargets mainParams pindexLast pindexFirst.getBlockTime nBits := by
  obtain ⟨timespan, era⟩ : ∃ timespan, mainParams.powTargetTimespan pindexLast.nHeight = timespan := ⟨_, rfl⟩
  have eras := timespan_eras pindexLast.nHeight
  rw [era] at eras
  have clamped := @actualTimespan_eq mainParams pindexLast pindexFirst.getBlockTime (by omega)
  rw [era] at clamped
  have bounds := clampedTimespan_bounds (by omega : 0 ≤ timespan) (pindexLast.getBlockTime - pindexFirst.getBlockTime)
  rw [← clamped] at bounds
  obtain ⟨fits, product⟩ := @toNat_product pindexLast
    (actualTimespan mainParams pindexLast pindexFirst.getBlockTime) (by omega) (by omega) below
  have divisor : (ofUint64 8 (BitVec.ofInt 64 timespan)).toNat = timespan.toNat := by
    rw [toNat_ofUint64, BitVec.toNat_ofInt, Int.emod_eq_of_lt (by omega) (by omega)]
  obtain ⟨quotient, remainder, divides, value, -⟩ := divide_spec (b := .ofUint64 8 (BitVec.ofInt 64 timespan))
    (a := (setCompact pindexLast.nBits).target.mul32
      (BitVec.ofInt 32 (actualTimespan mainParams pindexLast pindexFirst.getBlockTime))) (by rw [divisor]; omega)
  rw [product, divisor] at value
  have exact : (if quotient.compareTo mainParams.powLimit > 0 then mainParams.powLimit else quotient).toNat =
      exactTarget mainParams pindexLast pindexFirst.getBlockTime := by
    rw [toNat_limited, value, exactTarget, era, clamped]
  have kept := toNat_compacted (if quotient.compareTo mainParams.powLimit > 0 then mainParams.powLimit else quotient)
  have flags := getCompact_flags (if quotient.compareTo mainParams.powLimit > 0 then mainParams.powLimit else quotient)
  rw [exact] at kept
  have less := Mantissa.kept_le (exactTarget mainParams pindexLast pindexFirst.getBlockTime)
    (Mantissa.encode (exactTarget mainParams pindexLast pindexFirst.getBlockTime)).1
  have lost := Mantissa.sub_kept_lt (exactTarget mainParams pindexLast pindexFirst.getBlockTime)
  rw [← kept] at less lost
  refine ⟨_, {
    fits := Nat.le_pred_of_lt fits
    computed := ?_
    notNegative := flags.1
    notOverflow := flags.2
    limited := less.trans (min_le_left _ _)
    quadruple := ?_
    below := less
    close := lost
    dropped := ⟨_, kept⟩ }⟩
  · have retargets : mainParams.fPowNoRetargeting = false := rfl
    rw [calculateNextWorkRequired, retargets, if_neg Bool.false_ne_true, era]
    dsimp only
    rw [divides]
    rfl
  · refine less.trans ((min_le_right _ _).trans ?_)
    rw [era]
    exact quotient_le (by omega)

theorem retarget_bounded_genesis : ∃ nBits, Retargets mainParams ⟨719, 87000, limitBits⟩ 0 nBits :=
  retarget_bounded ⟨719, 87000, limitBits⟩ ⟨0, 0, limitBits⟩ (by rw [limitBits_target]; decide +kernel)

end Longcoin.Pow

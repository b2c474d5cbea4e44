import Longcoin.FeeRate
import Mathlib.Algebra.Order.Archimedean.Basic

/-! The rolling minimum fee of the pool (`txmempool.cpp`): an eviction raises it, and without a block it stays raised. -/

namespace Longcoin.MempoolMinFee
open FeeRate CFeeRate List

/-- The `double` operations of the rolling fee: the conversion of an integer, and a rate divided by two to the power of a
time in halflives. Every `double` is rational. -/
structure Doubles where
  ofInt : Int → ℚ
  decay : ℚ → Int → Int → ℚ
  ofInt_pos : ∀ value, 0 < value → 0 < ofInt value
  vanishes : ∀ rate halflife, 0 < rate → 0 < halflife → ∃ elapsed, 10 < elapsed ∧ 0 ≤ decay rate elapsed halflife ∧
    decay rate elapsed halflife < 1

/-- The integer that a `double` is converted to: the fraction is cut off. -/
def truncate (value : ℚ) : Int := if 0 ≤ value then ⌊value⌋ else ⌈value⌉

structure RollingFee where
  rollingMinimumFeeRate : ℚ
  lastRollingFeeUpdate : Int
  blockSinceLastRollingFeeBump : Bool

def ROLLING_FEE_HALFLIFE : Int := 60 * 60 * 12

def halflife (usage sizelimit : Nat) : Int :=
  if usage < sizelimit / 4 then ROLLING_FEE_HALFLIFE / 4
  else if usage < sizelimit / 2 then ROLLING_FEE_HALFLIFE / 2
  else ROLLING_FEE_HALFLIFE

def maxRate (rate other : CFeeRate) : CFeeRate := if rate.nSatoshisPerK < other.nSatoshisPerK then other else rate

def getMinFee (doubles : Doubles) (minReasonableRelayFee : CFeeRate) (s : RollingFee) (time : Int) (usage sizelimit : Nat) :
    RollingFee × CFeeRate :=
  if !s.blockSinceLastRollingFeeBump || s.rollingMinimumFeeRate == 0 then
    (s, .ofPerK (truncate s.rollingMinimumFeeRate))
  else if time > s.lastRollingFeeUpdate + 10 then
    let rate := doubles.decay s.rollingMinimumFeeRate (time - s.lastRollingFeeUpdate) (halflife usage sizelimit)
    if rate < (minReasonableRelayFee.getFeePerK / 2 : Int) then
      ({ s with rollingMinimumFeeRate := 0, lastRollingFeeUpdate := time }, .ofPerK 0)
    else
      ({ s with rollingMinimumFeeRate := rate, lastRollingFeeUpdate := time }, maxRate (.ofPerK (truncate rate)) minReasonableRelayFee)
  else (s, maxRate (.ofPerK (truncate s.rollingMinimumFeeRate)) minReasonableRelayFee)

/-- `trackPackageRemoved` -/
def trackPackageRemoved (doubles : Doubles) (s : RollingFee) (rate : CFeeRate) : RollingFee :=
  if doubles.ofInt rate.getFeePerK > s.rollingMinimumFeeRate then
    { s with rollingMinimumFeeRate := doubles.ofInt rate.getFeePerK, blockSinceLastRollingFeeBump := false }
  else s

/-- The rate that `TrimToSize` tracks for a package. -/
def removedRate (minReasonableRelayFee : CFeeRate) (nModFeesWithDescendants : Int) (nSizeWithDescendants : Nat) : CFeeRate :=
  (CFeeRate.ofFee nModFeesWithDescendants nSizeWithDescendants).add minReasonableRelayFee

inductive FeeEvent where
  | evict (nModFeesWithDescendants : Int) (nSizeWithDescendants : Nat)
  | getMinFee (time : Int) (usage sizelimit : Nat)
  | removeForBlock (time : Int)
  | clear (time : Int)

def RollingFee.next (doubles : Doubles) (minReasonableRelayFee : CFeeRate) (s : RollingFee) : FeeEvent → RollingFee
  | .evict fees size => trackPackageRemoved doubles s (removedRate minReasonableRelayFee fees size)
  | .getMinFee time usage sizelimit => (getMinFee doubles minReasonableRelayFee s time usage sizelimit).1
  | .removeForBlock time => { s with lastRollingFeeUpdate := time, blockSinceLastRollingFeeBump := true }
  | .clear time => ⟨0, time, false⟩

def FeeEvent.Quiet : FeeEvent → Prop
  | .evict _ _ | .getMinFee _ _ _ => True
  | .removeForBlock _ | .clear _ => False

/-- The test of `AcceptToMemoryPool` that refuses a fee. -/
def Refuses (rate : CFeeRate) (nModifiedFees : Int) (nSize : Nat) : Prop :=
  rate.getFee nSize > 0 ∧ nModifiedFees < rate.getFee nSize

/-- After the eviction of a package, whatever is evicted and asked before the next block, a transaction that pays no more for
a byte than the package did is refused, at every size whose fee stays within 64 bits. -/
def RaisesBar (doubles : Doubles) (minReasonableRelayFee : CFeeRate) (s : RollingFee) (fees : Int) (size : Nat) : Prop :=
  ∀ (events : List FeeEvent) (t : RollingFee), (∀ event ∈ events, event.Quiet) →
    t = events.foldl (RollingFee.next doubles minReasonableRelayFee) (s.next doubles minReasonableRelayFee (.evict fees size)) →
    ∀ (time : Int) (usage sizelimit : Nat) (rate : CFeeRate) (nModifiedFees : Int) (nSize : Nat),
      rate = (getMinFee doubles minReasonableRelayFee t time usage sizelimit).2 → rate.nSatoshisPerK * nSize < 2 ^ 64 →
      nModifiedFees * size ≤ fees * nSize → Refuses rate nModifiedFees nSize

/-- The eviction raises the rolling fee, or no block has come since it was raised last. -/
def Bumps (doubles : Doubles) (minReasonableRelayFee : CFeeRate) (s : RollingFee) (fees : Int) (size : Nat) : Prop :=
  s.rollingMinimumFeeRate < doubles.ofInt (removedRate minReasonableRelayFee fees size).getFeePerK ∨
    s.blockSinceLastRollingFeeBump = false

def bar (doubles : Doubles) (minReasonableRelayFee : CFeeRate) (s : RollingFee) (fees : Int) (size : Nat) : Int :=
  max (truncate (max (doubles.ofInt (removedRate minReasonableRelayFee fees size).getFeePerK) s.rollingMinimumFeeRate)) 1

theorem truncate_mono {value other : ℚ} (below : value ≤ other) : truncate value ≤ truncate other := by
  rw [truncate, truncate]
  split
  · next positive =>
    rw [if_pos (positive.trans below)]
    exact Int.floor_mono below
  · next negative =>
    split
    · next positive =>
      have low : ⌈value⌉ ≤ 0 := Int.ceil_le.mpr (by push_cast; exact (not_le.mp negative).le)
      exact low.trans (Int.floor_nonneg.mpr positive)
    · exact Int.ceil_mono below

theorem maxRate_value (rate other : CFeeRate) : (maxRate rate other).nSatoshisPerK = max rate.nSatoshisPerK other.nSatoshisPerK := by
  rw [maxRate]
  split
  · next less => exact (max_eq_right less.le).symm
  · next more => exact (max_eq_left (not_lt.mp more)).symm

theorem refuses_of_bar {rate : CFeeRate} {least fees nModifiedFees : Int} {size nSize : Nat} (positive : 0 < size)
    (above : least ≤ rate.nSatoshisPerK) (enough : 1001 * fees ≤ least * size) (fits : rate.nSatoshisPerK * nSize < 2 ^ 64)
    (lower : nModifiedFees * size ≤ fees * nSize) : Refuses rate nModifiedFees nSize := by
  refine ⟨rate.getFee_positive nSize, ?_⟩
  have scaled : nModifiedFees * 1001 * size ≤ rate.nSatoshisPerK * nSize * size := by
    calc nModifiedFees * 1001 * size = 1001 * (nModifiedFees * size) := by ring
      _ ≤ 1001 * (fees * nSize) := Int.mul_le_mul_of_nonneg_left lower (by omega)
      _ = 1001 * fees * nSize := by ring
      _ ≤ least * size * nSize := Int.mul_le_mul_of_nonneg_right enough (by omega)
      _ = least * (size * nSize) := by ring
      _ ≤ rate.nSatoshisPerK * (size * nSize) := Int.mul_le_mul_of_nonneg_right above (by positivity)
      _ = rate.nSatoshisPerK * nSize * size := by ring
  have product : nModifiedFees * 1001 ≤ rate.nSatoshisPerK * nSize := le_of_mul_le_mul_right scaled (by omega)
  rw [getFee_value fits]
  omega

section

variable {doubles : Doubles} {minReasonableRelayFee : CFeeRate}

theorem getMinFee_raised {s : RollingFee} (raised : s.blockSinceLastRollingFeeBump = false) (time : Int) (usage sizelimit : Nat) :
    getMinFee doubles minReasonableRelayFee s time usage sizelimit = (s, .ofPerK (truncate s.rollingMinimumFeeRate)) := by
  rw [getMinFee, raised]
  rfl

theorem next_raised {s : RollingFee} {event : FeeEvent} (quiet : event.Quiet) (raised : s.blockSinceLastRollingFeeBump = false) :
    (s.next doubles minReasonableRelayFee event).blockSinceLastRollingFeeBump = false ∧
      s.rollingMinimumFeeRate ≤ (s.next doubles minReasonableRelayFee event).rollingMinimumFeeRate := by
  cases event with
  | evict fees size =>
    rw [RollingFee.next, trackPackageRemoved]
    split
    · next more => exact ⟨rfl, le_of_lt more⟩
    · exact ⟨raised, le_refl _⟩
  | getMinFee time usage sizelimit =>
    rw [RollingFee.next, getMinFee_raised raised]
    exact ⟨raised, le_refl _⟩
  | removeForBlock time => cases quiet
  | clear time => cases quiet

theorem run_raised {events : List FeeEvent} (quiet : ∀ event ∈ events, event.Quiet) {s : RollingFee}
    (raised : s.blockSinceLastRollingFeeBump = false) :
    (events.foldl (RollingFee.next doubles minReasonableRelayFee) s).blockSinceLastRollingFeeBump = false ∧
      s.rollingMinimumFeeRate ≤ (events.foldl (RollingFee.next doubles minReasonableRelayFee) s).rollingMinimumFeeRate := by
  induction events generalizing s with
  | nil => exact ⟨raised, le_refl _⟩
  | cons event events ih =>
    obtain ⟨still, more⟩ := @next_raised doubles minReasonableRelayFee s event (quiet event mem_cons_self) raised
    obtain ⟨last, most⟩ := ih (forall_mem_cons.mp quiet).2 still
    exact ⟨last, more.trans most⟩

theorem evict_raised {s : RollingFee} {fees : Int} {size : Nat} (bumps : Bumps doubles minReasonableRelayFee s fees size) :
    (s.next doubles minReasonableRelayFee (.evict fees size)).blockSinceLastRollingFeeBump = false ∧
      (s.next doubles minReasonableRelayFee (.evict fees size)).rollingMinimumFeeRate =
        max (doubles.ofInt (removedRate minReasonableRelayFee fees size).getFeePerK) s.rollingMinimumFeeRate := by
  rw [RollingFee.next, trackPackageRemoved]
  split
  · next more => exact ⟨rfl, (max_eq_left (le_of_lt more)).symm⟩
  · next less =>
    exact ⟨bumps.resolve_left less, (max_eq_right (not_lt.mp less)).symm⟩

theorem raisesBar_of_bumps {s : RollingFee} {fees : Int} {size : Nat} (positive : 0 < size)
    (bumps : Bumps doubles minReasonableRelayFee s fees size)
    (enough : 1001 * fees ≤ bar doubles minReasonableRelayFee s fees size * size) :
    RaisesBar doubles minReasonableRelayFee s fees size := by
  intro events t quiet reached time usage sizelimit rate nModifiedFees nSize asked fits lower
  obtain ⟨raised, rolling⟩ := evict_raised bumps
  obtain ⟨still, more⟩ := @run_raised doubles minReasonableRelayFee events quiet _ raised
  rw [← reached, rolling] at more
  rw [← reached] at still
  refine refuses_of_bar positive ?_ enough fits lower
  rw [asked, getMinFee_raised still, ofPerK_value]
  exact max_le_max_right 1 (truncate_mono more)

theorem raisesBar_of_little {s : RollingFee} {fees : Int} {size : Nat} (positive : 0 < size) (little : 1001 * fees ≤ size) :
    RaisesBar doubles minReasonableRelayFee s fees size := by
  intro events t quiet reached time usage sizelimit rate nModifiedFees nSize asked fits lower
  exact refuses_of_bar positive rate.positive (by omega) fits lower

theorem getMinFee_vanishes {s : RollingFee} (block : s.blockSinceLastRollingFeeBump = true) (some : 0 < s.rollingMinimumFeeRate)
    (fits : minReasonableRelayFee.nSatoshisPerK * 1000 < 2 ^ 64) :
    ∃ time, (getMinFee doubles minReasonableRelayFee s time 0 0).2.nSatoshisPerK = 1 := by
  obtain ⟨elapsed, late, least, most⟩ := doubles.vanishes s.rollingMinimumFeeRate ROLLING_FEE_HALFLIFE some (by decide)
  refine ⟨s.lastRollingFeeUpdate + elapsed, ?_⟩
  have positive := minReasonableRelayFee.positive
  have perK : minReasonableRelayFee.getFeePerK = minReasonableRelayFee.nSatoshisPerK * 1000 / 1001 + 1 := by
    rw [getFeePerK, getFee_value (by push_cast; omega)]
    rfl
  have life : halflife 0 0 = ROLLING_FEE_HALFLIFE := rfl
  have notZero : (s.rollingMinimumFeeRate == 0) = false := by
    rw [beq_eq_false_iff_ne]
    exact some.ne'
  rw [getMinFee, block, notZero, if_neg (by decide), if_pos (by omega), life, add_sub_cancel_left]
  dsimp only
  split
  · rfl
  · next small =>
    -- the half of a relay fee that is not above the decayed rate is nothing, and so the relay fee is one
    have none : minReasonableRelayFee.getFeePerK / 2 < 1 := by
      have below := (not_lt.mp small).trans_lt most
      exact_mod_cast below
    have zero : truncate (doubles.decay s.rollingMinimumFeeRate elapsed ROLLING_FEE_HALFLIFE) = 0 := by
      rw [truncate, if_pos least, Int.floor_eq_zero_iff]
      exact ⟨least, most⟩
    rw [maxRate_value, zero, ofPerK_value]
    omega

/-- The eviction raises the bar for its package just when the package paid next to nothing, or the eviction raised the rolling
fee (or found it raised), and the rate that it left covers the package at 1001 bytes for each 1000. -/
theorem raisesBar_iff {s : RollingFee} {fees : Int} {size : Nat} (positive : 0 < size)
    (fits : bar doubles minReasonableRelayFee s fees size * size < 2 ^ 64)
    (relayFits : minReasonableRelayFee.nSatoshisPerK * 1000 < 2 ^ 64) :
    RaisesBar doubles minReasonableRelayFee s fees size ↔ 1001 * fees ≤ size ∨
      Bumps doubles minReasonableRelayFee s fees size ∧ 1001 * fees ≤ bar doubles minReasonableRelayFee s fees size * size := by
  constructor
  · intro raises
    have least : 1 ≤ bar doubles minReasonableRelayFee s fees size := le_max_right _ _
    by_cases bumps : Bumps doubles minReasonableRelayFee s fees size
    · obtain ⟨raised, rolling⟩ := evict_raised bumps
      have rate : (ofPerK (truncate (s.next doubles minReasonableRelayFee (.evict fees size)).rollingMinimumFeeRate)).nSatoshisPerK =
          bar doubles minReasonableRelayFee s fees size := by
        rw [ofPerK_value, rolling]
        rfl
      have refused := raises [] _ nofun rfl 0 0 0 _ fees size
        (by rw [foldl_nil, getMinFee_raised raised]) (by rwa [rate]) (le_refl _)
      have value := refused.2
      rw [getFee_value (by rwa [rate]), rate] at value
      exact .inr ⟨bumps, by omega⟩
    · obtain ⟨notMore, block⟩ := not_or.mp bumps
      have same : s.next doubles minReasonableRelayFee (.evict fees size) = s := by
        rw [RollingFee.next, trackPackageRemoved, if_neg notMore]
      have some : 0 < s.rollingMinimumFeeRate := by
        refine lt_of_lt_of_le (doubles.ofInt_pos _ ?_) (not_lt.mp notMore)
        exact (removedRate minReasonableRelayFee fees size).getFee_positive 1000
      obtain ⟨time, rate⟩ := @getMinFee_vanishes doubles minReasonableRelayFee s (by simpa using block) some relayFits
      have small : (size : Int) < 2 ^ 64 := by
        have scaled : 1 * (size : Int) ≤ bar doubles minReasonableRelayFee s fees size * size :=
          Int.mul_le_mul_of_nonneg_right least (by omega)
        omega
      have refused := raises [] s nofun (by rw [foldl_nil, same]) time 0 0 _
        fees size rfl (by rw [rate]; omega) (le_refl _)
      have value := refused.2
      rw [getFee_value (by rw [rate]; omega), rate] at value
      exact .inl (by omega)
  · rintro (little | ⟨bumps, enough⟩)
    · exact raisesBar_of_little positive little
    · exact raisesBar_of_bumps positive bumps enough

end

def sampleDoubles : Doubles where
  ofInt value := value
  decay rate elapsed halflife := rate / 2 ^ (elapsed / halflife).toNat
  ofInt_pos value positive := by exact_mod_cast positive
  vanishes rate halflife positive life := by
    obtain ⟨turns, more⟩ := pow_unbounded_of_one_lt rate (one_lt_two : (1 : ℚ) < 2)
    have elapsed : (turns + 11 : Nat) * halflife / halflife = (turns + 11 : Nat) := Int.mul_ediv_cancel _ life.ne'
    refine ⟨(turns + 11 : Nat) * halflife, ?_, ?_, ?_⟩
    · have one : ((turns + 11 : Nat) : Int) * 1 ≤ (turns + 11 : Nat) * halflife := Int.mul_le_mul_of_nonneg_left life (by omega)
      omega
    · positivity
    · rw [elapsed, Int.toNat_natCast, div_lt_one (by positivity)]
      exact more.trans_le (pow_le_pow_right₀ one_le_two (by omega))

theorem raisesBar_sample : RaisesBar sampleDoubles (.ofPerK 1) ⟨0, 0, false⟩ 4 2000 := by
  have left : bar sampleDoubles (.ofPerK 1) ⟨0, 0, false⟩ 4 2000 = 3 := by
    have perK : (removedRate (.ofPerK 1) 4 2000).getFeePerK = 3 := by decide
    rw [bar, perK]
    decide +kernel
  refine (raisesBar_iff (by decide) (by rw [left]; decide) (by decide)).mpr (.inr ⟨.inr rfl, ?_⟩)
  rw [left]
  decide

/-- Ten units for 500 bytes get in again right after a package of ten units and 500 bytes was evicted. -/
theorem bar_too_low : ¬ ∀ (doubles : Doubles) (minReasonableRelayFee : CFeeRate) (s : RollingFee) (fees : Int) (size : Nat),
    0 < size → RaisesBar doubles minReasonableRelayFee s fees size := by
  intro every
  have raises := every sampleDoubles (.ofPerK 1) ⟨0, 0, false⟩ 10 500 (by decide)
  have asked : (getMinFee sampleDoubles (.ofPerK 1) (RollingFee.next sampleDoubles (.ofPerK 1) ⟨0, 0, false⟩ (.evict 10 500)) 0 0 0).2 =
      .ofPerK 2 := by decide +kernel
  have refused := raises [] _ nofun rfl 0 0 0 (.ofPerK 2) 10 500 asked.symm
    (by decide) (le_refl _)
  exact absurd refused.2 (by decide)

end Longcoin.MempoolMinFee

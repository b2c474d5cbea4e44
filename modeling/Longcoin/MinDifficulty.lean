import Longcoin.Retarget

/-! The target of the next block on the test network (`GetNextWorkRequired`), and where its walk back ends. -/

namespace Longcoin.Pow
open ArithUint256 List

/-- `GetAncestor` of the first block of the list; the list goes down to genesis. -/
def getAncestor (chain : List CBlockIndex) (height : Int) : Option CBlockIndex := chain.find? fun block => block.nHeight == height

def walkBack (interval : Int) (nProofOfWorkLimit : BitVec 32) : CBlockIndex → List CBlockIndex → CBlockIndex
  | pindex, [] => pindex
  | pindex, pprev :: below =>
      if pindex.nHeight.tmod interval ≠ 0 ∧ pindex.nBits = nProofOfWorkLimit then walkBack interval nProofOfWorkLimit pprev below
      else pindex

/-- `GetNextWorkRequired` for a block of time `nTime` above the chain, which is given with its tip first. -/
def getNextWorkRequired (params : Params) (chain : List CBlockIndex) (nTime : BitVec 32) : Except String (BitVec 32) :=
  let nProofOfWorkLimit := getCompact params.powLimit false
  match chain with
  | [] => .ok nProofOfWorkLimit
  | pindexLast :: below =>
      if (pindexLast.nHeight + 1).tmod (params.difficultyAdjustmentInterval pindexLast.nHeight) ≠ 0 then
        if params.fPowAllowMinDifficultyBlocks then
          if (nTime.toNat : Int) > pindexLast.getBlockTime + params.powTargetSpacing pindexLast.nHeight * 2 then .ok nProofOfWorkLimit
          else .ok (walkBack (params.difficultyAdjustmentInterval pindexLast.nHeight) nProofOfWorkLimit pindexLast below).nBits
        else .ok pindexLast.nBits
      else
        let nHeightFirst := pindexLast.nHeight - (params.difficultyAdjustmentInterval pindexLast.nHeight - 1)
        if nHeightFirst < 0 then .error "assert(nHeightFirst >= 0)"
        else
          match getAncestor (pindexLast :: below) nHeightFirst with
          | none => .error "assert(pindexFirst)"
          | some pindexFirst => calculateNextWorkRequired params pindexLast pindexFirst.getBlockTime

/-- A header chain, its tip first, in which each block has the target that was required of it. -/
def Required (params : Params) : List CBlockIndex → Prop
  | [] => True
  | block :: below => block.nHeight = below.length ∧ getNextWorkRequired params below block.nTime = .ok block.nBits ∧
      Required params below

/-- A retarget was computed for the block, by the rules of its own height. -/
def retargeted (params : Params) (block : CBlockIndex) : Prop :=
  block.nHeight.tmod (params.difficultyAdjustmentInterval (block.nHeight - 1)) = 0

instance (params : Params) (block : CBlockIndex) : Decidable (retargeted params block) :=
  inferInstanceAs (Decidable (_ = _))

/-- The nearest block that did not come from the exception for late blocks. -/
def nearestReal (params : Params) : CBlockIndex → List CBlockIndex → CBlockIndex
  | block, [] => block
  | block, pprev :: below =>
      if block.nBits ≠ getCompact params.powLimit false ∨ retargeted params block then block else nearestReal params pprev below

theorem Required.height {params : Params} {block : CBlockIndex} {below : List CBlockIndex}
    (required : Required params (block :: below)) : block.nHeight = below.length := required.1

theorem Required.lower {params : Params} {chain : List CBlockIndex} (required : Required params chain) :
    ∀ block ∈ chain, 0 ≤ block.nHeight ∧ block.nHeight < chain.length := by
  induction chain with
  | nil => simp
  | cons tip below ih =>
    intro block member
    have height := required.height
    rw [length_cons]
    rcases mem_cons.mp member with rfl | inside
    · omega
    · have lower := ih required.2.2 block inside
      omega

theorem walkBack_eq_nearestReal {params : Params} {interval floor top : Int}
    (agree : ∀ height, floor ≤ height → height ≤ top →
      (height.tmod interval = 0 ↔ height.tmod (params.difficultyAdjustmentInterval (height - 1)) = 0))
    (stop : floor.tmod interval = 0) {block : CBlockIndex} {below : List CBlockIndex} (required : Required params (block :: below))
    (low : floor ≤ block.nHeight) (high : block.nHeight ≤ top) :
    walkBack interval (getCompact params.powLimit false) block below = nearestReal params block below := by
  induction below generalizing block with
  | nil => rfl
  | cons pprev below ih =>
    have height := required.height
    have height' := required.2.2.height
    have same : block.nHeight.tmod interval = 0 ↔ retargeted params block := agree block.nHeight low high
    rw [walkBack, nearestReal]
    by_cases real : block.nBits ≠ getCompact params.powLimit false ∨ retargeted params block
    · rw [if_pos real, if_neg]
      tauto
    · have above : floor ≠ block.nHeight := fun equal => real (.inr (same.mp (equal ▸ stop)))
      rw [length_cons] at height
      rw [if_neg real, if_pos (by tauto), ih required.2.2 (by omega) (by omega)]

abbrev testLimit : BitVec 32 := getCompact testNetParams.powLimit false

theorem testNet_interval (block : Int) : testNetParams.difficultyAdjustmentInterval block =
    if block ≥ 114999 then 30 else if block ≥ 90899 then 60 else if block ≥ 0 then 720 else 30 := rfl

variable {pindexLast : CBlockIndex}

theorem walkBack_outside {below : List CBlockIndex} (required : Required testNetParams (pindexLast :: below))
    (next : (pindexLast.nHeight + 1).tmod (testNetParams.difficultyAdjustmentInterval pindexLast.nHeight) ≠ 0)
    (outside : pindexLast.nHeight < 114999 ∨ 115018 < pindexLast.nHeight) :
    walkBack (testNetParams.difficultyAdjustmentInterval pindexLast.nHeight) testLimit pindexLast below =
      nearestReal testNetParams pindexLast below := by
  have height := required.height
  rw [Int.tmod_eq_emod_of_nonneg (by omega), testNet_interval] at next
  have eras : pindexLast.nHeight ≤ 90898 ∨ (90900 ≤ pindexLast.nHeight ∧ pindexLast.nHeight ≤ 114998) ∨
      115020 ≤ pindexLast.nHeight := by
    split_ifs at next <;> omega
  rcases eras with first | ⟨low, high⟩ | last
  · refine @walkBack_eq_nearestReal _ _ 0 90898 ?_ ?_ _ _ required (by omega) first
    · intro height low high
      rw [Int.tmod_eq_emod_of_nonneg low, Int.tmod_eq_emod_of_nonneg low, testNet_interval, testNet_interval]
      split_ifs <;> omega
    · exact Int.zero_tmod _
  · refine @walkBack_eq_nearestReal _ _ 90900 114998 ?_ ?_ _ _ required low high
    · intro height low high
      rw [Int.tmod_eq_emod_of_nonneg (by omega), Int.tmod_eq_emod_of_nonneg (by omega), testNet_interval, testNet_interval]
      split_ifs <;> omega
    · rw [testNet_interval, if_neg (by omega), if_pos (by omega)]
      rfl
  · refine @walkBack_eq_nearestReal _ _ 115020 pindexLast.nHeight ?_ ?_ _ _ required last le_rfl
    · intro height low high
      rw [Int.tmod_eq_emod_of_nonneg (by omega), Int.tmod_eq_emod_of_nonneg (by omega), testNet_interval, testNet_interval]
      split_ifs <;> omega
    · rw [testNet_interval, if_pos (by omega)]
      rfl

/-- All blocks from a height on have the limit as their target. -/
def LimitFrom (chain : List CBlockIndex) (height : Int) : Prop := ∀ block ∈ chain, height ≤ block.nHeight → block.nBits = testLimit

theorem LimitFrom.cons {block : CBlockIndex} {below : List CBlockIndex} {height : Int} (limit : block.nBits = testLimit) :
    LimitFrom (block :: below) height ↔ LimitFrom below height := by
  rw [LimitFrom, forall_mem_cons]
  exact ⟨fun all => all.2, fun all => ⟨fun _ => limit, all⟩⟩

section

variable {block : CBlockIndex} {below : List CBlockIndex} (required : Required testNetParams (block :: below))
include required

open LimitFrom

theorem LimitFrom.lowest (limit : block.nBits = testLimit) : LimitFrom (block :: below) block.nHeight := by
  rw [cons limit]
  intro other member above
  have lower := required.2.2.lower other member
  have height := required.height
  omega

theorem walkBack_window (low : 114990 ≤ block.nHeight) (high : block.nHeight ≤ 115018) :
    (LimitFrom (block :: below) 114990 → (walkBack 30 testLimit block below).nBits = testLimit) ∧
      (¬ LimitFrom (block :: below) 114990 → walkBack 30 testLimit block below = nearestReal testNetParams block below) := by
  induction below generalizing block with
  | nil => exact ⟨fun limit => limit block mem_cons_self low, fun _ => rfl⟩
  | cons pprev below ih =>
    have height := required.height
    have height' := required.2.2.height
    rw [length_cons] at height
    rw [walkBack, nearestReal, Int.tmod_eq_emod_of_nonneg (by omega)]
    by_cases limit : block.nBits = testLimit
    · rcases eq_or_lt_of_le low with bottom | above
      · rw [if_neg (by omega)]
        exact ⟨fun _ => limit, fun some => absurd (bottom ▸ lowest required limit) some⟩
      · have plain : ¬ retargeted testNetParams block := by
          rw [retargeted, testNet_interval, Int.tmod_eq_emod_of_nonneg (by omega)]
          split_ifs <;> omega
        rw [if_pos ⟨by omega, limit⟩, if_neg (by tauto), cons limit]
        exact ih required.2.2 (by omega) (by omega)
    · rw [if_neg (fun both => limit both.2), if_pos (.inl limit)]
      exact ⟨fun all => all block mem_cons_self low, fun _ => rfl⟩

theorem nearestReal_window (low : 114960 ≤ block.nHeight) (high : block.nHeight ≤ 115018) :
    (nearestReal testNetParams block below).nBits = testLimit ↔ LimitFrom (block :: below) 114960 := by
  induction below generalizing block with
  | nil =>
    have height := required.height
    rw [length_nil] at height
    omega
  | cons pprev below ih =>
    have height := required.height
    have height' := required.2.2.height
    rw [length_cons] at height
    rw [nearestReal]
    by_cases limit : block.nBits = testLimit
    · rcases eq_or_lt_of_le low with bottom | above
      · have stops : retargeted testNetParams block := by
          rw [retargeted, testNet_interval, ← bottom]
          rfl
        rw [if_pos (.inr stops)]
        exact ⟨fun _ => bottom ▸ lowest required limit, fun _ => limit⟩
      · have plain : ¬ retargeted testNetParams block := by
          rw [retargeted, testNet_interval, Int.tmod_eq_emod_of_nonneg (by omega)]
          split_ifs <;> omega
        rw [if_neg (by tauto), cons limit]
        exact ih required.2.2 (by omega) (by omega)
    · rw [if_pos (.inl limit)]
      exact ⟨fun equal => absurd equal limit, fun all => all block mem_cons_self low⟩

end

/-- The walk stops between two eras: it ends at height 114990, where no retarget was computed, while the last retarget was at
114960, and a block between them has a real target. -/
def Stranded (chain : List CBlockIndex) : Prop :=
  (∃ pindexLast ∈ chain.head?, 114999 ≤ pindexLast.nHeight ∧ pindexLast.nHeight ≤ 115018) ∧ LimitFrom chain 114990 ∧
    ¬ LimitFrom chain 114960

/-- The next block is not one of a retarget, and it is not late. -/
structure Prompt (params : Params) (pindexLast : CBlockIndex) (nTime : BitVec 32) : Prop where
  next : (pindexLast.nHeight + 1).tmod (params.difficultyAdjustmentInterval pindexLast.nHeight) ≠ 0
  onTime : (nTime.toNat : Int) ≤ pindexLast.getBlockTime + params.powTargetSpacing pindexLast.nHeight * 2

theorem getNextWorkRequired_prompt {below : List CBlockIndex} {nTime : BitVec 32}
    (prompt : Prompt testNetParams pindexLast nTime) : getNextWorkRequired testNetParams (pindexLast :: below) nTime =
      .ok (walkBack (testNetParams.difficultyAdjustmentInterval pindexLast.nHeight) testLimit pindexLast below).nBits := by
  have allowed : testNetParams.fPowAllowMinDifficultyBlocks = true := rfl
  rw [getNextWorkRequired]
  dsimp only
  rw [if_pos prompt.next, if_pos allowed, if_neg (not_lt.mpr prompt.onTime)]

theorem walkBack_real_iff {below : List CBlockIndex} (required : Required testNetParams (pindexLast :: below))
    (next : (pindexLast.nHeight + 1).tmod (testNetParams.difficultyAdjustmentInterval pindexLast.nHeight) ≠ 0) :
    (walkBack (testNetParams.difficultyAdjustmentInterval pindexLast.nHeight) testLimit pindexLast below).nBits =
      (nearestReal testNetParams pindexLast below).nBits ↔ ¬ Stranded (pindexLast :: below) := by
  rw [Stranded]
  by_cases outside : pindexLast.nHeight < 114999 ∨ 115018 < pindexLast.nHeight
  · rw [walkBack_outside required next outside]
    refine ⟨fun _ stranded => ?_, fun _ => rfl⟩
    obtain ⟨last, same, low, high⟩ := stranded.1
    rw [head?_cons, Option.mem_some_iff] at same
    subst same
    omega
  · have low : 114999 ≤ pindexLast.nHeight := by omega
    have high : pindexLast.nHeight ≤ 115018 := by omega
    have interval : testNetParams.difficultyAdjustmentInterval pindexLast.nHeight = 30 := by
      rw [testNet_interval, if_pos low]
    obtain ⟨stuck, free⟩ := walkBack_window required (by omega) high
    have real := nearestReal_window required (by omega) high
    rw [interval]
    by_cases limit : LimitFrom (pindexLast :: below) 114990
    · rw [stuck limit, eq_comm, real]
      exact ⟨fun all stranded => stranded.2.2 all, fun free => by_contra fun some =>
        free ⟨⟨pindexLast, rfl, low, high⟩, limit, some⟩⟩
    · rw [free limit]
      exact ⟨fun _ stranded => limit stranded.2.1, fun _ => rfl⟩

/-- A block that is not late gets back the real target, except between the last two eras. -/
theorem restores_target_iff {pindexLast : CBlockIndex} {below : List CBlockIndex} {nTime : BitVec 32}
    (required : Required testNetParams (pindexLast :: below)) (prompt : Prompt testNetParams pindexLast nTime) :
    getNextWorkRequired testNetParams (pindexLast :: below) nTime = .ok (nearestReal testNetParams pindexLast below).nBits ↔
      ¬ Stranded (pindexLast :: below) := by
  rw [getNextWorkRequired_prompt prompt, Except.ok.injEq]
  exact walkBack_real_iff required prompt.next

theorem testLimit_eq : testLimit = limitBits := by decide +kernel

def strandedTarget : BitVec 32 := 0x1d1fffff

def strandedBits (height : Nat) : BitVec 32 := if 114960 ≤ height ∧ height < 114990 then strandedTarget else limitBits

/-- The blocks are late up to height 114900 and from 114990 on; those between follow each other every second. -/
def strandedTime (height : Nat) : Nat :=
  if height ≤ 114900 then 1559070662 + 600 * height
  else if height ≤ 114989 then 1628010662 + (height - 114900)
  else 1628010751 + 600 * (height - 114989)

def strandedBlock (height : Nat) : CBlockIndex := ⟨height, BitVec.ofNat 32 (strandedTime height), strandedBits height⟩

def strandedChain : Nat → List CBlockIndex
  | 0 => []
  | count + 1 => strandedBlock count :: strandedChain count

theorem length_strandedChain (count : Nat) : (strandedChain count).length = count := by
  induction count with
  | zero => rfl
  | succ count ih => rw [strandedChain, length_cons, ih]

theorem strandedTime_block {height : Nat} (low : height ≤ 115000) :
    (strandedBlock height).getBlockTime = strandedTime height := by
  have small : strandedTime height < 2 ^ 32 := by
    rw [strandedTime]
    split_ifs <;> omega
  rw [CBlockIndex.getBlockTime, strandedBlock, BitVec.toNat_ofNat, Nat.mod_eq_of_lt small]

variable {count : Nat}

theorem getAncestor_strandedChain {height : Nat} (below : height < count) :
    getAncestor (strandedChain count) height = some (strandedBlock height) := by
  induction count with
  | zero => omega
  | succ count ih =>
    rw [strandedChain, getAncestor, find?_cons]
    rcases Nat.lt_succ_iff_lt_or_eq.mp below with lower | rfl
    · have other : ((strandedBlock count).nHeight == (height : Int)) = false := by
        rw [beq_eq_false_iff_ne, strandedBlock]
        dsimp only
        omega
      rw [other]
      exact ih lower
    · have same : ((strandedBlock height).nHeight == (height : Int)) = true := beq_iff_eq.mpr rfl
      rw [same]

theorem walkBack_limit {interval : Int} {block : CBlockIndex} {below : List CBlockIndex}
    (limit : ∀ other ∈ block :: below, other.nBits = testLimit) : (walkBack interval testLimit block below).nBits = testLimit := by
  induction below generalizing block with
  | nil => exact limit block mem_cons_self
  | cons pprev below ih =>
    rw [walkBack]
    split_ifs
    · exact ih (forall_mem_cons.mp limit).2
    · exact limit block mem_cons_self

theorem calculate_limit {block first : CBlockIndex} (limit : block.nBits = limitBits)
    (long : testNetParams.powTargetTimespan block.nHeight * 4 ≤ block.getBlockTime - first.getBlockTime) :
    calculateNextWorkRequired testNetParams block first.getBlockTime = .ok limitBits := by
  have eras : testNetParams.powTargetTimespan block.nHeight = 86400 ∨ testNetParams.powTargetTimespan block.nHeight = 3600 :=
    timespan_eras block.nHeight
  have clamped : actualTimespan testNetParams block first.getBlockTime = testNetParams.powTargetTimespan block.nHeight * 4 := by
    rw [actualTimespan_eq _ (by omega), clampedTimespan]
    omega
  rw [calculateNextWorkRequired, clamped, limit]
  rcases eras with day | hour
  · rw [day]
    decide +kernel
  · rw [hour]
    decide +kernel

theorem calculate_stranded : calculateNextWorkRequired testNetParams (strandedBlock 114959) (strandedBlock 114900).getBlockTime =
    .ok strandedTarget := by
  decide +kernel

theorem testNet_spacing (block : Int) : testNetParams.powTargetSpacing block =
    if block ≥ 114999 then 120 else if block ≥ 90899 then 60 else if block ≥ 0 then 120 else 120 := rfl

theorem testNet_timespan (block : Int) : testNetParams.powTargetTimespan block =
    if block ≥ 114999 then 3600 else if block ≥ 90899 then 3600 else if block ≥ 0 then 86400 else 3600 := rfl

theorem strandedChain_retarget {height interval : Nat} (nTime : BitVec 32)
    (value : testNetParams.difficultyAdjustmentInterval height = interval) (positive : 0 < interval)
    (next : (height + 1) % interval = 0) : getNextWorkRequired testNetParams (strandedChain (height + 1)) nTime =
      calculateNextWorkRequired testNetParams (strandedBlock height) (strandedBlock (height + 1 - interval)).getBlockTime := by
  have long : interval ≤ height + 1 := Nat.le_of_dvd (Nat.succ_pos _) (Nat.dvd_of_mod_eq_zero next)
  have multiple : ((height : Int) + 1).tmod interval = 0 := by
    rw [Int.tmod_eq_emod_of_nonneg (by omega)]
    exact_mod_cast next
  have first : (height : Int) - (interval - 1) = (height + 1 - interval : Nat) := by omega
  have found := @getAncestor_strandedChain (height + 1) (height + 1 - interval) (by omega)
  rw [strandedChain] at found
  have tip : (strandedBlock height).nHeight = height := rfl
  rw [strandedChain, getNextWorkRequired]
  dsimp only
  rw [tip, value, if_neg (not_not.mpr multiple), first, if_neg (by omega), found]

theorem strandedChain_between {height interval : Nat} {nTime : BitVec 32}
    (value : testNetParams.difficultyAdjustmentInterval height = interval) (next : (height + 1) % interval ≠ 0) :
    getNextWorkRequired testNetParams (strandedChain (height + 1)) nTime =
      if (nTime.toNat : Int) > (strandedBlock height).getBlockTime + testNetParams.powTargetSpacing height * 2 then .ok testLimit
      else .ok (walkBack interval testLimit (strandedBlock height) (strandedChain height)).nBits := by
  have between : ((height : Int) + 1).tmod interval ≠ 0 := by
    rw [Int.tmod_eq_emod_of_nonneg (by omega)]
    exact_mod_cast next
  have tip : (strandedBlock height).nHeight = height := rfl
  have allowed : testNetParams.fPowAllowMinDifficultyBlocks = true := rfl
  rw [strandedChain, getNextWorkRequired]
  dsimp only
  rw [tip, value, if_pos between, if_pos allowed]

theorem strandedBits_limit {height : Nat} (outside : height < 114960 ∨ 114990 ≤ height) : strandedBits height = limitBits := by
  rw [strandedBits, if_neg (by omega)]

theorem mem_strandedChain {block : CBlockIndex} :
    block ∈ strandedChain count ↔ ∃ height < count, strandedBlock height = block := by
  induction count with
  | zero => simp [strandedChain]
  | succ count ih =>
    rw [strandedChain, mem_cons, ih]
    constructor
    · rintro (rfl | ⟨height, lower, rfl⟩)
      · exact ⟨count, Nat.lt_succ_self _, rfl⟩
      · exact ⟨height, Nat.lt_succ_of_lt lower, rfl⟩
    · rintro ⟨height, lower, rfl⟩
      rcases Nat.lt_succ_iff_lt_or_eq.mp lower with below | rfl
      · exact .inr ⟨height, below, rfl⟩
      · exact .inl rfl

theorem strandedBlock_nTime {height : Nat} (low : height ≤ 115000) :
    ((strandedBlock height).nTime.toNat : Int) = strandedTime height := strandedTime_block low

theorem strandedChain_late {height : Nat} (low : height < 114900) :
    getNextWorkRequired testNetParams (strandedChain (height + 1)) (strandedBlock (height + 1)).nTime = .ok limitBits := by
  have tip := strandedTime_block (by omega : height ≤ 115000)
  have time := strandedBlock_nTime (by omega : height + 1 ≤ 115000)
  have spacing := testNet_spacing height
  have timespan := testNet_timespan (strandedBlock height).nHeight
  have heights : (strandedBlock height).nHeight = height := rfl
  obtain ⟨interval, value, eras⟩ : ∃ interval : Nat, testNetParams.difficultyAdjustmentInterval height = interval ∧
      ((height < 90899 ∧ interval = 720) ∨ (90899 ≤ height ∧ interval = 60)) := by
    rw [testNet_interval]
    by_cases first : height < 90899
    · exact ⟨720, by rw [if_neg (by omega), if_neg (by omega), if_pos (by omega)]; rfl, .inl ⟨first, rfl⟩⟩
    · exact ⟨60, by rw [if_neg (by omega), if_pos (by omega)]; rfl, .inr ⟨by omega, rfl⟩⟩
  by_cases next : (height + 1) % interval = 0
  · have long : interval ≤ height + 1 := Nat.le_of_dvd (Nat.succ_pos _) (Nat.dvd_of_mod_eq_zero next)
    have first := strandedTime_block (by omega : height + 1 - interval ≤ 115000)
    rw [strandedTime, if_pos (by omega)] at first tip
    rw [strandedChain_retarget _ value (by omega) next]
    refine calculate_limit (strandedBits_limit (by omega)) ?_
    rw [timespan, heights, tip, first]
    split_ifs <;> omega
  · rw [strandedChain_between value next, if_pos, testLimit_eq]
    rw [time, tip, spacing, strandedTime, strandedTime]
    split_ifs <;> omega

theorem strandedChain_next (inside : count < 115000) :
    getNextWorkRequired testNetParams (strandedChain count) (strandedBlock count).nTime = .ok (strandedBits count) := by
  rcases count with _ | height
  · rw [strandedBits_limit (by omega), ← testLimit_eq]
    rfl
  by_cases low : height < 114900
  · rw [strandedBits_limit (by omega)]
    exact strandedChain_late low
  have value : testNetParams.difficultyAdjustmentInterval height = (60 : Nat) := by
    rw [testNet_interval, if_neg (by omega), if_pos (by omega)]
    rfl
  rcases eq_or_ne height 114959 with rfl | other
  · rw [strandedChain_retarget _ value (by decide) rfl]
    exact calculate_stranded
  have tip := strandedTime_block (by omega : height ≤ 115000)
  have time := strandedBlock_nTime (by omega : height + 1 ≤ 115000)
  have spacing : testNetParams.powTargetSpacing height = 60 := by
    rw [testNet_spacing, if_neg (by omega), if_pos (by omega)]
  rw [strandedChain_between value (by omega), time, tip, spacing]
  rcases Nat.lt_or_ge height 114989 with prompt | late
  · rw [if_neg]
    · rcases Nat.lt_or_ge height 114960 with before | after
      · rw [strandedBits_limit (by omega), ← testLimit_eq, walkBack_limit]
        intro block member
        rw [← strandedChain, mem_strandedChain] at member
        obtain ⟨below, lower, rfl⟩ := member
        exact (strandedBits_limit (by omega)).trans testLimit_eq.symm
      · have real (height : Nat) (low : 114960 ≤ height) (high : height < 114990) : strandedBits height = strandedTarget := by
          rw [strandedBits, if_pos ⟨low, high⟩]
        obtain ⟨below, rfl⟩ := Nat.exists_eq_succ_of_ne_zero (by omega : height ≠ 0)
        rw [strandedChain, walkBack, if_neg]
        · exact congrArg _ ((real _ after (by omega)).trans (real _ (by omega) (by omega)).symm)
        · rintro ⟨-, limit⟩
          have different : strandedTarget ≠ limitBits := by decide
          rw [strandedBlock, real _ after (by omega), testLimit_eq] at limit
          exact different limit
    · rw [strandedTime, strandedTime]
      split_ifs <;> omega
  · rw [if_pos, strandedBits_limit (by omega), testLimit_eq]
    rw [strandedTime, strandedTime]
    split_ifs <;> omega

theorem strandedChain_required (inside : count ≤ 115000) : Required testNetParams (strandedChain count) := by
  induction count with
  | zero => trivial
  | succ count ih => exact ⟨congrArg _ (length_strandedChain count).symm, strandedChain_next inside, ih (by omega)⟩

theorem strandedChain_stranded : Stranded (strandedChain 115000) := by
  refine ⟨⟨strandedBlock 114999, rfl, by decide, by decide⟩, ?_, ?_⟩
  · intro block member above
    obtain ⟨height, lower, rfl⟩ := mem_strandedChain.mp member
    have real : (114990 : Int) ≤ height := above
    exact (strandedBits_limit (by omega)).trans testLimit_eq.symm
  · intro all
    have limit := all (strandedBlock 114989) (mem_strandedChain.mpr ⟨114989, by decide, rfl⟩) (by decide)
    rw [testLimit_eq] at limit
    cases limit

/-- The block at height 115000 gets the limit back, not the target of the retarget at height 114960. -/
theorem loses_real_target : ¬ ∀ pindexLast below nTime, Required testNetParams (pindexLast :: below) →
    Prompt testNetParams pindexLast nTime →
      getNextWorkRequired testNetParams (pindexLast :: below) nTime = .ok (nearestReal testNetParams pindexLast below).nBits := by
  intro restored
  have required : Required testNetParams (strandedBlock 114999 :: strandedChain 114999) := strandedChain_required le_rfl
  have prompt : Prompt testNetParams (strandedBlock 114999) (BitVec.ofNat 32 1628016752) := ⟨by decide, by decide⟩
  have same := restored _ _ _ required prompt
  rw [getNextWorkRequired_prompt prompt, Except.ok.injEq, walkBack_real_iff required prompt.next] at same
  exact same strandedChain_stranded

/-- The walk goes back over late blocks. -/
theorem restores_target_late : getNextWorkRequired testNetParams (strandedBlock 98 :: strandedChain 98) (BitVec.ofNat 32 1559129462) =
    .ok (nearestReal testNetParams (strandedBlock 98) (strandedChain 98)).nBits := by
  refine (restores_target_iff (strandedChain_required (by decide : 99 ≤ 115000)) ⟨by decide, by decide⟩).mpr ?_
  rintro ⟨⟨_, is, above, _⟩, _⟩
  cases is
  exact absurd above (by decide)

end Longcoin.Pow

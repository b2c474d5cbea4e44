import Longcoin.Compact

/-! Proof of work (`pow.cpp`, `consensus/params.h`): the work of a block, and the target of the next one. -/

namespace Longcoin.Pow
open Library ArithUint256 BaseUint List Bool

/-- `Consensus::Params`. The intervals and timespans depend on the height. -/
structure Params where
  powLimit : ArithUint
  fPowAllowMinDifficultyBlocks : Bool
  fPowNoRetargeting : Bool
  nPowTargetSpacing0 : Int
  nPowTargetTimespan0 : Int
  nHeight1 : Int
  nPowTargetSpacing1 : Int
  nPowTargetTimespan1 : Int
  nHeight2 : Int
  nPowTargetSpacing2 : Int
  nPowTargetTimespan2 : Int

namespace Params

def difficultyAdjustmentInterval (params : Params) (block : Int) : Int :=
  if block ≥ params.nHeight2 then params.nPowTargetTimespan2.tdiv params.nPowTargetSpacing2
  else if block ≥ params.nHeight1 then params.nPowTargetTimespan1.tdiv params.nPowTargetSpacing1
  else if block ≥ 0 then params.nPowTargetTimespan0.tdiv params.nPowTargetSpacing0
  else params.nPowTargetTimespan2.tdiv params.nPowTargetSpacing2

def powTargetSpacing (params : Params) (block : Int) : Int :=
  if block ≥ params.nHeight2 then params.nPowTargetSpacing2
  else if block ≥ params.nHeight1 then params.nPowTargetSpacing1
  else if block ≥ 0 then params.nPowTargetSpacing0
  else params.nPowTargetSpacing2

def powTargetTimespan (params : Params) (block : Int) : Int :=
  if block ≥ params.nHeight2 then params.nPowTargetTimespan2
  else if block ≥ params.nHeight1 then params.nPowTargetTimespan1
  else if block ≥ 0 then params.nPowTargetTimespan0
  else params.nPowTargetTimespan2

end Params

/-- `0000007fff…ff` of the main and the test network. -/
def powLimit : ArithUint where
  pn := List.replicate 7 0xffffffff ++ [0x0000007f]
  size := rfl

/-- `CMainParams`. -/
def mainParams : Params where
  powLimit := powLimit
  fPowAllowMinDifficultyBlocks := false
  fPowNoRetargeting := false
  nPowTargetSpacing0 := 2 * 60
  nPowTargetTimespan0 := 24 * 60 * 60
  nHeight1 := 90900 - 1
  nPowTargetSpacing1 := 1 * 60
  nPowTargetTimespan1 := 60 * 60
  nHeight2 := 115000 - 1
  nPowTargetSpacing2 := 2 * 60
  nPowTargetTimespan2 := 60 * 60

/-- `CTestNetParams`. -/
def testNetParams : Params := { mainParams with fPowAllowMinDifficultyBlocks := true }

structure CBlockIndex where
  nHeight : Int
  nTime : BitVec 32
  nBits : BitVec 32

def CBlockIndex.getBlockTime (block : CBlockIndex) : Int := block.nTime.toNat

def checkProofOfWork (params : Params) (hash : ArithUint) (nBits : BitVec 32) : Bool :=
  let bnTarget := setCompact nBits
  if bnTarget.fNegative || bnTarget.target.equalTo 0 || bnTarget.fOverflow || decide (bnTarget.target.compareTo params.powLimit > 0)
  then false
  else if hash.compareTo bnTarget.target > 0 then false
  else true

def getBlockProof (nBits : BitVec 32) : Except String ArithUint := do
  let bnTarget := setCompact nBits
  if bnTarget.fNegative || bnTarget.fOverflow || bnTarget.target.equalTo 0 then return .ofUint64 8 0
  else
    let quotient ← bnTarget.target.complement.divide (bnTarget.target.add (.ofUint64 8 1))
    return quotient.1.add (.ofUint64 8 1)

/-- `nChainWork` as `AddToBlockIndex` sets it, for the `nBits` of a block and its ancestors. -/
def nChainWork : List (BitVec 32) → Except String ArithUint
  | [] => .ok (.ofUint64 8 0)
  | nBits :: below => do
      let work ← nChainWork below
      let proof ← getBlockProof nBits
      return work.add proof

def actualTimespan (params : Params) (pindexLast : CBlockIndex) (nFirstBlockTime : Int) : Int :=
  let nActualTimespan := pindexLast.getBlockTime - nFirstBlockTime
  let nActualTimespan :=
    if nActualTimespan < (params.powTargetTimespan pindexLast.nHeight).tdiv 4 then
      (params.powTargetTimespan pindexLast.nHeight).tdiv 4
    else nActualTimespan
  if nActualTimespan > params.powTargetTimespan pindexLast.nHeight * 4 then params.powTargetTimespan pindexLast.nHeight * 4
  else nActualTimespan

/-- `CalculateNextWorkRequired`. The factor is cut to a `uint32_t`. -/
def calculateNextWorkRequired (params : Params) (pindexLast : CBlockIndex) (nFirstBlockTime : Int) :
    Except String (BitVec 32) := do
  if params.fPowNoRetargeting then return pindexLast.nBits
  else
    let bnNew := (setCompact pindexLast.nBits).target.mul32
      (BitVec.ofInt 32 (actualTimespan params pindexLast nFirstBlockTime))
    let quotient ← bnNew.divide (.ofUint64 8 (BitVec.ofInt 64 (params.powTargetTimespan pindexLast.nHeight)))
    let bnNew := if quotient.1.compareTo params.powLimit > 0 then params.powLimit else quotient.1
    return getCompact bnNew false

structure GoodTarget (nBits : BitVec 32) : Prop where
  notNegative : (setCompact nBits).fNegative = false
  notOverflow : (setCompact nBits).fOverflow = false
  positive : 0 < (setCompact nBits).target.toNat

/-- The work of a block as a number: `2 ^ 256 / (target + 1)`. -/
def workOf (nBits : BitVec 32) : Nat := 2 ^ 256 / ((setCompact nBits).target.toNat + 1)

theorem checkProofOfWork_target {params : Params} {hash : ArithUint} {nBits : BitVec 32}
    (accepted : checkProofOfWork params hash nBits = true) :
    GoodTarget nBits ∧ (setCompact nBits).target.toNat ≤ params.powLimit.toNat ∧ hash.toNat ≤ (setCompact nBits).target.toNat := by
  rw [checkProofOfWork] at accepted
  split_ifs at accepted with range low
  rw [or_eq_true, or_eq_true, or_eq_true, decide_eq_true_iff, compareTo_pos] at range
  rw [compareTo_pos] at low
  have zero := equalTo_zero (setCompact nBits).target
  push Not at range
  obtain ⟨⟨⟨notNegative, nonzero⟩, notOverflow⟩, bounded⟩ := range
  exact ⟨⟨eq_false_iff.mpr notNegative, eq_false_iff.mpr notOverflow,
    Nat.pos_of_ne_zero fun none => nonzero (zero.mpr none)⟩, bounded, not_lt.mp low⟩

theorem complement_div (target : Nat) (bounded : target < 2 ^ 256) :
    (2 ^ 256 - 1 - target) / (target + 1) + 1 = 2 ^ 256 / (target + 1) := by
  have split : 2 ^ 256 = (2 ^ 256 - 1 - target) + (target + 1) := by omega
  conv_rhs => rw [split]
  exact (Nat.add_div_right _ (Nat.succ_pos target)).symm

theorem workOf_pos (nBits : BitVec 32) : 1 ≤ workOf nBits :=
  (Nat.le_div_iff_mul_le (Nat.succ_pos _)).mpr (by
    rw [Nat.one_mul]
    exact (setCompact nBits).target.toNat_lt)

theorem getBlockProof_eq {nBits : BitVec 32} (good : GoodTarget nBits) :
    ∃ proof, getBlockProof nBits = .ok proof ∧ proof.toNat = workOf nBits := by
  have bounded := (setCompact nBits).target.toNat_lt
  have zero := equalTo_zero (setCompact nBits).target
  have nonzero : (setCompact nBits).target.equalTo 0 = false := by
    rw [eq_false_iff, ne_eq, zero]
    exact good.positive.ne'
  -- A target of `2 ^ 256 - 1` has no compact form, so `bnTarget + 1` does not wrap around.
  have less : (setCompact nBits).target.toNat + 1 < 2 ^ 256 := by
    rw [toNat_target good.notOverflow]
    have fits := (overflow_iff nBits).not.mp (eq_false_iff.mp good.notOverflow)
    have long := Nat.div_mul_le_self (mantissaOf nBits * 256 ^ exponentOf nBits) (256 ^ 3)
    rw [Mantissa.decode]
    by_contra full
    have top : mantissaOf nBits * 256 ^ exponentOf nBits / 256 ^ 3 = 2 ^ 256 - 1 := by omega
    rcases Nat.lt_or_ge (exponentOf nBits) 4 with low | high
    · have small : mantissaOf nBits * 256 ^ exponentOf nBits ≤ 2 ^ 23 * 256 ^ 4 :=
        Nat.mul_le_mul (mantissaOf_lt nBits).le (Nat.pow_le_pow_right (by decide) low.le)
      omega
    · have even : 256 ∣ mantissaOf nBits * 256 ^ exponentOf nBits / 256 ^ 3 := by
        obtain ⟨more, same⟩ := Nat.exists_eq_add_of_le high
        have whole : mantissaOf nBits * 256 ^ (4 + more) = mantissaOf nBits * 256 ^ more * 256 * 256 ^ 3 := by ring
        rw [same, whole, Nat.mul_div_cancel _ (by decide)]
        exact Nat.dvd_mul_left _ _
      rw [top] at even
      exact absurd even (by decide)
  have one : (ofUint64 8 1).toNat = 1 := toNat_ofUint64 1
  have next : ((setCompact nBits).target.add (.ofUint64 8 1)).toNat = (setCompact nBits).target.toNat + 1 := by
    rw [toNat_add, one, Nat.mod_eq_of_lt less]
  obtain ⟨quotient, remainder, divides, value, -⟩ :=
    divide_spec (a := (setCompact nBits).target.complement) (b := (setCompact nBits).target.add (.ofUint64 8 1))
      (by rw [next]; exact Nat.succ_ne_zero _)
  refine ⟨quotient.add (.ofUint64 8 1), ?_, ?_⟩
  · rw [getBlockProof, good.notNegative, good.notOverflow, nonzero]
    simp only [Bool.or_self, Bool.false_eq_true, if_false, divides]
    rfl
  · rw [toNat_add, one, value, next, toNat_complement, complement_div _ bounded, Nat.mod_eq_of_lt]
    · rfl
    · exact Nat.div_lt_self (by decide) (by have positive := good.positive; omega)

def totalWork (chain : List (BitVec 32)) : Nat := (chain.map workOf).sum

theorem nChainWork_eq {chain : List (BitVec 32)} (good : ∀ nBits ∈ chain, GoodTarget nBits) (small : totalWork chain < 2 ^ 256) :
    ∃ work, nChainWork chain = .ok work ∧ work.toNat = totalWork chain := by
  induction chain with
  | nil => exact ⟨_, rfl, toNat_ofUint64 0⟩
  | cons nBits below ih =>
    rw [totalWork, map_cons, sum_cons] at small
    obtain ⟨work, found, value⟩ := ih (forall_mem_cons.mp good).2
      ((Nat.le_add_left _ _).trans_lt small)
    obtain ⟨proof, proved, amount⟩ := getBlockProof_eq (good nBits mem_cons_self)
    refine ⟨work.add proof, ?_, ?_⟩
    · rw [nChainWork, found, proved]
      rfl
    · rw [toNat_add, value, amount, totalWork, totalWork, map_cons, sum_cons, Nat.add_comm,
        Nat.mod_eq_of_lt small]

def DivisionExact (WIDTH : Nat) : Prop := ∀ a b : BaseUint WIDTH, b.toNat ≠ 0 →
  ∃ quotient remainder, a.divide b = .ok (quotient, remainder) ∧ quotient.toNat = a.toNat / b.toNat ∧
    remainder.toNat = a.toNat % b.toNat ∧ remainder.toNat < b.toNat

def ProofExact : Prop := ∀ nBits, GoodTarget nBits →
  ∃ proof, getBlockProof nBits = .ok proof ∧ proof.toNat = 2 ^ 256 / ((setCompact nBits).target.toNat + 1) ∧ 1 ≤ proof.toNat

/-- The work grows with each block of the chain, given by its hashes and `nBits`, the tip first. -/
def WorkGrows (chain : List (ArithUint × BitVec 32)) : Prop := ∀ block below, block :: below <:+ chain →
  ∃ work work', nChainWork (below.map Prod.snd) = .ok work ∧ nChainWork ((block :: below).map Prod.snd) = .ok work' ∧
    work'.toNat = work.toNat + workOf block.2 ∧ work.toNat < work'.toNat

theorem totalWork_suffix {chain part : List (BitVec 32)} (suffix : part <:+ chain) : totalWork part ≤ totalWork chain := by
  obtain ⟨above, rfl⟩ := suffix
  rw [totalWork, totalWork, map_append, sum_append]
  exact Nat.le_add_left _ _

theorem workGrows {params : Params} {chain : List (ArithUint × BitVec 32)}
    (accepted : ∀ block ∈ chain, checkProofOfWork params block.1 block.2 = true)
    (small : totalWork (chain.map Prod.snd) < 2 ^ 256) : WorkGrows chain := by
  intro block below suffix
  have member : ∀ other ∈ block :: below, GoodTarget other.2 := fun other inside =>
    (checkProofOfWork_target (accepted other (suffix.subset inside))).1
  have good : ∀ nBits ∈ (block :: below).map Prod.snd, GoodTarget nBits := by
    intro nBits inside
    obtain ⟨other, here, rfl⟩ := mem_map.mp inside
    exact member other here
  have bounded := (totalWork_suffix (suffix.map Prod.snd)).trans_lt small
  have split : totalWork ((block :: below).map Prod.snd) = workOf block.2 + totalWork (below.map Prod.snd) := by
    rw [totalWork, totalWork, map_cons, map_cons, sum_cons]
  obtain ⟨work, found, value⟩ := nChainWork_eq (forall_mem_cons.mp good).2
    ((by rw [split]; exact Nat.le_add_left _ _ : totalWork (below.map Prod.snd) ≤ _).trans_lt bounded)
  obtain ⟨work', found', value'⟩ := nChainWork_eq good bounded
  have positive := workOf_pos block.2
  exact ⟨work, work', found, found', by omega, by omega⟩

/-- Division and block work are exact, and the work of a chain of accepted blocks grows with every block. -/
theorem block_work_exact {params : Params} {chain : List (ArithUint × BitVec 32)}
    (accepted : ∀ block ∈ chain, checkProofOfWork params block.1 block.2 = true)
    (small : totalWork (chain.map Prod.snd) < 2 ^ 256) : (∀ WIDTH, DivisionExact WIDTH) ∧ ProofExact ∧ WorkGrows chain := by
  refine ⟨fun WIDTH a b nonzero => ?_, fun nBits good => ?_, workGrows accepted small⟩
  · obtain ⟨quotient, remainder, divides, value, rest⟩ := divide_spec (a := a) nonzero
    exact ⟨quotient, remainder, divides, value, rest, rest ▸ Nat.mod_lt _ (Nat.pos_of_ne_zero nonzero)⟩
  · obtain ⟨proof, found, value⟩ := getBlockProof_eq good
    exact ⟨proof, found, value, value ▸ workOf_pos nBits⟩

def limitBits : BitVec 32 := 0x1d7fffff

theorem limitBits_target : (setCompact limitBits).target.toNat = 0x7fffff * 256 ^ 26 := by decide +kernel

theorem block_work_exact_genesis :
    (∀ WIDTH, DivisionExact WIDTH) ∧ ProofExact ∧ WorkGrows [(zero 8, limitBits), (zero 8, limitBits)] := by
  refine @block_work_exact mainParams _ ?_ ?_
  · intro block member
    have same : block = (zero 8, limitBits) := by simpa using member
    rw [same]
    decide +kernel
  · rw [map_cons, map_cons, map_nil, totalWork, map_cons, map_cons, map_nil, workOf, limitBits_target]
    decide

end Longcoin.Pow

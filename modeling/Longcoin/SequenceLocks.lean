import Longcoin.ChainVector

/-! Relative lock times and the lock points that the mempool keeps of them (`main.cpp`): `CalculateSequenceLocks`,
`EvaluateSequenceLocks`, `TestLockPointValidity` and `CheckSequenceLocks`. -/

namespace Longcoin.SequenceLocks
open Primitives Library ParentForest Chain List

def SEQUENCE_LOCKTIME_DISABLE_FLAG : Nat := 1 <<< 31

def SEQUENCE_LOCKTIME_TYPE_FLAG : Nat := 1 <<< 22

def SEQUENCE_LOCKTIME_MASK : Nat := 0x0000ffff

def SEQUENCE_LOCKTIME_GRANULARITY : Nat := 9

def LOCKTIME_VERIFY_SEQUENCE : Nat := 1 <<< 0

def MEMPOOL_HEIGHT : Nat := 0x7FFFFFFF

def nMedianTimeSpan : Nat := 11

/-- The times of a block and of those before it, the last one at the end. -/
def pastTimes (index : Index) (nTime : Nat → Nat) : Nat → Option Nat → List Int
  | 0, _ => []
  | _, none => []
  | count + 1, some pindex => pastTimes index nTime count (pprev index pindex) ++ [(nTime pindex : Int)]

def getMedianTimePast (index : Index) (nTime : Nat → Nat) (pindex : Nat) : Int :=
  let pbegin := (pastTimes index nTime nMedianTimeSpan (some pindex)).insertionSort (· ≤ ·)
  pbegin.getD (pbegin.length / 2) 0

/-- The blocks in memory, their times and the hashes of their transactions. In one chain a transaction is in one block at
most, and the median time past does not decrease. -/
structure Tree where
  mapBlockIndex : Index
  nTime : Nat → Nat
  vtx : Nat → List Uint256
  shape : WellFormed mapBlockIndex
  small : ∀ pindex < mapBlockIndex.length, nHeight mapBlockIndex pindex + 1 < MEMPOOL_HEIGHT
  once : ∀ tip first second hash, Ancestor (pprev mapBlockIndex) first tip → Ancestor (pprev mapBlockIndex) second tip →
    hash ∈ vtx first → hash ∈ vtx second → first = second
  median : ∀ first second, Ancestor (pprev mapBlockIndex) first second →
    getMedianTimePast mapBlockIndex nTime first ≤ getMedianTimePast mapBlockIndex nTime second

def Tree.medianTimePast (tree : Tree) (pindex : Nat) : Int := getMedianTimePast tree.mapBlockIndex tree.nTime pindex

/-- The active chain, the mempool, and the heights of the coins of `pcoinsTip`. A coin is from a block of the chain, and a
transaction of the mempool is in none. -/
structure ChainState (tree : Tree) where
  tip : Nat
  chainActive : VChain
  mempool : Uint256 → Bool
  pcoinsTip : Uint256 → Option Nat
  path : Path tree.mapBlockIndex (some tip) chainActive
  confirmed : ∀ hash height, pcoinsTip hash = some height →
    ∃ pindex, Ancestor (pprev tree.mapBlockIndex) pindex tip ∧ nHeight tree.mapBlockIndex pindex = height ∧ hash ∈ tree.vtx pindex
  unconfirmed : ∀ hash, mempool hash = true → ∀ pindex, Ancestor (pprev tree.mapBlockIndex) pindex tip → hash ∉ tree.vtx pindex

def getCoins {tree : Tree} (s : ChainState tree) (txid : Uint256) : Option Nat :=
  if s.mempool txid then some MEMPOOL_HEIGHT else s.pcoinsTip txid

/-- `block.GetAncestor(height)` for the block after the tip, which is not in memory and has no skip pointer. -/
def getAncestorOfNext (index : Index) (tip : Nat) (height : Int) : Except Fault (Option Nat) := do
  let block ← deref index (some tip)
  if height > block.nHeight + 1 || height < 0 then return none
  else if height = block.nHeight + 1 then throw .badPointer
  else getAncestorLoop index height.toNat block.nHeight (some tip) block.nHeight

/-- The turn of `CalculateSequenceLocks` for an input whose sequence number counts. -/
def lockInput (tree : Tree) (tip : Nat) (txin : CTxIn) (nCoinHeight : Int) (pair : Int × Int) : Except Fault (Int × Int) :=
  if txin.nSequence &&& SEQUENCE_LOCKTIME_TYPE_FLAG ≠ 0 then do
    match ← getAncestorOfNext tree.mapBlockIndex tip (max (nCoinHeight - 1) 0) with
    | none => throw .badPointer
    | some pindex =>
        let nCoinTime := tree.medianTimePast pindex
        return (pair.1, max pair.2
          (nCoinTime + ((txin.nSequence &&& SEQUENCE_LOCKTIME_MASK) <<< SEQUENCE_LOCKTIME_GRANULARITY : Nat) - 1))
  else return (max pair.1 (nCoinHeight + (txin.nSequence &&& SEQUENCE_LOCKTIME_MASK : Nat) - 1), pair.2)

/-- The loop of `CalculateSequenceLocks`: the pair, and the heights with those that do not count at zero. -/
def lockInputs (tree : Tree) (tip : Nat) : List CTxIn → List Int → Int × Int → Except Fault ((Int × Int) × List Int)
  | txin :: vin, nCoinHeight :: prevHeights, pair =>
      if txin.nSequence &&& SEQUENCE_LOCKTIME_DISABLE_FLAG ≠ 0 then do
        let (pair, prevHeights) ← lockInputs tree tip vin prevHeights pair
        return (pair, 0 :: prevHeights)
      else do
        let pair ← lockInput tree tip txin nCoinHeight pair
        let (pair, prevHeights) ← lockInputs tree tip vin prevHeights pair
        return (pair, nCoinHeight :: prevHeights)
  | _, prevHeights, pair => .ok (pair, prevHeights)

/-- `fEnforceBIP68`. -/
def enforceBIP68 (tx : CTransaction) (flags : Nat) : Bool :=
  decide (tx.nVersion % 2 ^ 32 ≥ 2) && flags &&& LOCKTIME_VERIFY_SEQUENCE != 0

def calculateSequenceLocks (tree : Tree) (tip : Nat) (tx : CTransaction) (flags : Nat) (prevHeights : List Int) :
    Except Fault ((Int × Int) × List Int) :=
  if prevHeights.length ≠ tx.vin.length then .error .assertion
  else if !enforceBIP68 tx flags then .ok ((-1, -1), prevHeights)
  else lockInputs tree tip tx.vin prevHeights (-1, -1)

def evaluateSequenceLocks (tree : Tree) (tip : Nat) (lockPair : Int × Int) : Bool :=
  if lockPair.1 ≥ nHeight tree.mapBlockIndex tip + 1 ∨ lockPair.2 ≥ tree.medianTimePast tip then false else true

structure LockPoints where
  height : Int
  time : Int
  maxInputBlock : Option Nat

def testLockPointValidity {tree : Tree} (s : ChainState tree) (lp : LockPoints) : Except Fault Bool :=
  match lp.maxInputBlock with
  | some maxInputBlock => contains tree.mapBlockIndex s.chainActive maxInputBlock
  | none => .ok true

/-- The heights of the coins that the inputs spend, with those of the mempool in the next block. Nothing if one is missing. -/
def prevHeights {tree : Tree} (s : ChainState tree) (vin : List CTxIn) : Option (List Int) :=
  vin.mapM fun txin => (getCoins s txin.prevout.hash).map fun height =>
    if height = MEMPOOL_HEIGHT then (nHeight tree.mapBlockIndex s.tip : Int) + 1 else height

/-- The height of the last block with a coin that counts, where those in the next block are left out. -/
def maxInputHeight (tipHeight : Int) (prevHeights : List Int) : Int :=
  prevHeights.foldl (fun most height => if height ≠ tipHeight + 1 then max most height else most) 0

def checkSequenceLocks {tree : Tree} (s : ChainState tree) (tx : CTransaction) (flags : Nat) (lp : Option LockPoints)
    (useExistingLockPoints : Bool) : Except Fault (Bool × Option LockPoints) :=
  if useExistingLockPoints then
    match lp with
    | none => .error .assertion
    | some points => .ok (evaluateSequenceLocks tree s.tip (points.height, points.time), lp)
  else
    match prevHeights s tx.vin with
    | none => .ok (false, lp)
    | some heights => do
        let (lockPair, heights) ← calculateSequenceLocks tree s.tip tx flags heights
        let answer := evaluateSequenceLocks tree s.tip lockPair
        match lp with
        | none => return (answer, none)
        | some _ =>
            let maxInputBlock ← getAncestor tree.mapBlockIndex (some s.tip)
              (maxInputHeight (nHeight tree.mapBlockIndex s.tip) heights)
            return (answer, some ⟨lockPair.1, lockPair.2, maxInputBlock⟩)

/-- The last height or time at which an input keeps the transaction out of a block. -/
inductive Lock where
  | height (last : Int)
  | time (last : Int)

def Lock.raise (pair : Int × Int) : Lock → Int × Int
  | .height last => (max pair.1 last, pair.2)
  | .time last => (pair.1, max pair.2 last)

/-- The lock keeps the transaction out of the block after the tip. -/
def Lock.Bars (tree : Tree) (tip : Nat) : Lock → Prop
  | .height last => last ≥ nHeight tree.mapBlockIndex tip + 1
  | .time last => last ≥ tree.medianTimePast tip

def counts (txin : CTxIn) : Bool := txin.nSequence &&& SEQUENCE_LOCKTIME_DISABLE_FLAG == 0

def isTime (txin : CTxIn) : Bool := txin.nSequence &&& SEQUENCE_LOCKTIME_TYPE_FLAG != 0

def blocksOf (txin : CTxIn) : Nat := txin.nSequence &&& SEQUENCE_LOCKTIME_MASK

def secondsOf (txin : CTxIn) : Nat := (txin.nSequence &&& SEQUENCE_LOCKTIME_MASK) <<< SEQUENCE_LOCKTIME_GRANULARITY

/-- The median time past of the block of that height, below a tip. -/
def timeAt (tree : Tree) (tip height : Nat) : Int :=
  ((followPprev tree.mapBlockIndex (nHeight tree.mapBlockIndex tip - height) tip).map tree.medianTimePast).getD 0

/-- The lock of an input whose coin has a height, on the chain of a tip. -/
def lockOf (tree : Tree) (tip : Nat) (txin : CTxIn) (nCoinHeight : Nat) : Lock :=
  if isTime txin then .time (timeAt tree tip (nCoinHeight - 1) + secondsOf txin - 1) else .height (nCoinHeight + blocksOf txin - 1)

section Locks

variable {tree : Tree} {tip : Nat} {txin : CTxIn}

theorem getAncestorOfNext_eq (inside : tip < tree.mapBlockIndex.length) {height : Nat}
    (low : height ≤ nHeight tree.mapBlockIndex tip) : getAncestorOfNext tree.mapBlockIndex tip height =
      .ok (followPprev tree.mapBlockIndex (nHeight tree.mapBlockIndex tip - height) tip) := by
  obtain ⟨block, here⟩ := WellFormed.exists_of_lt inside
  have value := WellFormed.nHeight_eq here
  have range : (decide ((height : Int) > block.nHeight + 1) || decide ((height : Int) < 0)) = false := by
    rw [Bool.or_eq_false_iff, decide_eq_false_iff_not, decide_eq_false_iff_not]
    omega
  rw [getAncestorOfNext, WellFormed.deref_eq here]
  dsimp only [bind, Except.bind]
  rw [range, if_neg Bool.false_ne_true, if_neg (by omega), Int.toNat_natCast,
    tree.shape.getAncestorLoop_eq _ inside value (by omega) (by omega), value]

theorem lockInput_eq (inside : tip < tree.mapBlockIndex.length) {nCoinHeight : Nat}
    (low : nCoinHeight ≤ nHeight tree.mapBlockIndex tip + 1) (pair : Int × Int) :
    lockInput tree tip txin nCoinHeight pair = .ok ((lockOf tree tip txin nCoinHeight).raise pair) := by
  have before : max ((nCoinHeight : Int) - 1) 0 = ((nCoinHeight - 1 : Nat) : Int) := by omega
  rw [lockInput, lockOf, isTime, before, getAncestorOfNext_eq inside (by omega)]
  by_cases time : txin.nSequence &&& SEQUENCE_LOCKTIME_TYPE_FLAG ≠ 0
  · obtain ⟨pindex, found, -⟩ := tree.shape.followPprev_exists (by omega : nCoinHeight - 1 ≤ nHeight tree.mapBlockIndex tip)
    rw [if_pos time, if_pos (bne_iff_ne.mpr time), timeAt, found]
    rfl
  · rw [if_neg time, if_neg (fun same => time (bne_iff_ne.mp same))]
    rfl

theorem lockInputs_eq (inside : tip < tree.mapBlockIndex.length) (vin : List CTxIn) (heightOf : CTxIn → Nat)
    (low : ∀ txin ∈ vin, heightOf txin ≤ nHeight tree.mapBlockIndex tip + 1) (pair : Int × Int) :
    lockInputs tree tip vin (vin.map fun txin => (heightOf txin : Int)) pair =
      .ok (((vin.filter counts).map fun txin => lockOf tree tip txin (heightOf txin)).foldl Lock.raise pair,
        vin.map fun txin => if counts txin then (heightOf txin : Int) else 0) := by
  induction vin generalizing pair with
  | nil => rfl
  | cons txin vin ih =>
    have low' : ∀ txin ∈ vin, heightOf txin ≤ nHeight tree.mapBlockIndex tip + 1 :=
      (forall_mem_cons.mp low).2
    rw [map_cons, lockInputs]
    by_cases off : txin.nSequence &&& SEQUENCE_LOCKTIME_DISABLE_FLAG ≠ 0
    · have skipped : counts txin = false := beq_eq_false_iff_ne.mpr off
      rw [if_pos off, ih low', filter_cons_of_neg (by rw [skipped]; decide), map_cons, skipped]
      rfl
    · have counted : counts txin = true := beq_iff_eq.mpr (not_not.mp off)
      rw [if_neg off, lockInput_eq inside (low txin mem_cons_self)]
      dsimp only [bind, Except.bind]
      rw [ih low', filter_cons_of_pos counted, map_cons, map_cons, foldl_cons, counted]
      rfl

theorem evaluate_raise (pair : Int × Int) (lock : Lock) : evaluateSequenceLocks tree tip (lock.raise pair) = false ↔
    evaluateSequenceLocks tree tip pair = false ∨ lock.Bars tree tip := by
  rw [evaluateSequenceLocks, evaluateSequenceLocks]
  cases lock <;> simp only [Lock.raise, Lock.Bars, ite_eq_left_iff, Bool.true_eq_false, imp_false, not_not, ge_iff_le, le_max_iff]
    <;> tauto

theorem evaluate_foldl (locks : List Lock) (pair : Int × Int) : evaluateSequenceLocks tree tip (locks.foldl Lock.raise pair) = false ↔
    evaluateSequenceLocks tree tip pair = false ∨ ∃ lock ∈ locks, lock.Bars tree tip := by
  induction locks generalizing pair with
  | nil => simp
  | cons lock locks ih =>
    rw [foldl_cons, ih, evaluate_raise, or_assoc]
    simp

theorem pastTimes_nonneg (index : Index) (nTime : Nat → Nat) (count : Nat) (pindex : Option Nat) :
    ∀ time ∈ pastTimes index nTime count pindex, 0 ≤ time := by
  induction count generalizing pindex with
  | zero => simp [pastTimes]
  | succ count ih =>
    cases pindex with
    | none => simp [pastTimes]
    | some pindex =>
      intro time member
      rw [pastTimes, mem_append, mem_singleton] at member
      rcases member with old | rfl
      · exact ih _ time old
      · exact Int.natCast_nonneg _

theorem medianTimePast_nonneg : 0 ≤ tree.medianTimePast tip := by
  rw [Tree.medianTimePast, getMedianTimePast, getD_eq_getElem?_getD]
  cases here : ((pastTimes tree.mapBlockIndex tree.nTime nMedianTimeSpan (some tip)).insertionSort (· ≤ ·))[
      ((pastTimes tree.mapBlockIndex tree.nTime nMedianTimeSpan (some tip)).insertionSort (· ≤ ·)).length / 2]? with
  | none => exact le_rfl
  | some time =>
    have member := mem_of_getElem? here
    rw [mem_insertionSort] at member
    exact pastTimes_nonneg _ _ _ _ time member

theorem evaluate_none : evaluateSequenceLocks tree tip (-1, -1) = true := by
  have time := @medianTimePast_nonneg tree tip
  rw [evaluateSequenceLocks, if_neg]
  dsimp only
  omega

end Locks

section Answers

variable {tree : Tree} {s : ChainState tree} {tx : CTransaction} {flags : Nat} {txin : CTxIn}

def heightOf {tree : Tree} (s : ChainState tree) (txin : CTxIn) : Nat :=
  if s.mempool txin.prevout.hash then nHeight tree.mapBlockIndex s.tip + 1 else (s.pcoinsTip txin.prevout.hash).getD 0

def Available {tree : Tree} (s : ChainState tree) (tx : CTransaction) : Prop :=
  ∀ txin ∈ tx.vin, (getCoins s txin.prevout.hash).isSome = true

/-- The lock of some input, as it was on one state, keeps the transaction out of the block after a tip. -/
def Barred {tree : Tree} (s : ChainState tree) (tx : CTransaction) (flags tip : Nat) : Prop :=
  enforceBIP68 tx flags = true ∧ ∃ txin ∈ tx.vin, counts txin = true ∧ (lockOf tree s.tip txin (heightOf s txin)).Bars tree tip

theorem tip_lt (s : ChainState tree) : s.tip < tree.mapBlockIndex.length := s.path.1

theorem coin_le {hash : Uint256} {height : Nat} (coin : s.pcoinsTip hash = some height) : height ≤ nHeight tree.mapBlockIndex s.tip := by
  obtain ⟨pindex, below, rfl, -⟩ := s.confirmed hash height coin
  exact tree.shape.graded.height_le below

theorem heightOf_le (s : ChainState tree) (txin : CTxIn) : heightOf s txin ≤ nHeight tree.mapBlockIndex s.tip + 1 := by
  rw [heightOf]
  split_ifs
  · exact le_rfl
  · cases coin : s.pcoinsTip txin.prevout.hash with
    | none => exact Nat.zero_le _
    | some height => exact (coin_le coin).trans (Nat.le_succ _)

theorem prevHeights_eq {vin : List CTxIn} {heights : List Int} : prevHeights s vin = some heights ↔
    (∀ txin ∈ vin, (getCoins s txin.prevout.hash).isSome = true) ∧ heights = vin.map fun txin => (heightOf s txin : Int) := by
  induction vin generalizing heights with
  | nil =>
    rw [prevHeights, mapM_nil, map_nil]
    constructor
    · rintro ⟨⟩
      exact ⟨nofun, rfl⟩
    · rintro ⟨-, rfl⟩
      rfl
  | cons txin vin ih =>
    have single : (getCoins s txin.prevout.hash).map (fun height =>
        if height = MEMPOOL_HEIGHT then (nHeight tree.mapBlockIndex s.tip : Int) + 1 else height) =
        if (getCoins s txin.prevout.hash).isSome then some (heightOf s txin : Int) else none := by
      rw [getCoins, heightOf]
      split_ifs with pool some none
      · rw [Option.map_some, if_pos rfl]
        push_cast
        rfl
      · exact absurd rfl some
      · obtain ⟨height, coin⟩ := Option.isSome_iff_exists.mp none
        have low := coin_le coin
        have small := tree.small s.tip (tip_lt s)
        rw [coin, Option.map_some, if_neg (by omega)]
        rfl
      · rw [Option.not_isSome_iff_eq_none.mp none]
        rfl
    rw [prevHeights, mapM_cons, single]
    by_cases there : (getCoins s txin.prevout.hash).isSome = true
    · rw [if_pos there, Option.bind_eq_bind, Option.bind_some, Option.bind_eq_bind, Option.bind_eq_some_iff]
      simp only [Option.pure_def, Option.some.injEq, forall_mem_cons, there, true_and, map_cons]
      constructor
      · rintro ⟨rest, found, rfl⟩
        obtain ⟨all, rfl⟩ := ih.mp found
        exact ⟨all, rfl⟩
      · rintro ⟨all, rfl⟩
        exact ⟨_, ih.mpr ⟨all, rfl⟩, rfl⟩
    · rw [if_neg there]
      simp only [Option.bind_eq_bind, Option.bind_none, forall_mem_cons, there, false_and, reduceCtorEq, Bool.false_eq_true]

theorem maxInputHeight_spec {tipHeight : Int} (heights : List Int) (positive : 0 ≤ tipHeight) (low : ∀ height ∈ heights, height ≤ tipHeight + 1) :
    0 ≤ maxInputHeight tipHeight heights ∧ maxInputHeight tipHeight heights ≤ tipHeight ∧
      ∀ height ∈ heights, height ≠ tipHeight + 1 → height ≤ maxInputHeight tipHeight heights := by
  have general (most : Int) (bounded : most ≤ tipHeight) :
      most ≤ heights.foldl (fun most height => if height ≠ tipHeight + 1 then max most height else most) most ∧
      heights.foldl (fun most height => if height ≠ tipHeight + 1 then max most height else most) most ≤ tipHeight ∧
      ∀ height ∈ heights, height ≠ tipHeight + 1 →
        height ≤ heights.foldl (fun most height => if height ≠ tipHeight + 1 then max most height else most) most := by
    induction heights generalizing most with
    | nil => exact ⟨le_rfl, bounded, nofun⟩
    | cons first rest ih =>
      rw [foldl_cons]
      have below := low first mem_cons_self
      have start : most ≤ (if first ≠ tipHeight + 1 then max most first else most) := by split_ifs <;> omega
      obtain ⟨more, less, all⟩ := ih (forall_mem_cons.mp low).2
        (if first ≠ tipHeight + 1 then max most first else most) (by split_ifs <;> omega)
      refine ⟨start.trans more, less, fun height member other => ?_⟩
      rcases mem_cons.mp member with rfl | old
      · rw [if_pos other] at more ⊢
        exact (le_max_right _ _).trans more
      · exact all height old other
  exact general 0 positive

theorem calculate_spec (s : ChainState tree) (tx : CTransaction) (flags : Nat) : ∃ pair heights,
    calculateSequenceLocks tree s.tip tx flags (tx.vin.map fun txin => (heightOf s txin : Int)) = .ok (pair, heights) ∧
      (∀ tip, evaluateSequenceLocks tree tip pair = false ↔ Barred s tx flags tip) ∧
      (∀ height ∈ heights, height ≤ nHeight tree.mapBlockIndex s.tip + 1) ∧
      ∀ txin ∈ tx.vin, counts txin = true → (heightOf s txin : Int) ∈ heights := by
  rw [calculateSequenceLocks, if_neg (not_not.mpr (length_map _))]
  cases enforced : enforceBIP68 tx flags with
  | false =>
    rw [Bool.not_false, if_pos rfl]
    refine ⟨_, _, rfl, fun tip => ?_, ?_, ?_⟩
    · rw [evaluate_none, Barred, enforced]
      simp
    · intro height member
      obtain ⟨txin, -, rfl⟩ := mem_map.mp member
      have low := heightOf_le s txin
      omega
    · exact fun txin member _ => mem_map.mpr ⟨txin, member, rfl⟩
  | true =>
    rw [Bool.not_true, if_neg Bool.false_ne_true, lockInputs_eq (tip_lt s) _ _ fun txin _ => heightOf_le s txin]
    refine ⟨_, _, rfl, fun tip => ?_, ?_, ?_⟩
    · rw [evaluate_foldl, evaluate_none, Barred, enforced]
      simp only [Bool.true_eq_false, false_or, mem_map, mem_filter, true_and]
      constructor
      · rintro ⟨lock, ⟨txin, ⟨member, counted⟩, rfl⟩, bars⟩
        exact ⟨txin, member, counted, bars⟩
      · rintro ⟨txin, member, counted, bars⟩
        exact ⟨_, ⟨txin, ⟨member, counted⟩, rfl⟩, bars⟩
    · intro height member
      obtain ⟨txin, -, rfl⟩ := mem_map.mp member
      have low := heightOf_le s txin
      split_ifs <;> omega
    · exact fun txin member counted => mem_map.mpr ⟨txin, member, if_pos counted⟩

theorem fresh_spec (flags : Nat) (available : Available s tx) : ∃ answer,
    checkSequenceLocks s tx flags none false = .ok (answer, none) ∧ (answer = false ↔ Barred s tx flags s.tip) := by
  obtain ⟨pair, heights, done, meaning, -⟩ := calculate_spec s tx flags
  rw [checkSequenceLocks, if_neg Bool.false_ne_true, prevHeights_eq.mpr ⟨available, rfl⟩]
  dsimp only
  rw [done]
  exact ⟨_, rfl, meaning s.tip⟩

theorem stored_spec {old lp : LockPoints} (stored : checkSequenceLocks s tx flags (some old) false = .ok (true, some lp)) :
    Available s tx ∧ ¬ Barred s tx flags s.tip ∧
      (∀ tip, evaluateSequenceLocks tree tip (lp.height, lp.time) = false ↔ Barred s tx flags tip) ∧
      ∃ last, lp.maxInputBlock = some last ∧ last < tree.mapBlockIndex.length ∧ Ancestor (pprev tree.mapBlockIndex) last s.tip ∧
        ∀ txin ∈ tx.vin, counts txin = true → ∀ height, s.mempool txin.prevout.hash = false →
          s.pcoinsTip txin.prevout.hash = some height → height ≤ nHeight tree.mapBlockIndex last := by
  rw [checkSequenceLocks, if_neg Bool.false_ne_true] at stored
  cases found : prevHeights s tx.vin with
  | none =>
    rw [found] at stored
    injection stored with same
    cases congrArg Prod.fst same
  | some heights =>
    obtain ⟨available, rfl⟩ := prevHeights_eq.mp found
    obtain ⟨pair, heights, done, meaning, low, members⟩ := calculate_spec s tx flags
    obtain ⟨positive, below, all⟩ := maxInputHeight_spec heights (Int.natCast_nonneg (nHeight tree.mapBlockIndex s.tip)) low
    obtain ⟨most, level⟩ := Int.eq_ofNat_of_zero_le positive
    rw [level] at below all
    obtain ⟨last, climbed, place⟩ := tree.shape.followPprev_exists (Int.ofNat_le.mp below)
    have lookup : getAncestor tree.mapBlockIndex (some s.tip) most = .ok (some last) := by
      rw [tree.shape.getAncestor_eq (tip_lt s), if_pos ⟨Int.natCast_nonneg _, below⟩, Int.toNat_natCast, climbed]
    rw [found] at stored
    dsimp only at stored
    rw [done] at stored
    dsimp only [bind, Except.bind, pure, Except.pure] at stored
    rw [level, lookup] at stored
    injection stored with same
    have answer : evaluateSequenceLocks tree s.tip pair = true := congrArg Prod.fst same
    have points : lp = ⟨pair.1, pair.2, some last⟩ := (Option.some.inj (congrArg Prod.snd same)).symm
    rw [points]
    refine ⟨available, ?_, meaning, last, rfl, tree.shape.ancestor_lt (tip_lt s) climbed, ⟨_, climbed⟩, ?_⟩
    · rw [← meaning s.tip, answer]
      decide
    · intro txin member counted height absent coin
      have under := coin_le coin
      have value : heightOf s txin = height := by rw [heightOf, absent, if_neg Bool.false_ne_true, coin, Option.getD_some]
      have kept := all _ (members txin member counted) (by omega)
      omega

end Answers

end Longcoin.SequenceLocks

import Longcoin.SequenceLocks

/-! Lock points that stay valid on another chain, against locks that are computed there anew. -/

namespace Longcoin.SequenceLocks
open Primitives Library ParentForest Chain Option Bool List Except

def Idle (txin : CTxIn) : Prop := if isTime txin then secondsOf txin = 0 else blocksOf txin = 0

/-- The lock of an input is not over in the block after a tip, for a coin of some height. -/
def Unmet (tree : Tree) (tip : Nat) (txin : CTxIn) (nCoinHeight : Nat) : Prop :=
  if isTime txin then tree.medianTimePast tip < timeAt tree tip (nCoinHeight - 1) + secondsOf txin
  else nHeight tree.mapBlockIndex tip + 1 < nCoinHeight + blocksOf txin

/-- The second tip is behind the first one, in the height or in the time, as the input counts. -/
def Behind (tree : Tree) (first second : Nat) (txin : CTxIn) : Prop :=
  if isTime txin then tree.medianTimePast second < tree.medianTimePast first
  else nHeight tree.mapBlockIndex second < nHeight tree.mapBlockIndex first

section Tips

variable {tree : Tree} {tip last : Nat} {txin : CTxIn} {height : Nat}

theorem bars_iff : (lockOf tree tip txin height).Bars tree tip ↔ Unmet tree tip txin height := by
  rw [lockOf, Unmet]
  split_ifs
  · rw [Lock.Bars]
    omega
  · rw [Lock.Bars]
    omega

theorem timeAt_eq (below : Ancestor (pprev tree.mapBlockIndex) last tip) (low : height ≤ nHeight tree.mapBlockIndex last) :
    timeAt tree tip height = timeAt tree last height := by
  obtain ⟨under, found⟩ := tree.shape.graded.ancestor_iff.mp below
  have split : nHeight tree.mapBlockIndex tip - height =
      nHeight tree.mapBlockIndex tip - nHeight tree.mapBlockIndex last + (nHeight tree.mapBlockIndex last - height) := by omega
  rw [timeAt, timeAt, split, followPprev, climb_add, found, bind_some]
  rfl

theorem lockOf_eq {tip' : Nat} (below : Ancestor (pprev tree.mapBlockIndex) last tip)
    (below' : Ancestor (pprev tree.mapBlockIndex) last tip') (low : height ≤ nHeight tree.mapBlockIndex last) :
    lockOf tree tip txin height = lockOf tree tip' txin height := by
  have lower : height - 1 ≤ nHeight tree.mapBlockIndex last := by omega
  rw [lockOf, lockOf, timeAt_eq below lower, timeAt_eq below' lower]

theorem timeAt_top : timeAt tree tip (nHeight tree.mapBlockIndex tip) = tree.medianTimePast tip := by
  rw [timeAt, Nat.sub_self]
  rfl

theorem timeAt_le (low : height ≤ nHeight tree.mapBlockIndex tip) : timeAt tree tip height ≤ tree.medianTimePast tip := by
  obtain ⟨pindex, found, -⟩ := tree.shape.followPprev_exists low
  rw [timeAt, found]
  exact tree.median pindex tip ⟨_, found⟩

theorem idle_of_free (free : ¬ (lockOf tree tip txin (nHeight tree.mapBlockIndex tip + 1)).Bars tree tip) : Idle txin := by
  rw [bars_iff, Unmet] at free
  rw [Idle]
  split_ifs with time
  · rw [if_pos time, Nat.add_sub_cancel, timeAt_top] at free
    omega
  · rw [if_neg time] at free
    omega

theorem Idle.bars_iff (idle : Idle txin) {tip' : Nat} :
    (lockOf tree tip txin (nHeight tree.mapBlockIndex tip + 1)).Bars tree tip' ↔ Behind tree tip tip' txin := by
  rw [Idle] at idle
  rw [lockOf, Behind, Nat.add_sub_cancel, timeAt_top]
  split_ifs at idle ⊢
  · rw [Lock.Bars, idle]
    omega
  · rw [Lock.Bars, idle]
    omega

theorem Idle.free (idle : Idle txin) (low : height ≤ nHeight tree.mapBlockIndex tip + 1) : ¬ (lockOf tree tip txin height).Bars tree tip := by
  have before := @timeAt_le tree tip (height - 1) (by omega)
  rw [SequenceLocks.bars_iff, Unmet]
  rw [Idle] at idle
  split_ifs at idle ⊢ <;> omega

end Tips

section States

variable {tree : Tree} {accepted later : ChainState tree} {tx : CTransaction} {flags last : Nat} {txin : CTxIn}

theorem coin_kept (below : Ancestor (pprev tree.mapBlockIndex) last accepted.tip)
    (below' : Ancestor (pprev tree.mapBlockIndex) last later.tip) {height : Nat} (coin : accepted.pcoinsTip txin.prevout.hash = some height)
    (low : height ≤ nHeight tree.mapBlockIndex last) (there : (getCoins later txin.prevout.hash).isSome = true) :
    heightOf later txin = height := by
  obtain ⟨pindex, on, rfl, inside⟩ := accepted.confirmed _ _ coin
  have on' := below'.trans (tree.shape.graded.ancestor_of_le on below low)
  have absent : later.mempool txin.prevout.hash = false := by
    rw [← Bool.not_eq_true]
    exact fun pool => later.unconfirmed _ pool pindex on' inside
  rw [getCoins, absent, if_neg Bool.false_ne_true] at there
  obtain ⟨height', coin'⟩ := Option.isSome_iff_exists.mp there
  obtain ⟨pindex', on'', rfl, inside'⟩ := later.confirmed _ _ coin'
  rw [heightOf, absent, if_neg Bool.false_ne_true, coin', Option.getD_some, tree.once later.tip pindex' pindex _ on'' on' inside' inside]

/-- An input that was confirmed has a lock that is not over on the later chain. -/
def ConfirmedUnmet (accepted later : ChainState tree) (tx : CTransaction) : Prop :=
  ∃ txin ∈ tx.vin, counts txin = true ∧ accepted.mempool txin.prevout.hash = false ∧
    ∃ height, accepted.pcoinsTip txin.prevout.hash = some height ∧ Unmet tree later.tip txin height

/-- An input that was in the mempool counts in what the later tip is behind in. -/
def PooledBehind (accepted later : ChainState tree) (tx : CTransaction) : Prop :=
  ∃ txin ∈ tx.vin, counts txin = true ∧ accepted.mempool txin.prevout.hash = true ∧ Behind tree accepted.tip later.tip txin

theorem bars_confirmed (below : Ancestor (pprev tree.mapBlockIndex) last accepted.tip)
    (below' : Ancestor (pprev tree.mapBlockIndex) last later.tip) {height : Nat} (absent : accepted.mempool txin.prevout.hash = false)
    (coin : accepted.pcoinsTip txin.prevout.hash = some height) (low : height ≤ nHeight tree.mapBlockIndex last)
    (there : (getCoins later txin.prevout.hash).isSome = true) :
    ((lockOf tree accepted.tip txin (heightOf accepted txin)).Bars tree later.tip ↔ Unmet tree later.tip txin height) ∧
      ((lockOf tree later.tip txin (heightOf later txin)).Bars tree later.tip ↔ Unmet tree later.tip txin height) := by
  have here : heightOf accepted txin = height := by rw [heightOf, absent, if_neg Bool.false_ne_true, coin, Option.getD_some]
  rw [here, coin_kept below below' coin low there, lockOf_eq below below' low, bars_iff]
  exact ⟨Iff.rfl, Iff.rfl⟩

theorem bars_pooled (pool : accepted.mempool txin.prevout.hash = true)
    (free : ¬ (lockOf tree accepted.tip txin (heightOf accepted txin)).Bars tree accepted.tip) :
    ((lockOf tree accepted.tip txin (heightOf accepted txin)).Bars tree later.tip ↔ Behind tree accepted.tip later.tip txin) ∧
      ¬ (lockOf tree later.tip txin (heightOf later txin)).Bars tree later.tip := by
  have here : heightOf accepted txin = nHeight tree.mapBlockIndex accepted.tip + 1 := by rw [heightOf, pool, if_pos rfl]
  rw [here] at free ⊢
  have idle := idle_of_free free
  exact ⟨idle.bars_iff, idle.free (heightOf_le later txin)⟩

/-- What is known when lock points are valid: the last block with a confirmed input that counts is on both chains. -/
structure Carried (accepted later : ChainState tree) (tx : CTransaction) (flags last : Nat) : Prop where
  enforced : enforceBIP68 tx flags = true
  present : Available accepted tx
  available : Available later tx
  free : ¬ Barred accepted tx flags accepted.tip
  below : Ancestor (pprev tree.mapBlockIndex) last accepted.tip
  below' : Ancestor (pprev tree.mapBlockIndex) last later.tip
  confirmed : ∀ txin ∈ tx.vin, counts txin = true → ∀ height, accepted.mempool txin.prevout.hash = false →
    accepted.pcoinsTip txin.prevout.hash = some height → height ≤ nHeight tree.mapBlockIndex last

namespace Carried

variable (carried : Carried accepted later tx flags last)

include carried in
theorem kinds (member : txin ∈ tx.vin) (counted : counts txin = true) :
    (accepted.mempool txin.prevout.hash = true ∧ ¬ (lockOf tree accepted.tip txin (heightOf accepted txin)).Bars tree accepted.tip) ∨
    ∃ height, accepted.mempool txin.prevout.hash = false ∧ accepted.pcoinsTip txin.prevout.hash = some height ∧
      ((lockOf tree accepted.tip txin (heightOf accepted txin)).Bars tree later.tip ↔ Unmet tree later.tip txin height) ∧
      ((lockOf tree later.tip txin (heightOf later txin)).Bars tree later.tip ↔ Unmet tree later.tip txin height) := by
  cases pool : accepted.mempool txin.prevout.hash with
  | true => exact .inl ⟨rfl, fun bars => carried.free ⟨carried.enforced, txin, member, counted, bars⟩⟩
  | false =>
    have there := carried.present txin member
    rw [getCoins, pool, if_neg Bool.false_ne_true] at there
    obtain ⟨height, coin⟩ := isSome_iff_exists.mp there
    have low := carried.confirmed txin member counted height pool coin
    exact .inr ⟨height, rfl, coin, bars_confirmed carried.below carried.below' pool coin low (carried.available txin member)⟩

include carried in
theorem stored_iff : Barred accepted tx flags later.tip ↔ ConfirmedUnmet accepted later tx ∨ PooledBehind accepted later tx := by
  constructor
  · rintro ⟨-, txin, member, counted, bars⟩
    rcases carried.kinds member counted with ⟨pool, unbarred⟩ | ⟨height, absent, coin, before, -⟩
    · exact .inr ⟨txin, member, counted, pool, (@bars_pooled _ _ later _ pool unbarred).1.mp bars⟩
    · exact .inl ⟨txin, member, counted, absent, height, coin, before.mp bars⟩
  · rintro (⟨txin, member, counted, absent, height, coin, unmet⟩ | ⟨txin, member, counted, pool, behind⟩)
    · have low := carried.confirmed txin member counted height absent coin
      have both := bars_confirmed carried.below carried.below' absent coin low (carried.available txin member)
      exact ⟨carried.enforced, txin, member, counted, both.1.mpr unmet⟩
    · have unbarred : ¬ (lockOf tree accepted.tip txin (heightOf accepted txin)).Bars tree accepted.tip :=
        fun bars => carried.free ⟨carried.enforced, txin, member, counted, bars⟩
      exact ⟨carried.enforced, txin, member, counted, (bars_pooled pool unbarred).1.mpr behind⟩

include carried in
theorem fresh_iff : Barred later tx flags later.tip ↔ ConfirmedUnmet accepted later tx := by
  constructor
  · rintro ⟨-, txin, member, counted, bars⟩
    rcases carried.kinds member counted with ⟨pool, unbarred⟩ | ⟨height, absent, coin, -, after⟩
    · exact absurd bars (bars_pooled pool unbarred).2
    · exact ⟨txin, member, counted, absent, height, coin, after.mp bars⟩
  · rintro ⟨txin, member, counted, absent, height, coin, unmet⟩
    have low := carried.confirmed txin member counted height absent coin
    have both := bars_confirmed carried.below carried.below' absent coin low (carried.available txin member)
    exact ⟨carried.enforced, txin, member, counted, both.2.mpr unmet⟩

end Carried

/-- The lock points decide as the locks do that are computed anew if and only if BIP 68 does not apply, a confirmed input
keeps the transaction out anyway, or the later tip is not behind in anything that an unconfirmed input counts in. -/
theorem lockPoints_iff {old lp : LockPoints} (stored : checkSequenceLocks accepted tx flags (some old) false = .ok (true, some lp))
    (valid : testLockPointValidity later lp = .ok true) (available : Available later tx) :
    ∃ cached fresh, checkSequenceLocks later tx flags (some lp) true = .ok (cached, some lp) ∧
      checkSequenceLocks later tx flags none false = .ok (fresh, none) ∧
      (cached = fresh ↔ enforceBIP68 tx flags = true → ConfirmedUnmet accepted later tx ∨ ¬ PooledBehind accepted later tx) := by
  obtain ⟨present, free, meaning, last, same, inside, below, confirmed⟩ := stored_spec stored
  obtain ⟨fresh, done, fresh_iff⟩ := fresh_spec flags available
  have below' : Ancestor (pprev tree.mapBlockIndex) last later.tip := by
    rw [testLockPointValidity, same] at valid
    obtain ⟨answer, asked, inChain⟩ := later.path.contains_eq tree.shape inside
    dsimp only at valid
    rw [asked] at valid
    obtain ⟨top, here, on⟩ := inChain.mp (ok.inj valid)
    exact some.inj here ▸ on
  have cached_iff := meaning later.tip
  refine ⟨evaluateSequenceLocks tree later.tip (lp.height, lp.time), fresh, rfl, done, ?_⟩
  have equal : evaluateSequenceLocks tree later.tip (lp.height, lp.time) = fresh ↔
      (Barred accepted tx flags later.tip ↔ Barred later tx flags later.tip) := by
    rw [← cached_iff, ← fresh_iff]
    generalize evaluateSequenceLocks tree later.tip (lp.height, lp.time) = cached
    cases cached <;> cases fresh <;> decide
  rw [equal]
  by_cases enforced : enforceBIP68 tx flags = true
  · have carried : Carried accepted later tx flags last := ⟨enforced, present, available, free, below, below', confirmed⟩
    rw [carried.stored_iff, carried.fresh_iff]
    constructor
    · intro both _
      by_cases behind : PooledBehind accepted later tx
      · exact .inl (both.mp (.inr behind))
      · exact .inr behind
    · intro either
      refine ⟨fun barred => barred.elim id fun behind => ?_, .inl⟩
      exact (either enforced).resolve_right (not_not.mpr behind)
  · exact ⟨fun _ yes => absurd yes enforced, fun _ => ⟨fun barred => absurd barred.1 enforced, fun barred => absurd barred.1 enforced⟩⟩

end States

def branchTime (pindex : Nat) : Nat := 600 * nHeight branches pindex

def branchTransactions (pindex : Nat) : List Uint256 := if pindex < 4 then [BitVec.ofNat 256 (100 + pindex)] else []

theorem branches_shape : WellFormed branches := WellFormed.empty.of_built branches_built

theorem branches_ancestor {first second : Nat} (below : Ancestor (pprev branches) first second) :
    first = second ∨ (first < 4 ∧ second < 4 ∧ nHeight branches first ≤ nHeight branches second) := by
  by_cases inside : second < 4
  · exact .inr ⟨branches_shape.ancestor_lt inside (branches_shape.graded.ancestor_iff.mp below).2, inside,
      branches_shape.graded.height_le below⟩
  · rcases Ancestor.cases_parent.mp below with same | ⟨above, up, -⟩
    · exact .inl same
    · rw [pprev, getElem?_eq_none (not_lt.mp inside)] at up
      cases up

theorem branchTransactions_one {first second : Nat} {hash : Uint256} (one : hash ∈ branchTransactions first)
    (two : hash ∈ branchTransactions second) : first = second := by
  have distinct : ∀ first < 4, ∀ second < 4, BitVec.ofNat 256 (100 + first) = BitVec.ofNat 256 (100 + second) → first = second := by
    decide
  rw [branchTransactions] at one two
  split_ifs at one two with low low'
  · rw [mem_singleton] at one two
    exact distinct first low second low' (one.symm.trans two)
  · cases two
  · cases one
  · cases one

theorem branchTime_median : ∀ first < 4, ∀ second < 4, nHeight branches first ≤ nHeight branches second →
    getMedianTimePast branches branchTime first ≤ getMedianTimePast branches branchTime second := by
  decide

def branchTree : Tree where
  mapBlockIndex := branches
  nTime := branchTime
  vtx := branchTransactions
  shape := branches_shape
  small := by decide
  once := fun _ _ _ _ _ _ => branchTransactions_one
  median := by
    intro first second below
    rcases branches_ancestor below with rfl | ⟨low, low', order⟩
    · exact le_rfl
    · exact branchTime_median first low second low' order

/-- The state with a tip on the first branch and one transaction in the mempool. -/
def pooledState (tip : Nat) (chainActive : VChain) (path : Path branches (some tip) chainActive) : ChainState branchTree where
  tip := tip
  chainActive := chainActive
  mempool := fun txid => txid == 50
  pcoinsTip := fun _ => none
  path := path
  confirmed := fun _ _ coin => by cases coin
  unconfirmed := by
    intro hash pool pindex _ inside
    have absent : ∀ pindex < 4, BitVec.ofNat 256 50 ≠ BitVec.ofNat 256 (100 + pindex) := by decide
    have inside : hash ∈ branchTransactions pindex := inside
    rw [branchTransactions] at inside
    split_ifs at inside with low
    · exact absent pindex low ((beq_iff_eq.mp pool).symm.trans (List.mem_singleton.mp inside))
    · exact absurd inside List.not_mem_nil

def higherState : ChainState branchTree := pooledState 2 [some 0, some 1, some 2] branches_path

def lowerState : ChainState branchTree := pooledState 1 [some 0, some 1] (by unfold Chain.Path; decide)

/-- A transaction that spends the one in the mempool, with a lock of no blocks. -/
def idleChild : CTransaction := { hash := 60, nVersion := 2, vin := [{ prevout := ⟨50, 0⟩, nSequence := 0 }], vout := [] }

theorem idleChild_available (tip : Nat) (chainActive : VChain) (path : Path branches (some tip) chainActive) :
    Available (pooledState tip chainActive path) idleChild := by
  intro txin member
  rw [mem_singleton.mp member]
  rfl

theorem lockPoints_iff_higher : ∃ cached fresh,
    checkSequenceLocks higherState idleChild LOCKTIME_VERIFY_SEQUENCE (some ⟨1, -1, some 0⟩) true = .ok (cached, some ⟨1, -1, some 0⟩) ∧
      checkSequenceLocks higherState idleChild LOCKTIME_VERIFY_SEQUENCE none false = .ok (fresh, none) ∧
      (cached = fresh ↔ enforceBIP68 idleChild LOCKTIME_VERIFY_SEQUENCE = true →
        ConfirmedUnmet lowerState higherState idleChild ∨ ¬ PooledBehind lowerState higherState idleChild) :=
  @lockPoints_iff _ lowerState higherState idleChild LOCKTIME_VERIFY_SEQUENCE ⟨0, 0, none⟩ ⟨1, -1, some 0⟩ rfl rfl
    (idleChild_available _ _ _)

/-- After the tip is taken off the chain the lock points hold the transaction back, which the locks anew do not. -/
theorem lockPoints_stale : ¬ ∀ (tree : Tree) (accepted later : ChainState tree) (tx : CTransaction) (flags : Nat) (old lp : LockPoints),
    checkSequenceLocks accepted tx flags (some old) false = .ok (true, some lp) → testLockPointValidity later lp = .ok true →
    Available later tx → ∃ answer, checkSequenceLocks later tx flags (some lp) true = .ok (answer, some lp) ∧
      checkSequenceLocks later tx flags none false = .ok (answer, none) := by
  intro every
  obtain ⟨answer, cached, fresh⟩ := every branchTree higherState lowerState idleChild LOCKTIME_VERIFY_SEQUENCE ⟨0, 0, none⟩
    ⟨2, -1, some 0⟩ rfl rfl (idleChild_available _ _ _)
  have no : checkSequenceLocks lowerState idleChild LOCKTIME_VERIFY_SEQUENCE (some ⟨2, -1, some 0⟩) true =
      .ok (false, some ⟨2, -1, some 0⟩) := rfl
  have yes : checkSequenceLocks lowerState idleChild LOCKTIME_VERIFY_SEQUENCE none false = .ok (true, none) := rfl
  have one : answer = false := (congrArg Prod.fst (ok.inj (cached.symm.trans no)))
  have two : answer = true := (congrArg Prod.fst (ok.inj (fresh.symm.trans yes)))
  exact false_ne_true (one.symm.trans two)

end Longcoin.SequenceLocks

import Longcoin.Validation
import Longcoin.Library.Bytes
import Longcoin.Library.Selection

/-! `CreateNewBlock` (`miner.cpp`): the loop that chooses the transactions of a block template from the
memory pool, and the coinbase that it ends with. -/

namespace Longcoin.Miner
open Primitives Validation Library.Bytes Library.Selection

structure CTxMemPoolEntry where
  tx : CTransaction
  nFee : CAmount
  feeDelta : CAmount
  nTxSize : Nat
  sigOpCount : Nat
deriving DecidableEq, Repr

def CTxMemPoolEntry.getModifiedFee (entry : CTxMemPoolEntry) : CAmount := entry.nFee + entry.feeDelta

/-- The bytes of a hash as `memcmp` compares them, the first one first. -/
def hashKey (hash : Uint256) : Nat := (littleBytes 32 hash.toNat).foldl (fun key byte => key * 256 + byte.toNat) 0

/-- `CompareTxMemPoolEntryByScore`. As long as the products are below 2^53 a `double` holds them exactly. -/
def compareByScore (a b : CTxMemPoolEntry) : Bool :=
  let f1 := a.getModifiedFee * b.nTxSize
  let f2 := b.getModifiedFee * a.nTxSize
  if f1 = f2 then decide (hashKey b.tx.hash < hashKey a.tx.hash) else decide (f1 > f2)

def scoreCompare (a b : CTxMemPoolEntry) : Bool := compareByScore b a

/-- `mapTx` in the order of its index by score, and the links between its entries. -/
structure CTxMemPool where
  byScore : List CTxMemPoolEntry
  getMemPoolParents : CTxMemPoolEntry → List CTxMemPoolEntry
  getMemPoolChildren : CTxMemPoolEntry → List CTxMemPoolEntry

/-- What `CreateNewBlock` reads; a priority is a `double`, of which only comparisons matter. `nSatoshisPerK` is
that of `minRelayTxFee`. -/
structure Call (π : Type) where
  mempool : CTxMemPool
  argBlockMaxSize : Nat
  argBlockPrioritySize : Nat
  argBlockMinSize : Nat
  nSatoshisPerK : Nat
  /-- `GetPriority` with the deltas. -/
  priority : CTxMemPoolEntry → π
  pricomparer : π × CTxMemPoolEntry → π × CTxMemPoolEntry → Bool
  allowFree : π → Bool
  noPriority : π
  isFinalTx : CTransaction → Bool
  getBlockSubsidy : CAmount
  scriptSig : CScript
  scriptPubKeyIn : CScript
  coinbaseHash : CAmount → Uint256
  getLegacySigOpCount : CTransaction → Nat

def CTransaction.dummy : CTransaction := { hash := 0, vin := [], vout := [] }

/-- What is added up of the block. `inBlock` are the chosen entries, the latest first. -/
structure Chosen where
  vtx : List CTransaction
  vTxFees : List CAmount
  vTxSigOps : List Int
  inBlock : List CTxMemPoolEntry
  nBlockSize : Nat
  nBlockTx : Nat
  nBlockSigOps : Nat
  nFees : CAmount

/-- The entries that wait. `waitPriMap` and `waitSet` hold those with a parent that is not in the block. -/
structure Queues (π : Type) where
  vecPriority : List (π × CTxMemPoolEntry)
  waitPriMap : List (CTxMemPoolEntry × π)
  waitSet : List CTxMemPoolEntry
  clearedTxs : List CTxMemPoolEntry

/-- The local variables of the loop; `mi` is what is left of the index by score. -/
structure Selecting (π : Type) where
  block : Chosen
  queues : Queues π
  mi : List CTxMemPoolEntry
  fPriorityBlock : Bool
  actualPriority : π
  lastFewTxs : Nat

namespace Call

variable {π : Type}

/-- The argument is cut to an `unsigned int`. -/
def nBlockMaxSize (call : Call π) : Nat := max 1000 (min (MAX_BLOCK_SIZE - 1000) (call.argBlockMaxSize % 2 ^ 32))

def nBlockPrioritySize (call : Call π) : Nat := min call.nBlockMaxSize (call.argBlockPrioritySize % 2 ^ 32)

def nBlockMinSize (call : Call π) : Nat := min call.nBlockMaxSize (call.argBlockMinSize % 2 ^ 32)

/-- `minRelayTxFee.GetFee`. -/
def getFee (call : Call π) (nSize : Nat) : CAmount := (call.nSatoshisPerK * nSize / 1001 + 1 : Nat)

def initial (call : Call π) : Selecting π where
  block := {
    vtx := [CTransaction.dummy]
    vTxFees := [-1]
    vTxSigOps := [-1]
    inBlock := []
    nBlockSize := 1000
    nBlockTx := 0
    nBlockSigOps := 100
    nFees := 0 }
  queues := {
    vecPriority := if 0 < call.nBlockPrioritySize then call.mempool.byScore.map fun iter => (call.priority iter, iter) else []
    waitPriMap := []
    waitSet := []
    clearedTxs := [] }
  mi := call.mempool.byScore
  fPriorityBlock := decide (0 < call.nBlockPrioritySize)
  actualPriority := call.noPriority
  lastFewTxs := 0

/-- A child that was postponed, or else the next entry of the index. -/
def pickByScore (st : Selecting π) : Option (CTxMemPoolEntry × Selecting π) :=
  match takeMax scoreCompare st.queues.clearedTxs with
  | some (iter, clearedTxs) => some (iter, { st with queues := { st.queues with clearedTxs } })
  | none =>
      match st.mi with
      | [] => none
      | iter :: mi => some (iter, { st with mi })

/-- The front of the queue of the first part of the block. -/
def pickByPriority (call : Call π) (st : Selecting π) : Option (CTxMemPoolEntry × Selecting π) :=
  if st.fPriorityBlock then
    (takeMax call.pricomparer st.queues.vecPriority).map fun taken =>
      (taken.1.2, { st with queues := { st.queues with vecPriority := taken.2 }, actualPriority := taken.1.1 })
  else none

/-- The entry of the next turn, and whether it is one of high priority; nothing when the loop is over. -/
def pick (call : Call π) (st : Selecting π) : Option (Bool × CTxMemPoolEntry × Selecting π) :=
  if st.mi.isEmpty && st.queues.clearedTxs.isEmpty then none
  else ((call.pickByPriority st).map (true, ·)).or ((pickByScore st).map (false, ·))

/-- An entry with a parent that is not in the block yet. -/
def isOrphan (call : Call π) (block : Chosen) (iter : CTxMemPoolEntry) : Bool :=
  (call.mempool.getMemPoolParents iter).any fun parent => !block.inBlock.contains parent

end Call

variable {π : Type}

/-- `waitPriMap.insert` or `waitSet.insert`: what is there already stays. -/
def Queues.wait (queues : Queues π) (priorityTx : Bool) (actualPriority : π) (iter : CTxMemPoolEntry) : Queues π :=
  if priorityTx then
    if queues.waitPriMap.any fun waiting => waiting.1 == iter then queues
    else { queues with waitPriMap := (iter, actualPriority) :: queues.waitPriMap }
  else if queues.waitSet.contains iter then queues
  else { queues with waitSet := iter :: queues.waitSet }

/-- A child of the transaction that was added is queued again, if it waits. -/
def Queues.release (fPriorityBlock : Bool) (queues : Queues π) (child : CTxMemPoolEntry) : Queues π :=
  if fPriorityBlock then
    match queues.waitPriMap.find? fun waiting => waiting.1 == child with
    | none => queues
    | some wpiter =>
        { queues with
          vecPriority := (wpiter.2, child) :: queues.vecPriority
          waitPriMap := queues.waitPriMap.filter fun waiting => waiting.1 != child }
  else if queues.waitSet.contains child then
    { queues with
      clearedTxs := child :: queues.clearedTxs
      waitSet := queues.waitSet.filter (· != child) }
  else queues

def Chosen.add (block : Chosen) (iter : CTxMemPoolEntry) : Chosen where
  vtx := block.vtx ++ [iter.tx]
  vTxFees := block.vTxFees ++ [iter.nFee]
  vTxSigOps := block.vTxSigOps ++ [(iter.sigOpCount : Int)]
  inBlock := iter :: block.inBlock
  nBlockSize := block.nBlockSize + iter.nTxSize
  nBlockTx := block.nBlockTx + 1
  nBlockSigOps := block.nBlockSigOps + iter.sigOpCount
  nFees := block.nFees + iter.nFee

/-- How a turn ends: with a `break`, or with the state of the next one. -/
inductive Turn (π : Type) where
  | stop (st : Selecting π)
  | next (st : Selecting π)

namespace Call

def endPriority (call : Call π) (iter : CTxMemPoolEntry) (st : Selecting π) : Selecting π :=
  if st.fPriorityBlock &&
      (decide (st.block.nBlockSize + iter.nTxSize ≥ call.nBlockPrioritySize) || !call.allowFree st.actualPriority) then
    { st with fPriorityBlock := false, queues := { st.queues with waitPriMap := [] } }
  else st

def addToBlock (call : Call π) (iter : CTxMemPoolEntry) (st : Selecting π) : Selecting π :=
  { st with
    block := st.block.add iter
    queues := (call.mempool.getMemPoolChildren iter).foldl (Queues.release st.fPriorityBlock) st.queues }

/-- The limits of the block, and the transaction itself. -/
def tryAdd (call : Call π) (iter : CTxMemPoolEntry) (st : Selecting π) : Turn π :=
  if st.block.nBlockSize + iter.nTxSize ≥ call.nBlockMaxSize then
    if st.block.nBlockSize > call.nBlockMaxSize - 100 ∨ st.lastFewTxs > 50 then .stop st
    else if st.block.nBlockSize > call.nBlockMaxSize - 1000 then .next { st with lastFewTxs := st.lastFewTxs + 1 }
    else .next st
  else if !call.isFinalTx iter.tx then .next st
  else if st.block.nBlockSigOps + iter.sigOpCount ≥ MAX_BLOCK_SIGOPS then
    if st.block.nBlockSigOps > MAX_BLOCK_SIGOPS - 2 then .stop st else .next st
  else .next (call.addToBlock iter st)

def consider (call : Call π) (priorityTx : Bool) (iter : CTxMemPoolEntry) (st : Selecting π) : Turn π :=
  if st.block.inBlock.contains iter then .next st
  else if call.isOrphan st.block iter then .next { st with queues := st.queues.wait priorityTx st.actualPriority iter }
  else
    let st := call.endPriority iter st
    if !priorityTx && (decide (iter.getModifiedFee < call.getFee iter.nTxSize) &&
        decide (st.block.nBlockSize ≥ call.nBlockMinSize)) then .stop st
    else call.tryAdd iter st

def loop (call : Call π) : Nat → Selecting π → Option (Selecting π)
  | 0, _ => none
  | fuel + 1, st =>
      match call.pick st with
      | none => some st
      | some (priorityTx, iter, st) =>
          match call.consider priorityTx iter st with
          | .stop st => some st
          | .next st => loop call fuel st

def coinbase (call : Call π) (nFees : CAmount) : CTransaction where
  hash := call.coinbaseHash nFees
  vin := [{ prevout := { hash := 0, n := 4294967295 }, scriptSig := call.scriptSig }]
  vout := [{ nValue := nFees + call.getBlockSubsidy, scriptPubKey := call.scriptPubKeyIn }]

end Call

structure CBlockTemplate where
  vtx : List CTransaction
  vTxFees : List CAmount
  vTxSigOps : List Int

/-- The end of `CreateNewBlock`: the dummies at the front are replaced. -/
def Call.template (call : Call π) (block : Chosen) : CBlockTemplate where
  vtx := block.vtx.set 0 (call.coinbase block.nFees)
  vTxFees := block.vTxFees.set 0 (-block.nFees)
  vTxSigOps := block.vTxSigOps.set 0 (call.getLegacySigOpCount (call.coinbase block.nFees))

/-- `CreateNewBlock`, with a bound on the turns of its loop: the chosen entries in order, and the template. -/
def createNewBlock (call : Call π) (fuel : Nat) : Option (List CTxMemPoolEntry × CBlockTemplate) :=
  (call.loop fuel call.initial).map fun st => (st.block.inBlock.reverse, call.template st.block)

end Longcoin.Miner

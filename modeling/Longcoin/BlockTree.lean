import Longcoin.Primitives
import Longcoin.Library.Ancestry
import Longcoin.Library.Outcome
import Mathlib.Data.List.MinMax
import Mathlib.Data.Prod.Lex

/-! The block index and the active chain (`main.cpp`, `chain.cpp`): accepting headers and blocks,
choosing the chain with the most work, and marking blocks invalid by hand. A `CBlockIndex` pointer is
the hash of its block, and the chain of its `pprev` pointers is the list of its ancestors. -/

namespace Longcoin.BlockTree
open Primitives Library List

/-- What the node is started with. `connects` is what `ConnectBlock` says of a block and its ancestors,
and `address` is where the entry of a block will lie in memory. -/
structure Params where
  hashGenesisBlock : Uint256
  connects : List Uint256 → Bool
  genesisConnects : connects [hashGenesisBlock] = true
  address : Uint256 ↪ Nat

/-- Entries that lie in memory in the order of their hashes. -/
def addressByHash : Uint256 ↪ Nat := ⟨BitVec.toNat, BitVec.toNat_injective⟩

/-- The globals, with one map for each field of `CBlockIndex`. Validity levels above
`BLOCK_VALID_TRANSACTIONS` are not told apart. `mapBlocksUnlinked` lists its pairs in the order of their
insertion, which `equal_range` keeps. -/
structure Node where
  mapBlockIndex : List Uint256
  address : Uint256 ↪ Nat
  ancestors : Uint256 → List Uint256
  nChainWork : Uint256 → Nat
  nTx : Uint256 → Nat
  nChainTx : Uint256 → Nat
  nSequenceId : Uint256 → Nat
  validTransactions : Uint256 → Bool
  haveData : Uint256 → Bool
  failedValid : Uint256 → Bool
  failedChild : Uint256 → Bool
  chainActive : List Uint256
  setBlockIndexCandidates : List Uint256
  mapBlocksUnlinked : List (Uint256 × Uint256)
  nBlockSequenceId : Nat

/-- Why a function of the chain code does not come to its end: a failed `assert`, a `return false`, or
a loop that is still running. -/
inductive Stop where
  | assertion
  | returnFalse
  | outOfFuel
deriving DecidableEq, Repr

namespace Node

def nHeight (s : Node) (pindex : Uint256) : Nat := (s.ancestors pindex).length

def pprev (s : Node) (pindex : Uint256) : Option Uint256 := (s.ancestors pindex).head?

def path (s : Node) (pindex : Uint256) : List Uint256 := Ancestry.path s.ancestors pindex

def tip (s : Node) : Option Uint256 := s.chainActive.head?

/-- `nStatus & BLOCK_FAILED_MASK`. -/
def failed (s : Node) (pindex : Uint256) : Bool := s.failedValid pindex || s.failedChild pindex

def isValidTree (s : Node) (pindex : Uint256) : Bool := !s.failed pindex

def isValidTransactions (s : Node) (pindex : Uint256) : Bool := !s.failed pindex && s.validTransactions pindex

/-- `CBlockIndexWorkComparator`. -/
def workLess (s : Node) (pa pb : Uint256) : Bool :=
  if s.nChainWork pa > s.nChainWork pb then false
  else if s.nChainWork pa < s.nChainWork pb then true
  else if s.nSequenceId pa < s.nSequenceId pb then false
  else if s.nSequenceId pa > s.nSequenceId pb then true
  else if s.address pa < s.address pb then false
  else if s.address pa > s.address pb then true
  else false

/-- The place of a block in the order of the comparator. -/
def key (s : Node) (pindex : Uint256) : Nat ×ₗ (Natᵒᵈ ×ₗ Natᵒᵈ) :=
  toLex (s.nChainWork pindex, toLex (OrderDual.toDual (s.nSequenceId pindex), OrderDual.toDual (s.address pindex)))

def eraseCandidate (s : Node) (pindex : Uint256) : Node :=
  { s with setBlockIndexCandidates := s.setBlockIndexCandidates.filter (· ≠ pindex) }

/-- `*setBlockIndexCandidates.rbegin()`. -/
def bestCandidate (s : Node) : Option Uint256 := s.setBlockIndexCandidates.argmax s.key

end Node

/-- A header that arrives, with the work it adds and what `CheckBlockHeader`, the checkpoints and
`ContextualCheckBlockHeader` say of it. -/
structure BlockHeader where
  hash : Uint256
  hashPrevBlock : Uint256
  blockProof : Nat
  checked : Bool
  positive : checked = true → 0 < blockProof

/-- What `CheckBlock` and `ContextualCheckBlock` say of a block. -/
inductive BlockCheck where
  | valid
  | invalid (corruptionPossible : Bool)
deriving DecidableEq

structure Block where
  header : BlockHeader
  nTx : Nat
  check : BlockCheck
  fRequested : Bool
  nonempty : check = .valid → 0 < nTx

def MIN_BLOCKS_TO_KEEP : Nat := 288

namespace Node

/-- `AddToBlockIndex` for a hash that is not in the index. -/
def addToBlockIndex (s : Node) (block : BlockHeader) : Node :=
  if block.hash ∈ s.mapBlockIndex then s
  else
    let hasPrev := decide (block.hashPrevBlock ∈ s.mapBlockIndex)
    { s with
      mapBlockIndex := block.hash :: s.mapBlockIndex
      ancestors := Function.update s.ancestors block.hash (if hasPrev then s.path block.hashPrevBlock else [])
      nChainWork := Function.update s.nChainWork block.hash
        ((if hasPrev then s.nChainWork block.hashPrevBlock else 0) + block.blockProof)
      nTx := Function.update s.nTx block.hash 0
      nChainTx := Function.update s.nChainTx block.hash 0
      nSequenceId := Function.update s.nSequenceId block.hash 0
      validTransactions := Function.update s.validTransactions block.hash false
      haveData := Function.update s.haveData block.hash false
      failedValid := Function.update s.failedValid block.hash false
      failedChild := Function.update s.failedChild block.hash false }

/-- `AcceptBlockHeader`: whether it returns true, and the index afterwards. -/
def acceptBlockHeader (P : Params) (s : Node) (block : BlockHeader) : Bool × Node :=
  if block.hash = P.hashGenesisBlock then (true, s.addToBlockIndex block)
  else if block.hash ∈ s.mapBlockIndex then (!s.failed block.hash, s)
  else if !block.checked then (false, s)
  else if block.hashPrevBlock ∉ s.mapBlockIndex then (false, s)
  else if s.failed block.hashPrevBlock then (false, s)
  else (true, s.addToBlockIndex block)

/-- A turn of the loop in `ReceivedBlockTransactions`: all ancestors of the block have their data. -/
def linkBlock (s : Node) (pindex : Uint256) : Node :=
  let s := { s with
    nChainTx := Function.update s.nChainTx pindex (((s.pprev pindex).map s.nChainTx).getD 0 + s.nTx pindex)
    nSequenceId := Function.update s.nSequenceId pindex s.nBlockSequenceId
    nBlockSequenceId := s.nBlockSequenceId + 1 }
  { s with setBlockIndexCandidates :=
      if s.tip.all fun tip => !s.workLess pindex tip then s.setBlockIndexCandidates.insert pindex
      else s.setBlockIndexCandidates }

/-- The queue of `ReceivedBlockTransactions`. Every turn takes one block out of the queue and moves
the blocks that waited for it in, so the bound is the number of blocks in both. -/
def linkQueue : Nat → Node → List Uint256 → Node
  | 0, s, _ => s
  | _ + 1, s, [] => s
  | bound + 1, s, pindex :: queue =>
      let s := s.linkBlock pindex
      let range := (s.mapBlocksUnlinked.filter fun pair => pair.1 = pindex).map Prod.snd
      linkQueue bound { s with mapBlocksUnlinked := s.mapBlocksUnlinked.filter fun pair => pair.1 ≠ pindex }
        (queue ++ range)

def receivedBlockTransactions (s : Node) (pindexNew : Uint256) (nTx : Nat) : Node :=
  let s := { s with
    nTx := Function.update s.nTx pindexNew nTx
    nChainTx := Function.update s.nChainTx pindexNew 0
    haveData := Function.update s.haveData pindexNew true
    validTransactions := Function.update s.validTransactions pindexNew
      (s.validTransactions pindexNew || !s.failed pindexNew) }
  match s.pprev pindexNew with
  | none => linkQueue (s.mapBlocksUnlinked.length + 1) s [pindexNew]
  | some pprev =>
      if s.nChainTx pprev ≠ 0 then linkQueue (s.mapBlocksUnlinked.length + 1) s [pindexNew]
      else if s.isValidTree pprev then { s with mapBlocksUnlinked := s.mapBlocksUnlinked ++ [(pprev, pindexNew)] }
      else s

/-- Why `AcceptBlock` leaves a block aside that it was not asked for. -/
def unwanted (s : Node) (pindex : Uint256) : Bool :=
  s.nTx pindex != 0 || !(s.tip.all fun tip => s.nChainWork pindex > s.nChainWork tip) ||
    (s.tip.any fun tip => s.nHeight pindex > s.nHeight tip + MIN_BLOCKS_TO_KEEP)

def acceptBlock (P : Params) (s : Node) (block : Block) : Node :=
  let (accepted, s) := s.acceptBlockHeader P block.header
  let pindex := block.header.hash
  if !accepted then s
  else if s.haveData pindex then s
  else if !block.fRequested && s.unwanted pindex then s
  else
    match block.check with
    | .invalid corruptionPossible =>
        if corruptionPossible then s else { s with failedValid := Function.update s.failedValid pindex true }
    | .valid => s.receivedBlockTransactions pindex block.nTx

/-- The blocks from a candidate down to the active chain, which are not known to be valid. -/
def untested (s : Node) (pindexNew : Uint256) : List Uint256 :=
  (s.path pindexNew).takeWhile (· ∉ s.chainActive)

def usable (s : Node) (pindex : Uint256) : Bool := !s.failed pindex && s.haveData pindex

/-- Takes the chain between a candidate and an unusable ancestor out of the candidates; `above` are
the blocks after `pindexTest`. -/
def removeChain (s : Node) (above : List Uint256) (pindexTest : Uint256) : Node :=
  { s with
    failedChild := fun pindex => s.failedChild pindex || (s.failed pindexTest && decide (pindex ∈ above))
    mapBlocksUnlinked :=
      if s.failed pindexTest then s.mapBlocksUnlinked
      else s.mapBlocksUnlinked ++ above.filterMap fun pindex => (s.pprev pindex).map (·, pindex)
    setBlockIndexCandidates := s.setBlockIndexCandidates.filter fun pindex => pindex ∉ pindexTest :: above }

/-- The `assert` of the walk down from a candidate. -/
def walkable (s : Node) (pindex : Uint256) : Bool := s.nChainTx pindex != 0 || s.nHeight pindex == 0

/-- `FindMostWorkChain`, with a bound on the turns of its loop. -/
def findMostWorkChain : Nat → Node → Except Stop (Node × Option Uint256)
  | 0, _ => .error .outOfFuel
  | fuel + 1, s =>
      match s.bestCandidate with
      | none => .ok (s, none)
      | some pindexNew =>
          let above := (s.untested pindexNew).takeWhile s.usable
          match (s.untested pindexNew).dropWhile s.usable with
          | [] => if above.all s.walkable then .ok (s, some pindexNew) else .error .assertion
          | pindexTest :: _ =>
              if (above ++ [pindexTest]).all s.walkable then findMostWorkChain fuel (s.removeChain above pindexTest)
              else .error .assertion

/-- `PruneBlockIndexCandidates`. -/
def pruneBlockIndexCandidates (s : Node) : Except Stop Node :=
  let candidates := s.setBlockIndexCandidates.filter fun pindex => !(s.tip.any fun tip => s.workLess pindex tip)
  if candidates.isEmpty then .error .assertion else .ok { s with setBlockIndexCandidates := candidates }

/-- `ConnectTip`: whether the block connects; if not, `InvalidBlockFound` marks it. -/
def connectTip (P : Params) (s : Node) (pindexNew : Uint256) : Except Stop (Bool × Node) :=
  if s.pprev pindexNew ≠ s.tip then .error .assertion
  else if P.connects (s.path pindexNew) then .ok (true, { s with chainActive := s.path pindexNew })
  else .ok (false, eraseCandidate { s with failedValid := Function.update s.failedValid pindexNew true } pindexNew)

/-- The blocks of `vpindexToConnect` in order, and whether to go on after them. -/
def connectBlocks (P : Params) (oldWork : Option Nat) : Node → List Uint256 → Except Stop (Bool × Node)
  | s, [] => .ok (true, s)
  | s, pindexConnect :: rest => do
      let (connected, s) ← s.connectTip P pindexConnect
      if !connected then return (false, s)
      else do
        let s ← s.pruneBlockIndexCandidates
        if oldWork.all fun work => s.nChainWork pindexConnect > work then return (false, s)
        else connectBlocks P oldWork s rest

/-- The loop of `ActivateBestChainStep` over batches of 32 blocks; `todo` are the blocks that are left. -/
def connectBatches (P : Params) (oldWork : Option Nat) : Nat → Node → List Uint256 → Except Stop Node
  | 0, s, _ => .ok s
  | batches + 1, s, todo => do
      let (fContinue, s) ← connectBlocks P oldWork s (todo.take 32)
      if fContinue then connectBatches P oldWork batches s (todo.drop 32) else return s

/-- `chainActive.FindFork`. -/
def findFork (s : Node) (pindex : Uint256) : Option Uint256 := (s.path pindex).find? (· ∈ s.chainActive)

/-- `ActivateBestChainStep`. Without a fork point the genesis block would have to be disconnected, which fails. -/
def activateBestChainStep (P : Params) (s : Node) (pindexMostWork : Uint256) : Except Stop Node :=
  let oldWork := s.tip.map s.nChainWork
  let pindexFork := s.findFork pindexMostWork
  let vpindexToConnect := (s.untested pindexMostWork).reverse
  if pindexFork.isNone && !s.chainActive.isEmpty then .error .returnFalse
  else
    connectBatches P oldWork ((vpindexToConnect.length + 31) / 32)
      { s with chainActive := s.chainActive.dropWhile (some · ≠ pindexFork) } vpindexToConnect

/-- `ActivateBestChain`, with a bound on the turns of its loops. -/
def activateBestChain (P : Params) : Nat → Node → Except Stop Node
  | 0, _ => .error .outOfFuel
  | fuel + 1, s => do
      let (s, found) ← s.findMostWorkChain (fuel + 1)
      match found with
      | none => return s
      | some pindexMostWork =>
          if s.tip = some pindexMostWork then return s
          else do
            let s ← s.activateBestChainStep P pindexMostWork
            if s.tip = some pindexMostWork then return s else activateBestChain P fuel s

/-- The loop of `InvalidateBlock`: takes blocks off the active chain until `pindex` is off it. It
stops with false at the genesis block, which cannot be disconnected. -/
def invalidateLoop : Nat → Node → Uint256 → Bool × Node
  | 0, s, _ => (true, s)
  | blocks + 1, s, pindex =>
      if pindex ∈ s.chainActive then
        match s.chainActive with
        | [] => (true, s)
        | pindexWalk :: rest =>
            let s := eraseCandidate { s with failedChild := Function.update s.failedChild pindexWalk true } pindexWalk
            if rest.isEmpty then (false, s) else invalidateLoop blocks { s with chainActive := rest } pindex
      else (true, s)

def invalidateBlock (s : Node) (pindex : Uint256) : Node :=
  let s := eraseCandidate { s with failedValid := Function.update s.failedValid pindex true } pindex
  let (disconnected, s) := invalidateLoop s.chainActive.length s pindex
  if !disconnected then s
  else { s with setBlockIndexCandidates := s.setBlockIndexCandidates ++ s.mapBlockIndex.filter fun other =>
    s.isValidTransactions other && s.nChainTx other != 0 && s.tip.all (fun tip => !s.workLess other tip) &&
      other ∉ s.setBlockIndexCandidates }

/-- `GetAncestor(nHeight) == pindex`, asked of another block. -/
def isDescendant (s : Node) (pindex other : Uint256) : Bool := pindex ∈ s.path other

/-- `ReconsiderBlock`: one pass over the index for the block and its descendants, then up its ancestors. -/
def reconsiderBlock (s : Node) (pindex : Uint256) : Node :=
  let cleared (other : Uint256) : Bool :=
    other ∈ s.mapBlockIndex && !s.isValidTransactions other && s.isDescendant pindex other
  let reinserted (other : Uint256) : Bool :=
    cleared other && s.validTransactions other && s.nChainTx other != 0 && s.tip.any fun tip => s.workLess tip other
  { s with
    failedValid := fun other => s.failedValid other && !cleared other && other ∉ s.path pindex
    failedChild := fun other => s.failedChild other && !cleared other && other ∉ s.path pindex
    setBlockIndexCandidates := s.setBlockIndexCandidates ++ s.mapBlockIndex.filter fun other =>
      reinserted other && other ∉ s.setBlockIndexCandidates }

/-- After `InitBlockIndex`: the genesis block is stored and active. -/
def initBlockIndex (P : Params) (blockProof : Nat) : Node where
  mapBlockIndex := [P.hashGenesisBlock]
  address := P.address
  ancestors _ := []
  nChainWork _ := blockProof
  nTx _ := 1
  nChainTx pindex := if pindex = P.hashGenesisBlock then 1 else 0
  nSequenceId pindex := if pindex = P.hashGenesisBlock then 1 else 0
  validTransactions pindex := pindex = P.hashGenesisBlock
  haveData pindex := pindex = P.hashGenesisBlock
  failedValid _ := false
  failedChild _ := false
  chainActive := [P.hashGenesisBlock]
  setBlockIndexCandidates := [P.hashGenesisBlock]
  mapBlocksUnlinked := []
  nBlockSequenceId := 2

theorem workLess_iff (s : Node) (pa pb : Uint256) : s.workLess pa pb = true ↔ s.key pa < s.key pb := by
  simp only [key, Prod.Lex.toLex_lt_toLex, OrderDual.toDual_lt_toDual, OrderDual.toDual_inj]
  unfold workLess
  split_ifs <;> simp only [false_iff, true_iff] <;> omega

theorem not_workLess_iff (s : Node) (pa pb : Uint256) : s.workLess pa pb = false ↔ s.key pb ≤ s.key pa := by
  rw [← not_lt, ← workLess_iff, Bool.not_eq_true]

theorem nChainWork_le_of_key {s : Node} {pa pb : Uint256} (below : s.key pa ≤ s.key pb) :
    s.nChainWork pa ≤ s.nChainWork pb := by
  by_contra above
  rw [not_le] at above
  have other : s.key pb < s.key pa := by
    rw [key, key, Prod.Lex.toLex_lt_toLex]
    exact .inl above
  exact absurd below (not_le_of_gt other)

theorem key_lt_of_nChainWork {s : Node} {pa pb : Uint256} (below : s.nChainWork pa < s.nChainWork pb) :
    s.key pa < s.key pb := by
  rw [key, key, Prod.Lex.toLex_lt_toLex]
  exact .inl below

theorem bestCandidate_some {s : Node} {best : Uint256} (found : s.bestCandidate = some best) :
    best ∈ s.setBlockIndexCandidates ∧ ∀ other ∈ s.setBlockIndexCandidates, s.key other ≤ s.key best :=
  ⟨argmax_mem found, fun _ member => le_of_mem_argmax member found⟩

theorem bestCandidate_none {s : Node} (nothing : s.bestCandidate = none) : s.setBlockIndexCandidates = [] :=
  argmax_eq_none.mp nothing

end Node

end Longcoin.BlockTree

import Longcoin.ChainVector
import Longcoin.BlockDownload

/-! Which blocks to ask a peer for next (`main.cpp`): `ProcessBlockAvailability` and `FindNextBlocksToDownload`. -/

namespace Longcoin.DownloadWindow
open Primitives Library ParentForest Chain WellFormed List Option
open BlockDownload (NodeId Iterator)

def BLOCK_DOWNLOAD_WINDOW : Nat := 1024

def BLOCK_VALID_TREE : Nat := 2

def BLOCK_VALID_MASK : Nat := 7

def BLOCK_HAVE_DATA : Nat := 8

def BLOCK_FAILED_MASK : Nat := 96

/-- The other fields of a `CBlockIndex` that are read here. -/
structure BlockFields where
  nChainWork : Nat
  nTx : Nat
  nChainTx : Nat
  nStatus : Nat

namespace BlockFields

def isValid (block : BlockFields) (nUpTo : Nat) : Bool :=
  if block.nStatus &&& BLOCK_FAILED_MASK ≠ 0 then false else decide (block.nStatus &&& BLOCK_VALID_MASK ≥ nUpTo)

def haveData (block : BlockFields) : Bool := block.nStatus &&& BLOCK_HAVE_DATA != 0

end BlockFields

/-- The blocks in memory and the active chain, with a tip. `nChainTx` is set only where the transactions of the block and
of all its ancestors have been received, as `CheckBlockIndex` asserts. -/
structure Tree where
  mapBlockIndex : Index
  fields : Nat → BlockFields
  chainActive : VChain
  tip : Nat
  shape : WellFormed mapBlockIndex
  single : SingleRooted mapBlockIndex
  path : Path mapBlockIndex (some tip) chainActive
  received : ∀ pindex other, (fields pindex).nChainTx ≠ 0 → Ancestor (pprev mapBlockIndex) other pindex → (fields other).nTx ≠ 0

structure CNodeState where
  pindexBestKnownBlock : Option Nat
  hashLastUnknownBlock : Uint256
  pindexLastCommonBlock : Option Nat

def processBlockAvailability (tree : Tree) (state : CNodeState) : CNodeState :=
  if state.hashLastUnknownBlock ≠ 0 then
    match find tree.mapBlockIndex state.hashLastUnknownBlock with
    | some itOld =>
        if (tree.fields itOld).nChainWork > 0 then
          { state with
            pindexBestKnownBlock :=
              match state.pindexBestKnownBlock with
              | some best => if (tree.fields itOld).nChainWork ≥ (tree.fields best).nChainWork then some itOld else some best
              | none => some itOld
            hashLastUnknownBlock := 0 }
        else state
    | none => state
  else state

/-- The peer, how many blocks are wanted of it, and what is in flight from all peers. -/
structure Request where
  nodeid : NodeId
  count : Nat
  mapBlocksInFlight : FiniteMap Uint256 (NodeId × Iterator)

structure Scan where
  pindexLastCommonBlock : Nat
  vBlocks : List Nat
  waitingfor : NodeId
  nodeStaller : NodeId

/-- The body of the loop over `vToFetch`, which returns from the function or goes on. -/
def visit (tree : Tree) (request : Request) (nWindowEnd : Int) (s : Scan) (pindex : Nat) : Except Fault (ForInStep Scan) := do
  let block ← deref tree.mapBlockIndex (some pindex)
  if !(tree.fields pindex).isValid BLOCK_VALID_TREE then
    -- the chain that this peer is on is invalid
    return .done s
  let active ← contains tree.mapBlockIndex tree.chainActive pindex
  if (tree.fields pindex).haveData || active then
    return .yield (if (tree.fields pindex).nChainTx ≠ 0 then { s with pindexLastCommonBlock := pindex } else s)
  else
    match request.mapBlocksInFlight.find block.hash with
    | none =>
        if block.nHeight > nWindowEnd then
          return .done (if s.vBlocks.length = 0 ∧ s.waitingfor ≠ request.nodeid then { s with nodeStaller := s.waitingfor } else s)
        else if s.vBlocks.length + 1 = request.count then return .done { s with vBlocks := s.vBlocks ++ [pindex] }
        else return .yield { s with vBlocks := s.vBlocks ++ [pindex] }
    | some (peer, _) => return .yield (if s.waitingfor = -1 then { s with waitingfor := peer } else s)

def visitAll (tree : Tree) (request : Request) (nWindowEnd : Int) : List (Option Nat) → Scan → Except Fault (ForInStep Scan)
  | [], s => .ok (.yield s)
  | none :: _, _ => .error .badPointer
  | some pindex :: vToFetch, s => do
      match ← visit tree request nWindowEnd s pindex with
      | .done s => return .done s
      | .yield s => visitAll tree request nWindowEnd vToFetch s

/-- `vToFetch`, filled backwards: the block and that many ones before it. -/
def fillToFetch (index : Index) : Nat → Option Nat → List (Option Nat) → Except Fault (List (Option Nat))
  | 0, pindex, vToFetch => .ok (pindex :: vToFetch)
  | i + 1, pindex, vToFetch => do
      let block ← deref index pindex
      fillToFetch index i block.pprev (pindex :: vToFetch)

def toInt32 (n : Int) : Int := n.bmod (2 ^ 32)

/-- The loop over `pindexWalk`. -/
def walk (tree : Tree) (request : Request) (pindexBestKnownBlock : Nat) (nWindowEnd nMaxHeight : Int) :
    Nat → Option Nat → Scan → Except Fault Scan
  | bound, pindexWalk, s => do
      let block ← deref tree.mapBlockIndex pindexWalk
      if block.nHeight < nMaxHeight then
        match bound with
        | 0 => .error .endless
        | bound + 1 => do
            let nToFetch := min (nMaxHeight - block.nHeight) (max (toInt32 (request.count - s.vBlocks.length)) 128)
            let pindexWalk ← getAncestor tree.mapBlockIndex (some pindexBestKnownBlock) (block.nHeight + nToFetch)
            let vToFetch ← fillToFetch tree.mapBlockIndex (nToFetch - 1).toNat pindexWalk []
            match ← visitAll tree request nWindowEnd vToFetch s with
            | .done s => return s
            | .yield s => walk tree request pindexBestKnownBlock nWindowEnd nMaxHeight bound pindexWalk s
      else return s

/-- What the call leaves: the state of the peer, `vBlocks` and `nodeStaller`. -/
structure Outcome where
  state : CNodeState
  vBlocks : List Nat
  nodeStaller : NodeId

def updateLastCommonBlock (tree : Tree) (state : CNodeState) (pindexBestKnownBlock : Nat) : Except Fault (Option Nat) := do
  let best ← deref tree.mapBlockIndex (some pindexBestKnownBlock)
  let guess := match state.pindexLastCommonBlock with
    | none => tree.chainActive.get (min best.nHeight tree.chainActive.height)
    | some pindexLastCommonBlock => some pindexLastCommonBlock
  lastCommonAncestor tree.mapBlockIndex guess (some pindexBestKnownBlock)

def findNextBlocksToDownload (tree : Tree) (request : Request) (state : CNodeState) (nodeStaller : NodeId) : Except Fault Outcome :=
  if request.count = 0 then .ok ⟨state, [], nodeStaller⟩
  else
    let state := processBlockAvailability tree state
    match state.pindexBestKnownBlock, tree.chainActive.tip with
    | none, _ => .ok ⟨state, [], nodeStaller⟩
    | some _, none => .error .badPointer
    | some pindexBestKnownBlock, some tip =>
        -- nothing interesting if it has less work
        if (tree.fields pindexBestKnownBlock).nChainWork < (tree.fields tip).nChainWork then .ok ⟨state, [], nodeStaller⟩
        else do
          let pindexLastCommonBlock ← updateLastCommonBlock tree state pindexBestKnownBlock
          let state := { state with pindexLastCommonBlock }
          if pindexLastCommonBlock = some pindexBestKnownBlock then return ⟨state, [], nodeStaller⟩
          match pindexLastCommonBlock with
          | none => throw .badPointer
          | some common =>
              let block ← deref tree.mapBlockIndex (some common)
              let best ← deref tree.mapBlockIndex (some pindexBestKnownBlock)
              let nWindowEnd : Int := block.nHeight + BLOCK_DOWNLOAD_WINDOW
              let nMaxHeight : Int := min best.nHeight (nWindowEnd + 1)
              let s ← walk tree request pindexBestKnownBlock nWindowEnd nMaxHeight (nMaxHeight - block.nHeight).toNat (some common)
                ⟨common, [], -1, nodeStaller⟩
              return ⟨{ state with pindexLastCommonBlock := some s.pindexLastCommonBlock }, s.vBlocks, s.nodeStaller⟩

def hashOf (tree : Tree) (pindex : Nat) : Uint256 := (tree.mapBlockIndex[pindex]?.map (·.hash)).getD 0

def Active (tree : Tree) (pindex : Nat) : Prop := InChain tree.mapBlockIndex (some tree.tip) pindex

/-- The block is neither stored nor in the active chain nor in flight. -/
structure Missing (tree : Tree) (request : Request) (pindex : Nat) : Prop where
  noData : (tree.fields pindex).haveData = false
  inactive : ¬ Active tree pindex
  notInFlight : hashOf tree pindex ∉ request.mapBlocksInFlight.keys

/-- The block is on the way from the first block up to the second one, above the first. -/
structure OnPath (tree : Tree) (low best pindex : Nat) : Prop where
  ancestor : Ancestor (pprev tree.mapBlockIndex) pindex best
  above : nHeight tree.mapBlockIndex low < nHeight tree.mapBlockIndex pindex

structure InWindow (tree : Tree) (low best pindex : Nat) : Prop extends OnPath tree low best pindex where
  near : nHeight tree.mapBlockIndex pindex ≤ nHeight tree.mapBlockIndex low + BLOCK_DOWNLOAD_WINDOW

/-- The last common block stays, or moves up to a block below which everything has been received. -/
def Advanced (tree : Tree) (low best common : Nat) : Prop :=
  common = low ∨ (OnPath tree low best common ∧ (tree.fields common).nChainTx ≠ 0)

/-- What holds once the blocks up to a height are visited. -/
structure Scanned (tree : Tree) (request : Request) (low best height : Nat) (s : Scan) : Prop where
  order : s.vBlocks.Pairwise fun first second => nHeight tree.mapBlockIndex first < nHeight tree.mapBlockIndex second
  found : ∀ pindex ∈ s.vBlocks, InWindow tree low best pindex ∧ nHeight tree.mapBlockIndex pindex ≤ height ∧ Missing tree request pindex
  handled : ∀ pindex, InWindow tree low best pindex → nHeight tree.mapBlockIndex pindex ≤ height → Missing tree request pindex →
    pindex ∈ s.vBlocks
  fewer : s.vBlocks.length < request.count
  common : Advanced tree low best s.pindexLastCommonBlock

structure Found (tree : Tree) (request : Request) (low best : Nat) (s : Scan) : Prop where
  order : s.vBlocks.Pairwise fun first second => nHeight tree.mapBlockIndex first < nHeight tree.mapBlockIndex second
  found : ∀ pindex ∈ s.vBlocks, InWindow tree low best pindex ∧ Missing tree request pindex
  atMost : s.vBlocks.length ≤ request.count
  complete : s.vBlocks.length < request.count → ∀ pindex, InWindow tree low best pindex →
    (∀ other, OnPath tree low best other → nHeight tree.mapBlockIndex other ≤ nHeight tree.mapBlockIndex pindex →
      (tree.fields other).isValid BLOCK_VALID_TREE = true) → Missing tree request pindex → pindex ∈ s.vBlocks
  common : Advanced tree low best s.pindexLastCommonBlock

section Visit

variable {tree : Tree} {request : Request} {low best height pindex : Nat} {s : Scan}

theorem nHeight_le (below : OnPath tree low best pindex) : nHeight tree.mapBlockIndex pindex ≤ nHeight tree.mapBlockIndex best :=
  tree.shape.graded.height_le below.ancestor

theorem OnPath.unique {other : Nat} (one : OnPath tree low best pindex) (two : OnPath tree low best other)
    (same : nHeight tree.mapBlockIndex pindex = nHeight tree.mapBlockIndex other) : pindex = other :=
  tree.shape.graded.eq_of_ancestor one.ancestor two.ancestor same

theorem hashOf_eq {block : CBlockIndex} (here : tree.mapBlockIndex[pindex]? = some block) : hashOf tree pindex = block.hash := by
  rw [hashOf, here, map_some, getD_some]

namespace Scanned

variable (scanned : Scanned tree request low best height s)

include scanned in
theorem skip {s' : Scan} (below : OnPath tree low best pindex) (next : nHeight tree.mapBlockIndex pindex = height + 1)
    (same : s'.vBlocks = s.vBlocks) (common : Advanced tree low best s'.pindexLastCommonBlock)
    (present : ¬ Missing tree request pindex) : Scanned tree request low best (height + 1) s' := by
  refine ⟨same ▸ scanned.order, ?_, ?_, same ▸ scanned.fewer, common⟩
  · intro other member
    obtain ⟨inside, lower, missing⟩ := scanned.found other (same ▸ member)
    exact ⟨inside, by omega, missing⟩
  · intro other inside lower missing
    rw [same]
    refine scanned.handled other inside ?_ missing
    by_contra more
    have top : nHeight tree.mapBlockIndex other = nHeight tree.mapBlockIndex pindex := by omega
    exact present (inside.toOnPath.unique below top ▸ missing)

include scanned in
theorem append (inside : InWindow tree low best pindex) (next : nHeight tree.mapBlockIndex pindex = height + 1)
    (missing : Missing tree request pindex) :
    ((s.vBlocks ++ [pindex]).Pairwise fun first second => nHeight tree.mapBlockIndex first < nHeight tree.mapBlockIndex second) ∧
      (∀ other ∈ s.vBlocks ++ [pindex], InWindow tree low best other ∧ nHeight tree.mapBlockIndex other ≤ height + 1 ∧
        Missing tree request other) ∧
      ∀ other, InWindow tree low best other → nHeight tree.mapBlockIndex other ≤ height + 1 → Missing tree request other →
        other ∈ s.vBlocks ++ [pindex] := by
  refine ⟨?_, ?_, ?_⟩
  · rw [pairwise_append]
    refine ⟨scanned.order, pairwise_singleton _ _, fun other member last same => ?_⟩
    obtain ⟨-, lower, -⟩ := scanned.found other member
    rw [mem_singleton.mp same]
    omega
  · intro other member
    rcases mem_append.mp member with old | new
    · obtain ⟨before, lower, absent⟩ := scanned.found other old
      exact ⟨before, by omega, absent⟩
    · rw [mem_singleton.mp new]
      exact ⟨inside, next.le, missing⟩
  · intro other before lower absent
    by_cases old : nHeight tree.mapBlockIndex other ≤ height
    · exact mem_append_left _ (scanned.handled other before old absent)
    · have top : nHeight tree.mapBlockIndex other = nHeight tree.mapBlockIndex pindex := by omega
      rw [before.toOnPath.unique inside.toOnPath top]
      exact mem_append_right _ (mem_singleton_self _)

include scanned in
theorem finish (done : ∀ pindex, InWindow tree low best pindex → nHeight tree.mapBlockIndex pindex ≤ height) :
    Found tree request low best s := by
  refine ⟨scanned.order, ?_, scanned.fewer.le, ?_, scanned.common⟩
  · intro other member
    obtain ⟨inside, -, missing⟩ := scanned.found other member
    exact ⟨inside, missing⟩
  · intro _ other inside _ missing
    exact scanned.handled other inside (done other inside) missing

include scanned in
theorem stop (below : OnPath tree low best pindex) (next : nHeight tree.mapBlockIndex pindex = height + 1)
    (bad : (tree.fields pindex).isValid BLOCK_VALID_TREE = false) : Found tree request low best s := by
  refine ⟨scanned.order, ?_, scanned.fewer.le, ?_, scanned.common⟩
  · intro other member
    obtain ⟨inside, -, missing⟩ := scanned.found other member
    exact ⟨inside, missing⟩
  · intro _ other inside valid missing
    refine scanned.handled other inside ?_ missing
    by_contra more
    rw [valid pindex below (by omega)] at bad
    cases bad

end Scanned

/-- What a visit may leave: the end, or the same with one block more visited. -/
def Step (tree : Tree) (request : Request) (low best height : Nat) : ForInStep Scan → Prop
  | .done s => Found tree request low best s
  | .yield s => Scanned tree request low best height s

theorem visit_spec (scanned : Scanned tree request low best height s) (below : OnPath tree low best pindex)
    (next : nHeight tree.mapBlockIndex pindex = height + 1) (inside : pindex < tree.mapBlockIndex.length) :
    ∃ step, visit tree request (nHeight tree.mapBlockIndex low + BLOCK_DOWNLOAD_WINDOW) s pindex = .ok step ∧
      Step tree request low best (height + 1) step := by
  obtain ⟨block, here⟩ := exists_of_lt inside
  have value := nHeight_eq here
  have hash := hashOf_eq here
  obtain ⟨active, asked, meaning⟩ := tree.path.contains_eq tree.shape inside
  rw [visit, deref_eq here, asked]
  dsimp only [bind, Except.bind, pure, Except.pure]
  by_cases bad : (tree.fields pindex).isValid BLOCK_VALID_TREE = false
  · rw [bad, Bool.not_false, if_pos rfl]
    exact ⟨_, rfl, scanned.stop below next bad⟩
  rw [Bool.not_eq_false] at bad
  rw [bad, Bool.not_true, if_neg Bool.false_ne_true]
  by_cases present : ((tree.fields pindex).haveData || active) = true
  · -- The block is there, so the last common block may move up.
    rw [if_pos present]
    have there : ¬ Missing tree request pindex := by
      intro missing
      rw [missing.noData, Bool.false_or] at present
      exact missing.inactive (meaning.mp present)
    refine ⟨_, rfl, ?_⟩
    by_cases linked : (tree.fields pindex).nChainTx ≠ 0
    · rw [if_pos linked]
      exact scanned.skip below next rfl (.inr ⟨below, linked⟩) there
    · rw [if_neg linked]
      exact scanned.skip below next rfl scanned.common there
  rw [if_neg present]
  rw [Bool.not_eq_true, Bool.or_eq_false_iff] at present
  have inactive : ¬ Active tree pindex := fun member => Bool.false_ne_true (present.2.symm.trans (meaning.mpr member))
  cases flight : request.mapBlocksInFlight.find block.hash with
  | some entry =>
    have there : ¬ Missing tree request pindex := fun missing => missing.notInFlight (hash ▸ FiniteMap.mem_of_find flight)
    refine ⟨_, rfl, scanned.skip below next ?_ ?_ there⟩
    · split_ifs <;> rfl
    · split_ifs <;> exact scanned.common
  | none =>
    have missing : Missing tree request pindex := ⟨present.1, inactive, hash ▸ FiniteMap.find_eq_none.mp flight⟩
    dsimp only
    by_cases beyond : (block.nHeight : Int) > nHeight tree.mapBlockIndex low + BLOCK_DOWNLOAD_WINDOW
    · rw [if_pos beyond]
      have done : ∀ other, InWindow tree low best other → nHeight tree.mapBlockIndex other ≤ height := by
        intro other window
        have near := window.near
        omega
      have kept := scanned.finish done
      refine ⟨_, rfl, ?_⟩
      split_ifs
      · exact { kept with }
      · exact kept
    · rw [if_neg beyond]
      obtain ⟨order, found, handled⟩ := scanned.append ⟨below, by omega⟩ next missing
      have fewer := scanned.fewer
      have size : (s.vBlocks ++ [pindex]).length = s.vBlocks.length + 1 := length_append
      by_cases full : s.vBlocks.length + 1 = request.count
      · rw [if_pos full]
        refine ⟨_, rfl, order, ?_, size.le.trans full.le, fun less => absurd (size.trans full) less.ne, scanned.common⟩
        exact fun other member => ⟨(found other member).1, (found other member).2.2⟩
      · rw [if_neg full]
        exact ⟨_, rfl, order, found, handled, size.trans_lt (by omega), scanned.common⟩

def blockAt (tree : Tree) (best height : Nat) : Option Nat :=
  followPprev tree.mapBlockIndex (nHeight tree.mapBlockIndex best - height) best

theorem blockAt_exists (high : height ≤ nHeight tree.mapBlockIndex best) (inside : best < tree.mapBlockIndex.length) :
    ∃ pindex, blockAt tree best height = some pindex ∧ nHeight tree.mapBlockIndex pindex = height ∧
      Ancestor (pprev tree.mapBlockIndex) pindex best ∧ pindex < tree.mapBlockIndex.length := by
  obtain ⟨pindex, found, level⟩ := tree.shape.followPprev_exists high
  exact ⟨pindex, found, level, ⟨_, found⟩, tree.shape.ancestor_lt inside found⟩

theorem visitAll_spec (count : Nat) (inside : best < tree.mapBlockIndex.length)
    (scanned : Scanned tree request low best height s) (above : nHeight tree.mapBlockIndex low ≤ height)
    (high : height + count ≤ nHeight tree.mapBlockIndex best) :
    ∃ step, visitAll tree request (nHeight tree.mapBlockIndex low + BLOCK_DOWNLOAD_WINDOW)
      ((range' (height + 1) count).map (blockAt tree best)) s = .ok step ∧ Step tree request low best (height + count) step := by
  induction count generalizing height s with
  | zero => exact ⟨_, rfl, scanned⟩
  | succ count ih =>
    obtain ⟨pindex, found, level, ancestor, there⟩ := @blockAt_exists tree best (height + 1) (by omega) inside
    obtain ⟨step, done, holds⟩ := visit_spec scanned ⟨ancestor, by omega⟩ level there
    rw [range'_succ, map_cons, found, visitAll, done]
    dsimp only [bind, Except.bind]
    cases step with
    | done s' => exact ⟨_, rfl, holds⟩
    | yield s' =>
      rw [Nat.add_comm count 1, ← Nat.add_assoc]
      exact ih holds (by omega) (by omega)

theorem fillToFetch_eq (i : Nat) (inside : best < tree.mapBlockIndex.length) (low : i ≤ height)
    (high : height ≤ nHeight tree.mapBlockIndex best) (vToFetch : List (Option Nat)) :
    fillToFetch tree.mapBlockIndex i (blockAt tree best height) vToFetch =
      .ok ((range' (height - i) (i + 1)).map (blockAt tree best) ++ vToFetch) := by
  induction i generalizing height vToFetch with
  | zero => rfl
  | succ i ih =>
    obtain ⟨pindex, found, level, -, there⟩ := blockAt_exists high inside
    obtain ⟨block, here⟩ := exists_of_lt there
    have up : block.pprev = blockAt tree best (height - 1) := by
      have one : nHeight tree.mapBlockIndex best - (height - 1) = nHeight tree.mapBlockIndex best - height + 1 := by omega
      rw [blockAt, followPprev, one, climb_succ]
      rw [blockAt, followPprev] at found
      rw [found, bind_some, pprev_eq here]
    have split : range' (height - (i + 1)) (i + 1 + 1) = range' (height - 1 - i) (i + 1) ++ [height] := by
      rw [range'_concat]
      congr 2 <;> omega
    rw [found, fillToFetch, deref_eq here]
    dsimp only [bind, Except.bind]
    rw [up, ih (by omega) (by omega), split, map_append, append_assoc, map_singleton, found]
    rfl

theorem walk_spec (bound : Nat) (nMaxHeight : Nat) (top : nMaxHeight = min (nHeight tree.mapBlockIndex best)
    (nHeight tree.mapBlockIndex low + BLOCK_DOWNLOAD_WINDOW + 1)) (inside : best < tree.mapBlockIndex.length)
    (walked : blockAt tree best height = some pindex) (high : height ≤ nMaxHeight)
    (above : nHeight tree.mapBlockIndex low ≤ height) (scanned : Scanned tree request low best height s)
    (enough : nMaxHeight ≤ height + bound) :
    ∃ s', walk tree request best (nHeight tree.mapBlockIndex low + BLOCK_DOWNLOAD_WINDOW) nMaxHeight bound (some pindex) s = .ok s' ∧
      Found tree request low best s' := by
  induction bound generalizing height pindex s with
  | zero =>
    obtain ⟨pindex', found, level, -, there⟩ := @blockAt_exists tree best height (by omega) inside
    obtain rfl : pindex' = pindex := some.inj (found.symm.trans walked)
    obtain ⟨block, here⟩ := exists_of_lt there
    have value := nHeight_eq here
    rw [walk, deref_eq here]
    dsimp only [bind, Except.bind, pure, Except.pure]
    rw [if_neg (by omega)]
    refine ⟨s, rfl, scanned.finish fun other window => ?_⟩
    have near := window.near
    have lower := nHeight_le window.toOnPath
    omega
  | succ bound ih =>
    obtain ⟨pindex', found, level, -, there⟩ := @blockAt_exists tree best height (by omega) inside
    obtain rfl : pindex' = pindex := some.inj (found.symm.trans walked)
    obtain ⟨block, here⟩ := exists_of_lt there
    have value := nHeight_eq here
    rw [walk, deref_eq here]
    dsimp only [bind, Except.bind, pure, Except.pure]
    by_cases more : (block.nHeight : Int) < nMaxHeight
    · rw [if_pos more]
      obtain ⟨count, fetched, positive⟩ : ∃ count : Nat, min ((nMaxHeight : Int) - block.nHeight)
          (max (toInt32 (request.count - s.vBlocks.length)) 128) = count ∧ 0 < count := by
        refine ⟨(min ((nMaxHeight : Int) - block.nHeight) (max (toInt32 (request.count - s.vBlocks.length)) 128)).toNat, ?_, ?_⟩
          <;> omega
      have bounded : height + count ≤ nMaxHeight := by omega
      obtain ⟨next, found', level', -, there'⟩ := @blockAt_exists tree best (height + count) (by omega) inside
      have lookup : getAncestor tree.mapBlockIndex (some best) (block.nHeight + count) = .ok (blockAt tree best (height + count)) := by
        rw [tree.shape.getAncestor_eq inside, if_pos (by omega), blockAt]
        congr 3
        omega
      have fill := @fillToFetch_eq tree best (height + count) (count - 1) inside (by omega) (by omega) []
      have first : height + count - (count - 1) = height + 1 := by omega
      have size : count - 1 + 1 = count := by omega
      have last : ((count : Int) - 1).toNat = count - 1 := by omega
      obtain ⟨step, done, holds⟩ := visitAll_spec count inside scanned above (by omega)
      rw [first, size, append_nil] at fill
      rw [fetched, lookup, last]
      dsimp only
      rw [fill]
      dsimp only
      rw [done]
      cases step with
      | done s' => exact ⟨s', rfl, holds⟩
      | yield s' =>
        dsimp only
        rw [found']
        exact ih found' bounded (by omega) holds (by omega)
    · rw [if_neg more]
      refine ⟨s, rfl, scanned.finish fun other window => ?_⟩
      have near := window.near
      have lower := nHeight_le window.toOnPath
      omega

end Visit

structure Known (tree : Tree) (state : CNodeState) : Prop where
  best : ∀ pindex ∈ state.pindexBestKnownBlock, pindex < tree.mapBlockIndex.length
  common : ∀ pindex ∈ state.pindexLastCommonBlock, pindex < tree.mapBlockIndex.length

/-- The last common block as it is updated at entry, from the one before or, if there is none, from an active block. -/
def AtEntry (tree : Tree) (state : CNodeState) (best low : Nat) : Prop := ∃ first, Meet (pprev tree.mapBlockIndex) first best low ∧
  (state.pindexLastCommonBlock = some first ∨ (state.pindexLastCommonBlock = none ∧ Active tree first))

/-- The blocks that the call appends, and the last common block that it leaves. -/
structure Downloads (tree : Tree) (request : Request) (low best common : Nat) (vBlocks : List Nat) : Prop where
  order : vBlocks.Pairwise fun first second => nHeight tree.mapBlockIndex first < nHeight tree.mapBlockIndex second
  distinct : vBlocks.Nodup
  atMost : vBlocks.length ≤ request.count
  found : ∀ pindex ∈ vBlocks, InWindow tree low best pindex ∧ Missing tree request pindex
  complete : vBlocks.length < request.count → ∀ pindex, InWindow tree low best pindex →
    (∀ other, OnPath tree low best other → nHeight tree.mapBlockIndex other ≤ nHeight tree.mapBlockIndex pindex →
      (tree.fields other).isValid BLOCK_VALID_TREE = true) →
    (tree.fields pindex).haveData = true ∨ Active tree pindex ∨ hashOf tree pindex ∈ request.mapBlocksInFlight.keys ∨ pindex ∈ vBlocks
  advances : common = low ∨ (OnPath tree low best common ∧ ∀ other, OnPath tree low best other →
    nHeight tree.mapBlockIndex other ≤ nHeight tree.mapBlockIndex common → (tree.fields other).nTx ≠ 0 ∨ Active tree other)

/-- The call leaves the peer alone, or what it finds is right. -/
def Correct (tree : Tree) (request : Request) (state : CNodeState) (outcome : Outcome) : Prop :=
  (outcome.vBlocks = [] ∧ outcome.state = processBlockAvailability tree state ∧
    ∀ best ∈ outcome.state.pindexBestKnownBlock, (tree.fields best).nChainWork < (tree.fields tree.tip).nChainWork) ∨
  ∃ low best common, outcome.state.pindexBestKnownBlock = some best ∧ AtEntry tree state best low ∧
    outcome.state.pindexLastCommonBlock = some common ∧ Downloads tree request low best common outcome.vBlocks

section Call

variable {tree : Tree} {request : Request} {state : CNodeState} {low best pindex : Nat} {s : Scan}

theorem processBlockAvailability_common : (processBlockAvailability tree state).pindexLastCommonBlock = state.pindexLastCommonBlock := by
  rw [processBlockAvailability]
  repeat' split
  all_goals rfl

theorem find_lt {hash : Uint256} (found : find tree.mapBlockIndex hash = some pindex) : pindex < tree.mapBlockIndex.length := by
  rw [find, findIdx?_eq_some_iff_getElem] at found
  exact found.1

theorem Known.processed (known : Known tree state) : Known tree (processBlockAvailability tree state) := by
  refine ⟨?_, by rw [processBlockAvailability_common]; exact known.common⟩
  rw [processBlockAvailability]
  split
  · split
    · next itOld found =>
      split
      · dsimp only
        rintro pindex same
        split at same
        · next best here =>
          split at same
          · exact some.inj same ▸ find_lt found
          · exact known.best pindex (here.trans same)
        · exact some.inj same ▸ find_lt found
      · exact known.best
    · exact known.best
  · exact known.best

theorem updateLastCommonBlock_eq (known : Known tree state) (inside : best < tree.mapBlockIndex.length) :
    ∃ low, updateLastCommonBlock tree state best = .ok (some low) ∧ AtEntry tree state best low := by
  obtain ⟨block, here⟩ := exists_of_lt inside
  rw [updateLastCommonBlock, deref_eq here]
  dsimp only [bind, Except.bind]
  cases common : state.pindexLastCommonBlock with
  | some first =>
    obtain ⟨low, done, meets⟩ := lastCommonAncestor_eq tree.shape tree.single (known.common first common) inside
    exact ⟨low, done, first, meets, .inl common⟩
  | none =>
    obtain ⟨top, length, -⟩ := tree.path
    have lower : (min (block.nHeight : Int) tree.chainActive.height) = ((min block.nHeight (nHeight tree.mapBlockIndex tree.tip) : Nat) : Int) := by
      rw [VChain.height]
      omega
    obtain ⟨first, found, -⟩ := tree.shape.followPprev_exists
      (Nat.min_le_right block.nHeight (nHeight tree.mapBlockIndex tree.tip))
    obtain ⟨low, done, meets⟩ := lastCommonAncestor_eq tree.shape tree.single (tree.shape.ancestor_lt top found) inside
    dsimp only
    rw [lower, tree.path.get_eq, bind_some, if_pos (Nat.min_le_right _ _), found]
    exact ⟨low, done, first, meets, .inr ⟨common, tree.tip, rfl, _, found⟩⟩

theorem Found.downloads (found : Found tree request low best s) :
    Downloads tree request low best s.pindexLastCommonBlock s.vBlocks := by
  refine ⟨found.order, ?_, found.atMost, found.found, ?_, ?_⟩
  · exact found.order.imp fun less same => absurd (same ▸ less) (lt_irrefl _)
  · intro fewer pindex inside valid
    by_contra none
    simp only [not_or] at none
    obtain ⟨noData, inactive, notInFlight, absent⟩ := none
    exact absent (found.complete fewer pindex inside valid ⟨Bool.not_eq_true _ ▸ noData, inactive, notInFlight⟩)
  · rcases found.common with same | ⟨below, linked⟩
    · exact .inl same
    · refine .inr ⟨below, fun other on lower => .inl (tree.received _ _ linked ?_)⟩
      exact tree.shape.graded.ancestor_of_le on.ancestor below.ancestor lower

theorem downloads_nil (positive : 0 < request.count) (high : nHeight tree.mapBlockIndex best ≤ nHeight tree.mapBlockIndex low) :
    Downloads tree request low best low [] := by
  have empty (pindex : Nat) (on : OnPath tree low best pindex) : False := by
    have above := on.above
    have lower := nHeight_le on
    omega
  refine ⟨.nil, .nil, positive.le, nofun, ?_, .inl rfl⟩
  exact fun _ pindex inside _ => (empty pindex inside.toOnPath).elim

end Call

/-- The call ends, and what it finds is right. -/
theorem findNextBlocksToDownload_correct (tree : Tree) (request : Request) (state : CNodeState) (nodeStaller : NodeId)
    (positive : 0 < request.count) (known : Known tree state) :
    ∃ outcome, findNextBlocksToDownload tree request state nodeStaller = .ok outcome ∧ Correct tree request state outcome := by
  have known' := known.processed
  have kept := @processBlockAvailability_common tree state
  have top : tree.chainActive.tip = some tree.tip := tree.path.tip_eq
  rw [findNextBlocksToDownload, if_neg positive.ne']
  dsimp only
  cases here : (processBlockAvailability tree state).pindexBestKnownBlock with
  | none =>
    refine ⟨_, rfl, .inl ⟨rfl, rfl, fun best same => ?_⟩⟩
    rw [here] at same
    cases same
  | some best =>
    have inside := known'.best best here
    rw [top]
    dsimp only
    by_cases less : (tree.fields best).nChainWork < (tree.fields tree.tip).nChainWork
    · rw [if_pos less]
      refine ⟨_, rfl, .inl ⟨rfl, rfl, fun other same => ?_⟩⟩
      rw [here] at same
      exact some.inj same ▸ less
    rw [if_neg less]
    obtain ⟨low, done, entry⟩ := updateLastCommonBlock_eq known' inside
    have entry' : AtEntry tree state best low := by
      rw [AtEntry, kept] at entry
      exact entry
    have ⟨first, meets, _⟩ := entry'
    rw [done]
    dsimp only [bind, Except.bind, pure, Except.pure]
    by_cases same : low = best
    · subst same
      rw [if_pos rfl]
      exact ⟨_, rfl, .inr ⟨low, low, low, rfl, entry', rfl, downloads_nil positive le_rfl⟩⟩
    · rw [if_neg (fun equal => same (some.inj equal))]
      have below := tree.shape.graded.ancestor_iff.mp meets.right
      have lower : low < tree.mapBlockIndex.length := tree.shape.ancestor_lt inside below.2
      obtain ⟨block, place⟩ := exists_of_lt lower
      obtain ⟨block', place'⟩ := exists_of_lt inside
      have value := nHeight_eq place
      have value' := nHeight_eq place'
      have start : Scanned tree request low best (nHeight tree.mapBlockIndex low) ⟨low, [], -1, nodeStaller⟩ := by
        refine ⟨.nil, nofun, fun pindex window under => ?_, positive, .inl rfl⟩
        exact absurd window.above (not_lt.mpr under)
      have bound : (min (block'.nHeight : Int) (block.nHeight + BLOCK_DOWNLOAD_WINDOW + 1)) =
          ((min (nHeight tree.mapBlockIndex best) (nHeight tree.mapBlockIndex low + BLOCK_DOWNLOAD_WINDOW + 1) : Nat) : Int) := by
        rw [value, value']
        omega
      obtain ⟨s, ran, found⟩ := walk_spec
        (((min (nHeight tree.mapBlockIndex best) (nHeight tree.mapBlockIndex low + BLOCK_DOWNLOAD_WINDOW + 1) : Nat) : Int)
          - nHeight tree.mapBlockIndex low).toNat _ rfl inside below.2 (by omega) le_rfl start (by omega)
      rw [value] at ran
      rw [deref_eq place, deref_eq place']
      dsimp only
      rw [bound, value, ran]
      exact ⟨_, rfl, .inr ⟨low, best, s.pindexLastCommonBlock, rfl, entry', rfl, found.downloads⟩⟩

/-- The blocks of the first branch up to one of them are stored, of the others there are only headers. -/
def storedFields (top pindex : Nat) : BlockFields :=
  if pindex ≤ top then ⟨nHeight branches pindex + 1, 1, nHeight branches pindex + 1, 13⟩
  else ⟨nHeight branches pindex + 1, 0, 0, 2⟩

theorem storedFields_received {top : Nat} (closed : ∀ node ≤ top, ∀ above ∈ pprev branches node, above ≤ top) (pindex other : Nat)
    (linked : (storedFields top pindex).nChainTx ≠ 0) (below : Ancestor (pprev branches) other pindex) :
    (storedFields top other).nTx ≠ 0 := by
  have stored : pindex ≤ top := by
    by_contra more
    rw [storedFields, if_neg more] at linked
    exact linked rfl
  obtain ⟨count, found⟩ := below
  have lower : other ≤ top := @climb_closed _ _ _ _ (· ≤ top) (fun node above here up => closed node here above up) _ stored found
  rw [storedFields, if_pos lower]
  exact one_ne_zero

/-- The whole first branch is active, and the second one has less work. -/
def forkedTree : Tree where
  mapBlockIndex := branches
  fields := storedFields 2
  chainActive := [some 0, some 1, some 2]
  tip := 2
  shape := WellFormed.empty.of_built branches_built
  single := by unfold SingleRooted; decide
  path := branches_path
  received := storedFields_received (by decide)

def rootTree : Tree where
  mapBlockIndex := branches
  fields := storedFields 0
  chainActive := [some 0]
  tip := 0
  shape := WellFormed.empty.of_built branches_built
  single := by unfold SingleRooted; decide
  path := by unfold Chain.Path; decide
  received := storedFields_received (by decide)

def emptyRequest : Request := ⟨7, 16, .empty⟩

theorem emptyRequest_known {tree : Tree} (index : tree.mapBlockIndex = branches) {best : Nat} {common : Option Nat}
    (inside : best < 4) (inside' : ∀ pindex ∈ common, pindex < 4) : Known tree ⟨some best, 0, common⟩ :=
  ⟨fun pindex same => by rw [index, ← some.inj same]; exact inside, fun pindex same => by rw [index]; exact inside' pindex same⟩

theorem findNextBlocksToDownload_correct_root : ∃ outcome,
    findNextBlocksToDownload rootTree emptyRequest ⟨some 2, 0, none⟩ (-1) = .ok outcome ∧
      Correct rootTree emptyRequest ⟨some 2, 0, none⟩ outcome :=
  findNextBlocksToDownload_correct rootTree emptyRequest ⟨some 2, 0, none⟩ (-1) (by decide)
    (emptyRequest_known rfl (by decide) (by decide))

/-- With fewer blocks than wanted, no staller and no invalid block, the way inside the window is stored, active, in flight
or as given. -/
def Covers (tree : Tree) (request : Request) (outcome : Outcome) (low best : Nat) (rest : Nat → Prop) : Prop :=
  outcome.vBlocks.length < request.count → outcome.nodeStaller = -1 →
    (∀ other, OnPath tree low best other → (tree.fields other).isValid BLOCK_VALID_TREE = true) →
    ∀ pindex, InWindow tree low best pindex → (tree.fields pindex).haveData = true ∨ Active tree pindex ∨
      hashOf tree pindex ∈ request.mapBlocksInFlight.keys ∨ rest pindex

/-- A call for which the last common block at entry and the best known block are these. -/
structure Called (tree : Tree) (request : Request) (state : CNodeState) (outcome : Outcome) (low best : Nat) : Prop where
  positive : 0 < request.count
  known : Known tree state
  returned : findNextBlocksToDownload tree request state (-1) = .ok outcome
  bestKnown : outcome.state.pindexBestKnownBlock = some best
  entry : AtEntry tree state best low

theorem storedFields_isValid (top pindex : Nat) : (storedFields top pindex).isValid BLOCK_VALID_TREE = true := by
  rw [storedFields]
  split_ifs <;> simp [BlockFields.isValid, BLOCK_FAILED_MASK, BLOCK_VALID_MASK, BLOCK_VALID_TREE]

/-- Of a peer with less work nothing is fetched; and what is fetched is missing when the call returns. -/
theorem uncovered : (¬ ∀ tree request state outcome low best, Called tree request state outcome low best →
      Covers tree request outcome low best (· ∈ outcome.vBlocks)) ∧
    ¬ ∀ tree request state outcome low best, Called tree request state outcome low best →
      (tree.fields tree.tip).nChainWork ≤ (tree.fields best).nChainWork → Covers tree request outcome low best fun _ => False := by
  have up : Ancestor (pprev branches) 0 3 := ⟨1, rfl⟩
  have up' : Ancestor (pprev branches) 0 2 := ⟨2, rfl⟩
  have graded := (empty.of_built branches_built).graded
  constructor
  · intro every
    have called : Called forkedTree emptyRequest ⟨some 3, 0, some 0⟩ ⟨⟨some 3, 0, some 0⟩, [], -1⟩ 0 3 := by
      refine ⟨by decide, emptyRequest_known rfl (by decide) (by decide), rfl, rfl, 0, ⟨.refl _, up, fun other below _ => below⟩, .inl rfl⟩
    have window : InWindow forkedTree 0 3 3 := ⟨⟨.refl _, by decide⟩, by decide⟩
    rcases every _ _ _ _ _ _ called (by decide) rfl (fun other _ => storedFields_isValid 2 other) 3 window with
      data | active | flight | member
    · cases data
    · obtain ⟨top, same, on⟩ := active
      rw [← some.inj same] at on
      exact absurd (graded.ancestor_iff.mp on).2 (by decide)
    · cases flight
    · cases member
  · intro every
    have called : Called rootTree emptyRequest ⟨some 2, 0, none⟩ ⟨⟨some 2, 0, some 0⟩, [1, 2], -1⟩ 0 2 := by
      refine ⟨by decide, emptyRequest_known rfl (by decide) (by decide), rfl, rfl, 0, ⟨.refl _, up', fun other below _ => below⟩,
        .inr ⟨rfl, 0, rfl, .refl _⟩⟩
    have window : InWindow rootTree 0 2 2 := ⟨⟨.refl _, by decide⟩, by decide⟩
    rcases every _ _ _ _ _ _ called (by decide) (by decide) rfl (fun other _ => storedFields_isValid 0 other) 2 window with
      data | active | flight | none
    · cases data
    · obtain ⟨top, same, on⟩ := active
      rw [← some.inj same] at on
      cases graded.height_le on
    · cases flight
    · exact none

end Longcoin.DownloadWindow

import Longcoin.MostWorkTip
import Mathlib.Data.List.Chain

/-! Block announcements (`main.cpp`, `net.h`): the list that `ActivateBestChain` fills for a peer, and what `SendMessages` makes
of it. -/

namespace Longcoin.Announcements
open Primitives BlockTree Node List Option Bool

def MAX_BLOCKS_TO_ANNOUNCE : Nat := 8

structure CNodeState where
  fPreferHeaders : Bool
  pindexBestKnownBlock : Option Uint256
  pindexBestHeaderSent : Option Uint256

/-- `GetAncestor` of a height finds the block itself and its ancestors. -/
def peerHasHeader (s : Node) (state : CNodeState) (pindex : Uint256) : Bool :=
  (state.pindexBestKnownBlock.any fun best => s.isDescendant pindex best) ||
    state.pindexBestHeaderSent.any fun sent => s.isDescendant pindex sent

inductive Announcement where
  | nothing
  | inv (hashToAnnounce : Uint256)
  | headers (vHeaders : List Uint256)
deriving DecidableEq

/-- The loop over `vBlockHashesToAnnounce`; without a result it reverts to an inv. `fFoundStartingHeader` says that there are
headers already. -/
def collectHeaders (s : Node) (state : CNodeState) :
    Option Uint256 → List Uint256 → List Uint256 → Except Stop (Option (List Uint256))
  | _, vHeaders, [] => .ok (some vHeaders)
  | pBestIndex, vHeaders, hash :: rest =>
      if hash ∉ s.mapBlockIndex then .error .assertion
      else if hash ∉ s.chainActive then .ok none
      else if pBestIndex.isSome && s.pprev hash != pBestIndex then .error .assertion
      else if !vHeaders.isEmpty then collectHeaders s state (some hash) (vHeaders ++ [hash]) rest
      else if peerHasHeader s state hash then collectHeaders s state (some hash) vHeaders rest
      else if (s.pprev hash).all (peerHasHeader s state) then collectHeaders s state (some hash) [hash] rest
      else .ok none

def revertToInv (s : Node) (state : CNodeState) (vBlockHashesToAnnounce : List Uint256) : Except Stop Announcement :=
  match vBlockHashesToAnnounce.getLast? with
  | none => .ok .nothing
  | some hashToAnnounce =>
      if hashToAnnounce ∉ s.mapBlockIndex then .error .assertion
      else if peerHasHeader s state hashToAnnounce then .ok .nothing
      else .ok (.inv hashToAnnounce)

def announceBlocks (s : Node) (state : CNodeState) (vBlockHashesToAnnounce : List Uint256) : Except Stop Announcement :=
  if !state.fPreferHeaders || decide (vBlockHashesToAnnounce.length > MAX_BLOCKS_TO_ANNOUNCE) then
    revertToInv s state vBlockHashesToAnnounce
  else do
    match ← collectHeaders s state none [] vBlockHashesToAnnounce with
    | none => revertToInv s state vBlockHashesToAnnounce
    | some [] => return .nothing
    | some vHeaders => return .headers vHeaders

/-- The blocks that were not in the chain before, the newest first. -/
def newHashes (s : Node) (pindexNewTip : Uint256) (pindexFork : Option Uint256) : List Uint256 :=
  ((s.path pindexNewTip).takeWhile fun pindex => some pindex ≠ pindexFork).take MAX_BLOCKS_TO_ANNOUNCE

/-- One pass of the loop in `ActivateBestChain`: whether it is the last one, and `vHashes`. -/
def activateTurn (P : Params) (fuel : Nat) (fInitialDownload : Bool) (s : Node) : Except Stop (Node × Bool × List Uint256) := do
  let (s, found) ← s.findMostWorkChain fuel
  match found with
  | none => return (s, true, [])
  | some pindexMostWork =>
      if s.tip = some pindexMostWork then return (s, true, [])
      else do
        let after ← s.activateBestChainStep P pindexMostWork
        let pindexFork := s.tip.bind after.findFork
        let vHashes := if pindexFork = after.tip || fInitialDownload then [] else after.tip.elim [] (newHashes after · pindexFork)
        return (after, after.tip = some pindexMostWork, vHashes)

/-- The blocks are relayed to a peer whose chain was not too far ahead of the height when it connected. -/
def relayed (nStartingHeight nBlockEstimate : Int) (height : Int) : Bool :=
  height > if nStartingHeight ≠ -1 then nStartingHeight - 2000 else nBlockEstimate

structure Relay where
  node : Node
  vBlockHashesToAnnounce : List Uint256

inductive Op where
  | header (block : BlockHeader)
  | block (block : Block)
  | activateTurn (fuel : Nat) (fInitialDownload : Bool) (nStartingHeight nBlockEstimate : Int)
  | invalidateBlock (pindex : Uint256)
  | reconsiderBlock (pindex : Uint256)
  | sendMessages (state : CNodeState)

def step (P : Params) (r : Relay) : Op → Except Stop Relay
  | .header block => .ok { r with node := (r.node.acceptBlockHeader P block).2 }
  | .block block => .ok { r with node := r.node.acceptBlock P block }
  | .activateTurn fuel fInitialDownload nStartingHeight nBlockEstimate => do
      let (node, _, vHashes) ← activateTurn P fuel fInitialDownload r.node
      if relayed nStartingHeight nBlockEstimate (node.chainActive.length - 1) then
        return ⟨node, r.vBlockHashesToAnnounce ++ vHashes.reverse⟩
      else return { r with node }
  | .invalidateBlock pindex => .ok { r with node := r.node.invalidateBlock pindex }
  | .reconsiderBlock pindex => .ok { r with node := r.node.reconsiderBlock pindex }
  | .sendMessages state => do
      let _ ← announceBlocks r.node state r.vBlockHashesToAnnounce
      return { r with vBlockHashesToAnnounce := [] }

def started (P : Params) (blockProof : Nat) : Relay := ⟨Node.initBlockIndex P blockProof, []⟩

/-- What is sent connects: a part of the active chain, in its order, on a block whose header the peer has. -/
structure Connects (s : Node) (state : CNodeState) (vHeaders : List Uint256) : Prop where
  contiguous : vHeaders.reverse <:+: s.chainActive
  parent : ∀ first, vHeaders.head? = some first → ∃ above, s.pprev first = some above ∧ peerHasHeader s state above = true

/-- Whatever the peer has and wants, the announcements come out without a failed `assert`. -/
structure Safe (r : Relay) : Prop where
  known : ∀ hash ∈ r.vBlockHashesToAnnounce, hash ∈ r.node.mapBlockIndex
  sends : ∀ state, ∃ announcement, announceBlocks r.node state r.vBlockHashesToAnnounce = .ok announcement ∧
    ∀ vHeaders, announcement = .headers vHeaders → Connects r.node state vHeaders

/-- The node as far as announcements go: the index is a tree, and the chain is the path of a block in it. -/
structure Standing (P : Params) (s : Node) : Prop where
  shape : Shape P s
  chain : ∃ tip ∈ s.mapBlockIndex, s.chainActive = s.path tip

/-- A listed block after another is its child, or on another branch. -/
def Follows (s : Node) (before after : Uint256) : Prop :=
  s.pprev after = some before ∨ before ∉ s.path after ∧ after ∉ s.path before

structure Listed (P : Params) (s : Node) (list : List Uint256) : Prop where
  known : ∀ hash ∈ list, hash ∈ s.mapBlockIndex ∧ hash ≠ P.hashGenesisBlock
  follows : list.IsChain (Follows s)

section Sending

variable {P : Params} {s : Node} {state : CNodeState} {pindex other : Uint256}

theorem comparable (shape : Shape P s) (known : pindex ∈ s.mapBlockIndex) {first second : Uint256} (one : first ∈ s.path pindex)
    (two : second ∈ s.path pindex) : first ∈ s.path second ∨ second ∈ s.path first := by
  obtain ⟨above, below, split⟩ := append_of_mem one
  have rest := shape.tree.eq_path_of_suffix known ⟨above, split.symm⟩
  rw [split] at two
  rcases mem_append.mp two with before | after
  · exact .inl (shape.tree.mem_path_of_before known split before)
  · rw [rest] at after
    exact .inr after

theorem Follows.pprev (standing : Standing P s) (follows : Follows s pindex other) (active : pindex ∈ s.chainActive)
    (active' : other ∈ s.chainActive) : s.pprev other = some pindex := by
  obtain ⟨tip, known, chain⟩ := standing.chain
  rw [chain] at active active'
  apply follows.resolve_right
  intro apart
  rcases comparable standing.shape known active active' with one | two
  · exact apart.1 one
  · exact apart.2 two

theorem path_cons (shape : Shape P s) (known : pindex ∈ s.mapBlockIndex) (above : s.pprev pindex = some other) :
    s.path pindex = pindex :: s.path other := congrArg (pindex :: ·) (path_of_pprev shape known above).2

theorem pprev_isSome (shape : Shape P s) (known : pindex ∈ s.mapBlockIndex) (notGenesis : pindex ≠ P.hashGenesisBlock) :
    ∃ above, s.pprev pindex = some above := by
  obtain ⟨parent, -, list⟩ := shape.tree.child pindex known notGenesis
  refine ⟨parent, ?_⟩
  rw [pprev, list]
  rfl

/-- The headers so far: the last blocks on the path of the block that was looked at last. -/
structure Collected (s : Node) (state : CNodeState) (pBestIndex : Uint256) (vHeaders : List Uint256) : Prop where
  path : ∃ rest, s.path pBestIndex = vHeaders.reverse ++ rest
  parent : ∀ first, vHeaders.head? = some first → ∃ above, s.pprev first = some above ∧ peerHasHeader s state above = true

theorem Collected.connects (standing : Standing P s) {vHeaders : List Uint256} (active : pindex ∈ s.chainActive)
    (collected : Collected s state pindex vHeaders) : Connects s state vHeaders := by
  obtain ⟨tip, known, chain⟩ := standing.chain
  obtain ⟨rest, split⟩ := collected.path
  refine ⟨?_, collected.parent⟩
  rw [chain] at active ⊢
  have inside : s.path pindex <:+ s.path tip := (standing.shape.tree.suffix known active).2
  rw [split] at inside
  exact (prefix_append _ _).isInfix.trans inside.isInfix

/-- Where the loop is: at the start, or behind a listed block of the chain. -/
def At (s : Node) (state : CNodeState) (pBestIndex : Option Uint256) (vHeaders : List Uint256) : Prop :=
  match pBestIndex with
  | none => vHeaders = []
  | some best => best ∈ s.chainActive ∧ Collected s state best vHeaders

theorem At.step {pBestIndex : Option Uint256} {vHeaders rest : List Uint256} {hash : Uint256} (standing : Standing P s)
    (position : At s state pBestIndex vHeaders) (listed : Listed P s (pBestIndex.toList ++ hash :: rest)) (active : hash ∈ s.chainActive) :
    (pBestIndex.isSome && s.pprev hash != pBestIndex) = false ∧ ∃ above, s.pprev hash = some above ∧
      (vHeaders ≠ [] → At s state (some hash) (vHeaders ++ [hash])) ∧
      At s state (some hash) [] ∧ (peerHasHeader s state above = true → At s state (some hash) [hash]) := by
  obtain ⟨known, notGenesis⟩ := listed.known hash (mem_append_right _ mem_cons_self)
  obtain ⟨above, parent⟩ := pprev_isSome standing.shape known notGenesis
  have path := path_cons standing.shape known parent
  have skips : At s state (some hash) [] := ⟨active, ⟨s.path hash, rfl⟩, nofun⟩
  have starts (hasParent : peerHasHeader s state above = true) : At s state (some hash) [hash] := by
    refine ⟨active, ⟨s.path above, path⟩, fun first same => ?_⟩
    rw [← some.inj same]
    exact ⟨above, parent, hasParent⟩
  cases pBestIndex with
  | none => exact ⟨rfl, above, parent, fun some' => absurd position some', skips, starts⟩
  | some best =>
    have follows := listed.follows
    rw [toList_some, singleton_append, isChain_cons_cons] at follows
    have isBest := follows.1.pprev standing position.1 active
    refine ⟨?_, above, parent, fun nonempty => ⟨active, ?_, ?_⟩, skips, starts⟩
    · rw [isBest, bne_self_eq_false, Bool.and_false]
    · obtain ⟨below, split⟩ := position.2.path
      rw [isBest, some.injEq] at parent
      refine ⟨below, ?_⟩
      rw [path, ← parent, split, reverse_append]
      rfl
    · rw [head?_append_of_ne_nil _ nonempty]
      exact position.2.parent

theorem collectHeaders_spec (standing : Standing P s) (state : CNodeState) {rest : List Uint256} :
    ∀ {pBestIndex : Option Uint256} {vHeaders : List Uint256}, At s state pBestIndex vHeaders → Listed P s (pBestIndex.toList ++ rest) →
      ∃ result, collectHeaders s state pBestIndex vHeaders rest = .ok result ∧
        ∀ vHeaders', result = some vHeaders' → vHeaders' ≠ [] → Connects s state vHeaders' := by
  induction rest with
  | nil =>
    intro pBestIndex vHeaders position _
    refine ⟨some vHeaders, rfl, fun vHeaders' same nonempty => ?_⟩
    rw [← Option.some.inj same] at nonempty ⊢
    cases pBestIndex with
    | none => exact absurd position nonempty
    | some best => exact position.2.connects standing position.1
  | cons hash rest ih =>
    intro pBestIndex vHeaders position listed
    have known := (listed.known hash (mem_append_right _ mem_cons_self)).1
    have later : Listed P s ((some hash).toList ++ rest) :=
      ⟨(forall_mem_append.mp listed.known).2, listed.follows.right_of_append⟩
    have reverts : ∃ result : Option (List Uint256), (Except.ok none : Except Stop (Option (List Uint256))) = .ok result ∧
        ∀ vHeaders', result = some vHeaders' → vHeaders' ≠ [] → Connects s state vHeaders' :=
      ⟨none, rfl, nofun⟩
    rw [collectHeaders, if_neg (not_not.mpr known)]
    by_cases active : hash ∈ s.chainActive
    · obtain ⟨passes, above, parent, goesOn, skips, starts⟩ := position.step standing listed active
      rw [if_neg (not_not.mpr active), passes, if_neg Bool.false_ne_true, parent, Option.all_some]
      split_ifs with found has hasParent
      · apply ih (goesOn _) later
        intro empty
        rw [empty] at found
        cases found
      · rw [Bool.not_eq_true', Bool.not_eq_false, List.isEmpty_iff] at found
        rw [found]
        exact ih skips later
      · exact ih (starts hasParent) later
      · exact reverts
    · rw [if_pos active]
      exact reverts

theorem Listed.safe {r : Relay} (standing : Standing P r.node) (listed : Listed P r.node r.vBlockHashesToAnnounce) : Safe r := by
  refine ⟨fun hash member => (listed.known hash member).1, fun state => ?_⟩
  have reverts : ∃ announcement, revertToInv r.node state r.vBlockHashesToAnnounce = .ok announcement ∧
      ∀ vHeaders, announcement = .headers vHeaders → Connects r.node state vHeaders := by
    rw [revertToInv]
    cases last : r.vBlockHashesToAnnounce.getLast? with
    | none => exact ⟨.nothing, rfl, nofun⟩
    | some hashToAnnounce =>
      dsimp only
      rw [if_neg (not_not.mpr (listed.known hashToAnnounce (mem_of_getLast? last)).1)]
      split_ifs
      · exact ⟨.nothing, rfl, nofun⟩
      · exact ⟨.inv hashToAnnounce, rfl, nofun⟩
  rw [announceBlocks]
  split_ifs
  · exact reverts
  · obtain ⟨result, collected, connects⟩ := @collectHeaders_spec P r.node standing state r.vBlockHashesToAnnounce none [] rfl listed
    rw [collected]
    cases result with
    | none => exact reverts
    | some vHeaders =>
      cases vHeaders with
      | nil => exact ⟨.nothing, rfl, nofun⟩
      | cons first others =>
        refine ⟨.headers (first :: others), rfl, fun vHeaders same => ?_⟩
        rw [← Announcement.headers.inj same]
        exact connects _ rfl (cons_ne_nil _ _)

end Sending

end Longcoin.Announcements

import Longcoin.Locator

/-! Header synchronisation (`ProcessMessage` in `main.cpp`): a node asks with a locator, the peer answers
with the headers of its active chain that come after the fork, and the node asks on after a full batch. -/

namespace Longcoin.BlockTree
open Primitives Library Ancestry List Bool Function Option

def MAX_HEADERS_RESULTS : Nat := 2000

/-- The header behind every hash, as `GetBlockHeader` gives it back. -/
structure HeaderTable where
  header : Uint256 → BlockHeader
  hash_header : ∀ hash, (header hash).hash = hash

namespace Node

/-- The loop of the `getheaders` handler, from `pindex` on. -/
def headersFrom (s : Node) (T : HeaderTable) (hashStop : Uint256) : Nat → Option Uint256 → List BlockHeader
  | 0, _ => []
  | _, none => []
  | nLimit + 1, some pindex =>
      T.header pindex :: if nLimit = 0 ∨ pindex = hashStop then [] else headersFrom s T hashStop nLimit (s.next pindex)

/-- `getheaders`: the batch that is sent, if one is. -/
def processGetHeaders (s : Node) (T : HeaderTable) (initialBlockDownload fWhitelisted : Bool)
    (locator : List Uint256) (hashStop : Uint256) : Option (List BlockHeader) :=
  if initialBlockDownload && !fWhitelisted then none
  else if locator.isEmpty then
    if s.mapBlockIndex.contains hashStop then some (s.headersFrom T hashStop MAX_HEADERS_RESULTS (some hashStop)) else none
  else
    some (s.headersFrom T hashStop MAX_HEADERS_RESULTS ((s.findForkInGlobalIndex locator).bind s.next))

/-- The loop of the `headers` handler: whether all headers are accepted, and `pindexLast`. -/
def acceptHeaders (P : Params) : Node → Option Uint256 → List BlockHeader → Bool × Node × Option Uint256
  | s, pindexLast, [] => (true, s, pindexLast)
  | s, pindexLast, header :: rest =>
      if pindexLast.any fun last => header.hashPrevBlock ≠ last then (false, s, pindexLast)
      else
        let (accepted, s) := s.acceptBlockHeader P header
        if !accepted then (false, s, pindexLast) else acceptHeaders P s (some header.hash) rest

/-- `headers`: the index afterwards, and the locator of the next request, if one is made. -/
def processHeaders (P : Params) (s : Node) (headers : List BlockHeader) : Node × Option (List Uint256) :=
  if headers.length > MAX_HEADERS_RESULTS then (s, none)
  else if headers.isEmpty then (s, none)
  else
    let (accepted, s, pindexLast) := acceptHeaders P s none headers
    if !accepted then (s, none)
    else if headers.length = MAX_HEADERS_RESULTS && pindexLast.isSome then (s, some (s.getLocator pindexLast))
    else (s, none)

/-- `SendMessages`: where the first request starts. -/
def pindexStart (s : Node) (pindexBestHeader : Uint256) : Uint256 := (s.pprev pindexBestHeader).getD pindexBestHeader

end Node

structure Peer where
  node : Node
  initialBlockDownload : Bool
  fWhitelisted : Bool

structure Round where
  node : Node
  batch : List BlockHeader

/-- The rounds from a request on and the node after them, with a bound on the rounds. -/
def exchange (P : Params) (T : HeaderTable) (peer : Peer) : Nat → Node → List Uint256 → Option (List Round × Node)
  | 0, _, _ => none
  | fuel + 1, s, locator =>
      match peer.node.processGetHeaders T peer.initialBlockDownload peer.fWhitelisted locator 0 with
      | none => some ([], s)
      | some batch =>
          match s.processHeaders P batch with
          | (last, none) => some ([⟨s, batch⟩], last)
          | (s', some request) =>
              (exchange P T peer fuel s' request).map fun later => (⟨s, batch⟩ :: later.1, later.2)

/-- An index whose entries are the headers behind their hashes, closed under parents. -/
structure Indexed (P : Params) (T : HeaderTable) (s : Node) : Prop where
  tree : Tree (· ∈ s.mapBlockIndex) s.ancestors P.hashGenesisBlock
  parent : ∀ pindex ∈ s.mapBlockIndex, ∀ above, s.pprev pindex = some above → (T.header pindex).hashPrevBlock = above
  active : ∃ tip ∈ s.mapBlockIndex, s.chainActive = s.path tip

/-- What `AcceptBlockHeader` asks of a header whose parent is known. -/
structure Acceptable (T : HeaderTable) (s : Node) (pindex : Uint256) : Prop where
  checked : (T.header pindex).checked = true
  unfailed : pindex ∈ s.mapBlockIndex → s.failed pindex = false

/-- What the rounds of an exchange with a peer come to. -/
structure Synchronised (T : HeaderTable) (peer : Node) (rounds : List Round) (last : Node) : Prop where
  /-- Every batch is a contiguous run of the active chain. -/
  contiguous : ∀ round ∈ rounds, ∃ front run back, peer.vChain = front ++ run ++ back ∧ round.batch = run.map T.header
  /-- Its first header connects to a block the node knows. -/
  connects : ∀ round ∈ rounds, ∀ first ∈ round.batch.head?, first.hashPrevBlock ∈ round.node.mapBlockIndex
  /-- Each batch ends higher than the ones before. -/
  higher : rounds.Pairwise fun earlier later => ∀ low ∈ earlier.batch.getLast?, ∀ high ∈ later.batch.getLast?,
    peer.nHeight low.hash < peer.nHeight high.hash
  complete : ∀ pindex ∈ peer.chainActive, pindex ∈ last.mapBlockIndex
  /-- The last batch that is not empty ends with the tip. -/
  tip : ∀ batch, ((rounds.map Round.batch).filter (!·.isEmpty)).getLast? = some batch →
    batch.getLast?.map BlockHeader.hash = peer.tip

variable {P : Params} {T : HeaderTable} {s : Node}

theorem headersFrom_vChain (index : Indexed P T s) {hashStop : Uint256} (named : hashStop ∉ s.chainActive)
    (nLimit height : Nat) :
    s.headersFrom T hashStop nLimit s.vChain[height]? = ((s.vChain.drop height).take nLimit).map T.header := by
  obtain ⟨tip, known, chain⟩ := index.active
  induction nLimit generalizing height with
  | zero => rw [Node.headersFrom, take_zero, map_nil]
  | succ nLimit ih =>
    cases found : s.vChain[height]? with
    | none =>
      rw [drop_eq_nil_of_le (List.getElem?_eq_none_iff.mp found), take_nil, map_nil]
      rfl
    | some pindex =>
      have differs : pindex ≠ hashStop := by
        rintro rfl
        exact named (mem_reverse.mp (mem_of_getElem? found))
      obtain ⟨inside, here⟩ := List.getElem?_eq_some_iff.mp found
      rw [drop_eq_getElem_cons inside, here, take_succ_cons, map_cons, Node.headersFrom,
        next_of_vChain index.tree known chain found, ih (height + 1)]
      by_cases exhausted : nLimit = 0
      · rw [if_pos (Or.inl exhausted), exhausted, take_zero, map_nil]
      · rw [if_neg (not_or.mpr ⟨exhausted, differs⟩)]

theorem addToBlockIndex_known (block : BlockHeader) (known : block.hash ∈ s.mapBlockIndex) :
    s.addToBlockIndex block = s := if_pos known

theorem mapBlockIndex_addToBlockIndex (block : BlockHeader) {pindex : Uint256} :
    pindex ∈ (s.addToBlockIndex block).mapBlockIndex ↔ pindex = block.hash ∨ pindex ∈ s.mapBlockIndex := by
  by_cases known : block.hash ∈ s.mapBlockIndex
  · rw [addToBlockIndex_known block known]
    exact ⟨.inr, fun either => either.elim (fun same => same ▸ known) id⟩
  · rw [Node.addToBlockIndex, if_neg known]
    exact mem_cons

theorem failed_addToBlockIndex (block : BlockHeader) (new : block.hash ∉ s.mapBlockIndex) :
    (s.addToBlockIndex block).failed = update s.failed block.hash false := by
  funext pindex
  simp only [Node.addToBlockIndex, if_neg new, Node.failed]
  by_cases same : pindex = block.hash
  · rw [same, Function.update_self, Function.update_self, Function.update_self, Bool.or_false]
  · rw [update_of_ne same, update_of_ne same, update_of_ne same, Node.failed]

theorem Indexed.addToBlockIndex (index : Indexed P T s) (pindex : Uint256)
    (above : (T.header pindex).hashPrevBlock ∈ s.mapBlockIndex) : Indexed P T (s.addToBlockIndex (T.header pindex)) := by
  by_cases known : (T.header pindex).hash ∈ s.mapBlockIndex
  · rw [addToBlockIndex_known _ known]
    exact index
  · have grown : ∀ other, other ∈ (s.addToBlockIndex (T.header pindex)).mapBlockIndex ↔
        other = pindex ∨ other ∈ s.mapBlockIndex := by
      intro other
      rw [mapBlockIndex_addToBlockIndex, T.hash_header]
    have ancestors : (s.addToBlockIndex (T.header pindex)).ancestors =
        update s.ancestors pindex (s.path (T.header pindex).hashPrevBlock) := by
      rw [Node.addToBlockIndex, if_neg known]
      simp only [T.hash_header, decide_eq_true above, if_true]
    have active : (s.addToBlockIndex (T.header pindex)).chainActive = s.chainActive := by
      rw [Node.addToBlockIndex, if_neg known]
    rw [T.hash_header] at known
    have old {other : Uint256} (member : other ∈ s.mapBlockIndex) :
        (s.addToBlockIndex (T.header pindex)).ancestors other = s.ancestors other := by
      rw [ancestors]
      refine update_of_ne ?_ _ _
      rintro rfl
      exact known member
    refine ⟨?_, ?_, ?_⟩
    · have tree := index.tree.insert above known
      simp only [grown, ancestors]
      exact tree
    · intro other member parent found
      rcases (grown other).mp member with rfl | member
      · rw [Node.pprev, ancestors, update_self, Node.path, Ancestry.path, head?_cons] at found
        exact some.inj found
      · rw [Node.pprev, old member] at found
        exact index.parent other member parent found
    · obtain ⟨tip, member, chain⟩ := index.active
      refine ⟨tip, (grown tip).mpr (.inr member), ?_⟩
      rw [active, chain, Node.path, Node.path, Ancestry.path, Ancestry.path, old member]

theorem acceptBlockHeader_acceptable {pindex : Uint256} (fine : Acceptable T s pindex)
    (above : (T.header pindex).hashPrevBlock ∈ s.mapBlockIndex) (clean : s.failed (T.header pindex).hashPrevBlock = false) :
    s.acceptBlockHeader P (T.header pindex) = (true, s.addToBlockIndex (T.header pindex)) := by
  rw [Node.acceptBlockHeader]
  by_cases genesis : (T.header pindex).hash = P.hashGenesisBlock
  · rw [if_pos genesis]
  by_cases known : (T.header pindex).hash ∈ s.mapBlockIndex
  · rw [if_neg genesis, if_pos known, addToBlockIndex_known _ known]
    rw [T.hash_header] at known ⊢
    rw [fine.unfailed known, Bool.not_false]
  · simp only [if_neg genesis, if_neg known, fine.checked, clean, above, not_true_eq_false, Bool.not_true,
      Bool.false_eq_true, if_false]

/-- What accepting headers keeps for the headers to come. -/
structure Ready (P : Params) (T : HeaderTable) (chain : List Uint256) (s : Node) : Prop where
  index : Indexed P T s
  acceptable : ∀ pindex ∈ chain, Acceptable T s pindex

theorem Ready.addToBlockIndex {chain : List Uint256} (ready : Ready P T chain s) (pindex : Uint256)
    (above : (T.header pindex).hashPrevBlock ∈ s.mapBlockIndex) : Ready P T chain (s.addToBlockIndex (T.header pindex)) := by
  refine ⟨ready.index.addToBlockIndex pindex above, fun other member => ⟨(ready.acceptable other member).checked, ?_⟩⟩
  intro inside
  by_cases new : (T.header pindex).hash ∈ s.mapBlockIndex
  · rw [addToBlockIndex_known _ new] at inside ⊢
    exact (ready.acceptable other member).unfailed inside
  · rw [failed_addToBlockIndex _ new]
    by_cases same : other = (T.header pindex).hash
    · rw [same, update_self]
    · rw [update_of_ne same]
      exact (ready.acceptable other member).unfailed (((mapBlockIndex_addToBlockIndex _).mp inside).resolve_left same)

/-- Every hash of the list has the one before it as its parent. -/
def Linked (T : HeaderTable) (hashes : List Uint256) : Prop :=
  hashes.IsChain fun above pindex => (T.header pindex).hashPrevBlock = above

theorem acceptHeaders_run {chain : List Uint256} (ready : Ready P T chain s) (above : Uint256) (run : List Uint256)
    (linked : Linked T (above :: run)) (inside : ∀ pindex ∈ above :: run, pindex ∈ chain)
    (known : above ∈ s.mapBlockIndex) (pindexLast : Option Uint256) (last : ∀ pindex ∈ pindexLast, pindex = above) :
    ∃ s', s.acceptHeaders P pindexLast (run.map T.header) = (true, s', run.getLast?.or pindexLast) ∧
      Ready P T chain s' ∧ (∀ pindex ∈ s.mapBlockIndex, pindex ∈ s'.mapBlockIndex) ∧
      ∀ pindex ∈ run, pindex ∈ s'.mapBlockIndex := by
  induction run generalizing s above pindexLast with
  | nil => exact ⟨s, rfl, ready, fun _ => id, nofun⟩
  | cons pindex rest ih =>
    have parent : (T.header pindex).hashPrevBlock = above := (isChain_cons_cons.mp linked).1
    have continuous : pindexLast.any (fun last => (T.header pindex).hashPrevBlock ≠ last) = false := by
      cases pindexLast with
      | none => rfl
      | some pindexLast =>
        rw [any_some, parent, last pindexLast rfl]
        simp
    have knownParent : (T.header pindex).hashPrevBlock ∈ s.mapBlockIndex := parent ▸ known
    have cleanParent : s.failed (T.header pindex).hashPrevBlock = false := by
      rw [parent]
      exact (ready.acceptable above (inside above mem_cons_self)).unfailed known
    have member : pindex ∈ chain := inside pindex (mem_cons_of_mem _ mem_cons_self)
    have accepted := acceptBlockHeader_acceptable (P := P) (ready.acceptable pindex member) knownParent cleanParent
    have here : pindex ∈ (s.addToBlockIndex (T.header pindex)).mapBlockIndex :=
      (mapBlockIndex_addToBlockIndex _).mpr (.inl (T.hash_header pindex).symm)
    obtain ⟨s', ran, ready', grown, stored⟩ := ih (ready.addToBlockIndex pindex knownParent) pindex
      (isChain_cons_cons.mp linked).2 (forall_mem_cons.mp inside).2 here
      (some pindex) (fun other same => (some.inj same).symm)
    refine ⟨s', ?_, ready', ?_, ?_⟩
    · rw [map_cons, Node.acceptHeaders, continuous, accepted]
      simp only [Bool.false_eq_true, if_false, Bool.not_true, T.hash_header]
      rw [ran]
      cases rest with
      | nil => rfl
      | cons second rest =>
        rw [getLast?_cons_cons]
        cases shape : (second :: rest).getLast? with
        | none => cases getLast?_eq_none_iff.mp shape
        | some final => rfl
    · exact fun other old => grown other ((mapBlockIndex_addToBlockIndex _).mpr (.inr old))
    · rintro other (_ | ⟨_, below⟩)
      · exact grown _ here
      · exact stored other below

end Longcoin.BlockTree

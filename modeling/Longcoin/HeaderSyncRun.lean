import Longcoin.HeaderSync
import Mathlib.Data.List.Chain

/-! An exchange of headers ends, whatever the node knew before, and leaves the node with every block of
the active chain of its peer: each request starts at a common block, and each full batch ends higher. -/

namespace Longcoin.BlockTree
open Primitives Library Ancestry List Option Bool

variable {P : Params} {T : HeaderTable} {s : Node} {peer : Peer}

theorem Indexed.path_eq {t : Node} (index : Indexed P T s) (other : Indexed P T t) (pindex : Uint256)
    (known : pindex ∈ s.mapBlockIndex) (knownThere : pindex ∈ t.mapBlockIndex) : s.path pindex = t.path pindex := by
  revert knownThere
  induction pindex, known using index.tree.induct with
  | base =>
    intro _
    rw [Node.path, Node.path, path, path, index.tree.root_ancestors, other.tree.root_ancestors]
  | step node parent known parentKnown list ih =>
    intro knownThere
    have above : s.pprev node = some parent := by rw [Node.pprev, list, path, head?_cons]
    have notRoot : node ≠ P.hashGenesisBlock := by
      rintro rfl
      rw [index.tree.root_ancestors] at list
      exact absurd list (by simp [path])
    obtain ⟨parent', parentThere, list'⟩ := other.tree.child node knownThere notRoot
    have above' : t.pprev node = some parent' := by rw [Node.pprev, list', path, head?_cons]
    have same : parent' = parent :=
      (other.parent node knownThere parent' above').symm.trans (index.parent node known parent above)
    rw [same] at list' parentThere
    have paths : path s.ancestors parent = path t.ancestors parent := ih parentThere
    rw [Node.path, Node.path, path, path, list, list', paths]

theorem Indexed.linked_path (index : Indexed P T s) (pindex : Uint256) (known : pindex ∈ s.mapBlockIndex) :
    Linked T (s.path pindex).reverse := by
  induction pindex, known using index.tree.induct with
  | base =>
    rw [Node.path, path, index.tree.root_ancestors]
    exact isChain_singleton _
  | step node parent known parentKnown list ih =>
    have above : s.pprev node = some parent := by rw [Node.pprev, list, path, head?_cons]
    have whole : s.path node = node :: s.path parent := by rw [Node.path, path, list, Node.path]
    rw [whole, reverse_cons]
    refine isChain_append.mpr ⟨ih, isChain_singleton _, ?_⟩
    intro last ends first starts
    rw [head?_cons, mem_some_iff] at starts
    rw [getLast?_reverse, Node.path, path, head?_cons, mem_some_iff] at ends
    rw [← starts, ← ends]
    exact index.parent node known parent above

theorem Indexed.linked_vChain (index : Indexed P T s) : Linked T s.vChain := by
  obtain ⟨tip, known, chain⟩ := index.active
  rw [Node.vChain, chain]
  exact index.linked_path tip known

theorem Indexed.known_of_active (index : Indexed P T s) {pindex : Uint256} (member : pindex ∈ s.chainActive) :
    pindex ∈ s.mapBlockIndex := by
  obtain ⟨tip, known, chain⟩ := index.active
  rw [chain] at member
  exact index.tree.known_of_mem known member

variable {height : Nat} {fork : Uint256}

theorem known_below {t : Node} (index : Indexed P T s) (other : Indexed P T t) {pindex : Uint256}
    (found : t.vChain[height]? = some fork) (known : fork ∈ s.mapBlockIndex) (member : pindex ∈ t.vChain.take (height + 1)) :
    pindex ∈ s.mapBlockIndex := by
  obtain ⟨tip, tipKnown, chain⟩ := other.active
  have forkThere : fork ∈ t.mapBlockIndex :=
    other.known_of_active (mem_reverse.mp (mem_of_getElem? found))
  rw [Node.vChain, chain] at found member
  have turned : (t.path fork).reverse = (t.path tip).reverse.take (height + 1) :=
    (path_reverse_getElem other.tree tipKnown found).2.2
  rw [← turned] at member
  have below : pindex ∈ s.path fork := by
    rw [index.path_eq other fork known forkThere]
    exact mem_reverse.mp member
  exact index.tree.known_of_mem known below

theorem findFork_of_head {pindex : Uint256} {rest : List Uint256} (known : pindex ∈ s.mapBlockIndex)
    (active : s.contains pindex = true) : s.findForkInGlobalIndex (pindex :: rest) = some pindex := by
  have here : (s.mapBlockIndex.contains pindex && s.contains pindex) = true := by
    rw [contains_iff_mem.mpr known, active, Bool.and_self]
  have first : (pindex :: rest).find? (fun hash => s.mapBlockIndex.contains hash && s.contains hash) = some pindex :=
    find?_cons_of_pos here
  rw [Node.findForkInGlobalIndex, first]

theorem findFork_spec {t : Node} (index : Indexed P T s) (other : Indexed P T t) {start : Uint256}
    (known : start ∈ s.mapBlockIndex) : ∃ (height : Nat) (fork : Uint256), t.vChain[height]? = some fork ∧
      t.findForkInGlobalIndex (s.getLocator (some start)) = some fork ∧ fork ∈ s.mapBlockIndex := by
  obtain ⟨active, activeKnown, chain⟩ := index.active
  rw [Node.findForkInGlobalIndex]
  split
  next fork found =>
    have holds := find?_some found
    rw [and_eq_true] at holds
    have member := mem_path_of_mem_locator index.tree activeKnown chain known (mem_of_find?_eq_some found)
    exact ⟨t.nHeight fork, fork, vChain_of_contains holds.2, rfl, index.tree.known_of_mem known member⟩
  next nothing =>
    obtain ⟨tip, tipKnown, chainThere⟩ := other.active
    have genesis : P.hashGenesisBlock ∈ t.vChain := by
      rw [Node.vChain, chainThere]
      exact mem_reverse.mpr (other.tree.root_mem tipKnown)
    obtain ⟨height, found⟩ := mem_iff_getElem?.mp genesis
    have bottom : height = 0 := by
      rw [← nHeight_of_vChain other.tree tipKnown chainThere found, Node.nHeight, other.tree.root_ancestors]
      rfl
    rw [bottom] at found
    exact ⟨0, P.hashGenesisBlock, found, found, index.tree.root_known⟩

/-- What the peer sends to a node that it finds at a height of its chain. -/
def batchAfter (peer : Node) (height : Nat) : List Uint256 := (peer.vChain.drop (height + 1)).take MAX_HEADERS_RESULTS

variable {locator : List Uint256}

theorem processGetHeaders_batch (index : Indexed P T s) (named : 0 ∉ s.chainActive)
    {initialBlockDownload fWhitelisted : Bool} (serves : initialBlockDownload = false ∨ fWhitelisted = true)
    (asked : locator ≠ []) (found : s.vChain[height]? = some fork) (finds : s.findForkInGlobalIndex locator = some fork) :
    s.processGetHeaders T initialBlockDownload fWhitelisted locator 0 = some ((batchAfter s height).map T.header) := by
  obtain ⟨tip, known, chain⟩ := index.active
  have answers : (initialBlockDownload && !fWhitelisted) = false := by
    rcases serves with rfl | rfl
    · exact false_and _
    · exact and_false _
  have nonempty : locator.isEmpty = false := by rw [isEmpty_eq_false_iff]; exact asked
  rw [Node.processGetHeaders, answers, nonempty, finds, bind_some, next_of_vChain index.tree known chain found,
    headersFrom_vChain index named]
  rfl

theorem processHeaders_run {chain : List Uint256} (ready : Ready P T chain s) (above : Uint256) (run : List Uint256)
    (short : run.length ≤ MAX_HEADERS_RESULTS) (linked : Linked T (above :: run))
    (inside : ∀ pindex ∈ above :: run, pindex ∈ chain) (known : above ∈ s.mapBlockIndex) :
    ∃ s', s.processHeaders P (run.map T.header) =
        (s', if run.length = MAX_HEADERS_RESULTS then some (s'.getLocator run.getLast?) else none) ∧
      Ready P T chain s' ∧ (∀ pindex ∈ s.mapBlockIndex, pindex ∈ s'.mapBlockIndex) ∧
      ∀ pindex ∈ run, pindex ∈ s'.mapBlockIndex := by
  obtain ⟨s', ran, ready', grown, stored⟩ :=
    acceptHeaders_run ready above run linked inside known none nofun
  refine ⟨s', ?_, ready', grown, stored⟩
  rw [or_none] at ran
  cases shape : run with
  | nil =>
    rw [shape] at ran
    have same : s = s' := congrArg (fun result => result.2.1) ran
    rw [same]
    rfl
  | cons first rest =>
    rw [← shape]
    have notEmpty : (run.map T.header).isEmpty = false := by rw [shape]; rfl
    obtain ⟨final, ends⟩ : ∃ final, run.getLast? = some final := by
      rw [shape]
      exact ⟨_, getLast?_eq_some_getLast (by simp)⟩
    rw [Node.processHeaders, length_map, if_neg (not_lt.mpr short), notEmpty, ran, ends]
    by_cases full : run.length = MAX_HEADERS_RESULTS
    · simp [full]
    · simp [full]

theorem fork_cons_batch (found : s.vChain[height]? = some fork) :
    fork :: batchAfter s height = (s.vChain.drop height).take (MAX_HEADERS_RESULTS + 1) := by
  obtain ⟨inside, here⟩ := List.getElem?_eq_some_iff.mp found
  rw [batchAfter, drop_eq_getElem_cons inside, here, take_succ_cons]

theorem length_batchAfter (s : Node) (height : Nat) :
    (batchAfter s height).length = min MAX_HEADERS_RESULTS (s.vChain.length - (height + 1)) := by
  rw [batchAfter, length_take, length_drop]

theorem batchAfter_last {last : Uint256} (ends : (batchAfter s height).getLast? = some last) :
    s.vChain[height + (batchAfter s height).length]? = some last := by
  rw [List.getLast?_eq_getElem?] at ends
  have nonempty : 0 < (batchAfter s height).length :=
    lt_of_le_of_lt (Nat.zero_le _) (List.getElem?_eq_some_iff.mp ends).1
  have bounded : (batchAfter s height).length ≤ MAX_HEADERS_RESULTS := by
    rw [length_batchAfter]
    exact Nat.min_le_left _ _
  have place : height + 1 + ((batchAfter s height).length - 1) = height + (batchAfter s height).length := by omega
  conv at ends => lhs; arg 1; rw [batchAfter]
  rw [List.getElem?_take, if_pos (by omega), List.getElem?_drop, place] at ends
  exact ends

theorem batchAfter_contiguous (s : Node) (height : Nat) : ∃ front back, s.vChain = front ++ batchAfter s height ++ back := by
  refine ⟨s.vChain.take (height + 1), (s.vChain.drop (height + 1)).drop MAX_HEADERS_RESULTS, ?_⟩
  rw [batchAfter, append_assoc, take_append_drop, take_append_drop]

theorem batchAfter_rest (short : (batchAfter s height).length ≠ MAX_HEADERS_RESULTS) :
    batchAfter s height = s.vChain.drop (height + 1) := by
  have length := length_batchAfter s height
  rw [batchAfter]
  exact take_of_length_le (by rw [length_drop]; omega)

theorem exchange_mono {fuel more : Nat} {result : List Round × Node} (ends : exchange P T peer fuel s locator = some result)
    (enough : fuel ≤ more) : exchange P T peer more s locator = some result := by
  induction fuel generalizing s locator more result with
  | zero => exact absurd ends (by simp [exchange])
  | succ fuel ih =>
    obtain ⟨more, rfl⟩ : ∃ less, more = less + 1 := ⟨more - 1, by omega⟩
    rw [exchange] at ends ⊢
    split at ends
    next ignored => exact ends
    next batch answered =>
      split at ends
      next last stopped => exact ends
      next s' request asked =>
        obtain ⟨later, rest, whole⟩ := map_eq_some_iff.mp ends
        rw [ih rest (by omega), map_some, whole]

/-- What the rounds come to from a request that finds the node at a height of the chain. -/
structure FromHeight (T : HeaderTable) (peer : Node) (height : Nat) (rounds : List Round) (last : Node) : Prop where
  synchronised : Synchronised T peer rounds last
  above : ∀ round ∈ rounds, ∀ high ∈ round.batch.getLast?, height < peer.nHeight high.hash
  /-- Nothing is sent to a node at the tip only. -/
  atTip : ((rounds.map Round.batch).filter (!·.isEmpty)) = [] → peer.vChain.length = height + 1

theorem tip_eq_vChain (s : Node) : s.tip = s.vChain.getLast? := by
  rw [Node.vChain, getLast?_reverse]
  rfl

theorem nHeight_of_last (index : Indexed P T s) {high : BlockHeader}
    (ends : high ∈ ((batchAfter s height).map T.header).getLast?) :
    s.nHeight high.hash = height + (batchAfter s height).length := by
  obtain ⟨tip, known, chain⟩ := index.active
  rw [getLast?_map] at ends
  obtain ⟨last, final, rfl⟩ := map_eq_some_iff.mp ends
  rw [T.hash_header]
  exact nHeight_of_vChain index.tree known chain (batchAfter_last final)

theorem batchAfter_connects (index : Indexed P T s) {first : BlockHeader} (found : s.vChain[height]? = some fork)
    (starts : first ∈ ((batchAfter s height).map T.header).head?) : first.hashPrevBlock = fork := by
  have linked : Linked T (fork :: batchAfter s height) := by
    rw [fork_cons_batch found]
    exact (index.linked_vChain.drop _).take _
  cases shape : batchAfter s height with
  | nil =>
    rw [shape] at starts
    cases starts
  | cons pindex rest =>
    rw [shape] at starts linked
    rw [map_cons, head?_cons, mem_some_iff] at starts
    rw [← starts]
    exact (isChain_cons_cons.mp linked).1

theorem outcome_last (index : Indexed P T s) {node last : Node} (found : s.vChain[height]? = some fork)
    (known : fork ∈ node.mapBlockIndex) (short : (batchAfter s height).length ≠ MAX_HEADERS_RESULTS)
    (below : ∀ pindex ∈ s.vChain.take (height + 1), pindex ∈ last.mapBlockIndex)
    (stored : ∀ pindex ∈ batchAfter s height, pindex ∈ last.mapBlockIndex) :
    FromHeight T s height [⟨node, (batchAfter s height).map T.header⟩] last := by
  have rest := batchAfter_rest short
  obtain ⟨inside, -⟩ := List.getElem?_eq_some_iff.mp found
  refine ⟨⟨?_, ?_, pairwise_singleton _ _, ?_, ?_⟩, ?_, ?_⟩
  · intro round member
    obtain ⟨front, back, whole⟩ := batchAfter_contiguous s height
    rw [mem_singleton.mp member]
    exact ⟨front, batchAfter s height, back, whole, rfl⟩
  · intro round member first starts
    rw [mem_singleton.mp member] at starts ⊢
    rw [batchAfter_connects index found starts]
    exact known
  · intro pindex active
    have member : pindex ∈ s.vChain.take (height + 1) ++ s.vChain.drop (height + 1) := by
      rw [take_append_drop]
      exact mem_reverse.mpr active
    rcases mem_append.mp member with low | high
    · exact below pindex low
    · exact stored pindex (rest ▸ high)
  · intro batch ends
    have nonempty : batch ∈ ([⟨node, (batchAfter s height).map T.header⟩].map Round.batch).filter (!·.isEmpty) :=
      mem_of_getLast? ends
    rw [map_singleton, mem_filter, mem_singleton] at nonempty
    obtain ⟨rfl, some⟩ := nonempty
    have long : height + 1 < s.vChain.length := by
      by_contra outside
      rw [rest, drop_eq_nil_of_le (by omega)] at some
      cases some
    have hashes : BlockHeader.hash ∘ T.header = id := funext T.hash_header
    rw [List.getLast?_map, Option.map_map, hashes, Option.map_id, id, rest, List.getLast?_drop, if_neg (by omega),
      tip_eq_vChain]
  · intro round member high ends
    rw [mem_singleton.mp member] at ends
    rw [nHeight_of_last index ends]
    cases shape : batchAfter s height with
    | nil =>
      rw [shape] at ends
      cases ends
    | cons first later =>
      rw [length_cons]
      omega
  · intro nothing
    rw [map_singleton, filter_singleton, rest] at nothing
    by_contra other
    have long : height + 1 < s.vChain.length := by omega
    rw [drop_eq_getElem_cons long, map_cons] at nothing
    exact cons_ne_nil _ _ nothing

theorem outcome_more (index : Indexed P T s) {node last : Node} (found : s.vChain[height]? = some fork)
    (known : fork ∈ node.mapBlockIndex) (full : (batchAfter s height).length = MAX_HEADERS_RESULTS) {rounds : List Round}
    (later : FromHeight T s (height + (batchAfter s height).length) rounds last) :
    FromHeight T s height (⟨node, (batchAfter s height).map T.header⟩ :: rounds) last := by
  have positive : 0 < MAX_HEADERS_RESULTS := by decide
  have notEmpty : ((batchAfter s height).map T.header).isEmpty = false := by
    rw [isEmpty_eq_false_iff, ← length_pos_iff_ne_nil, length_map, full]
    exact positive
  have nonempty : ((⟨node, (batchAfter s height).map T.header⟩ :: rounds).map Round.batch).filter (!·.isEmpty) =
      (batchAfter s height).map T.header :: (rounds.map Round.batch).filter (!·.isEmpty) := by
    rw [map_cons, filter_cons_of_pos (by rw [notEmpty]; rfl)]
  refine ⟨⟨?_, ?_, ?_, later.synchronised.complete, ?_⟩, ?_, ?_⟩
  · rintro round (_ | ⟨_, member⟩)
    · obtain ⟨front, back, whole⟩ := batchAfter_contiguous s height
      exact ⟨front, batchAfter s height, back, whole, rfl⟩
    · exact later.synchronised.contiguous round member
  · rintro round (_ | ⟨_, member⟩) first starts
    · rw [batchAfter_connects index found starts]
      exact known
    · exact later.synchronised.connects round member first starts
  · refine pairwise_cons.mpr ⟨?_, later.synchronised.higher⟩
    intro round member low ends high above
    rw [nHeight_of_last index ends]
    exact later.above round member high above
  · intro batch ends
    rw [nonempty] at ends
    cases shape : (rounds.map Round.batch).filter (!·.isEmpty) with
    | nil =>
      rw [shape, getLast?_singleton, some.injEq] at ends
      have hashes : BlockHeader.hash ∘ T.header = id := funext T.hash_header
      have length := later.atTip shape
      obtain ⟨final, finishes⟩ : ∃ final, (batchAfter s height).getLast? = some final :=
        ⟨_, getLast?_eq_some_getLast (ne_nil_of_length_pos (by omega))⟩
      rw [← ends, List.getLast?_map, Option.map_map, hashes, Option.map_id, id, finishes, tip_eq_vChain,
        getLast?_eq_getElem?, length, Nat.add_sub_cancel, batchAfter_last finishes]
    | cons second more =>
      rw [shape, getLast?_cons_cons, ← shape] at ends
      exact later.synchronised.tip batch ends
  · rintro round (_ | ⟨_, member⟩) high ends
    · rw [nHeight_of_last index ends]
      omega
    · have far := later.above round member high ends
      omega
  · intro nothing
    rw [nonempty] at nothing
    cases nothing

theorem exchange_from (index : Indexed P T peer.node) (named : 0 ∉ peer.node.chainActive)
    (serves : peer.initialBlockDownload = false ∨ peer.fWhitelisted = true) (fuel : Nat)
    (ready : Ready P T peer.node.chainActive s) (asked : locator ≠ []) (found : peer.node.vChain[height]? = some fork)
    (finds : peer.node.findForkInGlobalIndex locator = some fork) (known : fork ∈ s.mapBlockIndex)
    (enough : peer.node.vChain.length ≤ height + fuel) :
    ∃ rounds last, exchange P T peer fuel s locator = some (rounds, last) ∧ FromHeight T peer.node height rounds last := by
  induction fuel generalizing s height fork locator with
  | zero =>
    have inside := (List.getElem?_eq_some_iff.mp found).1
    omega
  | succ fuel ih =>
    have slice := fork_cons_batch found
    have linked : Linked T (fork :: batchAfter peer.node height) := by
      rw [slice]
      exact (index.linked_vChain.drop _).take _
    have inside (pindex : Uint256) (member : pindex ∈ fork :: batchAfter peer.node height) :
        pindex ∈ peer.node.chainActive := by
      rw [slice] at member
      exact mem_reverse.mp (mem_of_mem_drop (mem_of_mem_take member))
    have short : (batchAfter peer.node height).length ≤ MAX_HEADERS_RESULTS := by
      rw [length_batchAfter]
      exact Nat.min_le_left _ _
    obtain ⟨s', processed, ready', grown, stored⟩ := processHeaders_run ready fork _ short linked inside known
    rw [exchange, processGetHeaders_batch index named serves asked found finds]
    simp only [processed]
    by_cases full : (batchAfter peer.node height).length = MAX_HEADERS_RESULTS
    · rw [if_pos full]
      obtain ⟨final, ends⟩ : ∃ final, (batchAfter peer.node height).getLast? = some final :=
        ⟨_, getLast?_eq_some_getLast (ne_nil_of_length_pos (by rw [full]; decide))⟩
      obtain ⟨rest, locator'⟩ := locator_head s' final
      have found' := batchAfter_last ends
      obtain ⟨tip, tipKnown, chain⟩ := index.active
      have finds' : peer.node.findForkInGlobalIndex (s'.getLocator (some final)) = some final := by
        rw [locator']
        exact findFork_of_head (index.known_of_active (inside final (mem_cons_of_mem _ (mem_of_getLast? ends))))
          (contains_of_vChain index.tree tipKnown chain found')
      have positive : 0 < MAX_HEADERS_RESULTS := by decide
      obtain ⟨rounds, last, later, outcome⟩ := ih ready' (by rw [locator']; simp) found' finds'
        (stored final (mem_of_getLast? ends)) (by omega)
      rw [ends]
      refine ⟨_, last, ?_, outcome_more index found known full outcome⟩
      simp only [later, map_some]
    · rw [if_neg full]
      refine ⟨_, s', rfl, outcome_last index found known full ?_ stored⟩
      exact fun pindex member => grown pindex (known_below ready.index index found known member)

theorem Indexed.pindexStart_mem (index : Indexed P T s) {pindexBestHeader : Uint256}
    (known : pindexBestHeader ∈ s.mapBlockIndex) : s.pindexStart pindexBestHeader ∈ s.mapBlockIndex := by
  rw [Node.pindexStart, Node.pprev]
  cases list : s.ancestors pindexBestHeader with
  | nil => exact known
  | cons above rest =>
    refine index.tree.known_of_mem known (mem_path_of_mem ?_)
    rw [list]
    exact mem_cons_self

/-- An exchange that starts at any block the node knows, such as the best header or the block before it, ends and leaves
the node with every block of the active chain of the peer. The null hash asks for no stop, and is no block's hash. -/
theorem header_sync_completes (P : Params) (T : HeaderTable) (s : Node) (peer : Peer) (start : Uint256)
    (index : Indexed P T s) (indexThere : Indexed P T peer.node)
    (serves : peer.initialBlockDownload = false ∨ peer.fWhitelisted = true) (known : start ∈ s.mapBlockIndex)
    (acceptable : ∀ pindex ∈ peer.node.chainActive, Acceptable T s pindex) (named : 0 ∉ peer.node.chainActive) :
    ∃ rounds last, Synchronised T peer.node rounds last ∧ ∀ fuel, peer.node.chainActive.length ≤ fuel →
      exchange P T peer fuel s (s.getLocator (some start)) = some (rounds, last) := by
  obtain ⟨height, fork, found, finds, forkKnown⟩ := findFork_spec index indexThere known
  obtain ⟨rest, locator⟩ := locator_head s start
  have length : peer.node.vChain.length = peer.node.chainActive.length := length_reverse
  obtain ⟨rounds, last, ends, outcome⟩ := exchange_from indexThere named serves peer.node.chainActive.length
    ⟨index, acceptable⟩ (by rw [locator]; simp) found finds forkKnown (by omega)
  exact ⟨rounds, last, outcome.synchronised, fun fuel enough => exchange_mono ends enough⟩

theorem indexed_initBlockIndex (P : Params) (T : HeaderTable) (blockProof : Nat) :
    Indexed P T (Node.initBlockIndex P blockProof) := by
  refine ⟨⟨mem_singleton_self _, rfl, ?_⟩, ?_, P.hashGenesisBlock, mem_singleton_self _, rfl⟩
  · intro node known notRoot
    exact absurd (mem_singleton.mp known) notRoot
  · intro pindex known above found
    exact absurd found (by simp [Node.pprev, Node.initBlockIndex])

theorem Indexed.activate (index : Indexed P T s) {tip : Uint256} (known : tip ∈ s.mapBlockIndex) :
    Indexed P T { s with chainActive := s.path tip } := ⟨index.tree, index.parent, tip, known, rfl⟩

def forkParams : Params := ⟨1, fun _ => true, rfl, addressByHash⟩

def forkTable : HeaderTable where
  header hash := ⟨hash, if hash = 3 then 2 else 1, 1, true, fun _ => Nat.one_pos⟩
  hash_header _ := rfl

def forkIndex : Node :=
  ((Node.initBlockIndex forkParams 1).addToBlockIndex (forkTable.header 2)).addToBlockIndex (forkTable.header 3)

def forkPeer : Peer := ⟨{ forkIndex with chainActive := forkIndex.path 3 }, false, false⟩

def forkNode : Node := (Node.initBlockIndex forkParams 1).addToBlockIndex (forkTable.header 4)

theorem fork_header_sync : ∃ rounds last, Synchronised forkTable forkPeer.node rounds last ∧
    ∀ fuel, forkPeer.node.chainActive.length ≤ fuel → exchange forkParams forkTable forkPeer fuel forkNode
        (forkNode.getLocator (some (forkNode.pindexStart 4))) = some (rounds, last) := by
  have start := indexed_initBlockIndex forkParams forkTable 1
  have index : Indexed forkParams forkTable forkNode := start.addToBlockIndex 4 (by decide)
  have indexThere : Indexed forkParams forkTable forkIndex :=
    (start.addToBlockIndex 2 (by decide)).addToBlockIndex 3 (by decide)
  have clean (pindex : Uint256) : forkNode.failed pindex = false := by
    rw [forkNode, failed_addToBlockIndex _ (by decide), Function.update_apply]
    split_ifs <;> rfl
  exact header_sync_completes forkParams forkTable forkNode forkPeer _ index
    (indexThere.activate (by decide)) (.inl rfl) (index.pindexStart_mem (by decide)) (fun pindex _ => ⟨rfl, fun _ => clean pindex⟩)
    (by decide)

end Longcoin.BlockTree

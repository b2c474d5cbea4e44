import Longcoin.Announcements
import Longcoin.FailureFlags

/-! The announcement list over runs: what every step leaves of the tree, and when the list stays a sequence that `SendMessages`
can send. -/

namespace Longcoin.Announcements
open Primitives Library Library.Outcome BlockTree Ancestry List Option

structure Sound (P : Params) (s : Node) : Prop where
  standing : Standing P s
  candidates : ∀ pindex ∈ s.setBlockIndexCandidates, pindex ∈ s.mapBlockIndex
  unlinked : ∀ pair ∈ s.mapBlocksUnlinked, pair.2 ∈ s.mapBlockIndex

structure SameTree (s s' : Node) : Prop where
  mapBlockIndex : s'.mapBlockIndex = s.mapBlockIndex
  ancestors : s'.ancestors = s.ancestors
  nChainWork : s'.nChainWork = s.nChainWork

def Grown (s s' : Node) : Prop := ∀ pindex ∈ s.mapBlockIndex, pindex ∈ s'.mapBlockIndex ∧ s'.ancestors pindex = s.ancestors pindex

section Frames

variable {P : Params} {s s' s'' : Node} {pindex : Uint256}

namespace SameTree

theorem refl (s : Node) : SameTree s s := ⟨rfl, rfl, rfl⟩

theorem trans (first : SameTree s s') (second : SameTree s' s'') : SameTree s s'' :=
  ⟨second.mapBlockIndex.trans first.mapBlockIndex, second.ancestors.trans first.ancestors, second.nChainWork.trans first.nChainWork⟩

theorem path (same : SameTree s s') (pindex : Uint256) : s'.path pindex = s.path pindex := by
  rw [Node.path, Node.path, same.ancestors]

theorem shape (same : SameTree s s') (shape : Shape P s) : Shape P s' := by
  refine ⟨?_, ?_⟩
  · rw [same.mapBlockIndex, same.ancestors]
    exact shape.tree
  · rw [same.mapBlockIndex, same.ancestors, same.nChainWork]
    intro pindex parent known list
    rw [same.path] at list
    exact shape.work pindex parent known list

theorem grown (same : SameTree s s') : Grown s s' := by
  intro pindex known
  rw [same.mapBlockIndex, same.ancestors]
  exact ⟨known, rfl⟩

theorem standing (same : SameTree s s') (standing : Standing P s) (chain : s'.chainActive = s.chainActive) : Standing P s' := by
  obtain ⟨tip, known, isPath⟩ := standing.chain
  refine ⟨same.shape standing.shape, tip, (same.grown tip known).1, ?_⟩
  rw [chain, same.path]
  exact isPath

end SameTree

theorem Listed.grown {list : List Uint256} (listed : Listed P s list) (grown : Grown s s') : Listed P s' list := by
  refine ⟨fun hash member => ⟨(grown hash (listed.known hash member).1).1, (listed.known hash member).2⟩, ?_⟩
  apply listed.follows.imp_of_mem_imp
  intro before after member member' follows
  have one := (grown before (listed.known before member).1).2
  have two := (grown after (listed.known after member').1).2
  rw [Follows, Node.pprev, Node.path, Node.path, path, path, one, two]
  exact follows

theorem Sound.newEntry (sound : Sound P s) {block : BlockHeader} (new : block.hash ∉ s.mapBlockIndex)
    (prevKnown : block.hashPrevBlock ∈ s.mapBlockIndex) (work : 0 < block.blockProof) :
    Sound P (newEntry s block) ∧ Grown s (newEntry s block) := by
  obtain ⟨tip, known, chain⟩ := sound.standing.chain
  have grown : Grown s (BlockTree.newEntry s block) := fun pindex known =>
    ⟨mem_cons_of_mem _ known, (old_newEntry new known).ancestors⟩
  refine ⟨⟨⟨shape_newEntry sound.standing.shape new prevKnown work, tip, (grown tip known).1, ?_⟩, ?_, ?_⟩, grown⟩
  · exact chain.trans (old_newEntry new known).path.symm
  · exact fun pindex member => (grown pindex (sound.candidates pindex member)).1
  · exact fun pair member => (grown pair.2 (sound.unlinked pair member)).1

theorem Sound.acceptBlockHeader (sound : Sound P s) (block : BlockHeader) :
    Sound P (s.acceptBlockHeader P block).2 ∧ Grown s (s.acceptBlockHeader P block).2 ∧
      ((s.acceptBlockHeader P block).1 = true → block.hash ∈ (s.acceptBlockHeader P block).2.mapBlockIndex) := by
  have genesisKnown := sound.standing.shape.tree.root_known
  have same : Grown s s := (SameTree.refl s).grown
  unfold Node.acceptBlockHeader
  split_ifs with genesis known checked prev marked
  · rw [Node.addToBlockIndex, if_pos (genesis ▸ genesisKnown)]
    exact ⟨sound, same, fun _ => genesis ▸ genesisKnown⟩
  · exact ⟨sound, same, fun _ => known⟩
  · exact ⟨sound, same, by simp⟩
  · exact ⟨sound, same, by simp⟩
  · rw [addToBlockIndex_eq known prev]
    obtain ⟨sound', grown⟩ := sound.newEntry known prev (block.positive (by simpa using checked))
    exact ⟨sound', grown, fun _ => mem_cons_self⟩
  · exact ⟨sound, same, by simp⟩

theorem Sound.linkQueue (bound : Nat) : ∀ {s : Node} {queue : List Uint256}, Sound P s → (∀ pindex ∈ queue, pindex ∈ s.mapBlockIndex) →
    Sound P (Node.linkQueue bound s queue) ∧ SameTree s (Node.linkQueue bound s queue) := by
  induction bound with
  | zero => exact fun sound _ => ⟨sound, SameTree.refl _⟩
  | succ bound ih =>
    intro s queue sound known
    cases queue with
    | nil => exact ⟨sound, SameTree.refl _⟩
    | cons pindex queue =>
      have step : SameTree s (turn s pindex) := ⟨rfl, rfl, rfl⟩
      have next : Sound P (turn s pindex) := by
        refine ⟨step.standing sound.standing rfl, ?_, ?_⟩
        · intro other member
          rcases mem_candidates_linkBlock member with rfl | before
          · exact known other mem_cons_self
          · exact sound.candidates other before
        · intro pair member
          exact sound.unlinked pair (mem_filter.mp member).1
      obtain ⟨sound', same⟩ := @ih (turn s pindex) (queue ++ range s pindex) next fun other member => by
        rcases mem_append.mp member with inQueue | inRange
        · exact known other (mem_cons_of_mem _ inQueue)
        · exact sound.unlinked _ (mem_range.mp inRange)
      exact ⟨sound', step.trans same⟩

section

variable (sound : Sound P s)
include sound

theorem Sound.receivedBlockTransactions (known : pindex ∈ s.mapBlockIndex) (nTx : Nat) :
    Sound P (s.receivedBlockTransactions pindex nTx) ∧ SameTree s (s.receivedBlockTransactions pindex nTx) := by
  have step : SameTree s (store s pindex nTx) := ⟨rfl, rfl, rfl⟩
  have stored : Sound P (store s pindex nTx) := ⟨step.standing sound.standing rfl, sound.candidates, sound.unlinked⟩
  have linked := @Sound.linkQueue P (s.mapBlocksUnlinked.length + 1) (store s pindex nTx) [pindex] stored fun other member => by
    rw [mem_singleton.mp member]
    exact known
  have result : Sound P (Node.linkQueue (s.mapBlocksUnlinked.length + 1) (store s pindex nTx) [pindex]) ∧
      SameTree s (Node.linkQueue (s.mapBlocksUnlinked.length + 1) (store s pindex nTx) [pindex]) :=
    ⟨linked.1, step.trans linked.2⟩
  unfold Node.receivedBlockTransactions
  dsimp only
  split
  next => exact result
  next parent _ =>
    split_ifs
    · exact result
    · have waits : SameTree s { store s pindex nTx with mapBlocksUnlinked := s.mapBlocksUnlinked ++ [(parent, pindex)] } := ⟨rfl, rfl, rfl⟩
      refine ⟨⟨waits.standing sound.standing rfl, sound.candidates, fun pair member => ?_⟩, rfl, rfl, rfl⟩
      rcases mem_append.mp member with before | new
      · exact sound.unlinked pair before
      · rw [mem_singleton.mp new]
        exact known
    · exact ⟨stored, rfl, rfl, rfl⟩

theorem Sound.acceptBlock (block : Block) : Sound P (s.acceptBlock P block) ∧ Grown s (s.acceptBlock P block) := by
  obtain ⟨sound', grown, known⟩ := sound.acceptBlockHeader block.header
  refine acceptBlock_cases (Q := fun after => Sound P after ∧ Grown s after) block ⟨sound', grown⟩ fun accepted _ => ⟨fun _ => ?_, ?_⟩
  · obtain ⟨sound'', same⟩ := sound'.receivedBlockTransactions (known accepted) block.nTx
    refine ⟨sound'', fun pindex isKnown => ?_⟩
    obtain ⟨inside, list⟩ := grown pindex isKnown
    obtain ⟨inside', list'⟩ := same.grown pindex inside
    exact ⟨inside', list'.trans list⟩
  · have marked : SameTree (s.acceptBlockHeader P block.header).2 (mark (s.acceptBlockHeader P block.header).2 block.header.hash) :=
      ⟨rfl, rfl, rfl⟩
    exact ⟨⟨marked.standing sound'.standing rfl, sound'.candidates, sound'.unlinked⟩, grown⟩

theorem Sound.addCandidates (test : Uint256 → Bool) :
    Sound P (BlockTree.addCandidates s test) ∧ SameTree s (BlockTree.addCandidates s test) := by
  have same : SameTree s (BlockTree.addCandidates s test) := ⟨rfl, rfl, rfl⟩
  refine ⟨⟨same.standing sound.standing rfl, fun other member => ?_, sound.unlinked⟩, same⟩
  rcases mem_append.mp member with before | added
  · exact sound.candidates other before
  · exact (mem_filter.mp added).1

theorem Sound.invalidateBlock
    (pindex : Uint256) : Sound P (s.invalidateBlock pindex) ∧ SameTree s (s.invalidateBlock pindex) := by
  obtain ⟨tip, tipKnown, active⟩ := sound.standing.chain
  have nonempty : s.chainActive ≠ [] := by
    rw [active]
    exact cons_ne_nil _ _
  obtain ⟨disconnected, failedChild, candidates, chain, result, retracted⟩ := invalidateLoop_spec s.chainActive.length
    pindex ((mark s pindex).eraseCandidate pindex) nonempty le_rfl
  have fewer {other : Uint256} (member : other ∈ candidates) : other ∈ s.mapBlockIndex :=
    sound.candidates other (mem_filter.mp (retracted.candidates.subset member)).1
  have isPath : ∃ newTip ∈ s.mapBlockIndex, chain = s.path newTip := by
    have suffix : chain <:+ s.path tip := active ▸ retracted.suffix
    cases chain with
    | nil => exact absurd rfl retracted.nonempty
    | cons newTip below =>
      exact ⟨newTip, sound.standing.shape.tree.known_of_mem tipKnown (suffix.subset mem_cons_self),
        sound.standing.shape.tree.eq_path_of_suffix tipKnown suffix⟩
  have taken : Sound P (retract ((mark s pindex).eraseCandidate pindex) failedChild candidates chain) :=
    ⟨⟨{ sound.standing.shape with }, isPath⟩, fun _ => fewer, sound.unlinked⟩
  have unfolded : s.invalidateBlock pindex = (fun result : Bool × Node => if !result.1 then result.2 else
      BlockTree.addCandidates result.2 fun other => result.2.isValidTransactions other && result.2.nChainTx other != 0 &&
        result.2.tip.all (fun tip => !result.2.workLess other tip) && other ∉ result.2.setBlockIndexCandidates)
      (Node.invalidateLoop s.chainActive.length ((mark s pindex).eraseCandidate pindex) pindex) := rfl
  rw [unfolded, result]
  have same : SameTree s (retract ((mark s pindex).eraseCandidate pindex) failedChild candidates chain) := ⟨rfl, rfl, rfl⟩
  cases disconnected with
  | false => exact ⟨taken, same⟩
  | true =>
    obtain ⟨sound', same'⟩ := taken.addCandidates _
    exact ⟨sound', same.trans same'⟩

theorem Sound.reconsiderBlock
    (pindex : Uint256) : Sound P (s.reconsiderBlock pindex) ∧ SameTree s (s.reconsiderBlock pindex) := by
  have same : SameTree s (s.reconsiderBlock pindex) := ⟨rfl, rfl, rfl⟩
  refine ⟨⟨same.standing sound.standing rfl, fun other member => ?_, sound.unlinked⟩, same⟩
  rcases mem_append.mp member with before | added
  · exact sound.candidates other before
  · exact (mem_filter.mp added).1

theorem Sound.removeChain {above : List Uint256} (pindexTest : Uint256) (known : ∀ pindex ∈ above, pindex ∈ s.mapBlockIndex) :
    Sound P (s.removeChain above pindexTest) ∧ SameTree s (s.removeChain above pindexTest) := by
  have same : SameTree s (s.removeChain above pindexTest) := ⟨rfl, rfl, rfl⟩
  refine ⟨⟨same.standing sound.standing rfl, fun other member => ?_, fun pair member => ?_⟩, same⟩
  · exact sound.candidates other (mem_filter.mp member).1
  · rw [Node.removeChain] at member
    dsimp only at member
    split_ifs at member
    · exact sound.unlinked pair member
    · rcases mem_append.mp member with before | added
      · exact sound.unlinked pair before
      · obtain ⟨pindex, inside, isPair⟩ := mem_filterMap.mp added
        obtain ⟨parent, -, rfl⟩ := map_eq_some_iff.mp isPair
        exact known pindex inside

end

theorem Sound.findMostWorkChain (fuel : Nat) : ∀ {s s' : Node} {found : Option Uint256}, Sound P s →
    s.findMostWorkChain fuel = .ok (s', found) → Sound P s' ∧ SameTree s s' ∧ s'.chainActive = s.chainActive ∧
      ∀ pindexMostWork, found = some pindexMostWork → pindexMostWork ∈ s.mapBlockIndex := by
  induction fuel with
  | zero =>
    intro s s' found _ result
    cases result
  | succ fuel ih =>
    intro s s' found sound result
    rw [Node.findMostWorkChain] at result
    cases best : s.bestCandidate with
    | none =>
      rw [best] at result
      obtain ⟨rfl, rfl⟩ := Prod.mk.inj (Except.ok.inj result)
      exact ⟨sound, SameTree.refl _, rfl, by simp⟩
    | some pindexNew =>
      have known := sound.candidates pindexNew (Node.bestCandidate_some best).1
      rw [best] at result
      dsimp only at result
      split at result
      · split_ifs at result
        obtain ⟨rfl, rfl⟩ := Prod.mk.inj (Except.ok.inj result)
        refine ⟨sound, SameTree.refl _, rfl, fun pindexMostWork same => ?_⟩
        rw [← some.inj same]
        exact known
      · split_ifs at result
        obtain ⟨sound', same⟩ := @Sound.removeChain P s sound ((s.untested pindexNew).takeWhile s.usable) _ fun pindex inside =>
          sound.standing.shape.tree.known_of_mem known (( takeWhile_prefix _).subset (( takeWhile_prefix _).subset inside))
        obtain ⟨sound'', same', chain, isKnown⟩ := ih sound' result
        exact ⟨sound'', same.trans same', chain, isKnown⟩

/-- Blocks are connected on the way to a candidate; the way may end early. With the first block the chain has more work than
its tip had. -/
theorem Sound.connectBlocks (oldWork : Option Nat) {pindexMostWork : Uint256} {todo : List Uint256} : ∀ {s s' : Node} {fContinue : Bool}, Sound P s →
    pindexMostWork ∈ s.mapBlockIndex → todo.reverse ++ s.chainActive = s.path pindexMostWork →
    Node.connectBlocks P oldWork s todo = .ok (fContinue, s') → Sound P s' ∧ SameTree s s' ∧
      ∃ done, done <+: todo ∧ s'.chainActive = done.reverse ++ s.chainActive ∧
        ((∀ first, todo.head? = some first → oldWork.all (fun work => s.nChainWork first > work) = true) → done.length ≤ 1) := by
  induction todo with
  | nil =>
    intro s s' fContinue sound _ _ result
    obtain ⟨-, rfl⟩ := Prod.mk.inj (Except.ok.inj result)
    exact ⟨sound, SameTree.refl _, [], prefix_refl _, rfl, fun _ => Nat.zero_le _⟩
  | cons pindexConnect rest ih =>
    intro s s' fContinue sound known route result
    have onPath : pindexConnect :: s.chainActive = s.path pindexConnect := by
      apply sound.standing.shape.tree.eq_path_of_suffix known
      rw [reverse_cons, append_assoc, singleton_append] at route
      exact ⟨rest.reverse, route⟩
    have nextKnown : pindexConnect ∈ s.mapBlockIndex := by
      apply sound.standing.shape.tree.known_of_mem known
      change pindexConnect ∈ s.path pindexMostWork
      rw [← route]
      exact mem_append_left _ (mem_reverse.mpr mem_cons_self)
    have stays {after : Node} (sound' : Sound P after) (same : SameTree s after) (chain : after.chainActive = s.chainActive) :
        Sound P after ∧ SameTree s after ∧ ∃ done, done <+: pindexConnect :: rest ∧ after.chainActive = done.reverse ++ s.chainActive ∧
          ((∀ first, (pindexConnect :: rest).head? = some first → oldWork.all (fun work => s.nChainWork first > work) = true) →
            done.length ≤ 1) :=
      ⟨sound', same, [], nil_prefix, chain, fun _ => Nat.zero_le _⟩
    rw [Node.connectBlocks] at result
    obtain ⟨⟨connected, middle⟩, isConnected, result⟩ := bind_ok.mp result
    rw [Node.connectTip] at isConnected
    split_ifs at isConnected with parent connects
    · obtain ⟨rfl, rfl⟩ := Prod.mk.inj (Except.ok.inj isConnected)
      dsimp only at result
      rw [Bool.not_true, if_neg Bool.false_ne_true] at result
      obtain ⟨pruned, isPruned, result⟩ := bind_ok.mp result
      rw [Node.pruneBlockIndexCandidates] at isPruned
      dsimp only at isPruned
      split_ifs at isPruned
      obtain rfl := Except.ok.inj isPruned
      generalize isAfter : ({ s with
        chainActive := s.path pindexConnect
        setBlockIndexCandidates := s.setBlockIndexCandidates.filter fun pindex =>
          !(Node.tip { s with chainActive := s.path pindexConnect }).any fun tip =>
            Node.workLess { s with chainActive := s.path pindexConnect } pindex tip } : Node) = after at result
      have same : SameTree s after := by
        rw [← isAfter]
        exact ⟨rfl, rfl, rfl⟩
      have chain : after.chainActive = pindexConnect :: s.chainActive := by
        rw [onPath, ← isAfter]
      have sound' : Sound P after := by
        rw [← isAfter] at same ⊢
        exact ⟨⟨same.shape sound.standing.shape, pindexConnect, nextKnown, rfl⟩,
          fun other member => sound.candidates other (mem_filter.mp member).1, sound.unlinked⟩
      have one : [pindexConnect] <+: pindexConnect :: rest := ⟨rest, rfl⟩
      change (if oldWork.all (fun work => after.nChainWork pindexConnect > work) = true then Except.ok (false, after) else
        Node.connectBlocks P oldWork after rest) = .ok (fContinue, s') at result
      split_ifs at result with more
      · obtain ⟨-, rfl⟩ := Prod.mk.inj (Except.ok.inj result)
        exact ⟨sound', same, [pindexConnect], one, chain, fun _ => le_rfl⟩
      · have route' : rest.reverse ++ after.chainActive = after.path pindexMostWork := by
          rw [chain, same.path, ← route, reverse_cons, append_assoc, singleton_append]
        rw [← same.mapBlockIndex] at known
        obtain ⟨sound'', same', done, isPrefix, chain', -⟩ := ih sound' known route' result
        refine ⟨sound'', same.trans same', pindexConnect :: done, cons_prefix_cons.mpr ⟨rfl, isPrefix⟩, ?_, fun less => ?_⟩
        · rw [chain', chain, reverse_cons, append_assoc, singleton_append]
        · rw [same.nChainWork] at more
          exact absurd (less pindexConnect rfl) more
    · obtain ⟨rfl, rfl⟩ := Prod.mk.inj (Except.ok.inj isConnected)
      dsimp only at result
      rw [Bool.not_false, if_pos rfl] at result
      obtain ⟨-, rfl⟩ := Prod.mk.inj (Except.ok.inj result)
      refine stays ?_ ⟨rfl, rfl, rfl⟩ rfl
      have same : SameTree s (Node.eraseCandidate (mark s pindexConnect) pindexConnect) := ⟨rfl, rfl, rfl⟩
      exact ⟨same.standing sound.standing rfl, fun other member => sound.candidates other (mem_filter.mp member).1, sound.unlinked⟩

/-- What a step leaves on the chain: the fork point with some of the blocks toward the candidate. -/
structure Moved (s s' : Node) (pindexMostWork fork : Uint256) (new : List Uint256) : Prop where
  forks : Forks s pindexMostWork fork
  inside : new <:+ s.untested pindexMostWork
  chain : s'.chainActive = new ++ s.path fork
  single : s.tip = some fork → new.length ≤ 1

theorem not_active_of_untested {pindexMostWork : Uint256} (member : pindex ∈ s.untested pindexMostWork) : pindex ∉ s.chainActive := by
  have off := mem_takeWhile_imp member
  simpa using off

theorem path_of_route (shape : Shape P s) {pindexMostWork fork : Uint256} {above below : List Uint256} (known : pindexMostWork ∈ s.mapBlockIndex)
    (route : above ++ pindex :: below ++ s.path fork = s.path pindexMostWork) : s.path pindex = pindex :: below ++ s.path fork := by
  apply Eq.symm
  apply shape.tree.eq_path_of_suffix known
  rw [append_assoc] at route
  exact ⟨above, route⟩

theorem Sound.activateBestChainStep (sound : Sound P s) {pindexMostWork : Uint256} (known : pindexMostWork ∈ s.mapBlockIndex)
    (result : s.activateBestChainStep P pindexMostWork = .ok s') : Sound P s' ∧ SameTree s s' ∧ ∃ fork new, Moved s s' pindexMostWork fork new := by
  obtain ⟨tip, tipKnown, chain⟩ := sound.standing.chain
  have shape := sound.standing.shape
  have isTip : s.tip = some tip := by
    rw [Node.tip, chain]
    rfl
  obtain ⟨fork, forks⟩ := forks_of_known shape tipKnown chain known
  have forkOnPath : fork ∈ s.path tip := chain ▸ forks.active
  have forkKnown : fork ∈ s.mapBlockIndex := shape.tree.known_of_mem tipKnown forkOnPath
  have same : SameTree s { s with chainActive := s.path fork } := ⟨rfl, rfl, rfl⟩
  have behind : Sound P { s with chainActive := s.path fork } :=
    ⟨⟨same.shape shape, fork, forkKnown, rfl⟩, sound.candidates, sound.unlinked⟩
  have batches := @connectBatches_eq P (some (s.nChainWork tip)) (((s.untested pindexMostWork).reverse.length + 31) / 32)
    { s with chainActive := s.path fork } (s.untested pindexMostWork).reverse (by omega)
  rw [Node.activateBestChainStep, forks.isFork, isTip] at result
  rw [if_neg (by simp), forks.drops, map_some, batches] at result
  cases connected : Node.connectBlocks P (some (s.nChainWork tip)) { s with chainActive := s.path fork } (s.untested pindexMostWork).reverse with
  | error stop =>
    rw [connected] at result
    cases result
  | ok both =>
    obtain ⟨fContinue, after⟩ := both
    rw [connected] at result
    obtain rfl := Except.ok.inj result
    have route : (s.untested pindexMostWork).reverse.reverse ++ s.path fork = s.path pindexMostWork := by
      rw [reverse_reverse]
      exact forks.route
    obtain ⟨sound', same', done, isPrefix, chain', single⟩ := behind.connectBlocks (some (s.nChainWork tip)) known route connected
    refine ⟨sound', same.trans same', fork, done.reverse, forks, reverse_prefix.mp (by rw [reverse_reverse]; exact isPrefix), chain',
      fun onTip => ?_⟩
    rw [length_reverse]
    apply single
    intro first isFirst
    rw [head?_reverse] at isFirst
    obtain ⟨above, split⟩ := getLast?_eq_some_iff.mp isFirst
    have list := @path_of_route P s first shape pindexMostWork fork above [] known (by rw [← split]; exact forks.route)
    have firstKnown : first ∈ s.mapBlockIndex := by
      apply shape.tree.known_of_mem known
      change first ∈ s.path pindexMostWork
      rw [← forks.route, split]
      exact mem_append_left _ (mem_append_right _ mem_cons_self)
    rw [isTip, some.injEq] at onTip
    rw [all_some, decide_eq_true_eq, onTip]
    exact shape.work first fork firstKnown (cons.inj list).2

theorem newHashes_eq {tip tip' pindexMostWork fork : Uint256} {new : List Uint256} (shape : Shape P s) (tipKnown : tip ∈ s.mapBlockIndex)
    (chain : s.chainActive = s.path tip) (same : SameTree s s') (moved : Moved s s' pindexMostWork fork new)
    (chain' : s'.chainActive = s'.path tip') :
    s'.findFork tip = some fork ∧ newHashes s' tip' (some fork) = new.take MAX_BLOCKS_TO_ANNOUNCE := by
  have off {other : Uint256} (member : other ∈ new) : other ∉ s.chainActive := not_active_of_untested (moved.inside.subset member)
  have forkOnPath : fork ∈ s.path tip := chain ▸ moved.forks.active
  constructor
  · have split := @takeWhile_append_dropWhile _ (fun pindex => decide (some pindex ≠ some fork)) s.chainActive
    rw [moved.forks.drops, chain] at split
    rw [Node.findFork, same.path, ← split, find?_append, find?_eq_none.mpr]
    · have here : fork ∈ s'.chainActive := by
        rw [moved.chain]
        exact mem_append_right _ (Node.mem_path_self s fork)
      rw [none_or, Node.path, path, find?_cons_of_pos]
      exact decide_eq_true here
    · -- a block of the old chain above the fork point is on neither part of the new one
      intro other before active
      rw [decide_eq_true_eq, moved.chain] at active
      have different : other ≠ fork := by simpa using mem_takeWhile_imp before
      have onChain : other ∈ s.path tip := by
        rw [← split]
        exact mem_append_left _ before
      rcases mem_append.mp active with isNew | below
      · exact off isNew (chain ▸ onChain)
      · have above := shape.tree.mem_path_of_before tipKnown split.symm before
        have forkKnown := shape.tree.known_of_mem tipKnown forkOnPath
        have otherKnown := shape.tree.known_of_mem tipKnown onChain
        have one := shape.tree.length_lt forkKnown ((mem_cons.mp below).resolve_left different)
        have two := shape.tree.length_lt otherKnown ((mem_cons.mp above).resolve_left different.symm)
        omega
  · rw [newHashes, ← chain', moved.chain, takeWhile_append_of_pos, Node.path, path, takeWhile_cons_of_neg,
      append_nil]
    · simp
    · intro other member
      rw [decide_eq_true_eq, ne_eq, some.injEq]
      rintro rfl
      exact off member moved.forks.active

/-- What a pass announces, if it announces anything: the last blocks of a chain that leaves the old one at the fork point. -/
structure Announced (P : Params) (fuel : Nat) (fInitialDownload : Bool) (s after : Node) (vHashes : List Uint256) (pindexMostWork : Uint256) :
    Prop where
  found : ∃ chosen, s.findMostWorkChain fuel = .ok (chosen, some pindexMostWork)
  known : pindexMostWork ∈ s.mapBlockIndex
  notTip : s.tip ≠ some pindexMostWork
  relays : fInitialDownload = false
  moved : ∃ fork new, Moved s after pindexMostWork fork new ∧ vHashes = new.take MAX_BLOCKS_TO_ANNOUNCE

theorem Moved.of_chosen {chosen : Node} {pindexMostWork fork : Uint256} {new : List Uint256} (same : SameTree s chosen)
    (chain : chosen.chainActive = s.chainActive) (moved : Moved chosen s' pindexMostWork fork new) : Moved s s' pindexMostWork fork new := by
  obtain ⟨⟨isFork, active, drops, route⟩, inside, list, single⟩ := moved
  have untested : chosen.untested pindexMostWork = s.untested pindexMostWork := by
    rw [Node.untested, Node.untested, same.path, chain]
  have tip : chosen.tip = s.tip := by
    rw [Node.tip, Node.tip, chain]
  rw [Node.findFork, same.path, chain] at isFork
  rw [chain] at active
  rw [chain, same.path] at drops
  rw [untested, same.path, same.path] at route
  rw [untested] at inside
  rw [same.path] at list
  rw [tip] at single
  exact ⟨⟨isFork, active, drops, route⟩, inside, list, single⟩

theorem Sound.activateTurn (sound : Sound P s) {fuel : Nat} {fInitialDownload fDone : Bool} {vHashes : List Uint256}
    (result : activateTurn P fuel fInitialDownload s = .ok (s', fDone, vHashes)) : Sound P s' ∧ SameTree s s' ∧
      (vHashes = [] ∨ ∃ pindexMostWork, Announced P fuel fInitialDownload s s' vHashes pindexMostWork) := by
  rw [Announcements.activateTurn] at result
  obtain ⟨⟨chosen, found⟩, isChosen, result⟩ := bind_ok.mp result
  obtain ⟨sound', same, chain, known⟩ := sound.findMostWorkChain fuel isChosen
  cases found with
  | none =>
    have equal := Except.ok.inj result
    obtain rfl := congrArg Prod.fst equal
    exact ⟨sound', same, .inl (congrArg (fun result => result.2.2) equal).symm⟩
  | some pindexMostWork =>
    have isKnown := known pindexMostWork rfl
    dsimp only at result
    split_ifs at result with arrived
    · have equal := Except.ok.inj result
      obtain rfl := congrArg Prod.fst equal
      exact ⟨sound', same, .inl (congrArg (fun result => result.2.2) equal).symm⟩
    · obtain ⟨after, stepped, result⟩ := bind_ok.mp result
      have equal := Except.ok.inj result
      obtain rfl := congrArg Prod.fst equal
      obtain ⟨sound'', same', fork, new, moved⟩ := sound'.activateBestChainStep (same.mapBlockIndex ▸ isKnown) stepped
      refine ⟨sound'', same.trans same', ?_⟩
      have isHashes := (congrArg (fun result => result.2.2) equal).symm
      dsimp only at isHashes
      by_cases quiet : (chosen.tip.bind after.findFork = after.tip || fInitialDownload) = true
      · rw [if_pos quiet] at isHashes
        exact .inl isHashes
      · rw [if_neg quiet] at isHashes
        rw [Bool.or_eq_true, not_or, Bool.not_eq_true] at quiet
        obtain ⟨tip, tipKnown, onTip⟩ := sound'.standing.chain
        obtain ⟨tip', -, onTip'⟩ := sound''.standing.chain
        obtain ⟨isFork, hashes⟩ := newHashes_eq sound'.standing.shape tipKnown onTip same' moved onTip'
        have isTip : chosen.tip = some tip := by
          rw [Node.tip, onTip]
          rfl
        have isTip' : after.tip = some tip' := by
          rw [Node.tip, onTip']
          rfl
        rw [isTip, isTip', bind_some, isFork, elim_some, hashes] at isHashes
        refine .inr ⟨pindexMostWork, ⟨chosen, isChosen⟩, isKnown, ?_, Bool.eq_false_iff.mpr quiet.2, fork, new, moved.of_chosen same chain, isHashes⟩
        rw [Node.tip, chain] at arrived
        exact arrived

end Frames

/-- What is announced on the way to a block can stand behind the last listed block: that block is the tip, or the fork point with
no more than the announced blocks above it, or on another branch than the blocks to be connected. -/
def Joins (s : Node) (list : List Uint256) (pindexMostWork : Uint256) : Prop := ∀ last, list.getLast? = some last →
  s.tip = some last ∨
    s.findFork pindexMostWork = some last ∧ s.nHeight pindexMostWork ≤ s.nHeight last + MAX_BLOCKS_TO_ANNOUNCE ∨
    ∀ pindex ∈ s.untested pindexMostWork, last ∉ s.path pindex ∧ pindex ∉ s.path last

/-- The condition on a step: where a pass of `ActivateBestChain` can announce blocks, they can stand behind the list. -/
def Meets (r : Relay) : Op → Prop
  | .activateTurn fuel fInitialDownload nStartingHeight nBlockEstimate => fInitialDownload = false → ∀ chosen pindexMostWork,
      r.node.findMostWorkChain fuel = .ok (chosen, some pindexMostWork) → r.node.tip ≠ some pindexMostWork →
        relayed nStartingHeight nBlockEstimate (r.node.nHeight pindexMostWork) = true → Joins r.node r.vBlockHashesToAnnounce pindexMostWork
  | _ => True

section Joining

variable {P : Params} {s s' : Node} {pindexMostWork fork : Uint256} {new list : List Uint256}

theorem path_isChain (shape : Shape P s) {pindex : Uint256} (known : pindex ∈ s.mapBlockIndex) :
    (s.path pindex).IsChain fun after before => s.pprev after = some before := by
  induction pindex, known using shape.tree.induct with
  | base =>
    rw [Node.path, path, shape.tree.root_ancestors]
    exact isChain_singleton _
  | step pindex parent known parentKnown ancestors ih =>
    have above : s.pprev pindex = some parent := by
      rw [Node.pprev, ancestors]
      rfl
    rw [path_cons shape known above, Node.path, path, isChain_cons_cons]
    exact ⟨above, ih⟩

theorem Joins.follows (standing : Standing P s) (known : pindexMostWork ∈ s.mapBlockIndex) (moved : Moved s s' pindexMostWork fork new)
    (joins : Joins s list pindexMostWork) {last first : Uint256} (isLast : list.getLast? = some last)
    (isFirst : (new.take MAX_BLOCKS_TO_ANNOUNCE).getLast? = some first) : Follows s last first := by
  have shape := standing.shape
  obtain ⟨tip, tipKnown, chain⟩ := standing.chain
  obtain ⟨above, split⟩ := moved.inside
  have route : above ++ new ++ s.path fork = s.path pindexMostWork := by
    rw [split]
    exact moved.forks.route
  have untested : first ∈ s.untested pindexMostWork := moved.inside.subset (( take_prefix _ _).subset (mem_of_getLast? isFirst))
  have off : first ∉ s.chainActive := not_active_of_untested untested
  have onFork (short : new.length ≤ MAX_BLOCKS_TO_ANNOUNCE) : s.pprev first = some fork := by
    rw [take_of_length_le short] at isFirst
    obtain ⟨before, whole⟩ := getLast?_eq_some_iff.mp isFirst
    rw [whole, ← append_assoc] at route
    have path := path_of_route shape known route
    rw [Node.pprev, (cons.inj path).2]
    rfl
  rcases joins last isLast with isTip | ⟨isFork, near⟩ | apart
  · by_cases onTip : fork = last
    · rw [← onTip] at isTip ⊢
      exact Or.inl (onFork ((moved.single isTip).trans (by decide)))
    · -- the chain leaves the old one below the tip
      have same : last = tip := by
        rw [Node.tip, chain] at isTip
        exact (some.inj isTip).symm
      refine Or.inr ⟨fun below => ?_, ?_⟩
      · have active : last ∈ s.chainActive := chain ▸ same ▸ Node.mem_path_self s last
        have onPath : last ∈ s.path pindexMostWork :=
          shape.tree.mem_trans known (( takeWhile_prefix _).subset untested) below
        rw [← moved.forks.route] at onPath
        have underFork : last ∈ s.path fork := (mem_append.mp onPath).resolve_left fun member => not_active_of_untested member active
        have underTip : fork ∈ s.path last := same ▸ chain ▸ moved.forks.active
        have forkKnown := shape.tree.known_of_mem (same ▸ tipKnown) underTip
        have one := shape.tree.length_lt forkKnown ((mem_cons.mp underFork).resolve_left fun equal => onTip equal.symm)
        have two := shape.tree.length_lt (same ▸ tipKnown) ((mem_cons.mp underTip).resolve_left onTip)
        omega
      · rw [same, ← chain]
        exact off
  · have equal : fork = last := some.inj (moved.forks.isFork.symm.trans isFork)
    rw [← equal] at near ⊢
    apply Or.inl
    apply onFork
    have size := congrArg length route
    rw [length_append, length_append, Node.path, Node.path, path, path, length_cons, length_cons] at size
    rw [Node.nHeight, Node.nHeight] at near
    omega
  · exact Or.inr (apart first untested)

theorem Listed.announce (standing : Standing P s) (known : pindexMostWork ∈ s.mapBlockIndex) (moved : Moved s s' pindexMostWork fork new)
    (joins : Joins s list pindexMostWork) (listed : Listed P s list) : Listed P s (list ++ (new.take MAX_BLOCKS_TO_ANNOUNCE).reverse) := by
  have shape := standing.shape
  obtain ⟨tip, tipKnown, chain⟩ := standing.chain
  have inside {pindex : Uint256} (member : pindex ∈ new.take MAX_BLOCKS_TO_ANNOUNCE) : pindex ∈ s.untested pindexMostWork :=
    moved.inside.subset (( take_prefix _ _).subset member)
  refine ⟨fun hash member => ?_, ?_⟩
  · rcases mem_append.mp member with before | announced
    · exact listed.known hash before
    · have untested := inside (mem_reverse.mp announced)
      refine ⟨shape.tree.known_of_mem known (( takeWhile_prefix _).subset untested), ?_⟩
      rintro rfl
      exact not_active_of_untested untested (chain ▸ shape.tree.root_mem tipKnown)
  · apply listed.follows.append
    · rw [isChain_reverse]
      obtain ⟨above, split⟩ := moved.inside
      have chained := path_isChain shape known
      rw [← moved.forks.route, ← split, ← take_append_drop MAX_BLOCKS_TO_ANNOUNCE new] at chained
      have middle := chained.left_of_append.right_of_append.left_of_append
      exact middle.imp fun after before parent => .inl parent
    · intro last isLast first isFirst
      rw [mem_def, head?_reverse] at isFirst
      exact joins.follows standing known moved isLast isFirst

end Joining

structure Holds (P : Params) (r : Relay) : Prop where
  sound : Sound P r.node
  listed : Listed P r.node r.vBlockHashesToAnnounce

theorem relayed_mono {nStartingHeight nBlockEstimate height height' : Int} (below : height ≤ height')
    (relays : relayed nStartingHeight nBlockEstimate height = true) : relayed nStartingHeight nBlockEstimate height' = true := by
  rw [relayed, decide_eq_true_eq] at relays ⊢
  exact lt_of_lt_of_le relays below

section Runs

variable {P : Params} {r r' : Relay}

theorem Holds.step (holds : Holds P r) {op : Op} (meets : Meets r op) (done : step P r op = .ok r') : Holds P r' := by
  obtain ⟨sound, listed⟩ := holds
  cases op with
  | header block =>
    obtain rfl := Except.ok.inj done
    obtain ⟨sound', grown, -⟩ := sound.acceptBlockHeader block
    exact ⟨sound', listed.grown grown⟩
  | block block =>
    obtain rfl := Except.ok.inj done
    obtain ⟨sound', grown⟩ := sound.acceptBlock block
    exact ⟨sound', listed.grown grown⟩
  | activateTurn fuel fInitialDownload nStartingHeight nBlockEstimate =>
    obtain ⟨⟨node, fDone, vHashes⟩, turned, done⟩ := bind_ok.mp done
    obtain ⟨sound', same, announces⟩ := sound.activateTurn turned
    dsimp only at done
    split_ifs at done with relays
    · obtain rfl := Except.ok.inj done
      refine ⟨sound', Listed.grown ?_ same.grown⟩
      rcases announces with rfl | ⟨pindexMostWork, ⟨chosen, found⟩, known, notTip, quiet, fork, new, moved, rfl⟩
      · rw [reverse_nil, append_nil]
        exact listed
      · apply listed.announce sound.standing known moved
        apply meets quiet chosen pindexMostWork found notTip
        apply relayed_mono _ relays
        have size := congrArg length moved.forks.route
        have less := moved.inside.length_le
        have whole : (r.node.path pindexMostWork).length = r.node.nHeight pindexMostWork + 1 := length_cons
        rw [length_append, whole] at size
        rw [moved.chain, length_append]
        omega
    · obtain rfl := Except.ok.inj done
      exact ⟨sound', listed.grown same.grown⟩
  | invalidateBlock pindex =>
    obtain rfl := Except.ok.inj done
    obtain ⟨sound', same⟩ := sound.invalidateBlock pindex
    exact ⟨sound', listed.grown same.grown⟩
  | reconsiderBlock pindex =>
    obtain rfl := Except.ok.inj done
    obtain ⟨sound', same⟩ := sound.reconsiderBlock pindex
    exact ⟨sound', listed.grown same.grown⟩
  | sendMessages state =>
    obtain ⟨announcement, -, done⟩ := bind_ok.mp done
    obtain rfl := Except.ok.inj done
    exact ⟨sound, nofun, isChain_nil⟩

theorem holds_started (P : Params) (blockProof : Nat) : Holds P (started P blockProof) := by
  have inv := (settled_init P blockProof).inv
  refine ⟨⟨⟨inv.shape, inv.active.chain⟩, fun pindex member => (inv.candidates pindex member).1, fun pair nothing => ?_⟩,
    nofun, isChain_nil⟩
  cases nothing

/-- In every run whose steps meet the condition, block announcements are safe in every state. -/
theorem announcements_connect {blockProof : Nat} {ops : List Op} (meets : ∀ front op, front ++ [op] <+: ops →
      ∀ before, front.foldlM (step P) (started P blockProof) = .ok before → Meets before op)
    (done : ops.foldlM (step P) (started P blockProof) = .ok r) : Safe r := by
  have holds : Holds P r := foldlM_invariant (fun front state => front.foldlM (step P) (started P blockProof) = .ok state ∧ Holds P state) ops
    (fun front op rest before after whole both stepped => by
      refine ⟨foldlM_append_ok.mpr ⟨before, both.1, foldlM_cons_ok.mpr ⟨after, stepped, rfl⟩⟩, both.2.step (meets front op ?_ before both.1) stepped⟩
      exact ⟨rest, by rw [whole, append_assoc]; rfl⟩) ⟨rfl, holds_started P blockProof⟩ done |>.2
  exact holds.listed.safe holds.sound.standing

end Runs

def sampleOps : List Op := [Op.block (sampleBlock 1 0), Op.activateTurn 9 false 0 0, Op.block (sampleBlock 2 1), Op.activateTurn 9 false 0 0]

theorem sampleOps_meets : ∀ front op, front ++ [op] <+: sampleOps →
    ∀ before, front.foldlM (step sampleParams) (started sampleParams 2) = .ok before → Meets before op := by
  intro front op shorter before run
  have isFront : front = sampleOps.take front.length := prefix_iff_eq_take.mp ((prefix_append _ _).trans shorter)
  have short : front.length < 4 := by
    have size := shorter.length_le
    rw [length_append] at size
    exact size
  have checks := (by decide +kernel : ∀ count < 4, ((sampleOps.take count).foldlM (step sampleParams) (started sampleParams 2)).toOption.all
    (fun r => r.vBlockHashesToAnnounce.getLast?.all fun last => r.node.tip == some last) = true) front.length short
  rw [← isFront, run] at checks
  cases op with
  | activateTurn fuel fInitialDownload nStartingHeight nBlockEstimate =>
    intro _ chosen pindexMostWork _ _ _ last isLast
    change before.vBlockHashesToAnnounce.getLast?.all (fun last => before.node.tip == some last) = true at checks
    rw [isLast, all_some, beq_iff_eq] at checks
    exact .inl checks
  | header | block | invalidateBlock | reconsiderBlock | sendMessages => exact trivial

theorem announcements_connect_sample : ∃ r, sampleOps.foldlM (step sampleParams) (started sampleParams 2) = .ok r ∧ Safe r := by
  have runs : (sampleOps.foldlM (step sampleParams) (started sampleParams 2)).toOption.isSome = true := by decide +kernel
  cases done : sampleOps.foldlM (step sampleParams) (started sampleParams 2) with
  | error stop =>
    rw [done] at runs
    cases runs
  | ok r => exact ⟨r, rfl, announcements_connect sampleOps_meets done⟩

/-- Block 1 is announced. A branch with more work fails at its first block, and the chain comes back to block 1. -/
def fallingBack : List Op := [Op.block (sampleBlock 1 0), Op.activateTurn 9 false 0 0, Op.block (sampleBlock 3 0), Op.block (sampleBlock 4 3),
  Op.activateTurn 9 false 0 0, Op.activateTurn 9 false 0 0]

/-- Block 1 is listed twice, and is not its own parent. -/
theorem announced_twice : ∃ r, fallingBack.foldlM (step sampleParams) (started sampleParams 2) = .ok r ∧ ¬ Safe r := by
  have runs : ((fallingBack.foldlM (step sampleParams) (started sampleParams 2)).toOption.map fun r =>
      (announceBlocks r.node ⟨true, some 1, none⟩ r.vBlockHashesToAnnounce).toOption.isNone) = some true := by decide +kernel
  cases done : fallingBack.foldlM (step sampleParams) (started sampleParams 2) with
  | error stop =>
    rw [done] at runs
    cases runs
  | ok r =>
    refine ⟨r, rfl, fun safe => ?_⟩
    obtain ⟨announcement, sends, -⟩ := safe.sends ⟨true, some 1, none⟩
    rw [done] at runs
    dsimp only [Except.toOption, map_some] at runs
    rw [sends] at runs
    cases runs

end Longcoin.Announcements

import Longcoin.BlockFiles
import Longcoin.Library.Extents
import Longcoin.Library.Steps

/-! Any order of storing blocks, writing undo data and pruning. -/

namespace Longcoin.BlockFiles
open Library List Option
open BlockTree (MIN_BLOCKS_TO_KEEP)

/-- The calls, with what the disk says of its space, and the chain that the node is on. -/
inductive Call where
  | findBlockPos (checkDiskSpace : Nat → Bool) (nAddSize nHeight nTime : Nat)
  | findUndoPos (checkDiskSpace : Nat → Bool) (nFile nAddSize : Nat)
  | findFilesToPrune (network : Network) (tip : Option Height)

/-- What a call has done: bytes of a block file or of an undo file are handed out, or a file goes. -/
inductive Event where
  | block (extent : Extent Nat) (nHeight : Nat)
  | undo (extent : Extent Nat)
  | prune (nFile : Nat)
deriving DecidableEq, Repr

structure System where
  node : Node
  log : List Event

def System.start (node : Node) : System := ⟨{ node with vinfoBlockFile := [], nLastBlockFile := 0 }, []⟩

def next (s : System) : Call → Option System
  | .findBlockPos checkDiskSpace nAddSize nHeight nTime =>
    (findBlockPos s.node checkDiskSpace nAddSize nHeight nTime none).map fun found =>
      ⟨found.1, s.log ++ [.block ⟨found.2.1.nFile, found.2.1.nPos, nAddSize⟩ nHeight]⟩
  | .findUndoPos checkDiskSpace nFile nAddSize =>
    (findUndoPos s.node checkDiskSpace nFile nAddSize).map fun found =>
      ⟨found.1, s.log ++ [.undo ⟨found.2.1.nFile, found.2.1.nPos, nAddSize⟩]⟩
  | .findFilesToPrune network tip =>
    let pruned := findFilesToPrune s.node (pruneAfterHeight network) tip
    some ⟨pruned.1, s.log ++ pruned.2.map .prune⟩

/-- What may come after what: bytes of one file apart, and nothing in a file that is gone. -/
def Event.Before : Event → Event → Prop
  | .block a _, .block b _ => a.Apart b
  | .undo a, .undo b => a.Apart b
  | .prune nFile, .block b _ => b.file ≠ nFile
  | .prune nFile, .undo b => b.file ≠ nFile
  | _, _ => True

instance : DecidableRel Event.Before
  | .block a _, .block b _ => inferInstanceAs (Decidable (a.Apart b))
  | .undo a, .undo b => inferInstanceAs (Decidable (a.Apart b))
  | .prune nFile, .block b _ => inferInstanceAs (Decidable (b.file ≠ nFile))
  | .prune nFile, .undo b => inferInstanceAs (Decidable (b.file ≠ nFile))
  | .block _ _, .undo _ => inferInstanceAs (Decidable True)
  | .block _ _, .prune _ => inferInstanceAs (Decidable True)
  | .undo _, .block _ _ => inferInstanceAs (Decidable True)
  | .undo _, .prune _ => inferInstanceAs (Decidable True)
  | .prune _, .prune _ => inferInstanceAs (Decidable True)

def System.Holds (s : System) (nFile nHeight : Nat) : Prop :=
  .prune nFile ∉ s.log ∧ ∃ extent, .block extent nHeight ∈ s.log ∧ extent.file = nFile

/-- What `FindFilesToPrune` owes: the blocks near the tip and the last file stay, and it stops only under the target or
where each file has a block near the tip. -/
structure System.PrunesRight (s : System) (network : Network) (tip : Height) (result : Node × List Nat) : Prop where
  keeps : ∀ nFile ∈ result.2, nFile < s.node.nLastBlockFile ∧
    ∀ nHeight, s.Holds nFile nHeight → nHeight + MIN_BLOCKS_TO_KEEP ≤ tip.value
  enough : prunes s.node (pruneAfterHeight network) tip = true →
    calculateCurrentUsage result.1 + nBuffer < s.node.nPruneTarget ∨
      ∀ nFile < s.node.nLastBlockFile, (result.1.info nFile).nSize ≠ 0 →
        ∃ nHeight, s.Holds nFile nHeight ∧ tip.value < nHeight + MIN_BLOCKS_TO_KEEP

/-- Calls that are as they should be: a block record fits into a file, and undo data is for a file that is still there, with
all its undo data within 32 bits. -/
def Allowed (s : System) : Call → Prop
  | .findBlockPos _ nAddSize _ _ => nAddSize < MAX_BLOCKFILE_SIZE
  | .findUndoPos _ nFile nAddSize =>
    s.node.lists nFile ∧ .prune nFile ∉ s.log ∧ (s.node.info nFile).nUndoSize + nAddSize < 2 ^ 32
  | .findFilesToPrune _ _ => True

instance (s : System) : DecidablePred (Allowed s)
  | .findBlockPos _ nAddSize _ _ => inferInstanceAs (Decidable (nAddSize < MAX_BLOCKFILE_SIZE))
  | .findUndoPos _ _ _ => inferInstanceAs (Decidable (_ ∧ _ ∧ _))
  | .findFilesToPrune _ _ => inferInstanceAs (Decidable True)

def Step (s : System) (call : Call) (s' : System) : Prop := Allowed s call ∧ next s call = some s'

structure Sound (s : System) : Prop where
  ordered : s.log.Pairwise Event.Before
  size_lt : ∀ nFile, (s.node.info nFile).nSize < MAX_BLOCKFILE_SIZE
  blocks : ∀ extent nHeight, .block extent nHeight ∈ s.log → .prune extent.file ∉ s.log →
    extent.finish ≤ (s.node.info extent.file).nSize ∧ nHeight ≤ (s.node.info extent.file).nHeightLast
  undos : ∀ extent, .undo extent ∈ s.log → .prune extent.file ∉ s.log → extent.finish ≤ (s.node.info extent.file).nUndoSize
  highest : ∀ nFile, (s.node.info nFile).nHeightLast = 0 ∨
    ∃ extent, .block extent (s.node.info nFile).nHeightLast ∈ s.log ∧ extent.file = nFile
  gone : ∀ nFile, .prune nFile ∈ s.log → nFile < s.node.nLastBlockFile ∧ (s.node.info nFile).nSize = 0

theorem sound_start (node : Node) : Sound (.start node) where
  ordered := .nil
  size_lt nFile := by
    have empty : (System.start node).node.info nFile = {} := info_beyond (Nat.zero_le nFile)
    rw [empty]
    decide
  blocks _ _ member := absurd member not_mem_nil
  undos _ member := absurd member not_mem_nil
  highest nFile := by
    have empty : (System.start node).node.info nFile = {} := info_beyond (Nat.zero_le nFile)
    rw [empty]
    exact .inl rfl
  gone _ member := absurd member not_mem_nil

variable {s s' : System}

theorem nHeightLast_addBlock (info : CBlockFileInfo) (nHeightIn nTimeIn : Nat) :
    (info.addBlock nHeightIn nTimeIn).nHeightLast = max info.nHeightLast nHeightIn := by
  unfold CBlockFileInfo.addBlock
  dsimp only
  split <;> omega

theorem Sound.findBlockPos (sound : Sound s) {checkDiskSpace : Nat → Bool} {nAddSize nHeight nTime : Nat}
    (small : nAddSize < MAX_BLOCKFILE_SIZE)
    (called : next s (.findBlockPos checkDiskSpace nAddSize nHeight nTime) = some s') : Sound s' := by
  obtain ⟨⟨node, pos, space⟩, found, rfl⟩ := map_eq_some_iff.mp called
  obtain ⟨later, last, place, fits, info⟩ := findBlockPos_spec found
  -- the sum does not wrap: both its parts are below the limit of a file
  have exact_sum : unsigned (pos.nPos + nAddSize) = pos.nPos + nAddSize := by
    apply unsigned_of_lt
    have before := sound.size_lt pos.nFile
    rw [← place] at before
    unfold MAX_BLOCKFILE_SIZE at before small
    omega
  have here : .prune pos.nFile ∉ s.log := fun gone => (sound.gone _ gone).1.not_ge later
  have size_le : ∀ nFile, (s.node.info nFile).nSize ≤ (node.info nFile).nSize := by
    intro nFile
    rw [info]
    split
    · rename_i same
      rw [same, exact_sum, ← place]
      exact Nat.le_add_right _ _
    · exact le_rfl
  have height_le : ∀ nFile, (s.node.info nFile).nHeightLast ≤ (node.info nFile).nHeightLast := by
    intro nFile
    rw [info]
    split
    · rename_i same
      rw [same]
      exact (le_max_left _ nHeight).trans_eq (nHeightLast_addBlock _ nHeight nTime).symm
    · exact le_rfl
  have undo_eq : ∀ nFile, (node.info nFile).nUndoSize = (s.node.info nFile).nUndoSize := by
    intro nFile
    rw [info]
    split
    · rename_i same
      rw [same]
      rfl
    · rfl
  have no_prune : ∀ nFile, .prune nFile ∈ s.log ++ [.block ⟨pos.nFile, pos.nPos, nAddSize⟩ nHeight] ↔ .prune nFile ∈ s.log := by
    intro nFile
    simp
  refine ⟨?_, fun nFile => ?_, fun extent height member kept => ?_, fun extent member kept => ?_, fun nFile => ?_,
    fun nFile pruned => ?_⟩
  · refine pairwise_append.mpr ⟨sound.ordered, pairwise_singleton _ _, fun earlier member event single => ?_⟩
    rw [mem_singleton.mp single]
    cases earlier with
    | block extent height =>
      intro same
      have kept : .prune extent.file ∉ s.log := by
        rw [same]
        exact here
      refine Extent.apart_of_end (fun nFile => (s.node.info nFile).nSize) ?_ place same
      exact (sound.blocks extent height member kept).1
    | undo extent => trivial
    | prune nFile =>
      intro same
      change pos.nFile = nFile at same
      rw [← same] at member
      exact here member
  · rw [info]
    split
    · exact fits
    · exact sound.size_lt nFile
  · rw [no_prune] at kept
    rcases mem_append.mp member with before | now
    · obtain ⟨inside, low⟩ := sound.blocks extent height before kept
      exact ⟨inside.trans (size_le _), low.trans (height_le _)⟩
    · obtain ⟨rfl, rfl⟩ := Event.block.inj (mem_singleton.mp now)
      dsimp only
      rw [info, if_pos rfl]
      refine ⟨exact_sum.ge, ?_⟩
      exact (le_max_right _ _).trans_eq (nHeightLast_addBlock _ height nTime).symm
  · rw [no_prune] at kept
    rw [undo_eq]
    exact sound.undos extent ((mem_append.mp member).resolve_right (by simp)) kept
  · dsimp only
    rw [info]
    split
    · rename_i same
      dsimp only
      rw [nHeightLast_addBlock]
      rcases max_choice (s.node.info pos.nFile).nHeightLast nHeight with old | new
      · rw [old]
        refine (sound.highest pos.nFile).imp_right fun ⟨extent, member, file⟩ => ?_
        exact ⟨extent, mem_append_left _ member, file.trans same.symm⟩
      · rw [new]
        exact .inr ⟨_, mem_append_right _ (mem_singleton_self _), same.symm⟩
    · refine (sound.highest nFile).imp_right fun ⟨extent, member, file⟩ => ?_
      exact ⟨extent, mem_append_left _ member, file⟩
  · rw [no_prune] at pruned
    obtain ⟨below, empty⟩ := sound.gone nFile pruned
    dsimp only
    rw [last, info, if_neg (below.trans_le later).ne]
    exact ⟨below.trans_le later, empty⟩

theorem Sound.findUndoPos (sound : Sound s) {checkDiskSpace : Nat → Bool} {nFile nAddSize : Nat} (here : .prune nFile ∉ s.log)
    (fits : (s.node.info nFile).nUndoSize + nAddSize < 2 ^ 32)
    (called : next s (.findUndoPos checkDiskSpace nFile nAddSize) = some s') : Sound s' := by
  obtain ⟨⟨node, pos, space⟩, found, rfl⟩ := map_eq_some_iff.mp called
  obtain ⟨last, rfl, info⟩ := findUndoPos_spec found
  rw [unsigned_of_lt fits] at info
  have same_block : ∀ other, (node.info other).nSize = (s.node.info other).nSize ∧
      (node.info other).nHeightLast = (s.node.info other).nHeightLast := by
    intro other
    rw [info]
    split
    · rename_i same
      rw [same]
      exact ⟨rfl, rfl⟩
    · exact ⟨rfl, rfl⟩
  have undo_le : ∀ other, (s.node.info other).nUndoSize ≤ (node.info other).nUndoSize := by
    intro other
    rw [info]
    split
    · rename_i same
      rw [same]
      exact Nat.le_add_right _ _
    · exact le_rfl
  have no_prune : ∀ other, .prune other ∈ s.log ++ [.undo ⟨nFile, (s.node.info nFile).nUndoSize, nAddSize⟩] ↔
      .prune other ∈ s.log := by
    intro other
    simp
  refine ⟨?_, fun other => ?_, fun extent height member kept => ?_, fun extent member kept => ?_, fun other => ?_,
    fun other pruned => ?_⟩
  · refine pairwise_append.mpr ⟨sound.ordered, pairwise_singleton _ _, fun earlier member event single => ?_⟩
    rw [mem_singleton.mp single]
    cases earlier with
    | block extent height => trivial
    | undo extent =>
      intro same
      have kept : .prune extent.file ∉ s.log := by
        rw [same]
        exact here
      exact Extent.apart_of_end (fun nFile => (s.node.info nFile).nUndoSize) (sound.undos extent member kept) rfl same
    | prune other =>
      intro same
      change nFile = other at same
      rw [← same] at member
      exact here member
  · rw [(same_block other).1]
    exact sound.size_lt other
  · rw [no_prune] at kept
    rw [(same_block _).1, (same_block _).2]
    exact sound.blocks extent height ((mem_append.mp member).resolve_right (by simp)) kept
  · rw [no_prune] at kept
    rcases mem_append.mp member with before | now
    · exact (sound.undos extent before kept).trans (undo_le _)
    · cases mem_singleton.mp now
      dsimp only
      rw [info, if_pos rfl]
      exact le_rfl
  · rw [(same_block other).2]
    refine (sound.highest other).imp_right fun ⟨extent, member, file⟩ => ?_
    exact ⟨extent, mem_append_left _ member, file⟩
  · rw [no_prune] at pruned
    rw [last, (same_block other).1]
    exact sound.gone other pruned

theorem Sound.prune (sound : Sound s) {tip : Height} {result : Node × List Nat} (pruned : Pruned s.node tip result) :
    Sound ⟨result.1, s.log ++ result.2.map .prune⟩ := by
  have untouched : ∀ {nFile}, .prune nFile ∉ s.log ++ result.2.map Event.prune →
      .prune nFile ∉ s.log ∧ result.1.info nFile = s.node.info nFile := by
    intro nFile kept
    rw [mem_append, not_or] at kept
    refine ⟨kept.1, ?_⟩
    rw [pruned.info, if_neg fun member => kept.2 (mem_map_of_mem member)]
  refine ⟨?_, fun nFile => ?_, fun extent height member kept => ?_, fun extent member kept => ?_, fun nFile => ?_,
    fun nFile member => ?_⟩
  · have files : (result.2.map Event.prune).Pairwise Event.Before := by
      rw [pairwise_map]
      exact pairwise_of_forall fun _ _ => trivial
    refine pairwise_append.mpr ⟨sound.ordered, files, fun earlier _ later member => ?_⟩
    obtain ⟨nFile, -, rfl⟩ := mem_map.mp member
    cases earlier <;> trivial
  · dsimp only
    rw [pruned.info]
    split
    · decide
    · exact sound.size_lt nFile
  · obtain ⟨before, same⟩ := untouched kept
    rw [same]
    exact sound.blocks extent height ((mem_append.mp member).resolve_right (by simp)) before
  · obtain ⟨before, same⟩ := untouched kept
    rw [same]
    exact sound.undos extent ((mem_append.mp member).resolve_right (by simp)) before
  · dsimp only
    rw [pruned.info]
    split
    · exact .inl rfl
    · refine (sound.highest nFile).imp_right fun ⟨extent, member, file⟩ => ?_
      exact ⟨extent, mem_append_left _ member, file⟩
  · dsimp only
    rw [pruned.last, pruned.info]
    rcases mem_append.mp member with before | now
    · obtain ⟨below, empty⟩ := sound.gone nFile before
      refine ⟨below, ?_⟩
      split
      · rfl
      · exact empty
    · obtain ⟨taken, member, same⟩ := mem_map.mp now
      cases same
      rw [if_pos member]
      exact ⟨(pruned.chosen nFile member).1, rfl⟩

theorem late_pruneAfterHeight (network : Network) : MIN_BLOCKS_TO_KEEP ≤ pruneAfterHeight network := by
  cases network <;> decide

theorem Sound.next (sound : Sound s) {call : Call} (step : Step s call s') : Sound s' := by
  obtain ⟨allowed, called⟩ := step
  cases call with
  | findBlockPos checkDiskSpace nAddSize nHeight nTime => exact sound.findBlockPos allowed called
  | findUndoPos checkDiskSpace nFile nAddSize => exact sound.findUndoPos allowed.2.1 allowed.2.2 called
  | findFilesToPrune network tip =>
    cases called
    have nothing : Sound ⟨s.node, s.log ++ ([] : List Nat).map .prune⟩ := by
      rw [map_nil, append_nil]
      exact sound
    cases tip with
    | none => exact nothing
    | some tip =>
      cases active : prunes s.node (pruneAfterHeight network) tip with
      | false =>
        rw [findFilesToPrune_idle active]
        exact nothing
      | true => exact sound.prune (findFilesToPrune_pruned active (late_pruneAfterHeight network))

theorem sound_run {node : Node} {calls : List Call} (run : Steps Step (.start node) calls s) : Sound s :=
  run.invariant Sound (fun _ _ _ sound step => sound.next step) (sound_start node)

theorem Sound.prunesRight (sound : Sound s) (network : Network) (tip : Height) :
    s.PrunesRight network tip (findFilesToPrune s.node (pruneAfterHeight network) (some tip)) := by
  cases active : prunes s.node (pruneAfterHeight network) tip with
  | false =>
    rw [findFilesToPrune_idle active]
    refine ⟨nofun, fun prunes => ?_⟩
    rw [active] at prunes
    cases prunes
  | true =>
    have pruned := findFilesToPrune_pruned active (late_pruneAfterHeight network)
    refine ⟨fun nFile member => ?_, fun _ => pruned.done.imp_right fun files nFile below holds => ?_⟩
    · obtain ⟨below, deep⟩ := pruned.chosen nFile member
      refine ⟨below, fun nHeight ⟨kept, extent, block, file⟩ => ?_⟩
      subst file
      exact (Nat.add_le_add_right (sound.blocks extent nHeight block kept).2 _).trans deep
    · have high := (files nFile below).resolve_left holds
      have same : (findFilesToPrune s.node (pruneAfterHeight network) (some tip)).1.info nFile = s.node.info nFile := by
        rw [pruned.info, if_neg]
        intro member
        rw [pruned.info, if_pos member] at holds
        exact holds rfl
      rw [same] at high holds
      have late : MIN_BLOCKS_TO_KEEP < tip.value :=
        (late_pruneAfterHeight network).trans_lt (of_decide_eq_true (Bool.and_eq_true_iff.mp active).2)
      have block := (sound.highest nFile).resolve_left (by omega)
      exact ⟨_, ⟨fun gone => holds (sound.gone nFile gone).2, block⟩, high⟩

/-- In every run the bytes handed out in one file are apart, a file that goes is not written again, the block files stay
below their limit, pruning goes as it should, and no call hangs. -/
theorem block_files_apart {node : Node} {calls : List Call} {s : System} (run : Steps Step (.start node) calls s) :
    s.log.Pairwise Event.Before ∧ (∀ nFile, (s.node.info nFile).nSize < MAX_BLOCKFILE_SIZE) ∧
      (∀ network tip, s.PrunesRight network tip (findFilesToPrune s.node (pruneAfterHeight network) (some tip))) ∧
      ∀ call, Allowed s call → (next s call).isSome := by
  have sound := sound_run run
  refine ⟨sound.ordered, sound.size_lt, sound.prunesRight, fun call allowed => ?_⟩
  cases call with
  | findBlockPos checkDiskSpace nAddSize nHeight nTime =>
    exact isSome_map.trans (findBlockPos_isSome _ _ _ _ allowed)
  | findUndoPos checkDiskSpace nFile nAddSize =>
    refine isSome_map.trans ?_
    unfold findUndoPos
    rw [if_pos allowed.1]
    rfl
  | findFilesToPrune network tip => rfl

def pruningNode : Node where
  fPruneMode := true
  nPruneTarget := 550 * 2 ^ 20
  vinfoBlockFile := []
  nLastBlockFile := 0
  fCheckForPruning := false
  setDirtyFileInfo := []
  mapBlockIndex := []
  mapBlocksUnlinked := []
  setDirtyBlockIndex := []

def nextAllowed (s : System) (call : Call) : Option System := if Allowed s call then next s call else none

theorem steps_of_nextAllowed {calls : List Call} (ran : calls.foldlM nextAllowed s = some s') : Steps Step s calls s' := by
  refine (Steps.of_foldlM ran).mono fun before call after called => ?_
  unfold nextAllowed at called
  split at called
  · rename_i allowed
    exact ⟨allowed, called⟩
  · cases called

/-- Full files with undo data, a look at the pruning, and one more block. -/
def sampleCalls : List Call :=
  (List.range 6).map (fun nHeight => .findBlockPos (fun _ => true) 134217727 nHeight nHeight) ++
    [.findUndoPos (fun _ => true) 0 100, .findUndoPos (fun _ => true) 0 50, .findFilesToPrune .main (some ⟨300000, by decide⟩),
      .findBlockPos (fun _ => false) 300 6 6]

theorem block_files_apart_sample : ∃ s, sampleCalls.foldlM nextAllowed (.start pruningNode) = some s ∧
    s.log.Pairwise Event.Before ∧ (∀ nFile, (s.node.info nFile).nSize < MAX_BLOCKFILE_SIZE) ∧
      (∀ network tip, s.PrunesRight network tip (findFilesToPrune s.node (pruneAfterHeight network) (some tip))) ∧
      ∀ call, Allowed s call → (next s call).isSome := by
  have runs : (sampleCalls.foldlM nextAllowed (.start pruningNode)).isSome = true := by decide +kernel
  obtain ⟨s, ran⟩ := isSome_iff_exists.mp runs
  exact ⟨s, ran, block_files_apart (steps_of_nextAllowed ran)⟩

/-- Six full files, of which the first two go, and then undo data for the first. -/
def lateUndo : List Call :=
  (List.range 6).map (fun nHeight => .findBlockPos (fun _ => true) 134217727 nHeight nHeight) ++
    [.findFilesToPrune .main (some ⟨300000, by decide⟩), .findUndoPos (fun _ => true) 0 100]

/-- Small blocks that spend much: their undo data takes more than 2^32 bytes. -/
def largeUndo : List Call :=
  (List.range 23).map (fun nHeight => .findBlockPos (fun _ => true) 1000000 nHeight nHeight) ++
    List.replicate 23 (.findUndoPos (fun _ => true) 0 200000000)

/-- Whether a run leaves something in the log that may not be there. -/
def outOfPlace (calls : List Call) : Option Bool :=
  (calls.foldlM next (.start pruningNode)).map fun s => decide (¬s.log.Pairwise Event.Before)

theorem outOfPlace_true {calls : List Call} (found : outOfPlace calls = some true) :
    ∃ s, calls.foldlM next (.start pruningNode) = some s ∧ ¬s.log.Pairwise Event.Before := by
  obtain ⟨s, ran, wrong⟩ := map_eq_some_iff.mp found
  exact ⟨s, ran, of_decide_eq_true wrong⟩

theorem undo_out_of_place : (∃ s, lateUndo.foldlM next (.start pruningNode) = some s ∧ ¬s.log.Pairwise Event.Before) ∧
      ∃ s, largeUndo.foldlM next (.start pruningNode) = some s ∧ ¬s.log.Pairwise Event.Before :=
  ⟨outOfPlace_true (by decide +kernel), outOfPlace_true (by decide +kernel)⟩

end Longcoin.BlockFiles

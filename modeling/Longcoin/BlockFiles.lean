import Longcoin.BlockTree

/-! The block and undo files (`main.cpp`, `main.h`): `FindBlockPos` and `FindUndoPos` hand out space in them,
`FindFilesToPrune` chooses those that go. Positions and sizes are 32-bit numbers, file numbers are not bounded. -/

namespace Longcoin.BlockFiles
open Primitives List Option
open BlockTree (MIN_BLOCKS_TO_KEEP)

def MAX_BLOCKFILE_SIZE : Nat := 0x8000000

def BLOCKFILE_CHUNK_SIZE : Nat := 0x1000000

def UNDOFILE_CHUNK_SIZE : Nat := 0x100000

def unsigned (n : Nat) : Nat := n % 2 ^ 32

theorem unsigned_of_lt {n : Nat} (fits : n < 2 ^ 32) : unsigned n = n := Nat.mod_eq_of_lt fits

structure CBlockFileInfo where
  nBlocks : Nat := 0
  nSize : Nat := 0
  nUndoSize : Nat := 0
  nHeightFirst : Nat := 0
  nHeightLast : Nat := 0
  nTimeFirst : Nat := 0
  nTimeLast : Nat := 0
deriving DecidableEq, Repr

/-- `AddBlock`, which does not touch `nSize`. -/
def CBlockFileInfo.addBlock (info : CBlockFileInfo) (nHeightIn nTimeIn : Nat) : CBlockFileInfo :=
  { info with
    nHeightFirst := if info.nBlocks = 0 ∨ info.nHeightFirst > nHeightIn then nHeightIn else info.nHeightFirst
    nTimeFirst := if info.nBlocks = 0 ∨ info.nTimeFirst > nTimeIn then nTimeIn else info.nTimeFirst
    nBlocks := unsigned (info.nBlocks + 1)
    nHeightLast := if nHeightIn > info.nHeightLast then nHeightIn else info.nHeightLast
    nTimeLast := if nTimeIn > info.nTimeLast then nTimeIn else info.nTimeLast }

structure CDiskBlockPos where
  nFile : Nat
  nPos : Nat
deriving DecidableEq, Repr

structure CBlockIndex where
  hash : Uint256
  pprev : Option Uint256
  haveData : Bool
  haveUndo : Bool
  nFile : Nat
  nDataPos : Nat
  nUndoPos : Nat
deriving DecidableEq

/-- The options and the globals that the block files depend on. -/
structure Node where
  fPruneMode : Bool
  nPruneTarget : Nat
  vinfoBlockFile : List CBlockFileInfo
  nLastBlockFile : Nat
  fCheckForPruning : Bool
  setDirtyFileInfo : List Nat
  mapBlockIndex : List CBlockIndex
  mapBlocksUnlinked : List (Option Uint256 × Uint256)
  setDirtyBlockIndex : List Uint256

namespace Node

/-- `vinfoBlockFile[nFile]`; a file that the vector does not reach is as `resize` makes it. -/
def info (node : Node) (nFile : Nat) : CBlockFileInfo := node.vinfoBlockFile.getD nFile {}

def edit (node : Node) (nFile : Nat) (change : CBlockFileInfo → CBlockFileInfo) : Node :=
  { node with vinfoBlockFile := node.vinfoBlockFile.modify nFile change }

def resize (node : Node) (nFile : Nat) : Node :=
  { node with
    vinfoBlockFile := node.vinfoBlockFile ++ List.replicate (nFile + 1 - node.vinfoBlockFile.length) {} }

def lists (node : Node) (nFile : Nat) : Prop := nFile < node.vinfoBlockFile.length

instance (node : Node) (nFile : Nat) : Decidable (node.lists nFile) := inferInstanceAs (Decidable (_ < _))

theorem info_congr {node node' : Node} (same : node'.vinfoBlockFile = node.vinfoBlockFile) (other : Nat) :
    node'.info other = node.info other := by
  unfold info
  rw [same]

@[simp] theorem info_resize (node : Node) (nFile other : Nat) : (node.resize nFile).info other = node.info other := by
  unfold info resize
  simp only [getD_eq_getElem?_getD, getElem?_append, getElem?_replicate]
  split
  · rfl
  · rename_i outside
    rw [getElem?_eq_none (not_lt.mp outside)]
    split <;> rfl

theorem lists_resize (node : Node) (nFile : Nat) : (node.resize nFile).lists nFile := by
  unfold lists resize
  simp only [length_append, length_replicate]
  omega

theorem info_edit {node : Node} {nFile : Nat} (listed : node.lists nFile) (change : CBlockFileInfo → CBlockFileInfo)
    (other : Nat) : (node.edit nFile change).info other = if other = nFile then change (node.info nFile) else node.info other := by
  unfold info edit
  simp only [getD_eq_getElem?_getD, getElem?_modify]
  by_cases same : other = nFile
  · subst same
    simp [getElem?_eq_getElem listed]
  · simp [same, Ne.symm same]

end Node

/-- Whether a record of `nAddSize` bytes does not fit into the file. -/
def isFull (node : Node) (nFile nAddSize : Nat) : Bool :=
  decide (unsigned ((node.info nFile).nSize + nAddSize) ≥ MAX_BLOCKFILE_SIZE)

/-- The first file from `nFile` on with room for the record; `none` where `turns` files are full. -/
def firstRoomy (nAddSize : Nat) : Nat → Node → Nat → Option (Node × Nat)
  | 0, _, _ => none
  | turns + 1, node, nFile =>
    if isFull node nFile nAddSize then firstRoomy nAddSize turns (node.resize (nFile + 1)) (nFile + 1)
    else some (node, nFile)

def chunks (size chunk : Nat) : Nat := unsigned (size + chunk - 1) / chunk

/-- The file grows from `nPos` to `nNewSize`: a new chunk asks for a look at the pruning, and for space on the disk up to
its end. The flag says whether there is that space. -/
def preallocate (checkDiskSpace : Nat → Bool) (chunk nPos nNewSize : Nat) (node : Node) : Node × Bool :=
  let nNewChunks := chunks nNewSize chunk
  let grows := decide (nNewChunks > chunks nPos chunk)
  ({ node with fCheckForPruning := node.fCheckForPruning || grows && node.fPruneMode },
   !grows || checkDiskSpace (unsigned (unsigned (nNewChunks * chunk) + 2 ^ 32 - nPos)))

open Node

@[simp] theorem info_preallocate (checkDiskSpace : Nat → Bool) (chunk nPos nNewSize : Nat) (node : Node) (other : Nat) :
    (preallocate checkDiskSpace chunk nPos nNewSize node).1.info other = node.info other := info_congr rfl other

@[simp] theorem nLastBlockFile_preallocate (checkDiskSpace : Nat → Bool) (chunk nPos nNewSize : Nat) (node : Node) :
    (preallocate checkDiskSpace chunk nPos nNewSize node).1.nLastBlockFile = node.nLastBlockFile := rfl

def markDirty (node : Node) (nFile : Nat) (marks : Bool) : Node :=
  { node with setDirtyFileInfo := if marks then node.setDirtyFileInfo.insert nFile else node.setDirtyFileInfo }

@[simp] theorem info_markDirty (node : Node) (nFile : Nat) (marks : Bool) (other : Nat) :
    (markDirty node nFile marks).info other = node.info other := info_congr rfl other

@[simp] theorem nLastBlockFile_markDirty (node : Node) (nFile : Nat) (marks : Bool) :
    (markDirty node nFile marks).nLastBlockFile = node.nLastBlockFile := rfl

/-- The block goes to the end of the file. The flag says that the disk had the space; the bytes are taken in any case. -/
def appendBlock (checkDiskSpace : Nat → Bool) (nAddSize nHeight nTime : Nat) (node : Node) (nFile : Nat) :
    Node × CDiskBlockPos × Bool :=
  let nPos := (node.info nFile).nSize
  let taken := { node with nLastBlockFile := nFile }.edit nFile fun info =>
    { info.addBlock nHeight nTime with nSize := unsigned (info.nSize + nAddSize) }
  let allocated := preallocate checkDiskSpace BLOCKFILE_CHUNK_SIZE nPos (taken.info nFile).nSize taken
  (markDirty allocated.1 nFile allocated.2, ⟨nFile, nPos⟩, allocated.2)

/-- The block is at `pos` already. -/
def noteBlock (nAddSize nHeight nTime : Nat) (node : Node) (pos : CDiskBlockPos) : Node :=
  let node := (node.resize pos.nFile).edit pos.nFile fun info =>
    { info.addBlock nHeight nTime with nSize := max (unsigned (pos.nPos + nAddSize)) info.nSize }
  markDirty { node with nLastBlockFile := pos.nFile } pos.nFile true

/-- `FindBlockPos`, with the place of the block if it is `known`. `none` is a loop without end: when a fresh file is too
small, so is each one after it. -/
def findBlockPos (node : Node) (checkDiskSpace : Nat → Bool) (nAddSize nHeight nTime : Nat) (known : Option CDiskBlockPos) :
    Option (Node × CDiskBlockPos × Bool) :=
  match known with
  | some pos => some (noteBlock nAddSize nHeight nTime node pos, pos, true)
  | none =>
    (firstRoomy nAddSize (node.vinfoBlockFile.length + 2) (node.resize node.nLastBlockFile) node.nLastBlockFile).map
      fun roomy => appendBlock checkDiskSpace nAddSize nHeight nTime roomy.1 roomy.2

variable {nAddSize nFile : Nat} {node : Node}

theorem firstRoomy_spec {turns : Nat} {node' : Node} {nFile' : Nat} (listed : node.lists nFile)
    (found : firstRoomy nAddSize turns node nFile = some (node', nFile')) :
    nFile ≤ nFile' ∧ node'.lists nFile' ∧ isFull node' nFile' nAddSize = false ∧ ∀ other, node'.info other = node.info other := by
  induction turns generalizing node nFile with
  | zero => cases found
  | succ turns ih =>
    unfold firstRoomy at found
    split at found
    · obtain ⟨later, there, roomy, same⟩ := ih (node.lists_resize _) found
      refine ⟨by omega, there, roomy, fun other => ?_⟩
      rw [same, info_resize]
    · rename_i roomy
      cases found
      exact ⟨le_rfl, listed, Bool.eq_false_iff.mpr roomy, fun other => rfl⟩

theorem firstRoomy_isSome {turns : Nat} (small : nAddSize < MAX_BLOCKFILE_SIZE) (fresh : Nat)
    (empty : ∀ other, fresh ≤ other → node.info other = {}) (enough : fresh < nFile + turns) (positive : 0 < turns) :
    (firstRoomy nAddSize turns node nFile).isSome := by
  induction turns generalizing node nFile with
  | zero => exact absurd positive (Nat.lt_irrefl 0)
  | succ turns ih =>
    unfold firstRoomy
    split
    · rename_i full
      have old : nFile < fresh := by
        by_contra reached
        have roomy : isFull node nFile nAddSize = false := by
          unfold isFull
          rw [empty nFile (not_lt.mp reached), Nat.zero_add, unsigned_of_lt (small.trans (by decide))]
          exact decide_eq_false (not_le.mpr small)
        rw [roomy] at full
        cases full
      apply ih
      · intro other later
        rw [info_resize]
        exact empty other later
      · omega
      · omega
    · rfl

theorem info_beyond (beyond : node.vinfoBlockFile.length ≤ nFile) : node.info nFile = {} := by
  unfold info
  rw [getD_eq_getElem?_getD, getElem?_eq_none beyond]
  rfl

theorem appendBlock_spec (listed : node.lists nFile) (checkDiskSpace : Nat → Bool) (nAddSize nHeight nTime : Nat) :
    (appendBlock checkDiskSpace nAddSize nHeight nTime node nFile).1.nLastBlockFile = nFile ∧
      (appendBlock checkDiskSpace nAddSize nHeight nTime node nFile).2.1 = ⟨nFile, (node.info nFile).nSize⟩ ∧
      ∀ other, (appendBlock checkDiskSpace nAddSize nHeight nTime node nFile).1.info other = if other = nFile then
        { (node.info nFile).addBlock nHeight nTime with nSize := unsigned ((node.info nFile).nSize + nAddSize) }
        else node.info other := by
  have listed' : ({ node with nLastBlockFile := nFile } : Node).lists nFile := listed
  have written := info_edit listed' fun info =>
    { info.addBlock nHeight nTime with nSize := unsigned (info.nSize + nAddSize) }
  refine ⟨?_, rfl, fun other => ?_⟩
  · rw [appendBlock, nLastBlockFile_markDirty, nLastBlockFile_preallocate, edit]
  · rw [appendBlock, info_markDirty, info_preallocate]
    exact written other

open CBlockFileInfo

theorem findBlockPos_spec {node' : Node} {checkDiskSpace : Nat → Bool} {nHeight nTime : Nat} {pos : CDiskBlockPos}
    {space : Bool} (found : findBlockPos node checkDiskSpace nAddSize nHeight nTime none = some (node', pos, space)) :
    node.nLastBlockFile ≤ pos.nFile ∧ node'.nLastBlockFile = pos.nFile ∧ pos.nPos = (node.info pos.nFile).nSize ∧
      unsigned (pos.nPos + nAddSize) < MAX_BLOCKFILE_SIZE ∧
      ∀ other, node'.info other = if other = pos.nFile then
        { (node.info pos.nFile).addBlock nHeight nTime with nSize := unsigned (pos.nPos + nAddSize) }
        else node.info other := by
  unfold findBlockPos at found
  obtain ⟨⟨roomy, nFile⟩, searched, appended⟩ := map_eq_some_iff.mp found
  obtain ⟨later, listed, room, same⟩ := firstRoomy_spec (node.lists_resize _) searched
  have same' : ∀ other, roomy.info other = node.info other := fun other => (same other).trans (info_resize _ _ _)
  obtain ⟨last, place, written⟩ := appendBlock_spec listed checkDiskSpace nAddSize nHeight nTime
  rw [appended] at last place written
  dsimp only at last place written
  subst place
  refine ⟨later, last, congrArg nSize (same' nFile), not_le.mp (of_decide_eq_false room), fun other => ?_⟩
  rw [written]
  dsimp only
  rw [same', same']

theorem findBlockPos_isSome (node : Node) (checkDiskSpace : Nat → Bool) (nHeight nTime : Nat)
    (small : nAddSize < MAX_BLOCKFILE_SIZE) : (findBlockPos node checkDiskSpace nAddSize nHeight nTime none).isSome := by
  unfold findBlockPos
  rw [isSome_map]
  apply firstRoomy_isSome small node.vinfoBlockFile.length
  · intro other later
    rw [info_resize]
    exact info_beyond later
  · omega
  · omega

/-- `FindUndoPos`; `none` is a file that the vector does not have. -/
def findUndoPos (node : Node) (checkDiskSpace : Nat → Bool) (nFile nAddSize : Nat) : Option (Node × CDiskBlockPos × Bool) :=
  if node.lists nFile then
    let nPos := (node.info nFile).nUndoSize
    let taken := markDirty (node.edit nFile fun info => { info with nUndoSize := unsigned (info.nUndoSize + nAddSize) }) nFile true
    let allocated := preallocate checkDiskSpace UNDOFILE_CHUNK_SIZE nPos (taken.info nFile).nUndoSize taken
    some (allocated.1, ⟨nFile, nPos⟩, allocated.2)
  else none

theorem findUndoPos_spec {node' : Node} {checkDiskSpace : Nat → Bool} {pos : CDiskBlockPos} {space : Bool}
    (found : findUndoPos node checkDiskSpace nFile nAddSize = some (node', pos, space)) :
    node'.nLastBlockFile = node.nLastBlockFile ∧ pos = ⟨nFile, (node.info nFile).nUndoSize⟩ ∧
      ∀ other, node'.info other = if other = nFile then
        { node.info nFile with nUndoSize := unsigned ((node.info nFile).nUndoSize + nAddSize) }
        else node.info other := by
  unfold findUndoPos at found
  split at found
  · rename_i listed
    obtain ⟨rfl, place, -⟩ := Prod.mk.inj (some.inj found) |>.imp id Prod.mk.inj
    refine ⟨?_, place.symm, fun other => ?_⟩
    · rw [nLastBlockFile_preallocate, nLastBlockFile_markDirty, edit]
    · rw [info_preallocate, info_markDirty]
      exact info_edit listed _ other
  · cases found

/-- The bytes of a file and its undo file, as a sum of two `unsigned int`. -/
def CBlockFileInfo.bytes (info : CBlockFileInfo) : Nat := unsigned (info.nSize + info.nUndoSize)

/-- `CalculateCurrentUsage`; it takes 2^32 files to leave the 64 bits of its sum. -/
def calculateCurrentUsage (node : Node) : Nat := (node.vinfoBlockFile.map CBlockFileInfo.bytes).sum

def CBlockIndex.forget (pindex : CBlockIndex) : CBlockIndex :=
  { pindex with haveData := false, haveUndo := false, nFile := 0, nDataPos := 0, nUndoPos := 0 }

/-- `PruneOneBlockFile`. -/
def pruneOneBlockFile (node : Node) (fileNumber : Nat) : Node :=
  let gone := node.mapBlockIndex.filter (·.nFile == fileNumber)
  let node := node.edit fileNumber fun _ => {}
  { node with
    mapBlockIndex := node.mapBlockIndex.map fun pindex => if pindex.nFile == fileNumber then pindex.forget else pindex
    setDirtyBlockIndex := gone.foldl (fun dirty pindex => dirty.insert pindex.hash) node.setDirtyBlockIndex
    mapBlocksUnlinked := node.mapBlocksUnlinked.filter fun edge =>
      !gone.any fun pindex => edge.1 == pindex.pprev && edge.2 == pindex.hash
    setDirtyFileInfo := node.setDirtyFileInfo.insert fileNumber }

@[simp] theorem info_pruneOneBlockFile (node : Node) (fileNumber other : Nat) :
    (pruneOneBlockFile node fileNumber).info other = if other = fileNumber then {} else node.info other := by
  have same : (pruneOneBlockFile node fileNumber).info other = (node.edit fileNumber fun _ => {}).info other :=
    info_congr rfl other
  rw [same]
  by_cases listed : node.lists fileNumber
  · exact info_edit listed _ other
  · have absent : (node.edit fileNumber fun _ => {}).info other = node.info other :=
      info_congr (modify_eq_self (not_lt.mp listed)) other
    rw [absent]
    split
    · rename_i here
      rw [here]
      exact info_beyond (not_lt.mp listed)
    · rfl

theorem sum_bytes_clear (files : List CBlockFileInfo) (nFile : Nat) :
    ((files.modify nFile fun _ => {}).map bytes).sum + (files.getD nFile {}).bytes = (files.map bytes).sum := by
  induction files generalizing nFile with
  | nil =>
    rw [modify_nil]
    rfl
  | cons info files ih =>
    cases nFile with
    | zero =>
      have nothing : bytes {} = 0 := rfl
      rw [modify_zero_cons, map_cons, sum_cons, map_cons, sum_cons, getD_cons_zero, nothing,
        Nat.zero_add, Nat.add_comm]
    | succ nFile =>
      rw [modify_succ_cons, map_cons, sum_cons, map_cons, sum_cons, getD_cons_succ, ← ih nFile,
        Nat.add_assoc]

theorem calculateCurrentUsage_prune (node : Node) (fileNumber : Nat) :
    calculateCurrentUsage (pruneOneBlockFile node fileNumber) = calculateCurrentUsage node - (node.info fileNumber).bytes :=
  Nat.eq_sub_of_add_eq (sum_bytes_clear node.vinfoBlockFile fileNumber)

/-- What is left free under the target for the next allocation. -/
def nBuffer : Nat := BLOCKFILE_CHUNK_SIZE + UNDOFILE_CHUNK_SIZE

/-- Where the loop of `FindFilesToPrune` stands. -/
structure Scan where
  node : Node
  nCurrentUsage : Nat
  setFilesToPrune : List Nat

def scanFiles (nLastBlockWeCanPrune : Nat) : List Nat → Scan → Scan
  | [], scan => scan
  | fileNumber :: rest, scan =>
    let info := scan.node.info fileNumber
    if info.nSize = 0 then scanFiles nLastBlockWeCanPrune rest scan
    else if scan.nCurrentUsage + nBuffer < scan.node.nPruneTarget then scan
    else if info.nHeightLast > nLastBlockWeCanPrune then scanFiles nLastBlockWeCanPrune rest scan
    else scanFiles nLastBlockWeCanPrune rest
      { node := pruneOneBlockFile scan.node fileNumber
        nCurrentUsage := scan.nCurrentUsage - info.bytes
        setFilesToPrune := scan.setFilesToPrune.insert fileNumber }

structure Scan.Sound (start : Node) (nLastBlockWeCanPrune : Nat) (scan : Scan) : Prop where
  usage : scan.nCurrentUsage = calculateCurrentUsage scan.node
  target : scan.node.nPruneTarget = start.nPruneTarget
  last : scan.node.nLastBlockFile = start.nLastBlockFile
  info : ∀ nFile, scan.node.info nFile = if nFile ∈ scan.setFilesToPrune then {} else start.info nFile
  chosen : ∀ nFile ∈ scan.setFilesToPrune, nFile < start.nLastBlockFile ∧ (start.info nFile).nSize ≠ 0 ∧
    (start.info nFile).nHeightLast ≤ nLastBlockWeCanPrune

section Scanning

variable {start : Node} {nLastBlockWeCanPrune : Nat} {scan : Scan}

theorem Scan.Sound.take (sound : scan.Sound start nLastBlockWeCanPrune) {fileNumber : Nat}
    (below : fileNumber < start.nLastBlockFile) (holds : (scan.node.info fileNumber).nSize ≠ 0)
    (deep : (scan.node.info fileNumber).nHeightLast ≤ nLastBlockWeCanPrune) :
    Scan.Sound start nLastBlockWeCanPrune
      { node := pruneOneBlockFile scan.node fileNumber
        nCurrentUsage := scan.nCurrentUsage - (scan.node.info fileNumber).bytes
        setFilesToPrune := scan.setFilesToPrune.insert fileNumber } where
  usage := by rw [calculateCurrentUsage_prune, sound.usage]
  target := sound.target
  last := sound.last
  info nFile := by
    rw [info_pruneOneBlockFile, sound.info]
    by_cases here : nFile = fileNumber
    · rw [if_pos here, if_pos (mem_insert_iff.mpr (.inl here))]
    · rw [if_neg here]
      exact if_congr (by simp [here]) rfl rfl
  chosen nFile member := by
    rcases mem_insert_iff.mp member with rfl | before
    · have untouched : nFile ∉ scan.setFilesToPrune := by
        intro taken
        rw [sound.info, if_pos taken] at holds
        exact holds rfl
      rw [sound.info, if_neg untouched] at holds deep
      exact ⟨below, holds, deep⟩
    · exact sound.chosen nFile before

theorem Scan.Sound.scanFiles {files : List Nat} (sound : scan.Sound start nLastBlockWeCanPrune)
    (below : ∀ fileNumber ∈ files, fileNumber < start.nLastBlockFile) :
    (scanFiles nLastBlockWeCanPrune files scan).Sound start nLastBlockWeCanPrune := by
  induction files generalizing scan with
  | nil => exact sound
  | cons fileNumber rest ih =>
    have later : ∀ other ∈ rest, other < start.nLastBlockFile := (forall_mem_cons.mp below).2
    unfold BlockFiles.scanFiles
    dsimp only
    split
    · exact ih sound later
    · rename_i holds
      split
      · exact sound
      · split
        · exact ih sound later
        · rename_i deep
          exact ih (sound.take (below fileNumber (mem_cons_self ..)) holds (not_lt.mp deep)) later

theorem scanFiles_passed {files : List Nat} {nFile : Nat}
    (passed : (scan.node.info nFile).nSize = 0 ∨ nLastBlockWeCanPrune < (scan.node.info nFile).nHeightLast) :
    ((scanFiles nLastBlockWeCanPrune files scan).node.info nFile).nSize = 0 ∨
      nLastBlockWeCanPrune < ((scanFiles nLastBlockWeCanPrune files scan).node.info nFile).nHeightLast := by
  induction files generalizing scan with
  | nil => exact passed
  | cons fileNumber rest ih =>
    unfold scanFiles
    dsimp only
    split
    · exact ih passed
    · split
      · exact passed
      · split
        · exact ih passed
        · apply ih
          dsimp only
          rw [info_pruneOneBlockFile]
          split
          · exact .inl rfl
          · exact passed

theorem scanFiles_done (files : List Nat) (scan : Scan) :
    (scanFiles nLastBlockWeCanPrune files scan).nCurrentUsage + nBuffer <
        (scanFiles nLastBlockWeCanPrune files scan).node.nPruneTarget ∨
      ∀ nFile ∈ files, ((scanFiles nLastBlockWeCanPrune files scan).node.info nFile).nSize = 0 ∨
        nLastBlockWeCanPrune < ((scanFiles nLastBlockWeCanPrune files scan).node.info nFile).nHeightLast := by
  induction files generalizing scan with
  | nil => exact .inr nofun
  | cons fileNumber rest ih =>
    have step : ∀ next : Scan, ((next.node.info fileNumber).nSize = 0 ∨
        nLastBlockWeCanPrune < (next.node.info fileNumber).nHeightLast) →
        (scanFiles nLastBlockWeCanPrune rest next).nCurrentUsage + nBuffer <
            (scanFiles nLastBlockWeCanPrune rest next).node.nPruneTarget ∨
          ∀ nFile ∈ fileNumber :: rest, ((scanFiles nLastBlockWeCanPrune rest next).node.info nFile).nSize = 0 ∨
            nLastBlockWeCanPrune < ((scanFiles nLastBlockWeCanPrune rest next).node.info nFile).nHeightLast := by
      intro next passed
      refine (ih next).imp_right fun others nFile member => ?_
      rcases mem_cons.mp member with rfl | later
      · exact scanFiles_passed passed
      · exact others nFile later
    unfold scanFiles
    dsimp only
    split
    · rename_i empty
      exact step scan (.inl empty)
    · split
      · rename_i under
        exact .inl under
      · split
        · rename_i high
          exact step scan (.inr high)
        · apply step
          dsimp only
          rw [info_pruneOneBlockFile, if_pos rfl]
          exact .inl rfl

end Scanning

/-- `nHeight` of a block, an `int`. -/
structure Height where
  value : Nat
  fits : value < 2 ^ 31

inductive Network where
  | main
  | test
  | regtest
deriving DecidableEq, Repr

def pruneAfterHeight : Network → Nat
  | .main => 200000
  | .test => 200000
  | .regtest => 200000

/-- Whether `FindFilesToPrune` looks for files at all, with `tip` the height of the active chain. -/
def prunes (node : Node) (nPruneAfterHeight : Nat) (tip : Height) : Bool :=
  node.nPruneTarget != 0 && decide (nPruneAfterHeight < tip.value)

/-- `FindFilesToPrune`: the node afterwards and the files that go. -/
def findFilesToPrune (node : Node) (nPruneAfterHeight : Nat) (tip : Option Height) : Node × List Nat :=
  match tip with
  | none => (node, [])
  | some tip =>
    if prunes node nPruneAfterHeight tip then
      let nLastBlockWeCanPrune := unsigned (tip.value + 2 ^ 32 - MIN_BLOCKS_TO_KEEP)
      if calculateCurrentUsage node + nBuffer ≥ node.nPruneTarget then
        let scan := scanFiles nLastBlockWeCanPrune (List.range node.nLastBlockFile) ⟨node, calculateCurrentUsage node, []⟩
        (scan.node, scan.setFilesToPrune)
      else (node, [])
    else (node, [])

/-- What `FindFilesToPrune` does: the files that go are empty afterwards. They are below the last one, and their blocks deep
enough; nothing is left to prune above the target. -/
structure Pruned (node : Node) (tip : Height) (result : Node × List Nat) : Prop where
  last : result.1.nLastBlockFile = node.nLastBlockFile
  info : ∀ nFile, result.1.info nFile = if nFile ∈ result.2 then {} else node.info nFile
  chosen : ∀ nFile ∈ result.2, nFile < node.nLastBlockFile ∧ (node.info nFile).nHeightLast + MIN_BLOCKS_TO_KEEP ≤ tip.value
  done : calculateCurrentUsage result.1 + nBuffer < node.nPruneTarget ∨
    ∀ nFile < node.nLastBlockFile, (result.1.info nFile).nSize = 0 ∨
      tip.value < (result.1.info nFile).nHeightLast + MIN_BLOCKS_TO_KEEP

theorem nLastBlockWeCanPrune_eq {tip : Height} (deep : MIN_BLOCKS_TO_KEEP ≤ tip.value) :
    unsigned (tip.value + 2 ^ 32 - MIN_BLOCKS_TO_KEEP) = tip.value - MIN_BLOCKS_TO_KEEP := by
  have fits := tip.fits
  unfold MIN_BLOCKS_TO_KEEP unsigned at *
  omega

theorem findFilesToPrune_pruned {nPruneAfterHeight : Nat} {tip : Height} (active : prunes node nPruneAfterHeight tip = true)
    (late : MIN_BLOCKS_TO_KEEP ≤ nPruneAfterHeight) :
    Pruned node tip (findFilesToPrune node nPruneAfterHeight (some tip)) := by
  have deep : MIN_BLOCKS_TO_KEEP ≤ tip.value := late.trans (of_decide_eq_true (Bool.and_eq_true_iff.mp active).2).le
  unfold findFilesToPrune
  dsimp only
  rw [if_pos active, nLastBlockWeCanPrune_eq deep]
  split
  · have begins : Scan.Sound node (tip.value - MIN_BLOCKS_TO_KEEP) ⟨node, calculateCurrentUsage node, []⟩ :=
      ⟨rfl, rfl, rfl, fun nFile => (if_neg not_mem_nil).symm, nofun⟩
    have ends := begins.scanFiles fun fileNumber member => mem_range.mp member
    refine ⟨ends.last, ends.info, fun nFile member => ?_, ?_⟩
    · obtain ⟨below, -, low⟩ := ends.chosen nFile member
      exact ⟨below, Nat.add_le_of_le_sub deep low⟩
    · rcases scanFiles_done (range node.nLastBlockFile) ⟨node, calculateCurrentUsage node, []⟩ with under | passed
      · left
        rw [ends.usage, ends.target] at under
        exact under
      · exact .inr fun nFile below =>
          (passed nFile (mem_range.mpr below)).imp_right (Nat.sub_lt_iff_lt_add deep).mp
  · rename_i under
    exact ⟨rfl, fun nFile => (if_neg not_mem_nil).symm, nofun,
      .inl (not_le.mp under)⟩

theorem findFilesToPrune_idle {nPruneAfterHeight : Nat} {tip : Height} (idle : prunes node nPruneAfterHeight tip = false) :
    findFilesToPrune node nPruneAfterHeight (some tip) = (node, []) := by
  unfold findFilesToPrune
  dsimp only
  rw [idle]
  rfl

end Longcoin.BlockFiles

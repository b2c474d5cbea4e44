import Longcoin.TimestampIndex
import Longcoin.Library.Outcome

/-! The tree of blocks on disk (`txdb.cpp`, `main.cpp`): what `WriteBatchSync` writes of the block index, and `LoadBlockIndexDB`. -/

namespace Longcoin.DiskIndex
open Primitives Library Bytes ByteStore ParentForest Chain AddressScan TimestampIndex WellFormed Outcome List Option Except

def DB_BLOCK_INDEX : UInt8 := 0x62

/-- What `LoadBlockIndexGuts` reads of a `CDiskBlockIndex` for the tree. -/
structure CDiskBlockIndex where
  hash : Uint256
  hashPrev : Uint256
  nHeight : Nat

abbrev BlockIndexDB := Store CDiskBlockIndex

def blockIndexKey (hash : Uint256) : List UInt8 := DB_BLOCK_INDEX :: littleBytes 32 hash.toNat

/-- `CDiskBlockIndex(pindex)`; without a parent `hashPrev` is zero. -/
def diskBlockIndex (index : Index) (pindex : Nat) : CDiskBlockIndex where
  hash := blockHash index pindex
  hashPrev := ((pprev index pindex).map (blockHash index)).getD 0
  nHeight := nHeight index pindex

def blockIndexEntry (index : Index) (pindex : Nat) : List UInt8 × CDiskBlockIndex :=
  (blockIndexKey (blockHash index pindex), diskBlockIndex index pindex)

def writeBatchSync (index : Index) (vBlocks : List Nat) (db : BlockIndexDB) : BlockIndexDB :=
  vBlocks.foldl (fun db pindex => put (blockIndexEntry index pindex).1 (blockIndexEntry index pindex).2 db) db

def insertBlockIndex (index : Index) (hash : Uint256) : Index × Option Nat :=
  if hash = 0 then (index, none)
  else
    match find index hash with
    | some pindex => (index, some pindex)
    | none => (index ++ [⟨hash, none, none, 0⟩], some index.length)

/-- A turn of the loop of `LoadBlockIndexGuts`. -/
def insertDiskIndex (index : Index) (diskindex : CDiskBlockIndex) : Except Fault Index :=
  let (index, pindexNew) := insertBlockIndex index diskindex.hash
  let (index, pprev) := insertBlockIndex index diskindex.hashPrev
  match pindexNew with
  | none => .error .badPointer
  | some place => do
      let block ← deref index (some place)
      return index.set place { block with pprev, nHeight := diskindex.nHeight }

def loadBlockIndexGuts (db : BlockIndexDB) : Except Fault Index :=
  db.foldlM (fun index entry => insertDiskIndex index entry.2) []

/-- `vSortedByHeight`. -/
def sortedByHeight (index : Index) : List Nat :=
  (List.range index.length).insertionSort fun pa pb => nHeight index pa < nHeight index pb ∨ nHeight index pa = nHeight index pb ∧ pa ≤ pb

/-- The tree that `LoadBlockIndexDB` makes, with its skip pointers. -/
def loadTree (db : BlockIndexDB) : Except Fault Index := do
  let index ← loadBlockIndexGuts db
  (sortedByHeight index).foldlM buildSkip index

/-- `LoadBlockIndexDB`: the tip is the best block of the coins database, if there is such a block. -/
def loadBlockIndexDB (db : BlockIndexDB) (hashBestBlock : Uint256) : Except Fault (Index × VChain) := do
  let index ← loadTree db
  match find index hashBestBlock with
  | none => return (index, [])
  | some tip =>
      let chainActive ← setTip index [] (some tip)
      return (index, chainActive)

/-- The blocks stay where they are, but for their skip pointers. -/
def Grows (index index' : Index) : Prop :=
  ∀ (pindex : Nat) (block : CBlockIndex), index[pindex]? = some block → ∃ pskip, index'[pindex]? = some { block with pskip }

section Growing

variable {index index' index'' : Index} {pindex : Nat} {tip : Option Nat} {vChain : VChain}

theorem Grows.refl (index : Index) : Grows index index := fun _ block here => ⟨block.pskip, here⟩

theorem Grows.trans (first : Grows index index') (second : Grows index' index'') : Grows index index'' := by
  intro pindex block here
  obtain ⟨pskip, there⟩ := first pindex block here
  obtain ⟨pskip', there'⟩ := second pindex _ there
  exact ⟨pskip', there'⟩

theorem grows_append (index added : Index) : Grows index (index ++ added) := by
  intro pindex block here
  refine ⟨block.pskip, ?_⟩
  rw [getElem?_append_left (lt_of_here here)]
  exact here

section

variable (grows : Grows index index')
include grows

theorem Grows.lt (inside : pindex < index.length) : pindex < index'.length := by
  obtain ⟨block, here⟩ := exists_of_lt inside
  obtain ⟨pskip, there⟩ := grows pindex block here
  exact lt_of_here there

theorem Grows.same (inside : pindex < index.length) :
    blockHash index' pindex = blockHash index pindex ∧ pprev index' pindex = pprev index pindex ∧
      nHeight index' pindex = nHeight index pindex := by
  obtain ⟨block, here⟩ := exists_of_lt inside
  obtain ⟨pskip, there⟩ := grows pindex block here
  rw [blockHash_eq here, blockHash_eq there, pprev_eq here, pprev_eq there, nHeight_eq here,
    nHeight_eq there]
  exact ⟨rfl, rfl, rfl⟩

theorem Grows.path (shape : WellFormed index) (path : Path index tip vChain) : Path index' tip vChain := by
  cases tip with
  | none => exact path
  | some top =>
    obtain ⟨inside, length, slots⟩ := path
    obtain ⟨-, -, height⟩ := grows.same inside
    refine ⟨grows.lt inside, ?_, ?_⟩
    · rw [length, height]
    · intro low below
      rw [height] at below ⊢
      rw [slots low below]
      apply congrArg
      exact (@climb_congr _ _ _ _ (· < index.length) (fun _ known => (grows.same known).2.1) shape.closed _ inside).symm

theorem Grows.entry (shape : WellFormed index) (inside : pindex < index.length) :
    blockIndexEntry index' pindex = blockIndexEntry index pindex := by
  obtain ⟨hash, parent, height⟩ := grows.same inside
  have above : ((pprev index pindex).map (blockHash index')).getD 0 = ((pprev index pindex).map (blockHash index)).getD 0 := by
    cases up : pprev index pindex with
    | none => rfl
    | some place => exact (grows.same (shape.closed pindex place inside up)).1
  rw [blockIndexEntry, blockIndexEntry, diskBlockIndex, diskBlockIndex, hash, parent, height, above]

theorem Grows.mem_hashes {hash : Uint256} (member : hash ∈ index.map (·.hash)) : hash ∈ index'.map (·.hash) := by
  obtain ⟨block, inside, same⟩ := mem_map.mp member
  obtain ⟨pindex, here⟩ := mem_iff_getElem?.mp inside
  obtain ⟨pskip, there⟩ := grows pindex block here
  exact mem_map.mpr ⟨_, mem_of_getElem? there, same⟩

end

theorem buildSkip_grows (done : buildSkip index pindex = .ok index') : Grows index index' ∧ index'.length = index.length := by
  rw [buildSkip] at done
  obtain ⟨block, found, done⟩ := bind_ok.mp done
  split_ifs at done with parent
  · obtain ⟨pskip, -, done⟩ := bind_ok.mp done
    obtain rfl := pure_ok.mp done
    constructor
    · intro place other here
      rw [getElem?_set]
      split_ifs with same inside
      · refine ⟨pskip, ?_⟩
        rw [deref, bind_some, same, here] at found
        rw [ok.inj found]
      · rw [same] at inside
        exact absurd (lt_of_here here) inside
      · exact ⟨other.pskip, here⟩
    · exact length_set
  · obtain rfl := pure_ok.mp done
    exact ⟨Grows.refl _, rfl⟩

theorem addBlock_grows {hash : Uint256} {pprev : Option Nat} (done : addBlock index hash pprev = .ok index') :
    Grows index index' ∧ ∀ place < index'.length, place < index.length ∨ place = index.length := by
  have grown (block : CBlockIndex) : Grows index (index ++ [block]) ∧
      ∀ place < (index ++ [block]).length, place < index.length ∨ place = index.length := by
    refine ⟨grows_append index _, fun place inside => ?_⟩
    rw [length_append, length_singleton] at inside
    omega
  rw [addBlock.eq_def] at done
  split at done
  · obtain rfl := ok.inj done
    exact ⟨Grows.refl _, fun _ inside => .inl inside⟩
  · split at done
    · obtain rfl := ok.inj done
      exact grown _
    · obtain ⟨block, -, done⟩ := bind_ok.mp done
      obtain rfl := pure_ok.mp done
      exact grown _

end Growing

/-- The entries on disk are those of blocks in memory; what is not dirty has its entry, and so have the ancestors. -/
structure Stored (index : Index) (dirty : List Nat) (db : BlockIndexDB) : Prop where
  ordered : Ordered db
  entries : ∀ entry ∈ db, ∃ pindex < index.length, blockIndexEntry index pindex = entry
  clean : ∀ pindex < index.length, pindex ∉ dirty → blockIndexEntry index pindex ∈ db
  closed : ∀ pindex < index.length, blockIndexEntry index pindex ∈ db → ∀ above, pprev index pindex = some above →
    blockIndexEntry index above ∈ db
  inside : ∀ pindex ∈ dirty, pindex < index.length

section Disk

variable {index index' : Index} {dirty vBlocks : List Nat} {db : BlockIndexDB} {pindex other : Nat}

theorem blockIndexKey_inj {hash hash' : Uint256} (same : blockIndexKey hash = blockIndexKey hash') : hash = hash' :=
  BitVec.eq_of_toNat_eq (littleBytes_inj (hash_fits hash (by rfl)) (hash_fits hash' (by rfl)) (cons.inj same).2)

theorem blockIndexEntry_inj (shape : WellFormed index) (known : pindex < index.length) (known' : other < index.length)
    (same : (blockIndexEntry index pindex).1 = (blockIndexEntry index other).1) : pindex = other :=
  blockHash_inj shape known known' (blockIndexKey_inj same)

theorem mem_writeBatchSync (shape : WellFormed index) (ordered : Ordered db)
    (entries : ∀ entry ∈ db, ∃ pindex < index.length, blockIndexEntry index pindex = entry)
    (inside : ∀ pindex ∈ vBlocks, pindex < index.length) :
    Ordered (writeBatchSync index vBlocks db) ∧ ∀ entry, entry ∈ writeBatchSync index vBlocks db ↔
      entry ∈ db ∨ ∃ pindex ∈ vBlocks, blockIndexEntry index pindex = entry := by
  induction vBlocks generalizing db with
  | nil => exact ⟨ordered, fun entry => ⟨.inl, fun either => either.resolve_right fun ⟨_, nothing, _⟩ => not_mem_nil nothing⟩⟩
  | cons first rest ih =>
    have known := inside first mem_cons_self
    have written (entry : List UInt8 × CDiskBlockIndex) :
        entry ∈ put (blockIndexEntry index first).1 (blockIndexEntry index first).2 db ↔ entry = blockIndexEntry index first ∨ entry ∈ db := by
      rw [mem_put_iff ordered]
      constructor
      · exact Or.imp_right And.left
      · rintro (same | old)
        · exact .inl same
        · by_cases same : entry.1 = (blockIndexEntry index first).1
          · obtain ⟨place, known', isEntry⟩ := entries entry old
            rw [← isEntry] at same
            rw [blockIndexEntry_inj shape known' known same] at isEntry
            exact .inl isEntry.symm
          · exact .inr ⟨old, same⟩
    obtain ⟨ordered', members⟩ := ih (put_ordered ordered) (fun entry member => by
      rcases (written entry).mp member with rfl | old
      · exact ⟨first, known, rfl⟩
      · exact entries entry old) (forall_mem_cons.mp inside).2
    refine ⟨ordered', fun entry => ?_⟩
    change entry ∈ writeBatchSync index rest _ ↔ _
    rw [members, written, exists_mem_cons_iff, eq_comm]
    tauto

theorem Stored.flush (shape : WellFormed index) (stored : Stored index dirty db) : Stored index [] (writeBatchSync index dirty db) := by
  obtain ⟨ordered, members⟩ := mem_writeBatchSync shape stored.ordered stored.entries stored.inside
  have all (place : Nat) (known : place < index.length) : blockIndexEntry index place ∈ writeBatchSync index dirty db := by
    rw [members]
    by_cases isDirty : place ∈ dirty
    · exact .inr ⟨place, isDirty, rfl⟩
    · exact .inl (stored.clean place known isDirty)
  refine ⟨ordered, ?_, fun place known _ => all place known, ?_, nofun⟩
  · intro entry member
    rcases (members entry).mp member with old | ⟨place, isDirty, same⟩
    · exact stored.entries entry old
    · exact ⟨place, stored.inside place isDirty, same⟩
  · intro place known _ above up
    exact all above (shape.closed place above known up)

theorem Stored.grow (shape : WellFormed index) (stored : Stored index dirty db) (shape' : WellFormed index') (grows : Grows index index')
    {added : List Nat} (new : ∀ place < index'.length, place < index.length ∨ place ∈ added) (known : ∀ place ∈ added, place < index'.length) :
    Stored index' (added ++ dirty) db := by
  have entry {place : Nat} (old : place < index.length) := grows.entry shape old
  refine ⟨stored.ordered, ?_, ?_, ?_, ?_⟩
  · intro entry' member
    obtain ⟨place, old, same⟩ := stored.entries entry' member
    exact ⟨place, grows.lt old, (entry old).trans same⟩
  · intro place inside isClean
    rw [mem_append, not_or] at isClean
    have old := (new place inside).resolve_right isClean.1
    rw [entry old]
    exact stored.clean place old isClean.2
  · intro place inside member above up
    obtain ⟨place', old, same⟩ := stored.entries _ member
    rw [← entry old] at same
    have equal := blockIndexEntry_inj shape' (grows.lt old) inside (congrArg Prod.fst same)
    rw [← equal, (grows.same old).2.1] at up
    rw [← equal, entry old] at member
    rw [entry (shape.closed place' above old up)]
    exact stored.closed place' old member above up
  · intro place member
    rcases mem_append.mp member with isNew | isOld
    · exact known place isNew
    · exact grows.lt (stored.inside place isOld)

end Disk

def Points (index : Index) (hash : Uint256) : Option Nat → Prop
  | none => hash = 0
  | some place => hash ≠ 0 ∧ place < index.length ∧ blockHash index place = hash

def Loaded (index : Index) (diskindex : CDiskBlockIndex) : Prop :=
  ∃ (pindex : Nat) (pprev : Option Nat), index[pindex]? = some (CBlockIndex.mk diskindex.hash pprev none diskindex.nHeight) ∧
    Points index diskindex.hashPrev pprev

/-- The loop of `LoadBlockIndexGuts` after some of the entries. -/
structure Loading (db : BlockIndexDB) (read : List (List UInt8 × CDiskBlockIndex)) (index : Index) : Prop where
  hashes : (index.map (·.hash)).Nodup
  known : ∀ block ∈ index, block.pskip = none ∧ ∃ entry ∈ db, entry.2.hash = block.hash
  loaded : ∀ entry ∈ read, Loaded index entry.2
  nonzero : ∀ entry ∈ read, entry.2.hash ≠ 0

section Load

variable {index index' : Index} {dirty : List Nat} {db : BlockIndexDB} {read : List (List UInt8 × CDiskBlockIndex)} {hash : Uint256}

theorem find_some {place : Nat} (found : find index hash = some place) : place < index.length ∧ blockHash index place = hash := by
  rw [find, findIdx?_eq_some_iff_getElem] at found
  obtain ⟨inside, same, -⟩ := found
  refine ⟨inside, ?_⟩
  rw [blockHash_eq (getElem?_eq_getElem inside)]
  exact eq_of_beq same

theorem place_unique (hashes : (index.map (·.hash)).Nodup) {first second : Nat} (inside : first < index.length) (inside' : second < index.length)
    (same : blockHash index first = blockHash index second) : first = second := by
  obtain ⟨block, here⟩ := exists_of_lt inside
  obtain ⟨block', here'⟩ := exists_of_lt inside'
  rw [blockHash_eq here, blockHash_eq here'] at same
  apply (getElem?_inj (by rw [length_map]; exact inside) hashes).mp
  rw [getElem?_map, getElem?_map, here, here', map_some, map_some, same]

theorem Points.mono {pointer : Option Nat} (points : Points index hash pointer)
    (keeps : ∀ place < index.length, place < index'.length ∧ blockHash index' place = blockHash index place) : Points index' hash pointer := by
  cases pointer with
  | none => exact points
  | some place =>
    obtain ⟨nonzero, inside, same⟩ := points
    exact ⟨nonzero, (keeps place inside).1, (keeps place inside).2.trans same⟩

/-- What `InsertBlockIndex` makes of the blocks that are there. -/
structure Inserted (index : Index) (hash : Uint256) (index' : Index) (pointer : Option Nat) : Prop where
  grows : Grows index index'
  hashes : (index'.map (·.hash)).Nodup
  blocks : ∀ block ∈ index', block ∈ index ∨ block = ⟨hash, none, none, 0⟩ ∧ hash ≠ 0
  points : Points index' hash pointer

theorem insertBlockIndex_eq (hashes : (index.map (·.hash)).Nodup) (hash : Uint256) :
    ∃ index' pointer, insertBlockIndex index hash = (index', pointer) ∧ Inserted index hash index' pointer := by
  rw [insertBlockIndex]
  split_ifs with zero
  · exact ⟨index, none, rfl, Grows.refl _, hashes, fun _ member => .inl member, zero⟩
  · cases found : find index hash with
    | some place => exact ⟨index, some place, rfl, Grows.refl _, hashes, fun _ member => .inl member, zero, find_some found⟩
    | none =>
      let block : CBlockIndex := ⟨hash, none, none, 0⟩
      have here : (index ++ [block])[index.length]? = some block := getElem?_concat_length
      refine ⟨index ++ [block], some index.length, rfl, grows_append index _, ?_, ?_, zero, lt_of_here here, blockHash_eq here⟩
      · rw [map_append, nodup_append]
        refine ⟨hashes, nodup_singleton _, fun other old new isNew same => find_none found ?_⟩
        rw [map_singleton, mem_singleton] at isNew
        have isHash : other = hash := same.trans isNew
        rw [← isHash]
        exact old
      · intro other member
        rcases mem_append.mp member with old | new
        · exact .inl old
        · exact .inr ⟨mem_singleton.mp new, zero⟩

theorem blockHash_set {place : Nat} {block block' : CBlockIndex} (here : index[place]? = some block) (same : block'.hash = block.hash)
    (other : Nat) : blockHash (index.set place block') other = blockHash index other := by
  rw [blockHash, blockHash, getElem?_set]
  split_ifs with equal inside
  · rw [← equal, here, map_some, map_some, same]
  · rw [equal] at inside
    rw [getElem?_eq_none (not_lt.mp inside)]
  · rfl

theorem Loading.step (loading : Loading db read index) {entry : List UInt8 × CDiskBlockIndex} (member : entry ∈ db)
    (parent : entry.2.hashPrev ≠ 0 → ∃ above ∈ db, above.2.hash = entry.2.hashPrev)
    (unique : ∀ other ∈ read, other.2.hash = entry.2.hash → other = entry) :
    entry.2.hash = 0 ∧ insertDiskIndex index entry.2 = .error .badPointer ∨
      ∃ index', insertDiskIndex index entry.2 = .ok index' ∧ Loading db (read ++ [entry]) index' := by
  obtain ⟨first, pindexNew, inserted, grows, hashes, blocks, points⟩ := insertBlockIndex_eq loading.hashes entry.2.hash
  obtain ⟨middle, pprev, inserted', grows', hashes', blocks', points'⟩ := insertBlockIndex_eq hashes entry.2.hashPrev
  rw [insertDiskIndex, inserted]
  dsimp only
  rw [inserted']
  dsimp only
  cases pindexNew with
  | none => exact .inl ⟨points, rfl⟩
  | some place =>
    obtain ⟨nonzero, inside, same⟩ := points
    have inside' := grows'.lt inside
    obtain ⟨block, here⟩ := exists_of_lt inside'
    have isHash : block.hash = entry.2.hash := by
      rw [← blockHash_eq here, (grows'.same inside).1, same]
    have known (other : CBlockIndex) (isHere : other ∈ middle) : other.pskip = none ∧ ∃ entry ∈ db, entry.2.hash = other.hash := by
      rcases blocks' other isHere with old | ⟨rfl, isParent⟩
      · rcases blocks other old with old | ⟨rfl, -⟩
        · exact loading.known other old
        · exact ⟨rfl, entry, member, rfl⟩
      · exact ⟨rfl, parent isParent⟩
    let block' : CBlockIndex := { block with pprev, nHeight := entry.2.nHeight }
    have keeps (other : Nat) (isInside : other < middle.length) :
        other < (middle.set place block').length ∧ blockHash (middle.set place block') other = blockHash middle other :=
      ⟨by rw [length_set]; exact isInside, @blockHash_set middle place block block' here rfl other⟩
    have isLast : Loaded (middle.set place block') entry.2 := by
      refine ⟨place, pprev, ?_, points'.mono keeps⟩
      rw [getElem?_set_self inside', ← isHash, ← (known block (mem_of_getElem? here)).1]
    dsimp only
    rw [deref_eq here]
    refine .inr ⟨middle.set place block', rfl, ?_, ?_, ?_, ?_⟩
    · have unchanged : (middle.set place block').map (·.hash) = middle.map (·.hash) := by
        rw [map_set]
        apply ext_getElem?
        intro other
        rw [getElem?_set]
        split_ifs with equal isInside
        · rw [← equal, getElem?_map, here]
          rfl
        · rw [equal] at isInside
          rw [getElem?_eq_none (not_lt.mp isInside)]
        · rfl
      rw [unchanged]
      exact hashes'
    · intro other isHere
      rcases mem_or_eq_of_mem_set isHere with old | rfl
      · exact known other old
      · exact known block (mem_of_getElem? here)
    · intro other isRead
      rcases mem_append.mp isRead with old | new
      · obtain ⟨place', parent', there, points''⟩ := loading.loaded other old
        obtain ⟨pskip, there'⟩ := grows.trans grows' place' _ there
        have isNone := (known _ (mem_of_getElem? there')).1
        dsimp only at isNone
        rw [isNone] at there'
        by_cases equal : place = place'
        · rw [← equal, here, some.injEq] at there'
          rw [there'] at isHash
          rw [unique other old isHash]
          exact isLast
        · refine ⟨place', parent', ?_, ?_⟩
          · rw [getElem?_set_ne equal]
            exact there'
          · apply points''.mono
            intro above isAbove
            have isInside := (grows.trans grows').lt isAbove
            exact ⟨(keeps above isInside).1, (keeps above isInside).2.trans ((grows.trans grows').same isAbove).1⟩
      · rw [mem_singleton.mp new]
        exact isLast
    · intro other isRead
      rcases mem_append.mp isRead with old | new
      · exact loading.nonzero other old
      · rw [mem_singleton.mp new]
        exact nonzero

theorem Stored.parent (shape : WellFormed index) (stored : Stored index dirty db) {entry : List UInt8 × CDiskBlockIndex} (member : entry ∈ db) :
    entry.2.hashPrev = 0 ∧ entry.2.nHeight = 0 ∨
      ∃ above ∈ db, above.2.hash = entry.2.hashPrev ∧ entry.2.nHeight = above.2.nHeight + 1 := by
  obtain ⟨place, inside, rfl⟩ := stored.entries entry member
  obtain ⟨block, here⟩ := exists_of_lt inside
  cases up : pprev index place with
  | none =>
    left
    constructor
    · change ((pprev index place).map (blockHash index)).getD 0 = 0
      rw [up]
      rfl
    · change nHeight index place = 0
      rw [nHeight_eq here]
      exact shape.root place block here ((pprev_eq here).symm.trans up)
  | some above =>
    right
    refine ⟨_, stored.closed place inside member above up, ?_, ?_⟩
    · change blockHash index above = ((pprev index place).map (blockHash index)).getD 0
      rw [up]
      rfl
    · obtain ⟨prev, there, one⟩ := shape.child place block above here ((pprev_eq here).symm.trans up)
      change nHeight index place = nHeight index above + 1
      rw [nHeight_eq here, nHeight_eq there, one]

theorem Stored.unique (stored : Stored index dirty db) {entry other : List UInt8 × CDiskBlockIndex} (member : entry ∈ db)
    (member' : other ∈ db) (same : other.2.hash = entry.2.hash) : other = entry := by
  obtain ⟨place, inside, rfl⟩ := stored.entries entry member
  obtain ⟨place', inside', rfl⟩ := stored.entries other member'
  exact entry_of_key stored.ordered member' member (congrArg blockIndexKey same)

theorem loadBlockIndexGuts_eq (shape : WellFormed index) (stored : Stored index dirty db) :
    (∃ entry ∈ db, entry.2.hash = 0) ∧ loadBlockIndexGuts db = .error .badPointer ∨
      ∃ loaded, loadBlockIndexGuts db = .ok loaded ∧ Loading db db loaded := by
  have main (read todo : List (List UInt8 × CDiskBlockIndex)) (before : Index) (whole : db = read ++ todo) (loading : Loading db read before) :
      (∃ entry ∈ db, entry.2.hash = 0) ∧ todo.foldlM (fun index entry => insertDiskIndex index entry.2) before = .error .badPointer ∨
        ∃ loaded, todo.foldlM (fun index entry => insertDiskIndex index entry.2) before = .ok loaded ∧ Loading db db loaded := by
    induction todo generalizing read before with
    | nil =>
      rw [append_nil] at whole
      rw [← whole] at loading
      exact .inr ⟨before, rfl, loading⟩
    | cons entry rest ih =>
      have member : entry ∈ db := by
        rw [whole]
        exact mem_append_right _ mem_cons_self
      have parent (isParent : entry.2.hashPrev ≠ 0) : ∃ above ∈ db, above.2.hash = entry.2.hashPrev := by
        rcases stored.parent shape member with ⟨zero, -⟩ | ⟨above, isAbove, same, -⟩
        · exact absurd zero isParent
        · exact ⟨above, isAbove, same⟩
      have unique (other : List UInt8 × CDiskBlockIndex) (isRead : other ∈ read) (same : other.2.hash = entry.2.hash) : other = entry := by
        apply stored.unique member _ same
        rw [whole]
        exact mem_append_left _ isRead
      rw [foldlM_cons]
      rcases loading.step member parent unique with ⟨zero, stops⟩ | ⟨next, turn, loading'⟩
      · rw [stops]
        exact .inl ⟨⟨entry, member, zero⟩, rfl⟩
      · rw [turn]
        exact ih (read ++ [entry]) next (by rw [whole, append_assoc]; rfl) loading'
  exact main [] db [] rfl ⟨nodup_nil, nofun, nofun,
    nofun⟩

theorem Loading.tree {old : Index} (shape : WellFormed old) (stored : Stored old dirty db) (loading : Loading db db index) :
    WellFormed index ∧ (∀ entry ∈ db, ∃ place < index.length, blockIndexEntry index place = entry) ∧
      ∀ place < index.length, blockIndexEntry index place ∈ db := by
  have entryOf {place : Nat} {block : CBlockIndex} (here : index[place]? = some block) :
      ∃ entry ∈ db, block.hash = entry.2.hash ∧ block.nHeight = entry.2.nHeight ∧ Points index entry.2.hashPrev block.pprev := by
    obtain ⟨-, entry, member, same⟩ := loading.known block (mem_of_getElem? here)
    obtain ⟨place', parent, there, points⟩ := loading.loaded entry member
    have equal := place_unique loading.hashes (lt_of_here here) (lt_of_here there)
      (by rw [blockHash_eq here, blockHash_eq there, same])
    rw [equal, there, some.injEq] at here
    rw [← here]
    exact ⟨entry, member, rfl, rfl, points⟩
  have isEntry {place : Nat} {block : CBlockIndex} {entry : List UInt8 × CDiskBlockIndex} (here : index[place]? = some block)
      (member : entry ∈ db) (hash : block.hash = entry.2.hash) (height : block.nHeight = entry.2.nHeight)
      (points : Points index entry.2.hashPrev block.pprev) : blockIndexEntry index place = entry := by
    have above : ((pprev index place).map (blockHash index)).getD 0 = entry.2.hashPrev := by
      rw [pprev_eq here]
      cases parent : block.pprev with
      | none =>
        rw [parent] at points
        exact points.symm
      | some prev =>
        rw [parent] at points
        exact points.2.2
    have key : entry.1 = blockIndexKey entry.2.hash := by
      obtain ⟨place', -, rfl⟩ := stored.entries entry member
      rfl
    rw [blockIndexEntry, diskBlockIndex, above, blockHash_eq here, nHeight_eq here, hash, height, ← key]
  refine ⟨⟨?_, ?_, ?_, loading.hashes⟩, ?_, ?_⟩
  · intro place block here bottom
    obtain ⟨entry, member, -, height, points⟩ := entryOf here
    rw [bottom] at points
    rcases stored.parent shape member with ⟨-, zero⟩ | ⟨above, isAbove, same, -⟩
    · rw [height, zero]
    · exact absurd (same.trans points) (loading.nonzero above isAbove)
  · intro place block prev here up
    obtain ⟨entry, member, -, height, points⟩ := entryOf here
    rw [up] at points
    obtain ⟨nonzero, inside, hash⟩ := points
    obtain ⟨block', there⟩ := exists_of_lt inside
    refine ⟨block', there, ?_⟩
    obtain ⟨entry', member', hash', height', -⟩ := entryOf there
    rcases stored.parent shape member with ⟨zero, -⟩ | ⟨above, isAbove, same, one⟩
    · exact absurd zero nonzero
    · have equal : above = entry' := by
        apply stored.unique member' isAbove
        rw [same, ← hash, blockHash_eq there, hash']
      rw [height, one, equal, height']
  · intro place block here target pskip
    rw [(loading.known block (mem_of_getElem? here)).1] at pskip
    cases pskip
  · intro entry member
    obtain ⟨place, parent, here, points⟩ := loading.loaded entry member
    exact ⟨place, lt_of_here here, isEntry here member rfl rfl points⟩
  · intro place inside
    obtain ⟨block, here⟩ := exists_of_lt inside
    obtain ⟨entry, member, hash, height, points⟩ := entryOf here
    rw [isEntry here member hash height points]
    exact member

theorem buildSkips_eq (shape : WellFormed index) {places : List Nat} (inside : ∀ place ∈ places, place < index.length) :
    ∃ index', places.foldlM buildSkip index = .ok index' ∧ WellFormed index' ∧ Grows index index' ∧ index'.length = index.length := by
  induction places generalizing index with
  | nil => exact ⟨index, rfl, shape, Grows.refl _, rfl⟩
  | cons place places ih =>
    obtain ⟨middle, built, shape', length, -⟩ := shape.buildSkip_eq (inside place mem_cons_self)
    obtain ⟨index', rest, shape'', grows, length'⟩ := ih shape' fun other member => by
      rw [length]
      exact inside other (mem_cons_of_mem _ member)
    refine ⟨index', ?_, shape'', (buildSkip_grows built).1.trans grows, length'.trans length⟩
    rw [foldlM_cons, built]
    exact rest

theorem loadTree_eq (shape : WellFormed index) (stored : Stored index dirty db) :
    (∃ entry ∈ db, entry.2.hash = 0) ∧ loadTree db = .error .badPointer ∨
      ∃ loaded, loadTree db = .ok loaded ∧ WellFormed loaded ∧ Stored loaded [] db := by
  rcases loadBlockIndexGuts_eq shape stored with ⟨zero, stops⟩ | ⟨read, done, loading⟩
  · left
    rw [loadTree, stops]
    exact ⟨zero, rfl⟩
  · right
    obtain ⟨shape', entries, all⟩ := loading.tree shape stored
    have inside (place : Nat) (member : place ∈ sortedByHeight read) : place < read.length := by
      rw [sortedByHeight, mem_insertionSort] at member
      exact mem_range.mp member
    obtain ⟨loaded, built, shape'', grows, length⟩ := buildSkips_eq shape' inside
    have entry {place : Nat} (known : place < read.length) := grows.entry shape' known
    have all' (place : Nat) (known : place < loaded.length) : blockIndexEntry loaded place ∈ db := by
      rw [length] at known
      rw [entry known]
      exact all place known
    refine ⟨loaded, ?_, shape'', stored.ordered, ?_, fun place known _ => all' place known, ?_, nofun⟩
    · rw [loadTree, done]
      exact built
    · intro entry' member
      obtain ⟨place, known, same⟩ := entries entry' member
      exact ⟨place, grows.lt known, (entry known).trans same⟩
    · intro place known _ above up
      exact all' above (shape''.closed place above known up)

theorem Stored.hashes_eq (stored : Stored index [] db) (hash : Uint256) :
    hash ∈ index.map (·.hash) ↔ hash ∈ db.map fun entry => entry.2.hash := by
  rw [List.mem_map, List.mem_map]
  constructor
  · rintro ⟨block, member, rfl⟩
    obtain ⟨place, here⟩ := List.mem_iff_getElem?.mp member
    exact ⟨_, stored.clean place (lt_of_here here) List.not_mem_nil, blockHash_eq here⟩
  · rintro ⟨entry, member, rfl⟩
    obtain ⟨place, inside, rfl⟩ := stored.entries entry member
    obtain ⟨block, here⟩ := exists_of_lt inside
    exact ⟨block, List.mem_of_getElem? here, (blockHash_eq here).symm⟩

end Load

end Longcoin.DiskIndex

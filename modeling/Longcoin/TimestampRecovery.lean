import Longcoin.TimestampScan
import Longcoin.DiskIndex

/-! The timestamp index over crashes (`main.cpp`, `txdb.cpp`): its entries are durable when `ConnectBlock` writes them, those of
the block index when `FlushStateToDisk` does. -/

namespace Longcoin.TimestampRecovery
open Primitives Library Bytes ByteStore Chain AddressScan TimestampIndex DiskIndex Outcome WellFormed List Option Except

/-- Memory, and what is durable: `pblocktree` with the timestamp index, the block index, and the best block of the coins database. -/
structure Node where
  mapBlockIndex : Index
  setDirtyBlockIndex : List Nat
  chainActive : VChain
  pblocktree : TimestampIndex.LevelDB
  diskIndex : BlockIndexDB
  hashBestBlock : Uint256

inductive NodeOp where
  | addToBlockIndex (hash hashPrevBlock : Uint256)
  | chain (c : { c : Call // c.Allowed })
  /-- `FlushStateToDisk` that writes no coins. -/
  | flushBlockIndex
  | flushStateToDisk
  /-- A crash, and `LoadBlockIndexDB` at the next start. -/
  | crash

namespace Node

def started : Node := ⟨[], [], [], [], [], 0⟩

/-- `AddToBlockIndex`. -/
def addToBlockIndex (node : Node) (hash hashPrevBlock : Uint256) : Except Fault Node :=
  match find node.mapBlockIndex hash with
  | some _ => .ok node
  | none => do
      let pindexNew := node.mapBlockIndex.length
      let mapBlockIndex ← addBlock node.mapBlockIndex hash (find node.mapBlockIndex hashPrevBlock)
      let mapBlockIndex ← buildSkip mapBlockIndex pindexNew
      return { node with mapBlockIndex, setDirtyBlockIndex := pindexNew :: node.setDirtyBlockIndex }

def chainCall (hashGenesisBlock : Uint256) (nTime : Uint256 → UInt32) (node : Node) (c : Call) : Except Fault Node := do
  let s ← call hashGenesisBlock node.mapBlockIndex (fun pindex => (nTime (blockHash node.mapBlockIndex pindex)).toNat)
    ⟨node.chainActive, node.pblocktree⟩ c
  return { node with chainActive := s.chainActive, pblocktree := s.pblocktree }

def flushBlockIndex (node : Node) : Node :=
  { node with
    diskIndex := writeBatchSync node.mapBlockIndex node.setDirtyBlockIndex node.diskIndex
    setDirtyBlockIndex := [] }

def flushStateToDisk (node : Node) : Node :=
  { node.flushBlockIndex with hashBestBlock := (node.chainActive.tip.map (blockHash node.mapBlockIndex)).getD 0 }

def crash (node : Node) : Except Fault Node := do
  let (mapBlockIndex, chainActive) ← loadBlockIndexDB node.diskIndex node.hashBestBlock
  return { node with mapBlockIndex, setDirtyBlockIndex := [], chainActive }

def step (hashGenesisBlock : Uint256) (nTime : Uint256 → UInt32) (node : Node) : NodeOp → Except Fault Node
  | .addToBlockIndex hash hashPrevBlock => node.addToBlockIndex hash hashPrevBlock
  | .chain c => node.chainCall hashGenesisBlock nTime c.1
  | .flushBlockIndex => .ok node.flushBlockIndex
  | .flushStateToDisk => .ok node.flushStateToDisk
  | .crash => node.crash

/-- `ReadTimestampIndex` with `fActiveOnly` comes to its end, whatever the range. -/
def QueriesKnown (node : Node) : Prop := ∀ high low : UInt32, ∃ hashes,
  readTimestampIndex node.mapBlockIndex ⟨node.chainActive, node.pblocktree⟩ high.toNat low.toNat true = .ok hashes

end Node

/-- The blocks of the timestamp index have these hashes; an entry of the last time is below no `high`. -/
def Covers (hashes : List Uint256) (db : TimestampIndex.LevelDB) : Prop :=
  ∀ key : CTimestampIndexKey, record key ∈ db → key.timestamp < 2 ^ 32 - 1 → key.blockHash ∈ hashes

/-- Every block that has an entry in the timestamp index has been written to the block index. -/
def Node.Flushed (node : Node) : Prop := Covers (node.diskIndex.map fun entry => entry.2.hash) node.pblocktree

/-- The entries of the timestamp index in the database are the records of keys. -/
structure Timestamps (db : TimestampIndex.LevelDB) : Prop where
  ordered : Ordered db
  records : ∀ entry ∈ db, entry.1.head? = some DB_TIMESTAMPINDEX → ∃ key : CTimestampIndexKey, key.timestamp < 2 ^ 32 ∧ record key = entry

section Queries

variable {index : Index} {vChain : VChain} {tip : Option Nat} {db : TimestampIndex.LevelDB} {high : Nat}

def goesOn (high : Nat) (entry : List UInt8 × List UInt8) : Bool := (entryOf entry).any fun key => decide (key.timestamp < high)

theorem readEntries_ok {entries : TimestampIndex.LevelDB} :
    (∃ hashes, readEntries index vChain high true entries = .ok hashes) ↔ ∀ entry ∈ entries.takeWhile (goesOn high),
      ∀ key, entryOf entry = some key → ∃ answer, blockOnchainActive index vChain key.blockHash = .ok answer := by
  induction entries with
  | nil => exact ⟨nofun, fun _ => ⟨[], rfl⟩⟩
  | cons entry rest ih =>
    have stops (stays : goesOn high entry = false) (done : readEntries index vChain high true (entry :: rest) = .ok []) :
        (∃ hashes, readEntries index vChain high true (entry :: rest) = .ok hashes) ↔ ∀ other ∈ (entry :: rest).takeWhile (goesOn high),
          ∀ key, entryOf other = some key → ∃ answer, blockOnchainActive index vChain key.blockHash = .ok answer := by
      rw [takeWhile_cons, stays]
      exact ⟨nofun, fun _ => ⟨[], done⟩⟩
    cases read : getKey unserializeTimestampIndexKey entry.1 with
    | none =>
      apply stops
      · rw [goesOn, entryOf, read]
        rfl
      · rw [readEntries, read]
    | some key =>
      by_cases goes : key.1 = DB_TIMESTAMPINDEX ∧ key.2.timestamp < high
      · have isEntry : entryOf entry = some key.2 := by
          rw [entryOf, read, bind_some, if_pos goes.1]
        have isGoing : goesOn high entry = true := by
          rw [goesOn, isEntry, any_some]
          exact decide_eq_true goes.2
        rw [takeWhile_cons, isGoing, if_pos rfl, forall_mem_cons, ← ih, readEntries, read]
        dsimp only
        rw [if_pos goes, listed, if_pos rfl]
        constructor
        · intro done
          obtain ⟨hashes, whole⟩ := done
          obtain ⟨answer, known, whole⟩ := bind_ok.mp whole
          obtain ⟨later, finished, -⟩ := bind_ok.mp whole
          refine ⟨fun other same => ⟨answer, ?_⟩, later, finished⟩
          rw [isEntry, some.injEq] at same
          rw [← same]
          exact known
        · intro both
          obtain ⟨known, later, finished⟩ := both
          obtain ⟨answer, isKnown⟩ := known key.2 isEntry
          rw [isKnown, finished]
          exact ⟨_, rfl⟩
      · apply stops
        · rw [goesOn, entryOf, read, bind_some]
          split_ifs with tag
          · rw [any_some]
            exact decide_eq_false fun below => goes ⟨tag, below⟩
          · rfl
        · rw [readEntries, read]
          exact if_neg goes

theorem blockOnchainActive_ok (shape : WellFormed index) (path : Path index tip vChain) (hash : Uint256) :
    (∃ answer, blockOnchainActive index vChain hash = .ok answer) ↔ hash ∈ index.map (·.hash) := by
  constructor
  · intro known
    obtain ⟨answer, checked⟩ := known
    rw [blockOnchainActive] at checked
    cases found : find index hash with
    | none =>
      rw [found] at checked
      cases checked
    | some place =>
      obtain ⟨inside, same⟩ := find_some found
      obtain ⟨block, here⟩ := exists_of_lt inside
      rw [← same, blockHash_eq here]
      exact mem_map_of_mem (mem_of_getElem? here)
  · intro member
    obtain ⟨block, inside, same⟩ := mem_map.mp member
    obtain ⟨place, here⟩ := mem_iff_getElem?.mp inside
    obtain ⟨answer, checked, -⟩ := blockOnchainActive_eq shape path (lt_of_here here)
    rw [blockHash_eq here, same] at checked
    exact ⟨answer, checked⟩

theorem Timestamps.reached (stamps : Timestamps db) {key : CTimestampIndexKey} (member : record key ∈ db) (below : key.timestamp < high)
    (small : high < 2 ^ 32) : record key ∈ (seek (DB_TIMESTAMPINDEX :: bigBytes 4 0) db).takeWhile (goesOn high) := by
  have fits : key.timestamp < 2 ^ 32 := below.trans small
  have after : before (record key).1 (DB_TIMESTAMPINDEX :: bigBytes 4 0) = false := by
    rw [Bool.eq_false_iff]
    intro less
    have order := (@before_timestampKey key 0 fits (by omega) []).mp ((append_nil (bigBytes 4 0)).symm ▸ less)
    rcases order with less' | ⟨-, never⟩
    · cases less'
    · cases bytes : littleBytes 32 key.blockHash.toNat with
      | nil =>
        rw [bytes] at never
        cases never
      | cons first rest =>
        rw [bytes] at never
        cases never
  have ordered : Ordered (seek (DB_TIMESTAMPINDEX :: bigBytes 4 0) db) := stamps.ordered.sublist (dropWhile_sublist _)
  rw [mem_takeWhile ordered, mem_seek stamps.ordered]
  refine ⟨⟨member, after⟩, fun other isThere notAfter => ?_⟩
  obtain ⟨isMember, above⟩ := (mem_seek stamps.ordered).mp isThere
  obtain ⟨rest, shape⟩ := front_of_between [DB_TIMESTAMPINDEX] above notAfter
  obtain ⟨key', fits', rfl⟩ := stamps.records other isMember (by rw [shape]; rfl)
  rw [goesOn, entryOf_record fits', any_some, decide_eq_true_eq]
  apply lt_of_le_of_lt _ below
  by_contra later
  have order := (before_timestampKey fits fits' (littleBytes 32 key'.blockHash.toNat)).mpr (.inl (not_le.mp later))
  exact Bool.false_ne_true (notAfter.symm.trans order)

theorem queries_iff (shape : WellFormed index) (path : Path index tip vChain) (stamps : Timestamps db) :
    (∀ high low : UInt32, ∃ hashes, readTimestampIndex index ⟨vChain, db⟩ high.toNat low.toNat true = .ok hashes) ↔
      Covers (index.map (·.hash)) db := by
  constructor
  · intro queries key member below
    have whole := readEntries_ok.mp (queries (UInt32.ofNat (2 ^ 32 - 1)) 0) _ (stamps.reached member (below.trans_eq rfl) (by decide)) key
      (entryOf_record (by omega))
    exact (blockOnchainActive_ok shape path key.blockHash).mp whole
  · intro covers high low
    rw [readTimestampIndex, readEntries_ok]
    intro entry member key isKey
    have goes : goesOn high.toNat entry = true := mem_takeWhile_imp member
    have isMember := (dropWhile_sublist _).subset ((takeWhile_sublist _).subset member)
    obtain ⟨key', fits, rfl⟩ := stamps.records entry isMember (head_of_entryOf isKey)
    rw [entryOf_record fits, some.injEq] at isKey
    rw [goesOn, entryOf_record fits, any_some, decide_eq_true_eq] at goes
    have limit := high.toNat_lt
    rw [blockOnchainActive_ok shape path, ← isKey]
    exact covers key' isMember (by omega)

end Queries

structure Sound (node : Node) : Prop where
  shape : WellFormed node.mapBlockIndex
  path : ∃ tip, Path node.mapBlockIndex tip node.chainActive
  stamps : Timestamps node.pblocktree
  stored : Stored node.mapBlockIndex node.setDirtyBlockIndex node.diskIndex

section Chain

variable {hashGenesisBlock : Uint256} {index : Index} {nTime : Nat → Nat} {db db' : TimestampIndex.LevelDB} {s s' : ChainState} {tip : Option Nat}

theorem deref_ok {place : Nat} {block : CBlockIndex} (done : deref index (some place) = .ok block) : index[place]? = some block := by
  rw [deref, bind_some] at done
  cases found : index[place]? with
  | none =>
    rw [found] at done
    cases done
  | some block' =>
    rw [found] at done
    exact congrArg some (ok.inj done)

/-- What a call adds to the timestamp index are records of blocks in memory. -/
structure Adds (index : Index) (db db' : TimestampIndex.LevelDB) : Prop where
  stamps : Timestamps db'
  records : ∀ key : CTimestampIndexKey, record key ∈ db' → record key ∈ db ∨ key.blockHash ∈ index.map (·.hash)

theorem Timestamps.adds (stamps : Timestamps db) : Adds index db db := ⟨stamps, fun _ => .inl⟩

theorem Timestamps.put_other (stamps : Timestamps db) {key value : List UInt8} (other : key.head? ≠ some DB_TIMESTAMPINDEX) :
    Adds index db (put key value db) := by
  refine ⟨⟨put_ordered stamps.ordered, ?_⟩, ?_⟩
  · intro entry member head
    rcases mem_put member with rfl | old
    · exact absurd head other
    · exact stamps.records entry old head
  · intro key' member
    rcases mem_put member with same | old
    · have head := congrArg (fun entry : List UInt8 × List UInt8 => entry.1.head?) same
      exact absurd head.symm other
    · exact .inl old

theorem timestampKey_hash {key key' : CTimestampIndexKey} (same : timestampKey key = timestampKey key') : key.blockHash = key'.blockHash := by
  have hashes := (append_inj (cons.inj same).2 (by rw [length_bigBytes, length_bigBytes])).2
  exact BitVec.eq_of_toNat_eq (littleBytes_inj (hash_fits _ (by rfl)) (hash_fits _ (by rfl)) hashes)

theorem Timestamps.put_record (stamps : Timestamps db) {key : CTimestampIndexKey} (fits : key.timestamp < 2 ^ 32)
    (known : key.blockHash ∈ index.map (·.hash)) : Adds index db (writeTimestampIndex key db) := by
  refine ⟨⟨put_ordered stamps.ordered, ?_⟩, ?_⟩
  · intro entry member head
    rcases mem_put member with rfl | old
    · exact ⟨key, fits, rfl⟩
    · exact stamps.records entry old head
  · intro key' member
    rcases mem_put member with same | old
    · right
      rw [timestampKey_hash (congrArg Prod.fst same)]
      exact known
    · exact .inl old

theorem Adds.trans {middle : TimestampIndex.LevelDB} (first : Adds index db middle) (second : Adds index middle db') : Adds index db db' where
  stamps := second.stamps
  records := fun key member => (second.records key member).elim (first.records key) .inr

theorem connectBlock_adds (small : ∀ pindex, nTime pindex < 2 ^ 32) (stamps : Timestamps db) {pindex : Nat}
    (done : connectBlock hashGenesisBlock index nTime pindex db = .ok db') : Adds index db db' := by
  rw [connectBlock] at done
  obtain ⟨block, found, done⟩ := bind_ok.mp done
  split_ifs at done with genesis
  · obtain rfl := pure_ok.mp done
    exact stamps.adds
  · obtain ⟨prevLogicalTS, -, done⟩ := bind_ok.mp done
    obtain rfl := pure_ok.mp done
    have fits : (if nTime pindex ≤ prevLogicalTS then (prevLogicalTS + 1) % 2 ^ 32 else nTime pindex) < 2 ^ 32 := by
      split_ifs
      · exact Nat.mod_lt _ (by decide)
      · exact small pindex
    have wrote := @Timestamps.put_record index db stamps ⟨_, block.hash⟩ fits (mem_map_of_mem (mem_of_getElem? (deref_ok found)))
    exact wrote.trans (wrote.stamps.put_other fun tag => absurd (some.inj tag) (by decide))

structure Called (index : Index) (s s' : ChainState) : Prop where
  path : ∃ tip, Path index tip s'.chainActive
  adds : Adds index s.pblocktree s'.pblocktree

theorem call_called (shape : WellFormed index) (small : ∀ pindex, nTime pindex < 2 ^ 32) (path : Path index tip s.chainActive)
    (stamps : Timestamps s.pblocktree) {c : Call} (allowed : c.Allowed) (done : call hashGenesisBlock index nTime s c = .ok s') :
    Called index s s' := by
  have sets {place : Option Nat} {vChain : VChain} (valid : ∀ top ∈ place, top < index.length)
      (set : setTip index s.chainActive place = .ok vChain) : ∃ tip, Path index tip vChain := by
    obtain ⟨vChain', set', path'⟩ := setTip_eq shape path valid
    rw [set, ok.injEq] at set'
    rw [set']
    exact ⟨place, path'⟩
  cases c with
  | connectTip pindexNew =>
    rw [call, connectTip] at done
    obtain ⟨block, found, done⟩ := bind_ok.mp done
    split_ifs at done with differs
    obtain ⟨pblocktree, connected, done⟩ := bind_ok.mp done
    obtain ⟨vChain, set, done⟩ := bind_ok.mp done
    obtain rfl := pure_ok.mp done
    refine ⟨sets (fun top same => ?_) set, connectBlock_adds small stamps connected⟩
    rw [← some.inj same]
    exact lt_of_here (deref_ok found)
  | disconnectTip =>
    rw [call, disconnectTip, path.tip_eq] at done
    obtain ⟨block, found, done⟩ := bind_ok.mp done
    split_ifs at done with genesis
    · obtain rfl := pure_ok.mp done
      exact ⟨⟨tip, path⟩, stamps.adds⟩
    · obtain ⟨vChain, set, done⟩ := bind_ok.mp done
      obtain rfl := pure_ok.mp done
      refine ⟨sets (fun above parent => ?_) set, stamps.adds⟩
      cases tip with
      | none => cases found
      | some top =>
        obtain ⟨prev, there, -⟩ := shape.child top block above (deref_ok found) parent
        exact lt_of_here there
  | verifyDB nHeight =>
    rw [call, verifyDB] at done
    split at done
    · obtain rfl := ok.inj done
      exact ⟨⟨tip, path⟩, stamps.adds⟩
    · obtain ⟨pblocktree, connected, done⟩ := bind_ok.mp done
      obtain rfl := pure_ok.mp done
      exact ⟨⟨tip, path⟩, connectBlock_adds small stamps connected⟩
  | put key value =>
    obtain rfl := ok.inj done
    exact ⟨⟨tip, path⟩, stamps.put_other allowed.1⟩
  | erase key =>
    obtain rfl := ok.inj done
    have kept {entry : List UInt8 × List UInt8} (member : entry ∈ erase key s.pblocktree) : entry ∈ s.pblocktree :=
      (filter_sublist (l := s.pblocktree)).subset member
    exact ⟨⟨tip, path⟩, ⟨erase_ordered key stamps.ordered, fun entry member head => stamps.records entry (kept member) head⟩,
      fun _ member => .inl (kept member)⟩

end Chain

section Runs

variable {hashGenesisBlock : Uint256} {nTime : Uint256 → UInt32} {node node' : Node}

theorem sound_started : Sound Node.started where
  shape := empty
  path := ⟨none, path_empty⟩
  stamps := ⟨Pairwise.nil, nofun⟩
  stored := ⟨Pairwise.nil, nofun, nofun,
    nofun, nofun⟩

section

variable (sound : Sound node)
include sound

theorem Sound.queries_iff : node.QueriesKnown ↔ Covers (node.mapBlockIndex.map (·.hash)) node.pblocktree := by
  obtain ⟨tip, path⟩ := sound.path
  exact TimestampRecovery.queries_iff sound.shape path sound.stamps

theorem Sound.addToBlockIndex {hash hashPrevBlock : Uint256} (done : node.addToBlockIndex hash hashPrevBlock = .ok node') :
    Sound node' ∧ Grows node.mapBlockIndex node'.mapBlockIndex ∧ node'.pblocktree = node.pblocktree := by
  rw [Node.addToBlockIndex] at done
  split at done
  · obtain rfl := ok.inj done
    exact ⟨sound, Grows.refl _, rfl⟩
  · obtain ⟨middle, added, done⟩ := bind_ok.mp done
    obtain ⟨index, skipped, done⟩ := bind_ok.mp done
    obtain rfl := pure_ok.mp done
    have isAdded : build node.mapBlockIndex (.addBlock hash (find node.mapBlockIndex hashPrevBlock)) = .ok middle := added
    have isSkipped : build middle (.buildSkip node.mapBlockIndex.length) = .ok index := skipped
    have shape := (sound.shape.build_keeps isAdded).build_keeps isSkipped
    obtain ⟨grows, new⟩ := addBlock_grows added
    obtain ⟨grows', length⟩ := buildSkip_grows skipped
    have isNew : node.mapBlockIndex.length < middle.length := by
      rw [buildSkip] at skipped
      obtain ⟨block, found, -⟩ := bind_ok.mp skipped
      exact lt_of_here (deref_ok found)
    obtain ⟨tip, path⟩ := sound.path
    refine ⟨⟨shape, ⟨tip, (grows.trans grows').path sound.shape path⟩, sound.stamps, ?_⟩, grows.trans grows', rfl⟩
    have added' (place : Nat) (inside : place < index.length) : place < node.mapBlockIndex.length ∨ place ∈ [node.mapBlockIndex.length] := by
      rw [length] at inside
      rw [mem_singleton]
      exact new place inside
    apply sound.stored.grow sound.shape shape (grows.trans grows') added'
    intro place member
    rw [mem_singleton.mp member, length]
    exact isNew

theorem Sound.chainCall {c : Call} (allowed : c.Allowed) (done : node.chainCall hashGenesisBlock nTime c = .ok node') :
    Sound node' ∧ node'.mapBlockIndex = node.mapBlockIndex ∧ Adds node.mapBlockIndex node.pblocktree node'.pblocktree := by
  obtain ⟨s, called, done⟩ := bind_ok.mp done
  obtain rfl := pure_ok.mp done
  obtain ⟨tip, path⟩ := sound.path
  obtain ⟨path', adds⟩ := call_called sound.shape (fun _ => (nTime _).toNat_lt) path sound.stamps allowed called
  exact ⟨⟨sound.shape, path', adds.stamps, sound.stored⟩, rfl, adds⟩

theorem Sound.flush : Sound node.flushBlockIndex :=
  ⟨sound.shape, sound.path, sound.stamps, sound.stored.flush sound.shape⟩

theorem Sound.crash (done : node.crash = .ok node') : Sound node' ∧
    (Covers (node'.mapBlockIndex.map (·.hash)) node'.pblocktree ↔ node.Flushed) := by
  obtain ⟨both, loads, done⟩ := bind_ok.mp done
  obtain ⟨index, vChain⟩ := both
  obtain rfl := pure_ok.mp done
  obtain ⟨tree, built, loads⟩ := bind_ok.mp loads
  rcases loadTree_eq sound.shape sound.stored with ⟨-, stops⟩ | ⟨loaded, built', shape, stored⟩
  · rw [stops] at built
    cases built
  · rw [built, ok.injEq] at built'
    subst built'
    have same : index = tree ∧ ∃ tip, Path tree tip vChain := by
      split at loads
      · have equal := pure_ok.mp loads
        exact ⟨(congrArg Prod.fst equal).symm, none, (congrArg Prod.snd equal).symm⟩
      · rename_i tip found
        obtain ⟨vChain', set, loads⟩ := bind_ok.mp loads
        have equal := pure_ok.mp loads
        have valid : ∀ place ∈ some tip, place < tree.length := fun place isTip => by
          rw [← some.inj isTip]
          exact (find_some found).1
        obtain ⟨vChain'', set', path⟩ := setTip_eq shape path_empty valid
        rw [set, ok.injEq] at set'
        have last : vChain' = vChain := congrArg Prod.snd equal
        rw [← set', last] at path
        exact ⟨(congrArg Prod.fst equal).symm, some tip, path⟩
    obtain ⟨rfl, path⟩ := same
    refine ⟨⟨shape, path, sound.stamps, stored⟩, ?_⟩
    apply forall_congr'
    intro key
    rw [stored.hashes_eq]

theorem Sound.step {op : NodeOp} (done : node.step hashGenesisBlock nTime op = .ok node') : Sound node' ∧
    (Covers (node.mapBlockIndex.map (·.hash)) node.pblocktree → (op = .crash → node.Flushed) →
      Covers (node'.mapBlockIndex.map (·.hash)) node'.pblocktree) := by
  cases op with
  | addToBlockIndex hash hashPrevBlock =>
    obtain ⟨sound', grows, same⟩ := sound.addToBlockIndex done
    refine ⟨sound', fun covers _ key member below => grows.mem_hashes (covers key ?_ below)⟩
    rw [← same]
    exact member
  | chain c =>
    obtain ⟨sound', same, adds⟩ := sound.chainCall c.2 done
    refine ⟨sound', fun covers _ key member below => ?_⟩
    rw [same]
    exact (adds.records key member).elim (fun old => covers key old below) id
  | flushBlockIndex =>
    obtain rfl := ok.inj done
    exact ⟨sound.flush, fun covers _ => covers⟩
  | flushStateToDisk =>
    obtain rfl := ok.inj done
    obtain ⟨shape, path, stamps, stored⟩ := sound.flush
    exact ⟨⟨shape, path, stamps, stored⟩, fun covers _ => covers⟩
  | crash =>
    obtain ⟨sound', covers⟩ := sound.crash done
    exact ⟨sound', fun _ flushed => covers.mpr (flushed rfl)⟩

end

theorem sound_run {ops : List NodeOp} (done : ops.foldlM (Node.step hashGenesisBlock nTime) Node.started = .ok node) : Sound node :=
  foldlM_invariant (fun _ => Sound) ops (fun _ _ _ _ _ _ sound stepped => (sound.step stepped).1) sound_started done

/-- Time-range queries are safe in every state of a run if and only if at every crash all blocks in the timestamp index have been
written to the block index. -/
theorem queries_known_iff_flushed {ops : List NodeOp} (done : ops.foldlM (Node.step hashGenesisBlock nTime) Node.started = .ok node) :
    (∀ front, front <+: ops → ∀ before, front.foldlM (Node.step hashGenesisBlock nTime) Node.started = .ok before → before.QueriesKnown) ↔
      ∀ front, front ++ [.crash] <+: ops → ∀ before, front.foldlM (Node.step hashGenesisBlock nTime) Node.started = .ok before →
        before.Flushed := by
  constructor
  · intro queries front shorter before run
    obtain ⟨back, whole⟩ := shorter
    rw [← whole, append_assoc] at done
    obtain ⟨before', run', done⟩ := foldlM_append_ok.mp done
    rw [run, ok.injEq] at run'
    subst run'
    obtain ⟨after, crashed, -⟩ := foldlM_cons_ok.mp done
    obtain ⟨sound, covers⟩ := (sound_run run).crash crashed
    apply covers.mp
    apply sound.queries_iff.mp
    apply queries (front ++ [.crash]) ⟨back, whole⟩
    exact foldlM_append_ok.mpr ⟨before, run, foldlM_cons_ok.mpr ⟨after, crashed, rfl⟩⟩
  · intro flushed front
    -- along the run, the blocks of the timestamp index stay in memory
    induction front using reverseRecOn with
    | nil =>
      intro _ before run
      obtain rfl := ok.inj run
      exact sound_started.queries_iff.mpr nofun
    | append_singleton front op ih =>
      intro shorter before run
      obtain ⟨middle, run', last⟩ := foldlM_append_ok.mp run
      obtain ⟨before', stepped, same⟩ := foldlM_cons_ok.mp last
      obtain rfl := ok.inj same
      have sound := sound_run run'
      obtain ⟨sound', covers⟩ := sound.step stepped
      apply sound'.queries_iff.mpr
      apply covers
      · exact sound.queries_iff.mp (ih ((prefix_append front [op]).trans shorter) middle run')
      · rintro rfl
        exact flushed front shorter middle run'

end Runs

/-- Block 2 is connected on the genesis block 1, and is not written. -/
def sampleOps : List NodeOp := [NodeOp.addToBlockIndex 1 0, NodeOp.chain ⟨.connectTip 0, trivial⟩, NodeOp.flushStateToDisk,
  NodeOp.addToBlockIndex 2 1, NodeOp.chain ⟨.connectTip 1, trivial⟩]

def flushedOps : List NodeOp := sampleOps ++ [NodeOp.flushBlockIndex, NodeOp.crash]

def crashedOps : List NodeOp := sampleOps ++ [NodeOp.crash]

theorem queries_known_iff_flushed_sample : ∃ node, flushedOps.foldlM (Node.step 1 fun _ => 7) Node.started = .ok node ∧
    ((∀ front, front <+: flushedOps → ∀ before,
        front.foldlM (Node.step 1 fun _ => 7) Node.started = .ok before → before.QueriesKnown) ↔
      ∀ front, front ++ [.crash] <+: flushedOps → ∀ before,
        front.foldlM (Node.step 1 fun _ => 7) Node.started = .ok before → before.Flushed) := by
  have runs : (flushedOps.foldlM (Node.step 1 fun _ => 7) Node.started).toOption.isSome = true := by decide +kernel
  cases done : flushedOps.foldlM (Node.step 1 fun _ => 7) Node.started with
  | error fault =>
    rw [done] at runs
    cases runs
  | ok node => exact ⟨node, rfl, queries_known_iff_flushed done⟩

/-- After the crash a query looks up a hash that is not in `mapBlockIndex`. -/
theorem query_meets_unknown_block :
    ∃ node, crashedOps.foldlM (Node.step 1 fun _ => 7) Node.started = .ok node ∧ ¬ node.QueriesKnown := by
  have runs : ((crashedOps.foldlM (Node.step 1 fun _ => 7) Node.started).toOption.map fun node =>
      (readTimestampIndex node.mapBlockIndex ⟨node.chainActive, node.pblocktree⟩ (100 : UInt32).toNat (0 : UInt32).toNat true).toOption.isNone)
        = some true := by decide +kernel
  cases done : crashedOps.foldlM (Node.step 1 fun _ => 7) Node.started with
  | error fault =>
    rw [done] at runs
    cases runs
  | ok node =>
    refine ⟨node, rfl, fun queries => ?_⟩
    obtain ⟨hashes, answer⟩ := queries 100 0
    rw [done] at runs
    dsimp only [Except.toOption, map_some] at runs
    rw [answer] at runs
    cases runs

end Longcoin.TimestampRecovery

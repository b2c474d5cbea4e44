import Longcoin.AddressScanExact
import Longcoin.ChainLocator
import Longcoin.Library.LogicalTime

/-! The timestamp index (`main.cpp`, `txdb.cpp`): what `ConnectBlock` writes for a block, over any run of it. -/

namespace Longcoin.TimestampIndex
open Primitives Library Bytes Codec ByteStore ParentForest LogicalTime Chain AddressScan Ancestor List Option Except

def DB_TIMESTAMPINDEX : UInt8 := 0x73
def DB_BLOCKHASHINDEX : UInt8 := 0x7a

structure CTimestampIndexKey where
  timestamp : Nat
  blockHash : Uint256

def serializeTimestampIndexKey (key : CTimestampIndexKey) : List UInt8 :=
  bigBytes 4 key.timestamp ++ littleBytes 32 key.blockHash.toNat

def unserializeTimestampIndexKey : Reader CTimestampIndexKey := do
  let timestamp ← serReaddataBe 4
  let blockHash ← serReaddata 32
  return ⟨timestamp, .ofNat 256 blockHash⟩

/-- The keys and values of `pblocktree` as they are serialized. -/
abbrev LevelDB := Store (List UInt8)

def timestampKey (timestampIndex : CTimestampIndexKey) : List UInt8 :=
  DB_TIMESTAMPINDEX :: serializeTimestampIndexKey timestampIndex

/-- `CTimestampBlockIndexKey`. -/
def timestampBlockKey (blockHash : Uint256) : List UInt8 := DB_BLOCKHASHINDEX :: littleBytes 32 blockHash.toNat

def writeTimestampIndex (timestampIndex : CTimestampIndexKey) (db : LevelDB) : LevelDB :=
  put (timestampKey timestampIndex) (littleBytes 4 0) db

def writeTimestampBlockIndex (blockHash : Uint256) (ltimestamp : Nat) (db : LevelDB) : LevelDB :=
  put (timestampBlockKey blockHash) (bigBytes 4 ltimestamp) db

def readTimestampBlockIndex (hash : Uint256) (db : LevelDB) : Option Nat := do
  let entry ← db.find? fun entry => entry.1 == timestampBlockKey hash
  let lts ← serReaddataBe 4 entry.2
  return lts.1

def prevLogical (index : Index) (pprev : Option Nat) (db : LevelDB) : Except Fault Nat :=
  match pprev with
  | none => .ok 0
  | some prev => do
      let block ← deref index (some prev)
      return (readTimestampBlockIndex block.hash db).getD 0

/-- What a successful `ConnectBlock` does for the timestamp index; for the genesis block it returns before. `nTime` is that
of the block at a place in memory. -/
def connectBlock (hashGenesisBlock : Uint256) (index : Index) (nTime : Nat → Nat) (pindex : Nat) (db : LevelDB) : Except Fault LevelDB := do
  let block ← deref index (some pindex)
  if block.hash = hashGenesisBlock then return db
  else do
    let prevLogicalTS ← prevLogical index block.pprev db
    let logicalTS := if nTime pindex ≤ prevLogicalTS then (prevLogicalTS + 1) % 2 ^ 32 else nTime pindex
    return writeTimestampBlockIndex block.hash logicalTS (writeTimestampIndex ⟨logicalTS, block.hash⟩ db)

structure ChainState where
  chainActive : VChain
  pblocktree : LevelDB

/-- The calls that connect blocks, and the writes of the other records. A call that fails for an invalid block writes nothing. -/
inductive Call where
  | connectTip (pindexNew : Nat)
  | disconnectTip
  | verifyDB (nHeight : Nat)
  | put (key value : List UInt8)
  | erase (key : List UInt8)

def Call.Allowed : Call → Prop
  | .put key _ => key.head? ≠ some DB_TIMESTAMPINDEX ∧ key.head? ≠ some DB_BLOCKHASHINDEX
  | .erase key => key.head? ≠ some DB_TIMESTAMPINDEX ∧ key.head? ≠ some DB_BLOCKHASHINDEX
  | _ => True

def connectTip (hashGenesisBlock : Uint256) (index : Index) (nTime : Nat → Nat) (pindexNew : Nat) (s : ChainState) :
    Except Fault ChainState := do
  let block ← deref index (some pindexNew)
  if block.pprev ≠ s.chainActive.tip then .error .assertion
  else do
    let pblocktree ← connectBlock hashGenesisBlock index nTime pindexNew s.pblocktree
    let chainActive ← setTip index s.chainActive (some pindexNew)
    return ⟨chainActive, pblocktree⟩

/-- Nothing is taken from the timestamp index. The genesis block has no undo data. -/
def disconnectTip (hashGenesisBlock : Uint256) (index : Index) (s : ChainState) : Except Fault ChainState := do
  let block ← deref index s.chainActive.tip
  if block.hash = hashGenesisBlock then return s
  else do
    let chainActive ← setTip index s.chainActive block.pprev
    return { s with chainActive }

/-- `VerifyDB` connects a block of the active chain again. -/
def verifyDB (hashGenesisBlock : Uint256) (index : Index) (nTime : Nat → Nat) (nHeight : Nat) (s : ChainState) : Except Fault ChainState :=
  match s.chainActive.get nHeight with
  | none => .ok s
  | some pindex => do
      let pblocktree ← connectBlock hashGenesisBlock index nTime pindex s.pblocktree
      return { s with pblocktree }

def call (hashGenesisBlock : Uint256) (index : Index) (nTime : Nat → Nat) (s : ChainState) : Call → Except Fault ChainState
  | .connectTip pindexNew => connectTip hashGenesisBlock index nTime pindexNew s
  | .disconnectTip => disconnectTip hashGenesisBlock index s
  | .verifyDB nHeight => verifyDB hashGenesisBlock index nTime nHeight s
  | .put key value => .ok { s with pblocktree := put key value s.pblocktree }
  | .erase key => .ok { s with pblocktree := erase key s.pblocktree }

/-- The genesis block is the only one without a parent. -/
def Rooted (hashGenesisBlock : Uint256) (index : Index) : Prop :=
  ∀ (pindex : Nat) (block : CBlockIndex), index[pindex]? = some block → (block.pprev = none ↔ block.hash = hashGenesisBlock)

/-- On every chain the block times are so early that the logical times fit. -/
def Early (index : Index) (nTime : Nat → Nat) : Prop :=
  ∀ pindex < index.length, ∀ other, Ancestor (pprev index) other pindex → nTime other + nHeight index pindex < 2 ^ 32 - 1

/-- The logical time of a block: that of its parent decides it, and the parent of a block never changes. -/
def logicalTime (index : Index) (nTime : Nat → Nat) (pindex : Nat) : Nat :=
  stampFrom (pprev index) nTime (nHeight index pindex) pindex

def Descends (index : Index) (pindex : Nat) : Prop := pindex < index.length ∧ ∃ above, pprev index pindex = some above

def timeEntry (index : Index) (nTime : Nat → Nat) (pindex : Nat) : List UInt8 × List UInt8 :=
  (timestampKey ⟨logicalTime index nTime pindex, blockHash index pindex⟩, littleBytes 4 0)

def blockEntry (index : Index) (nTime : Nat → Nat) (pindex : Nat) : List UInt8 × List UInt8 :=
  (timestampBlockKey (blockHash index pindex), bigBytes 4 (logicalTime index nTime pindex))

/-- The records of both indexes are those of blocks with their logical times. -/
structure Records (index : Index) (nTime : Nat → Nat) (db : LevelDB) : Prop where
  ordered : Ordered db
  times : ∀ entry ∈ db, entry.1.head? = some DB_TIMESTAMPINDEX → ∃ pindex, Descends index pindex ∧ entry = timeEntry index nTime pindex
  blocks : ∀ entry ∈ db, entry.1.head? = some DB_BLOCKHASHINDEX → ∃ pindex, Descends index pindex ∧ entry = blockEntry index nTime pindex
  timed : ∀ pindex, Descends index pindex → blockEntry index nTime pindex ∈ db → timeEntry index nTime pindex ∈ db
  closed : ∀ pindex, Descends index pindex → blockEntry index nTime pindex ∈ db → ∀ above, pprev index pindex = some above →
    Descends index above → blockEntry index nTime above ∈ db

/-- What holds in every run: the blocks of the active chain have their logical times. -/
structure Holds (index : Index) (nTime : Nat → Nat) (tip : Option Nat) (s : ChainState) : Prop where
  path : Path index tip s.chainActive
  records : Records index nTime s.pblocktree
  chain : ∀ pindex, Descends index pindex → InChain index tip pindex → blockEntry index nTime pindex ∈ s.pblocktree

section Stored

variable {hashGenesisBlock : Uint256} {index : Index} {nTime : Nat → Nat} {db : LevelDB} {pindex other : Nat} {block : CBlockIndex}

theorem logicalTime_stamps (shape : WellFormed index) : Stamps (pprev index) nTime (logicalTime index nTime) :=
  stamps_stampFrom shape.graded

theorem logicalTime_lt (shape : WellFormed index) (early : Early index nTime) (inside : pindex < index.length) :
    logicalTime index nTime pindex < 2 ^ 32 := by
  have small : logicalTime index nTime pindex + 0 < 2 ^ 32 := (logicalTime_stamps shape).add_lt shape.graded fun other below => by
    have limit := early pindex inside other below
    omega
  exact small

theorem blockHash_eq (here : index[pindex]? = some block) : blockHash index pindex = block.hash := by
  rw [blockHash, here, map_some, getD_some]

theorem blockHash_inj (shape : WellFormed index) (inside : pindex < index.length) (inside' : other < index.length)
    (same : blockHash index pindex = blockHash index other) : pindex = other := by
  obtain ⟨block, here⟩ := WellFormed.exists_of_lt inside
  obtain ⟨block', here'⟩ := WellFormed.exists_of_lt inside'
  rw [blockHash_eq here, blockHash_eq here'] at same
  refine (getElem?_inj (by rw [length_map]; exact inside) shape.hashes).mp ?_
  rw [getElem?_map, getElem?_map, here, here', map_some, map_some, same]

theorem timestampBlockKey_inj {hash hash' : Uint256} (same : timestampBlockKey hash = timestampBlockKey hash') : hash = hash' :=
  BitVec.eq_of_toNat_eq (littleBytes_inj (hash_fits hash (by rfl)) (hash_fits hash' (by rfl)) (cons.inj same).2)

theorem find_of_mem (ordered : Ordered db) {entry : List UInt8 × List UInt8} (member : entry ∈ db) :
    db.find? (fun entry' => entry'.1 == entry.1) = some entry := by
  cases found : db.find? fun entry' => entry'.1 == entry.1 with
  | none => exact absurd (beq_self_eq_true entry.1) (find?_eq_none.mp found entry member)
  | some entry' =>
    have same := find?_some found
    rw [entry_of_key ordered member (mem_of_find?_eq_some found) (eq_of_beq same).symm]

theorem read_stored (ordered : Ordered db) (fits : logicalTime index nTime pindex < 2 ^ 32)
    (member : blockEntry index nTime pindex ∈ db) :
    readTimestampBlockIndex (blockHash index pindex) db = some (logicalTime index nTime pindex) := by
  have read : serReaddataBe 4 (bigBytes 4 (logicalTime index nTime pindex) ++ []) = some (logicalTime index nTime pindex, []) :=
    serReaddataBe_reads fits []
  rw [append_nil] at read
  rw [readTimestampBlockIndex]
  change (db.find? fun entry => entry.1 == (blockEntry index nTime pindex).1).bind _ = _
  rw [find_of_mem ordered member, bind_some]
  change (serReaddataBe 4 (bigBytes 4 (logicalTime index nTime pindex))).bind _ = _
  rw [read]
  rfl

theorem read_some (shape : WellFormed index) (early : Early index nTime) (records : Records index nTime db) (inside : pindex < index.length)
    {ltimestamp : Nat} (read : readTimestampBlockIndex (blockHash index pindex) db = some ltimestamp) :
    Descends index pindex ∧ ltimestamp = logicalTime index nTime pindex ∧ blockEntry index nTime pindex ∈ db := by
  have found := read
  rw [readTimestampBlockIndex] at found
  obtain ⟨entry, isFound, -⟩ := bind_eq_some_iff.mp found
  have member := mem_of_find?_eq_some isFound
  have hasKey := find?_some isFound
  have key := eq_of_beq hasKey
  obtain ⟨other, descends, same⟩ := records.blocks entry member (by rw [key]; rfl)
  rw [same] at key member
  have equal := blockHash_inj shape descends.1 inside (timestampBlockKey_inj key)
  rw [equal] at descends member
  have stored := read_stored records.ordered (logicalTime_lt shape early inside) member
  rw [stored, some.injEq] at read
  exact ⟨descends, read.symm, member⟩

theorem prevLogical_eq (shape : WellFormed index) (early : Early index nTime) (records : Records index nTime db)
    (here : index[pindex]? = some block) {above : Nat} (parent : block.pprev = some above)
    (stored : Descends index above → blockEntry index nTime above ∈ db) :
    prevLogical index block.pprev db = .ok (logicalTime index nTime above) := by
  obtain ⟨prev, there, -⟩ := shape.child pindex block above here parent
  have inside := WellFormed.lt_of_here there
  rw [parent, prevLogical, WellFormed.deref_eq there]
  refine congrArg ok ?_
  rw [← blockHash_eq there]
  cases up : pprev index above with
  | some higher =>
    rw [read_stored records.ordered (logicalTime_lt shape early inside) (stored ⟨inside, higher, up⟩), getD_some]
  | none =>
    rw [(logicalTime_stamps shape).root above up]
    cases read : readTimestampBlockIndex (blockHash index above) db with
    | none => rfl
    | some ltimestamp =>
      obtain ⟨-, higher, found⟩ := (read_some shape early records inside read).1
      rw [up] at found
      cases found

theorem connectBlock_eq (shape : WellFormed index) (rooted : Rooted hashGenesisBlock index) (early : Early index nTime)
    (records : Records index nTime db) (descends : Descends index pindex)
    (stored : ∀ above, pprev index pindex = some above → Descends index above → blockEntry index nTime above ∈ db) :
    connectBlock hashGenesisBlock index nTime pindex db =
      .ok (put (blockEntry index nTime pindex).1 (blockEntry index nTime pindex).2
        (put (timeEntry index nTime pindex).1 (timeEntry index nTime pindex).2 db)) := by
  obtain ⟨inside, above, up⟩ := descends
  obtain ⟨block, here⟩ := WellFormed.exists_of_lt inside
  have parent : block.pprev = some above := (WellFormed.pprev_eq here).symm.trans up
  have other : block.hash ≠ hashGenesisBlock := by
    intro same
    rw [(rooted pindex block here).mpr same] at parent
    cases parent
  have small := logicalTime_lt shape early inside
  have value := (@logicalTime_stamps index nTime shape).child pindex above up
  have logical : (if nTime pindex ≤ logicalTime index nTime above then (logicalTime index nTime above + 1) % 2 ^ 32 else nTime pindex) =
      logicalTime index nTime pindex := by
    split_ifs with older
    · rw [Nat.mod_eq_of_lt (by omega)]
      omega
    · omega
  rw [connectBlock, WellFormed.deref_eq here]
  dsimp only [bind, Except.bind]
  rw [if_neg other, prevLogical_eq shape early records here parent (stored above up)]
  dsimp only
  rw [logical, ← blockHash_eq here]
  rfl

theorem mem_put_of_mem {key value : List UInt8} (ordered : Ordered db) {entry : List UInt8 × List UInt8} (member : entry ∈ db)
    (same : entry.1 = key → entry.2 = value) : entry ∈ put key value db := by
  rw [mem_put_iff ordered]
  by_cases equal : entry.1 = key
  · exact .inl (Prod.ext equal (same equal))
  · exact .inr ⟨member, equal⟩

theorem mem_put_self {key value : List UInt8} (ordered : Ordered db) : (key, value) ∈ put key value db :=
  (mem_put_iff ordered).mpr (.inl rfl)

namespace Records

theorem put_block (shape : WellFormed index) (records : Records index nTime db) (descends : Descends index pindex)
    (stored : ∀ above, pprev index pindex = some above → Descends index above → blockEntry index nTime above ∈ db) {after : LevelDB}
    (written : after = put (blockEntry index nTime pindex).1 (blockEntry index nTime pindex).2
      (put (timeEntry index nTime pindex).1 (timeEntry index nTime pindex).2 db)) :
    Records index nTime after ∧ blockEntry index nTime pindex ∈ after ∧
      ∀ other, Descends index other → blockEntry index nTime other ∈ db → blockEntry index nTime other ∈ after := by
  have ordered : Ordered (put (timeEntry index nTime pindex).1 (timeEntry index nTime pindex).2 db) := put_ordered records.ordered
  have oneBlock : ∀ other, Descends index other → (blockEntry index nTime other).1 = (blockEntry index nTime pindex).1 →
      blockEntry index nTime other = blockEntry index nTime pindex := fun other known same => by
    rw [blockHash_inj shape known.1 descends.1 (timestampBlockKey_inj same)]
  have from' : ∀ entry ∈ after, entry = blockEntry index nTime pindex ∨ entry = timeEntry index nTime pindex ∨ entry ∈ db := by
    intro entry member
    rw [written] at member
    exact (mem_put member).imp_right fun old => mem_put old
  have keepsBlock : ∀ other, Descends index other → blockEntry index nTime other ∈ db → blockEntry index nTime other ∈ after := by
    intro other known member
    rw [written]
    refine mem_put_of_mem ordered (mem_put_of_mem records.ordered member fun same => ?_) fun same =>
      congrArg Prod.snd (oneBlock other known same)
    cases congrArg head? same
  have keepsTime : ∀ entry ∈ put (timeEntry index nTime pindex).1 (timeEntry index nTime pindex).2 db,
      entry.1.head? = some DB_TIMESTAMPINDEX → entry ∈ after := by
    intro entry member head
    rw [written]
    refine mem_put_of_mem ordered member fun same => ?_
    rw [same] at head
    cases head
  have isTime : timeEntry index nTime pindex ∈ after := keepsTime _ (mem_put_self records.ordered) rfl
  have isBlock : blockEntry index nTime pindex ∈ after := by
    rw [written]
    exact mem_put_self ordered
  refine ⟨⟨?_, ?_, ?_, ?_, ?_⟩, isBlock, keepsBlock⟩
  · rw [written]
    exact put_ordered ordered
  · intro entry member head
    rcases from' entry member with rfl | rfl | old
    · cases head
    · exact ⟨pindex, descends, rfl⟩
    · exact records.times entry old head
  · intro entry member head
    rcases from' entry member with rfl | rfl | old
    · exact ⟨pindex, descends, rfl⟩
    · cases head
    · exact records.blocks entry old head
  · intro other known member
    rcases from' _ member with same | same | old
    · have equal := blockHash_inj shape known.1 descends.1 (timestampBlockKey_inj (congrArg Prod.fst same))
      rw [equal]
      exact isTime
    · cases congrArg (fun entry : List UInt8 × List UInt8 => entry.1.head?) same
    · exact keepsTime _ (mem_put_of_mem records.ordered (records.timed other known old) fun _ => rfl) rfl
  · intro other known member above up knownAbove
    rcases from' _ member with same | same | old
    · have equal := blockHash_inj shape known.1 descends.1 (timestampBlockKey_inj (congrArg Prod.fst same))
      rw [equal] at up
      exact keepsBlock above knownAbove (stored above up knownAbove)
    · cases congrArg (fun entry : List UInt8 × List UInt8 => entry.1.head?) same
    · exact keepsBlock above knownAbove (records.closed other known old above up knownAbove)

def Indexed (entry : List UInt8 × List UInt8) : Prop :=
  entry.1.head? = some DB_TIMESTAMPINDEX ∨ entry.1.head? = some DB_BLOCKHASHINDEX

theorem congr {after : LevelDB} (records : Records index nTime db) (ordered : Ordered after)
    (same : ∀ entry, Indexed entry → (entry ∈ after ↔ entry ∈ db)) : Records index nTime after where
  ordered := ordered
  times := fun entry member head => records.times entry ((same entry (.inl head)).mp member) head
  blocks := fun entry member head => records.blocks entry ((same entry (.inr head)).mp member) head
  timed := fun pindex known member => (same _ (.inl rfl)).mpr (records.timed pindex known ((same _ (.inr rfl)).mp member))
  closed := fun pindex known member above up knownAbove =>
    (same _ (.inr rfl)).mpr (records.closed pindex known ((same _ (.inr rfl)).mp member) above up knownAbove)

theorem mem_put_other {key value : List UInt8} (ordered : Ordered db) (time : key.head? ≠ some DB_TIMESTAMPINDEX)
    (block : key.head? ≠ some DB_BLOCKHASHINDEX) {entry : List UInt8 × List UInt8} (indexed : Indexed entry) :
    entry ∈ put key value db ↔ entry ∈ db := by
  have other : entry.1 ≠ key := fun same => by
    rw [Indexed, same] at indexed
    exact absurd indexed (not_or.mpr ⟨time, block⟩)
  rw [mem_put_iff ordered]
  exact ⟨fun either => (either.resolve_left fun same => other (congrArg Prod.fst same)).1, fun member => .inr ⟨member, other⟩⟩

theorem mem_erase_other {key : List UInt8} (time : key.head? ≠ some DB_TIMESTAMPINDEX) (block : key.head? ≠ some DB_BLOCKHASHINDEX)
    {entry : List UInt8 × List UInt8} (indexed : Indexed entry) : entry ∈ erase key db ↔ entry ∈ db := by
  have other : entry.1 ≠ key := fun same => by
    rw [Indexed, same] at indexed
    exact absurd indexed (not_or.mpr ⟨time, block⟩)
  rw [erase, mem_filter]
  exact ⟨And.left, fun member => ⟨member, bne_iff_ne.mpr other⟩⟩

theorem connectBlock (shape : WellFormed index) (rooted : Rooted hashGenesisBlock index) (early : Early index nTime)
    (records : Records index nTime db) (inside : pindex < index.length)
    (stored : ∀ above, pprev index pindex = some above → Descends index above → blockEntry index nTime above ∈ db) :
    ∃ after, TimestampIndex.connectBlock hashGenesisBlock index nTime pindex db = .ok after ∧ Records index nTime after ∧
      (Descends index pindex → blockEntry index nTime pindex ∈ after) ∧
      ∀ other, Descends index other → blockEntry index nTime other ∈ db → blockEntry index nTime other ∈ after := by
  cases up : pprev index pindex with
  | none =>
    obtain ⟨block, here⟩ := WellFormed.exists_of_lt inside
    have genesis := (rooted pindex block here).mp ((WellFormed.pprev_eq here).symm.trans up)
    refine ⟨db, ?_, records, fun descends => ?_, fun _ _ member => member⟩
    · rw [TimestampIndex.connectBlock, WellFormed.deref_eq here]
      exact if_pos genesis
    · obtain ⟨-, above, found⟩ := descends
      rw [up] at found
      cases found
  | some above =>
    have descends : Descends index pindex := ⟨inside, above, up⟩
    obtain ⟨after, isBlock, keeps⟩ := put_block shape records descends stored rfl
    exact ⟨_, connectBlock_eq shape rooted early records descends stored, after, fun _ => isBlock, keeps⟩

end Records

end Stored

section Runs

variable {hashGenesisBlock : Uint256} {index : Index} {nTime : Nat → Nat} {tip : Option Nat} {s s' : ChainState}

/-- What a call makes of what holds: the logical times that are stored stay, and a block that it connects gets its own. -/
structure Kept (index : Index) (nTime : Nat → Nat) (s s' : ChainState) (c : Call) : Prop where
  holds : ∃ tip, Holds index nTime tip s'
  stays : ∀ pindex, Descends index pindex → blockEntry index nTime pindex ∈ s.pblocktree → blockEntry index nTime pindex ∈ s'.pblocktree
  connects : ∀ pindex, c = .connectTip pindex → Descends index pindex → blockEntry index nTime pindex ∈ s'.pblocktree

theorem connectTip_kept (shape : WellFormed index) (rooted : Rooted hashGenesisBlock index) (early : Early index nTime)
    (holds : Holds index nTime tip s) {pindexNew : Nat} (done : connectTip hashGenesisBlock index nTime pindexNew s = .ok s') :
    Kept index nTime s s' (.connectTip pindexNew) := by
  rw [connectTip] at done
  obtain found | found := Nat.lt_or_ge pindexNew index.length
  · obtain ⟨block, here⟩ := WellFormed.exists_of_lt found
    rw [WellFormed.deref_eq here] at done
    dsimp only [bind, Except.bind] at done
    rw [holds.path.tip_eq] at done
    split_ifs at done with differs
    have parent : pprev index pindexNew = tip := (WellFormed.pprev_eq here).trans (not_not.mp differs)
    obtain ⟨after, connected, records, isBlock, keeps⟩ := holds.records.connectBlock shape rooted early found fun above up known => by
      refine holds.chain above known ⟨above, ?_, refl above⟩
      rw [← parent, up]
      rfl
    obtain ⟨vChain, set, path⟩ : ∃ vChain, setTip index s.chainActive (some pindexNew) = .ok vChain ∧ Path index (some pindexNew) vChain :=
      setTip_eq shape holds.path fun place same => by
        rw [← some.inj same]
        exact found
    rw [connected] at done
    dsimp only at done
    rw [set] at done
    obtain rfl := ok.inj done
    refine ⟨⟨some pindexNew, path, records, fun pindex known member => ?_⟩, keeps, fun pindex same known => ?_⟩
    · obtain ⟨top, isTop, below⟩ := member
      rw [← some.inj isTop] at below
      rcases cases_parent.mp below with rfl | ⟨above, up, rest⟩
      · exact isBlock known
      · exact keeps pindex known (holds.chain pindex known ⟨above, by rw [← parent, up]; rfl, rest⟩)
    · cases same
      exact isBlock known
  · have nothing : deref index (some pindexNew) = .error .badPointer := by
      rw [deref, bind_some, getElem?_eq_none found]
    rw [nothing] at done
    cases done

theorem disconnectTip_kept (shape : WellFormed index) (holds : Holds index nTime tip s)
    (done : disconnectTip hashGenesisBlock index s = .ok s') : Kept index nTime s s' .disconnectTip := by
  rw [disconnectTip, holds.path.tip_eq] at done
  cases tip with
  | none => cases done
  | some top =>
    obtain ⟨inside, -⟩ := holds.path
    obtain ⟨block, here⟩ := WellFormed.exists_of_lt inside
    rw [WellFormed.deref_eq here] at done
    dsimp only [bind, Except.bind] at done
    split_ifs at done with genesis
    · obtain rfl := ok.inj done
      exact ⟨⟨some top, holds⟩, fun _ _ member => member, nofun⟩
    · obtain ⟨vChain, set, path⟩ : ∃ vChain, setTip index s.chainActive block.pprev = .ok vChain ∧ Path index block.pprev vChain :=
        setTip_eq shape holds.path fun place parent => by
          obtain ⟨prev, there, -⟩ := shape.child top block place here parent
          exact WellFormed.lt_of_here there
      rw [set] at done
      obtain rfl := ok.inj done
      refine ⟨⟨block.pprev, path, holds.records, fun pindex known member => ?_⟩, fun _ _ member => member, nofun⟩
      obtain ⟨above, parent, below⟩ := member
      exact holds.chain pindex known ⟨top, rfl, below.of_parent ((WellFormed.pprev_eq here).trans parent)⟩

theorem verifyDB_kept (shape : WellFormed index) (rooted : Rooted hashGenesisBlock index) (early : Early index nTime)
    (holds : Holds index nTime tip s) {nHeight : Nat} (done : verifyDB hashGenesisBlock index nTime nHeight s = .ok s') :
    Kept index nTime s s' (.verifyDB nHeight) := by
  rw [verifyDB] at done
  cases found : s.chainActive.get nHeight with
  | none =>
    rw [found] at done
    obtain rfl := ok.inj done
    exact ⟨⟨tip, holds⟩, fun _ _ member => member, nofun⟩
  | some pindex =>
    rw [found] at done
    rw [holds.path.get_eq] at found
    obtain ⟨top, isTop, rest⟩ := bind_eq_some_iff.mp found
    split_ifs at rest with low
    have path := holds.path
    rw [isTop] at path
    have inside := shape.ancestor_lt path.1 rest
    obtain ⟨after, connected, records, -, keeps⟩ := holds.records.connectBlock shape rooted early inside fun above up known =>
      holds.chain above known ⟨top, isTop, trans ⟨_, rest⟩ (of_parent up (refl above))⟩
    dsimp only at done
    rw [connected] at done
    obtain rfl := ok.inj done
    exact ⟨⟨tip, holds.path, records, fun other known member => keeps other known (holds.chain other known member)⟩, keeps,
      nofun⟩

theorem Holds.kept_other (holds : Holds index nTime tip s) {pblocktree : LevelDB} {c : Call} (records : Records index nTime pblocktree)
    (same : ∀ pindex, blockEntry index nTime pindex ∈ pblocktree ↔ blockEntry index nTime pindex ∈ s.pblocktree)
    (other : ∀ pindex, c ≠ .connectTip pindex) : Kept index nTime s { s with pblocktree } c where
  holds := ⟨tip, holds.path, records, fun pindex known member => (same pindex).mpr (holds.chain pindex known member)⟩
  stays := fun pindex _ member => (same pindex).mpr member
  connects := fun pindex isCall => absurd isCall (other pindex)

theorem call_kept (shape : WellFormed index) (rooted : Rooted hashGenesisBlock index) (early : Early index nTime)
    (holds : Holds index nTime tip s) {c : Call} (allowed : c.Allowed) (done : call hashGenesisBlock index nTime s c = .ok s') :
    Kept index nTime s s' c := by
  cases c with
  | connectTip pindexNew => exact connectTip_kept shape rooted early holds done
  | disconnectTip => exact disconnectTip_kept shape holds done
  | verifyDB nHeight => exact verifyDB_kept shape rooted early holds done
  | put key value =>
    have same {entry : List UInt8 × List UInt8} (indexed : Records.Indexed entry) :=
      @Records.mem_put_other _ key value holds.records.ordered allowed.1 allowed.2 entry indexed
    obtain rfl := ok.inj done
    exact holds.kept_other (holds.records.congr (put_ordered holds.records.ordered) fun _ => same) (fun _ => same (.inr rfl))
      nofun
  | erase key =>
    have same {entry : List UInt8 × List UInt8} (indexed : Records.Indexed entry) :=
      @Records.mem_erase_other s.pblocktree key allowed.1 allowed.2 entry indexed
    obtain rfl := ok.inj done
    exact holds.kept_other (holds.records.congr (erase_ordered key holds.records.ordered) fun _ => same) (fun _ => same (.inr rfl))
      nofun

theorem calls_kept (shape : WellFormed index) (rooted : Rooted hashGenesisBlock index) (early : Early index nTime) {calls : List Call}
    (holds : Holds index nTime tip s) (allowed : ∀ c ∈ calls, c.Allowed) (done : calls.foldlM (call hashGenesisBlock index nTime) s = .ok s') :
    (∃ tip, Holds index nTime tip s') ∧
      (∀ pindex, Descends index pindex → blockEntry index nTime pindex ∈ s.pblocktree → blockEntry index nTime pindex ∈ s'.pblocktree) ∧
      ∀ pindex, Call.connectTip pindex ∈ calls → Descends index pindex → blockEntry index nTime pindex ∈ s'.pblocktree := by
  induction calls generalizing s tip with
  | nil =>
    obtain rfl := ok.inj done
    exact ⟨⟨tip, holds⟩, fun _ _ member => member, nofun⟩
  | cons c calls ih =>
    rw [foldlM_cons] at done
    cases first : call hashGenesisBlock index nTime s c with
    | error fault =>
      rw [first] at done
      cases done
    | ok middle =>
      rw [first] at done
      obtain ⟨⟨tip', holds'⟩, stays, connects⟩ := call_kept shape rooted early holds (allowed c mem_cons_self) first
      obtain ⟨last, stays', connects'⟩ := ih holds' (forall_mem_cons.mp allowed).2 done
      refine ⟨last, fun pindex known member => stays' pindex known (stays pindex known member), fun pindex member known => ?_⟩
      rcases mem_cons.mp member with here | later
      · exact stays' pindex known (connects pindex here.symm known)
      · exact connects' pindex later known

theorem holds_start : Holds index nTime none ⟨[], []⟩ where
  path := path_empty
  records := ⟨Pairwise.nil, nofun, nofun,
    nofun, nofun⟩
  chain := fun _ _ member => by
    obtain ⟨_, nothing, _⟩ := member
    cases nothing

end Runs

end Longcoin.TimestampIndex

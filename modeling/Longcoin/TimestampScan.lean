import Longcoin.TimestampIndex

/-! Reading the timestamp index (`txdb.cpp`): the blocks of the active chain in a range of logical times. -/

namespace Longcoin.TimestampIndex
open Primitives Library Bytes Codec ByteStore LogicalTime Chain AddressScan WellFormed List

/-- An unknown hash has a null pointer in `mapBlockIndex`, and `Contains` follows it. -/
def blockOnchainActive (index : Index) (chainActive : VChain) (hash : Uint256) : Except Fault Bool :=
  match find index hash with
  | none => .error .badPointer
  | some pindex => contains index chainActive pindex

def listed (index : Index) (chainActive : VChain) (fActiveOnly : Bool) (hash : Uint256) : Except Fault Bool :=
  if fActiveOnly then blockOnchainActive index chainActive hash else .ok true

def readEntries (index : Index) (chainActive : VChain) (high : Nat) (fActiveOnly : Bool) : LevelDB → Except Fault (List (Uint256 × Nat))
  | [] => .ok []
  | entry :: rest =>
      match getKey unserializeTimestampIndexKey entry.1 with
      | none => .ok []
      | some key =>
          if key.1 = DB_TIMESTAMPINDEX ∧ key.2.timestamp < high then do
            let isListed ← listed index chainActive fActiveOnly key.2.blockHash
            let hashes ← readEntries index chainActive high fActiveOnly rest
            return if isListed then (key.2.blockHash, key.2.timestamp) :: hashes else hashes
          else .ok []

def readTimestampIndex (index : Index) (s : ChainState) (high low : Nat) (fActiveOnly : Bool) : Except Fault (List (Uint256 × Nat)) :=
  readEntries index s.chainActive high fActiveOnly (seek (DB_TIMESTAMPINDEX :: bigBytes 4 low) s.pblocktree)

/-- A block that is not the genesis block and has its stored logical time in the range, with this time. -/
def between (hashGenesisBlock : Uint256) (index : Index) (db : LevelDB) (low high : Nat) (slot : Option Nat) : Option (Uint256 × Nat) := do
  let pindex ← slot
  let block ← index[pindex]?
  let logicalTS ← readTimestampBlockIndex block.hash db
  if block.hash ≠ hashGenesisBlock ∧ low ≤ logicalTS ∧ logicalTS < high then some (block.hash, logicalTS) else none

/-- The blocks of the active chain, in its order, that have a logical time in the range. -/
def activeBetween (hashGenesisBlock : Uint256) (index : Index) (s : ChainState) (low high : Nat) : List (Uint256 × Nat) :=
  s.chainActive.filterMap (between hashGenesisBlock index s.pblocktree low high)

/-- The key that an entry of the database has in the index. -/
def entryOf (entry : List UInt8 × List UInt8) : Option CTimestampIndexKey :=
  (getKey unserializeTimestampIndexKey entry.1).bind fun key => if key.1 = DB_TIMESTAMPINDEX then some key.2 else none

def record (key : CTimestampIndexKey) : List UInt8 × List UInt8 := (timestampKey key, littleBytes 4 0)

variable {key : CTimestampIndexKey}

theorem getKey_timestampKey (fits : key.timestamp < 2 ^ 32) :
    getKey unserializeTimestampIndexKey (timestampKey key) = some (DB_TIMESTAMPINDEX, key) := by
  have hash : Reads (serReaddata 32) (littleBytes 32 key.blockHash.toNat) key.blockHash.toNat := serReaddata_reads (hash_fits _ (by rfl))
  have reads : Reads unserializeTimestampIndexKey (serializeTimestampIndexKey key) key := by
    refine (serReaddataBe_reads fits).bind ?_
    have value := hash.bind_pure fun blockHash => (⟨key.timestamp, .ofNat 256 blockHash⟩ : CTimestampIndexKey)
    rw [BitVec.ofNat_toNat, BitVec.setWidth_eq] at value
    exact value
  have whole := reads []
  rw [append_nil] at whole
  rw [timestampKey, getKey, whole]
  rfl

theorem entryOf_record (fits : key.timestamp < 2 ^ 32) : entryOf (record key) = some key := by
  rw [entryOf, record, getKey_timestampKey fits, Option.bind_some]
  exact if_pos rfl

theorem head_of_entryOf {entry : List UInt8 × List UInt8} (found : entryOf entry = some key) :
    entry.1.head? = some DB_TIMESTAMPINDEX := by
  obtain ⟨both, read, rest⟩ := Option.bind_eq_some_iff.mp found
  split_ifs at rest with tag
  obtain ⟨bytes, value⟩ := entry
  cases bytes with
  | nil => cases read
  | cons first bytes =>
    obtain ⟨taken, -, same⟩ := Option.map_eq_some_iff.mp read
    rw [← same] at tag
    exact congrArg some tag

theorem before_timestampKey {low : Nat} (fits : key.timestamp < 2 ^ 32) (small : low < 2 ^ 32) (rest : List UInt8) :
    before (timestampKey key) (DB_TIMESTAMPINDEX :: (bigBytes 4 low ++ rest)) = true ↔
      key.timestamp < low ∨ key.timestamp = low ∧ before (littleBytes 32 key.blockHash.toNat) rest = true := by
  rw [timestampKey, serializeTimestampIndexKey, before_cons, before_append _ _ (by rw [length_bigBytes, length_bigBytes]),
    before_bigBytes 4 fits small]
  constructor
  · rintro (less | ⟨-, less | ⟨same, later⟩⟩)
    · exact absurd less (UInt8.lt_irrefl _)
    · exact .inl less
    · exact .inr ⟨bigBytes_inj 4 fits small same, later⟩
  · rintro (less | ⟨same, later⟩)
    · exact .inr ⟨rfl, .inl less⟩
    · exact .inr ⟨rfl, .inr ⟨by rw [same], later⟩⟩

section Scan

variable {hashGenesisBlock : Uint256} {index : Index} {nTime : Nat → Nat} {tip : Option Nat} {s : ChainState} {db : LevelDB}
  {vChain : VChain} {pindex : Nat}

theorem readEntries_eq {high : Nat} {fActiveOnly : Bool} {isListed : CTimestampIndexKey → Bool}
    (known : ∀ entry ∈ db, ∀ key, entryOf entry = some key → listed index vChain fActiveOnly key.blockHash = .ok (isListed key)) :
    readEntries index vChain high fActiveOnly db = .ok ((((db.takeWhile fun entry => (entryOf entry).any fun key =>
      decide (key.timestamp < high)).filterMap entryOf).filter isListed).map fun key => (key.blockHash, key.timestamp)) := by
  induction db with
  | nil => rfl
  | cons entry rest ih =>
    have later := ih (forall_mem_cons.mp known).2
    rw [readEntries, takeWhile_cons]
    cases read : getKey unserializeTimestampIndexKey entry.1 with
    | none =>
      rw [entryOf, read]
      rfl
    | some key =>
      dsimp only
      by_cases tag : key.1 = DB_TIMESTAMPINDEX
      · have isEntry : entryOf entry = some key.2 := by
          rw [entryOf, read, Option.bind_some, if_pos tag]
        rw [isEntry, Option.any_some]
        by_cases below : key.2.timestamp < high
        · rw [if_pos ⟨tag, below⟩, known entry mem_cons_self key.2 isEntry, later, decide_eq_true below, if_pos rfl,
            filterMap_cons, isEntry, filter_cons]
          dsimp only [bind, Except.bind]
          cases isListed key.2 <;> rfl
        · rw [if_neg fun both => below both.2, decide_eq_false below, if_neg Bool.false_ne_true]
          rfl
      · have none' : entryOf entry = none := by
          rw [entryOf, read, Option.bind_some, if_neg tag]
        rw [none', if_neg fun both => tag both.1]
        rfl

def timeKey (index : Index) (nTime : Nat → Nat) (pindex : Nat) : CTimestampIndexKey :=
  ⟨logicalTime index nTime pindex, blockHash index pindex⟩

section

variable (shape : WellFormed index) (early : Early index nTime) (stored : Records index nTime db)
include shape early stored

theorem entryOf_some {entry : List UInt8 × List UInt8}
    (member : entry ∈ db) {key : CTimestampIndexKey} (found : entryOf entry = some key) :
    ∃ pindex, Descends index pindex ∧ entry = timeEntry index nTime pindex ∧ key = timeKey index nTime pindex := by
  obtain ⟨pindex, descends, same⟩ := stored.times entry member (head_of_entryOf found)
  have fits : (timeKey index nTime pindex).timestamp < 2 ^ 32 := logicalTime_lt shape early descends.1
  have read := entryOf_record fits
  rw [same] at found
  exact ⟨pindex, descends, same, Option.some.inj (found.symm.trans read)⟩

theorem mem_records {key : CTimestampIndexKey} :
    key ∈ records entryOf db ↔ ∃ pindex, Descends index pindex ∧ timeEntry index nTime pindex ∈ db ∧ key = timeKey index nTime pindex := by
  rw [records, mem_filterMap]
  constructor
  · rintro ⟨entry, member, found⟩
    obtain ⟨pindex, descends, same, isKey⟩ := entryOf_some shape early stored member found
    exact ⟨pindex, descends, same ▸ member, isKey⟩
  · rintro ⟨pindex, descends, member, rfl⟩
    have fits : (timeKey index nTime pindex).timestamp < 2 ^ 32 := logicalTime_lt shape early descends.1
    exact ⟨_, member, entryOf_record fits⟩

theorem scan_range {low : Nat} (small : low < 2 ^ 32)
    (high : Nat) : scan entryOf (fun key => decide (key.timestamp < high)) (DB_TIMESTAMPINDEX :: bigBytes 4 low) db =
      (records entryOf db).filter fun key => decide (low ≤ key.timestamp) && decide (key.timestamp < high) := by
  have fits {key : CTimestampIndexKey} (member : key ∈ records entryOf db) : key.timestamp < 2 ^ 32 := by
    obtain ⟨pindex, descends, -, rfl⟩ := (mem_records shape early stored).mp member
    exact logicalTime_lt shape early descends.1
  have seeks {key : CTimestampIndexKey} (member : key ∈ records entryOf db) :
      before (record key).1 (DB_TIMESTAMPINDEX :: bigBytes 4 low) = true ↔ key.timestamp < low := by
    have order := before_timestampKey (fits member) small []
    have never : before (littleBytes 32 key.blockHash.toNat) [] = false := by cases littleBytes 32 key.blockHash.toNat <;> rfl
    rw [append_nil, never] at order
    exact order.trans ⟨fun either => either.resolve_right fun both => absurd both.2 Bool.false_ne_true, .inl⟩
  have above {key : CTimestampIndexKey} (member : key ∈ records entryOf db)
      (after : before (record key).1 (DB_TIMESTAMPINDEX :: bigBytes 4 low) = false) : low ≤ key.timestamp := by
    by_contra less
    rw [(seeks member).mpr (not_le.mp less)] at after
    cases after
  refine (coded_scan_exact record stored.ordered ?_ ?_ ?_ ?_).mpr ?_
  · intro entry member key found
    obtain ⟨pindex, -, same, rfl⟩ := entryOf_some shape early stored member found
    exact same.symm
  · intro entry member after key isKey below
    obtain ⟨rest, shape'⟩ := front_of_between [DB_TIMESTAMPINDEX] after below
    obtain ⟨pindex, descends, same⟩ := stored.times entry member (by rw [shape']; rfl)
    have small' : (timeKey index nTime pindex).timestamp < 2 ^ 32 := logicalTime_lt shape early descends.1
    exact ⟨_, (congrArg entryOf same).trans (entryOf_record small')⟩
  · intro key member wants
    rw [Bool.and_eq_true, decide_eq_true_eq, decide_eq_true_eq] at wants
    exact Bool.eq_false_iff.mpr fun less => absurd ((seeks member).mp less) (not_lt.mpr wants.1)
  · intro key member wants key' member' _ notAfter
    rw [Bool.and_eq_true, decide_eq_true_eq, decide_eq_true_eq] at wants
    refine decide_eq_true (lt_of_le_of_lt ?_ wants.2)
    by_contra later
    have order := (before_timestampKey (fits member) (fits member') (littleBytes 32 key'.blockHash.toNat)).mpr (.inl (not_le.mp later))
    exact Bool.false_ne_true (notAfter.symm.trans order)
  · intro key member after goes unwanted
    rw [decide_eq_true (above member after), goes] at unwanted
    cases unwanted

end

section

variable (shape : WellFormed index) (path : Path index tip vChain)
include shape path

theorem blockOnchainActive_eq (inside : pindex < index.length) :
    ∃ answer, blockOnchainActive index vChain (blockHash index pindex) = .ok answer ∧ (answer = true ↔ InChain index tip pindex) := by
  obtain ⟨block, here⟩ := exists_of_lt inside
  obtain ⟨answer, checked, meaning⟩ := path.contains_eq shape inside
  refine ⟨answer, ?_, meaning⟩
  rw [blockOnchainActive, blockHash_eq here, shape.find_eq here]
  exact checked

theorem mem_vChain : some pindex ∈ vChain ↔ InChain index tip pindex := by
  cases tip with
  | none =>
    rw [show vChain = [] from path]
    exact ⟨nofun, fun ⟨_, nothing, _⟩ => by cases nothing⟩
  | some top =>
    obtain ⟨-, length, slots⟩ := path
    rw [mem_iff_getElem?]
    constructor
    · rintro ⟨height, slot⟩
      have place := (List.getElem?_eq_some_iff.mp slot).1
      rw [slots height (by omega), Option.some.injEq] at slot
      exact ⟨top, rfl, _, slot⟩
    · rintro ⟨other, same, below⟩
      cases same
      obtain ⟨low, found⟩ := shape.graded.ancestor_iff.mp below
      exact ⟨_, (slots _ low).trans (congrArg some found)⟩

theorem vChain_rising : vChain.Pairwise fun slot slot' =>
    ∀ first ∈ slot, ∀ second ∈ slot', logicalTime index nTime first < logicalTime index nTime second := by
  rw [pairwise_iff_getElem]
  intro low high inside inside' order first isFirst second isSecond
  have slot : vChain[high]? = some (some second) := (getElem?_eq_getElem inside').trans (congrArg some isSecond)
  have below := path.consistent (high + 1) high (Nat.lt_succ_self high) second slot low order.le
  rw [getElem?_eq_getElem inside, Option.some.injEq, isFirst] at below
  obtain ⟨count, steps⟩ := Nat.exists_eq_succ_of_ne_zero (by omega : high - low ≠ 0)
  rw [steps] at below
  exact (logicalTime_stamps shape).lt_of_climb below.symm

end

/-- What is to be listed: a block with a parent on the active chain with a time in the range. -/
def Wanted (index : Index) (nTime : Nat → Nat) (tip : Option Nat) (low high : Nat) (pair : Uint256 × Nat) : Prop :=
  ∃ pindex, Descends index pindex ∧ InChain index tip pindex ∧ (low ≤ logicalTime index nTime pindex ∧ logicalTime index nTime pindex < high) ∧
    (blockHash index pindex, logicalTime index nTime pindex) = pair

theorem inChain_lt (shape : WellFormed index) (path : Path index tip vChain) (member : InChain index tip pindex) : pindex < index.length := by
  obtain ⟨top, isTop, count, found⟩ := member
  rw [isTop] at path
  exact shape.ancestor_lt path.1 found

section

variable (shape : WellFormed index) (rooted : Rooted hashGenesisBlock index) (early : Early index nTime)
  (holds : Holds index nTime tip s)
include shape rooted early holds

theorem between_eq (member : InChain index tip pindex) {low high : Nat} {pair : Uint256 × Nat} :
    between hashGenesisBlock index s.pblocktree low high (some pindex) = some pair ↔
      Descends index pindex ∧ (low ≤ logicalTime index nTime pindex ∧ logicalTime index nTime pindex < high) ∧
        (blockHash index pindex, logicalTime index nTime pindex) = pair := by
  have inside := inChain_lt shape holds.path member
  obtain ⟨block, here⟩ := exists_of_lt inside
  rw [between, Option.bind_eq_bind, Option.bind_some, here, Option.bind_eq_bind, Option.bind_some, ← blockHash_eq here]
  cases up : pprev index pindex with
  | none =>
    have genesis := (rooted pindex block here).mp ((pprev_eq here).symm.trans up)
    rw [← blockHash_eq here] at genesis
    constructor
    · intro found
      obtain ⟨logicalTS, -, rest⟩ := Option.bind_eq_some_iff.mp found
      rw [if_neg fun both => both.1 genesis] at rest
      cases rest
    · rintro ⟨⟨-, above, found⟩, -⟩
      rw [up] at found
      cases found
  | some above =>
    have descends : Descends index pindex := ⟨inside, above, up⟩
    have other : blockHash index pindex ≠ hashGenesisBlock := fun same => by
      rw [blockHash_eq here] at same
      rw [pprev_eq here, (rooted pindex block here).mpr same] at up
      cases up
    rw [read_stored holds.records.ordered (logicalTime_lt shape early inside) (holds.chain pindex descends member), Option.bind_some]
    constructor
    · intro found
      split_ifs at found with range
      exact ⟨descends, range.2, Option.some.inj found⟩
    · rintro ⟨-, range, same⟩
      rw [if_pos ⟨other, range⟩, same]

theorem mem_activeBetween {low high : Nat} {pair : Uint256 × Nat} :
    pair ∈ activeBetween hashGenesisBlock index s low high ↔ Wanted index nTime tip low high pair := by
  rw [activeBetween, mem_filterMap]
  constructor
  · rintro ⟨slot, member, found⟩
    cases slot with
    | none => cases found
    | some pindex =>
      have active := (mem_vChain shape holds.path).mp member
      obtain ⟨descends, range, same⟩ := (between_eq shape rooted early holds active).mp found
      exact ⟨pindex, descends, active, range, same⟩
  · rintro ⟨pindex, descends, active, range, same⟩
    exact ⟨some pindex, (mem_vChain shape holds.path).mpr active, (between_eq shape rooted early holds active).mpr ⟨descends, range, same⟩⟩

theorem activeBetween_rising {low high : Nat} :
    (activeBetween hashGenesisBlock index s low high).Pairwise fun first second => first.2 < second.2 := by
  rw [activeBetween, pairwise_filterMap]
  have rising := @vChain_rising index nTime tip s.chainActive shape holds.path
  refine rising.imp_of_mem fun {slot slot'} member member' order first found second found' => ?_
  cases slot with
  | none => cases found
  | some one =>
    cases slot' with
    | none => cases found'
    | some two =>
      obtain ⟨-, -, rfl⟩ := (between_eq shape rooted early holds ((mem_vChain shape holds.path).mp member)).mp found
      obtain ⟨-, -, rfl⟩ := (between_eq shape rooted early holds ((mem_vChain shape holds.path).mp member')).mp found'
      exact order one rfl two rfl

end

theorem records_ordered (shape : WellFormed index) (early : Early index nTime) (stored : Records index nTime db) :
    (records entryOf db).Pairwise fun key key' => before (timestampKey key) (timestampKey key') = true := by
  rw [records, pairwise_filterMap]
  refine stored.ordered.imp_of_mem fun {entry entry'} member member' order key found key' found' => ?_
  obtain ⟨pindex, -, same, rfl⟩ := entryOf_some shape early stored member found
  obtain ⟨pindex', -, same', rfl⟩ := entryOf_some shape early stored member' found'
  rw [same, same'] at order
  exact order

theorem lt_of_before (shape : WellFormed index) (early : Early index nTime) {other : Nat} (inside : pindex < index.length)
    (inside' : other < index.length) (active : InChain index tip pindex) (active' : InChain index tip other)
    (order : before (timestampKey (timeKey index nTime pindex)) (timestampKey (timeKey index nTime other)) = true) :
    logicalTime index nTime pindex < logicalTime index nTime other := by
  have fits : (timeKey index nTime pindex).timestamp < 2 ^ 32 := logicalTime_lt shape early inside
  rcases (before_timestampKey fits (logicalTime_lt shape early inside') _).mp order with less | ⟨same, later⟩
  · exact less
  · obtain ⟨top, isTop, below⟩ := active
    obtain ⟨top', isTop', below'⟩ := active'
    rw [isTop] at isTop'
    cases isTop'
    rw [(logicalTime_stamps shape).eq_of_ancestor shape.graded below below' same, before_irrefl] at order
    cases order

theorem readTimestampIndex_eq (shape : WellFormed index) (rooted : Rooted hashGenesisBlock index) (early : Early index nTime)
    (holds : Holds index nTime tip s) {low : Nat} (small : low < 2 ^ 32) (high : Nat) :
    readTimestampIndex index s high low true = .ok (activeBetween hashGenesisBlock index s low high) := by
  let isActive (key : CTimestampIndexKey) : Bool := (blockOnchainActive index s.chainActive key.blockHash).toOption.getD false
  have active {pindex : Nat} (inside : pindex < index.length) :
      listed index s.chainActive true (timeKey index nTime pindex).blockHash = .ok (isActive (timeKey index nTime pindex)) ∧
        (isActive (timeKey index nTime pindex) = true ↔ InChain index tip pindex) := by
    obtain ⟨answer, checked, meaning⟩ := blockOnchainActive_eq shape holds.path inside
    have same : isActive (timeKey index nTime pindex) = answer := by
      dsimp only [isActive, timeKey]
      rw [checked]
      rfl
    rw [same]
    exact ⟨(if_pos rfl).trans checked, meaning⟩
  have found {key : CTimestampIndexKey} :
      key ∈ ((records entryOf s.pblocktree).filter fun key => decide (low ≤ key.timestamp) && decide (key.timestamp < high)).filter isActive ↔
        ∃ pindex, Descends index pindex ∧ InChain index tip pindex ∧
          (low ≤ logicalTime index nTime pindex ∧ logicalTime index nTime pindex < high) ∧ key = timeKey index nTime pindex := by
    rw [mem_filter, mem_filter, mem_records shape early holds.records, Bool.and_eq_true, decide_eq_true_eq, decide_eq_true_eq]
    constructor
    · rintro ⟨⟨⟨pindex, descends, -, rfl⟩, range⟩, isListed⟩
      exact ⟨pindex, descends, (active descends.1).2.mp isListed, range, rfl⟩
    · rintro ⟨pindex, descends, inChain, range, rfl⟩
      have stored := holds.records.timed pindex descends (holds.chain pindex descends inChain)
      exact ⟨⟨⟨pindex, descends, stored, rfl⟩, range⟩, (active descends.1).2.mpr inChain⟩
  have scanned := scan_range shape early holds.records small high
  rw [scan] at scanned
  rw [readTimestampIndex, readEntries_eq fun entry member key isKey => ?_, scanned]
  · refine congrArg Except.ok (eq_of_rising ?_ (activeBetween_rising shape rooted early holds) fun pair => ?_)
    · rw [pairwise_map]
      refine (((records_ordered shape early holds.records).filter _).filter _).imp_of_mem fun {key key'} member member' order => ?_
      obtain ⟨pindex, descends, inChain, -, rfl⟩ := found.mp member
      obtain ⟨other, descends', inChain', -, rfl⟩ := found.mp member'
      exact lt_of_before shape early descends.1 descends'.1 inChain inChain' order
    · rw [mem_activeBetween shape rooted early holds, mem_map]
      constructor
      · rintro ⟨key, member, same⟩
        obtain ⟨pindex, descends, inChain, range, rfl⟩ := found.mp member
        exact ⟨pindex, descends, inChain, range, same⟩
      · rintro ⟨pindex, descends, inChain, range, same⟩
        exact ⟨timeKey index nTime pindex, found.mpr ⟨pindex, descends, inChain, range, rfl⟩, same⟩
  · obtain ⟨pindex, descends, -, rfl⟩ := entryOf_some shape early holds.records ((dropWhile_sublist _).subset member) isKey
    exact (active descends.1).1

end Scan

/-- What the index holds after a run: a logical time for every block that was connected and for every active block but the
genesis block, not before the block's own time and after that of its parent; and the list of the active blocks in a range. -/
structure OrdersChain (hashGenesisBlock : Uint256) (index : Index) (nTime : Nat → Nat) (calls : List Call) (s : ChainState) : Prop where
  stored : ∀ (pindex : Nat) (block : CBlockIndex), index[pindex]? = some block → block.hash ≠ hashGenesisBlock →
    (Call.connectTip pindex ∈ calls ∨ some pindex ∈ s.chainActive) → ∃ logicalTS, readTimestampBlockIndex block.hash s.pblocktree = some logicalTS
  own : ∀ (pindex : Nat) (block : CBlockIndex), index[pindex]? = some block → ∀ logicalTS,
    readTimestampBlockIndex block.hash s.pblocktree = some logicalTS → nTime pindex ≤ logicalTS
  parent : ∀ (pindex : Nat) (block : CBlockIndex), index[pindex]? = some block → ∀ logicalTS,
    readTimestampBlockIndex block.hash s.pblocktree = some logicalTS → ∀ (prev : Nat) (above : CBlockIndex), block.pprev = some prev →
      index[prev]? = some above → above.hash ≠ hashGenesisBlock →
      ∃ prevLogicalTS, readTimestampBlockIndex above.hash s.pblocktree = some prevLogicalTS ∧ prevLogicalTS < logicalTS
  range : ∀ low < 2 ^ 32, ∀ high, readTimestampIndex index s high low true = .ok (activeBetween hashGenesisBlock index s low high)

/-- Logical times order the chain in every run of `ConnectBlock` over a tree of blocks. -/
theorem timestamps_order_chain {builds : List Build} {index : Index} (built : builds.foldlM build [] = .ok index) {hashGenesisBlock : Uint256}
    (rooted : Rooted hashGenesisBlock index) {nTime : Nat → Nat} (early : Early index nTime) {calls : List Call}
    (allowed : ∀ c ∈ calls, c.Allowed) {s : ChainState} (done : calls.foldlM (call hashGenesisBlock index nTime) ⟨[], []⟩ = .ok s) :
    OrdersChain hashGenesisBlock index nTime calls s := by
  have shape := empty.of_built built
  obtain ⟨⟨tip, holds⟩, -, connects⟩ := calls_kept shape rooted early holds_start allowed done
  have descends {pindex : Nat} {block : CBlockIndex} (here : index[pindex]? = some block) (other : block.hash ≠ hashGenesisBlock) :
      Descends index pindex := by
    refine ⟨lt_of_here here, Option.ne_none_iff_exists'.mp fun bottom => other ((rooted pindex block here).mp ?_)⟩
    rw [← pprev_eq here, bottom]
  have isRead {pindex : Nat} {block : CBlockIndex} (here : index[pindex]? = some block)
      (stored : blockEntry index nTime pindex ∈ s.pblocktree) :
      readTimestampBlockIndex block.hash s.pblocktree = some (logicalTime index nTime pindex) := by
    rw [← blockHash_eq here]
    exact read_stored holds.records.ordered (logicalTime_lt shape early (lt_of_here here)) stored
  have isLogical {pindex : Nat} {block : CBlockIndex} (here : index[pindex]? = some block) {logicalTS : Nat}
      (read : readTimestampBlockIndex block.hash s.pblocktree = some logicalTS) :
      Descends index pindex ∧ logicalTS = logicalTime index nTime pindex ∧ blockEntry index nTime pindex ∈ s.pblocktree := by
    rw [← blockHash_eq here] at read
    exact read_some shape early holds.records (lt_of_here here) read
  refine ⟨?_, ?_, ?_, fun low small high => readTimestampIndex_eq shape rooted early holds small high⟩
  · intro pindex block here other was
    have known := descends here other
    exact ⟨_, isRead here (was.elim (fun member => connects pindex member known) fun member =>
      holds.chain pindex known ((mem_vChain shape holds.path).mp member))⟩
  · intro pindex block here logicalTS read
    obtain ⟨⟨-, above, up⟩, rfl, -⟩ := isLogical here read
    exact (logicalTime_stamps shape).time_le up
  · intro pindex block here logicalTS read prev above parent there other
    obtain ⟨known, rfl, stored⟩ := isLogical here read
    have up := (pprev_eq here).trans parent
    exact ⟨_, isRead there (holds.records.closed pindex known stored prev up (descends there other)), (logicalTime_stamps shape).lt_child up⟩

/-- A reorganisation and back, with children that are older than their parents. -/
def sampleCalls : List Call := [.connectTip 0, .connectTip 1, .connectTip 2, .disconnectTip, .disconnectTip, .connectTip 3,
  .disconnectTip, .connectTip 1, .connectTip 2]

def sampleTimes (pindex : Nat) : Nat := 50 - 10 * pindex

theorem timestamps_order_chain_branches : ∃ s, sampleCalls.foldlM (call 0 branches sampleTimes) ⟨[], []⟩ = .ok s ∧
    OrdersChain 0 branches sampleTimes sampleCalls s := by
  have runs : (sampleCalls.foldlM (call 0 branches sampleTimes) ⟨[], []⟩).toOption.isSome = true := by decide +kernel
  have rooted : Rooted 0 branches := fun _ block here =>
    (by decide : ∀ block ∈ branches, (block.pprev = none ↔ block.hash = 0)) block (mem_of_getElem? here)
  have early : Early branches sampleTimes := fun pindex inside other _ => by
    have low := (by decide : ∀ pindex < branches.length, nHeight branches pindex ≤ 2) pindex inside
    rw [sampleTimes]
    omega
  cases done : sampleCalls.foldlM (call 0 branches sampleTimes) ⟨[], []⟩ with
  | error fault =>
    rw [done] at runs
    cases runs
  | ok s =>
    refine ⟨s, rfl, timestamps_order_chain branches_built rooted early ?_ done⟩
    intro c member
    simp only [sampleCalls, mem_cons, not_mem_nil, or_false] at member
    rcases member with rfl | rfl | rfl | rfl | rfl | rfl | rfl | rfl | rfl <;> exact trivial

example : ((sampleCalls.foldlM (call 0 branches sampleTimes) ⟨[], []⟩).toOption.map fun s =>
    (readTimestampIndex branches s 42 20 true).toOption) = some (some [(1, 40), (2, 41)]) := by decide +kernel

end Longcoin.TimestampIndex

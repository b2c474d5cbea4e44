import Longcoin.AddressScanExact

/-! The scans over every database that the writes of the indexes lead to. -/

namespace Longcoin.AddressScan
open Primitives BlockTreeDB Library Bytes ByteStore Form List Option Bool Function

structure Kept (db : LevelDB) : Prop where
  ordered : Ordered db
  address : addressForm.Written db
  unspent : addressUnspentForm.Written db

theorem kept_nil : Kept [] :=
  ⟨Pairwise.nil, nofun, nofun⟩

theorem Form.put_written {K V : Type} {cursor : Cursor K V} {form : Form cursor} {db : LevelDB} (written : form.Written db)
    {key : List UInt8} {value : DbValue}
    (fresh : key.head? = some cursor.prefixByte → ∃ item, form.stored item.1 ∧ (key, value) = form.record item) :
    form.Written (put key value db) := by
  intro entry member tag
  rcases mem_put member with rfl | old
  · exact fresh tag
  · exact written entry old tag

theorem Form.erase_written {K V : Type} {cursor : Cursor K V} {form : Form cursor} {db : LevelDB} (written : form.Written db)
    (key : List UInt8) : form.Written (erase key db) := fun entry member => written entry (mem_filter.mp member).1

namespace Kept

section

variable {db : LevelDB} (kept : Kept db)
include kept

theorem erase (key : List UInt8) : Kept (ByteStore.erase key db) :=
  ⟨erase_ordered key kept.ordered, erase_written kept.address key, erase_written kept.unspent key⟩

theorem put {key : List UInt8} {value : DbValue}
    (address : key.head? = some DB_ADDRESSINDEX → ∃ item, Stored item.1 ∧ (key, value) = addressForm.record item)
    (unspent : key.head? = some DB_ADDRESSUNSPENTINDEX →
      ∃ item, StoredUnspent item.1 ∧ (key, value) = addressUnspentForm.record item) : Kept (ByteStore.put key value db) :=
  ⟨put_ordered kept.ordered, put_written kept.address address, put_written kept.unspent unspent⟩

theorem putAddress {key : CAddressIndexKey} (height : key.blockHeight < 2 ^ 31)
    (nValue : CAmount) : Kept (ByteStore.put (DB_ADDRESSINDEX :: serializeAddressIndexKey key) (.amount nValue) db) := by
  refine kept.put (fun _ => ⟨(storedKey key, nValue), storedKey_stored height, ?_⟩) fun tag => ?_
  · exact congrArg (fun bytes => (DB_ADDRESSINDEX :: bytes, DbValue.amount nValue)) (serialize_storedKey key).symm
  · cases some.inj tag

theorem putUnspent (key : CAddressUnspentKey) (nValue : CAddressUnspentValue) :
    Kept (ByteStore.put (DB_ADDRESSUNSPENTINDEX :: serializeAddressUnspentKey key) (.unspent nValue) db) := by
  refine kept.put (fun tag => ?_) fun _ => ⟨(storedUnspentKey key, nValue), storedUnspentKey_stored key, ?_⟩
  · cases some.inj tag
  · exact congrArg (fun bytes => (DB_ADDRESSUNSPENTINDEX :: bytes, DbValue.unspent nValue)) (serialize_storedUnspentKey key).symm

theorem write {change : Write} (allowed : change.Allowed) : Kept (AddressScan.write db change) := by
  cases change with
  | writeAddressIndex vect =>
    exact foldlRecOn vect _ kept fun _ now entry member => now.putAddress (allowed entry member) entry.2
  | eraseAddressIndex vect => exact foldlRecOn vect _ kept fun _ now _ _ => now.erase _
  | updateAddressUnspentIndex vect =>
    refine foldlRecOn vect _ kept fun _ now entry _ => ?_
    split
    · exact now.erase _
    · exact now.putUnspent entry.1 entry.2
  | put key value => exact kept.put (fun tag => absurd tag allowed.1) fun tag => absurd tag allowed.2
  | erase key => exact kept.erase key

end

theorem run {writes : List Write} (allowed : ∀ change ∈ writes, change.Allowed) : Kept (writes.foldl AddressScan.write []) :=
  foldlRecOn writes _ kept_nil fun _ now change member => now.write (allowed change member)

end Kept

section Refines
variable {K V : Type} {cursor : Cursor K V} {form : Form cursor}

/-- One entry of a batch. -/
def Form.change (form : Form cursor) (erases : Bool) (item : K × V) (db : LevelDB) : LevelDB :=
  if erases then ByteStore.erase (form.record item).1 db else ByteStore.put (form.record item).1 (form.record item).2 db

/-- The records of the database are the entries of an index. -/
structure Form.Mirrors (form : Form cursor) (db : LevelDB) (index : K → Option V) : Prop where
  ordered : Ordered db
  written : form.Written db
  holds : ∀ key nValue, (key, nValue) ∈ records cursor.entryOf db ↔ index key = some nValue

theorem Form.serialize_inj {key key' : K} (stored : form.stored key) (stored' : form.stored key')
    (same : form.serialize key = form.serialize key') : key = key' := by
  have one := form.reads key stored []
  rw [same, form.reads key' stored' []] at one
  cases one
  rfl

theorem Form.head_of_entryOf {entry : List UInt8 × DbValue} {item : K × V} (found : cursor.entryOf entry = some item) :
    entry.1.head? = some cursor.prefixByte := by
  obtain ⟨key, read, rest⟩ := bind_eq_some_iff.mp found
  split at rest
  next tag => rw [head_of_getKey read, tag]
  next => cases rest

theorem Form.mem_change {db : LevelDB} (ordered : Ordered db) {erases : Bool} {item : K × V} {entry : List UInt8 × DbValue} :
    entry ∈ form.change erases item db ↔ erases = false ∧ entry = form.record item ∨ entry ∈ db ∧ entry.1 ≠ (form.record item).1 := by
  cases erases with
  | true => simp [change, ByteStore.erase]
  | false => exact (mem_put_iff ordered).trans (by simp)

namespace Form.Mirrors

theorem nil : form.Mirrors [] fun _ => none := ⟨Pairwise.nil, nofun, fun _ _ => iff_of_false not_mem_nil (Option.some_ne_none _).symm⟩

section
variable {db : LevelDB} {index : K → Option V} (mirrors : form.Mirrors db index)
include mirrors

theorem frame {db' : LevelDB} (ordered : Ordered db')
    (same : ∀ entry, entry.1.head? = some cursor.prefixByte → (entry ∈ db' ↔ entry ∈ db)) : form.Mirrors db' index where
  ordered := ordered
  written entry member tag := mirrors.written entry ((same entry tag).mp member) tag
  holds key nValue := by
    rw [← mirrors.holds, records, records, mem_filterMap, mem_filterMap]
    exact exists_congr fun entry => and_congr_left fun found => same entry (head_of_entryOf found)

theorem put {key : List UInt8} {value : DbValue} (other : key.head? ≠ some cursor.prefixByte) :
    form.Mirrors (ByteStore.put key value db) index := by
  refine mirrors.frame (put_ordered mirrors.ordered) fun entry tag => (mem_put_iff mirrors.ordered).trans ?_
  have apart : entry.1 ≠ key := fun same => other (same ▸ tag)
  exact ⟨fun either => (either.resolve_left fun same => apart (congrArg Prod.fst same)).1, fun there => .inr ⟨there, apart⟩⟩

theorem erase {key : List UInt8} (other : key.head? ≠ some cursor.prefixByte) : form.Mirrors (ByteStore.erase key db) index := by
  refine mirrors.frame (erase_ordered key mirrors.ordered) fun entry tag => mem_filter.trans (and_iff_left ?_)
  exact bne_iff_ne.mpr fun same => other (same ▸ tag)

variable [DecidableEq K]

theorem change (erases : Bool) {item : K × V} (stored : form.stored item.1) :
    form.Mirrors (form.change erases item db) (update index item.1 (if erases then none else some item.2)) where
  ordered := by
    unfold Form.change
    split
    · exact erase_ordered _ mirrors.ordered
    · exact put_ordered mirrors.ordered
  written entry member tag := by
    rcases (mem_change mirrors.ordered).mp member with ⟨-, rfl⟩ | ⟨old, -⟩
    · exact ⟨item, stored, rfl⟩
    · exact mirrors.written entry old tag
  holds key nValue := by
    simp only [records, mem_filterMap, mem_change mirrors.ordered]
    by_cases same : key = item.1
    · rw [same, update_self]
      constructor
      · rintro ⟨entry, ⟨written, rfl⟩ | ⟨member, other⟩, found⟩
        · rw [entryOf_record stored] at found
          rw [written]
          exact congrArg (fun item => some item.2) (some.inj found)
        · obtain ⟨-, rfl⟩ := entryOf_some mirrors.written member found
          exact absurd rfl other
      · cases erases with
        | true => exact (absurd · (by simp))
        | false =>
          intro equal
          obtain rfl := some.inj equal
          exact ⟨_, .inl ⟨rfl, rfl⟩, entryOf_record stored⟩
    · rw [update_of_ne same, ← mirrors.holds, records, mem_filterMap]
      constructor
      · rintro ⟨entry, ⟨-, rfl⟩ | ⟨member, -⟩, found⟩
        · rw [entryOf_record stored] at found
          exact absurd (congrArg Prod.fst (some.inj found)).symm same
        · exact ⟨entry, member, found⟩
      · rintro ⟨entry, member, found⟩
        refine ⟨entry, .inr ⟨member, fun equal => same ?_⟩, found⟩
        obtain ⟨stored', rfl⟩ := entryOf_some mirrors.written member found
        exact serialize_inj stored' stored (cons.inj equal).2

theorem batch (erases : K × V → Bool) {vect : List (K × V)} (stored : ∀ item ∈ vect, form.stored item.1) :
    form.Mirrors (vect.foldl (fun db item => form.change (erases item) item db) db) (writeBatch erases vect index) := by
  induction vect generalizing db index with
  | nil => exact mirrors
  | cons item vect ih =>
    obtain ⟨here, later⟩ := forall_mem_cons.mp stored
    exact ih (mirrors.change (erases item) here) later

end

end Form.Mirrors

end Refines

/-- The indexes as maps. Other records are in neither. -/
def writeMaps (tree : CBlockTreeDB) : Write → CBlockTreeDB
  | .writeAddressIndex vect => tree.writeAddressIndex vect
  | .eraseAddressIndex vect => tree.eraseAddressIndex vect
  | .updateAddressUnspentIndex vect => tree.updateAddressUnspentIndex vect
  | .put _ _ | .erase _ => tree

/-- The keys fit their fields, and the other records have another prefix. -/
def Write.Fits : Write → Prop
  | .writeAddressIndex vect | .eraseAddressIndex vect => ∀ entry ∈ vect, Stored entry.1
  | .updateAddressUnspentIndex vect => ∀ entry ∈ vect, StoredUnspent entry.1
  | .put key _ | .erase key => key.head? ≠ some DB_ADDRESSINDEX ∧ key.head? ≠ some DB_ADDRESSUNSPENTINDEX

/-- Whatever is written in whatever order, the records of each index are the entries of its map. -/
theorem records_refine {writes : List Write} (fit : ∀ change ∈ writes, change.Fits) :
    (∀ key nValue, (key, nValue) ∈ addressIndex (writes.foldl write []) ↔
      (writes.foldl writeMaps {}).addressIndex key = some nValue) ∧
    ∀ key nValue, (key, nValue) ∈ addressUnspentIndex (writes.foldl write []) ↔
      (writes.foldl writeMaps {}).addressUnspentIndex key = some nValue := by
  suffices both : addressForm.Mirrors (writes.foldl write []) (writes.foldl writeMaps {}).addressIndex ∧
      addressUnspentForm.Mirrors (writes.foldl write []) (writes.foldl writeMaps {}).addressUnspentIndex from
    ⟨both.1.holds, both.2.holds⟩
  refine foldl_rel (r := fun db (tree : CBlockTreeDB) => addressForm.Mirrors db tree.addressIndex ∧
    addressUnspentForm.Mirrors db tree.addressUnspentIndex) ⟨.nil, .nil⟩ fun change member db tree mirrors => ?_
  obtain ⟨address, unspent⟩ := mirrors
  have apart : some DB_ADDRESSINDEX ≠ some DB_ADDRESSUNSPENTINDEX := by decide
  have fits := fit change member
  cases change with
  | writeAddressIndex vect =>
    exact ⟨address.batch (fun _ => false) fits, foldlRecOn (motive := fun db => addressUnspentForm.Mirrors db _) vect _ unspent
      fun _ now _ _ => now.put apart⟩
  | eraseAddressIndex vect =>
    exact ⟨address.batch (fun _ => true) fits, foldlRecOn (motive := fun db => addressUnspentForm.Mirrors db _) vect _ unspent
      fun _ now _ _ => now.erase apart⟩
  | updateAddressUnspentIndex vect =>
    refine ⟨foldlRecOn (motive := fun db => addressForm.Mirrors db _) vect _ address fun _ now _ _ => ?_,
      unspent.batch (fun entry => entry.2.isNull) fits⟩
    split
    · exact now.erase apart.symm
    · exact now.put apart.symm
  | put key value => exact ⟨address.put fits.1, unspent.put fits.2⟩
  | erase key => exact ⟨address.erase fits.1, unspent.erase fits.2⟩

def sampleWrites : List Write :=
  [.writeAddressIndex [(⟨1, 7, 10, 0, 100, 0, false⟩, 5)], .put [98] .other,
    .updateAddressUnspentIndex [(⟨1, 7, 100, 0⟩, { satoshis := 5, blockHeight := 10 })], .eraseAddressIndex [(⟨1, 7, 10, 0, 100, 0, false⟩, 5)],
    .writeAddressIndex [(⟨1, 7, 11, 1, 101, 0, true⟩, -5)], .erase [98]]

theorem records_refine_sample : (⟨1, 7, 11, 1, 101, 0, true⟩, -5) ∈ addressIndex (sampleWrites.foldl write []) ∧
    (⟨1, 7, 100, 0⟩, { satoshis := 5, blockHeight := 10 }) ∈ addressUnspentIndex (sampleWrites.foldl write []) := by
  have fit : ∀ change ∈ sampleWrites, change.Fits := by
    simp only [sampleWrites, forall_mem_cons, Write.Fits]
    exact ⟨⟨by constructor <;> decide, nofun⟩, by decide, ⟨by constructor <;> decide, nofun⟩, ⟨by constructor <;> decide, nofun⟩,
      ⟨by constructor <;> decide, nofun⟩, by decide, nofun⟩
  exact ⟨((records_refine fit).1 _ _).mpr rfl, ((records_refine fit).2 _ _).mpr rfl⟩

/-- Whether a scan that seeks `seekKey` may come to a key. -/
def reached (addressHash : Uint160) (type start stop : Int) (key : CAddressIndexKey) : Bool :=
  !before (serializeAddressIndexKey key) (seekKey addressHash type start stop)

/-- Each entry of another type with the hash, unless it is above the end, is behind one that ends the scan:
one with another hash or above the end. -/
def ForeignBehindEnd (addressHash : Uint160) (type start stop : Int) (entries : AddressIndex) : Prop :=
  ∀ entry ∈ entries, entry.1.hashBytes = addressHash → (entry.1.type : Int) ≠ type → aboveStop stop entry.1 = false →
    reached addressHash type start stop entry.1 = true →
    ∃ other ∈ entries, reached addressHash type start stop other.1 = true ∧
      before (serializeAddressIndexKey other.1) (serializeAddressIndexKey entry.1) = true ∧
      (other.1.hashBytes ≠ addressHash ∨ aboveStop stop other.1 = true)

/-- The order by height and then by the position in the block. -/
def InOrder (entry entry' : CAddressIndexKey × CAmount) : Prop :=
  entry.1.blockHeight < entry'.1.blockHeight ∨
    entry.1.blockHeight = entry'.1.blockHeight ∧ entry.1.txindex ≤ entry'.1.txindex

theorem seekKey_split (addressHash : Uint160) (type start stop : Int) : seekKey addressHash type start stop =
    iteratorKey type addressHash ++ (if 0 < start ∧ 0 < stop then bigBytes 4 (start % 2 ^ 32).toNat else []) := by
  rw [seekKey]
  split
  · rfl
  · rw [append_nil]

theorem tail_reaches {key : CAddressIndexKey} (stored : Stored key) {start : Int} (positive : 0 < start)
    (fits : start < 2 ^ 31) :
    before (addressForm.tail key) (bigBytes 4 (start % 2 ^ 32).toNat) = false ↔ start ≤ key.blockHeight := by
  have height := stored.blockHeight
  have number : (start % 2 ^ 32).toNat = start.toNat := by omega
  have less : before (addressForm.tail key) (bigBytes 4 start.toNat) = true ↔ key.blockHeight < start.toNat := by
    rw [← before_bigBytes 4 (by omega) (by omega)]
    conv => lhs; rw [← append_nil (bigBytes 4 start.toNat)]
    refine (before_append _ _ (by simp)).trans ⟨fun either => ?_, .inl⟩
    rcases either with less | ⟨-, less⟩
    · exact less
    · rw [show ∀ bytes, before bytes [] = false from fun bytes => by cases bytes <;> rfl] at less
      cases less
  rw [number, eq_false_iff, ne_eq, less]
  omega

theorem inOrder_of_tail {key key' : CAddressIndexKey} (stored : Stored key) (stored' : Stored key')
    (less : before (addressForm.tail key) (addressForm.tail key') = true) :
    key.blockHeight < key'.blockHeight ∨ key.blockHeight = key'.blockHeight ∧ key.txindex ≤ key'.txindex := by
  have height := stored.blockHeight
  have height' := stored'.blockHeight
  rcases (before_append _ _ (by simp)).mp less with heights | ⟨heights, later⟩
  · exact .inl ((before_bigBytes 4 (by omega) (by omega)).mp heights)
  · refine .inr ⟨bigBytes_inj 4 (by omega) (by omega) heights, ?_⟩
    rcases (before_append _ _ (by simp)).mp later with positions | ⟨positions, -⟩
    · exact Nat.le_of_lt ((before_bigBytes 4 stored.txindex stored'.txindex).mp positions)
    · exact Nat.le_of_eq (bigBytes_inj 4 stored.txindex stored'.txindex positions)

theorem before_nil (bytes : List UInt8) : before bytes [] = false := by cases bytes <;> rfl

theorem asked_eq (addressHash : Uint160) (type start stop : Int) (key : CAddressIndexKey) : asked addressHash type start stop key =
    (decide ((key.type : Int) = type) && decide (key.hashBytes = addressHash) &&
      ((decide (start ≤ 0 ∨ stop ≤ 0) || decide (start ≤ key.blockHeight)) && !aboveStop stop key)) := by
  rw [asked, Bool.and_assoc]

theorem entry_stored {K V : Type} {cursor : Cursor K V} {form : Form cursor} {db : LevelDB} (written : form.Written db)
    {item : K × V} (member : item ∈ records cursor.entryOf db) : form.stored item.1 := by
  obtain ⟨entry, there, found⟩ := mem_filterMap.mp member
  exact (entryOf_some written there found).1

theorem readAddressIndex_exact {db : LevelDB} (kept : Kept db) (addressHash : Uint160) (type : Int) {start : Int}
    (stop : Int) (fits : start < 2 ^ 31) : readAddressIndex addressHash type start stop db =
        some ((addressIndex db).filter fun entry => asked addressHash type start stop entry.1) ↔
      ForeignBehindEnd addressHash type start stop (addressIndex db) := by
  have inside : ∀ {entry}, entry ∈ addressIndex db → Stored entry.1 := fun member => entry_stored kept.address member
  have reach : ∀ key, before (DB_ADDRESSINDEX :: serializeAddressIndexKey key)
      (DB_ADDRESSINDEX :: seekKey addressHash type start stop) = false ↔ reached addressHash type start stop key = true := fun key => by
    have same := before_front [DB_ADDRESSINDEX] (serializeAddressIndexKey key) (seekKey addressHash type start stop)
    rw [cons_append, nil_append, cons_append, nil_append] at same
    rw [same, reached, not_eq_true']
  have tails : ∀ key key', before (addressForm.record key).1 (addressForm.record key').1 =
      before (serializeAddressIndexKey key.1) (serializeAddressIndexKey key'.1) := fun key key' =>
    before_front [DB_ADDRESSINDEX] (serializeAddressIndexKey key.1) (serializeAddressIndexKey key'.1)
  have result := addressForm.read_exact kept.ordered kept.address (aboveStop stop)
    (fun key => (decide (start ≤ 0 ∨ stop ≤ 0) || decide (start ≤ key.blockHeight)) && !aboveStop stop key)
    (if 0 < start ∧ 0 < stop then bigBytes 4 (start % 2 ^ 32).toNat else []) type addressHash ?_ ?_ ?_
  · rw [← seekKey_split] at result
    simp only [tails] at result
    simp only [asked_eq, ForeignBehindEnd, ← reach]
    exact result
  · intro key stored ranged
    obtain ⟨above, -⟩ := and_eq_true_iff.mp ranged
    simp only [or_eq_true, decide_eq_true_eq] at above
    split
    next both => exact (tail_reaches stored both.1 fits).mpr (by omega)
    next => exact before_nil _
  · intro key stored sought notAbove
    rw [notAbove, Bool.not_false, Bool.and_true]
    simp only [or_eq_true, decide_eq_true_eq]
    split at sought
    next both => exact .inr ((tail_reaches stored both.1 fits).mp sought)
    next => omega
  · intro key key' stored stored' ranged notBefore
    obtain ⟨-, below⟩ := and_eq_true_iff.mp ranged
    have heights : ¬key.blockHeight < key'.blockHeight := fun less => by
      have height := stored.blockHeight
      have height' := stored'.blockHeight
      have earlier : before (addressForm.tail key) (addressForm.tail key') = true :=
        (before_append _ _ (by simp)).mpr (.inl ((before_bigBytes 4 (by omega) (by omega)).mpr less))
      exact false_ne_true (notBefore.symm.trans earlier)
    simp only [aboveStop, not_eq_true', and_eq_false_iff, decide_eq_false_iff_not] at below ⊢
    omega

theorem asked_inOrder {db : LevelDB} (kept : Kept db) (addressHash : Uint160) (type start stop : Int) :
    ((addressIndex db).filter fun entry => asked addressHash type start stop entry.1).Pairwise InOrder := by
  have sorted : (addressIndex db).Pairwise fun entry entry' =>
      before (addressForm.record entry).1 (addressForm.record entry').1 = true := by
    refine pairwise_filterMap.mpr (kept.ordered.imp_of_mem fun {entry entry'} member member' less item found item' found' => ?_)
    rw [(entryOf_some kept.address member found).2, (entryOf_some kept.address member' found').2]
    exact less
  refine (sorted.filter _).imp_of_mem fun {entry entry'} member member' less => ?_
  obtain ⟨there, asks⟩ := mem_filter.mp member
  obtain ⟨there', asks'⟩ := mem_filter.mp member'
  simp only [asked, and_eq_true, decide_eq_true_eq] at asks asks'
  have stored := entry_stored kept.address there
  have type' : entry.1.type = entry'.1.type := by omega
  have hash' : entry.1.hashBytes = entry'.1.hashBytes := asks.1.1.2.trans asks'.1.1.2.symm
  have tails : before (addressForm.tail entry.1) (addressForm.tail entry'.1) = true := by
    rw [addressForm.record_split, addressForm.record_split] at less
    change before (_ :: (littleBytes 1 entry.1.type ++ littleBytes 20 entry.1.hashBytes.toNat) ++ _)
      (_ :: (littleBytes 1 entry'.1.type ++ littleBytes 20 entry'.1.hashBytes.toNat) ++ _) = true at less
    rw [type', hash', before_front] at less
    exact less
  exact inOrder_of_tail stored (entry_stored kept.address there') tails

/-- Each unspent output of another type with the hash that the scan may come to is behind one with another hash. -/
def ForeignBehindHash (addressHash : Uint160) (type : Int) (entries : AddressUnspentIndex) : Prop :=
  ∀ entry ∈ entries, entry.1.hashBytes = addressHash → (entry.1.type : Int) ≠ type →
    before (serializeAddressUnspentKey entry.1) (iteratorKey type addressHash) = false →
    ∃ other ∈ entries, before (serializeAddressUnspentKey other.1) (iteratorKey type addressHash) = false ∧
      before (serializeAddressUnspentKey other.1) (serializeAddressUnspentKey entry.1) = true ∧
      other.1.hashBytes ≠ addressHash

theorem readAddressUnspentIndex_exact {db : LevelDB} (kept : Kept db) (addressHash : Uint160) (type : Int) :
    readAddressUnspentIndex addressHash type db =
        some ((addressUnspentIndex db).filter fun entry => askedUnspent addressHash type entry.1) ↔
      ForeignBehindHash addressHash type (addressUnspentIndex db) := by
  have tags : ∀ first second, before (DB_ADDRESSUNSPENTINDEX :: first) (DB_ADDRESSUNSPENTINDEX :: second) = before first second :=
    fun first second => before_front [DB_ADDRESSUNSPENTINDEX] first second
  have result := addressUnspentForm.read_exact kept.ordered kept.unspent (fun _ => false) (fun _ => true) [] type addressHash
    (fun _ _ _ => before_nil _) (fun _ _ _ _ => rfl) fun _ _ _ _ _ _ => rfl
  rw [append_nil] at result
  have filters : (fun entry : CAddressUnspentKey × CAddressUnspentValue => askedUnspent addressHash type entry.1) =
      fun entry => decide ((entry.1.type : Int) = type) && decide (entry.1.hashBytes = addressHash) && true := by
    funext entry
    rw [askedUnspent, Bool.and_true]
  rw [filters]
  refine result.trans ?_
  constructor
  · intro all entry member hash different above
    obtain ⟨other, there, above', less, ends⟩ := all entry member hash different rfl ((tags _ _).trans above)
    exact ⟨other, there, (tags _ _).symm.trans above', (tags _ _).symm.trans less, ends.resolve_right false_ne_true⟩
  · intro all entry member hash different _ above
    obtain ⟨other, there, above', less, ends⟩ := all entry member hash different ((tags _ _).symm.trans above)
    exact ⟨other, there, (tags _ _).trans above', (tags _ _).trans less, .inl ends⟩

/-- Whatever the indexes hold, the scans of a type and a hash return exactly what was asked, in order, if and
only if the entries of the other types with the hash are behind an entry that ends the scan. -/
theorem scans_return_what_was_asked (writes : List Write) (allowed : ∀ change ∈ writes, change.Allowed)
    (addressHash : Uint160) (type start stop : Int) (fits : start < 2 ^ 31) :
    (readAddressIndex addressHash type start stop (writes.foldl write []) =
          some ((addressIndex (writes.foldl write [])).filter fun entry => asked addressHash type start stop entry.1) ∧
        ((addressIndex (writes.foldl write [])).filter fun entry =>
          asked addressHash type start stop entry.1).Pairwise InOrder ↔
      ForeignBehindEnd addressHash type start stop (addressIndex (writes.foldl write []))) ∧
    (readAddressUnspentIndex addressHash type (writes.foldl write []) =
        some ((addressUnspentIndex (writes.foldl write [])).filter fun entry => askedUnspent addressHash type entry.1) ↔
      ForeignBehindHash addressHash type (addressUnspentIndex (writes.foldl write []))) := by
  have kept := Kept.run allowed
  refine ⟨?_, readAddressUnspentIndex_exact kept addressHash type⟩
  rw [← readAddressIndex_exact kept addressHash type stop fits]
  exact and_iff_left (asked_inOrder kept addressHash type start stop)

/-- One hash paid as a key (type 1) and as a script (type 2). -/
def sharedHash : List Write :=
  [.writeAddressIndex [(⟨1, 7, 10, 0, 100, 0, false⟩, 5), (⟨2, 7, 4, 0, 200, 0, false⟩, 6)],
    .updateAddressUnspentIndex [(⟨1, 7, 100, 0⟩, { satoshis := 5, blockHeight := 10 }),
      (⟨2, 7, 200, 0⟩, { satoshis := 6, blockHeight := 4 })]]

theorem sharedHash_allowed : ∀ change ∈ sharedHash, change.Allowed := by
  intro change member
  rcases mem_cons.mp member with rfl | member
  · intro entry among
    rcases mem_cons.mp among with rfl | among
    · decide
    · rw [mem_singleton.mp among]
      decide
  · rw [mem_singleton.mp member]
    trivial

theorem scans_of_shared_hash : (readAddressIndex 7 2 0 0 (sharedHash.foldl write []) =
          some ((addressIndex (sharedHash.foldl write [])).filter fun entry => asked 7 2 0 0 entry.1) ∧
        ((addressIndex (sharedHash.foldl write [])).filter fun entry => asked 7 2 0 0 entry.1).Pairwise InOrder ↔
      ForeignBehindEnd 7 2 0 0 (addressIndex (sharedHash.foldl write []))) ∧
    (readAddressUnspentIndex 7 2 (sharedHash.foldl write []) =
        some ((addressUnspentIndex (sharedHash.foldl write [])).filter fun entry => askedUnspent 7 2 entry.1) ↔
      ForeignBehindHash 7 2 (addressUnspentIndex (sharedHash.foldl write []))) :=
  scans_return_what_was_asked sharedHash sharedHash_allowed 7 2 0 0 (by decide)

/-- A scan for the key hash also returns what was paid to the script with the same hash. -/
theorem scan_returns_another_type : (∀ change ∈ sharedHash, change.Allowed) ∧
    readAddressIndex 7 1 0 0 (sharedHash.foldl write []) =
      some [(⟨1, 7, 10, 0, 100, 0, false⟩, 5), (⟨2, 7, 4, 0, 200, 0, false⟩, 6)] ∧
    (addressIndex (sharedHash.foldl write [])).filter (fun entry => asked 7 1 0 0 entry.1) =
      [(⟨1, 7, 10, 0, 100, 0, false⟩, 5)] ∧
    ¬∀ (writes : List Write), (∀ change ∈ writes, change.Allowed) → ∀ (addressHash : Uint160) (type start stop : Int),
      readAddressIndex addressHash type start stop (writes.foldl write []) =
          some ((addressIndex (writes.foldl write [])).filter fun entry => asked addressHash type start stop entry.1) ∧
        readAddressUnspentIndex addressHash type (writes.foldl write []) =
          some ((addressUnspentIndex (writes.foldl write [])).filter fun entry => askedUnspent addressHash type entry.1) := by
  have read : readAddressIndex 7 1 0 0 (sharedHash.foldl write []) =
      some [(⟨1, 7, 10, 0, 100, 0, false⟩, 5), (⟨2, 7, 4, 0, 200, 0, false⟩, 6)] := by decide +kernel
  have wanted : (addressIndex (sharedHash.foldl write [])).filter (fun entry => asked 7 1 0 0 entry.1) =
      [(⟨1, 7, 10, 0, 100, 0, false⟩, 5)] := by decide +kernel
  refine ⟨sharedHash_allowed, read, wanted, fun all => ?_⟩
  have same := (all sharedHash sharedHash_allowed 7 1 0 0).1
  rw [read, wanted] at same
  cases some.inj same

end Longcoin.AddressScan

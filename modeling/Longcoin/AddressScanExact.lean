import Longcoin.AddressScan

/-! When the scans of the address indexes return exactly what was asked. Nothing compares the type of
a key with the asked one, so the scan goes on into the keys of the next type with the same hash. -/

namespace Longcoin.AddressScan
open Primitives BlockTreeDB Library Bytes Codec ByteStore List Option Bool

theorem littleBytes_mod (width number : Nat) : littleBytes width (number % 256 ^ width) = littleBytes width number := by
  induction width generalizing number with
  | zero => rfl
  | succ width ih =>
    have low : UInt8.ofNat (number % 256 ^ (width + 1)) = UInt8.ofNat number := by
      apply UInt8.toNat_inj.mp
      rw [UInt8.toNat_ofNat', UInt8.toNat_ofNat']
      exact Nat.mod_mod_of_dvd _ ⟨256 ^ width, by rw [Nat.pow_succ, Nat.mul_comm]⟩
    have high : number % 256 ^ (width + 1) / 256 = number / 256 % 256 ^ width := by
      rw [Nat.pow_succ, Nat.mul_comm, Nat.mod_mul_right_div_self]
    rw [littleBytes, littleBytes, low, high, ih]

variable {width : Nat}

theorem littleBytes_inj {number number' : Nat} (fits : number < 256 ^ width) (fits' : number' < 256 ^ width)
    (same : littleBytes width number = littleBytes width number') : number = number' := by
  rw [← little_littleBytes width number fits, same, little_littleBytes width number' fits']

theorem serReaddata_reads {number : Nat} (fits : number < 256 ^ width) :
    Reads (serReaddata width) (littleBytes width number) number := by
  have reads : Reads (readBytes width) (littleBytes width number) (littleBytes width number) := by
    have whole := readBytes_reads (littleBytes width number)
    rwa [length_littleBytes] at whole
  have value := reads.bind_pure little
  rwa [little_littleBytes width number fits] at value

theorem serReaddataBe_reads {number : Nat} (fits : number < 256 ^ width) :
    Reads (serReaddataBe width) (bigBytes width number) number := by
  have reads : Reads (readBytes width) (bigBytes width number) (bigBytes width number) := by
    have whole := readBytes_reads (bigBytes width number)
    rwa [length_bigBytes] at whole
  have value := reads.bind_pure big
  rwa [big_bigBytes width number fits] at value

structure Stored (key : CAddressIndexKey) : Prop where
  type : key.type < 256
  blockHeight : key.blockHeight < 2 ^ 31
  txindex : key.txindex < 2 ^ 32
  index : key.index < 2 ^ 32

structure StoredUnspent (key : CAddressUnspentKey) : Prop where
  type : key.type < 256
  index : key.index < 2 ^ 32

theorem hash_fits {bits : Nat} (hash : BitVec bits) (whole : 2 ^ bits = 256 ^ width) : hash.toNat < 256 ^ width := by
  rw [← whole]
  exact hash.isLt

theorem unserializeAddressIndexKey_reads {key : CAddressIndexKey} (stored : Stored key) :
    Reads unserializeAddressIndexKey (serializeAddressIndexKey key) key := by
  have height := stored.blockHeight
  refine (serReaddata_reads stored.type).bind ?_
  refine (serReaddata_reads (hash_fits key.hashBytes (by rfl))).bind ?_
  refine (serReaddataBe_reads (by omega)).bind ?_
  refine (serReaddataBe_reads stored.txindex).bind ?_
  refine (serReaddata_reads (hash_fits key.txhash (by rfl))).bind ?_
  refine (serReaddata_reads stored.index).bind ?_
  have flag : (if key.spending then 1 else 0) < 256 ^ 1 := by split <;> decide
  have last := (serReaddata_reads flag).bind_pure fun f => CAddressIndexKey.mk key.type (.ofNat 160 key.hashBytes.toNat)
    key.blockHeight key.txindex (.ofNat 256 key.txhash.toNat) key.index (f != 0)
  have same : CAddressIndexKey.mk key.type (.ofNat 160 key.hashBytes.toNat) key.blockHeight key.txindex
      (.ofNat 256 key.txhash.toNat) key.index ((if key.spending then 1 else 0) != 0) = key := by
    rw [BitVec.ofNat_toNat, BitVec.ofNat_toNat, BitVec.setWidth_eq, BitVec.setWidth_eq]
    cases key with
    | mk type hashBytes blockHeight txindex txhash index spending => cases spending <;> rfl
  rw [same] at last
  exact last

theorem unserializeAddressUnspentKey_reads {key : CAddressUnspentKey} (stored : StoredUnspent key) :
    Reads unserializeAddressUnspentKey (serializeAddressUnspentKey key) key := by
  refine (serReaddata_reads stored.type).bind ?_
  refine (serReaddata_reads (hash_fits key.hashBytes (by rfl))).bind ?_
  refine (serReaddata_reads (hash_fits key.txhash (by rfl))).bind ?_
  have last := (serReaddata_reads (show key.index < 256 ^ 4 from stored.index)).bind_pure fun index =>
    CAddressUnspentKey.mk key.type (.ofNat 160 key.hashBytes.toNat) (.ofNat 256 key.txhash.toNat) index
  have same : CAddressUnspentKey.mk key.type (.ofNat 160 key.hashBytes.toNat) (.ofNat 256 key.txhash.toNat) key.index = key := by
    rw [BitVec.ofNat_toNat, BitVec.ofNat_toNat, BitVec.setWidth_eq, BitVec.setWidth_eq]
  rw [same] at last
  exact last

/-- The key that is read back after any key is written. -/
def storedKey (key : CAddressIndexKey) : CAddressIndexKey :=
  { key with type := key.type % 256, txindex := key.txindex % 2 ^ 32, index := key.index % 2 ^ 32 }

theorem serialize_storedKey (key : CAddressIndexKey) :
    serializeAddressIndexKey (storedKey key) = serializeAddressIndexKey key := by
  have type : littleBytes 1 (key.type % 256) = littleBytes 1 key.type := littleBytes_mod 1 key.type
  have txindex : bigBytes 4 (key.txindex % 2 ^ 32) = bigBytes 4 key.txindex := congrArg reverse (littleBytes_mod 4 key.txindex)
  have index : littleBytes 4 (key.index % 2 ^ 32) = littleBytes 4 key.index := littleBytes_mod 4 key.index
  dsimp only [serializeAddressIndexKey, storedKey]
  rw [type, txindex, index]

theorem storedKey_stored {key : CAddressIndexKey} (height : key.blockHeight < 2 ^ 31) : Stored (storedKey key) :=
  ⟨Nat.mod_lt _ (by decide), height, Nat.mod_lt _ (by decide), Nat.mod_lt _ (by decide)⟩

def storedUnspentKey (key : CAddressUnspentKey) : CAddressUnspentKey :=
  { key with type := key.type % 256, index := key.index % 2 ^ 32 }

theorem serialize_storedUnspentKey (key : CAddressUnspentKey) :
    serializeAddressUnspentKey (storedUnspentKey key) = serializeAddressUnspentKey key := by
  have type : littleBytes 1 (key.type % 256) = littleBytes 1 key.type := littleBytes_mod 1 key.type
  have index : littleBytes 4 (key.index % 2 ^ 32) = littleBytes 4 key.index := littleBytes_mod 4 key.index
  dsimp only [serializeAddressUnspentKey, storedUnspentKey]
  rw [type, index]

theorem storedUnspentKey_stored (key : CAddressUnspentKey) : StoredUnspent (storedUnspentKey key) :=
  ⟨Nat.mod_lt _ (by decide), Nat.mod_lt _ (by decide)⟩

/-- What both scans rely on: keys are read back, and they begin with the type and the hash. -/
structure Form {K V : Type} (cursor : Cursor K V) where
  serialize : K → List UInt8
  setValue : V → DbValue
  type : K → Nat
  tail : K → List UInt8
  stored : K → Prop
  type_lt : ∀ key, stored key → type key < 256
  reads : ∀ key, stored key → Reads cursor.unserialize (serialize key) key
  serialize_eq : ∀ key, serialize key = (littleBytes 1 (type key) ++ littleBytes 20 (cursor.hashBytes key).toNat) ++ tail key
  getValue_setValue : ∀ nValue, cursor.getValue (setValue nValue) = some nValue

def addressForm : Form addressCursor where
  serialize := serializeAddressIndexKey
  setValue := .amount
  type := CAddressIndexKey.type
  tail key := bigBytes 4 key.blockHeight ++ (bigBytes 4 key.txindex ++ (littleBytes 32 key.txhash.toNat ++
    (littleBytes 4 key.index ++ littleBytes 1 (if key.spending then 1 else 0))))
  stored := Stored
  type_lt _ stored := stored.type
  reads _ stored := unserializeAddressIndexKey_reads stored
  serialize_eq key := by rw [List.append_assoc]; rfl
  getValue_setValue _ := rfl

def addressUnspentForm : Form addressUnspentCursor where
  serialize := serializeAddressUnspentKey
  setValue := .unspent
  type := CAddressUnspentKey.type
  tail key := littleBytes 32 key.txhash.toNat ++ littleBytes 4 key.index
  stored := StoredUnspent
  type_lt _ stored := stored.type
  reads _ stored := unserializeAddressUnspentKey_reads stored
  serialize_eq key := by rw [List.append_assoc]; rfl
  getValue_setValue _ := rfl

namespace Form
variable {K V : Type} {cursor : Cursor K V} (form : Form cursor)

def record (item : K × V) : List UInt8 × DbValue :=
  (cursor.prefixByte :: form.serialize item.1, form.setValue item.2)

/-- The entries with the prefix of an index are records of it. -/
def Written (db : LevelDB) : Prop :=
  ∀ entry ∈ db, entry.1.head? = some cursor.prefixByte → ∃ item, form.stored item.1 ∧ entry = form.record item

variable {form}

variable {item : K × V}

theorem getKey_record (stored : form.stored item.1) :
    getKey cursor.unserialize (form.record item).1 = some (cursor.prefixByte, item.1) := by
  have read := form.reads item.1 stored []
  rw [append_nil] at read
  rw [record, getKey, read, map_some]

theorem entryOf_record (stored : form.stored item.1) : cursor.entryOf (form.record item) = some item := by
  rw [Cursor.entryOf, getKey_record stored, bind_some, if_pos rfl, record, form.getValue_setValue, map_some]

theorem head_of_getKey {bytes : List UInt8} {key : UInt8 × K} (read : getKey cursor.unserialize bytes = some key) :
    bytes.head? = some key.1 := by
  cases bytes with
  | nil => cases read
  | cons tag rest =>
    obtain ⟨taken, -, rfl⟩ := map_eq_some_iff.mp read
    rfl

theorem entryOf_some {db : LevelDB} (written : form.Written db) {entry : List UInt8 × DbValue} (member : entry ∈ db)
    (found : cursor.entryOf entry = some item) : form.stored item.1 ∧ form.record item = entry := by
  obtain ⟨key, read, rest⟩ := bind_eq_some_iff.mp found
  split at rest
  next tag =>
    obtain ⟨item', stored, rfl⟩ := written entry member (by rw [head_of_getKey read, tag])
    rw [entryOf_record stored] at found
    cases found
    exact ⟨stored, rfl⟩
  next => cases rest

theorem readFrom_eq {db : LevelDB} (written : form.Written db) (breaks : K → Bool) (addressHash : Uint160) :
    cursor.readFrom breaks addressHash db = some ((db.takeWhile fun entry => (cursor.entryOf entry).any fun item =>
      decide (cursor.hashBytes item.1 = addressHash) && !breaks item.1).filterMap cursor.entryOf) := by
  induction db with
  | nil => rfl
  | cons entry rest ih =>
    have later := ih (forall_mem_cons.mp written).2
    rw [Cursor.readFrom, takeWhile_cons]
    cases read : getKey cursor.unserialize entry.1 with
    | none => rw [Cursor.entryOf, read]; rfl
    | some key =>
      by_cases tag : key.1 = cursor.prefixByte
      · obtain ⟨item, stored, rfl⟩ := written entry mem_cons_self (by rw [head_of_getKey read, tag])
        rw [getKey_record stored] at read
        cases read
        rw [entryOf_record stored]
        dsimp only
        by_cases hash : cursor.hashBytes item.1 = addressHash
        · cases stops : breaks item.1 with
          | true => simp [hash, stops]
          | false =>
            have value : cursor.getValue (form.record item).2 = some item.2 := form.getValue_setValue item.2
            rw [if_pos ⟨rfl, hash⟩, value, later]
            simp [hash, stops, entryOf_record stored]
        · simp [hash]
      · have none' : cursor.entryOf entry = none := by rw [Cursor.entryOf, read, bind_some, if_neg tag]
        rw [none']
        dsimp only
        rw [if_neg fun both => tag both.1]
        rfl

theorem record_split (form : Form cursor) (item : K × V) : (form.record item).1 =
    (cursor.prefixByte :: (littleBytes 1 (form.type item.1) ++ littleBytes 20 (cursor.hashBytes item.1).toNat)) ++
      form.tail item.1 := by
  rw [record, form.serialize_eq, cons_append]

theorem same_front {type : Nat} {hash : Uint160} {rest : List UInt8} (stored : form.stored item.1) (small : type < 256)
    (same : (form.record item).1 = (cursor.prefixByte :: (littleBytes 1 type ++ littleBytes 20 hash.toNat)) ++ rest) :
    form.type item.1 = type ∧ cursor.hashBytes item.1 = hash ∧ form.tail item.1 = rest := by
  rw [record_split] at same
  obtain ⟨fronts, tails⟩ := append_inj same (by simp)
  obtain ⟨types, hashes⟩ := append_inj (cons.inj fronts).2 (by simp)
  refine ⟨littleBytes_inj (form.type_lt _ stored) small types, BitVec.eq_of_toNat_eq ?_, tails⟩
  exact littleBytes_inj (hash_fits _ (by rfl)) (hash_fits _ (by rfl)) hashes

theorem seekKey_eq (form : Form cursor) {type : Int} (stored : form.stored item.1) (same : (form.type item.1 : Int) = type)
    (extra : List UInt8) :
    cursor.prefixByte :: (iteratorKey type (cursor.hashBytes item.1) ++ extra) =
      (cursor.prefixByte :: (littleBytes 1 (form.type item.1) ++ littleBytes 20 (cursor.hashBytes item.1).toNat)) ++ extra := by
  have small := form.type_lt _ stored
  have number : (type % 256).toNat = form.type item.1 := by omega
  rw [iteratorKey, number, cons_append]

/-- A scan that seeks the type, the hash and `extra` is exact if and only if the first record of another
type that it would find is behind one that ends it. -/
theorem read_exact {db : LevelDB} (ordered : Ordered db) (written : form.Written db) (breaks inRange : K → Bool)
    (extra : List UInt8) (type : Int) (addressHash : Uint160)
    (reach : ∀ key, form.stored key → inRange key = true → before (form.tail key) extra = false)
    (low : ∀ key, form.stored key → before (form.tail key) extra = false → breaks key = false → inRange key = true)
    (pass : ∀ key key', form.stored key → form.stored key' → inRange key = true →
      before (form.tail key) (form.tail key') = false → breaks key' = false) :
    cursor.readFrom breaks addressHash (seek (cursor.prefixByte :: (iteratorKey type addressHash ++ extra)) db) =
        some ((records cursor.entryOf db).filter fun item =>
          decide ((form.type item.1 : Int) = type) && decide (cursor.hashBytes item.1 = addressHash) && inRange item.1) ↔
      ∀ item ∈ records cursor.entryOf db, cursor.hashBytes item.1 = addressHash → (form.type item.1 : Int) ≠ type →
        breaks item.1 = false →
        before (form.record item).1 (cursor.prefixByte :: (iteratorKey type addressHash ++ extra)) = false →
        ∃ item' ∈ records cursor.entryOf db,
          before (form.record item').1 (cursor.prefixByte :: (iteratorKey type addressHash ++ extra)) = false ∧
          before (form.record item').1 (form.record item).1 = true ∧
          (cursor.hashBytes item'.1 ≠ addressHash ∨ breaks item'.1 = true) := by
  have kept : ∀ {item}, item ∈ records cursor.entryOf db → form.stored item.1 := fun member => by
    obtain ⟨entry, there, found⟩ := List.mem_filterMap.mp member
    exact (entryOf_some written there found).1
  have sought : form.Written (seek (cursor.prefixByte :: (iteratorKey type addressHash ++ extra)) db) :=
    fun entry member => written entry ((List.dropWhile_sublist _).subset member)
  rw [readFrom_eq sought, Option.some_inj]
  refine (coded_scan_exact form.record ordered (fun entry member item found => (entryOf_some written member found).2)
    ?_ ?_ ?_).trans ?_
  · intro entry member above item _ below
    rw [record_split] at below
    obtain ⟨rest, shape⟩ := front_of_between [cursor.prefixByte] above below
    obtain ⟨item', stored, rfl⟩ := written entry member (by rw [shape]; rfl)
    exact ⟨item', entryOf_record stored⟩
  · intro item member wants
    simp only [Bool.and_eq_true, decide_eq_true_eq] at wants
    obtain ⟨⟨sameType, sameHash⟩, ranged⟩ := wants
    rw [← sameHash, seekKey_eq form (kept member) sameType, record_split, before_front]
    exact reach _ (kept member) ranged
  · intro item member wants item' member' above below
    simp only [Bool.and_eq_true, decide_eq_true_eq] at wants
    obtain ⟨⟨sameType, sameHash⟩, ranged⟩ := wants
    rw [← sameHash, seekKey_eq form (kept member) sameType] at above
    rw [record_split form item] at below
    obtain ⟨rest, shape⟩ := front_of_between _ above below
    obtain ⟨-, hash', tail'⟩ := same_front (kept member') (form.type_lt _ (kept member)) shape
    rw [shape, before_front, ← tail'] at below
    simp only [hash', sameHash, decide_true, Bool.true_and]
    rw [pass _ _ (kept member) (kept member') ranged below, Bool.not_false]
  · constructor
    · intro stopped item member hash different goes above
      obtain ⟨item', member', above', less, ends⟩ := stopped item member above (by simp [hash, goes]) (by simp [different])
      refine ⟨item', member', above', less, ?_⟩
      by_cases hash' : cursor.hashBytes item'.1 = addressHash
      · simp only [hash', decide_true, Bool.true_and, Bool.not_eq_false'] at ends
        exact .inr ends
      · exact .inl hash'
    · intro stopped item member above goes unwanted
      simp only [Bool.and_eq_true, decide_eq_true_eq, Bool.not_eq_true'] at goes
      obtain ⟨hash, goes⟩ := goes
      have different : (form.type item.1 : Int) ≠ type := by
        intro sameType
        rw [← hash, seekKey_eq form (kept member) sameType, record_split, before_front] at above
        simp [sameType, hash, low _ (kept member) above goes] at unwanted
      obtain ⟨item', member', above', less, ends⟩ := stopped item member hash different goes above
      refine ⟨item', member', above', less, ?_⟩
      rcases ends with hash' | breaks'
      · simp [hash']
      · simp [breaks']

end Form

end Longcoin.AddressScan

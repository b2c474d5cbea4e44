import Longcoin.BlockTreeDB
import Longcoin.Library.ByteStore
import Longcoin.Library.Codec

/-! The range scans of the address indexes (`txdb.cpp`) over the serialized keys (`main.h`). LevelDB
iterates the keys in bytewise order. -/

namespace Longcoin.AddressScan
open Primitives BlockTreeDB Library Bytes Codec ByteStore

def DB_ADDRESSINDEX : UInt8 := 0x61
def DB_ADDRESSUNSPENTINDEX : UInt8 := 0x75

/-- `ser_readdata8`, `ser_readdata32` and the bytes of a hash. -/
def serReaddata (width : Nat) : Reader Nat := do
  let bytes ← readBytes width
  return little bytes

def serReaddataBe (width : Nat) : Reader Nat := do
  let bytes ← readBytes width
  return big bytes

def serializeAddressIndexKey (key : CAddressIndexKey) : List UInt8 :=
  littleBytes 1 key.type ++ (littleBytes 20 key.hashBytes.toNat ++ (bigBytes 4 key.blockHeight ++
    (bigBytes 4 key.txindex ++ (littleBytes 32 key.txhash.toNat ++ (littleBytes 4 key.index ++
      littleBytes 1 (if key.spending then 1 else 0))))))

def unserializeAddressIndexKey : Reader CAddressIndexKey := do
  let type ← serReaddata 1
  let hashBytes ← serReaddata 20
  let blockHeight ← serReaddataBe 4
  let txindex ← serReaddataBe 4
  let txhash ← serReaddata 32
  let index ← serReaddata 4
  let f ← serReaddata 1
  return ⟨type, .ofNat 160 hashBytes, blockHeight, txindex, .ofNat 256 txhash, index, f != 0⟩

def serializeAddressUnspentKey (key : CAddressUnspentKey) : List UInt8 :=
  littleBytes 1 key.type ++ (littleBytes 20 key.hashBytes.toNat ++ (littleBytes 32 key.txhash.toNat ++ littleBytes 4 key.index))

def unserializeAddressUnspentKey : Reader CAddressUnspentKey := do
  let type ← serReaddata 1
  let hashBytes ← serReaddata 20
  let txhash ← serReaddata 32
  let index ← serReaddata 4
  return ⟨type, .ofNat 160 hashBytes, .ofNat 256 txhash, index⟩

/-- `CAddressIndexIteratorKey`, of an `int` type. -/
def iteratorKey (type : Int) (addressHash : Uint160) : List UInt8 :=
  littleBytes 1 (type % 256).toNat ++ littleBytes 20 addressHash.toNat

/-- `CAddressIndexIteratorHeightKey`. -/
def iteratorHeightKey (type : Int) (addressHash : Uint160) (height : Int) : List UInt8 :=
  iteratorKey type addressHash ++ bigBytes 4 (height % 2 ^ 32).toNat

inductive DbValue where
  | amount (nValue : CAmount)
  | unspent (nValue : CAddressUnspentValue)
  | other
deriving DecidableEq

namespace DbValue

def getAmount : DbValue → Option CAmount
  | amount nValue => some nValue
  | _ => none

def getUnspent : DbValue → Option CAddressUnspentValue
  | unspent nValue => some nValue
  | _ => none

end DbValue

abbrev LevelDB := Store DbValue

/-- `GetKey` of a pair of a `char` and a key: what follows them is not looked at. -/
def getKey {K : Type} (unserialize : Reader K) (bytes : List UInt8) : Option (UInt8 × K) :=
  match bytes with
  | [] => none
  | tag :: rest => (unserialize rest).map fun read => (tag, read.1)

def writeAddressIndex (vect : AddressIndex) (db : LevelDB) : LevelDB :=
  vect.foldl (fun db entry => put (DB_ADDRESSINDEX :: serializeAddressIndexKey entry.1) (.amount entry.2) db) db

def eraseAddressIndex (vect : AddressIndex) (db : LevelDB) : LevelDB :=
  vect.foldl (fun db entry => erase (DB_ADDRESSINDEX :: serializeAddressIndexKey entry.1) db) db

def updateAddressUnspentIndex (vect : AddressUnspentIndex) (db : LevelDB) : LevelDB :=
  vect.foldl (fun db entry =>
    if entry.2.isNull then erase (DB_ADDRESSUNSPENTINDEX :: serializeAddressUnspentKey entry.1) db
    else put (DB_ADDRESSUNSPENTINDEX :: serializeAddressUnspentKey entry.1) (.unspent entry.2) db) db

/-- The two scans differ in the prefix, in the form of the keys and values, and in what else ends them. -/
structure Cursor (K V : Type) where
  prefixByte : UInt8
  unserialize : Reader K
  hashBytes : K → Uint160
  getValue : DbValue → Option V

namespace Cursor
variable {K V : Type}

/-- The loop of a scan; nothing when a value cannot be read. -/
def readFrom (cursor : Cursor K V) (breaks : K → Bool) (addressHash : Uint160) : LevelDB → Option (List (K × V))
  | [] => some []
  | entry :: rest =>
      match getKey cursor.unserialize entry.1 with
      | some key =>
          if key.1 = cursor.prefixByte ∧ cursor.hashBytes key.2 = addressHash then
            if breaks key.2 then some []
            else
              match cursor.getValue entry.2 with
              | some nValue => (cursor.readFrom breaks addressHash rest).map ((key.2, nValue) :: ·)
              | none => none
          else some []
      | none => some []

end Cursor

def addressCursor : Cursor CAddressIndexKey CAmount :=
  ⟨DB_ADDRESSINDEX, unserializeAddressIndexKey, CAddressIndexKey.hashBytes, DbValue.getAmount⟩

def addressUnspentCursor : Cursor CAddressUnspentKey CAddressUnspentValue :=
  ⟨DB_ADDRESSUNSPENTINDEX, unserializeAddressUnspentKey, CAddressUnspentKey.hashBytes, DbValue.getUnspent⟩

def seekKey (addressHash : Uint160) (type start stop : Int) : List UInt8 :=
  if 0 < start ∧ 0 < stop then iteratorHeightKey type addressHash start else iteratorKey type addressHash

def aboveStop (stop : Int) (key : CAddressIndexKey) : Bool := decide (0 < stop) && decide (stop < key.blockHeight)

def readAddressIndex (addressHash : Uint160) (type start stop : Int) (db : LevelDB) : Option AddressIndex :=
  addressCursor.readFrom (aboveStop stop) addressHash (seek (DB_ADDRESSINDEX :: seekKey addressHash type start stop) db)

def readAddressUnspentIndex (addressHash : Uint160) (type : Int) (db : LevelDB) : Option AddressUnspentIndex :=
  addressUnspentCursor.readFrom (fun _ => false) addressHash
    (seek (DB_ADDRESSUNSPENTINDEX :: iteratorKey type addressHash) db)

/-- What changes the database: the batches of the address indexes, and the records of other kinds. -/
inductive Write where
  | writeAddressIndex (vect : AddressIndex)
  | eraseAddressIndex (vect : AddressIndex)
  | updateAddressUnspentIndex (vect : AddressUnspentIndex)
  | put (key : List UInt8) (value : DbValue)
  | erase (key : List UInt8)

/-- The heights are not negative, and the other records have another prefix. -/
def Write.Allowed : Write → Prop
  | .writeAddressIndex vect => ∀ entry ∈ vect, entry.1.blockHeight < 2 ^ 31
  | .put key _ => key.head? ≠ some DB_ADDRESSINDEX ∧ key.head? ≠ some DB_ADDRESSUNSPENTINDEX
  | _ => True

def write (db : LevelDB) : Write → LevelDB
  | .writeAddressIndex vect => writeAddressIndex vect db
  | .eraseAddressIndex vect => eraseAddressIndex vect db
  | .updateAddressUnspentIndex vect => updateAddressUnspentIndex vect db
  | .put key value => put key value db
  | .erase key => erase key db

/-- A record of an index that an entry of the database is. -/
def Cursor.entryOf {K V : Type} (cursor : Cursor K V) (entry : List UInt8 × DbValue) : Option (K × V) :=
  (getKey cursor.unserialize entry.1).bind fun key =>
    if key.1 = cursor.prefixByte then (cursor.getValue entry.2).map fun nValue => (key.2, nValue) else none

def addressIndex (db : LevelDB) : AddressIndex := records addressCursor.entryOf db

def addressUnspentIndex (db : LevelDB) : AddressUnspentIndex := records addressUnspentCursor.entryOf db

/-- What a call of `ReadAddressIndex` asks for. -/
def asked (addressHash : Uint160) (type start stop : Int) (key : CAddressIndexKey) : Bool :=
  decide ((key.type : Int) = type) && decide (key.hashBytes = addressHash) &&
    (decide (start ≤ 0 ∨ stop ≤ 0) || decide (start ≤ key.blockHeight)) && !aboveStop stop key

def askedUnspent (addressHash : Uint160) (type : Int) (key : CAddressUnspentKey) : Bool :=
  decide ((key.type : Int) = type) && decide (key.hashBytes = addressHash)

end Longcoin.AddressScan

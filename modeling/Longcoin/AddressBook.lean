import Longcoin.Library.FiniteMap
import Longcoin.Primitives

/-! The address book of a wallet in memory and on disk (`wallet/wallet.cpp`, `wallet/walletdb.cpp`). Writing to the database
succeeds. -/

namespace Longcoin.AddressBook
open Primitives Library

inductive CTxDestination where
  | noDestination
  | keyID (id : Uint160)
  | scriptID (id : Uint160)
deriving DecidableEq

structure CAddressBookData where
  name : String := ""
  pubkeyhex : String := ""
  purpose : String := "unknown"
  destdata : FiniteMap String String := .empty

inductive RecordType where
  | name
  | pubkeyhex
  | purpose
  | destdata (strKey : String)
deriving DecidableEq

/-- The address of a destination and back, and the hash of a public key in hex. -/
structure Env where
  toString : CTxDestination → String
  ofString : String → CTxDestination
  pubKeyIDOfHex : String → Uint160

/-- `mapAddressBook` and the records on disk. -/
structure Store where
  mapAddressBook : FiniteMap CTxDestination CAddressBookData := .empty
  records : FiniteMap (RecordType × String) String := .empty

/-- `mapAddressBook[address]` makes an entry where there is none. -/
def access (book : FiniteMap CTxDestination CAddressBookData) (address : CTxDestination) : CAddressBookData :=
  (book.find address).getD {}

def hexDigit (nibble : Nat) : Char := Char.ofNat (if nibble < 10 then 48 + nibble else 87 + nibble)

def hexStr (bytes : List UInt8) : String :=
  String.ofList (bytes.flatMap fun byte => [hexDigit (byte.toNat / 16), hexDigit (byte.toNat % 16)])

/-- `GetKeyID` sets a key of zeros unless the address is that of a key. -/
def CTxDestination.getKeyID : CTxDestination → Uint160
  | .keyID id => id
  | .noDestination | .scriptID _ => 0

/-- The public key of the entry, and whether it is written. -/
def pubkeyhexAfter (env : Env) (getPubKey : Uint160 → Option (List UInt8)) (address : CTxDestination) (pubKeyHex before : String) :
    String × Bool :=
  if pubKeyHex ≠ "" then
    if address.getKeyID = env.pubKeyIDOfHex pubKeyHex then (pubKeyHex, true) else (before, false)
  else
    match getPubKey address.getKeyID with
    | some payToPubKey => (hexStr payToPubKey, true)
    | none => (before, false)

def setAddressBook (env : Env) (getPubKey : Uint160 → Option (List UInt8)) (store : Store) (address : CTxDestination)
    (strName pubKeyHex strPurpose : String) : Store :=
  let data := access store.mapAddressBook address
  let pubkeyhex := pubkeyhexAfter env getPubKey address pubKeyHex data.pubkeyhex
  let strAddress := env.toString address
  let records := if pubkeyhex.2 then store.records.put (.pubkeyhex, strAddress) pubKeyHex else store.records
  let records := if strPurpose ≠ "" then records.put (.purpose, strAddress) strPurpose else records
  { mapAddressBook := store.mapAddressBook.put address { data with
      name := strName
      pubkeyhex := pubkeyhex.1
      purpose := if strPurpose ≠ "" then strPurpose else data.purpose }
    records := records.put (.name, strAddress) strName }

def delAddressBook (env : Env) (store : Store) (address : CTxDestination) : Store :=
  let strAddress := env.toString address
  let destdata := (access store.mapAddressBook address).destdata
  let records := store.records.eraseAll (destdata.keys.image fun strKey => (.destdata strKey, strAddress))
  { mapAddressBook := store.mapAddressBook.erase address
    records := ((records.erase (.purpose, strAddress)).erase (.pubkeyhex, strAddress)).erase (.name, strAddress) }

def addDestData (env : Env) (store : Store) (dest : CTxDestination) (key value : String) : Store × Bool :=
  if dest = .noDestination then (store, false)
  else
    let data := access store.mapAddressBook dest
    ({ mapAddressBook := store.mapAddressBook.put dest { data with destdata := data.destdata.insertNew key value }
       records := store.records.put (.destdata key, env.toString dest) value }, true)

def eraseDestData (env : Env) (store : Store) (dest : CTxDestination) (key : String) : Store × Bool :=
  let data := access store.mapAddressBook dest
  if (data.destdata.find key).isSome then
    ({ mapAddressBook := store.mapAddressBook.put dest { data with destdata := data.destdata.erase key }
       records := store.records.erase (.destdata key, env.toString dest) }, true)
  else ({ store with mapAddressBook := store.mapAddressBook.put dest data }, false)

def load (data : CAddressBookData) (type : RecordType) (value : String) : CAddressBookData :=
  match type with
  | .name => { data with name := value }
  | .pubkeyhex => { data with pubkeyhex := value }
  | .purpose => { data with purpose := value }
  | .destdata strKey => { data with destdata := data.destdata.insertNew strKey value }

def readKeyValue (env : Env) (records : FiniteMap (RecordType × String) String) (book : FiniteMap CTxDestination CAddressBookData)
    (key : RecordType × String) : FiniteMap CTxDestination CAddressBookData :=
  match records.find key with
  | none => book
  | some value => book.put (env.ofString key.2) (load (access book (env.ofString key.2)) key.1 value)

def rebuild (env : Env) (records : FiniteMap (RecordType × String) String) (order : List (RecordType × String)) :
    FiniteMap CTxDestination CAddressBookData := order.foldl (readKeyValue env records) .empty

inductive BookEvent where
  | setAddressBook (getPubKey : Uint160 → Option (List UInt8)) (address : CTxDestination) (strName pubKeyHex strPurpose : String)
  | delAddressBook (address : CTxDestination)
  | addDestData (dest : CTxDestination) (key value : String)
  | eraseDestData (dest : CTxDestination) (key : String)

def BookEvent.address : BookEvent → CTxDestination
  | .setAddressBook _ address _ _ _ | .delAddressBook address => address
  | .addDestData dest _ _ | .eraseDestData dest _ => dest

def Store.next (env : Env) (store : Store) : BookEvent → Store
  | .setAddressBook getPubKey address strName pubKeyHex strPurpose =>
    AddressBook.setAddressBook env getPubKey store address strName pubKeyHex strPurpose
  | .delAddressBook address => AddressBook.delAddressBook env store address
  | .addDestData dest key value => (AddressBook.addDestData env store dest key value).1
  | .eraseDestData dest key => (AddressBook.eraseDestData env store dest key).1

end Longcoin.AddressBook

import Longcoin.Primitives
import Mathlib.Data.List.AList

/-! Encryption of the wallet's keys (`crypter.cpp`, `keystore.cpp` and the key parts of `wallet.cpp`).
OpenSSL and the key arithmetic are parameters; the writes to the wallet's file succeed. -/

namespace Longcoin.Crypter
open Primitives

abbrev Bytes (size : Nat) := { bytes : List UInt8 // bytes.length = size }

def WALLET_CRYPTO_KEY_SIZE : Nat := 32
def WALLET_CRYPTO_SALT_SIZE : Nat := 8

abbrev CKeyingMaterial := List UInt8
abbrev SecureString := List UInt8
abbrev CPubKey := List UInt8
abbrev CKeyID := Uint160

structure CKey where
  vch : Bytes 32
  fCompressed : Bool
deriving DecidableEq

/-- What the wallet takes from OpenSSL, from the keys and from the scripts of the watch-only outputs. -/
structure Crypto where
  /-- `EVP_BytesToKey` for AES-256-CBC and SHA-512. -/
  bytesToKey : (chSalt : List UInt8) → (strKeyData : SecureString) → (nRounds : Nat) → List UInt8 × List UInt8
  aesEncrypt : (chKey chIV : List UInt8) → (vchPlaintext : CKeyingMaterial) → List UInt8
  aesDecrypt : (chKey chIV : List UInt8) → (vchCiphertext : List UInt8) → Option CKeyingMaterial
  getPubKey : CKey → CPubKey
  verifyPubKey : CKey → CPubKey → Bool
  isCompressed : CPubKey → Bool
  getID : CPubKey → CKeyID
  getHash : CPubKey → List UInt8
  getScriptForDestination : CKeyID → CScript
  getScriptForRawPubKey : CPubKey → CScript
  extractPubKey : CScript → Option CPubKey

structure Crypto.KeyPair (crypto : Crypto) where
  key : CKey
  pubkey : CPubKey
  same : crypto.getPubKey key = pubkey
  verifies : crypto.verifyPubKey key pubkey = true

structure CMasterKey where
  vchCryptedKey : List UInt8 := []
  vchSalt : List UInt8 := []
  nDerivationMethod : Nat := 0
  nDeriveIterations : Nat := 25000
deriving DecidableEq

variable (crypto : Crypto)

/-- `SetKeyFromPassphrase`: the key and the IV. -/
def setKeyFromPassphrase (strKeyData : SecureString) (chSalt : List UInt8) (nRounds nDerivationMethod : Nat) :
    Option (List UInt8 × List UInt8) :=
  if nRounds < 1 ∨ chSalt.length ≠ WALLET_CRYPTO_SALT_SIZE then none
  else if nDerivationMethod = 0 then some (crypto.bytesToKey chSalt strKeyData nRounds)
  else none

def encryptSecret (vMasterKey vchPlaintext : CKeyingMaterial) (nIV : List UInt8) : Option (List UInt8) :=
  if vMasterKey.length ≠ WALLET_CRYPTO_KEY_SIZE then none else some (crypto.aesEncrypt vMasterKey nIV vchPlaintext)

def decryptSecret (vMasterKey : CKeyingMaterial) (vchCiphertext nIV : List UInt8) : Option CKeyingMaterial :=
  if vMasterKey.length ≠ WALLET_CRYPTO_KEY_SIZE then none else crypto.aesDecrypt vMasterKey nIV vchCiphertext

def decryptKey (vMasterKey : CKeyingMaterial) (vchCryptedSecret : List UInt8) (vchPubKey : CPubKey) : Option CKey :=
  match decryptSecret crypto vMasterKey vchCryptedSecret (crypto.getHash vchPubKey) with
  | none => none
  | some vchSecret =>
      if size : vchSecret.length = 32 then
        let key : CKey := ⟨⟨vchSecret, size⟩, crypto.isCompressed vchPubKey⟩
        if crypto.verifyPubKey key vchPubKey then some key else none
      else none

abbrev KeyMap := AList fun _ : CKeyID => CKey
abbrev CryptedKeyMap := AList fun _ : CKeyID => CPubKey × List UInt8

structure WatchOnly where
  setWatchOnly : List CScript := []
  mapWatchKeys : CKeyID → Option CPubKey := fun _ => none

def WatchOnly.remove (dest : CScript) (watch : WatchOnly) : WatchOnly where
  setWatchOnly := watch.setWatchOnly.filter (· != dest)
  mapWatchKeys :=
    match crypto.extractPubKey dest with
    | some pubKey => fun id => if id = crypto.getID pubKey then none else watch.mapWatchKeys id
    | none => watch.mapWatchKeys

/-- What `AddKeyPubKey` of the wallet does with the scripts of a key. -/
def WatchOnly.forget (pubkey : CPubKey) (watch : WatchOnly) : WatchOnly :=
  let drop script (watch : WatchOnly) := if watch.setWatchOnly.contains script then watch.remove crypto script else watch
  drop (crypto.getScriptForRawPubKey pubkey) (drop (crypto.getScriptForDestination (crypto.getID pubkey)) watch)

structure CCryptoKeyStore where
  mapKeys : KeyMap := ∅
  watch : WatchOnly := {}
  mapCryptedKeys : CryptedKeyMap := ∅
  vMasterKey : CKeyingMaterial := []
  fUseCrypto : Bool := false
  fDecryptionThoroughlyChecked : Bool := false

namespace CCryptoKeyStore

def isCrypted (store : CCryptoKeyStore) : Bool := store.fUseCrypto

def isLocked (store : CCryptoKeyStore) : Bool := store.isCrypted && store.vMasterKey.isEmpty

/-- `SetCrypted`; nothing when the store holds plain keys. -/
def setCrypted (store : CCryptoKeyStore) : Option CCryptoKeyStore :=
  if store.fUseCrypto then some store
  else if store.mapKeys.entries.isEmpty then some { store with fUseCrypto := true }
  else none

def lock (store : CCryptoKeyStore) : Bool × CCryptoKeyStore :=
  match store.setCrypted with
  | none => (false, store)
  | some store => (true, { store with vMasterKey := [] })

def checkKeys (vMasterKeyIn : CKeyingMaterial) (fDecryptionThoroughlyChecked : Bool) :
    List (CPubKey × List UInt8) → Bool → Bool × Bool
  | [], keyPass => (keyPass, false)
  | (vchPubKey, vchCryptedSecret) :: rest, keyPass =>
      match decryptKey crypto vMasterKeyIn vchCryptedSecret vchPubKey with
      | none => (keyPass, true)
      | some _ => if fDecryptionThoroughlyChecked then (true, false) else checkKeys vMasterKeyIn fDecryptionThoroughlyChecked rest true

/-- `Unlock`; nothing when some keys decrypt but not all. -/
def unlock (vMasterKeyIn : CKeyingMaterial) (store : CCryptoKeyStore) : Option (Bool × CCryptoKeyStore) :=
  match store.setCrypted with
  | none => some (false, store)
  | some store =>
      let (keyPass, keyFail) := checkKeys crypto vMasterKeyIn store.fDecryptionThoroughlyChecked
        (store.mapCryptedKeys.entries.map Sigma.snd) false
      if keyPass && keyFail then none
      else if keyFail || !keyPass then some (false, store)
      else some (true, { store with vMasterKey := vMasterKeyIn, fDecryptionThoroughlyChecked := true })

def addCryptedKey (vchPubKey : CPubKey) (vchCryptedSecret : List UInt8) (store : CCryptoKeyStore) : Option CCryptoKeyStore :=
  store.setCrypted.map fun store =>
    { store with mapCryptedKeys := store.mapCryptedKeys.insert (crypto.getID vchPubKey) (vchPubKey, vchCryptedSecret) }

def addKeyPubKey (key : CKey) (pubkey : CPubKey) (store : CCryptoKeyStore) : Option CCryptoKeyStore :=
  if !store.isCrypted then some { store with mapKeys := store.mapKeys.insert (crypto.getID pubkey) key }
  else if store.isLocked then none
  else
    match encryptSecret crypto store.vMasterKey key.vch.1 (crypto.getHash pubkey) with
    | none => none
    | some vchCryptedSecret => store.addCryptedKey crypto pubkey vchCryptedSecret

def haveKey (address : CKeyID) (store : CCryptoKeyStore) : Bool :=
  if !store.isCrypted then (store.mapKeys.lookup address).isSome else (store.mapCryptedKeys.lookup address).isSome

def getKey (address : CKeyID) (store : CCryptoKeyStore) : Option CKey :=
  if !store.isCrypted then store.mapKeys.lookup address
  else
    match store.mapCryptedKeys.lookup address with
    | some (vchPubKey, vchCryptedSecret) => decryptKey crypto store.vMasterKey vchCryptedSecret vchPubKey
    | none => none

/-- `CBasicKeyStore::GetPubKey`, which asks the overriding `GetKey`. -/
def basicGetPubKey (address : CKeyID) (store : CCryptoKeyStore) : Option CPubKey :=
  match store.getKey crypto address with
  | some key => some (crypto.getPubKey key)
  | none => store.watch.mapWatchKeys address

def getPubKey (address : CKeyID) (store : CCryptoKeyStore) : Option CPubKey :=
  if !store.isCrypted then store.basicGetPubKey crypto address
  else
    match store.mapCryptedKeys.lookup address with
    | some (vchPubKey, _) => some vchPubKey
    | none => store.basicGetPubKey crypto address

def encryptEach (vMasterKeyIn : CKeyingMaterial) : List CKey → CCryptoKeyStore → Option CCryptoKeyStore
  | [], store => some store
  | key :: rest, store =>
      let vchPubKey := crypto.getPubKey key
      match encryptSecret crypto vMasterKeyIn key.vch.1 (crypto.getHash vchPubKey) with
      | none => none
      | some vchCryptedSecret => (store.addCryptedKey crypto vchPubKey vchCryptedSecret).bind (encryptEach vMasterKeyIn rest)

def encryptKeys (vMasterKeyIn : CKeyingMaterial) (store : CCryptoKeyStore) : Option CCryptoKeyStore :=
  if !store.mapCryptedKeys.entries.isEmpty || store.isCrypted then none
  else
    (encryptEach crypto vMasterKeyIn (store.mapKeys.entries.map Sigma.snd) { store with fUseCrypto := true }).map fun store =>
      { store with mapKeys := ∅ }

end CCryptoKeyStore

structure CWallet where
  store : CCryptoKeyStore := {}
  mapMasterKeys : List (Nat × CMasterKey) := []
  nMasterKeyMaxID : Nat := 0

namespace CWallet

def isCrypted (wallet : CWallet) : Bool := wallet.store.isCrypted

def isLocked (wallet : CWallet) : Bool := wallet.store.isLocked

def lock (wallet : CWallet) : Bool × CWallet := (wallet.store.lock.1, { wallet with store := wallet.store.lock.2 })

def addKeyPubKey (secret : CKey) (pubkey : CPubKey) (wallet : CWallet) : Bool × CWallet :=
  match wallet.store.addKeyPubKey crypto secret pubkey with
  | none => (false, wallet)
  | some store => (true, { wallet with store := { store with watch := store.watch.forget crypto pubkey } })

/-- The loop of `Unlock` over the master keys. -/
def unlockWith (strWalletPassphrase : SecureString) : List CMasterKey → CWallet → Option (Bool × CWallet)
  | [], wallet => some (false, wallet)
  | kMasterKey :: rest, wallet =>
      match setKeyFromPassphrase crypto strWalletPassphrase kMasterKey.vchSalt kMasterKey.nDeriveIterations
          kMasterKey.nDerivationMethod with
      | none => some (false, wallet)
      | some (chKey, chIV) =>
          match crypto.aesDecrypt chKey chIV kMasterKey.vchCryptedKey with
          | none => unlockWith strWalletPassphrase rest wallet
          | some vMasterKey =>
              (wallet.store.unlock crypto vMasterKey).bind fun (unlocked, store) =>
                if unlocked then some (true, { wallet with store := store })
                else unlockWith strWalletPassphrase rest { wallet with store := store }

def unlock (strWalletPassphrase : SecureString) (wallet : CWallet) : Option (Bool × CWallet) :=
  unlockWith crypto strWalletPassphrase (wallet.mapMasterKeys.map Prod.snd) wallet

/-- The number of rounds that the time of this machine leads to is at least 25000. -/
def deriveIterations (measured : Nat) : Nat := if measured < 25000 then 25000 else measured

/-- The loop of `ChangeWalletPassphrase` over the master keys. -/
def changeWith (strOldWalletPassphrase strNewWalletPassphrase : SecureString) (measured : Nat) (fWasLocked : Bool) :
    List (Nat × CMasterKey) → CWallet → Option (Bool × CWallet)
  | [], wallet => some (false, wallet)
  | (id, kMasterKey) :: rest, wallet =>
      match setKeyFromPassphrase crypto strOldWalletPassphrase kMasterKey.vchSalt kMasterKey.nDeriveIterations
          kMasterKey.nDerivationMethod with
      | none => some (false, wallet)
      | some (chKey, chIV) =>
          match crypto.aesDecrypt chKey chIV kMasterKey.vchCryptedKey with
          | none => some (false, wallet)
          | some vMasterKey =>
              (wallet.store.unlock crypto vMasterKey).bind fun (unlocked, store) =>
                let wallet := { wallet with store := store }
                if unlocked then
                  let put (kMasterKey : CMasterKey) (wallet : CWallet) : CWallet :=
                    { wallet with mapMasterKeys := wallet.mapMasterKeys.map fun entry => if entry.1 = id then (id, kMasterKey) else entry }
                  let kMasterKey := { kMasterKey with nDeriveIterations := deriveIterations measured }
                  match setKeyFromPassphrase crypto strNewWalletPassphrase kMasterKey.vchSalt kMasterKey.nDeriveIterations
                      kMasterKey.nDerivationMethod with
                  | none => some (false, put kMasterKey wallet)
                  | some (chKey, chIV) =>
                      let kMasterKey := { kMasterKey with vchCryptedKey := crypto.aesEncrypt chKey chIV vMasterKey }
                      let wallet := put kMasterKey wallet
                      some (true, if fWasLocked then wallet.lock.2 else wallet)
                else changeWith strOldWalletPassphrase strNewWalletPassphrase measured fWasLocked rest wallet

def changeWalletPassphrase (strOldWalletPassphrase strNewWalletPassphrase : SecureString) (measured : Nat) (wallet : CWallet) :
    Option (Bool × CWallet) :=
  changeWith crypto strOldWalletPassphrase strNewWalletPassphrase measured wallet.isLocked wallet.mapMasterKeys wallet.lock.2

/-- `GenerateNewKey` for each key of a new key pool; nothing when a key cannot be added. -/
def newKeyPool : List crypto.KeyPair → CWallet → Option CWallet
  | [], wallet => some wallet
  | secret :: rest, wallet =>
      let (added, wallet) := wallet.addKeyPubKey crypto secret.key secret.pubkey
      if added then newKeyPool rest wallet else none

/-- `EncryptWallet`, with the random master key, the random salt and the new keys of the pool; nothing when an
assertion fails or the pool throws. -/
def encryptWallet (strWalletPassphrase : SecureString) (vMasterKey : Bytes 32) (vchSalt : Bytes 8) (measured : Nat)
    (pool : List crypto.KeyPair) (wallet : CWallet) : Option (Bool × CWallet) :=
  if wallet.isCrypted then some (false, wallet)
  else
    let kMasterKey : CMasterKey := { vchSalt := vchSalt.1, nDeriveIterations := deriveIterations measured }
    match setKeyFromPassphrase crypto strWalletPassphrase kMasterKey.vchSalt kMasterKey.nDeriveIterations
        kMasterKey.nDerivationMethod with
    | none => some (false, wallet)
    | some (chKey, chIV) =>
        let kMasterKey := { kMasterKey with vchCryptedKey := crypto.aesEncrypt chKey chIV vMasterKey.1 }
        let wallet := { wallet with
          nMasterKeyMaxID := wallet.nMasterKeyMaxID + 1
          mapMasterKeys := wallet.mapMasterKeys ++ [(wallet.nMasterKeyMaxID + 1, kMasterKey)] }
        (wallet.store.encryptKeys crypto vMasterKey.1).bind fun store =>
          (unlock crypto strWalletPassphrase { wallet with store := store }.lock.2).bind fun (_, wallet) =>
            if wallet.isLocked then some (true, wallet.lock.2)
            else (newKeyPool crypto pool wallet).map fun wallet => (true, wallet.lock.2)

inductive Call where
  | addKeyPubKey (secret : crypto.KeyPair)
  | encryptWallet (strWalletPassphrase : SecureString) (vMasterKey : Bytes 32) (vchSalt : Bytes 8) (measured : Nat)
      (pool : List crypto.KeyPair)
  | lock
  | unlock (strWalletPassphrase : SecureString)
  | changeWalletPassphrase (strOldWalletPassphrase strNewWalletPassphrase : SecureString) (measured : Nat)

/-- A call and its answer; nothing when an assertion fails. -/
def call (wallet : CWallet) : Call crypto → Option (Bool × CWallet)
  | .addKeyPubKey secret => some (wallet.addKeyPubKey crypto secret.key secret.pubkey)
  | .encryptWallet strWalletPassphrase vMasterKey vchSalt measured pool =>
      wallet.encryptWallet crypto strWalletPassphrase vMasterKey vchSalt measured pool
  | .lock => some wallet.lock
  | .unlock strWalletPassphrase => wallet.unlock crypto strWalletPassphrase
  | .changeWalletPassphrase old new measured => wallet.changeWalletPassphrase crypto old new measured

def history (wallet : CWallet) : List (Call crypto) → Option (List Bool × CWallet)
  | [] => some ([], wallet)
  | first :: rest => do
      let (answer, wallet) ← call crypto wallet first
      let (answers, wallet) ← history wallet rest
      return (answer :: answers, wallet)

end CWallet

end Longcoin.Crypter

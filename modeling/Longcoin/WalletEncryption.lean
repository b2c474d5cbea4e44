import Longcoin.Crypter

/-! The encrypted wallet refines a plain map of keys with a current passphrase and a lock. -/

namespace Longcoin.Crypter
open AList List Option

/-- What the wallet is for: the keys, the passphrase if there is one, and whether it is locked. -/
structure Plain where
  keys : CKeyID → Option CKey
  watch : WatchOnly
  current : Option SecureString := none
  locked : Bool := false

namespace Plain

variable (crypto : Crypto)

def add (plain : Plain) (secret : crypto.KeyPair) : Plain :=
  { plain with
    keys := Function.update plain.keys (crypto.getID secret.pubkey) (some secret.key)
    watch := plain.watch.forget crypto secret.pubkey }

def call (plain : Plain) : CWallet.Call crypto → Bool × Plain
  | .addKeyPubKey secret => if plain.locked then (false, plain) else (true, plain.add crypto secret)
  | .encryptWallet passphrase _ _ _ pool =>
      if plain.current.isSome then (false, plain)
      else (true, { pool.foldl (add crypto) plain with current := some passphrase, locked := true })
  | .lock => (plain.current.isSome, { plain with locked := plain.current.isSome })
  | .unlock passphrase =>
      if plain.current = some passphrase then (true, { plain with locked := false }) else (false, plain)
  | .changeWalletPassphrase old new _ =>
      if plain.current = some old then (true, { plain with current := some new })
      else (false, { plain with locked := plain.current.isSome })

def history (plain : Plain) : List (CWallet.Call crypto) → List Bool × Plain
  | [] => ([], plain)
  | first :: rest =>
      let (answer, plain) := plain.call crypto first
      let (answers, plain) := history plain rest
      (answer :: answers, plain)

end Plain

/-- The passphrases, salts, numbers of rounds and master keys that occur in a run. -/
structure Occurring where
  passphrases : Set SecureString
  salts : Set (List UInt8)
  rounds : Set Nat
  masterKeys : Set CKeyingMaterial

/-- The keys and IVs that the passphrases lead to. -/
def Occurring.derived (occurring : Occurring) (crypto : Crypto) : Set (List UInt8 × List UInt8) :=
  {keyIV | ∃ chSalt ∈ occurring.salts, ∃ strKeyData ∈ occurring.passphrases, ∃ nRounds ∈ occurring.rounds,
    crypto.bytesToKey chSalt strKeyData nRounds = keyIV}

/-- What a master key is decrypted to, under the right key or another one. -/
def Occurring.tried (occurring : Occurring) (crypto : Crypto) : Set CKeyingMaterial :=
  {found | ∃ keyIV ∈ occurring.derived crypto, ∃ keyIV' ∈ occurring.derived crypto, ∃ vMasterKey ∈ occurring.masterKeys,
    crypto.aesDecrypt keyIV'.1 keyIV'.2 (crypto.aesEncrypt keyIV.1 keyIV.2 vMasterKey) = some found}

/-- Decryption inverts encryption under the right key and IV. Of what occurs in the run: passphrases lead to different keys, under
the wrong one a master key does not come out, and a secret that comes out under a wrong master key does not belong to the public key. -/
structure Lawful (crypto : Crypto) (occurring : Occurring) : Prop where
  decrypt_encrypt : ∀ chKey chIV vchPlaintext,
    crypto.aesDecrypt chKey chIV (crypto.aesEncrypt chKey chIV vchPlaintext) = some vchPlaintext
  decrypt_wrong : ∀ keyIV ∈ occurring.derived crypto, ∀ keyIV' ∈ occurring.derived crypto, keyIV ≠ keyIV' →
    ∀ vMasterKey ∈ occurring.masterKeys,
      crypto.aesDecrypt keyIV'.1 keyIV'.2 (crypto.aesEncrypt keyIV.1 keyIV.2 vMasterKey) ≠ some vMasterKey
  verify_wrong : ∀ (secret : crypto.KeyPair), ∀ vMasterKey ∈ occurring.masterKeys, ∀ vMasterKey' ∈ occurring.tried crypto,
    ∀ vchSecret : Bytes 32, vMasterKey ≠ vMasterKey' →
    crypto.aesDecrypt vMasterKey' (crypto.getHash secret.pubkey)
      (crypto.aesEncrypt vMasterKey (crypto.getHash secret.pubkey) secret.key.vch.1) = some vchSecret.1 →
    crypto.verifyPubKey ⟨vchSecret, crypto.isCompressed secret.pubkey⟩ secret.pubkey = false
  isCompressed : ∀ secret : crypto.KeyPair, crypto.isCompressed secret.pubkey = secret.key.fCompressed
  bytesToKey_injective : ∀ chSalt ∈ occurring.salts, ∀ nRounds ∈ occurring.rounds,
    occurring.passphrases.InjOn fun strKeyData => crypto.bytesToKey chSalt strKeyData nRounds

variable {crypto : Crypto} {occurring : Occurring}

def sealedKey (crypto : Crypto) (vMasterKey : CKeyingMaterial) (key : CKey) : CPubKey × List UInt8 :=
  (crypto.getPubKey key, crypto.aesEncrypt vMasterKey (crypto.getHash (crypto.getPubKey key)) key.vch.1)

def Sound (crypto : Crypto) (key : CKey) : Prop := crypto.verifyPubKey key (crypto.getPubKey key) = true

def Sound.pair {key : CKey} (sound : Sound crypto key) : crypto.KeyPair := ⟨key, crypto.getPubKey key, rfl, sound⟩

namespace Lawful

theorem decryptKey_right (lawful : Lawful crypto occurring) {key : CKey} (sound : Sound crypto key) (vMasterKey : Bytes 32) :
    decryptKey crypto vMasterKey.1 (sealedKey crypto vMasterKey.1 key).2 (crypto.getPubKey key) = some key := by
  have opened : decryptSecret crypto vMasterKey.1 (sealedKey crypto vMasterKey.1 key).2
      (crypto.getHash (crypto.getPubKey key)) = some key.vch.1 := by
    rw [decryptSecret, if_neg (fun short => short vMasterKey.2), sealedKey, lawful.decrypt_encrypt]
  rw [decryptKey, opened]
  dsimp only
  have compressed : crypto.isCompressed (crypto.getPubKey key) = key.fCompressed := lawful.isCompressed sound.pair
  have verifies : crypto.verifyPubKey key (crypto.getPubKey key) = true := sound
  have same : (⟨⟨key.vch.1, key.vch.2⟩, crypto.isCompressed (crypto.getPubKey key)⟩ : CKey) = key := by rw [compressed]
  rw [dif_pos key.vch.2, same, if_pos verifies]

theorem decryptKey_wrong (lawful : Lawful crypto occurring) {key : CKey} (sound : Sound crypto key) {vMasterKey other : CKeyingMaterial}
    (occurs : vMasterKey ∈ occurring.masterKeys) (tried : other ∈ occurring.tried crypto) (wrong : vMasterKey ≠ other) :
    decryptKey crypto other (sealedKey crypto vMasterKey key).2 (crypto.getPubKey key) = none := by
  cases opened : decryptSecret crypto other (sealedKey crypto vMasterKey key).2 (crypto.getHash (crypto.getPubKey key)) with
  | none => rw [decryptKey, opened]
  | some vchSecret =>
    rw [decryptKey, opened]
    dsimp only
    split
    next size =>
      rw [decryptSecret] at opened
      split at opened
      · cases opened
      · have fails : crypto.verifyPubKey ⟨⟨vchSecret, size⟩, crypto.isCompressed (crypto.getPubKey key)⟩
            (crypto.getPubKey key) = false := lawful.verify_wrong sound.pair vMasterKey occurs other tried ⟨vchSecret, size⟩ wrong opened
        rw [fails, if_neg Bool.false_ne_true]
    next => rfl

theorem checkKeys_right (lawful : Lawful crypto occurring) (vMasterKey : Bytes 32) (thorough : Bool) {entries : List (CPubKey × List UInt8)}
    (encrypted : ∀ entry ∈ entries, ∃ key, Sound crypto key ∧ entry = sealedKey crypto vMasterKey.1 key) (keyPass : Bool) :
    CCryptoKeyStore.checkKeys crypto vMasterKey.1 thorough entries keyPass = (keyPass || !entries.isEmpty, false) := by
  induction entries generalizing keyPass with
  | nil => rw [CCryptoKeyStore.checkKeys, isEmpty_nil, Bool.not_true, Bool.or_false]
  | cons entry rest ih =>
    obtain ⟨key, sound, rfl⟩ := encrypted entry mem_cons_self
    have opened := lawful.decryptKey_right sound vMasterKey
    rw [sealedKey] at opened ⊢
    rw [CCryptoKeyStore.checkKeys, opened]
    dsimp only
    split
    · simp
    · rw [ih (forall_mem_cons.mp encrypted).2]
      simp

theorem checkKeys_wrong (lawful : Lawful crypto occurring) {vMasterKey other : CKeyingMaterial} (occurs : vMasterKey ∈ occurring.masterKeys)
    (tried : other ∈ occurring.tried crypto) (wrong : vMasterKey ≠ other) (thorough : Bool) {entries : List (CPubKey × List UInt8)}
    (encrypted : ∀ entry ∈ entries, ∃ key, Sound crypto key ∧ entry = sealedKey crypto vMasterKey key) (some' : entries ≠ []) :
    CCryptoKeyStore.checkKeys crypto other thorough entries false = (false, true) := by
  cases entries with
  | nil => exact absurd rfl some'
  | cons entry rest =>
    obtain ⟨key, sound, rfl⟩ := encrypted entry mem_cons_self
    have closed := lawful.decryptKey_wrong sound occurs tried wrong
    rw [sealedKey] at closed ⊢
    rw [CCryptoKeyStore.checkKeys, closed]

end Lawful

/-- The store holds the keys of a map under a master key, and at least one. -/
structure Holds (crypto : Crypto) (vMasterKey : CKeyingMaterial) (keys : CKeyID → Option CKey) (store : CCryptoKeyStore) : Prop where
  crypted : store.fUseCrypto = true
  noPlain : store.mapKeys = ∅
  lookup : ∀ id, store.mapCryptedKeys.lookup id = (keys id).map (sealedKey crypto vMasterKey)

structure Keyed (crypto : Crypto) (keys : CKeyID → Option CKey) : Prop where
  ids : ∀ id key, keys id = some key → crypto.getID (crypto.getPubKey key) = id
  sound : ∀ id key, keys id = some key → Sound crypto key
  some' : ∃ id key, keys id = some key

theorem Keyed.add {keys : CKeyID → Option CKey} (keyed : Keyed crypto keys) (secret : crypto.KeyPair) :
    Keyed crypto (Function.update keys (crypto.getID secret.pubkey) (some secret.key)) := by
  have each : ∀ (holds : CKeyID → CKey → Prop), holds (crypto.getID secret.pubkey) secret.key →
      (∀ id key, keys id = some key → holds id key) → ∀ id key,
        Function.update keys (crypto.getID secret.pubkey) (some secret.key) id = some key → holds id key := by
    intro holds fresh old id key found
    by_cases here : id = crypto.getID secret.pubkey
    · subst here
      rw [Function.update_self] at found
      cases found
      exact fresh
    · rw [Function.update_of_ne here] at found
      exact old id key found
  refine ⟨each _ (by rw [secret.same]) keyed.ids, each _ ?_ keyed.sound, crypto.getID secret.pubkey, secret.key,
    Function.update_self _ _ _⟩
  rw [Sound, secret.same]
  exact secret.verifies

namespace Holds

variable {vMasterKey : Bytes 32} {keys : CKeyID → Option CKey} {store : CCryptoKeyStore}

theorem setCrypted (holds : Holds crypto vMasterKey.1 keys store) : store.setCrypted = some store := by
  rw [CCryptoKeyStore.setCrypted, holds.crypted, if_pos rfl]

theorem encrypted (holds : Holds crypto vMasterKey.1 keys store) (keyed : Keyed crypto keys) :
    ∀ entry ∈ store.mapCryptedKeys.entries.map Sigma.snd, ∃ key, Sound crypto key ∧ entry = sealedKey crypto vMasterKey.1 key := by
  intro entry member
  obtain ⟨⟨id, entry'⟩, there, rfl⟩ := mem_map.mp member
  have found : store.mapCryptedKeys.lookup id = some entry' := mem_lookup_iff.mpr there
  rw [holds.lookup] at found
  obtain ⟨key, here, rfl⟩ := map_eq_some_iff.mp found
  exact ⟨key, keyed.sound id key here, rfl⟩

theorem nonempty (holds : Holds crypto vMasterKey.1 keys store) (keyed : Keyed crypto keys) :
    store.mapCryptedKeys.entries.map Sigma.snd ≠ [] := by
  obtain ⟨id, key, here⟩ := keyed.some'
  have found : store.mapCryptedKeys.lookup id = some (sealedKey crypto vMasterKey.1 key) := by
    rw [holds.lookup, here, map_some]
  intro empty
  have member := mem_lookup_iff.mp (mem_def.mpr found)
  rw [map_eq_nil_iff.mp empty] at member
  cases member

theorem unlock_right (lawful : Lawful crypto occurring) (holds : Holds crypto vMasterKey.1 keys store) (keyed : Keyed crypto keys) :
    store.unlock crypto vMasterKey.1 =
      some (true, { store with vMasterKey := vMasterKey.1, fDecryptionThoroughlyChecked := true }) := by
  have filled : (store.mapCryptedKeys.entries.map Sigma.snd).isEmpty = false := by
    simpa using holds.nonempty keyed
  rw [CCryptoKeyStore.unlock, holds.setCrypted]
  dsimp only
  rw [lawful.checkKeys_right vMasterKey _ (holds.encrypted keyed), filled]
  rfl

theorem unlock_wrong (lawful : Lawful crypto occurring) (holds : Holds crypto vMasterKey.1 keys store) (keyed : Keyed crypto keys)
    {other : CKeyingMaterial} (occurs : vMasterKey.1 ∈ occurring.masterKeys) (tried : other ∈ occurring.tried crypto)
    (wrong : vMasterKey.1 ≠ other) : store.unlock crypto other = some (false, store) := by
  rw [CCryptoKeyStore.unlock, holds.setCrypted]
  dsimp only
  rw [lawful.checkKeys_wrong occurs tried wrong _ (holds.encrypted keyed) (holds.nonempty keyed)]
  rfl

theorem lock (holds : Holds crypto vMasterKey.1 keys store) : store.lock = (true, { store with vMasterKey := [] }) := by
  rw [CCryptoKeyStore.lock, holds.setCrypted]

theorem insert (holds : Holds crypto vMasterKey.1 keys store) (secret : crypto.KeyPair) :
    store.addCryptedKey crypto secret.pubkey (sealedKey crypto vMasterKey.1 secret.key).2 =
      some { store with mapCryptedKeys :=
        store.mapCryptedKeys.insert (crypto.getID secret.pubkey) (sealedKey crypto vMasterKey.1 secret.key) } := by
  rw [CCryptoKeyStore.addCryptedKey, holds.setCrypted, map_some]
  have same : (sealedKey crypto vMasterKey.1 secret.key) = (secret.pubkey, (sealedKey crypto vMasterKey.1 secret.key).2) := by
    rw [sealedKey, secret.same]
  rw [← same]

theorem inserted (holds : Holds crypto vMasterKey.1 keys store) (secret : crypto.KeyPair) (watch : WatchOnly) :
    Holds crypto vMasterKey.1 (Function.update keys (crypto.getID secret.pubkey) (some secret.key))
      { store with
        mapCryptedKeys := store.mapCryptedKeys.insert (crypto.getID secret.pubkey) (sealedKey crypto vMasterKey.1 secret.key)
        watch := watch } := by
  refine ⟨holds.crypted, holds.noPlain, fun id => ?_⟩
  by_cases here : id = crypto.getID secret.pubkey
  · subst here
    rw [Function.update_self, map_some]
    exact lookup_insert _
  · rw [Function.update_of_ne here, ← holds.lookup]
    exact lookup_insert_ne here

end Holds

theorem encryptEach_seals (vMasterKey : Bytes 32) (entries : List (Sigma fun _ : CKeyID => CKey)) (distinct : entries.NodupKeys)
    (ids : ∀ entry ∈ entries, crypto.getID (crypto.getPubKey entry.2) = entry.1) (store : CCryptoKeyStore)
    (crypted : store.fUseCrypto = true) :
    ∃ map : CryptedKeyMap, CCryptoKeyStore.encryptEach crypto vMasterKey.1 (entries.map Sigma.snd) store =
        some { store with mapCryptedKeys := map } ∧
      ∀ id, map.lookup id = ((entries.dlookup id).map (sealedKey crypto vMasterKey.1)).or (store.mapCryptedKeys.lookup id) := by
  induction entries generalizing store with
  | nil => exact ⟨store.mapCryptedKeys, rfl, fun id => rfl⟩
  | cons entry rest ih =>
    obtain ⟨id, key⟩ := entry
    have here : crypto.getID (crypto.getPubKey key) = id := ids ⟨id, key⟩ mem_cons_self
    obtain ⟨fresh, distinct⟩ := nodupKeys_cons.mp distinct
    have long : ¬vMasterKey.1.length ≠ WALLET_CRYPTO_KEY_SIZE := fun short => short vMasterKey.2
    obtain ⟨map, folded, lookup⟩ := ih distinct (forall_mem_cons.mp ids).2
      { store with mapCryptedKeys := store.mapCryptedKeys.insert id (sealedKey crypto vMasterKey.1 key) } crypted
    refine ⟨map, ?_, fun other => ?_⟩
    · rw [map_cons, CCryptoKeyStore.encryptEach]
      dsimp only
      have added : store.addCryptedKey crypto (crypto.getPubKey key) (sealedKey crypto vMasterKey.1 key).2 =
          some { store with mapCryptedKeys := store.mapCryptedKeys.insert id (sealedKey crypto vMasterKey.1 key) } := by
        rw [CCryptoKeyStore.addCryptedKey, CCryptoKeyStore.setCrypted, if_pos crypted, map_some, here]
        rfl
      rw [sealedKey] at added
      rw [encryptSecret, if_neg long]
      dsimp only
      rw [added, bind_some]
      exact folded
    · rw [lookup]
      by_cases same : other = id
      · subst same
        rw [dlookup_cons_eq, dlookup_eq_none.mpr fresh, lookup_insert]
        rfl
      · rw [dlookup_cons_ne _ _ same, lookup_insert_ne same]

structure Unencrypted (crypto : Crypto) (plain : Plain) (wallet : CWallet) : Prop where
  crypted : wallet.store.fUseCrypto = false
  noCrypted : wallet.store.mapCryptedKeys = ∅
  noMasterKey : wallet.store.vMasterKey = []
  noMasterKeys : wallet.mapMasterKeys = []
  lookup : ∀ id, wallet.store.mapKeys.lookup id = plain.keys id
  current : plain.current = none
  unlocked : plain.locked = false

structure Opens (crypto : Crypto) (occurring : Occurring) (passphrase : SecureString) (vMasterKey : CKeyingMaterial) (kMasterKey : CMasterKey) : Prop where
  method : kMasterKey.nDerivationMethod = 0
  salt : kMasterKey.vchSalt.length = WALLET_CRYPTO_SALT_SIZE
  rounds : 1 ≤ kMasterKey.nDeriveIterations
  crypted : kMasterKey.vchCryptedKey =
    crypto.aesEncrypt (crypto.bytesToKey kMasterKey.vchSalt passphrase kMasterKey.nDeriveIterations).1
      (crypto.bytesToKey kMasterKey.vchSalt passphrase kMasterKey.nDeriveIterations).2 vMasterKey
  passphrase : passphrase ∈ occurring.passphrases
  masterKey : vMasterKey ∈ occurring.masterKeys
  derivation : kMasterKey.vchSalt ∈ occurring.salts ∧ kMasterKey.nDeriveIterations ∈ occurring.rounds

/-- An encrypted wallet: the keys are sealed under one master key, which the current passphrase opens and which is
in memory when the wallet is not locked. -/
structure Encrypted (crypto : Crypto) (occurring : Occurring) (vMasterKey : Bytes 32) (passphrase : SecureString) (plain : Plain) (wallet : CWallet) : Prop where
  holds : Holds crypto vMasterKey.1 plain.keys wallet.store
  masterKeys : ∃ id kMasterKey, wallet.mapMasterKeys = [(id, kMasterKey)] ∧ Opens crypto occurring passphrase vMasterKey.1 kMasterKey
  current : plain.current = some passphrase
  memory : wallet.store.vMasterKey = if plain.locked then [] else vMasterKey.1

structure Refines (crypto : Crypto) (occurring : Occurring) (plain : Plain) (wallet : CWallet) : Prop where
  keyed : Keyed crypto plain.keys
  watch : wallet.store.watch = plain.watch
  keys : Unencrypted crypto plain wallet ∨ ∃ vMasterKey passphrase, Encrypted crypto occurring vMasterKey passphrase plain wallet

/-- What a request names is of the run. -/
def CWallet.Call.Occurs (occurring : Occurring) : CWallet.Call crypto → Prop
  | .addKeyPubKey _ | .lock => True
  | .encryptWallet passphrase vMasterKey vchSalt measured _ => passphrase ∈ occurring.passphrases ∧
      vMasterKey.1 ∈ occurring.masterKeys ∧ vchSalt.1 ∈ occurring.salts ∧ CWallet.deriveIterations measured ∈ occurring.rounds
  | .unlock passphrase => passphrase ∈ occurring.passphrases
  | .changeWalletPassphrase old new measured => old ∈ occurring.passphrases ∧ new ∈ occurring.passphrases ∧
      CWallet.deriveIterations measured ∈ occurring.rounds

variable {kMasterKey : CMasterKey}

theorem Opens.setKey {passphrase : SecureString} {vMasterKey : CKeyingMaterial}
    (opens : Opens crypto occurring passphrase vMasterKey kMasterKey) (strKeyData : SecureString) :
    setKeyFromPassphrase crypto strKeyData kMasterKey.vchSalt kMasterKey.nDeriveIterations kMasterKey.nDerivationMethod =
      some (crypto.bytesToKey kMasterKey.vchSalt strKeyData kMasterKey.nDeriveIterations) := by
  have rounds := opens.rounds
  rw [setKeyFromPassphrase, if_neg, opens.method, if_pos rfl]
  rintro (few | size)
  · omega
  · exact size opens.salt

theorem Opens.decrypt_right (lawful : Lawful crypto occurring) {passphrase : SecureString} {vMasterKey : CKeyingMaterial}
    (opens : Opens crypto occurring passphrase vMasterKey kMasterKey) :
    crypto.aesDecrypt (crypto.bytesToKey kMasterKey.vchSalt passphrase kMasterKey.nDeriveIterations).1
      (crypto.bytesToKey kMasterKey.vchSalt passphrase kMasterKey.nDeriveIterations).2 kMasterKey.vchCryptedKey = some vMasterKey := by
  rw [opens.crypted, lawful.decrypt_encrypt]

theorem Opens.decrypt_wrong (lawful : Lawful crypto occurring) {passphrase other : SecureString} {vMasterKey : CKeyingMaterial}
    (opens : Opens crypto occurring passphrase vMasterKey kMasterKey) (different : passphrase ≠ other)
    (occurs : other ∈ occurring.passphrases) {found : CKeyingMaterial}
    (decrypted : crypto.aesDecrypt (crypto.bytesToKey kMasterKey.vchSalt other kMasterKey.nDeriveIterations).1
      (crypto.bytesToKey kMasterKey.vchSalt other kMasterKey.nDeriveIterations).2 kMasterKey.vchCryptedKey = some found) :
    found ∈ occurring.tried crypto ∧ vMasterKey ≠ found := by
  obtain ⟨salt, rounds⟩ := opens.derivation
  have derived : ∀ strKeyData ∈ occurring.passphrases,
      crypto.bytesToKey kMasterKey.vchSalt strKeyData kMasterKey.nDeriveIterations ∈ occurring.derived crypto :=
    fun strKeyData member => ⟨_, salt, strKeyData, member, _, rounds, rfl⟩
  rw [opens.crypted] at decrypted
  refine ⟨⟨_, derived _ opens.passphrase, _, derived _ occurs, _, opens.masterKey, decrypted⟩, ?_⟩
  rintro rfl
  refine lawful.decrypt_wrong _ (derived _ opens.passphrase) _ (derived _ occurs) (fun same => different ?_) _ opens.masterKey decrypted
  exact lawful.bytesToKey_injective _ salt _ rounds opens.passphrase occurs same

theorem Encrypted.unlock (lawful : Lawful crypto occurring) {vMasterKey : Bytes 32} {passphrase : SecureString} {plain : Plain} {wallet : CWallet}
    (encrypted : Encrypted crypto occurring vMasterKey passphrase plain wallet) (keyed : Keyed crypto plain.keys) {attempt : SecureString}
    (occurs : attempt ∈ occurring.passphrases) : wallet.unlock crypto attempt =
      if passphrase = attempt then
        some (true, { wallet with store := { wallet.store with vMasterKey := vMasterKey.1, fDecryptionThoroughlyChecked := true } })
      else some (false, wallet) := by
  obtain ⟨id, kMasterKey, entries, opens⟩ := encrypted.masterKeys
  have only : wallet.mapMasterKeys.map Prod.snd = [kMasterKey] := by rw [entries, map_singleton]
  rw [CWallet.unlock, only, CWallet.unlockWith, opens.setKey]
  dsimp only
  by_cases right : passphrase = attempt
  · subst right
    rw [opens.decrypt_right lawful]
    dsimp only
    rw [encrypted.holds.unlock_right lawful keyed, if_pos rfl]
    rfl
  · rw [if_neg right]
    cases decrypted : crypto.aesDecrypt (crypto.bytesToKey kMasterKey.vchSalt attempt kMasterKey.nDeriveIterations).1
        (crypto.bytesToKey kMasterKey.vchSalt attempt kMasterKey.nDeriveIterations).2 kMasterKey.vchCryptedKey with
    | none => rfl
    | some found =>
      dsimp only
      obtain ⟨tried, wrong⟩ := opens.decrypt_wrong lawful right occurs decrypted
      rw [encrypted.holds.unlock_wrong lawful keyed opens.masterKey tried wrong]
      rfl

variable {plain : Plain} {wallet : CWallet} {vMasterKey : Bytes 32} {passphrase : SecureString}

theorem Encrypted.locked (encrypted : Encrypted crypto occurring vMasterKey passphrase plain wallet) : wallet.isLocked = plain.locked := by
  have long : vMasterKey.1.isEmpty = false := by
    cases empty : vMasterKey.1 with
    | nil =>
      have size := vMasterKey.2
      rw [empty] at size
      cases size
    | cons => rfl
  rw [CWallet.isLocked, CCryptoKeyStore.isLocked, CCryptoKeyStore.isCrypted, encrypted.holds.crypted, Bool.true_and, encrypted.memory]
  cases plain.locked with
  | true => rfl
  | false => exact long

theorem Unencrypted.lock (open' : Unencrypted crypto plain wallet) (keyed : Keyed crypto plain.keys) :
    wallet.lock = (false, wallet) := by
  obtain ⟨id, key, here⟩ := keyed.some'
  have filled : wallet.store.mapKeys.entries.isEmpty = false := by
    have found : wallet.store.mapKeys.lookup id = some key := (open'.lookup id).trans here
    have member := mem_lookup_iff.mp (mem_def.mpr found)
    cases empty : wallet.store.mapKeys.entries with
    | nil =>
      rw [empty] at member
      cases member
    | cons => rfl
  have refused : wallet.store.setCrypted = none := by
    rw [CCryptoKeyStore.setCrypted, open'.crypted, filled]
    rfl
  rw [CWallet.lock, CCryptoKeyStore.lock, refused]

namespace Refines

section

variable (refines : Refines crypto occurring plain wallet)
include refines

theorem isLocked : wallet.isLocked = plain.locked := by
  rcases refines.keys with open' | ⟨vMasterKey, passphrase, encrypted⟩
  · rw [CWallet.isLocked, CCryptoKeyStore.isLocked, CCryptoKeyStore.isCrypted, open'.crypted, open'.unlocked]
    rfl
  · exact encrypted.locked

theorem isCrypted : wallet.isCrypted = plain.current.isSome := by
  rcases refines.keys with open' | ⟨vMasterKey, passphrase, encrypted⟩
  · rw [open'.current]
    exact open'.crypted
  · rw [encrypted.current]
    exact encrypted.holds.crypted

theorem lock : wallet.lock.1 = plain.current.isSome ∧
    Refines crypto occurring { plain with locked := plain.current.isSome } wallet.lock.2 := by
  rcases refines.keys with open' | ⟨vMasterKey, passphrase, encrypted⟩
  · have off : plain.current.isSome = plain.locked := by
      rw [open'.current, open'.unlocked]
      rfl
    rw [open'.lock refines.keyed, off]
    exact ⟨open'.unlocked.symm, refines⟩
  · have on : plain.current.isSome = true := by rw [encrypted.current, isSome_some]
    have holds := encrypted.holds
    rw [CWallet.lock, holds.lock, on]
    exact ⟨rfl, refines.keyed, refines.watch, .inr ⟨vMasterKey, passphrase,
      { holds with }, encrypted.masterKeys, encrypted.current, rfl⟩⟩

theorem unlock (lawful : Lawful crypto occurring) {attempt : SecureString} (occurs : attempt ∈ occurring.passphrases) : ∃ wallet',
    wallet.unlock crypto attempt = some ((plain.call crypto (.unlock attempt)).1, wallet') ∧
      Refines crypto occurring (plain.call crypto (.unlock attempt)).2 wallet' := by
  rcases refines.keys with open' | ⟨vMasterKey, passphrase, encrypted⟩
  · have fails : plain.call crypto (.unlock attempt) = (false, plain) := by
      rw [Plain.call, open'.current, if_neg nofun]
    rw [fails]
    refine ⟨wallet, ?_, refines⟩
    rw [CWallet.unlock, open'.noMasterKeys]
    rfl
  · have holds := encrypted.holds
    rw [encrypted.unlock lawful refines.keyed occurs, Plain.call]
    by_cases right : passphrase = attempt
    · rw [if_pos right, if_pos (by rw [encrypted.current, right])]
      exact ⟨_, rfl, refines.keyed, refines.watch, .inr ⟨vMasterKey, passphrase,
        { holds with }, encrypted.masterKeys, encrypted.current, rfl⟩⟩
    · rw [if_neg right, if_neg fun same => right (some.inj (encrypted.current.symm.trans same))]
      exact ⟨wallet, rfl, refines⟩

theorem addKeyPubKey_unlocked (unlocked : plain.locked = false) (secret : crypto.KeyPair) : ∃ wallet',
    wallet.addKeyPubKey crypto secret.key secret.pubkey = (true, wallet') ∧ Refines crypto occurring (plain.add crypto secret) wallet' := by
  have watch := refines.watch
  rcases refines.keys with open' | ⟨vMasterKey, passphrase, encrypted⟩
  · have added : wallet.store.addKeyPubKey crypto secret.key secret.pubkey =
        some { wallet.store with mapKeys := wallet.store.mapKeys.insert (crypto.getID secret.pubkey) secret.key } := by
      rw [CCryptoKeyStore.addKeyPubKey, if_pos]
      rw [CCryptoKeyStore.isCrypted, open'.crypted]
      rfl
    rw [CWallet.addKeyPubKey, added]
    refine ⟨_, rfl, refines.keyed.add secret, congrArg (WatchOnly.forget crypto secret.pubkey) watch, .inl
      ⟨open'.crypted, open'.noCrypted, open'.noMasterKey, open'.noMasterKeys, fun id => ?_, open'.current, open'.unlocked⟩⟩
    dsimp only [Plain.add]
    by_cases here : id = crypto.getID secret.pubkey
    · subst here
      rw [Function.update_self]
      exact lookup_insert _
    · rw [Function.update_of_ne here, ← open'.lookup]
      exact lookup_insert_ne here
  · have holds := encrypted.holds
    have memory : wallet.store.vMasterKey = vMasterKey.1 := by
      rw [encrypted.memory, unlocked]
      rfl
    have long : ¬vMasterKey.1.length ≠ WALLET_CRYPTO_KEY_SIZE := fun short => short vMasterKey.2
    have isLocked : wallet.store.isLocked = false := encrypted.locked.trans unlocked
    have inserts := holds.insert secret
    rw [sealedKey, secret.same] at inserts
    have added : wallet.store.addKeyPubKey crypto secret.key secret.pubkey = some { wallet.store with
        mapCryptedKeys := wallet.store.mapCryptedKeys.insert (crypto.getID secret.pubkey)
          (sealedKey crypto vMasterKey.1 secret.key) } := by
      rw [CCryptoKeyStore.addKeyPubKey, CCryptoKeyStore.isCrypted, holds.crypted, isLocked, memory, encryptSecret, if_neg long,
        sealedKey, secret.same]
      exact inserts
    rw [CWallet.addKeyPubKey, added]
    refine ⟨_, rfl, refines.keyed.add secret, congrArg (WatchOnly.forget crypto secret.pubkey) watch, .inr
      ⟨vMasterKey, passphrase, holds.inserted secret _, encrypted.masterKeys, encrypted.current, encrypted.memory⟩⟩

theorem addKeyPubKey_locked (locked : plain.locked = true) (secret : crypto.KeyPair) :
    wallet.addKeyPubKey crypto secret.key secret.pubkey = (false, wallet) := by
  rcases refines.keys with open' | ⟨vMasterKey, passphrase, encrypted⟩
  · cases open'.unlocked.symm.trans locked
  · have isLocked : wallet.store.isLocked = true := encrypted.locked.trans locked
    have refused : wallet.store.addKeyPubKey crypto secret.key secret.pubkey = none := by
      rw [CCryptoKeyStore.addKeyPubKey, CCryptoKeyStore.isCrypted, encrypted.holds.crypted, isLocked]
      rfl
    rw [CWallet.addKeyPubKey, refused]

theorem newKeyPool (unlocked : plain.locked = false) (pool : List crypto.KeyPair) :
    ∃ wallet', CWallet.newKeyPool crypto pool wallet = some wallet' ∧
      Refines crypto occurring (pool.foldl (Plain.add crypto) plain) wallet' := by
  induction pool generalizing plain wallet with
  | nil => exact ⟨wallet, rfl, refines⟩
  | cons secret rest ih =>
    obtain ⟨next, added, kept⟩ := refines.addKeyPubKey_unlocked unlocked secret
    obtain ⟨last, filled, refined⟩ := ih kept unlocked
    refine ⟨last, ?_, refined⟩
    rw [CWallet.newKeyPool, added]
    exact filled

end

end Refines

theorem Unencrypted.encryptKeys (open' : Unencrypted crypto plain wallet) (keyed : Keyed crypto plain.keys) (vMasterKey : Bytes 32) :
    ∃ store, wallet.store.encryptKeys crypto vMasterKey.1 = some store ∧ Holds crypto vMasterKey.1 plain.keys store ∧
      store.vMasterKey = [] ∧ store.watch = wallet.store.watch := by
  have ids : ∀ entry ∈ wallet.store.mapKeys.entries, crypto.getID (crypto.getPubKey entry.2) = entry.1 := fun entry member =>
    keyed.ids entry.1 entry.2 ((open'.lookup entry.1).symm.trans (mem_lookup_iff.mpr member))
  obtain ⟨map, each, lookup⟩ := encryptEach_seals vMasterKey wallet.store.mapKeys.entries wallet.store.mapKeys.nodupKeys ids
    { wallet.store with fUseCrypto := true } rfl
  refine ⟨{ wallet.store with fUseCrypto := true, mapCryptedKeys := map, mapKeys := ∅ }, ?_, ⟨rfl, rfl, fun id => ?_⟩,
    open'.noMasterKey, rfl⟩
  · rw [CCryptoKeyStore.encryptKeys, if_neg, each, map_some]
    rw [open'.noCrypted, CCryptoKeyStore.isCrypted, open'.crypted]
    exact Bool.false_ne_true
  · rw [← open'.lookup]
    dsimp only at lookup ⊢
    rw [lookup id, open'.noCrypted]
    exact or_none

theorem deriveIterations_pos (measured : Nat) : 1 ≤ CWallet.deriveIterations measured := by
  rw [CWallet.deriveIterations]
  split <;> omega

theorem foldl_add (plain : Plain) (current : Option SecureString) (locked : Bool) (pool : List crypto.KeyPair) :
    pool.foldl (Plain.add crypto) { plain with current := current, locked := locked } =
      { pool.foldl (Plain.add crypto) plain with current := current, locked := locked } := by
  induction pool generalizing plain with
  | nil => rfl
  | cons secret rest ih => exact ih (plain.add crypto secret)

namespace Refines

theorem encryptWallet (lawful : Lawful crypto occurring) (refines : Refines crypto occurring plain wallet) {passphrase : SecureString}
    {vMasterKey : Bytes 32} {vchSalt : Bytes 8} {measured : Nat} {pool : List crypto.KeyPair}
    (occurs : (CWallet.Call.encryptWallet passphrase vMasterKey vchSalt measured pool).Occurs occurring) : ∃ wallet',
    wallet.encryptWallet crypto passphrase vMasterKey vchSalt measured pool =
        some ((plain.call crypto (.encryptWallet passphrase vMasterKey vchSalt measured pool)).1, wallet') ∧
      Refines crypto occurring (plain.call crypto (.encryptWallet passphrase vMasterKey vchSalt measured pool)).2 wallet' := by
  rw [CWallet.encryptWallet, refines.isCrypted, Plain.call]
  split
  next => exact ⟨wallet, rfl, refines⟩
  next notYet =>
    have open' : Unencrypted crypto plain wallet := refines.keys.resolve_right fun ⟨_, _, encrypted⟩ => notYet (by
      rw [encrypted.current, isSome_some])
    obtain ⟨store, sealed', holds, noMasterKey, watch⟩ := open'.encryptKeys refines.keyed vMasterKey
    have keySet : setKeyFromPassphrase crypto passphrase vchSalt.1 (CWallet.deriveIterations measured) 0 =
        some (crypto.bytesToKey vchSalt.1 passphrase (CWallet.deriveIterations measured)) := by
      have rounds := deriveIterations_pos measured
      rw [setKeyFromPassphrase, if_neg, if_pos rfl]
      rintro (few | size)
      · omega
      · exact size vchSalt.2
    dsimp only
    rw [keySet]
    dsimp only
    rw [sealed', bind_some, open'.noMasterKeys, nil_append]
    -- the wallet is encrypted and locked, then unlocked with the passphrase for the new keys, then locked
    have first : Refines crypto occurring { plain with current := some passphrase, locked := true }
        { wallet with
          store := store
          nMasterKeyMaxID := wallet.nMasterKeyMaxID + 1
          mapMasterKeys := [(wallet.nMasterKeyMaxID + 1,
            { vchCryptedKey := crypto.aesEncrypt (crypto.bytesToKey vchSalt.1 passphrase (CWallet.deriveIterations measured)).1
                (crypto.bytesToKey vchSalt.1 passphrase (CWallet.deriveIterations measured)).2 vMasterKey.1
              vchSalt := vchSalt.1
              nDeriveIterations := CWallet.deriveIterations measured })] } :=
      ⟨refines.keyed, watch.trans refines.watch, .inr ⟨vMasterKey, passphrase, holds,
        ⟨_, _, rfl, rfl, vchSalt.2, deriveIterations_pos measured, rfl, occurs.1, occurs.2.1, occurs.2.2⟩, rfl, noMasterKey⟩⟩
    obtain ⟨opened, unlocks, second⟩ := first.lock.2.unlock lawful occurs.1
    have succeeds : Plain.call crypto { plain with current := some passphrase, locked := true } (.unlock passphrase) =
        (true, { plain with current := some passphrase, locked := false }) := by
      rw [Plain.call]
      exact if_pos rfl
    rw [unlocks, bind_some]
    dsimp only [isSome_some] at second ⊢
    rw [succeeds] at second
    obtain ⟨filled, pooled, third⟩ := second.newKeyPool rfl pool
    rw [second.isLocked, if_neg Bool.false_ne_true, pooled]
    have last := third.lock.2
    rw [foldl_add] at last
    exact ⟨_, rfl, last⟩

/-- The entry of the master key under a new passphrase. -/
def renewed (crypto : Crypto) (new : SecureString) (vMasterKey : CKeyingMaterial) (measured : Nat) (kMasterKey : CMasterKey) :
    CMasterKey :=
  { kMasterKey with
    nDeriveIterations := CWallet.deriveIterations measured
    vchCryptedKey := crypto.aesEncrypt (crypto.bytesToKey kMasterKey.vchSalt new (CWallet.deriveIterations measured)).1
      (crypto.bytesToKey kMasterKey.vchSalt new (CWallet.deriveIterations measured)).2 vMasterKey }

section

variable (lawful : Lawful crypto occurring) (refines : Refines crypto occurring plain wallet)
include lawful refines

theorem changeWalletPassphrase {old new : SecureString} {measured : Nat}
    (occurs : (CWallet.Call.changeWalletPassphrase old new measured : CWallet.Call crypto).Occurs occurring) :
    ∃ wallet', wallet.changeWalletPassphrase crypto old new measured =
        some ((plain.call crypto (.changeWalletPassphrase old new measured)).1, wallet') ∧
      Refines crypto occurring (plain.call crypto (.changeWalletPassphrase old new measured)).2 wallet' := by
  rcases refines.keys with open' | ⟨vMasterKey, passphrase, encrypted⟩
  · have fails : plain.call crypto (.changeWalletPassphrase old new measured) = (false, plain) := by
      have off : plain.current.isSome = plain.locked := by
        rw [open'.current, open'.unlocked]
        rfl
      rw [Plain.call, if_neg, off]
      rw [open'.current]
      exact nofun
    rw [fails]
    refine ⟨wallet, ?_, refines⟩
    rw [CWallet.changeWalletPassphrase, open'.noMasterKeys, open'.lock refines.keyed]
    rfl
  · obtain ⟨id, kMasterKey, entries, opens⟩ := encrypted.masterKeys
    have holds := encrypted.holds
    have shut : Holds crypto vMasterKey.1 plain.keys { wallet.store with vMasterKey := [] } :=
      { holds with }
    have locks : wallet.lock.2 = { wallet with store := { wallet.store with vMasterKey := [] } } := by
      rw [CWallet.lock, holds.lock]
    have on : plain.current.isSome = true := by rw [encrypted.current, isSome_some]
    have only : wallet.changeWalletPassphrase crypto old new measured = CWallet.changeWith crypto old new measured plain.locked
        [(id, kMasterKey)] { wallet with store := { wallet.store with vMasterKey := [] } } := by
      rw [CWallet.changeWalletPassphrase, locks, refines.isLocked, entries]
    rw [only, CWallet.changeWith, opens.setKey, Plain.call, on]
    dsimp only
    by_cases right : passphrase = old
    · subst right
      rw [opens.decrypt_right lawful, if_pos encrypted.current]
      dsimp only
      rw [shut.unlock_right lawful refines.keyed, bind_some]
      have reopens : Opens crypto occurring new vMasterKey.1 (renewed crypto new vMasterKey.1 measured kMasterKey) :=
        ⟨opens.method, opens.salt, deriveIterations_pos measured, rfl, occurs.2.1, opens.masterKey, opens.derivation.1, occurs.2.2⟩
      have keySet : setKeyFromPassphrase crypto new kMasterKey.vchSalt (CWallet.deriveIterations measured)
          kMasterKey.nDerivationMethod = some (crypto.bytesToKey kMasterKey.vchSalt new (CWallet.deriveIterations measured)) :=
        reopens.setKey new
      have replaced : (wallet.mapMasterKeys.map fun entry =>
          if entry.1 = id then (id, renewed crypto new vMasterKey.1 measured kMasterKey) else entry) =
          [(id, renewed crypto new vMasterKey.1 measured kMasterKey)] := by
        rw [entries, map_singleton, if_pos rfl]
      rw [renewed] at replaced
      dsimp only
      rw [keySet, if_pos rfl]
      dsimp only
      rw [replaced]
      -- unlocked with the new passphrase; a wallet that was locked is locked again
      have opened : Refines crypto occurring { plain with current := some new, locked := false }
          { wallet with
            store := { wallet.store with vMasterKey := vMasterKey.1, fDecryptionThoroughlyChecked := true }
            mapMasterKeys := [(id, renewed crypto new vMasterKey.1 measured kMasterKey)] } :=
        ⟨refines.keyed, refines.watch, .inr ⟨vMasterKey, new, { holds with },
          ⟨id, _, rfl, reopens⟩, rfl, rfl⟩⟩
      cases locked : plain.locked with
      | false => exact ⟨_, rfl, opened⟩
      | true => exact ⟨_, rfl, opened.lock.2⟩
    · have wrong : plain.current ≠ some old := fun same => right (some.inj (encrypted.current.symm.trans same))
      rw [if_neg wrong]
      have after : Refines crypto occurring { plain with locked := true } { wallet with store := { wallet.store with vMasterKey := [] } } :=
        ⟨refines.keyed, refines.watch, .inr ⟨vMasterKey, passphrase, shut, encrypted.masterKeys, encrypted.current, rfl⟩⟩
      refine ⟨_, ?_, after⟩
      cases decrypted : crypto.aesDecrypt (crypto.bytesToKey kMasterKey.vchSalt old kMasterKey.nDeriveIterations).1
          (crypto.bytesToKey kMasterKey.vchSalt old kMasterKey.nDeriveIterations).2 kMasterKey.vchCryptedKey with
      | none => rfl
      | some found =>
        dsimp only
        obtain ⟨tried, apart⟩ := opens.decrypt_wrong lawful right occurs.1 decrypted
        rw [shut.unlock_wrong lawful refines.keyed opens.masterKey tried apart]
        rfl

theorem call {request : CWallet.Call crypto} (occurs : request.Occurs occurring) : ∃ wallet',
    wallet.call crypto request = some ((plain.call crypto request).1, wallet') ∧
      Refines crypto occurring (plain.call crypto request).2 wallet' := by
  cases request with
  | addKeyPubKey secret =>
    rw [CWallet.call, Plain.call]
    cases locked : plain.locked with
    | true => exact ⟨wallet, congrArg some (refines.addKeyPubKey_locked locked secret), refines⟩
    | false =>
      obtain ⟨wallet', added, kept⟩ := refines.addKeyPubKey_unlocked locked secret
      exact ⟨wallet', congrArg some added, kept⟩
  | encryptWallet passphrase vMasterKey vchSalt measured pool =>
    exact refines.encryptWallet lawful occurs
  | lock =>
    obtain ⟨answer, kept⟩ := refines.lock
    exact ⟨wallet.lock.2, congrArg some (Prod.ext answer rfl), kept⟩
  | unlock attempt => exact refines.unlock lawful occurs
  | changeWalletPassphrase old new measured => exact refines.changeWalletPassphrase lawful occurs

theorem history {requests : List (CWallet.Call crypto)} (occurs : ∀ request ∈ requests, request.Occurs occurring) :
    ∃ wallet', wallet.history crypto requests = some ((plain.history crypto requests).1, wallet') ∧
      Refines crypto occurring (plain.history crypto requests).2 wallet' := by
  induction requests generalizing plain wallet with
  | nil => exact ⟨wallet, rfl, refines⟩
  | cons request rest ih =>
    obtain ⟨here, later⟩ := forall_mem_cons.mp occurs
    obtain ⟨next, answered, kept⟩ := refines.call lawful here
    obtain ⟨last, finished, refined⟩ := ih kept later
    refine ⟨last, ?_, refined⟩
    rw [CWallet.history, answered]
    change (CWallet.history crypto next rest).bind _ = _
    rw [finished]
    rfl

end

theorem haveKey (refines : Refines crypto occurring plain wallet) (id : CKeyID) : wallet.store.haveKey id = (plain.keys id).isSome := by
  rcases refines.keys with open' | ⟨vMasterKey, passphrase, encrypted⟩
  · rw [CCryptoKeyStore.haveKey, if_pos (by rw [CCryptoKeyStore.isCrypted, open'.crypted]; rfl), open'.lookup]
  · rw [CCryptoKeyStore.haveKey, if_neg (by rw [CCryptoKeyStore.isCrypted, encrypted.holds.crypted]; exact Bool.false_ne_true),
      encrypted.holds.lookup, isSome_map]

theorem getKey (lawful : Lawful crypto occurring) (refines : Refines crypto occurring plain wallet) (id : CKeyID) :
    wallet.store.getKey crypto id = if plain.locked then none else plain.keys id := by
  rcases refines.keys with open' | ⟨vMasterKey, passphrase, encrypted⟩
  · rw [CCryptoKeyStore.getKey, if_pos (by rw [CCryptoKeyStore.isCrypted, open'.crypted]; rfl), open'.lookup, open'.unlocked,
      if_neg Bool.false_ne_true]
  · rw [CCryptoKeyStore.getKey, if_neg (by rw [CCryptoKeyStore.isCrypted, encrypted.holds.crypted]; exact Bool.false_ne_true),
      encrypted.holds.lookup, encrypted.memory]
    cases found : plain.keys id with
    | none =>
      rw [ite_self]
      rfl
    | some key =>
      have right := lawful.decryptKey_right (refines.keyed.sound id key found) vMasterKey
      rw [sealedKey] at right
      rw [map_some, sealedKey]
      dsimp only
      cases plain.locked with
      | true => rfl
      | false => exact right

theorem getPubKey (lawful : Lawful crypto occurring) (refines : Refines crypto occurring plain wallet) (id : CKeyID) :
    wallet.store.getPubKey crypto id = ((plain.keys id).map crypto.getPubKey).or (plain.watch.mapWatchKeys id) := by
  have key := refines.getKey lawful id
  rcases refines.keys with open' | ⟨vMasterKey, passphrase, encrypted⟩
  · rw [open'.unlocked, if_neg Bool.false_ne_true] at key
    rw [CCryptoKeyStore.getPubKey, if_pos (by rw [CCryptoKeyStore.isCrypted, open'.crypted]; rfl), CCryptoKeyStore.basicGetPubKey,
      key, refines.watch]
    cases plain.keys id <;> rfl
  · rw [CCryptoKeyStore.getPubKey, if_neg (by rw [CCryptoKeyStore.isCrypted, encrypted.holds.crypted]; exact Bool.false_ne_true),
      encrypted.holds.lookup, CCryptoKeyStore.basicGetPubKey, key, refines.watch]
    cases plain.keys id with
    | none =>
      rw [ite_self]
      rfl
    | some found => rfl

end Refines

/-- Whatever is done to a wallet with at least one key, with what occurs in the run, it answers and shows what the plain wallet does, and no
assertion fails. -/
theorem wallet_keeps_its_keys (lawful : Lawful crypto occurring) {plain : Plain} {wallet : CWallet} (refines : Refines crypto occurring plain wallet)
    (requests : List (CWallet.Call crypto)) (occurs : ∀ request ∈ requests, request.Occurs occurring) : ∃ wallet',
    wallet.history crypto requests = some ((plain.history crypto requests).1, wallet') ∧
    (∀ id, wallet'.store.haveKey id = ((plain.history crypto requests).2.keys id).isSome) ∧
    (∀ id, wallet'.store.getPubKey crypto id = (((plain.history crypto requests).2.keys id).map crypto.getPubKey).or
      ((plain.history crypto requests).2.watch.mapWatchKeys id)) ∧
    (∀ id, wallet'.store.getKey crypto id =
      if (plain.history crypto requests).2.locked then none else (plain.history crypto requests).2.keys id) ∧
    (∀ passphrase ∈ occurring.passphrases, (wallet'.unlock crypto passphrase).map Prod.fst =
      some (decide ((plain.history crypto requests).2.current = some passphrase))) ∧
    wallet'.isLocked = (plain.history crypto requests).2.locked := by
  obtain ⟨wallet', answers, refined⟩ := refines.history lawful occurs
  refine ⟨wallet', answers, refined.haveKey, refined.getPubKey lawful, refined.getKey lawful, fun passphrase member => ?_, refined.isLocked⟩
  obtain ⟨opened, unlocks, -⟩ := refined.unlock lawful member
  rw [unlocks, map_some, Plain.call]
  split
  next right => rw [decide_eq_true right]
  next wrong => rw [decide_eq_false wrong]

def frame : List UInt8 → List UInt8
  | [] => [0]
  | byte :: rest => 1 :: byte :: frame rest

theorem frame_append_inj {first second rest rest' : List UInt8} (same : frame first ++ rest = frame second ++ rest') :
    first = second ∧ rest = rest' := by
  induction first generalizing second with
  | nil =>
    cases second with
    | nil => exact ⟨rfl, (cons.inj same).2⟩
    | cons => exact absurd (cons.inj same).1 (by decide)
  | cons byte first ih =>
    cases second with
    | nil => exact absurd (cons.inj same).1 (by decide)
    | cons byte' second =>
      obtain ⟨bytes, later⟩ := cons.inj (cons.inj same).2
      obtain ⟨rfl, tails⟩ := ih later
      exact ⟨by rw [bytes], tails⟩

def sampleCrypto : Crypto where
  bytesToKey chSalt strKeyData _ := (strKeyData, chSalt)
  aesEncrypt chKey chIV vchPlaintext := frame chKey ++ (frame chIV ++ vchPlaintext)
  aesDecrypt chKey chIV vchCiphertext :=
    if (frame chKey ++ frame chIV).isPrefixOf vchCiphertext then some (vchCiphertext.drop (frame chKey ++ frame chIV).length) else none
  getPubKey key := (if key.fCompressed then 2 else 4) :: key.vch.1
  verifyPubKey key pubkey := (if key.fCompressed then 2 else 4) :: key.vch.1 == pubkey
  isCompressed pubkey := pubkey.head? == some 2
  getID pubkey := BitVec.ofNat 160 (pubkey.map UInt8.toNat).sum
  getHash pubkey := pubkey
  getScriptForDestination _ := []
  getScriptForRawPubKey pubkey := pubkey
  extractPubKey _ := none

theorem sampleCrypto_wrong {chKey chIV chKey' chIV' : List UInt8} (vchPlaintext : CKeyingMaterial)
    (different : (chKey, chIV) ≠ (chKey', chIV')) :
    sampleCrypto.aesDecrypt chKey' chIV' (sampleCrypto.aesEncrypt chKey chIV vchPlaintext) = none := by
  refine if_neg fun fits => different ?_
  obtain ⟨rest, same⟩ := isPrefixOf_iff_prefix.mp fits
  rw [append_assoc] at same
  obtain ⟨rfl, later⟩ := frame_append_inj same
  obtain ⟨rfl, -⟩ := frame_append_inj later
  rfl

theorem sampleCrypto_lawful (occurring : Occurring) : Lawful sampleCrypto occurring where
  decrypt_encrypt chKey chIV vchPlaintext := by
    have fits : (frame chKey ++ frame chIV).isPrefixOf (frame chKey ++ (frame chIV ++ vchPlaintext)) = true := by
      rw [← append_assoc]
      exact isPrefixOf_iff_prefix.mpr (prefix_append _ _)
    refine (if_pos fits).trans ?_
    change some ((frame chKey ++ (frame chIV ++ vchPlaintext)).drop (frame chKey ++ frame chIV).length) = some vchPlaintext
    rw [← append_assoc, drop_left]
  decrypt_wrong keyIV _ keyIV' _ different vMasterKey _ := by
    rw [sampleCrypto_wrong vMasterKey different]
    exact nofun
  verify_wrong secret vMasterKey _ vMasterKey' _ vchSecret different decrypted := by
    rw [sampleCrypto_wrong _ fun same => different (Prod.ext_iff.mp same).1] at decrypted
    cases decrypted
  isCompressed secret := by
    have first : sampleCrypto.isCompressed (sampleCrypto.getPubKey secret.key) = secret.key.fCompressed := by
      change (some (if secret.key.fCompressed = true then (2 : UInt8) else 4) == some 2) = secret.key.fCompressed
      cases secret.key.fCompressed <;> rfl
    rwa [secret.same] at first
  bytesToKey_injective _ _ _ _ _ _ _ _ same := (Prod.ext_iff.mp same).1

def sampleKey : CKey := ⟨⟨List.replicate 32 7, rfl⟩, true⟩

theorem sampleKey_sound : Sound sampleCrypto sampleKey := beq_self_eq_true (2 :: sampleKey.vch.1)

def samplePlain : Plain where
  keys id := if id = sampleCrypto.getID (sampleCrypto.getPubKey sampleKey) then some sampleKey else none
  watch := {}

def sampleWallet : CWallet where
  store := { mapKeys := AList.insert (sampleCrypto.getID (sampleCrypto.getPubKey sampleKey)) sampleKey ∅ }

theorem samplePlain_keys (id : CKeyID) : samplePlain.keys id =
    if id = sampleCrypto.getID (sampleCrypto.getPubKey sampleKey) then some sampleKey else none := rfl

theorem sampleWallet_refines (occurring : Occurring) : Refines sampleCrypto occurring samplePlain sampleWallet where
  keyed := by
    have only : ∀ {id key}, samplePlain.keys id = some key →
        id = sampleCrypto.getID (sampleCrypto.getPubKey sampleKey) ∧ key = sampleKey := by
      intro id key found
      rw [samplePlain_keys] at found
      split at found
      · next here => exact ⟨here, (some.inj found).symm⟩
      · cases found
    refine ⟨fun id key found => ?_, fun id key found => ?_, _, sampleKey, if_pos rfl⟩
    · rw [(only found).1, (only found).2]
    · rw [(only found).2]
      exact sampleKey_sound
  watch := rfl
  keys := by
    refine .inl ⟨rfl, rfl, rfl, rfl, fun id => ?_, rfl, rfl⟩
    rw [samplePlain_keys]
    split
    next here =>
      subst here
      exact lookup_insert _
    next other => exact lookup_insert_ne other

/-- Encrypted, tried with a wrong passphrase, opened, and given another passphrase. -/
def sampleRequests : List (CWallet.Call sampleCrypto) :=
  [.encryptWallet [1] ⟨List.replicate 32 9, rfl⟩ ⟨List.replicate 8 3, rfl⟩ 30000 [], .unlock [2], .unlock [1],
    .changeWalletPassphrase [1] [2] 10, .lock, .unlock [1], .unlock [2]]

def sampleOccurring : Occurring := ⟨{[1], [2]}, {List.replicate 8 3}, {30000, 25000}, {List.replicate 32 9}⟩

theorem sampleWallet_keeps_its_keys : ∃ wallet',
    sampleWallet.history sampleCrypto sampleRequests = some ((samplePlain.history sampleCrypto sampleRequests).1, wallet') ∧
    (∀ id, wallet'.store.haveKey id = ((samplePlain.history sampleCrypto sampleRequests).2.keys id).isSome) ∧
    (∀ id, wallet'.store.getPubKey sampleCrypto id =
      (((samplePlain.history sampleCrypto sampleRequests).2.keys id).map sampleCrypto.getPubKey).or
        ((samplePlain.history sampleCrypto sampleRequests).2.watch.mapWatchKeys id)) ∧
    (∀ id, wallet'.store.getKey sampleCrypto id =
      if (samplePlain.history sampleCrypto sampleRequests).2.locked then none
      else (samplePlain.history sampleCrypto sampleRequests).2.keys id) ∧
    (∀ passphrase ∈ sampleOccurring.passphrases, (wallet'.unlock sampleCrypto passphrase).map Prod.fst =
      some (decide ((samplePlain.history sampleCrypto sampleRequests).2.current = some passphrase))) ∧
    wallet'.isLocked = (samplePlain.history sampleCrypto sampleRequests).2.locked :=
  wallet_keeps_its_keys (sampleCrypto_lawful sampleOccurring) (sampleWallet_refines _) sampleRequests (by
    simp [sampleRequests, CWallet.Call.Occurs, sampleOccurring, CWallet.deriveIterations])

example : (samplePlain.history sampleCrypto sampleRequests).1 = [true, false, true, true, true, false, true] := by decide

end Longcoin.Crypter

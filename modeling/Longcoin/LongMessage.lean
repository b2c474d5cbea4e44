import Longcoin.LongData

/-! LONG messages: the builders `createrawdata` and `sendhexdata` against the parsers, and
`decodedata`, which decrypts what it can. -/

namespace Longcoin.LongMessage
open Primitives Script LongData Library.Bytes Option

/-- A public key that was not invalidated: as long as its first byte says. -/
structure CPubKey where
  vch : List UInt8
  nonempty : vch ≠ []
  sized : vch.length = getLen (vch.headD 0)

/-- `CPubKey::Set`; nothing is the invalid key. -/
def CPubKey.set (vch : List UInt8) : Option CPubKey :=
  if sized : vch ≠ [] ∧ vch.length = getLen (vch.headD 0) then some ⟨vch, sized.1, sized.2⟩ else none

structure Hash160 where
  bytes : List UInt8
  sized : bytes.length = 20

inductive Party where
  | pubKey (key : CPubKey)
  | keyID (id : Hash160)
  | scriptID (id : Hash160)

def Party.bytes : Party → List UInt8
  | .pubKey key => key.vch
  | .keyID id => id.bytes
  | .scriptID id => id.bytes

def Party.type : Party → TxnOutType
  | .pubKey _ => .pubKey
  | .keyID _ => .pubKeyHash
  | .scriptID _ => .scriptHash

/-- The kind byte the builders write. A public key always gets that of a compressed one. -/
def Party.kind : Party → UInt8
  | .pubKey _ => 0xfe
  | .keyID _ => 0xfd
  | .scriptID _ => 0xfc

/-- The key or the hash has the size that its kind byte announces. -/
def Party.Compressed (party : Party) : Prop := party.bytes.length ≠ 65

instance (party : Party) : Decidable party.Compressed := inferInstanceAs (Decidable (_ ≠ _))

structure Crypto (PrivKey Secret : Type) where
  getPubKey : PrivKey → CPubKey
  isFullyValid : CPubKey → Bool
  hash160 : List UInt8 → Hash160
  computSharedSecret : PrivKey → CPubKey → Secret
  encrypt : Secret → List UInt8 → List UInt8
  decrypt : Secret → List UInt8 → Option (List UInt8)

variable {PrivKey Secret : Type}

/-- `strFrom`: a private key, or only what others may know. -/
inductive Sender (PrivKey : Type) where
  | privKey (key : PrivKey)
  | party (known : Party)

def Sender.shown (crypto : Crypto PrivKey Secret) : Sender PrivKey → Party
  | .privKey key => .pubKey (crypto.getPubKey key)
  | .party known => known

/-- The shared secret, when there are a private key and a public key for one. -/
def sharedSecret (crypto : Crypto PrivKey Secret) : Sender PrivKey → Party → Option Secret
  | .privKey key, .pubKey toPubKey => some (crypto.computSharedSecret key toPubKey)
  | _, _ => none

def header (recipient sender : Party) (encrypted : Bool) : List UInt8 :=
  longBytes ++ [0x00] ++ (OP_TO :: recipient.kind :: recipient.bytes) ++ (OP_FROM :: sender.kind :: sender.bytes) ++
    [OP_DATA_TYPE, 0x00] ++ [OP_ENCRYPTION, if encrypted then 0x01 else 0x00]

/-- The secret a message is encrypted with, if it is: `fOpen` switches encryption off. -/
def encryption (crypto : Crypto PrivKey Secret) (sender : Sender PrivKey) (recipient : Party) (fOpen : Bool) : Option Secret :=
  if fOpen then none else sharedSecret crypto sender recipient

def sentBody (crypto : Crypto PrivKey Secret) (secret : Option Secret) (vchDataBody : List UInt8) : List UInt8 :=
  secret.elim vchDataBody fun secret => crypto.encrypt secret vchDataBody

/-- `createrawdata`, after the arguments are read. -/
def createrawdata (crypto : Crypto PrivKey Secret) (sender : Sender PrivKey) (recipient : Party) (vchDataBody : List UInt8)
    (fOpen : Bool) : List UInt8 :=
  header recipient (sender.shown crypto) (encryption crypto sender recipient fOpen).isSome ++
    pushData (sentBody crypto (encryption crypto sender recipient fOpen) vchDataBody)

/-- `OP_RETURN` and the push of the payload. -/
def dataScript (payload : List UInt8) : CScript := OP_RETURN :: pushData payload

/-- The data script of `sendhexdata`, whose sender is a key of the wallet. -/
def sendhexdata (crypto : Crypto PrivKey Secret) (fromPrivKey : PrivKey) (recipient : Party) (vchDataBody : List UInt8)
    (fOpen : Bool) : CScript :=
  dataScript (header recipient (.pubKey (crypto.getPubKey fromPrivKey))
      (encryption crypto (.privKey fromPrivKey) recipient fOpen).isSome ++
    pushData (sentBody crypto (encryption crypto (.privKey fromPrivKey) recipient fOpen) vchDataBody))

structure ReadsBack (script : CScript) (recipient sender : Party) (encrypted : Bool) (body : List UInt8) : Prop where
  long : isLong script = some true
  toPubKey : getLongToPubKey script = some (some (recipient.bytes, recipient.type))
  fromPubKey : getLongFromPubKey script = some (some (sender.bytes, sender.type))
  type : getTypeLongData script = some (some 0x00)
  encryption : getEncryptionLongData script = some (some (if encrypted then 0x01 else 0x00))
  body : getBodyLongData script = some (some body)

theorem CPubKey.length_eq (key : CPubKey) : key.vch.length = 33 ∨ key.vch.length = 65 := by
  have positive := List.length_pos_iff.mpr key.nonempty
  have sized := key.sized
  rw [getLen] at sized
  split at sized
  · exact .inl sized
  · split at sized
    · exact .inr sized
    · omega

theorem keyKind_kind (party : Party) : ∃ size, keyKind party.kind = some (party.type, size) ∧
    (party.Compressed ↔ party.bytes.length = size) := by
  cases party with
  | pubKey key =>
    refine ⟨33, rfl, ?_⟩
    have length := key.length_eq
    change key.vch.length ≠ 65 ↔ key.vch.length = 33
    omega
  | keyID id =>
    have length := id.sized
    refine ⟨20, rfl, ?_⟩
    change id.bytes.length ≠ 65 ↔ id.bytes.length = 20
    omega
  | scriptID id =>
    have length := id.sized
    refine ⟨20, rfl, ?_⟩
    change id.bytes.length ≠ 65 ↔ id.bytes.length = 20
    omega

theorem getElem?_of_drop {data rest : List UInt8} {offset : Nat} (there : data.drop offset = rest) (i : Nat) :
    data[offset + i]? = rest[i]? := by
  rw [← there, List.getElem?_drop]

theorem range_of_drop {data rest : List UInt8} {offset : Nat} (there : data.drop offset = rest) (inside : rest ≠ [])
    (start length : Nat) : range data (offset + start) length = range rest start length := by
  subst there
  have room : offset < data.length := by
    rw [← List.length_pos_iff, List.length_drop] at inside
    omega
  rw [range, range, List.length_drop, List.drop_drop]
  split
  · next fits => rw [if_pos (by omega)]
  · next short => rw [if_neg (by omega)]

section Fields

variable {data back : List UInt8} {offset : Nat} {tag : UInt8} {party : Party}

section

variable (there : data.drop offset = tag :: party.kind :: (party.bytes ++ back))
include there

theorem readKey_field (short : party.Compressed) : readKey tag data offset = some (some (party.bytes, party.type)) := by
  obtain ⟨size, kind, sized⟩ := keyKind_kind party
  have first : data[offset]? = some tag := getElem?_of_drop there 0
  have second : data[offset + 1]? = some party.kind := getElem?_of_drop there 1
  have part : range data (offset + 2) size = some party.bytes := by
    rw [range_of_drop there (List.cons_ne_nil _ _)]
    exact range_append [tag, party.kind] party.bytes back rfl (sized.mp short)
  rw [readKey, first, bind_some, if_pos rfl, second, bind_some, kind, elim_some, part, map_some]

theorem skipKey_field (short : party.Compressed) : skipKey tag data offset = some (offset + (2 + party.bytes.length)) := by
  obtain ⟨size, kind, sized⟩ := keyKind_kind party
  have first : data[offset]? = some tag := getElem?_of_drop there 0
  have second : data[offset + 1]? = some party.kind := getElem?_of_drop there 1
  rw [skipKey, first, bind_some, if_pos rfl, second, map_some, kind, elim_some, sized.mp short]
  congr 1
  omega

theorem compressed_of_readKey (read : readKey tag data offset = some (some (party.bytes, party.type))) : party.Compressed := by
  obtain ⟨size, kind, sized⟩ := keyKind_kind party
  have first : data[offset]? = some tag := getElem?_of_drop there 0
  have second : data[offset + 1]? = some party.kind := getElem?_of_drop there 1
  rw [readKey, first, bind_some, if_pos rfl, second, bind_some, kind, elim_some] at read
  obtain ⟨bytes, part, same⟩ := map_eq_some_iff.mp read
  have equal : bytes = party.bytes := congrArg Prod.fst (some.inj same)
  rw [sized, ← equal]
  exact range_length part

theorem drop_field : data.drop (offset + (2 + party.bytes.length)) = back := by
  rw [← List.drop_drop, there, Nat.add_comm 2, List.drop_succ_cons, List.drop_succ_cons, List.drop_left]

end

end Fields

theorem firstPush_dataScript (payload : List UInt8) (fits : payload.length < 2 ^ 32) :
    firstPush (dataScript payload) = some payload := by
  obtain ⟨opcode, isPush, read⟩ := getOp_pushData payload [] fits
  rw [List.append_nil] at read
  have pushes : isReturnPush (dataScript payload) = true := by
    rw [isReturnPush, Bool.and_eq_true]
    exact ⟨rfl, isPushOnly_pushData payload fits⟩
  rw [firstPush, if_pos pushes]
  change (getOp (pushData payload)).bind _ = _
  rw [read, bind_some, if_pos isPush]

theorem length_pushHeader (size : Nat) : (pushHeader size).length = bodyShift size := by
  rw [pushHeader, bodyShift]
  split_ifs <;> first | rfl | omega

section Payload

variable {data : List UInt8} {offset : Nat} {entry : UInt8} {body : List UInt8}

theorem size_of_drop (there : data.drop offset = pushData body) (fits : body.length < 2 ^ 32) :
    ∃ opcode, opcode ≤ OP_PUSHDATA4 ∧ data[offset]? = some opcode ∧
      pushSize opcode (data.drop (offset + 1)) = some body.length := by
  obtain ⟨opcode, tail, written, isPush, -, sized⟩ := pushSize_pushHeader body.length fits body
  rw [pushData, written, List.cons_append] at there
  have first : data[offset]? = some opcode := getElem?_of_drop there 0
  refine ⟨opcode, isPush, first, ?_⟩
  rw [← List.drop_drop, there, List.drop_succ_cons, List.drop_zero]
  exact sized

theorem bodyOffset_entries (there : data.drop offset = OP_DATA_TYPE :: 0x00 :: OP_ENCRYPTION :: entry :: pushData body) :
    bodyOffset data offset = some (offset + 4) ∧ data.drop (offset + 4) = pushData body := by
  have typeTag : data[offset]? = some OP_DATA_TYPE := getElem?_of_drop there 0
  have encryptionTag : data[offset + 2]? = some OP_ENCRYPTION := getElem?_of_drop there 2
  constructor
  · rw [bodyOffset, skipEntry, typeTag, map_some, if_pos rfl, bind_some, skipEntry, encryptionTag,
      map_some, if_pos rfl]
  · rw [← List.drop_drop, there]
    rfl

theorem parsers_of_entries {script : CScript} (parsed : ∀ {α : Type} (parse : List UInt8 → Nat → Option (Option α)),
      withOffset script parse = parse data offset)
    (there : data.drop offset = OP_DATA_TYPE :: 0x00 :: OP_ENCRYPTION :: entry :: pushData body)
    (fits : body.length < 2 ^ 32) :
    getTypeLongData script = some (some 0x00) ∧ getEncryptionLongData script = some (some entry) ∧
      getBodyLongData script = some (some body) := by
  have typeTag : data[offset]? = some OP_DATA_TYPE := getElem?_of_drop there 0
  have typeEntry : data[offset + 1]? = some 0x00 := getElem?_of_drop there 1
  have encryptionTag : data[offset + 2]? = some OP_ENCRYPTION := getElem?_of_drop there 2
  have encryptionEntry : data[offset + 2 + 1]? = some entry := getElem?_of_drop there 3
  obtain ⟨start, bodyThere⟩ := bodyOffset_entries there
  obtain ⟨opcode, isPush, first, sized⟩ := size_of_drop bodyThere fits
  have size : getSizeLongData script = some (some body.length) := by
    rw [getSizeLongData, parsed, start, bind_some, first, bind_some, sizeAt_eq first, if_pos isPush, sized,
      map_some]
  have part : range data (offset + 4 + bodyShift body.length) body.length = some body := by
    have nonempty : pushData body ≠ [] := by
      obtain ⟨opcode, tail, written, -⟩ := pushSize_pushHeader body.length fits body
      rw [pushData, written, List.cons_append]
      exact List.cons_ne_nil _ _
    rw [range_of_drop bodyThere nonempty, pushData]
    have whole := range_append (pushHeader body.length) body [] (length_pushHeader body.length) rfl
    rw [List.append_nil] at whole
    exact whole
  refine ⟨?_, ?_, ?_⟩
  · rw [getTypeLongData, parsed, readEntry, typeTag, bind_some, if_pos rfl, typeEntry, map_some]
  · rw [getEncryptionLongData, parsed, readEntry, encryptionTag, bind_some, if_pos rfl, encryptionEntry,
      map_some]
  · rw [getBodyLongData, parsed, size, bind_some, elim_some, start, bind_some, part, map_some]

end Payload

theorem drop_header (recipient sender : Party) (encrypted : Bool) (rest : List UInt8) :
    (header recipient sender encrypted ++ rest).drop 5 =
      OP_TO :: recipient.kind :: (recipient.bytes ++ (OP_FROM :: sender.kind :: (sender.bytes ++
        (OP_DATA_TYPE :: 0x00 :: OP_ENCRYPTION :: (if encrypted then 0x01 else 0x00) :: rest)))) := by
  simp only [header, longBytes, List.cons_append, List.nil_append, List.append_assoc]
  rfl

theorem longBytes_header (recipient sender : Party) (encrypted : Bool) (rest : List UInt8) :
    longBytes <+: header recipient sender encrypted ++ rest := by
  simp only [header, List.append_assoc]
  exact List.prefix_append _ _

theorem readsBack_iff (recipient sender : Party) (encrypted : Bool) (body : List UInt8)
    (fits : (header recipient sender encrypted ++ pushData body).length < 2 ^ 32) :
    ReadsBack (dataScript (header recipient sender encrypted ++ pushData body)) recipient sender encrypted body ↔
      recipient.Compressed ∧ sender.Compressed := by
  have pushed := firstPush_dataScript _ fits
  have marked := longBytes_header recipient sender encrypted (pushData body)
  have toThere := drop_header recipient sender encrypted (pushData body)
  have fromThere := drop_field toThere
  have bodyFits : body.length < 2 ^ 32 := by
    rw [List.length_append, pushData, List.length_append] at fits
    omega
  constructor
  · intro readsBack
    have toRead := readsBack.toPubKey
    rw [getLongToPubKey_eq pushed marked] at toRead
    have toCompressed := compressed_of_readKey toThere toRead
    have fromRead := readsBack.fromPubKey
    rw [getLongFromPubKey_eq pushed marked, skipKey_field toThere toCompressed, bind_some] at fromRead
    exact ⟨toCompressed, compressed_of_readKey fromThere fromRead⟩
  · rintro ⟨toCompressed, fromCompressed⟩
    have skipTo := skipKey_field toThere toCompressed
    have skipFrom := skipKey_field fromThere fromCompressed
    obtain ⟨typeRead, encryptionRead, bodyRead⟩ := parsers_of_entries
      (fun parse => by rw [withOffset_eq parse pushed marked, skipTo, bind_some, skipFrom, bind_some])
      (drop_field fromThere) bodyFits
    exact {
      long := by rw [isLong_eq pushed, startsWith_true.mpr marked]
      toPubKey := by rw [getLongToPubKey_eq pushed marked, readKey_field toThere toCompressed]
      fromPubKey := by
        rw [getLongFromPubKey_eq pushed marked, skipTo, bind_some, readKey_field fromThere fromCompressed]
      type := typeRead
      encryption := encryptionRead
      body := bodyRead }

theorem payload_fits {payload : List UInt8} (fits : (dataScript payload).length ≤ MAX_SCRIPT_SIZE) :
    payload.length < 2 ^ 32 := by
  rw [dataScript, List.length_cons, pushData, List.length_append] at fits
  have small : MAX_SCRIPT_SIZE < 2 ^ 32 := by decide
  omega

/-- A data script of one of the builders: who it is for and from, whether it is encrypted, and the
bytes of its body. -/
inductive Built (crypto : Crypto PrivKey Secret) : CScript → Party → Party → Bool → List UInt8 → Prop where
  | createrawdata (sender : Sender PrivKey) (recipient : Party) (vchDataBody : List UInt8) (fOpen : Bool) :
      Built crypto (dataScript (createrawdata crypto sender recipient vchDataBody fOpen)) recipient (sender.shown crypto)
        (encryption crypto sender recipient fOpen).isSome
        (sentBody crypto (encryption crypto sender recipient fOpen) vchDataBody)
  | sendhexdata (fromPrivKey : PrivKey) (recipient : Party) (vchDataBody : List UInt8) (fOpen : Bool) :
      Built crypto (sendhexdata crypto fromPrivKey recipient vchDataBody fOpen) recipient
        (.pubKey (crypto.getPubKey fromPrivKey)) (encryption crypto (.privKey fromPrivKey) recipient fOpen).isSome
        (sentBody crypto (encryption crypto (.privKey fromPrivKey) recipient fOpen) vchDataBody)

/-- What a builder put into the script comes back, unless a key is uncompressed. -/
theorem envelope_round_trip (crypto : Crypto PrivKey Secret) {script : CScript} {recipient sender : Party}
    {encrypted : Bool} {body : List UInt8} (built : Built crypto script recipient sender encrypted body)
    (fits : script.length ≤ MAX_SCRIPT_SIZE) :
    ReadsBack script recipient sender encrypted body ↔ recipient.Compressed ∧ sender.Compressed := by
  cases built with
  | createrawdata => exact readsBack_iff _ _ _ _ (payload_fits fits)
  | sendhexdata => exact readsBack_iff _ _ _ _ (payload_fits fits)

structure Decoded where
  fromaddress : Option Party
  frompubkey : List UInt8
  toaddress : Option Party
  topubkey : List UInt8
  hexdata : List UInt8
  encryption : Bool
  decryption : Bool

/-- The address and the public key that a field stands for. -/
def readParty (crypto : Crypto PrivKey Secret) (vch : List UInt8) (type : TxnOutType) : Option Party × Option CPubKey :=
  if sized : vch.length = 20 then
    (some (if type ≠ .scriptHash then .keyID ⟨vch, sized⟩ else .scriptID ⟨vch, sized⟩), none)
  else if vch.length = 33 ∨ vch.length = 65 then
    (some (.keyID (crypto.hash160 ((CPubKey.set vch).elim [] CPubKey.vch))), CPubKey.set vch)
  else (none, none)

/-- Decryption with the secret shared with a public key, when that is fully valid. -/
def attempt (crypto : Crypto PrivKey Secret) (privKey : PrivKey) (pubKey : Option CPubKey) (vchDataBody : List UInt8) :
    Option (List UInt8) :=
  pubKey.bind fun pubKey =>
    if crypto.isFullyValid pubKey then crypto.decrypt (crypto.computSharedSecret privKey pubKey) vchDataBody else none

/-- The sender's public key is tried first, then the recipient's. -/
def tryBoth (crypto : Crypto PrivKey Secret) (privKey : PrivKey) (fromPubKey toPubKey : Option CPubKey)
    (vchDataBody : List UInt8) : Option (List UInt8) :=
  (attempt crypto privKey fromPubKey vchDataBody).or (attempt crypto privKey toPubKey vchDataBody)

/-- `decodedata`: nothing when a parser reads out of range, an empty object when the script is not LONG
data. -/
def decodedata (crypto : Crypto PrivKey Secret) (script : CScript) (privKey : Option PrivKey) : Option (Option Decoded) :=
  (isLong script).bind fun long =>
    if long then do
      let toField ← getLongToPubKey script
      let fromField ← getLongFromPubKey script
      let _ ← getTypeLongData script
      let encryptionField ← getEncryptionLongData script
      let bodyField ← getBodyLongData script
      let toParty := readParty crypto (toField.elim [] Prod.fst) (toField.elim .nullData Prod.snd)
      let fromParty := readParty crypto (fromField.elim [] Prod.fst) (fromField.elim .nullData Prod.snd)
      let encryptionType := encryptionField.getD 0
      let vchDataBody := bodyField.getD []
      let decrypted := if encryptionType = 1 then privKey.bind (tryBoth crypto · fromParty.2 toParty.2 vchDataBody) else none
      return some {
        fromaddress := fromParty.1
        frompubkey := fromParty.2.elim [] CPubKey.vch
        toaddress := toParty.1
        topubkey := toParty.2.elim [] CPubKey.vch
        hexdata := decrypted.getD vchDataBody
        encryption := encryptionType == 1
        decryption := decrypted.isSome || encryptionType == 0 }
    else some none

/-- `decodedata` with this key reports an encrypted message that it could decrypt to `m`. -/
def ReadableBy (crypto : Crypto PrivKey Secret) (script : CScript) (privKey : PrivKey) (m : List UInt8) : Prop :=
  ∃ decoded, decodedata crypto script (some privKey) = some (some decoded) ∧ decoded.encryption = true ∧
    decoded.decryption = true ∧ decoded.hexdata = m

theorem CPubKey.set_vch (key : CPubKey) : CPubKey.set key.vch = some key := dif_pos ⟨key.nonempty, key.sized⟩

theorem readParty_pubKey (crypto : Crypto PrivKey Secret) (key : CPubKey) (type : TxnOutType) :
    (readParty crypto key.vch type).2 = some key := by
  have length := key.length_eq
  rw [readParty, dif_neg (by omega), if_pos length, key.set_vch]

theorem readableBy_iff (crypto : Crypto PrivKey Secret) {script : CScript} {toPubKey fromPubKey : CPubKey} {body : List UInt8}
    (readsBack : ReadsBack script (.pubKey toPubKey) (.pubKey fromPubKey) true body) (privKey : PrivKey) (m : List UInt8) :
    ReadableBy crypto script privKey m ↔ tryBoth crypto privKey (some fromPubKey) (some toPubKey) body = some m := by
  have read : decodedata crypto script (some privKey) = some (some {
      fromaddress := (readParty crypto fromPubKey.vch .pubKey).1
      frompubkey := fromPubKey.vch
      toaddress := (readParty crypto toPubKey.vch .pubKey).1
      topubkey := toPubKey.vch
      hexdata := (tryBoth crypto privKey (some fromPubKey) (some toPubKey) body).getD body
      encryption := true
      decryption := (tryBoth crypto privKey (some fromPubKey) (some toPubKey) body).isSome || false }) := by
    rw [decodedata, readsBack.long, bind_some, if_pos rfl, readsBack.toPubKey, readsBack.fromPubKey, readsBack.type,
      readsBack.encryption, readsBack.body]
    simp only [bind_eq_bind, bind_some, elim_some, Party.bytes, readParty_pubKey]
    rfl
  constructor
  · rintro ⟨decoded, same, -, decrypted, hexdata⟩
    rw [read, some.injEq, some.injEq] at same
    rw [← same] at decrypted hexdata
    cases tried : tryBoth crypto privKey (some fromPubKey) (some toPubKey) body with
    | none =>
      rw [tried] at decrypted
      exact Bool.noConfusion decrypted
    | some plain =>
      rw [tried] at hexdata
      rw [← hexdata]
      rfl
  · intro tried
    rw [tried] at read
    exact ⟨_, read, rfl, rfl, rfl⟩

/-- The message from `a` to `b`, as a data script. -/
def sentScript (crypto : Crypto PrivKey Secret) (a b : PrivKey) (m : List UInt8) : CScript :=
  dataScript (createrawdata crypto (.privKey a) (.pubKey (crypto.getPubKey b)) m false)

/-- The secret that the sender shares with itself does not decrypt the message to anything else. -/
def OwnSecretHarmless (crypto : Crypto PrivKey Secret) (a b : PrivKey) (m : List UInt8) : Prop :=
  ∀ plain, crypto.decrypt (crypto.computSharedSecret a (crypto.getPubKey a))
    (crypto.encrypt (crypto.computSharedSecret a (crypto.getPubKey b)) m) = some plain → plain = m

def CompressedKey (crypto : Crypto PrivKey Secret) (key : PrivKey) : Prop := (Party.pubKey (crypto.getPubKey key)).Compressed

theorem readsBack_sent (crypto : Crypto PrivKey Secret) {a b : PrivKey} {m : List UInt8}
    (fits : (sentScript crypto a b m).length < 2 ^ 31) (aCompressed : CompressedKey crypto a)
    (bCompressed : CompressedKey crypto b) :
    ReadsBack (sentScript crypto a b m) (.pubKey (crypto.getPubKey b)) (.pubKey (crypto.getPubKey a)) true
      (crypto.encrypt (crypto.computSharedSecret a (crypto.getPubKey b)) m) := by
  refine (readsBack_iff _ _ _ _ ?_).mpr ⟨bCompressed, aCompressed⟩
  rw [sentScript, dataScript, List.length_cons, pushData, List.length_append] at fits
  exact Nat.lt_of_le_of_lt (Nat.le_add_left _ _) ((Nat.lt_of_succ_lt fits).trans (by decide))

theorem attempt_valid (crypto : Crypto PrivKey Secret) (privKey : PrivKey) {pubKey : CPubKey}
    (valid : crypto.isFullyValid pubKey = true) (body : List UInt8) :
    attempt crypto privKey (some pubKey) body = crypto.decrypt (crypto.computSharedSecret privKey pubKey) body := by
  rw [attempt, bind_some, if_pos valid]

theorem readable_sent_iff (crypto : Crypto PrivKey Secret)
    (shared : ∀ a b, crypto.computSharedSecret a (crypto.getPubKey b) = crypto.computSharedSecret b (crypto.getPubKey a))
    (inverse : ∀ secret m, crypto.decrypt secret (crypto.encrypt secret m) = some m) {a b : PrivKey} {m : List UInt8}
    (aValid : crypto.isFullyValid (crypto.getPubKey a) = true) (bValid : crypto.isFullyValid (crypto.getPubKey b) = true)
    (fits : (sentScript crypto a b m).length < 2 ^ 31) (aCompressed : CompressedKey crypto a)
    (bCompressed : CompressedKey crypto b) :
    (ReadableBy crypto (sentScript crypto a b m) b m ∧ ReadableBy crypto (sentScript crypto a b m) a m) ↔
      OwnSecretHarmless crypto a b m := by
  have readsBack := readsBack_sent crypto fits aCompressed bCompressed
  have byRecipient : ReadableBy crypto (sentScript crypto a b m) b m := by
    rw [readableBy_iff crypto readsBack, tryBoth, attempt_valid crypto b aValid, shared b a, inverse, some_or]
  have bySender : ReadableBy crypto (sentScript crypto a b m) a m ↔ OwnSecretHarmless crypto a b m := by
    rw [readableBy_iff crypto readsBack, tryBoth, attempt_valid crypto a aValid, attempt_valid crypto a bValid, inverse,
      OwnSecretHarmless]
    cases crypto.decrypt (crypto.computSharedSecret a (crypto.getPubKey a))
        (crypto.encrypt (crypto.computSharedSecret a (crypto.getPubKey b)) m) with
    | none => simp
    | some plain => simp
  rw [bySender]
  exact ⟨fun readable => readable.2, fun harmless => ⟨byRecipient, harmless⟩⟩

/-- Both parties read an encrypted message between compressed keys, if and only if the first secret that
the sender tries, the one shared with itself, fails or gives the message as well. -/
theorem readable_by_both (crypto : Crypto PrivKey Secret)
    (shared : ∀ a b, crypto.computSharedSecret a (crypto.getPubKey b) = crypto.computSharedSecret b (crypto.getPubKey a))
    (inverse : ∀ secret m, crypto.decrypt secret (crypto.encrypt secret m) = some m) (a b : PrivKey) (m : List UInt8)
    (aValid : crypto.isFullyValid (crypto.getPubKey a) = true) (bValid : crypto.isFullyValid (crypto.getPubKey b) = true)
    (fits : (sentScript crypto a b m).length < 2 ^ 31) :
    (CompressedKey crypto a ∧ CompressedKey crypto b ∧ OwnSecretHarmless crypto a b m →
        ReadableBy crypto (sentScript crypto a b m) b m ∧ ReadableBy crypto (sentScript crypto a b m) a m) ∧
      (CompressedKey crypto a → CompressedKey crypto b →
        ReadableBy crypto (sentScript crypto a b m) b m ∧ ReadableBy crypto (sentScript crypto a b m) a m →
        OwnSecretHarmless crypto a b m) := by
  refine ⟨?_, fun aCompressed bCompressed => ?_⟩
  · rintro ⟨aCompressed, bCompressed, harmless⟩
    exact (readable_sent_iff crypto shared inverse aValid bValid fits aCompressed bCompressed).mpr harmless
  · exact (readable_sent_iff crypto shared inverse aValid bValid fits aCompressed bCompressed).mp

def sampleKey (byte : UInt8) (rest : List UInt8) (nonzero : (byte :: rest).length = getLen byte) : CPubKey :=
  ⟨byte :: rest, List.cons_ne_nil _ _, nonzero⟩

/-- The key of private key one, as an uncompressed key. -/
def uncompressedKey : CPubKey := sampleKey 0x04 (generatorX ++ generatorY) (by decide)

/-- Private keys one (`false`) and minus one (`true`): the secret tells whether the factors differ. A
wrong secret decrypts a message to something else when the last byte is a padding of one byte. -/
def sampleCrypto : Crypto Bool Bool where
  getPubKey key := if key then sampleKey 0x03 generatorX (by decide) else sampleKey 0x02 generatorX (by decide)
  isFullyValid _ := true
  hash160 _ := ⟨List.replicate 20 0, by decide⟩
  computSharedSecret key pubKey := key != (pubKey.vch.headD 0 == 0x03)
  encrypt secret m := (if secret then 1 else 0) :: m
  decrypt secret vchCiphertext :=
    if vchCiphertext.head? = some (if secret then 1 else 0) then some (vchCiphertext.drop 1)
    else if vchCiphertext.getLast? = some 1 then some vchCiphertext.dropLast
    else none

def sampleParty : Party := .keyID ⟨List.replicate 20 7, by decide⟩

theorem envelope_round_trip_sample : ReadsBack (sendhexdata sampleCrypto false sampleParty [0x48, 0x49] false) sampleParty
        (.pubKey (sampleCrypto.getPubKey false)) false [0x48, 0x49] ↔
      sampleParty.Compressed ∧ (Party.pubKey (sampleCrypto.getPubKey false)).Compressed :=
  envelope_round_trip sampleCrypto (.sendhexdata false sampleParty [0x48, 0x49] false) (by decide)

/-- An uncompressed recipient gets the kind byte of a compressed one and is read back cut short. -/
theorem uncompressed_is_cut_short :
    ∃ script body, Built sampleCrypto script (.pubKey uncompressedKey) sampleParty false body ∧
      script.length ≤ MAX_SCRIPT_SIZE ∧ ¬ ReadsBack script (.pubKey uncompressedKey) sampleParty false body := by
  refine ⟨_, _, .createrawdata (.party sampleParty) (.pubKey uncompressedKey) [0x48, 0x49] false, by decide, ?_⟩
  intro readsBack
  have compressed := (readsBack_iff _ _ _ _ (by decide)).mp readsBack
  exact absurd compressed.1 (by decide)

theorem sampleCrypto_shared (a b : Bool) : sampleCrypto.computSharedSecret a (sampleCrypto.getPubKey b) =
    sampleCrypto.computSharedSecret b (sampleCrypto.getPubKey a) := by
  cases a <;> cases b <;> decide

theorem sampleCrypto_inverse (secret : Bool) (m : List UInt8) :
    sampleCrypto.decrypt secret (sampleCrypto.encrypt secret m) = some m := by
  cases secret <;> rfl

theorem readable_by_both_sample : (CompressedKey sampleCrypto false ∧ CompressedKey sampleCrypto true ∧
        OwnSecretHarmless sampleCrypto false true [0x48, 0x49] →
      ReadableBy sampleCrypto (sentScript sampleCrypto false true [0x48, 0x49]) true [0x48, 0x49] ∧
        ReadableBy sampleCrypto (sentScript sampleCrypto false true [0x48, 0x49]) false [0x48, 0x49]) ∧
      (CompressedKey sampleCrypto false → CompressedKey sampleCrypto true →
        ReadableBy sampleCrypto (sentScript sampleCrypto false true [0x48, 0x49]) true [0x48, 0x49] ∧
          ReadableBy sampleCrypto (sentScript sampleCrypto false true [0x48, 0x49]) false [0x48, 0x49] →
        OwnSecretHarmless sampleCrypto false true [0x48, 0x49]) :=
  readable_by_both sampleCrypto sampleCrypto_shared sampleCrypto_inverse false true [0x48, 0x49] rfl rfl (by decide)

/-- The sender's own secret decrypts the message to something else, and the sender is shown that. -/
theorem sender_reads_garbage : (∀ a b, sampleCrypto.computSharedSecret a (sampleCrypto.getPubKey b) =
        sampleCrypto.computSharedSecret b (sampleCrypto.getPubKey a)) ∧
      (∀ secret m, sampleCrypto.decrypt secret (sampleCrypto.encrypt secret m) = some m) ∧
      ReadableBy sampleCrypto (sentScript sampleCrypto false true [0x48, 0x01]) false [0x01, 0x48] ∧
      ¬ ReadableBy sampleCrypto (sentScript sampleCrypto false true [0x48, 0x01]) false [0x48, 0x01] := by
  have readsBack := readsBack_sent sampleCrypto (show (sentScript sampleCrypto false true [0x48, 0x01]).length < 2 ^ 31 by decide)
    (show (Party.pubKey (sampleCrypto.getPubKey false)).Compressed by decide)
    (show (Party.pubKey (sampleCrypto.getPubKey true)).Compressed by decide)
  refine ⟨sampleCrypto_shared, sampleCrypto_inverse, ?_, ?_⟩
  · rw [readableBy_iff sampleCrypto readsBack]
    decide
  · rw [readableBy_iff sampleCrypto readsBack]
    decide

end Longcoin.LongMessage

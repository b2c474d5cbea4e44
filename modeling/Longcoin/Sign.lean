import Longcoin.Interpreter
import Longcoin.Wallet

/-! `IsMine` (`wallet/wallet_ismine.cpp`) and `ProduceSignature` (`script/sign.cpp`). -/

namespace Longcoin.Sign
open Primitives Script LongData Standard Interpreter Wallet

/-- An unlocked key store. An id is its twenty bytes. A key is found under the hash of its public key, a
redeem script under its own hash. -/
structure CKeyStore (hash160 : List UInt8 → List UInt8) where
  pubKeys : List UInt8 → Option (List UInt8)
  scripts : List UInt8 → Option CScript
  watchOnly : CScript → Bool
  pubKeys_hash : ∀ id pubKey, pubKeys id = some pubKey → hash160 pubKey = id
  pubKeys_encoding : ∀ id pubKey, pubKeys id = some pubKey → isCompressedOrUncompressedPubKey pubKey = true
  scripts_hash : ∀ id script, scripts id = some script → hash160 script = id
  scripts_size : ∀ id script, scripts id = some script → script.length ≤ MAX_SCRIPT_REDEEM_SIZE

/-- The bytes of `CPubKey(vch)`: none when it is invalid. -/
def cPubKey (vch : List UInt8) : List UInt8 :=
  if vch.head?.any fun chHeader => getLen chHeader != 0 && getLen chHeader == vch.length then vch else []

variable {checker : Checker}

/-- `CPubKey(vch).GetID()`. -/
def pubKeyID (checker : Checker) (vch : List UInt8) : List UInt8 := checker.hash160 (cPubKey vch)

def haveKey (keystore : CKeyStore checker.hash160) (id : List UInt8) : Bool := (keystore.pubKeys id).isSome

def getScriptForRawPubKey (pubKey : List UInt8) : CScript := pushData pubKey ++ [OP_CHECKSIG]

def getScriptForKeyID (id : List UInt8) : CScript := [OP_DUP, OP_HASH160] ++ pushData id ++ [OP_EQUALVERIFY, OP_CHECKSIG]

def getScriptForScriptID (id : List UInt8) : CScript := [OP_HASH160] ++ pushData id ++ [OP_EQUAL]

/-- An output of LONG data is watched when the script of its address is. -/
def watchesLong (keystore : CKeyStore checker.hash160) (scriptPubKey subscript : CScript) : Bool :=
  (isLong scriptPubKey).getD false && keystore.watchOnly subscript

def watched (keystore : CKeyStore checker.hash160) (scriptPubKey : CScript) : IsMineType :=
  if keystore.watchOnly scriptPubKey then .watchOnly else .no

def firstSolution (solved : Solved) : List UInt8 := solved.vSolutionsRet.headD []

def multisigKeys (solved : Solved) : List (List UInt8) := (solved.vSolutionsRet.drop 1).dropLast

/-- `IsMine`, at most `turns` redeem scripts deep. Nothing when the depth is used up or `Solver` reads out of
range. -/
def isMine (keystore : CKeyStore checker.hash160) : Nat → CScript → Option IsMineType
  | 0, _ => none
  | turns + 1, scriptPubKey => (solver scriptPubKey).bind fun solved =>
    if solved.success then
      match solved.typeRet with
      | .nonStandard | .nullData => some (watched keystore scriptPubKey)
      | .pubKey =>
        if haveKey keystore (pubKeyID checker (firstSolution solved)) then some .spendable
        else if watchesLong keystore scriptPubKey (getScriptForRawPubKey (cPubKey (firstSolution solved))) then
          some .watchOnly
        else some (watched keystore scriptPubKey)
      | .pubKeyHash =>
        if haveKey keystore (firstSolution solved) then some .spendable
        else if watchesLong keystore scriptPubKey (getScriptForKeyID (firstSolution solved)) then some .watchOnly
        else some (watched keystore scriptPubKey)
      | .scriptHash =>
        match keystore.scripts (firstSolution solved) with
        | some subscript => (isMine keystore turns subscript).map fun ret =>
            if ret = .spendable then ret else watched keystore scriptPubKey
        | none =>
          if watchesLong keystore scriptPubKey (getScriptForScriptID (firstSolution solved)) then some .watchOnly
          else some (watched keystore scriptPubKey)
      | .multisig =>
        if (multisigKeys solved).all fun pubKey => haveKey keystore (pubKeyID checker pubKey) then some .spendable
        else some (watched keystore scriptPubKey)
    else some (watched keystore scriptPubKey)

/-- The signature that the key of a public key makes for a script: `SignatureHash`, `CKey::Sign` and the
hash type. -/
abbrev Signer := List UInt8 → CScript → List UInt8

def createSig (keystore : CKeyStore checker.hash160) (sign : Signer) (address : List UInt8) (scriptCode : CScript) :
    Option (List UInt8) :=
  (keystore.pubKeys address).map fun pubKey => sign pubKey scriptCode

def signN (keystore : CKeyStore checker.hash160) (sign : Signer) (scriptCode : CScript) :
    List (List UInt8) → Nat → Option (List (List UInt8))
  | _, 0 => some []
  | [], _ + 1 => none
  | pubKey :: rest, required + 1 =>
    (createSig keystore sign (pubKeyID checker pubKey) scriptCode).elim (signN keystore sign scriptCode rest (required + 1))
      fun vchSig => (signN keystore sign scriptCode rest required).map (vchSig :: ·)

/-- What `SignStep` writes to `scriptSigRet` when it succeeds: data to push, or a redeem script. -/
inductive Step where
  | pushes (data : List (List UInt8))
  | redeem (script : CScript)

/-- `SignStep`. `OP_0` pushes no bytes. -/
def signStep (keystore : CKeyStore checker.hash160) (sign : Signer) (scriptPubKey : CScript) : Option (Option Step) :=
  (solver scriptPubKey).map fun solved =>
    if solved.success then
      match solved.typeRet with
      | .nonStandard | .nullData => none
      | .pubKey =>
        (createSig keystore sign (pubKeyID checker (firstSolution solved)) scriptPubKey).map fun vchSig => .pushes [vchSig]
      | .pubKeyHash =>
        (createSig keystore sign (firstSolution solved) scriptPubKey).bind fun vchSig =>
          (keystore.pubKeys (firstSolution solved)).map fun vch => .pushes [vchSig, vch]
      | .scriptHash => (keystore.scripts (firstSolution solved)).map .redeem
      | .multisig =>
        (signN keystore sign scriptPubKey (multisigKeys solved) ((firstSolution solved).headD 0).toNat).map
          fun vchSigs => .pushes ([] :: vchSigs)
    else none

def pushAll (data : List (List UInt8)) : CScript := data.flatMap pushData

/-- `VerifyScript` under the standard flags. -/
def verifies (checker : Checker) (scriptSig fromPubKey : CScript) : Bool :=
  (verifyScript checker STANDARD_SCRIPT_VERIFY_FLAGS scriptSig fromPubKey).toBool

/-- `ProduceSignature`. A redeem script that asks for a redeem script is not solved. -/
def produceSignature (keystore : CKeyStore checker.hash160) (sign : Signer) (fromPubKey : CScript) : Option Bool :=
  (signStep keystore sign fromPubKey).bind fun step =>
    match step with
    | none => some false
    | some (.pushes data) => some (verifies checker (pushAll data) fromPubKey)
    | some (.redeem subscript) => (signStep keystore sign subscript).map fun solved =>
        match solved with
        | some (.pushes data) => verifies checker (pushAll (data ++ [subscript])) fromPubKey
        | _ => false

end Longcoin.Sign

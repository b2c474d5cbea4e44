import Mathlib.Data.BitVec

/-! Transactions, outputs and scripts as `primitives/transaction.h` and
`script/script.h` lay them out. The transaction id is the cached member `hash`,
so nothing here depends on how it was computed. -/

namespace Longcoin.Primitives

abbrev Uint256 := BitVec 256
abbrev Uint160 := BitVec 160
abbrev CAmount := Int
abbrev CScript := List UInt8

instance : LawfulBEq Uint256 := inferInstance

structure COutPoint where
  hash : Uint256
  n : Nat
deriving DecidableEq, Repr

/-- The coinbase marker: the null hash with `n = (uint32_t) -1`. -/
def COutPoint.isNull (out : COutPoint) : Bool := out.hash == 0 && out.n == 4294967295

structure CTxIn where
  prevout : COutPoint
  scriptSig : CScript := []
  nSequence : Nat := 4294967295
deriving DecidableEq, Repr

structure CTxOut where
  nValue : CAmount
  scriptPubKey : CScript
deriving DecidableEq, Repr

def CTxOut.setNull : CTxOut := { nValue := -1, scriptPubKey := [] }

def CTxOut.isNull (out : CTxOut) : Bool := out.nValue == -1

@[simp] theorem CTxOut.isNull_setNull : CTxOut.setNull.isNull = true := rfl

structure CTransaction where
  hash : Uint256
  nVersion : Int := 1
  vin : List CTxIn
  vout : List CTxOut
  nLockTime : Nat := 0
deriving DecidableEq, Repr

def CTransaction.isCoinBase (tx : CTransaction) : Bool :=
  match tx.vin with
  | [input] => input.prevout.isNull
  | _ => false

def MAX_MONEY : CAmount := 4200000000000

def moneyRange (nValue : CAmount) : Bool := 0 ≤ nValue ∧ nValue ≤ MAX_MONEY

theorem moneyRange_iff (nValue : CAmount) : moneyRange nValue = true ↔ 0 ≤ nValue ∧ nValue ≤ MAX_MONEY := by
  simp [moneyRange]

/-- `script.h`: a script is provably unspendable when it starts with OP_RETURN. -/
def CScript.isUnspendable (script : CScript) : Bool := script.head? == some 0x6a

def CScript.isPayToPublicKeyHash (script : CScript) : Bool :=
  script.length == 25 && script[0]? == some 0x76 && script[1]? == some 0xa9 && script[2]? == some 0x14 &&
    script[23]? == some 0x88 && script[24]? == some 0xac

def CScript.isPayToScriptHash (script : CScript) : Bool :=
  script.length == 23 && script[0]? == some 0xa9 && script[1]? == some 0x14 && script[22]? == some 0x87

/-- `uint160(vch)` copies the bytes; the first one is the least significant. -/
def uint160 (vch : List UInt8) : Uint160 :=
  BitVec.ofNat 160 (vch.foldr (fun byte rest => byte.toNat + 256 * rest) 0)

/-- The address type and hash that the index code extracts from an output script:
2 for pay-to-script-hash, 1 for pay-to-pubkey-hash, none otherwise. -/
def CScript.address (script : CScript) : Option (Nat × Uint160) :=
  if script.isPayToScriptHash then some (2, uint160 ((script.drop 2).take 20))
  else if script.isPayToPublicKeyHash then some (1, uint160 ((script.drop 3).take 20))
  else none

structure CSpentIndexValue where
  txid : Uint256 := 0
  inputIndex : Nat := 0
  blockHeight : Int := 0
  satoshis : CAmount := 0
  addressType : Nat := 0
  addressHash : Uint160 := 0
deriving DecidableEq, Repr

def CSpentIndexValue.isNull (value : CSpentIndexValue) : Bool := value.txid == 0

end Longcoin.Primitives

import Longcoin.VectorCodec

/-! Transactions in a stream (`primitives/transaction.h`). -/

namespace Longcoin.Serialize
open Primitives Library.Bytes

/-- A signed number in two's complement, the least significant byte first. -/
def writeInt (width : Nat) (number : Int) : List UInt8 := littleBytes width (number % 256 ^ width).toNat

def writeOutPoint (out : COutPoint) : List UInt8 := writeUint256 out.hash ++ littleBytes 4 out.n

def writeTxIn (txin : CTxIn) : List UInt8 :=
  writeOutPoint txin.prevout ++ writeByteVector txin.scriptSig ++ littleBytes 4 txin.nSequence

def writeTxOut (txout : CTxOut) : List UInt8 := writeInt 8 txout.nValue ++ writeByteVector txout.scriptPubKey

/-- The members of `CMutableTransaction`, and of `CTransaction` but for the cached hash. -/
def writeTransaction (nVersion : Int) (vin : List CTxIn) (vout : List CTxOut) (nLockTime : Nat) : List UInt8 :=
  writeInt 4 nVersion ++ writeVector writeTxIn vin ++ writeVector writeTxOut vout ++ littleBytes 4 nLockTime

@[simp] theorem length_writeInt (width : Nat) (number : Int) : (writeInt width number).length = width :=
  length_littleBytes width _

end Longcoin.Serialize

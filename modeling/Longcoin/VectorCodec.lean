import Longcoin.Primitives
import Longcoin.Library.Bytes
import Longcoin.Library.Codec

/-! Sizes and vectors in a stream (`serialize.h`). -/

namespace Longcoin.Serialize
open Primitives Library.Codec Library.Bytes List

def MAX_SIZE : Nat := 0x02000000

/-- `ser_readdata8` and its like. -/
def readUint (width : Nat) : Reader Nat := do
  let bytes ← readBytes width
  return little bytes

def writeCompactSize (nSize : Nat) : List UInt8 :=
  if nSize < 253 then littleBytes 1 nSize
  else if nSize ≤ 0xffff then littleBytes 1 253 ++ littleBytes 2 nSize
  else if nSize ≤ 0xffffffff then littleBytes 1 254 ++ littleBytes 4 nSize
  else littleBytes 1 255 ++ littleBytes 8 nSize

def readCanonical (width least : Nat) : Reader Nat := do
  let nSizeRet ← readUint width
  if nSizeRet < least then failure else return nSizeRet

def readSizeForm (chSize : Nat) : Reader Nat :=
  if chSize < 253 then return chSize
  else if chSize = 253 then readCanonical 2 253
  else if chSize = 254 then readCanonical 4 0x10000
  else readCanonical 8 0x100000000

def readCompactSize : Reader Nat := do
  let chSize ← readUint 1
  let nSizeRet ← readSizeForm chSize
  if nSizeRet > MAX_SIZE then failure else return nSizeRet

def writeVector {α : Type} (write : α → List UInt8) (v : List α) : List UInt8 := writeCompactSize v.length ++ v.flatMap write

/-- The objects one by one; in which steps the vector grows makes no difference. -/
def readVector {α : Type} (reader : Reader α) : Reader (List α) := do
  let nSize ← readCompactSize
  readEach (fun _ => reader) (List.replicate nSize ())

def writeByteVector (v : List UInt8) : List UInt8 := writeCompactSize v.length ++ v

def readByteVector : Reader (List UInt8) := do
  let nSize ← readCompactSize
  readBytes nSize

def writeUint256 (number : Uint256) : List UInt8 := littleBytes 32 number.toNat

def readUint256 : Reader Uint256 := do
  let number ← readUint 32
  return BitVec.ofNat 256 number

theorem readUint_reads {width number : Nat} (fits : number < 256 ^ width) : Reads (readUint width) (littleBytes width number) number := by
  have bytes := readBytes_reads (littleBytes width number)
  rw [length_littleBytes] at bytes
  have value := bytes.bind_pure little
  rw [little_littleBytes width number fits] at value
  exact value

theorem readCanonical_reads {width least number : Nat} (fits : number < 256 ^ width) (long : least ≤ number) :
    Reads (readCanonical width least) (littleBytes width number) number :=
  (readUint_reads fits).bind_same (if_neg (not_lt.mpr long))

theorem readSizeForm_reads {chSize nSize : Nat} {back : List UInt8} (byte : chSize < 256 ^ 1) (small : nSize ≤ MAX_SIZE)
    (form : Reads (readSizeForm chSize) back nSize) : Reads readCompactSize (littleBytes 1 chSize ++ back) nSize :=
  (readUint_reads byte).bind (form.bind_same (if_neg (not_lt.mpr small)))

theorem readCompactSize_reads {nSize : Nat} (small : nSize ≤ MAX_SIZE) : Reads readCompactSize (writeCompactSize nSize) nSize := by
  have limit : MAX_SIZE < 256 ^ 4 := by decide
  rw [writeCompactSize]
  split_ifs with one two four
  · rw [← append_nil (littleBytes 1 nSize)]
    refine readSizeForm_reads (by omega) small ?_
    rw [readSizeForm, if_pos one]
    exact Reads.pure nSize
  · exact readSizeForm_reads (by decide) small (readCanonical_reads (by omega) (by omega))
  · exact readSizeForm_reads (by decide) small (readCanonical_reads (by omega) (by omega))
  · omega

theorem readVector_reads {α : Type} {reader : Reader α} {write : α → List UInt8} {v : List α} (small : v.length ≤ MAX_SIZE)
    (each : ∀ entry ∈ v, Reads reader (write entry) entry) : Reads (readVector reader) (writeVector write v) v := by
  have units : replicate v.length () = v.map fun _ => () := by rw [map_const']
  have all : Reads (readEach (fun _ => reader) (v.map fun _ => ())) (v.flatMap write) (v.map id) :=
    readEach_reads v each
  rw [← units, map_id] at all
  exact (readCompactSize_reads small).bind all

theorem readByteVector_reads {v : List UInt8} (small : v.length ≤ MAX_SIZE) : Reads readByteVector (writeByteVector v) v :=
  (readCompactSize_reads small).bind (readBytes_reads v)

theorem readUint256_reads (number : Uint256) : Reads readUint256 (writeUint256 number) number := by
  have fits : number.toNat < 256 ^ 32 := number.isLt
  have value := (readUint_reads fits).bind_pure (BitVec.ofNat 256)
  rw [BitVec.ofNat_toNat, BitVec.setWidth_eq] at value
  exact value

end Longcoin.Serialize

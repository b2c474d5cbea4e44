import Longcoin.Library.BitPack
import Longcoin.Library.Outcome
import Longcoin.TransactionCodec

/-! `CBloomFilter` (`bloom.cpp`): the bytes with their two shortcut flags, `insert`, `contains` and `UpdateEmptyFull`. -/

namespace Longcoin.Bloom
open Library.BitPack List

def rotl32 (x : BitVec 32) (r : Nat) : BitVec 32 := x <<< r ||| x >>> (32 - r)

def murmurMix (k1 : BitVec 32) : BitVec 32 := rotl32 (k1 * 0xcc9e2d51) 15 * 0x1b873593

def ofByte (byte : UInt8) : BitVec 32 := BitVec.ofNat 32 byte.toNat

def murmurBlocks (h1 : BitVec 32) : List UInt8 → BitVec 32
  | b0 :: b1 :: b2 :: b3 :: rest =>
      let k1 := ofByte b0 ||| ofByte b1 <<< 8 ||| ofByte b2 <<< 16 ||| ofByte b3 <<< 24
      murmurBlocks (rotl32 (h1 ^^^ murmurMix k1) 13 * 5 + 0xe6546b64) rest
  | [b0, b1, b2] => h1 ^^^ murmurMix (ofByte b2 <<< 16 ^^^ ofByte b1 <<< 8 ^^^ ofByte b0)
  | [b0, b1] => h1 ^^^ murmurMix (ofByte b1 <<< 8 ^^^ ofByte b0)
  | [b0] => h1 ^^^ murmurMix (ofByte b0)
  | [] => h1

/-- `MurmurHash3` (`hash.cpp`). -/
def murmurHash3 (nHashSeed : BitVec 32) (vDataToHash : List UInt8) : BitVec 32 :=
  let h1 := murmurBlocks nHashSeed vDataToHash ^^^ BitVec.ofNat 32 vDataToHash.length
  let h1 := (h1 ^^^ h1 >>> 16) * 0x85ebca6b
  let h1 := (h1 ^^^ h1 >>> 13) * 0xc2b2ae35
  h1 ^^^ h1 >>> 16

example : murmurHash3 0xFBA4C795 [] = 0x6a396f08 ∧ murmurHash3 0 [0x00, 0x11, 0x22, 0x33] = 0xb4471bf8 := by decide

def BLOOM_UPDATE_NONE : UInt8 := 0
def BLOOM_UPDATE_ALL : UInt8 := 1
def BLOOM_UPDATE_P2PUBKEY_ONLY : UInt8 := 2
def BLOOM_UPDATE_MASK : UInt8 := 3

structure CBloomFilter where
  vData : List UInt8
  isFull : Bool
  isEmpty : Bool
  nHashFuncs : Nat
  nTweak : BitVec 32
  nFlags : UInt8
deriving DecidableEq

/-- A remainder modulo zero, or an access outside of `vData`. -/
inductive Fault where
  | divideByZero
  | outOfRange
deriving DecidableEq

namespace CBloomFilter

def updateEmptyFull (s : CBloomFilter) : CBloomFilter :=
  { s with isFull := s.vData.all (· == 0xff), isEmpty := s.vData.all (· == 0) }

def clear (s : CBloomFilter) : CBloomFilter :=
  { s with vData := List.replicate s.vData.length 0, isFull := false, isEmpty := true }

def reset (s : CBloomFilter) (nNewTweak : BitVec 32) : CBloomFilter := { s.clear with nTweak := nNewTweak }

section Access

variable (hashFunction : BitVec 32 → List UInt8 → BitVec 32)

/-- `Hash`. -/
def hash (s : CBloomFilter) (nHashNum : Nat) (vDataToHash : List UInt8) : Except Fault Nat :=
  if s.vData.length * 8 = 0 then .error .divideByZero
  else .ok ((hashFunction (BitVec.ofNat 32 nHashNum * 0xFBA4C795 + s.nTweak) vDataToHash).toNat % (s.vData.length * 8))

/-- `vData[nIndex >> 3] |= (1 << (7 & nIndex))` -/
def setIndex (vData : List UInt8) (nIndex : Nat) : Except Fault (List UInt8) :=
  if nIndex / 8 < vData.length then .ok (orBit vData nIndex true) else .error .outOfRange

/-- `vData[nIndex >> 3] & (1 << (7 & nIndex))` -/
def testIndex (vData : List UInt8) (nIndex : Nat) : Except Fault Bool :=
  if nIndex / 8 < vData.length then .ok (bitAt vData nIndex) else .error .outOfRange

def insertTurn (s : CBloomFilter) (vKey vData : List UInt8) (i : Nat) : Except Fault (List UInt8) := do
  let nIndex ← s.hash hashFunction i vKey
  setIndex vData nIndex

def insert (s : CBloomFilter) (vKey : List UInt8) : Except Fault CBloomFilter :=
  if s.isFull then .ok s
  else do
    let vData ← (List.range s.nHashFuncs).foldlM (s.insertTurn hashFunction vKey) s.vData
    return { s with vData := vData, isEmpty := false }

/-- The loop of `contains`, which ends at the first bit that is not set. -/
def probe (s : CBloomFilter) (vKey : List UInt8) : List Nat → Except Fault Bool
  | [] => .ok true
  | i :: rest => do
      let nIndex ← s.hash hashFunction i vKey
      let isSet ← testIndex s.vData nIndex
      if isSet then probe s vKey rest else return false

def contains (s : CBloomFilter) (vKey : List UInt8) : Except Fault Bool :=
  if s.isFull then .ok true
  else if s.isEmpty then .ok false
  else s.probe hashFunction vKey (List.range s.nHashFuncs)

end Access

end CBloomFilter

/-- A filter without bytes is full, so that nothing is hashed for it. -/
def Usable (s : CBloomFilter) : Prop := s.vData = [] → s.isFull = true

section Spec

variable (hashFunction : BitVec 32 → List UInt8 → BitVec 32)

def indexOf (s : CBloomFilter) (vKey : List UInt8) (i : Nat) : Nat :=
  (hashFunction (BitVec.ofNat 32 i * 0xFBA4C795 + s.nTweak) vKey).toNat % (s.vData.length * 8)

def Covered (s : CBloomFilter) (vKey : List UInt8) : Prop :=
  ∀ i < s.nHashFuncs, bitAt s.vData (indexOf hashFunction s vKey i) = true

def Holds (s : CBloomFilter) (vKey : List UInt8) : Prop := s.contains hashFunction vKey = .ok true

variable {hashFunction} {s s' : CBloomFilter} {vKey : List UInt8}

theorem hash_ok (nonempty : s.vData ≠ []) (vKey : List UInt8) (i : Nat) :
    s.hash hashFunction i vKey = .ok (indexOf hashFunction s vKey i) ∧ indexOf hashFunction s vKey i / 8 < s.vData.length := by
  have size := length_pos_iff.mpr nonempty
  have some : s.vData.length * 8 ≠ 0 := by omega
  have inside : indexOf hashFunction s vKey i < s.vData.length * 8 := Nat.mod_lt _ (Nat.pos_of_ne_zero some)
  constructor
  · rw [CBloomFilter.hash, if_neg some]
    rfl
  · omega

theorem insertTurns_ok (nonempty : s.vData ≠ []) (vKey : List UInt8) (turns : List Nat) : ∀ vData : List UInt8,
    vData.length = s.vData.length → ∃ vData', turns.foldlM (s.insertTurn hashFunction vKey) vData = .ok vData' ∧
      vData'.length = s.vData.length ∧
        ∀ p, bitAt vData' p = true ↔ bitAt vData p = true ∨ ∃ i ∈ turns, p = indexOf hashFunction s vKey i := by
  induction turns with
  | nil =>
    intro vData length
    refine ⟨vData, rfl, length, fun p => ?_⟩
    simp
  | cons i rest ih =>
    intro vData length
    obtain ⟨hashed, inside⟩ := @hash_ok hashFunction s nonempty vKey i
    obtain ⟨vData', result, length', bits⟩ := ih (orBit vData (indexOf hashFunction s vKey i) true) ((length_orBit _ _ _).trans length)
    have turn : s.insertTurn hashFunction vKey vData i = .ok (orBit vData (indexOf hashFunction s vKey i) true) := by
      rw [CBloomFilter.insertTurn, hashed]
      exact if_pos (length.symm ▸ inside)
    refine ⟨vData', ?_, length', fun p => ?_⟩
    · rw [foldlM_cons, turn]
      exact result
    · rw [bits, bitAt_orBit (length.symm ▸ inside), Bool.true_and, Bool.or_eq_true, decide_eq_true_eq, or_assoc]
      simp

theorem probe_ok (nonempty : s.vData ≠ []) (vKey : List UInt8) (turns : List Nat) :
    s.probe hashFunction vKey turns = .ok (turns.all fun i => bitAt s.vData (indexOf hashFunction s vKey i)) := by
  induction turns with
  | nil => rfl
  | cons i rest ih =>
    obtain ⟨hashed, inside⟩ := @hash_ok hashFunction s nonempty vKey i
    have test : CBloomFilter.testIndex s.vData (indexOf hashFunction s vKey i) = .ok (bitAt s.vData (indexOf hashFunction s vKey i)) :=
      if_pos inside
    rw [CBloomFilter.probe, hashed]
    change (do
      let isSet ← CBloomFilter.testIndex s.vData (indexOf hashFunction s vKey i)
      if isSet then s.probe hashFunction vKey rest else return false) = _
    rw [test, all_cons]
    change (if bitAt s.vData (indexOf hashFunction s vKey i) then s.probe hashFunction vKey rest else .ok false) = _
    rw [ih]
    cases bitAt s.vData (indexOf hashFunction s vKey i) with
    | true => rfl
    | false => rfl

theorem Usable.nonempty (usable : Usable s) (notFull : s.isFull = false) : s.vData ≠ [] := fun none =>
  Bool.false_ne_true (notFull.symm.trans (usable none))

theorem contains_ok (usable : Usable s) (vKey : List UInt8) : ∃ found, s.contains hashFunction vKey = .ok found ∧
    (found = true ↔ s.isFull = true ∨ s.isEmpty = false ∧ Covered hashFunction s vKey) := by
  rcases Bool.eq_false_or_eq_true s.isFull with full | notFull
  · refine ⟨true, ?_, by simp [full]⟩
    rw [CBloomFilter.contains, full]
    rfl
  · rcases Bool.eq_false_or_eq_true s.isEmpty with empty | notEmpty
    · refine ⟨false, ?_, by simp [notFull, empty]⟩
      rw [CBloomFilter.contains, notFull, empty]
      rfl
    · refine ⟨(range s.nHashFuncs).all fun i => bitAt s.vData (indexOf hashFunction s vKey i), ?_, ?_⟩
      · rw [CBloomFilter.contains, notFull, notEmpty]
        exact probe_ok (usable.nonempty notFull) vKey _
      · simp [Covered, notFull, notEmpty]

theorem holds_iff (usable : Usable s) (vKey : List UInt8) :
    Holds hashFunction s vKey ↔ s.isFull = true ∨ s.isEmpty = false ∧ Covered hashFunction s vKey := by
  obtain ⟨found, result, meaning⟩ := @contains_ok hashFunction s usable vKey
  rw [Holds, result, ← meaning]
  exact ⟨Except.ok.inj, congrArg Except.ok⟩

structure Grown (hashFunction : BitVec 32 → List UInt8 → BitVec 32) (s s' : CBloomFilter) : Prop where
  usable : Usable s → Usable s'
  same : s'.nFlags = s.nFlags ∧ s'.nTweak = s.nTweak ∧ s'.nHashFuncs = s.nHashFuncs ∧ s'.vData.length = s.vData.length
  full : s'.isFull = s.isFull
  holds : ∀ vKey, Usable s → Holds hashFunction s vKey → Holds hashFunction s' vKey

theorem Grown.refl (s : CBloomFilter) : Grown hashFunction s s := ⟨id, ⟨rfl, rfl, rfl, rfl⟩, rfl, fun _ _ => id⟩

theorem Grown.trans {s'' : CBloomFilter} (first : Grown hashFunction s s') (second : Grown hashFunction s' s'') :
    Grown hashFunction s s'' := by
  constructor
  · exact fun usable => second.usable (first.usable usable)
  · obtain ⟨flags, tweak, funcs, size⟩ := first.same
    obtain ⟨flags', tweak', funcs', size'⟩ := second.same
    exact ⟨flags'.trans flags, tweak'.trans tweak, funcs'.trans funcs, size'.trans size⟩
  · exact second.full.trans first.full
  · exact fun vKey usable held => second.holds vKey (first.usable usable) (first.holds vKey usable held)

theorem insert_ok (usable : Usable s) (vKey : List UInt8) : ∃ s', s.insert hashFunction vKey = .ok s' ∧
    Grown hashFunction s s' ∧ Holds hashFunction s' vKey ∧ (s.isFull = false → s'.isEmpty = false ∧
        ∀ p, bitAt s'.vData p = true ↔ bitAt s.vData p = true ∨ ∃ i < s.nHashFuncs, p = indexOf hashFunction s vKey i) := by
  rcases Bool.eq_false_or_eq_true s.isFull with full | notFull
  · refine ⟨s, ?_, Grown.refl s, (holds_iff usable vKey).mpr (.inl full), fun notFull => nomatch full.symm.trans notFull⟩
    rw [CBloomFilter.insert, full]
    rfl
  · have nonempty := usable.nonempty notFull
    obtain ⟨vData, result, length, bits⟩ := @insertTurns_ok hashFunction s nonempty vKey (range s.nHashFuncs) s.vData rfl
    simp only [mem_range] at bits
    have usable' : Usable { s with vData := vData, isEmpty := false } := by
      intro none
      rw [show vData = [] from none, length_nil] at length
      exact absurd (length_eq_zero_iff.mp length.symm) nonempty
    have same (key : List UInt8) (i : Nat) :
        indexOf hashFunction { s with vData := vData, isEmpty := false } key i = indexOf hashFunction s key i := by
      simp only [indexOf, length]
    refine ⟨{ s with vData := vData, isEmpty := false }, ?_, ⟨fun _ => usable', ⟨rfl, rfl, rfl, length⟩, rfl, ?_⟩, ?_, fun _ => ⟨rfl, bits⟩⟩
    · rw [CBloomFilter.insert, if_neg (ne_true_of_eq_false notFull), result]
      rfl
    · intro key _ held
      have covered := ((holds_iff usable key).mp held).resolve_left (ne_true_of_eq_false notFull)
      refine (holds_iff usable' key).mpr (.inr ⟨rfl, fun i below => ?_⟩)
      rw [same, bits]
      exact .inl (covered.2 i below)
    · refine (holds_iff usable' vKey).mpr (.inr ⟨rfl, fun i below => ?_⟩)
      rw [same, bits]
      exact .inr ⟨i, below, rfl⟩

end Spec

end Longcoin.Bloom

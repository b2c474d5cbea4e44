import Longcoin.Primitives
import Longcoin.Library.Bytes

/-! Script bytes as `script/script.h` reads and writes them. -/

namespace Longcoin.Script
open Primitives Library.Bytes List Option Bool

def OP_0 : UInt8 := 0x00
def OP_PUSHDATA1 : UInt8 := 0x4c
def OP_PUSHDATA2 : UInt8 := 0x4d
def OP_PUSHDATA4 : UInt8 := 0x4e
def OP_1 : UInt8 := 0x51
def OP_16 : UInt8 := 0x60
def OP_RETURN : UInt8 := 0x6a
def OP_INVALIDOPCODE : UInt8 := 0xff

def MAX_SCRIPT_SIZE : Nat := 64 * 1024 * 4 / 3 + 1

def sizeBytes (opcode : UInt8) : Nat :=
  if opcode < OP_PUSHDATA1 then 0
  else if opcode = OP_PUSHDATA1 then 1
  else if opcode = OP_PUSHDATA2 then 2
  else 4

def pushSize (opcode : UInt8) (pc : CScript) : Option Nat :=
  if opcode < OP_PUSHDATA1 then some opcode.toNat else readLittle (sizeBytes opcode) pc 0

/-- `GetOp2` with `pc` for the bytes up to `end()`: the opcode, the data it pushes and what follows. The difference of two
iterators is an `int`, so this is for scripts of less than 2^31 bytes. -/
def getOp : CScript → Option (UInt8 × List UInt8 × CScript)
  | [] => none
  | opcode :: pc =>
      if opcode ≤ OP_PUSHDATA4 then
        (pushSize opcode pc).bind fun nSize =>
          if (pc.drop (sizeBytes opcode)).length < nSize then none
          else some (opcode, (pc.drop (sizeBytes opcode)).take nSize, (pc.drop (sizeBytes opcode)).drop nSize)
      else some (opcode, [], pc)

/-- `CPubKey::GetLen` -/
def getLen (chHeader : UInt8) : Nat :=
  if chHeader = 2 ∨ chHeader = 3 then 33 else if chHeader = 4 ∨ chHeader = 6 ∨ chHeader = 7 then 65 else 0

def pushOnlyTurns : Nat → CScript → Bool
  | 0, pc => pc.isEmpty
  | turns + 1, pc => pc.isEmpty || (getOp pc).any fun op => decide (op.1 ≤ OP_16) && pushOnlyTurns turns op.2.2

/-- `IsPushOnly`: each turn of the loop takes at least one byte. -/
def isPushOnly (pc : CScript) : Bool := pushOnlyTurns pc.length pc

/-- What `operator<<` writes before the bytes of a vector. -/
def pushHeader (size : Nat) : CScript :=
  if size < 0x4c then [UInt8.ofNat size]
  else if size ≤ 0xff then [OP_PUSHDATA1, UInt8.ofNat size]
  else if size ≤ 0xffff then OP_PUSHDATA2 :: littleBytes 2 size
  else OP_PUSHDATA4 :: littleBytes 4 size

/-- `CScript::operator<<` of a vector. -/
def pushData (b : List UInt8) : CScript := pushHeader b.length ++ b

theorem getOp_cons_push {opcode : UInt8} {pc : CScript} (isPush : opcode ≤ OP_PUSHDATA4)
    {op : UInt8 × List UInt8 × CScript} (read : getOp (opcode :: pc) = some op) :
    ∃ nSize, pushSize opcode pc = some nSize ∧ sizeBytes opcode + nSize ≤ pc.length ∧
      op = (opcode, (pc.drop (sizeBytes opcode)).take nSize, (pc.drop (sizeBytes opcode)).drop nSize) := by
  rw [getOp, if_pos isPush] at read
  obtain ⟨nSize, sized, read⟩ := bind_eq_some_iff.mp read
  split at read
  · cases read
  · next enough =>
    have bytes : sizeBytes opcode ≤ pc.length := by
      rw [pushSize] at sized
      split at sized
      · next small =>
        rw [sizeBytes, if_pos small]
        exact Nat.zero_le _
      · have there := readLittle_isSome.mp (isSome_of_eq_some sized)
        omega
    rw [length_drop] at enough
    exact ⟨nSize, sized, by omega, (some.inj read).symm⟩

theorem getOp_of_isPushOnly {pc : CScript} (pushOnly : isPushOnly pc = true) (nonempty : pc ≠ []) :
    (getOp pc).isSome = true := by
  have length : pc.length = pc.length - 1 + 1 := by
    have := List.length_pos_iff.mpr nonempty
    omega
  rw [isPushOnly, length, pushOnlyTurns, Bool.or_eq_true, List.isEmpty_iff] at pushOnly
  obtain ⟨op, read, -⟩ := (Option.any_eq_true _ _).mp (pushOnly.resolve_left nonempty)
  exact Option.isSome_of_eq_some read

theorem pushSize_pushHeader (size : Nat) (fits : size < 2 ^ 32) (rest : CScript) :
    ∃ opcode tail, pushHeader size = opcode :: tail ∧ opcode ≤ OP_PUSHDATA4 ∧ tail.length = sizeBytes opcode ∧
      pushSize opcode (tail ++ rest) = some size := by
  rw [pushHeader]
  split
  · next small =>
    have value : (UInt8.ofNat size).toNat = size := by
      rw [UInt8.toNat_ofNat']
      omega
    have below : UInt8.ofNat size < OP_PUSHDATA1 := by
      rw [UInt8.lt_iff_toNat_lt, value]
      exact small
    refine ⟨UInt8.ofNat size, [], rfl, ?_, ?_, ?_⟩
    · rw [UInt8.le_iff_toNat_le, value]
      exact Nat.le_of_lt (Nat.lt_trans small (by decide))
    · rw [sizeBytes, if_pos below, length_nil]
    · rw [pushSize, if_pos below, value]
  · split
    · next one =>
      refine ⟨OP_PUSHDATA1, [UInt8.ofNat size], rfl, by decide, rfl, ?_⟩
      rw [pushSize, if_neg (by decide)]
      exact @readLittle_append 1 _ _ [] rest rfl (by omega)
    · split
      · next two =>
        refine ⟨OP_PUSHDATA2, _, rfl, by decide, by rw [length_littleBytes]; decide, ?_⟩
        rw [pushSize, if_neg (by decide)]
        exact @readLittle_append 2 _ _ [] rest rfl (by omega)
      · refine ⟨OP_PUSHDATA4, _, rfl, by decide, by rw [length_littleBytes]; decide, ?_⟩
        rw [pushSize, if_neg (by decide)]
        exact @readLittle_append 4 _ _ [] rest rfl (by omega)

theorem getOp_pushData (b rest : List UInt8) (fits : b.length < 2 ^ 32) :
    ∃ opcode, opcode ≤ OP_PUSHDATA4 ∧ getOp (pushData b ++ rest) = some (opcode, b, rest) := by
  obtain ⟨opcode, tail, header, isPush, length, sized⟩ := pushSize_pushHeader b.length fits (b ++ rest)
  refine ⟨opcode, isPush, ?_⟩
  have room : ¬ (b ++ rest).length < b.length := by
    rw [length_append]
    omega
  rw [pushData, header, cons_append, cons_append, getOp, if_pos isPush, append_assoc, sized,
    bind_some, ← length, drop_left, if_neg room, take_left, drop_left]

theorem isPushOnly_pushData (b : List UInt8) (fits : b.length < 2 ^ 32) : isPushOnly (pushData b) = true := by
  obtain ⟨opcode, isPush, read⟩ := getOp_pushData b [] fits
  rw [append_nil] at read
  have small : opcode ≤ OP_16 := UInt8.le_trans isPush (by decide)
  have done (turns : Nat) : pushOnlyTurns turns [] = true := by cases turns <;> rfl
  rw [isPushOnly]
  cases length : (pushData b).length with
  | zero =>
    rw [length_eq_zero_iff.mp length]
    rfl
  | succ turns =>
    rw [pushOnlyTurns, read, or_eq_true]
    right
    rw [any_some, and_eq_true, decide_eq_true_eq]
    exact ⟨small, done turns⟩

def generatorX : List UInt8 :=
  [0x79, 0xbe, 0x66, 0x7e, 0xf9, 0xdc, 0xbb, 0xac, 0x55, 0xa0, 0x62, 0x95, 0xce, 0x87, 0x0b, 0x07, 0x02, 0x9b, 0xfc, 0xdb,
    0x2d, 0xce, 0x28, 0xd9, 0x59, 0xf2, 0x81, 0x5b, 0x16, 0xf8, 0x17, 0x98]

def generatorY : List UInt8 :=
  [0x48, 0x3a, 0xda, 0x77, 0x26, 0xa3, 0xc4, 0x65, 0x5d, 0xa4, 0xfb, 0xfc, 0x0e, 0x11, 0x08, 0xa8, 0xfd, 0x17, 0xb4, 0x48,
    0xa6, 0x85, 0x54, 0x19, 0x9c, 0x47, 0xd0, 0x8f, 0xfb, 0x10, 0xd4, 0xb8]

end Longcoin.Script

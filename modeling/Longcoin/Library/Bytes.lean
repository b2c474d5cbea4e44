import Mathlib.Data.BitVec

/-! Buffers of bytes: parts of a buffer that are there or not, and numbers in little-endian order. -/

namespace Longcoin.Library.Bytes
open List Option

variable {α : Type}

/-- `length` entries from `start` on, when the buffer has them all. -/
def range (buffer : List α) (start length : Nat) : Option (List α) :=
  if start + length ≤ buffer.length then some ((buffer.drop start).take length) else none

theorem range_some {buffer part : List α} {start length : Nat} (found : range buffer start length = some part) :
    start + length ≤ buffer.length ∧ part = (buffer.drop start).take length := by
  rw [range] at found
  split at found
  · next fits => exact ⟨fits, (some.inj found).symm⟩
  · cases found

theorem range_of_le {buffer : List α} {start length : Nat} (fits : start + length ≤ buffer.length) :
    range buffer start length = some ((buffer.drop start).take length) := if_pos fits

theorem range_isSome {buffer : List α} {start length : Nat} :
    (range buffer start length).isSome = true ↔ start + length ≤ buffer.length := by
  rw [range]
  split <;> simp_all

theorem range_append (front part back : List α) {start length : Nat} (starts : front.length = start)
    (long : part.length = length) : range (front ++ (part ++ back)) start length = some part := by
  subst starts long
  rw [range_of_le (by simp), drop_left, take_left]

theorem range_length {buffer part : List α} {start length : Nat} (found : range buffer start length = some part) :
    part.length = length := by
  obtain ⟨fits, rfl⟩ := range_some found
  rw [length_take, length_drop]
  omega

/-- The number that bytes stand for, the least significant one first. -/
def little : List UInt8 → Nat
  | [] => 0
  | byte :: rest => byte.toNat + 256 * little rest

/-- The lowest `width` bytes of a number. -/
def littleBytes : Nat → Nat → List UInt8
  | 0, _ => []
  | width + 1, number => UInt8.ofNat number :: littleBytes width (number / 256)

@[simp] theorem length_littleBytes (width number : Nat) : (littleBytes width number).length = width := by
  induction width generalizing number with
  | zero => rfl
  | succ width ih => rw [littleBytes, length_cons, ih]

theorem little_littleBytes (width number : Nat) (fits : number < 256 ^ width) :
    little (littleBytes width number) = number := by
  induction width generalizing number with
  | zero =>
    rw [Nat.pow_zero] at fits
    rw [littleBytes, little]
    omega
  | succ width ih =>
    have rest : number / 256 < 256 ^ width := by
      rw [Nat.div_lt_iff_lt_mul (by omega), ← Nat.pow_succ]
      exact fits
    rw [littleBytes, little, ih _ rest, UInt8.toNat_ofNat']
    omega

theorem littleBytes_little (bytes : List UInt8) : littleBytes bytes.length (little bytes) = bytes := by
  induction bytes with
  | nil => rfl
  | cons byte rest ih =>
    have small := byte.toNat_lt
    have low : UInt8.ofNat (byte.toNat + 256 * little rest) = byte := by
      apply UInt8.toNat_inj.mp
      rw [UInt8.toNat_ofNat']
      omega
    have high : (byte.toNat + 256 * little rest) / 256 = little rest := by omega
    rw [length_cons, little, littleBytes, low, high, ih]

/-- A number of `width` bytes at `start`. -/
def readLittle (width : Nat) (buffer : List UInt8) (start : Nat) : Option Nat := (range buffer start width).map little

theorem readLittle_isSome {width start : Nat} {buffer : List UInt8} :
    (readLittle width buffer start).isSome = true ↔ start + width ≤ buffer.length := by
  rw [readLittle, isSome_map, range_isSome]

theorem readLittle_append {width start number : Nat} (front back : List UInt8) (starts : front.length = start)
    (fits : number < 256 ^ width) : readLittle width (front ++ (littleBytes width number ++ back)) start = some number := by
  rw [readLittle, range_append front _ back starts (length_littleBytes width number), map_some,
    little_littleBytes width number fits]

theorem little_lt (bytes : List UInt8) : little bytes < 256 ^ bytes.length := by
  induction bytes with
  | nil => exact Nat.one_pos
  | cons byte rest ih =>
    have small : byte.toNat < 256 := byte.toNat_lt
    rw [little, length_cons, Nat.pow_succ]
    omega

/-- The bytes of `mark` compared one after the other up to the first that differs: nothing when the
buffer ends before. -/
def startsWith : List UInt8 → List UInt8 → Option Bool
  | [], _ => some true
  | _ :: _, [] => none
  | byte :: mark, first :: buffer => if first = byte then startsWith mark buffer else some false

theorem startsWith_true {mark buffer : List UInt8} : startsWith mark buffer = some true ↔ mark <+: buffer := by
  fun_induction startsWith mark buffer with
  | case1 => simp
  | case2 => simp
  | case3 byte mark buffer ih => simp [ih]
  | case4 byte mark first buffer different => simp [cons_prefix_cons, Ne.symm different]

theorem startsWith_none {mark buffer : List UInt8} : startsWith mark buffer = none ↔ buffer <+: mark ∧ buffer ≠ mark := by
  fun_induction startsWith mark buffer with
  | case1 => simp
  | case2 => simp
  | case3 byte mark buffer ih => simp [ih, cons_prefix_cons]
  | case4 byte mark first buffer different => simp [cons_prefix_cons, different]

end Longcoin.Library.Bytes

import Mathlib.Data.Nat.Bitwise
import Mathlib.Data.List.Basic

/-! Bits packed into bytes, the least significant one first. -/

namespace Longcoin.Library.BitPack
open List Bool

def orBit (bytes : List UInt8) (p : Nat) (bit : Bool) : List UInt8 :=
  bytes.modify (p / 8) fun byte => UInt8.ofNat (byte.toNat ||| bit.toNat <<< (p % 8))

def pack (bits : List Bool) : List UInt8 :=
  (List.range bits.length).foldl (fun bytes p => orBit bytes p (bits.getD p false)) (List.replicate ((bits.length + 7) / 8) 0)

def bitAt (bytes : List UInt8) (p : Nat) : Bool := (bytes.getD (p / 8) 0).toNat &&& 1 <<< (p % 8) != 0

def unpack (bytes : List UInt8) : List Bool := (List.range (bytes.length * 8)).map (bitAt bytes)

theorem bitAt_eq (bytes : List UInt8) (p : Nat) : bitAt bytes p = (bytes.getD (p / 8) 0).toNat.testBit (p % 8) := by
  have power := Nat.two_pow_pos (p % 8)
  rw [bitAt, Nat.one_shiftLeft, Nat.and_two_pow]
  cases (bytes.getD (p / 8) 0).toNat.testBit (p % 8) with
  | false => rw [toNat_false, Nat.zero_mul, bne_self_eq_false]
  | true =>
    rw [toNat_true, Nat.one_mul]
    exact bne_iff_ne.mpr power.ne'

theorem length_orBit (bytes : List UInt8) (p : Nat) (bit : Bool) : (orBit bytes p bit).length = bytes.length := by
  rw [orBit, length_modify]

theorem bitAt_orBit {bytes : List UInt8} {p : Nat} (inside : p / 8 < bytes.length) (bit : Bool) (q : Nat) :
    bitAt (orBit bytes p bit) q = (bitAt bytes q || (bit && decide (q = p))) := by
  rw [bitAt_eq, bitAt_eq, orBit, getD_eq_getElem?_getD, getD_eq_getElem?_getD, getElem?_modify]
  split_ifs with same
  · rw [same] at inside
    have low : q % 8 < 8 := Nat.mod_lt q (by decide)
    have position : q = p ↔ q % 8 = p % 8 := by omega
    have shifted : (bit.toNat <<< (p % 8)).testBit (q % 8) = (bit && decide (q = p)) := by
      rw [Nat.testBit_shiftLeft, Nat.testBit_bool_toNat]
      by_cases here : q = p
      · rw [here]
        simp
      · have other := position.not.mp here
        by_cases above : q % 8 ≥ p % 8
        · rw [decide_eq_false here, decide_eq_false (by omega : ¬q % 8 - p % 8 = 0), Bool.false_and, Bool.and_false, Bool.and_false]
        · rw [decide_eq_false above, decide_eq_false here, Bool.false_and, Bool.and_false]
    rw [getElem?_eq_getElem inside, Option.map_eq_map, Option.map_some, Option.getD_some, Option.getD_some, UInt8.toNat_ofNat',
      Nat.testBit_mod_two_pow, decide_eq_true low, Bool.true_and, Nat.testBit_or, shifted]
  · have other : ¬q = p := fun equal => same (by rw [equal])
    rw [decide_eq_false other, Bool.and_false, Bool.or_false]
    cases bytes[q / 8]? <;> rfl

theorem pack_loop (bits : List Bool) (count : Nat) (fits : count ≤ bits.length) :
    ((List.range count).foldl (fun bytes p => orBit bytes p (bits.getD p false))
        (List.replicate ((bits.length + 7) / 8) 0)).length = (bits.length + 7) / 8 ∧
      ∀ q, bitAt ((List.range count).foldl (fun bytes p => orBit bytes p (bits.getD p false))
        (List.replicate ((bits.length + 7) / 8) 0)) q = (decide (q < count) && bits.getD q false) := by
  induction count with
  | zero =>
    refine ⟨List.length_replicate, fun q => ?_⟩
    rw [List.range_zero, List.foldl_nil, bitAt_eq, List.getD_eq_getElem?_getD, List.getElem?_replicate]
    split_ifs <;> simp
  | succ count ih =>
    obtain ⟨length, before⟩ := ih (by omega)
    rw [List.range_succ, List.foldl_append, List.foldl_cons, List.foldl_nil]
    refine ⟨(length_orBit _ _ _).trans length, fun q => ?_⟩
    rw [bitAt_orBit (by omega), before]
    by_cases here : q = count
    · rw [here, decide_eq_true rfl, decide_eq_false (lt_irrefl count), decide_eq_true (Nat.lt_succ_self count), Bool.false_and,
        Bool.false_or, Bool.and_true, Bool.true_and]
    · have same : decide (q < count + 1) = decide (q < count) := decide_eq_decide.mpr (by omega)
      rw [decide_eq_false here, Bool.and_false, Bool.or_false, same]

theorem length_pack (bits : List Bool) : (pack bits).length = (bits.length + 7) / 8 := (pack_loop bits bits.length le_rfl).1

theorem unpack_pack (bits : List Bool) : unpack (pack bits) = bits ++ replicate ((8 - bits.length % 8) % 8) false := by
  have width : (bits.length + 7) / 8 * 8 = bits.length + (8 - bits.length % 8) % 8 := by omega
  have value := (pack_loop bits bits.length le_rfl).2
  refine ext_getElem? fun p => ?_
  rw [unpack, length_pack, width, getElem?_map, getElem?_append, getElem?_replicate]
  by_cases inside : p < bits.length
  · rw [getElem?_range (by omega), if_pos inside, getElem?_eq_getElem inside]
    refine congrArg some ((value p).trans ?_)
    rw [decide_eq_true inside, Bool.true_and, List.getD_eq_getElem _ _ inside]
  · rw [if_neg inside]
    split_ifs with padding
    · rw [getElem?_range (by omega)]
      refine congrArg some ((value p).trans ?_)
      rw [decide_eq_false inside, Bool.false_and]
    · rw [getElem?_eq_none (by rw [length_range]; omega)]
      rfl

end Longcoin.Library.BitPack

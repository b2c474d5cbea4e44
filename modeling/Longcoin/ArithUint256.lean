import Longcoin.Library.Limbs
import Mathlib.Data.Nat.Size

/-! `base_uint` (`arith_uint256.h`, `arith_uint256.cpp`): unsigned numbers in words of 32 bits, and what its operators
compute. A `uint64_t` that cannot overflow is a natural number. -/

namespace Longcoin.ArithUint256
open Library.Limbs List

/-- `base_uint<BITS>`; `WIDTH` is `BITS / 32`. -/
@[ext] structure BaseUint (WIDTH : Nat) where
  pn : List (BitVec 32)
  size : pn.length = WIDTH
deriving DecidableEq

/-- `arith_uint256`. -/
abbrev ArithUint := BaseUint 8

/-- `operator+=`. -/
def addLoop : Nat → List (BitVec 32) → List (BitVec 32) → List (BitVec 32)
  | carry, x :: xs, y :: ys =>
      let n := carry + x.toNat + y.toNat
      BitVec.ofNat 32 n :: addLoop (n / 2 ^ 32) xs ys
  | _, _, _ => []

/-- `operator*=` by a `uint32_t`. -/
def mulLoop (b32 : BitVec 32) : Nat → List (BitVec 32) → List (BitVec 32)
  | _, [] => []
  | carry, x :: xs =>
      let n := carry + b32.toNat * x.toNat
      BitVec.ofNat 32 n :: mulLoop b32 (n / 2 ^ 32) xs

/-- `operator++`. -/
def incrementLoop : List (BitVec 32) → List (BitVec 32)
  | [] => []
  | x :: xs => if x + 1 = 0 then (x + 1) :: incrementLoop xs else (x + 1) :: xs

/-- `pn[i] |= word`. -/
def orWord (pn : List (BitVec 32)) (i : Nat) (word : BitVec 32) : List (BitVec 32) := pn.set i (pn.getD i 0 ||| word)

def shiftLeftTurn (WIDTH k shift : Nat) (a pn : List (BitVec 32)) (i : Nat) : List (BitVec 32) :=
  let pn := if i + k + 1 < WIDTH ∧ shift ≠ 0 then orWord pn (i + k + 1) (a.getD i 0 >>> (32 - shift)) else pn
  if i + k < WIDTH then orWord pn (i + k) (a.getD i 0 <<< shift) else pn

def shiftRightTurn (k shift : Nat) (a pn : List (BitVec 32)) (i : Nat) : List (BitVec 32) :=
  let pn := if i ≥ k + 1 ∧ shift ≠ 0 then orWord pn (i - k - 1) (a.getD i 0 <<< (32 - shift)) else pn
  if i ≥ k then orWord pn (i - k) (a.getD i 0 >>> shift) else pn

/-- `CompareTo`, from the word below `count` down. -/
def compareLoop (a b : List (BitVec 32)) : Nat → Int
  | 0 => 0
  | i + 1 =>
      if (a.getD i 0).toNat < (b.getD i 0).toNat then -1
      else if (a.getD i 0).toNat > (b.getD i 0).toNat then 1
      else compareLoop a b i

def highestBit (word : BitVec 32) : Nat → Nat
  | 0 => 0
  | bits + 1 => if word.getLsbD (bits + 1) then bits + 1 else highestBit word bits

def bitsLoop (pn : List (BitVec 32)) : Nat → Nat
  | 0 => 0
  | pos + 1 => if pn.getD pos 0 ≠ 0 then 32 * pos + highestBit (pn.getD pos 0) 31 + 1 else bitsLoop pn pos

variable {WIDTH : Nat}

@[simp] theorem length_addLoop (carry : Nat) (xs ys : List (BitVec 32)) :
    (addLoop carry xs ys).length = min xs.length ys.length := by
  induction xs generalizing carry ys with
  | nil => simp [addLoop]
  | cons x xs ih =>
    cases ys with
    | nil => simp [addLoop]
    | cons y ys =>
      rw [addLoop, length_cons, ih, length_cons, length_cons]
      omega

@[simp] theorem length_mulLoop (b32 : BitVec 32) (carry : Nat) (xs : List (BitVec 32)) :
    (mulLoop b32 carry xs).length = xs.length := by
  induction xs generalizing carry with
  | nil => rfl
  | cons x xs ih => rw [mulLoop, length_cons, ih, length_cons]

@[simp] theorem length_incrementLoop (xs : List (BitVec 32)) : (incrementLoop xs).length = xs.length := by
  induction xs with
  | nil => rfl
  | cons x xs ih =>
    rw [incrementLoop]
    split_ifs
    · rw [length_cons, ih, length_cons]
    · rfl

@[simp] theorem length_orWord (pn : List (BitVec 32)) (i : Nat) (word : BitVec 32) : (orWord pn i word).length = pn.length :=
  length_set

@[simp] theorem length_shiftLeftTurn (k shift : Nat) (a pn : List (BitVec 32)) (i : Nat) :
    (shiftLeftTurn WIDTH k shift a pn i).length = pn.length := by
  unfold shiftLeftTurn
  split_ifs <;> simp

@[simp] theorem length_shiftRightTurn (k shift : Nat) (a pn : List (BitVec 32)) (i : Nat) :
    (shiftRightTurn k shift a pn i).length = pn.length := by
  unfold shiftRightTurn
  split_ifs <;> simp

theorem length_foldl_turn {turn : List (BitVec 32) → Nat → List (BitVec 32)} (keeps : ∀ pn i, (turn pn i).length = pn.length)
    (order : List Nat) (pn : List (BitVec 32)) : (order.foldl turn pn).length = pn.length := by
  induction order generalizing pn with
  | nil => rfl
  | cons i order ih => rw [foldl_cons, ih, keeps]

namespace BaseUint

def zero (WIDTH : Nat) : BaseUint WIDTH where
  pn := List.replicate WIDTH 0
  size := List.length_replicate ..

/-- `base_uint(uint64_t)`. -/
def ofUint64 (WIDTH : Nat) (b : BitVec 64) : BaseUint WIDTH where
  pn := ((List.replicate WIDTH 0).set 0 (b.setWidth 32)).set 1 ((b >>> 32).setWidth 32)
  size := by simp

/-- `operator~`. -/
def complement (a : BaseUint WIDTH) : BaseUint WIDTH where
  pn := a.pn.map fun limb => ~~~limb
  size := by rw [List.length_map, a.size]

/-- `operator++`. -/
def increment (a : BaseUint WIDTH) : BaseUint WIDTH where
  pn := incrementLoop a.pn
  size := by rw [length_incrementLoop, a.size]

/-- `operator-` of one operand. -/
def negate (a : BaseUint WIDTH) : BaseUint WIDTH := a.complement.increment

/-- `operator+=`. -/
def add (a b : BaseUint WIDTH) : BaseUint WIDTH where
  pn := addLoop 0 a.pn b.pn
  size := by rw [length_addLoop, a.size, b.size, Nat.min_self]

/-- `operator-=`. -/
def sub (a b : BaseUint WIDTH) : BaseUint WIDTH := a.add b.negate

/-- `operator*=(uint32_t)`. -/
def mul32 (a : BaseUint WIDTH) (b32 : BitVec 32) : BaseUint WIDTH where
  pn := mulLoop b32 0 a.pn
  size := by rw [length_mulLoop, a.size]

/-- `operator<<=`. -/
def shiftLeft (a : BaseUint WIDTH) (shift : Nat) : BaseUint WIDTH where
  pn := (List.range WIDTH).foldl (shiftLeftTurn WIDTH (shift / 32) (shift % 32) a.pn) (List.replicate WIDTH 0)
  size := by rw [length_foldl_turn (length_shiftLeftTurn _ _ _), List.length_replicate]

/-- `operator>>=`. -/
def shiftRight (a : BaseUint WIDTH) (shift : Nat) : BaseUint WIDTH where
  pn := (List.range WIDTH).foldl (shiftRightTurn (shift / 32) (shift % 32) a.pn) (List.replicate WIDTH 0)
  size := by rw [length_foldl_turn (length_shiftRightTurn _ _ _), List.length_replicate]

def compareTo (a b : BaseUint WIDTH) : Int := compareLoop a.pn b.pn WIDTH

def equalTo (a : BaseUint WIDTH) (b : BitVec 64) : Bool :=
  (a.pn.drop 2).all (· == 0) && a.pn.getD 1 0 == (b >>> 32).setWidth 32 && a.pn.getD 0 0 == b.setWidth 32

def bits (a : BaseUint WIDTH) : Nat := bitsLoop a.pn WIDTH

def getLow64 (a : BaseUint WIDTH) : BitVec 64 := (a.pn.getD 0 0).setWidth 64 ||| (a.pn.getD 1 0).setWidth 64 <<< 32

/-- `pn[shift / 32] |= (1 << (shift & 31))`. -/
def setBit (a : BaseUint WIDTH) (shift : Nat) : BaseUint WIDTH where
  pn := orWord a.pn (shift / 32) ((1 : BitVec 32) <<< (shift % 32))
  size := by rw [length_orWord, a.size]

/-- The loop of `operator/=`, with the quotient and `num`; `shift` is one less than the count of turns left. -/
def divLoop : Nat → BaseUint WIDTH → BaseUint WIDTH → BaseUint WIDTH → BaseUint WIDTH × BaseUint WIDTH
  | 0, quotient, num, _ => (quotient, num)
  | shift + 1, quotient, num, div =>
      if num.compareTo div ≥ 0 then divLoop shift (quotient.setBit shift) (num.sub div) (div.shiftRight 1)
      else divLoop shift quotient num (div.shiftRight 1)

/-- `operator/=`: the quotient, and the remainder that is left in `num`. -/
def divide (a b : BaseUint WIDTH) : Except String (BaseUint WIDTH × BaseUint WIDTH) :=
  if b.bits = 0 then .error "Division by zero"
  else if b.bits > a.bits then .ok (zero WIDTH, a)
  else .ok (divLoop (a.bits - b.bits + 1) (zero WIDTH) a (b.shiftLeft (a.bits - b.bits)))

def toNat (a : BaseUint WIDTH) : Nat := value a.pn

end BaseUint

end Longcoin.ArithUint256

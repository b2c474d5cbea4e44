import Longcoin.Library.Bytes
import Mathlib.Tactic.Ring

/-! `CScriptNum` (`script/script.h`): numbers on the stack, in little-endian bytes of which the last one
carries the sign. -/

namespace Longcoin.ScriptNum
open Library.Bytes List

def nDefaultMaxNumSize : Nat := 4

/-- `std::numeric_limits<int64_t>`. -/
def INT64_MIN : Int := -2 ^ 63
def INT64_MAX : Int := 2 ^ 63 - 1

/-- The test of `fRequireMinimal`: the last byte holds more than a sign, or the byte below needs it. -/
def isMinimal (vch : List UInt8) : Bool :=
  vch.isEmpty || vch.getLastD 0 &&& 0x7f != 0 ||
    decide (1 < vch.length) && vch.getD (vch.length - 2) 0 &&& 0x80 != 0

def setVch (vch : List UInt8) : Int :=
  if vch.isEmpty then 0
  else if vch.getLastD 0 &&& 0x80 ≠ 0 then -((little vch : Int) - 0x80 * 256 ^ (vch.length - 1))
  else little vch

/-- The constructor from bytes, which throws a `scriptnum_error` when it gives nothing. -/
def ofBytes (vch : List UInt8) (fRequireMinimal : Bool) (nMaxNumSize : Nat) : Option Int :=
  if vch.length > nMaxNumSize then none
  else if fRequireMinimal && !isMinimal vch then none
  else some (setVch vch)

def getint (value : Int) : Int :=
  if value > 2147483647 then 2147483647 else if value < -2147483648 then -2147483648 else value

/-- The loop of `serialize` over a `uint64_t`. -/
def magnitude : Nat → Nat → List UInt8
  | 0, _ => []
  | turns + 1, absvalue => if absvalue = 0 then [] else UInt8.ofNat absvalue :: magnitude turns (absvalue / 256)

def serialize (value : Int) : List UInt8 :=
  if value = 0 then []
  else
    let neg := decide (value < 0)
    let result := magnitude 8 value.natAbs
    if result.getLastD 0 &&& 0x80 ≠ 0 then result ++ [if neg then 0x80 else 0]
    else if neg then result.dropLast ++ [result.getLastD 0 ||| 0x80]
    else result

example : (serialize (-255), serialize 128, serialize 127) = ([0xff, 0x80], [0x80, 0], [0x7f]) := by decide

theorem ofBytes_of_minimal {vch : List UInt8} {fRequireMinimal weaker : Bool} {nMaxNumSize : Nat} {value : Int}
    (weakens : weaker = true → fRequireMinimal = true)
    (read : ofBytes vch fRequireMinimal nMaxNumSize = some value) : ofBytes vch weaker nMaxNumSize = some value := by
  rw [ofBytes] at read ⊢
  by_cases long : vch.length > nMaxNumSize
  · rw [if_pos long] at read
    cases read
  rw [if_neg long] at read ⊢
  by_cases refused : (fRequireMinimal && !isMinimal vch) = true
  · rw [if_pos refused] at read
    cases read
  · rw [if_neg refused] at read
    rw [if_neg, read]
    intro refusedToo
    rw [Bool.and_eq_true] at refusedToo refused
    exact refused ⟨weakens refusedToo.1, refusedToo.2⟩

/-- What the bits of a byte are as a sign and a digit. -/
theorem sign_bits (byte : UInt8) :
    (byte &&& 0x7f) &&& 0x80 = 0 ∧
      (byte &&& 0x80 = 0 → byte &&& 0x7f = byte ∧ (byte ||| 0x80) &&& 0x80 ≠ 0 ∧ (byte ||| 0x80) &&& 0x7f = byte) ∧
      (byte &&& 0x80 ≠ 0 → (byte &&& 0x7f) ||| 0x80 = byte ∧ byte.toNat = (byte &&& 0x7f).toNat + 0x80) ∧
      (byte &&& 0x7f = 0 → byte = if byte &&& 0x80 ≠ 0 then 0x80 else 0) := by
  cases byte with
  | ofBitVec byte =>
    cases byte with
    | ofFin byte =>
      revert byte
      decide +kernel

theorem little_snoc (front : List UInt8) (last : UInt8) :
    little (front ++ [last]) = little front + last.toNat * 256 ^ front.length := by
  induction front with
  | nil => simp [little]
  | cons byte front ih =>
    rw [cons_append, little, ih, little, length_cons, Nat.pow_succ]
    ring

theorem little_zero (front : List UInt8) : little (front ++ [0]) = little front := by
  rw [little_snoc]
  simp

theorem little_pos {front : List UInt8} {last : UInt8} (nonzero : last ≠ 0) : 0 < little (front ++ [last]) := by
  have digit : 0 < last.toNat := Nat.pos_of_ne_zero fun zero => nonzero (UInt8.toNat_inj.mp zero)
  rw [little_snoc]
  exact Nat.add_pos_right _ (Nat.mul_pos digit (Nat.pow_pos (by decide)))

theorem magnitude_little {turns : Nat} {front : List UInt8} {last : UInt8} (nonzero : last ≠ 0)
    (short : (front ++ [last]).length ≤ turns) : magnitude turns (little (front ++ [last])) = front ++ [last] := by
  induction front generalizing turns with
  | nil =>
    have positive : 0 < little ([] ++ [last]) := little_pos nonzero
    obtain ⟨turns, rfl⟩ : ∃ more, turns = more + 1 := ⟨turns - 1, (Nat.sub_add_cancel short).symm⟩
    have rest : little ([] ++ [last]) / 256 = 0 := by
      have := last.toNat_lt
      simp only [nil_append, little]
      omega
    rw [magnitude, if_neg (Nat.ne_of_gt positive), rest]
    cases turns <;> simp [magnitude, little]
  | cons byte front ih =>
    obtain ⟨turns, rfl⟩ : ∃ more, turns = more + 1 :=
      ⟨turns - 1, (Nat.sub_add_cancel (Nat.le_trans (Nat.succ_le_succ (Nat.zero_le _)) short)).symm⟩
    have positive : 0 < little (front ++ [last]) := little_pos nonzero
    have size := byte.toNat_lt
    have digit : UInt8.ofNat (byte.toNat + 256 * little (front ++ [last])) = byte := by
      apply UInt8.toNat_inj.mp
      rw [UInt8.toNat_ofNat']
      omega
    rw [cons_append, little, magnitude, if_neg (by omega), digit,
      show (byte.toNat + 256 * little (front ++ [last])) / 256 = little (front ++ [last]) by omega,
      ih (Nat.le_of_succ_le_succ short)]

theorem magnitude_digits {turns number : Nat} (positive : 0 < number) (fits : number < 256 ^ turns) :
    ∃ front last, magnitude turns number = front ++ [last] ∧ last ≠ 0 ∧ little (front ++ [last]) = number := by
  induction turns generalizing number with
  | zero => omega
  | succ turns ih =>
    rw [magnitude, if_neg (by omega)]
    by_cases small : number / 256 = 0
    · have digit : (UInt8.ofNat number).toNat = number := by
        rw [UInt8.toNat_ofNat']
        omega
      refine ⟨[], UInt8.ofNat number, ?_, ?_, ?_⟩
      · rw [small]
        cases turns <;> rfl
      · intro zero
        rw [zero] at digit
        exact absurd digit (Nat.ne_of_lt positive)
      · simp [little, digit]
    · obtain ⟨front, last, same, nonzero, value⟩ := ih (Nat.pos_of_ne_zero small) (by rw [Nat.pow_succ] at fits; omega)
      refine ⟨UInt8.ofNat number :: front, last, by rw [same, cons_append], nonzero, ?_⟩
      rw [cons_append, little, value, UInt8.toNat_ofNat']
      omega

def signed (neg : Bool) (number : Nat) : Int := if neg then -number else number

theorem setVch_snoc (front : List UInt8) (last : UInt8) :
    setVch (front ++ [last]) = signed (last &&& 0x80 ≠ 0) (little (front ++ [last &&& 0x7f])) := by
  obtain ⟨_, plain, negative, _⟩ := sign_bits last
  unfold setVch signed
  rw [getLastD_concat, if_neg (by simp), length_append, length_singleton, Nat.add_sub_cancel]
  by_cases sign : last &&& 0x80 = 0
  · rw [if_neg (by simp [sign]), if_neg (by simp [sign]), (plain sign).1]
  · rw [if_pos sign, if_pos (by simp [sign]), little_snoc, little_snoc, (negative sign).2]
    push_cast
    ring

theorem serialize_digits {front : List UInt8} {last : UInt8} (neg : Bool) (nonzero : last ≠ 0)
    (short : (front ++ [last]).length ≤ 8) :
    serialize (signed neg (little (front ++ [last]))) =
      if last &&& 0x80 ≠ 0 then front ++ [last] ++ [if neg then 0x80 else 0]
      else if neg then front ++ [last ||| 0x80] else front ++ [last] := by
  have positive : 0 < little (front ++ [last]) := little_pos nonzero
  have digits := magnitude_little nonzero short
  generalize little (front ++ [last]) = number at *
  have sign : decide (signed neg number < 0) = neg := by
    unfold signed
    cases neg with
    | true =>
      simp
      omega
    | false => simp
  have size : (signed neg number).natAbs = number := by
    unfold signed
    cases neg <;> simp
  have other : signed neg number ≠ 0 := by
    intro zero
    rw [zero] at size
    exact absurd size (Nat.ne_of_lt positive)
  unfold serialize
  rw [if_neg other, sign, size, digits]
  dsimp only
  rw [getLastD_concat, dropLast_concat]

theorem digits_of {value : Int} (least : INT64_MIN < value) (most : value ≤ INT64_MAX) (nonzero : value ≠ 0) :
    ∃ front last neg, last ≠ 0 ∧ (front ++ [last]).length ≤ 8 ∧ value = signed neg (little (front ++ [last])) := by
  have size : value.natAbs < 2 ^ 63 := by
    unfold INT64_MIN at least
    unfold INT64_MAX at most
    omega
  obtain ⟨front, last, -, high, number⟩ := magnitude_digits (show 0 < value.natAbs by omega) (show value.natAbs < 256 ^ 8 by omega)
  refine ⟨front, last, value < 0, high, ?_, ?_⟩
  · have digit : 1 ≤ last.toNat := Nat.pos_of_ne_zero fun zero => high (UInt8.toNat_inj.mp zero)
    have power : 256 ^ front.length ≤ value.natAbs := by
      rw [← number, little_snoc]
      have := Nat.mul_le_mul_right (256 ^ front.length) digit
      omega
    have below : front.length < 8 := by
      rw [← Nat.pow_lt_pow_iff_right (show 1 < 256 by decide)]
      omega
    rw [length_append, length_singleton]
    omega
  · rw [number]
    unfold signed
    split_ifs with negative
    · have := of_decide_eq_true negative
      omega
    · have : ¬ value < 0 := fun less => negative (decide_eq_true less)
      omega

theorem setVch_serialize {value : Int} (least : INT64_MIN < value) (most : value ≤ INT64_MAX) : setVch (serialize value) = value := by
  by_cases zero : value = 0
  · rw [zero]
    rfl
  · obtain ⟨front, last, neg, high, short, rfl⟩ := digits_of least most zero
    obtain ⟨_, plain, _, _⟩ := sign_bits last
    rw [serialize_digits neg high short]
    by_cases top : last &&& 0x80 = 0
    · rw [if_neg (by simp [top])]
      cases neg with
      | true =>
        rw [if_pos rfl, setVch_snoc, (plain top).2.2]
        exact congrArg (fun sign => signed sign _) (decide_eq_true (plain top).2.1)
      | false =>
        rw [if_neg (by decide), setVch_snoc, (plain top).1]
        exact congrArg (fun sign => signed sign _) (decide_eq_false (not_not.mpr top))
    · rw [if_pos top, setVch_snoc]
      cases neg with
      | true => exact congrArg (signed true) (little_zero _)
      | false => exact congrArg (signed false) (little_zero _)

theorem isMinimal_snoc (front : List UInt8) (last : UInt8) :
    isMinimal (front ++ [last]) = true ↔ last &&& 0x7f ≠ 0 ∨ ∃ before top, front = before ++ [top] ∧ top &&& 0x80 ≠ 0 := by
  unfold isMinimal
  rw [getLastD_concat]
  rcases eq_nil_or_concat front with rfl | ⟨before, top, rfl⟩
  · simp
  · have there : (before ++ [top] ++ [last]).getD ((before ++ [top] ++ [last]).length - 2) 0 = top := by simp
    rw [concat_eq_append, there]
    simp

theorem isMinimal_serialize {value : Int} (least : INT64_MIN < value) (most : value ≤ INT64_MAX) :
    isMinimal (serialize value) = true := by
  by_cases zero : value = 0
  · rw [zero]
    rfl
  · obtain ⟨front, last, neg, high, short, rfl⟩ := digits_of least most zero
    obtain ⟨_, plain, _, _⟩ := sign_bits last
    rw [serialize_digits neg high short]
    split_ifs with top sign
    · exact (isMinimal_snoc _ _).mpr (.inr ⟨front, last, rfl, top⟩)
    · exact (isMinimal_snoc _ _).mpr (.inr ⟨front, last, rfl, top⟩)
    · exact (isMinimal_snoc _ _).mpr (.inl (by rw [(plain (not_not.mp top)).2.2]; exact high))
    · exact (isMinimal_snoc _ _).mpr (.inl (by rw [(plain (not_not.mp top)).1]; exact high))

theorem serialize_setVch {vch : List UInt8} (short : vch.length ≤ 8) (minimal : isMinimal vch = true) :
    serialize (setVch vch) = vch := by
  rcases eq_nil_or_concat vch with rfl | ⟨front, last, rfl⟩
  · rfl
  · rw [concat_eq_append] at *
    obtain ⟨low, plain, negative, sign⟩ := sign_bits last
    rw [setVch_snoc]
    by_cases digit : last &&& 0x7f = 0
    · -- the last byte is only a sign, so that the digits end below it
      obtain ⟨before, top, rfl, high⟩ := ((isMinimal_snoc front last).mp minimal).resolve_left (not_not.mpr digit)
      have same : little (before ++ [top] ++ [last &&& 0x7f]) = little (before ++ [top]) := by
        rw [digit, little_zero]
      have nonzero : top ≠ 0 := by
        rintro rfl
        exact high rfl
      rw [same, serialize_digits _ nonzero (by simp at short ⊢; omega), if_pos high]
      conv => rhs; rw [sign digit]
      simp
    · rw [serialize_digits _ digit (by simpa using short), if_neg (not_not.mpr low)]
      by_cases neg : last &&& 0x80 = 0
      · rw [if_neg (by simp [neg]), (plain neg).1]
      · rw [if_pos (by simp [neg]), (negative neg).1]

theorem setVch_range {vch : List UInt8} (short : vch.length ≤ 8) : INT64_MIN < setVch vch ∧ setVch vch ≤ INT64_MAX := by
  rcases eq_nil_or_concat vch with rfl | ⟨front, last, rfl⟩
  · decide
  · rw [concat_eq_append] at *
    rw [setVch_snoc]
    have digit : (last &&& 0x7f).toNat < 128 := by
      have mask : (last &&& 0x7f).toNat = last.toNat % 128 := by
        rw [UInt8.toNat_and]
        exact Nat.and_two_pow_sub_one_eq_mod last.toNat 7
      omega
    have size : little (front ++ [last &&& 0x7f]) < 2 ^ 63 := by
      have low := little_lt front
      have top := Nat.mul_le_mul_right (256 ^ front.length) (Nat.le_of_lt_succ digit)
      have power : 256 ^ front.length ≤ 256 ^ 7 := Nat.pow_le_pow_right (by decide) (by simp at short; omega)
      rw [little_snoc]
      omega
    unfold signed INT64_MIN INT64_MAX
    split_ifs <;> omega

/-- The constructor takes just the encodings that `serialize` writes, so that a number has one of them. -/
theorem scriptNum_minimal : (∀ n, INT64_MIN < n → n ≤ INT64_MAX → setVch (serialize n) = n) ∧
    (∀ vch nMaxNumSize, vch.length ≤ 8 → vch.length ≤ nMaxNumSize →
      ((ofBytes vch true nMaxNumSize).isSome = true ↔ serialize (setVch vch) = vch)) ∧
    ∀ first second nMaxNumSize n, nMaxNumSize ≤ 8 → ofBytes first true nMaxNumSize = some n →
      ofBytes second true nMaxNumSize = some n → first = second := by
  have accepts {vch : List UInt8} {nMaxNumSize : Nat} (short : vch.length ≤ 8) (few : vch.length ≤ nMaxNumSize) :
      (ofBytes vch true nMaxNumSize).isSome = true ↔ serialize (setVch vch) = vch := by
    have minimal : (ofBytes vch true nMaxNumSize).isSome = isMinimal vch := by
      unfold ofBytes
      rw [if_neg (Nat.not_lt.mpr few)]
      cases isMinimal vch <;> rfl
    rw [minimal]
    constructor
    · exact serialize_setVch short
    · intro same
      obtain ⟨least, most⟩ := setVch_range short
      rw [← same]
      exact isMinimal_serialize least most
  refine ⟨fun n least most => setVch_serialize least most, fun vch nMaxNumSize short few => accepts short few, ?_⟩
  intro first second nMaxNumSize n limit read1 read2
  have encoded {vch : List UInt8} (read : ofBytes vch true nMaxNumSize = some n) : vch = serialize n := by
    have few : vch.length ≤ nMaxNumSize := by
      by_contra long
      rw [ofBytes, if_pos (Nat.not_le.mp long)] at read
      cases read
    have value : setVch vch = n := by
      unfold ofBytes at read
      split_ifs at read
      exact Option.some.inj read
    rw [← value]
    exact ((accepts (few.trans limit) few).mp (Option.isSome_of_eq_some read)).symm
  exact (encoded read1).trans (encoded read2).symm

end Longcoin.ScriptNum

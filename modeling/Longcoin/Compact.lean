import Longcoin.ArithShift
import Longcoin.Library.Mantissa

/-! The compact form of a target (`arith_uint256.cpp`). -/

namespace Longcoin.ArithUint256
open Library Library.Limbs Mantissa BaseUint Bool

structure Compact where
  target : ArithUint
  fNegative : Bool
  fOverflow : Bool
deriving DecidableEq

def setCompact (nCompact : BitVec 32) : Compact :=
  let nSize := (nCompact >>> 24).toNat
  let nWord := nCompact &&& 0x007fffff
  let nWord := if nSize ≤ 3 then nWord >>> (8 * (3 - nSize)) else nWord
  { target :=
      if nSize ≤ 3 then .ofUint64 8 (nWord.setWidth 64)
      else (BaseUint.ofUint64 8 (nWord.setWidth 64)).shiftLeft (8 * (nSize - 3))
    fNegative := decide (nWord ≠ 0 ∧ nCompact &&& 0x00800000 ≠ 0)
    fOverflow := decide (nWord ≠ 0 ∧
      (nSize > 34 ∨ nWord.toNat > 0xff ∧ nSize > 33 ∨ nWord.toNat > 0xffff ∧ nSize > 32)) }

/-- The size and the mantissa in `GetCompact`, before the sign bit is cleared. -/
def compactWord (a : ArithUint) : Nat × BitVec 32 :=
  let nSize := (a.bits + 7) / 8
  if nSize ≤ 3 then (nSize, (a.getLow64 <<< (8 * (3 - nSize))).setWidth 32)
  else (nSize, (a.shiftRight (8 * (nSize - 3))).getLow64.setWidth 32)

/-- The size and the mantissa of which `GetCompact` asserts that they fit. -/
def compactParts (a : ArithUint) : Nat × BitVec 32 :=
  let word := compactWord a
  if word.2 &&& 0x00800000 ≠ 0 then (word.1 + 1, word.2 >>> 8) else word

def getCompact (a : ArithUint) (fNegative : Bool) : BitVec 32 :=
  let nCompact := (compactParts a).2 ||| BitVec.ofNat 32 ((compactParts a).1 <<< 24)
  nCompact ||| (if fNegative = true ∧ nCompact &&& 0x007fffff ≠ 0 then 0x00800000 else 0)

def exponentOf (nCompact : BitVec 32) : Nat := nCompact.toNat / 2 ^ 24

def mantissaOf (nCompact : BitVec 32) : Nat := nCompact.toNat % 2 ^ 23

theorem toNat_exponent (nCompact : BitVec 32) : (nCompact >>> 24).toNat = exponentOf nCompact := by
  rw [BitVec.toNat_ushiftRight, Nat.shiftRight_eq_div_pow, exponentOf]

theorem toNat_and_mantissa (nCompact : BitVec 32) : (nCompact &&& 0x007fffff).toNat = mantissaOf nCompact := by
  rw [BitVec.toNat_and, mantissaOf]
  exact Nat.and_two_pow_sub_one_eq_mod nCompact.toNat 23

theorem mantissaOf_lt (nCompact : BitVec 32) : mantissaOf nCompact < 2 ^ 23 := Nat.mod_lt _ (by decide)

theorem and_sign_ne_zero (nCompact : BitVec 32) : nCompact &&& 0x00800000 ≠ 0 ↔ nCompact.getLsbD 23 = true := by
  have masked : (nCompact &&& 0x00800000).toNat = (nCompact.toNat.testBit 23).toNat * 2 ^ 23 := by
    rw [BitVec.toNat_and]
    exact Nat.and_two_pow nCompact.toNat 23
  rw [BitVec.getLsbD]
  constructor
  · intro nonzero
    by_contra clear
    rw [eq_false_iff.mpr clear] at masked
    exact nonzero (BitVec.eq_of_toNat_eq (by rw [masked]; rfl))
  · intro isSet zero
    rw [isSet, zero] at masked
    cases masked

namespace BaseUint

theorem toNat_ofUint64 (b : BitVec 64) : (ofUint64 8 b).toNat = b.toNat := by
  have low : (b.setWidth 32).toNat = b.toNat % 2 ^ 32 := BitVec.toNat_setWidth ..
  have high : ((b >>> 32).setWidth 32).toNat = b.toNat / 2 ^ 32 := by
    rw [BitVec.toNat_setWidth, BitVec.toNat_ushiftRight, Nat.shiftRight_eq_div_pow]
    have small := b.isLt
    omega
  have words : (ofUint64 8 b).pn = b.setWidth 32 :: (b >>> 32).setWidth 32 :: List.replicate 6 0 := rfl
  rw [toNat, words, value_cons, value_cons, value_replicate_zero, low, high]
  omega

theorem toNat_getLow64 (a : ArithUint) : a.getLow64.toNat = a.toNat % 2 ^ 64 := by
  obtain ⟨pn, size⟩ := a
  match pn, size with
  | low :: high :: rest, size =>
    have small := low.isLt
    have smallHigh := high.isLt
    have shifted : ((high.setWidth 64) <<< 32).toNat = high.toNat <<< 32 := by
      rw [BitVec.toNat_shiftLeft, BitVec.toNat_setWidth, Nat.mod_eq_of_lt (by omega), Nat.shiftLeft_eq,
        Nat.mod_eq_of_lt (by omega), Nat.shiftLeft_eq]
    have joined : getLow64 ⟨low :: high :: rest, size⟩ = low.setWidth 64 ||| (high.setWidth 64) <<< 32 := rfl
    rw [joined, BitVec.toNat_or, shifted, BitVec.toNat_setWidth, Nat.mod_eq_of_lt (by omega), Nat.lor_comm,
      ← Nat.shiftLeft_add_eq_or_of_lt small, Nat.shiftLeft_eq, toNat, value_cons, value_cons]
    omega

end BaseUint

def shiftedMantissa (nCompact : BitVec 32) : Nat :=
  if exponentOf nCompact ≤ 3 then mantissaOf nCompact / 256 ^ (3 - exponentOf nCompact) else mantissaOf nCompact

/-- The word that `SetCompact` works with. -/
def shiftedWord (nCompact : BitVec 32) : BitVec 32 :=
  if exponentOf nCompact ≤ 3 then (nCompact &&& 0x007fffff) >>> (8 * (3 - exponentOf nCompact)) else nCompact &&& 0x007fffff

theorem toNat_shiftedWord (nCompact : BitVec 32) : (shiftedWord nCompact).toNat = shiftedMantissa nCompact := by
  rw [shiftedWord, shiftedMantissa]
  split_ifs
  · rw [BitVec.toNat_ushiftRight, toNat_and_mantissa, Nat.shiftRight_eq_div_pow, pow_mul, show 2 ^ 8 = 256 by decide]
  · exact toNat_and_mantissa nCompact

theorem shiftedMantissa_lt (nCompact : BitVec 32) : shiftedMantissa nCompact < 2 ^ 23 := by
  have fits := mantissaOf_lt nCompact
  rw [shiftedMantissa]
  split_ifs
  · exact (Nat.div_le_self _ _).trans_lt fits
  · exact fits

theorem word_ne_zero {word : BitVec 32} : word ≠ 0 ↔ 0 < word.toNat := by
  rw [Nat.pos_iff_ne_zero]
  exact not_congr ⟨fun zero => by rw [zero]; rfl, fun zero => BitVec.eq_of_toNat_eq zero⟩

theorem setCompact_eq (nCompact : BitVec 32) : setCompact nCompact =
    { target :=
        if exponentOf nCompact ≤ 3 then .ofUint64 8 ((shiftedWord nCompact).setWidth 64)
        else (ofUint64 8 ((shiftedWord nCompact).setWidth 64)).shiftLeft (8 * (exponentOf nCompact - 3))
      fNegative := decide (shiftedWord nCompact ≠ 0 ∧ nCompact &&& 0x00800000 ≠ 0)
      fOverflow := decide (shiftedWord nCompact ≠ 0 ∧ (exponentOf nCompact > 34 ∨
        (shiftedWord nCompact).toNat > 0xff ∧ exponentOf nCompact > 33 ∨
          (shiftedWord nCompact).toNat > 0xffff ∧ exponentOf nCompact > 32)) } := by
  rw [setCompact]
  simp only [toNat_exponent]
  rfl

theorem negative_iff (nCompact : BitVec 32) : (setCompact nCompact).fNegative = true ↔
    0 < shiftedMantissa nCompact ∧ nCompact.getLsbD 23 = true := by
  rw [setCompact_eq, decide_eq_true_iff, word_ne_zero, toNat_shiftedWord, and_sign_ne_zero]

theorem overflow_iff (nCompact : BitVec 32) : (setCompact nCompact).fOverflow = true ↔
    2 ^ 256 * 256 ^ 3 ≤ mantissaOf nCompact * 256 ^ exponentOf nCompact := by
  rw [setCompact_eq, decide_eq_true_iff, word_ne_zero, toNat_shiftedWord, shiftedMantissa]
  have fits := mantissaOf_lt nCompact
  generalize mantissaOf nCompact = mantissa at fits ⊢
  generalize exponentOf nCompact = exponent
  have limit : 2 ^ 256 * 256 ^ 3 = 256 ^ 35 := by decide
  rw [limit]
  rcases Nat.lt_or_ge exponent 33 with low | high
  · have small : mantissa * 256 ^ exponent < 256 ^ 35 := by
      calc mantissa * 256 ^ exponent < 256 ^ 3 * 256 ^ exponent := Nat.mul_lt_mul_of_pos_right (by omega) (Nat.pow_pos (by decide))
        _ = 256 ^ (3 + exponent) := (pow_add ..).symm
        _ ≤ 256 ^ 35 := Nat.pow_le_pow_right (by decide) (by omega)
    refine iff_of_false ?_ (not_le.mpr small)
    rintro ⟨-, long | ⟨-, long⟩ | ⟨-, long⟩⟩ <;> omega
  · rw [if_neg (by omega)]
    rcases Nat.lt_or_ge 34 exponent with above | within
    · have step : 256 ^ 35 ≤ 256 ^ exponent := Nat.pow_le_pow_right (by decide) above
      constructor
      · rintro ⟨positive, -⟩
        exact step.trans (Nat.le_mul_of_pos_left _ positive)
      · intro large
        refine ⟨Nat.pos_of_ne_zero fun zero => ?_, .inl above⟩
        rw [zero, Nat.zero_mul] at large
        cases large
    · obtain rfl | rfl : exponent = 33 ∨ exponent = 34 := by omega
      · have split : 256 ^ 35 = 256 ^ 2 * 256 ^ 33 := by rw [← pow_add]
        rw [split, Nat.mul_le_mul_right_iff (Nat.pow_pos (by decide))]
        omega
      · have split : 256 ^ 35 = 256 * 256 ^ 34 := by rw [← pow_succ']
        rw [split, Nat.mul_le_mul_right_iff (Nat.pow_pos (by decide))]
        omega

theorem toNat_target {nCompact : BitVec 32} (fits : (setCompact nCompact).fOverflow = false) :
    (setCompact nCompact).target.toNat = decode (exponentOf nCompact) (mantissaOf nCompact) := by
  have small : mantissaOf nCompact * 256 ^ exponentOf nCompact < 2 ^ 256 * 256 ^ 3 :=
    not_le.mp fun large => absurd (((overflow_iff nCompact).mpr large).symm.trans fits) (by decide)
  have word : ((shiftedWord nCompact).setWidth 64).toNat = shiftedMantissa nCompact := by
    have short := shiftedMantissa_lt nCompact
    rw [BitVec.toNat_setWidth, toNat_shiftedWord, Nat.mod_eq_of_lt (by omega)]
  rw [setCompact_eq]
  by_cases low : exponentOf nCompact ≤ 3
  · simp only [if_pos low]
    rw [toNat_ofUint64, word, shiftedMantissa, if_pos low, decode_low low]
  · have high : 3 ≤ exponentOf nCompact := by omega
    simp only [if_neg low]
    rw [toNat_shiftLeft, toNat_ofUint64, word, shiftedMantissa, if_neg low, decode_high high, pow_mul,
      show 2 ^ 8 = 256 by decide, Nat.mod_eq_of_lt]
    refine Nat.lt_of_mul_lt_mul_right (a := 256 ^ 3) ?_
    rw [Nat.mul_assoc, ← pow_add, Nat.sub_add_cancel high]
    exact small

section

variable (a : ArithUint)

theorem compactWord_size : (compactWord a).1 = digits a.toNat := by
  rw [compactWord, bits_eq, digits]
  split_ifs <;> rfl

theorem compactWord_word : (compactWord a).2.toNat = leadingDigits a.toNat := by
  have small := leadingDigits_lt a.toNat
  have size : (a.bits + 7) / 8 = digits a.toNat := by rw [bits_eq, digits]
  rw [compactWord, size]
  rw [leadingDigits] at small ⊢
  have power (count : Nat) : 2 ^ (8 * count) = 256 ^ count := by rw [pow_mul, show 2 ^ 8 = 256 by decide]
  by_cases low : digits a.toNat ≤ 3
  · rw [if_pos low] at small ⊢
    rw [if_pos low]
    have whole : a.toNat < 2 ^ 64 := by
      calc a.toNat < 256 ^ digits a.toNat := lt_pow_digits _
        _ ≤ 256 ^ 3 := Nat.pow_le_pow_right (by decide) low
        _ ≤ 2 ^ 64 := by decide
    rw [BitVec.toNat_setWidth, BitVec.toNat_shiftLeft, toNat_getLow64, Nat.mod_eq_of_lt whole, Nat.shiftLeft_eq, power,
      Nat.mod_eq_of_lt (by omega), Nat.mod_eq_of_lt (by omega)]
  · rw [if_neg low] at small ⊢
    rw [if_neg low, BitVec.toNat_setWidth, toNat_getLow64, toNat_shiftRight, power]
    generalize a.toNat / 256 ^ (digits a.toNat - 3) = digits at small ⊢
    omega

theorem compactParts_eq : ((compactParts a).1, (compactParts a).2.toNat) = encode a.toNat := by
  have size := compactWord_size a
  have word := compactWord_word a
  have small := leadingDigits_lt a.toNat
  rw [compactParts, encode]
  have top : (compactWord a).2 &&& 0x00800000 ≠ 0 ↔ ¬leadingDigits a.toNat < 2 ^ 23 := by
    rw [and_sign_ne_zero, BitVec.getLsbD, word]
    constructor
    · intro isSet
      exact not_lt.mpr (Nat.ge_two_pow_of_testBit isSet)
    · intro large
      obtain ⟨rest, same⟩ := Nat.exists_eq_add_of_le (not_lt.mp large)
      rw [same, Nat.testBit_two_pow_add_eq, Nat.testBit_lt_two_pow (by omega)]
      rfl
  by_cases fits : leadingDigits a.toNat < 2 ^ 23
  · have clear : ¬((compactWord a).2 &&& 0x00800000 ≠ 0) := fun sign => top.mp sign fits
    simp only [if_neg clear, if_pos fits, size, word]
  · simp only [if_pos (top.mpr fits), if_neg fits, size, BitVec.toNat_ushiftRight, word, Nat.shiftRight_eq_div_pow]

theorem compactParts_fit : (compactParts a).2.toNat < 2 ^ 23 ∧ (compactParts a).1 ≤ 33 := by
  have parts := compactParts_eq a
  have size : digits a.toNat ≤ 32 := by
    have bits := a.bits_le
    rw [digits, ← bits_eq]
    omega
  have small := leadingDigits_lt a.toNat
  rw [encode] at parts
  split_ifs at parts with fits
  · obtain ⟨one, two⟩ := Prod.mk.inj parts
    omega
  · obtain ⟨one, two⟩ := Prod.mk.inj parts
    omega

theorem toNat_getCompact : (getCompact a false).toNat = (compactParts a).1 * 2 ^ 24 + (compactParts a).2.toNat := by
  obtain ⟨fits, size⟩ := compactParts_fit a
  have noSign : getCompact a false = (compactParts a).2 ||| BitVec.ofNat 32 ((compactParts a).1 <<< 24) := by
    rw [getCompact, if_neg (by simp)]
    exact BitVec.or_zero
  rw [noSign, BitVec.toNat_or, BitVec.toNat_ofNat, Nat.shiftLeft_eq, Nat.mod_eq_of_lt (by omega), Nat.lor_comm, ← Nat.shiftLeft_eq,
    ← Nat.shiftLeft_add_eq_or_of_lt (by omega)]

theorem exponentOf_getCompact : exponentOf (getCompact a false) = (encode a.toNat).1 := by
  obtain ⟨fits, -⟩ := compactParts_fit a
  have parts := congrArg Prod.fst (compactParts_eq a)
  rw [exponentOf, toNat_getCompact, ← parts]
  change _ = (compactParts a).1
  omega

theorem mantissaOf_getCompact : mantissaOf (getCompact a false) = (encode a.toNat).2 := by
  obtain ⟨fits, -⟩ := compactParts_fit a
  have parts := congrArg Prod.snd (compactParts_eq a)
  rw [mantissaOf, toNat_getCompact, ← parts]
  change _ = (compactParts a).2.toNat
  omega

theorem sign_getCompact : (getCompact a false).getLsbD 23 = false := by
  obtain ⟨fits, -⟩ := compactParts_fit a
  rw [BitVec.getLsbD, toNat_getCompact, Nat.mul_comm, Nat.testBit_two_pow_mul_add _ (by omega), if_pos (by decide)]
  exact Nat.testBit_lt_two_pow fits

theorem getCompact_flags : (setCompact (getCompact a false)).fNegative = false ∧
    (setCompact (getCompact a false)).fOverflow = false := by
  constructor
  · rw [eq_false_iff, ne_eq, negative_iff, sign_getCompact]
    simp
  · rw [eq_false_iff, ne_eq, overflow_iff, exponentOf_getCompact, mantissaOf_getCompact, not_le]
    rcases Nat.eq_zero_or_pos a.toNat with zero | positive
    · rw [zero, encode_zero]
      decide
    · calc (encode a.toNat).2 * 256 ^ (encode a.toNat).1 ≤ a.toNat * 256 ^ 3 :=
            (encode_leading positive).below
        _ < 2 ^ 256 * 256 ^ 3 := Nat.mul_lt_mul_of_pos_right a.toNat_lt (by decide)

theorem toNat_compacted : (setCompact (getCompact a false)).target.toNat = kept a.toNat (encode a.toNat).1 := by
  rw [toNat_target (getCompact_flags a).2, exponentOf_getCompact, mantissaOf_getCompact, decode_encode]

end

theorem eq_of_fields {c c' : BitVec 32} (exponent : exponentOf c = exponentOf c') (mantissa : mantissaOf c = mantissaOf c')
    (clear : c.getLsbD 23 = false) (clear' : c'.getLsbD 23 = false) : c = c' := by
  have low {c : BitVec 32} (clear : c.getLsbD 23 = false) : c.toNat % 2 ^ 24 = c.toNat % 2 ^ 23 := by
    have bit := Nat.testBit_eq_decide_div_mod_eq (x := c.toNat) (i := 23)
    rw [BitVec.getLsbD, bit, decide_eq_false_iff_not] at clear
    omega
  apply BitVec.eq_of_toNat_eq
  have one := low clear
  have two := low clear'
  rw [exponentOf, exponentOf] at exponent
  rw [mantissaOf, mantissaOf] at mantissa
  omega

theorem getCompact_compacted (a : ArithUint) : getCompact (setCompact (getCompact a false)).target false = getCompact a false := by
  have again : encode (setCompact (getCompact a false)).target.toNat = encode a.toNat := by
    rw [toNat_compacted, encode_kept]
  apply eq_of_fields
  · rw [exponentOf_getCompact, exponentOf_getCompact, again]
  · rw [mantissaOf_getCompact, mantissaOf_getCompact, again]
  · exact sign_getCompact _
  · exact sign_getCompact a

/-- What `SetCompact` does with every word. -/
structure Decodes (nCompact : BitVec 32) : Prop where
  overflow : (setCompact nCompact).fOverflow = true ↔ 2 ^ 256 * 256 ^ 3 ≤ mantissaOf nCompact * 256 ^ exponentOf nCompact
  negative : (setCompact nCompact).fNegative = true ↔ 0 < shiftedMantissa nCompact ∧ nCompact.getLsbD 23 = true
  value : (setCompact nCompact).fOverflow = false →
    (setCompact nCompact).target.toNat = mantissaOf nCompact * 256 ^ exponentOf nCompact / 256 ^ 3

/-- What `GetCompact` does with every number: `kept` are the bytes that the exponent leaves. -/
structure Encodes (x : ArithUint) (nCompact : BitVec 32) (y : Compact) : Prop where
  sign : nCompact.getLsbD 23 = false
  notNegative : y.fNegative = false
  notOverflow : y.fOverflow = false
  below : y.target.toNat ≤ x.toNat
  agrees : y.target.toNat / 256 ^ (exponentOf nCompact - 3) = x.toNat / 256 ^ (exponentOf nCompact - 3)
  dropped : 256 ^ (exponentOf nCompact - 3) ∣ y.target.toNat
  greatest : ∀ other, (setCompact other).fNegative = false → (setCompact other).fOverflow = false →
    (setCompact other).target.toNat ≤ x.toNat → (setCompact other).target.toNat ≤ y.target.toNat
  again : getCompact y.target false = nCompact

/-- The compact codec on all words and all numbers. -/
theorem compact_codec : (∀ nCompact : BitVec 32, Decodes nCompact) ∧
    ∀ x : ArithUint, Encodes x (getCompact x false) (setCompact (getCompact x false)) := by
  constructor
  · intro nCompact
    exact ⟨overflow_iff nCompact, negative_iff nCompact, toNat_target⟩
  · intro x
    obtain ⟨notNegative, notOverflow⟩ := getCompact_flags x
    have value := toNat_compacted x
    rw [← exponentOf_getCompact] at value
    exact {
      sign := sign_getCompact x
      notNegative := notNegative
      notOverflow := notOverflow
      below := value ▸ kept_le _ _
      agrees := by rw [value, kept_div]
      dropped := by
        rw [value]
        exact Nat.dvd_mul_left _ _
      greatest := by
        intro other _ fits below
        rw [toNat_target fits] at below ⊢
        rw [value, exponentOf_getCompact]
        exact decode_le_kept (mantissaOf_lt other) below
      again := getCompact_compacted x }

end Longcoin.ArithUint256

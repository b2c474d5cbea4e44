import Longcoin.Interpreter
import Longcoin.Library.Radix

/-! Signatures as `CPubKey::Verify` reads them (`pubkey.cpp`), against the encoding that BIP66 asks for. -/

namespace Longcoin.DerSignature
open Interpreter Library Radix List Option

inductive Stop where
  | outOfRange
  | refused
deriving DecidableEq

def byteAt (input : List UInt8) (pos : Nat) : Except Stop UInt8 := input[pos]?.elim (.error .outOfRange) .ok

def refuseIf (condition : Bool) : Except Stop Unit := if condition then .error .refused else .ok ()

/-- `inputlen - pos` in `size_t`. -/
def remaining (input : List UInt8) (pos : Nat) : Except Stop Nat :=
  if pos ≤ input.length then .ok (input.length - pos) else .error .outOfRange

/-- The position and the count after the zeros among the next `count` bytes. -/
def skipZeros (input : List UInt8) : Nat → Nat → Except Stop (Nat × Nat)
  | pos, 0 => .ok (pos, 0)
  | pos, count + 1 => do
      if (← byteAt input pos) = 0 then skipZeros input (pos + 1) count else .ok (pos, count + 1)

def readLength (input : List UInt8) : Nat → Nat → Nat → Except Stop (Nat × Nat)
  | pos, 0, len => .ok (pos, len)
  | pos, lenbyte + 1, len => do
      readLength input (pos + 1) lenbyte (((len <<< 8) % 2 ^ 64 + (← byteAt input pos).toNat) % 2 ^ 64)

/-- A tag and the length bytes of the sequence; the length itself is not used. -/
def sequenceHeader (input : List UInt8) (pos : Nat) : Except Stop Nat := do
  refuseIf (pos == input.length)
  refuseIf ((← byteAt input pos) != 0x30)
  refuseIf (pos + 1 == input.length)
  let lenbyte := (← byteAt input (pos + 1)).toNat
  if lenbyte &&& 0x80 ≠ 0 then
    refuseIf (decide (input.length < pos + 2 + (lenbyte - 0x80)))
    return pos + 2 + (lenbyte - 0x80)
  return pos + 2

def integerLength (input : List UInt8) (pos lenbyte : Nat) : Except Stop (Nat × Nat) := do
  if lenbyte &&& 0x80 ≠ 0 then
    refuseIf (decide (input.length < pos + (lenbyte - 0x80)))
    let (pos, lenbyte) ← skipZeros input pos (lenbyte - 0x80)
    refuseIf (decide (8 ≤ lenbyte))
    readLength input pos lenbyte 0
  else return (pos, lenbyte)

/-- Where R or S begins, and how long it is. -/
def integer (input : List UInt8) (pos : Nat) : Except Stop (Nat × Nat) := do
  refuseIf (pos == input.length)
  refuseIf ((← byteAt input pos) != 0x02)
  refuseIf (pos + 1 == input.length)
  let (rpos, rlen) ← integerLength input (pos + 2) (← byteAt input (pos + 1)).toNat
  refuseIf (decide ((← remaining input rpos) < rlen))
  return (rpos, rlen)

/-- A half of `tmpsig`, or nothing where the number is too long for it. -/
def half (input : List UInt8) (rpos rlen : Nat) : Except Stop (Option (List UInt8)) := do
  let (rpos, rlen) ← skipZeros input rpos rlen
  if 32 < rlen then return none
  let copied ← (Bytes.range input rpos rlen).elim (.error .outOfRange) .ok
  return some (List.replicate (32 - rlen) 0 ++ copied)

def groupOrder : Nat := 0xFFFFFFFFFFFFFFFFFFFFFFFFFFFFFFFEBAAEDCE6AF48A03BBFD25E8CD0364141

def bigEndian (bytes : List UInt8) : Nat := Radix.number 256 (bytes.map UInt8.toNat)

structure Signature where
  r : Nat
  s : Nat
deriving DecidableEq

/-- `secp256k1_ecdsa_signature_parse_compact`. -/
def parseCompact (first second : List UInt8) : Option Signature :=
  if bigEndian first < groupOrder ∧ bigEndian second < groupOrder then some ⟨bigEndian first, bigEndian second⟩ else none

/-- `ecdsa_signature_parse_der_lax`; `.refused` is the answer 0. -/
def ecdsaSignatureParseDerLax (input : List UInt8) : Except Stop Signature := do
  let pos ← sequenceHeader input 0
  let (rpos, rlen) ← integer input pos
  let (spos, slen) ← integer input (rpos + rlen)
  let first ← half input rpos rlen
  let second ← half input spos slen
  return (first.bind fun first => second.bind fun second => parseCompact first second).getD ⟨0, 0⟩

/-- The first run of bytes an accepted encoding denotes a number by, and the second. -/
def encodedR (sig : List UInt8) : List UInt8 := (sig.drop 4).take (sig.getD 3 0).toNat

def encodedS (sig : List UInt8) : List UInt8 :=
  (sig.drop (6 + (sig.getD 3 0).toNat)).take (sig.getD (5 + (sig.getD 3 0).toNat) 0).toNat

/-- The parser stays inside the input and may refuse it; what it returns is as it should be. -/
def Safe {α : Type} (run : Except Stop α) (post : α → Prop) : Prop :=
  match run with
  | .ok value => post value
  | .error .refused => True
  | .error .outOfRange => False

section Safety

variable {α β : Type} {post : α → Prop} {input : List UInt8} {pos : Nat}

theorem Safe.bind {run : Except Stop α} {next : α → Except Stop β} {post' : β → Prop} (first : Safe run post)
    (later : ∀ value, post value → Safe (next value) post') : Safe (run >>= next) post' := by
  cases run with
  | ok value => exact later value first
  | error stop =>
    cases stop with
    | outOfRange => exact first
    | refused => trivial

theorem safe_refuseIf (condition : Bool) : Safe (refuseIf condition) fun _ => condition = false := by
  cases condition
  · exact rfl
  · trivial

theorem byteAt_eq {byte : UInt8} (found : input[pos]? = some byte) : byteAt input pos = .ok byte := by
  rw [byteAt, found]
  rfl

theorem safe_byteAt (inside : pos < input.length) : Safe (byteAt input pos) fun _ => True := by
  rw [byteAt_eq (getElem?_eq_getElem inside)]
  trivial

theorem safe_skipZeros {count : Nat} (inside : pos + count ≤ input.length) :
    Safe (skipZeros input pos count) fun result => result.1 + result.2 = pos + count := by
  induction count generalizing pos with
  | zero => exact rfl
  | succ count ih =>
    refine (safe_byteAt (by omega)).bind fun byte _ => ?_
    split
    · rw [show pos + (count + 1) = pos + 1 + count by omega]
      exact ih (by omega)
    · exact rfl

theorem safe_readLength {lenbyte len : Nat} (inside : pos + lenbyte ≤ input.length) :
    Safe (readLength input pos lenbyte len) fun result => result.1 ≤ input.length := by
  induction lenbyte generalizing pos len with
  | zero => exact inside
  | succ lenbyte ih => exact (safe_byteAt (by omega)).bind fun byte _ => ih (by omega)

/-- A tag and the first length byte. -/
theorem safe_tagged {tag : UInt8} (inside : pos ≤ input.length) {next : UInt8 → Except Stop α}
    (later : pos + 2 ≤ input.length → ∀ byte, Safe (next byte) post) :
    Safe (do
      refuseIf (pos == input.length)
      refuseIf ((← byteAt input pos) != tag)
      refuseIf (pos + 1 == input.length)
      next (← byteAt input (pos + 1))) post := by
  refine (safe_refuseIf _).bind fun _ more => ?_
  rw [beq_eq_false_iff_ne] at more
  refine (safe_byteAt (by omega)).bind fun _ _ => (safe_refuseIf _).bind fun _ _ => (safe_refuseIf _).bind fun _ more' => ?_
  rw [beq_eq_false_iff_ne] at more'
  exact (safe_byteAt (by omega)).bind fun byte _ => later (by omega) byte

theorem safe_sequenceHeader (inside : pos ≤ input.length) :
    Safe (sequenceHeader input pos) fun result => result ≤ input.length := by
  refine safe_tagged inside fun more byte => ?_
  change Safe (if byte.toNat &&& 0x80 ≠ 0 then _ else _) _
  split
  · generalize byte.toNat - 0x80 = count
    refine (safe_refuseIf _).bind fun _ fits => ?_
    exact Nat.le_of_not_lt (of_decide_eq_false fits)
  · exact more

theorem safe_integerLength (inside : pos ≤ input.length) (lenbyte : Nat) :
    Safe (integerLength input pos lenbyte) fun result => result.1 ≤ input.length := by
  unfold integerLength
  split
  · generalize lenbyte - 0x80 = count
    refine (safe_refuseIf _).bind fun _ fits => ?_
    have bytes : pos + count ≤ input.length := Nat.le_of_not_lt (of_decide_eq_false fits)
    refine (safe_skipZeros bytes).bind fun result same => ?_
    refine (safe_refuseIf _).bind fun _ _ => ?_
    exact safe_readLength (same ▸ bytes)
  · exact inside

theorem safe_integer (inside : pos ≤ input.length) :
    Safe (integer input pos) fun result => result.1 + result.2 ≤ input.length := by
  refine safe_tagged inside fun more byte => ?_
  refine (safe_integerLength more _).bind fun result bounded => ?_
  have rest : remaining input result.1 = .ok (input.length - result.1) := if_pos bounded
  simp only [rest]
  refine (safe_refuseIf _).bind fun _ fits => ?_
  rw [decide_eq_false_iff_not] at fits
  change result.1 + result.2 ≤ input.length
  omega

theorem safe_half {rlen : Nat} (inside : pos + rlen ≤ input.length) : Safe (half input pos rlen) fun _ => True := by
  refine (safe_skipZeros inside).bind fun result same => ?_
  change Safe (if 32 < result.2 then _ else _) _
  split
  · trivial
  · rw [Bytes.range_of_le (same ▸ inside)]
    trivial

/-- No byte string is read outside. -/
theorem safe_parse (input : List UInt8) : Safe (ecdsaSignatureParseDerLax input) fun _ => True := by
  refine (safe_sequenceHeader (Nat.zero_le _)).bind fun pos inside => ?_
  refine (safe_integer inside).bind fun first insideR => ?_
  refine (safe_integer insideR).bind fun second insideS => ?_
  exact (safe_half insideR).bind fun _ _ => (safe_half insideS).bind fun _ _ => trivial

end Safety

section Agreement

variable {input body rest : List UInt8} {pos : Nat}

theorem byteAt_drop (tail : input.drop pos = body ++ rest) (i : Nat) {byte : UInt8} (found : body[i]? = some byte) :
    byteAt input (pos + i) = .ok byte := by
  apply byteAt_eq
  rw [← List.getElem?_drop, tail, List.getElem?_append_left (List.getElem?_eq_some_iff.mp found).1, found]

theorem skipZeros_eq (tail : input.drop pos = body ++ rest) :
    ∃ zeros digits, body = replicate zeros 0 ++ digits ∧ digits.head? ≠ some 0 ∧
      skipZeros input pos body.length = .ok (pos + zeros, digits.length) := by
  induction body generalizing pos with
  | nil => exact ⟨0, [], rfl, by simp, rfl⟩
  | cons byte body ih =>
    have here : byteAt input pos = .ok byte := byteAt_drop tail 0 rfl
    rw [length_cons, skipZeros, here]
    by_cases zero : byte = 0
    · have next : input.drop (pos + 1) = body ++ rest := by
        rw [← drop_drop, tail]
        rfl
      obtain ⟨zeros, digits, split, head, runs⟩ := ih next
      refine ⟨zeros + 1, digits, ?_, head, ?_⟩
      · rw [zero, split]
        rfl
      · change (if byte = 0 then _ else _) = _
        rw [if_pos zero, runs, Nat.add_right_comm, Nat.add_assoc]
    · refine ⟨0, byte :: body, rfl, fun same => zero (some.inj same), ?_⟩
      exact if_neg zero

theorem bigEndian_pad (zeros : Nat) (digits : List UInt8) : bigEndian (replicate zeros 0 ++ digits) = bigEndian digits := by
  have nothing : number 256 (replicate zeros 0) = 0 := by
    rw [number, reverse_replicate, Nat.ofDigits_replicate_zero]
  rw [bigEndian, map_append, map_replicate, number_append]
  change number 256 (replicate zeros 0) * _ + _ = _
  rw [nothing, Nat.zero_mul, Nat.zero_add]
  rfl

theorem bigEndian_lt (digits : List UInt8) : bigEndian digits < 256 ^ digits.length := by
  have small : ∀ digit ∈ (digits.map UInt8.toNat).reverse, digit < 256 := by
    intro digit member
    obtain ⟨byte, -, rfl⟩ := mem_map.mp (mem_reverse.mp member)
    exact byte.toNat_lt
  have bound := Nat.ofDigits_lt_base_pow_length (by decide : 1 < 256) small
  rwa [length_reverse, length_map] at bound

theorem le_bigEndian {byte : UInt8} (nonzero : byte ≠ 0) (digits : List UInt8) : 256 ^ digits.length ≤ bigEndian (byte :: digits) := by
  have positive : 0 < byte.toNat := by
    apply Nat.pos_of_ne_zero
    intro zero
    exact nonzero (UInt8.toNat_inj.mp zero)
  rw [bigEndian, map_cons, ← singleton_append, number_append, number_singleton, length_map]
  exact Nat.le_add_right_of_le (Nat.le_mul_of_pos_left _ positive)

theorem half_eq (tail : input.drop pos = body ++ rest) (inside : pos + body.length ≤ input.length) :
    ∃ copied, half input pos body.length = .ok copied ∧
      (bigEndian body < 2 ^ 256 → ∃ half, copied = some half ∧ half.length = 32 ∧ bigEndian half = bigEndian body) ∧
      (2 ^ 256 ≤ bigEndian body → copied = none) := by
  obtain ⟨zeros, digits, whole, head, runs⟩ := skipZeros_eq tail
  have value : bigEndian body = bigEndian digits := whole ▸ bigEndian_pad zeros digits
  have digitsHere : input.drop (pos + zeros) = digits ++ rest := by
    rw [← drop_drop, tail, whole, append_assoc, drop_left' length_replicate]
  have long : zeros + digits.length = body.length := by rw [whole, length_append, length_replicate]
  unfold half
  rw [runs]
  change ∃ copied, (if 32 < digits.length then _ else _) = _ ∧ _
  by_cases short : 32 < digits.length
  · rw [if_pos short]
    refine ⟨none, rfl, fun small => absurd small (Nat.not_lt.mpr ?_), fun _ => rfl⟩
    cases digits with
    | nil => cases short
    | cons byte digits =>
      rw [value]
      have nonzero : byte ≠ 0 := fun zero => head (congrArg some zero)
      refine Nat.le_trans ?_ (le_bigEndian nonzero digits)
      exact (Nat.pow_le_pow_right (by decide) (Nat.le_of_lt_succ short) : 256 ^ 32 ≤ 256 ^ digits.length)
  · have copied : Bytes.range input (pos + zeros) digits.length = some digits := by
      rw [Bytes.range_of_le (by omega), digitsHere, take_left]
    rw [if_neg short, copied]
    refine ⟨_, rfl, fun _ => ⟨_, rfl, ?_, ?_⟩, fun large => absurd large (Nat.not_le.mpr ?_)⟩
    · rw [length_append, length_replicate]
      omega
    · rw [bigEndian_pad, value]
    · rw [value]
      refine Nat.lt_of_lt_of_le (bigEndian_lt digits) ?_
      exact (Nat.pow_le_pow_right (by decide) (Nat.le_of_not_lt short) : 256 ^ digits.length ≤ 256 ^ 32)

theorem shortForm : ∀ lenbyte < 128, lenbyte &&& 0x80 = 0 := by decide

theorem refuse_no {condition : Bool} (no : condition = false) : refuseIf condition = .ok () := if_neg (by rw [no]; decide)

theorem integer_eq {lenbyte : UInt8} (tail : input.drop pos = [2, lenbyte] ++ (body ++ rest)) (long : lenbyte.toNat = body.length)
    (short : body.length < 128) :
    integer input pos = .ok (pos + 2, body.length) ∧ pos + 2 + body.length ≤ input.length ∧ input.drop (pos + 2) = body ++ rest := by
  have length := congrArg length tail
  simp only [length_drop, length_append, length_cons, length_nil] at length
  have tag : byteAt input pos = .ok 2 := byteAt_drop tail 0 rfl
  have count : byteAt input (pos + 1) = .ok lenbyte := byteAt_drop tail 1 rfl
  have plain : integerLength input (pos + 2) lenbyte.toNat = .ok (pos + 2, body.length) := by
    rw [integerLength, if_neg (not_not.mpr (shortForm _ (long ▸ short))), long]
    rfl
  have left : remaining input (pos + 2) = .ok (input.length - (pos + 2)) := if_pos (by omega)
  refine ⟨?_, by omega, ?_⟩
  · unfold integer
    rw [refuse_no (beq_eq_false_iff_ne.mpr (by omega)), tag, refuse_no (beq_eq_false_iff_ne.mpr (by omega)), count]
    simp only [bind, Except.bind, plain, left]
    rw [refuse_no (decide_eq_false (by omega))]
    rfl
  · rw [← drop_drop, tail]
    rfl

theorem sequenceHeader_eq {lenbyte : UInt8} (starts : input = [0x30, lenbyte] ++ rest) (short : lenbyte.toNat < 128)
    : sequenceHeader input 0 = .ok 2 := by
  subst starts
  change (if lenbyte.toNat &&& 0x80 ≠ 0 then _ else _) = _
  rw [if_neg (not_not.mpr (shortForm _ short))]
  rfl

end Agreement

/-- What a strict encoding looks like. -/
theorem encoding_shape {sig : List UInt8} (valid : isValidSignatureEncoding sig = true) :
    ∃ total lenR lenS last, total.toNat < 128 ∧ (encodedR sig).length < 128 ∧ (encodedS sig).length < 128 ∧
      lenR.toNat = (encodedR sig).length ∧ lenS.toNat = (encodedS sig).length ∧
      sig = [0x30, total] ++ ([2, lenR] ++ (encodedR sig ++ ([2, lenS] ++ encodedS sig))) ++ [last] := by
  obtain ⟨first, total, tag, lenR, rest, rfl⟩ : ∃ first total tag lenR rest, sig = first :: total :: tag :: lenR :: rest := by
    match sig, valid with
    | first :: total :: tag :: lenR :: rest, _ => exact ⟨first, total, tag, lenR, rest, rfl⟩
  simp only [isValidSignatureEncoding, isInteger, Bool.and_eq_true, decide_eq_true_eq, beq_iff_eq, getD_cons_succ,
    getD_cons_zero, length_cons] at valid
  obtain ⟨⟨⟨⟨⟨⟨sized, sequence⟩, whole⟩, inside⟩, sum⟩, ⟨⟨tagged, -⟩, -⟩, -⟩, ⟨⟨tagged', -⟩, -⟩, -⟩ := valid
  obtain ⟨R, back, longR, rfl⟩ : ∃ R back, R.length = lenR.toNat ∧ rest = R ++ back := by
    refine ⟨rest.take lenR.toNat, rest.drop lenR.toNat, ?_, (take_append_drop _ _).symm⟩
    rw [length_take]
    omega
  rw [length_append, longR] at sized whole sum
  obtain ⟨tag', lenS, tail, rfl⟩ : ∃ tag' lenS tail, back = tag' :: lenS :: tail := by
    match back, sum with
    | tag' :: lenS :: tail, _ => exact ⟨tag', lenS, tail, rfl⟩
    | [], sum => simp at sum; omega
    | [tag'], sum => simp at sum; omega
  have sizeAt : (first :: total :: tag :: lenR :: (R ++ tag' :: lenS :: tail)).getD (5 + lenR.toNat) 0 = lenS := by
    rw [← longR, Nat.add_comm 5]
    simp [getD_eq_getElem?_getD]
  have tagAt : (first :: total :: tag :: lenR :: (R ++ tag' :: lenS :: tail)).getD (lenR.toNat + 6 - 2) 0 = tag' := by
    rw [← longR]
    simp [getD_eq_getElem?_getD]
  rw [sizeAt, length_cons, length_cons] at sum
  rw [length_cons, length_cons] at whole sized
  have nonempty : tail ≠ [] := by
    rintro rfl
    rw [length_nil] at sum
    omega
  obtain ⟨S, last, rfl⟩ : ∃ S last, tail = S ++ [last] := ⟨_, _, (dropLast_concat_getLast nonempty).symm⟩
  rw [length_append, length_singleton] at sum whole sized
  have isR : encodedR (first :: total :: tag :: lenR :: (R ++ tag' :: lenS :: (S ++ [last]))) = R := by
    change (R ++ tag' :: lenS :: (S ++ [last])).take lenR.toNat = R
    rw [← longR, take_left]
  have isS : encodedS (first :: total :: tag :: lenR :: (R ++ tag' :: lenS :: (S ++ [last]))) = S := by
    unfold encodedS
    rw [getD_cons_succ, getD_cons_succ, getD_cons_succ, getD_cons_zero, sizeAt, ← longR,
      show 6 + R.length = R.length + 2 + 4 by omega]
    simp only [drop_succ_cons]
    rw [← drop_drop, drop_left]
    exact take_left' (by omega)
  rw [isR, isS]
  refine ⟨total, lenR, lenS, last, by omega, by omega, by omega, longR.symm, by omega, ?_⟩
  rw [sequence, tagged, ← tagged', tagAt]
  simp

theorem parse_encoded {total lenR lenS : UInt8} {R S : List UInt8} (small : total.toNat < 128) (shortR : R.length < 128)
    (shortS : S.length < 128) (longR : lenR.toNat = R.length) (longS : lenS.toNat = S.length) :
    ecdsaSignatureParseDerLax ([0x30, total] ++ ([2, lenR] ++ (R ++ ([2, lenS] ++ S)))) =
      .ok (if bigEndian R < groupOrder ∧ bigEndian S < groupOrder then ⟨bigEndian R, bigEndian S⟩ else ⟨0, 0⟩) := by
  let input := [0x30, total] ++ ([2, lenR] ++ (R ++ ([2, lenS] ++ S)))
  have atR : input.drop 2 = [2, lenR] ++ (R ++ ([2, lenS] ++ S)) := rfl
  obtain ⟨runR, insideR, bodyR⟩ := integer_eq atR longR shortR
  have atS : input.drop (2 + 2 + R.length) = [2, lenS] ++ (S ++ []) := by
    rw [← drop_drop, bodyR, drop_left, append_nil]
  obtain ⟨runS, insideS, bodyS⟩ := integer_eq atS longS shortS
  obtain ⟨first, halfR, fitsR, longR⟩ := half_eq bodyR insideR
  obtain ⟨second, halfS, fitsS, longS⟩ := half_eq bodyS insideS
  have header : sequenceHeader input 0 = .ok 2 := sequenceHeader_eq rfl small
  have below : groupOrder ≤ 2 ^ 256 := by decide
  change ecdsaSignatureParseDerLax input = _
  simp only [ecdsaSignatureParseDerLax, bind, Except.bind, header, runR, runS, halfR, halfS]
  congr 1
  by_cases smallR : bigEndian R < 2 ^ 256
  · obtain ⟨first', rfl, -, valueR⟩ := fitsR smallR
    by_cases smallS : bigEndian S < 2 ^ 256
    · obtain ⟨second', rfl, -, valueS⟩ := fitsS smallS
      rw [bind_some, bind_some, parseCompact, valueR, valueS]
      split <;> rfl
    · obtain rfl := longS (Nat.le_of_not_lt smallS)
      rw [if_neg fun both => smallS (Nat.lt_of_lt_of_le both.2 below)]
      rfl
  · obtain rfl := longR (Nat.le_of_not_lt smallR)
    rw [if_neg fun both => smallR (Nat.lt_of_lt_of_le both.1 below)]
    rfl

/-- Every byte string is read inside, and a strictly encoded signature gives its two numbers if both are below the order
of the group, and the invalid signature of zeros otherwise. -/
theorem lax_agrees_with_strict :
    (∀ input, ecdsaSignatureParseDerLax input ≠ .error .outOfRange) ∧
    ∀ sig, isValidSignatureEncoding sig = true → ecdsaSignatureParseDerLax sig.dropLast =
      .ok (if bigEndian (encodedR sig) < groupOrder ∧ bigEndian (encodedS sig) < groupOrder then
        ⟨bigEndian (encodedR sig), bigEndian (encodedS sig)⟩ else ⟨0, 0⟩) := by
  refine ⟨fun input outside => ?_, fun sig valid => ?_⟩
  · have safe := safe_parse input
    rw [outside] at safe
    exact safe
  · obtain ⟨total, lenR, lenS, last, small, shortR, shortS, longR, longS, shape⟩ := encoding_shape valid
    have front : sig.dropLast = [0x30, total] ++ ([2, lenR] ++ (encodedR sig ++ ([2, lenS] ++ encodedS sig))) := by
      conv_lhs => rw [shape]
      exact dropLast_concat
    rw [front]
    exact parse_encoded small shortR shortS longR longS

theorem lax_agrees_with_strict_small : isValidSignatureEncoding [0x30, 6, 2, 1, 5, 2, 1, 9, 1] = true ∧
    ecdsaSignatureParseDerLax [0x30, 6, 2, 1, 5, 2, 1, 9] = .ok ⟨5, 9⟩ :=
  ⟨by decide, (lax_agrees_with_strict.2 [0x30, 6, 2, 1, 5, 2, 1, 9, 1] (by decide)).trans (by decide)⟩

/-- R is the greatest number of 256 bits, and S is 1. -/
def largestR : List UInt8 := [0x30, 38, 2, 33, 0] ++ List.replicate 32 0xff ++ [2, 1, 1, 1]

theorem largestR_is_zeros : isValidSignatureEncoding largestR = true ∧ bigEndian (encodedR largestR) < 2 ^ 256 ∧
    bigEndian (encodedS largestR) < 2 ^ 256 ∧ ecdsaSignatureParseDerLax largestR.dropLast = .ok ⟨0, 0⟩ ∧
    ecdsaSignatureParseDerLax largestR.dropLast ≠ .ok ⟨bigEndian (encodedR largestR), bigEndian (encodedS largestR)⟩ := by
  decide

end Longcoin.DerSignature

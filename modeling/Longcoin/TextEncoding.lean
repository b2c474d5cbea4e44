import Longcoin.Library.BitGroups

/-! Base64 and Base32 of `utilstrencodings.cpp`: byte strings as text and back. -/

namespace Longcoin.TextEncoding
open Library.BitGroups List

/-- What the two encodings do not share. The turns are the bodies of the loops, from the mode and the bits left. -/
structure Encoding where
  /-- `pbase64` or `pbase32` -/
  chars : List UInt8
  encodeTurn : Nat × Nat → Nat → List Nat × (Nat × Nat)
  /-- How many `=` the mode adds. -/
  padding : Nat → Nat
  /-- `decode64_table` or `decode32_table` -/
  table : List Int
  decodeTurn : Nat × Nat → Nat → List Nat × (Nat × Nat)
  /-- How many `=` the mode asks for; `none` is an impossible count of characters. -/
  required : Nat → Option Nat

namespace Encoding
variable (code : Encoding)

def decodeChar (ch : UInt8) : Int := code.table.getD ch.toNat (-1)

def encode (pch : List UInt8) : List UInt8 :=
  let (digits, mode, left) := run code.encodeTurn (0, 0) (pch.map UInt8.toNat)
  digits.map (code.chars.getD · 0) ++
    if mode = 0 then [] else code.chars.getD left 0 :: replicate (code.padding mode) 0x3D

/-- What `*pfInvalid` becomes after the loop, `p` the characters from where it stopped. -/
def invalid (mode left : Nat) (p : List UInt8) : Bool :=
  if mode = 0 then false
  else (code.required mode).elim true fun count =>
    left != 0 || (p.take count != replicate count 0x3D || code.decodeChar (p.getD count 0) != -1)

/-- The bytes and `*pfInvalid`. The loop runs over the characters before the first that the table does not have. -/
def decode (p : List UInt8) : List UInt8 × Bool :=
  let front := p.takeWhile (code.decodeChar · != -1)
  let (bytes, mode, left) := run code.decodeTurn (0, 0) (front.map fun ch => (code.decodeChar ch).toNat)
  (bytes.map UInt8.ofNat, code.invalid mode left (p.drop front.length))

end Encoding

/-- `first` to `last` characters by their codes. -/
def span (first : Char) (count : Nat) : List UInt8 := (range count).map fun i => UInt8.ofNat (first.toNat + i)

def ints (first count : Nat) : List Int := (range' first count).map Int.ofNat

def base64 : Encoding where
  chars := span 'A' 26 ++ span 'a' 26 ++ span '0' 10 ++ span '+' 1 ++ span '/' 1
  encodeTurn
    | (0, _), enc => ([enc >>> 2], 1, (enc &&& 3) <<< 4)
    | (1, left), enc => ([left ||| enc >>> 4], 2, (enc &&& 15) <<< 2)
    | (_, left), enc => ([left ||| enc >>> 6, enc &&& 63], 0, left)
  padding mode := if mode = 1 then 2 else 1
  table := replicate 43 (-1) ++ ints 62 1 ++ replicate 3 (-1) ++ ints 63 1 ++ ints 52 10 ++ replicate 7 (-1) ++ ints 0 26 ++
    replicate 6 (-1) ++ ints 26 26 ++ replicate 133 (-1)
  decodeTurn
    | (0, _), dec => ([], 1, dec)
    | (1, left), dec => ([left <<< 2 ||| dec >>> 4], 2, dec &&& 15)
    | (2, left), dec => ([left <<< 4 ||| dec >>> 2], 3, dec &&& 3)
    | (_, left), dec => ([left <<< 6 ||| dec], 0, left)
  required
    | 2 => some 2
    | 3 => some 1
    | _ => none

def base32 : Encoding where
  chars := span 'a' 26 ++ span '2' 6
  encodeTurn
    | (0, _), enc => ([enc >>> 3], 1, (enc &&& 7) <<< 2)
    | (1, left), enc => ([left ||| enc >>> 6, enc >>> 1 &&& 31], 2, (enc &&& 1) <<< 4)
    | (2, left), enc => ([left ||| enc >>> 4], 3, (enc &&& 15) <<< 1)
    | (3, left), enc => ([left ||| enc >>> 7, enc >>> 2 &&& 31], 4, (enc &&& 3) <<< 3)
    | (_, left), enc => ([left ||| enc >>> 5, enc &&& 31], 0, left)
  padding mode := [0, 6, 4, 3, 1].getD mode 0
  table := replicate 50 (-1) ++ ints 26 6 ++ replicate 9 (-1) ++ ints 0 26 ++ replicate 6 (-1) ++ ints 0 26 ++ replicate 133 (-1)
  decodeTurn
    | (0, _), dec => ([], 1, dec)
    | (1, left), dec => ([left <<< 3 ||| dec >>> 2], 2, dec &&& 3)
    | (2, left), dec => ([], 3, left <<< 5 ||| dec)
    | (3, left), dec => ([left <<< 1 ||| dec >>> 4], 4, dec &&& 15)
    | (4, left), dec => ([left <<< 4 ||| dec >>> 1], 5, dec &&& 1)
    | (5, left), dec => ([], 6, left <<< 5 ||| dec)
    | (6, left), dec => ([left <<< 2 ||| dec >>> 3], 7, dec &&& 7)
    | (_, left), dec => ([left <<< 5 ||| dec], 0, left)
  required
    | 2 => some 6
    | 4 => some 4
    | 5 => some 3
    | 7 => some 1
    | _ => none

def EncodeBase64 : List UInt8 → List UInt8 := base64.encode
def DecodeBase64 : List UInt8 → List UInt8 × Bool := base64.decode
def EncodeBase32 : List UInt8 → List UInt8 := base32.encode
def DecodeBase32 : List UInt8 → List UInt8 × Bool := base32.decode

/-- The lower case of a letter. -/
def lower (ch : UInt8) : UInt8 := if 0x41 ≤ ch ∧ ch ≤ 0x5A then ch + 0x20 else ch

/-- How many more fill up a group. -/
def fill (group count : Nat) : Nat := (group - count % group) % group

/-- What makes two machines and two tables an encoding, of `bytes` bytes by `digits` characters of `width` bits. The tables
take characters that `fold` makes equal for one. -/
structure Lawful (code : Encoding) (fold : UInt8 → UInt8) (width bytes digits : Nat) : Prop where
  short : 0 < width ∧ width < 8 ∧ 0 < bytes ∧ 0 < digits
  encodes : Regroups code.encodeTurn 8 width bytes (width - ·)
  decodes : Regroups code.decodeTurn width 8 digits fun _ => 0
  begun : ∀ mode < bytes, mode ≠ 0 → 8 * mode % width ≠ 0
  ends : ∀ (mode : Fin bytes) (mode' : Fin digits), width * mode'.val % 8 = (width - 8 * mode.val % width) % width →
    (mode.val = 0 ↔ mode'.val = 0) ∧
      (mode.val ≠ 0 → code.padding mode = digits - mode' ∧ code.required mode' = some (digits - mode'))
  possible : ∀ mode < digits, code.required mode ≠ none → width * mode % 8 < width
  count : ∀ size total mode, mode < digits → width * size = 8 * total + width * mode % 8 → size % digits = mode
  size : code.chars.length = 2 ^ width
  char : ∀ digit < 2 ^ width, code.decodeChar (code.chars.getD digit 0) = digit
  folds : ∀ ch, code.decodeChar (fold ch) = code.decodeChar ch
  stop : code.decodeChar 0x3D = -1 ∧ code.decodeChar 0 = -1 ∧ fold 0x3D = 0x3D

section Codec
variable {code : Encoding} {fold : UInt8 → UInt8} {width bytes digits : Nat} (lawful : Lawful code fold width bytes digits)
include lawful

theorem Lawful.known {ch : UInt8} (inside : fold ch ∈ code.chars) : code.decodeChar ch ≠ -1 ∧
    (code.decodeChar ch).toNat < 2 ^ width ∧ code.chars.getD (code.decodeChar ch).toNat 0 = fold ch := by
  obtain ⟨digit, low, same⟩ := getElem_of_mem inside
  have here : code.chars.getD digit 0 = fold ch := by rw [getD_eq_getElem?_getD, getElem?_eq_getElem low, same, Option.getD_some]
  rw [lawful.size] at low
  have value := lawful.char digit low
  rw [here, lawful.folds] at value
  rw [value]
  exact ⟨by omega, low, here⟩

/-- What is encoded: digits whose bits are those of the bytes and the zeros that fill up the last digit. -/
theorem Lawful.encode_eq (pch : List UInt8) : ∃ (numbers : List Nat) (mode : Fin bytes), (∀ number ∈ numbers, number < 2 ^ width) ∧
    numbers.flatMap (bits width) = (pch.map UInt8.toNat).flatMap (bits 8) ++ replicate ((width - 8 * mode.val % width) % width) false ∧
    code.encode pch = numbers.map (code.chars.getD · 0) ++ replicate (if mode.val = 0 then 0 else code.padding mode) 0x3D := by
  obtain ⟨small, kept, ⟨inside, r, low, shape, rfl⟩, same⟩ := lawful.encodes.run lawful.short.2.2.1 (pch.map UInt8.toNat)
    fun number among => by obtain ⟨byte, -, rfl⟩ := mem_map.mp among; exact byte.toNat_lt
  unfold Encoding.encode
  generalize run code.encodeTurn (0, 0) (pch.map UInt8.toNat) = last at *
  obtain ⟨out, mode, left⟩ := last
  dsimp only at *
  have room : 8 * mode % width < width := Nat.mod_lt _ lawful.short.1
  by_cases whole : mode = 0
  · subst whole
    refine ⟨out, ⟨0, inside⟩, small, ?_, by simp⟩
    simp only [Nat.mul_zero, Nat.zero_mod, Nat.sub_zero, Nat.mod_self, replicate_zero, append_nil, bits] at same ⊢
    exact same.symm
  · have begun := lawful.begun mode inside whole
    have total : 8 * mode % width + (width - 8 * mode % width) = width := by omega
    have last : bits width left = bits (8 * mode % width) r ++ replicate (width - 8 * mode % width) false := by
      rw [shape whole, ← bits_shiftLeft, total]
    refine ⟨out ++ [left], ⟨mode, inside⟩, ?_, ?_, ?_⟩
    · intro number among
      rcases mem_append.mp among with before | here
      · exact small number before
      · have grown := Nat.mul_lt_mul_of_pos_right low (Nat.two_pow_pos (width - 8 * mode % width))
        rw [← Nat.pow_add, total, ← Nat.shiftLeft_eq, ← shape whole] at grown
        rwa [mem_singleton.mp here]
    · rw [Nat.mod_eq_of_lt (show width - 8 * mode % width < width by omega), same, flatMap_append, flatMap_singleton, last, append_assoc]
    · rw [if_neg whole, if_neg whole, map_append, append_assoc]
      rfl

omit lawful
theorem decode_eq (stop : code.decodeChar 0x3D = -1) {cs : List UInt8} (known : ∀ ch ∈ cs, code.decodeChar ch ≠ -1) (pads : Nat) :
    code.decode (cs ++ replicate pads 0x3D) =
      (let last := run code.decodeTurn (0, 0) (cs.map fun ch => (code.decodeChar ch).toNat)
      (last.1.map UInt8.ofNat, code.invalid last.2.1 last.2.2 (replicate pads 0x3D))) := by
  have front : (cs ++ replicate pads 0x3D).takeWhile (code.decodeChar · != -1) = cs := by
    rw [takeWhile_append_of_pos fun ch among => bne_iff_ne.mpr (known ch among)]
    cases pads with
    | zero => exact append_nil cs
    | succ pads => rw [replicate_succ, takeWhile_cons_of_neg (by simp [stop]), append_nil]
  rw [Encoding.decode, front, drop_left]

/-- No bits kept but zeros, unless the mode is impossible or bits are left. -/
theorem zeros_kept {mode left : Nat} {kept : List Bool} (keeps : Keeps width 8 digits (fun _ => 0) (mode, left) kept)
    (none : mode ≠ 0 → left = 0) : kept = replicate (width * mode % 8) false := by
  obtain ⟨-, r, low, shape, rfl⟩ := keeps
  apply bits_low
  intro i inside
  by_cases whole : mode = 0
  · rw [whole, Nat.mul_zero] at inside
    exact absurd inside (Nat.not_lt_zero i)
  · have zero : r <<< 0 = 0 := (shape whole).symm.trans (none whole)
    rw [show r = 0 from zero, Nat.zero_testBit]

include lawful

theorem Lawful.decode_encode (pch : List UInt8) : code.decode (code.encode pch) = (pch, false) := by
  obtain ⟨numbers, mode, small, same, text⟩ := lawful.encode_eq pch
  have values : (numbers.map (code.chars.getD · 0)).map (fun ch => (code.decodeChar ch).toNat) = numbers := by
    rw [map_map]
    exact (map_congr_left fun number among => congrArg Int.toNat (lawful.char number (small number among))).trans (map_id numbers)
  have known : ∀ ch ∈ numbers.map (code.chars.getD · 0), code.decodeChar ch ≠ -1 := by
    intro ch among
    obtain ⟨number, inside, rfl⟩ := mem_map.mp among
    rw [lawful.char number (small number inside)]
    omega
  rw [text, decode_eq lawful.stop.1 known, values]
  obtain ⟨fits, kept, keeps, same'⟩ := lawful.decodes.run lawful.short.2.2.2 numbers small
  generalize run code.decodeTurn (0, 0) numbers = last at *
  obtain ⟨out, mode', left⟩ := last
  have size : kept.length = width * mode' % 8 := by
    obtain ⟨-, r, -, -, rfl⟩ := keeps
    exact length_bits _ _
  have short : (width - 8 * mode.val % width) % width < width := Nat.mod_lt _ lawful.short.1
  obtain ⟨bytes', zeros⟩ := groups_inj (fun number among => by obtain ⟨byte, -, rfl⟩ := mem_map.mp among; exact byte.toNat_lt) fits
    (by rw [length_replicate]; exact Nat.lt_trans short lawful.short.2.1) (by rw [size]; exact Nat.mod_lt _ (by decide)) (same.symm.trans same')
  rw [← zeros, length_replicate] at size
  obtain ⟨level, padded⟩ := lawful.ends mode ⟨mode', keeps.1⟩ size.symm
  have nothing : mode' ≠ 0 → left = 0 := by
    intro some'
    obtain ⟨-, r, low, shape, rfl⟩ := keeps
    rw [← bits_low (fun i _ => Nat.zero_testBit i), size] at zeros
    rw [show left = r <<< 0 from shape some', ← bits_inj (Nat.two_pow_pos _) low zeros]
    rfl
  have valid : code.invalid mode' left (replicate (if mode.val = 0 then 0 else code.padding mode) 0x3D) = false := by
    unfold Encoding.invalid
    by_cases whole : mode' = 0
    · rw [if_pos whole]
    · obtain ⟨pads, required⟩ : code.padding mode = digits - mode' ∧ code.required mode' = some (digits - mode') :=
        padded (mt level.mp whole)
      rw [if_neg whole, if_neg (mt level.mp whole), pads, required, nothing whole]
      simp [lawful.stop.2.1]
  dsimp only at bytes' ⊢
  rw [valid, ← bytes', map_map]
  exact congrArg (·, false) ((map_congr_left fun byte _ => UInt8.ofNat_toNat).trans (map_id pch))

theorem Lawful.encode_decode {cs : List UInt8} (alphabet : ∀ ch ∈ cs, fold ch ∈ code.chars)
    (valid : (code.decode (cs ++ replicate (fill digits cs.length) 0x3D)).2 = false) :
    code.encode (code.decode (cs ++ replicate (fill digits cs.length) 0x3D)).1 =
      (cs ++ replicate (fill digits cs.length) 0x3D).map fold := by
  rw [decode_eq lawful.stop.1 fun ch among => (lawful.known (alphabet ch among)).1] at valid ⊢
  obtain ⟨fits, kept, keeps, same⟩ := lawful.decodes.run lawful.short.2.2.2 (cs.map fun ch => (code.decodeChar ch).toNat)
    fun number among => by obtain ⟨ch, inside, rfl⟩ := mem_map.mp among; exact (lawful.known (alphabet ch inside)).2.1
  generalize run code.decodeTurn (0, 0) (cs.map fun ch => (code.decodeChar ch).toNat) = last at *
  obtain ⟨out, mode', left⟩ := last
  dsimp only at valid fits same ⊢
  have checked : mode' ≠ 0 → code.required mode' ≠ none ∧ left = 0 := by
    intro some'
    rw [Encoding.invalid, if_neg some'] at valid
    cases required : code.required mode' with
    | none => rw [required] at valid; cases valid
    | some count =>
      rw [required, Option.elim_some, Bool.or_eq_false_iff] at valid
      exact ⟨nofun, by simpa using valid.1⟩
  rw [zeros_kept keeps fun some' => (checked some').2] at same
  have narrow : width * mode' % 8 < width := by
    by_cases whole : mode' = 0
    · rw [whole]
      exact lawful.short.1
    · exact lawful.possible mode' keeps.1 (checked whole).1
  obtain ⟨numbers, mode, small, same', text⟩ := lawful.encode_eq (out.map UInt8.ofNat)
  have back : (out.map UInt8.ofNat).map UInt8.toNat = out := by
    rw [map_map]
    exact (map_congr_left fun number among => by
      rw [Function.comp_apply, UInt8.toNat_ofNat', Nat.mod_eq_of_lt (fits number among)]; rfl).trans (map_id out)
  rw [back] at same'
  have size := congrArg length same
  have size' := congrArg length same'
  rw [length_append, length_flatMap_bits, length_flatMap_bits, length_replicate, length_map] at size
  rw [length_append, length_flatMap_bits, length_flatMap_bits, length_replicate] at size'
  have short : (width - 8 * mode.val % width) % width < width := Nat.mod_lt _ lawful.short.1
  have sum : width * cs.length + (width - 8 * mode.val % width) % width = width * numbers.length + width * mode' % 8 := by omega
  have level : (width - 8 * mode.val % width) % width = width * mode' % 8 := by
    have rest := congrArg (· % width) sum
    simpa only [Nat.mul_add_mod, Nat.mod_eq_of_lt short, Nat.mod_eq_of_lt narrow] using rest
  rw [← level, ← same'] at same
  have equal := @groups_inj width _ _ [] [] (fun number among => by
    obtain ⟨ch, inside, rfl⟩ := mem_map.mp among
    exact (lawful.known (alphabet ch inside)).2.1) small lawful.short.1 lawful.short.1 (congrArg (· ++ []) same)
  obtain ⟨rfl, -⟩ := equal
  obtain ⟨both, padded⟩ := lawful.ends mode ⟨mode', keeps.1⟩ level.symm
  have pads : (if mode.val = 0 then 0 else code.padding mode) = fill digits cs.length := by
    rw [fill, lawful.count cs.length out.length mode' keeps.1 size]
    by_cases whole : mode.val = 0
    · rw [if_pos whole, show mode' = 0 from both.mp whole, Nat.sub_zero, Nat.mod_self]
    · have some' : mode' ≠ 0 := mt both.mpr whole
      rw [if_neg whole, (padded whole).1, Nat.mod_eq_of_lt (show digits - mode' < digits by omega)]
  rw [text, pads, map_map, map_append, map_replicate, lawful.stop.2.2]
  exact congrArg (· ++ replicate (fill digits cs.length) 0x3D)
    (map_congr_left fun ch among => (lawful.known (alphabet ch among)).2.2)

end Codec

theorem every_byte {holds : UInt8 → Prop} (all : ∀ n : Fin 256, holds (UInt8.ofFin n)) (ch : UInt8) : holds ch := all ch.toFin

theorem high_bits {width number : Nat} (small : number < 2 ^ width) {i : Nat} (above : width ≤ i) : number.testBit i = false :=
  Nat.testBit_lt_two_pow (Nat.lt_of_lt_of_le small (Nat.pow_le_pow_right (by decide) above))

theorem or_lt {width a b : Nat} : a ||| b < 2 ^ width ↔ a < 2 ^ width ∧ b < 2 ^ width :=
  ⟨fun small => ⟨Nat.lt_of_le_of_lt Nat.left_le_or small, Nat.lt_of_le_of_lt Nat.right_le_or small⟩,
    fun small => Nat.or_lt_two_pow small.1 small.2⟩

theorem or_small (a b : Nat) : (a ||| b < 32 ↔ a < 32 ∧ b < 32) ∧ (a ||| b < 64 ↔ a < 64 ∧ b < 64) ∧
    (a ||| b < 128 ↔ a < 128 ∧ b < 128) ∧ (a ||| b < 256 ↔ a < 256 ∧ b < 256) :=
  ⟨@or_lt 5 a b, @or_lt 6 a b, @or_lt 7 a b, @or_lt 8 a b⟩

theorem and_lt {number mask limit : Nat} (small : mask < limit) : number &&& mask < limit := Nat.lt_of_le_of_lt Nat.and_le_right small

/-! In each mode the bits given out and kept are the bits kept before and taken, place by place. -/

theorem encodes_base64 : Regroups base64.encodeTurn 8 6 3 (6 - ·) where
  fresh _ _ := rfl
  turns := by
    intro mode inside r small x fit
    have modes : mode = 0 ∨ mode = 1 ∨ mode = 2 := by omega
    rcases modes with rfl | rfl | rfl <;> simp only [Nat.reduceMul, Nat.reduceMod] at small <;>
      simp +decide (disch := omega) [base64, bits, Nat.testBit_shiftRight, high_bits fit, or_small, and_lt] <;> omega

theorem decodes_base64 : Regroups base64.decodeTurn 6 8 4 fun _ => 0 where
  fresh _ _ := rfl
  turns := by
    intro mode inside r small x fit
    have modes : mode = 0 ∨ mode = 1 ∨ mode = 2 ∨ mode = 3 := by omega
    rcases modes with rfl | rfl | rfl | rfl <;> simp only [Nat.reduceMul, Nat.reduceMod] at small <;>
      simp +decide (disch := omega) [base64, bits, Nat.testBit_shiftRight, high_bits fit, or_small, and_lt] <;> omega

theorem encodes_base32 : Regroups base32.encodeTurn 8 5 5 (5 - ·) where
  fresh _ _ := rfl
  turns := by
    intro mode inside r small x fit
    have modes : mode = 0 ∨ mode = 1 ∨ mode = 2 ∨ mode = 3 ∨ mode = 4 := by omega
    rcases modes with rfl | rfl | rfl | rfl | rfl <;> simp only [Nat.reduceMul, Nat.reduceMod] at small <;>
      simp +decide (disch := omega) [base32, bits, Nat.testBit_shiftRight, high_bits fit, or_small, and_lt] <;> omega

theorem decodes_base32 : Regroups base32.decodeTurn 5 8 8 fun _ => 0 where
  fresh _ _ := rfl
  turns := by
    intro mode inside r small x fit
    have modes : mode = 0 ∨ mode = 1 ∨ mode = 2 ∨ mode = 3 ∨ mode = 4 ∨ mode = 5 ∨ mode = 6 ∨ mode = 7 := by omega
    rcases modes with rfl | rfl | rfl | rfl | rfl | rfl | rfl | rfl <;> simp only [Nat.reduceMul, Nat.reduceMod] at small <;>
      simp +decide (disch := omega) [base32, bits, Nat.testBit_shiftRight, high_bits fit, or_small, and_lt] <;> omega

theorem lawful_base64 : Lawful base64 id 6 3 4 where
  short := by decide
  encodes := encodes_base64
  decodes := decodes_base64
  begun := by decide
  ends := by decide
  possible := by decide
  count size total mode inside same := by
    have modes : mode = 0 ∨ mode = 1 ∨ mode = 2 ∨ mode = 3 := by omega
    rcases modes with rfl | rfl | rfl | rfl <;> omega
  size := rfl
  char := by decide +kernel
  folds _ := rfl
  stop := by decide +kernel

theorem lawful_base32 : Lawful base32 lower 5 5 8 where
  short := by decide
  encodes := encodes_base32
  decodes := decodes_base32
  begun := by decide
  ends := by decide
  possible := by decide
  count size total mode inside same := by
    have modes : mode = 0 ∨ mode = 1 ∨ mode = 2 ∨ mode = 3 ∨ mode = 4 ∨ mode = 5 ∨ mode = 6 ∨ mode = 7 := by omega
    rcases modes with rfl | rfl | rfl | rfl | rfl | rfl | rfl | rfl <;> omega
  size := rfl
  char := by decide +kernel
  folds := every_byte (by decide +kernel)
  stop := by decide +kernel

/-- Both decoders give back what was encoded, and what they take with its padding is what is encoded of the result. -/
theorem text_encodings_canonical (v : List UInt8) :
    (DecodeBase64 (EncodeBase64 v) = (v, false) ∧ DecodeBase32 (EncodeBase32 v) = (v, false)) ∧
    ∀ cs : List UInt8,
      ((∀ ch ∈ cs, ch ∈ base64.chars) → (DecodeBase64 (cs ++ replicate (fill 4 cs.length) 0x3D)).2 = false →
        EncodeBase64 (DecodeBase64 (cs ++ replicate (fill 4 cs.length) 0x3D)).1 = cs ++ replicate (fill 4 cs.length) 0x3D) ∧
      ((∀ ch ∈ cs, lower ch ∈ base32.chars) → (DecodeBase32 (cs ++ replicate (fill 8 cs.length) 0x3D)).2 = false →
        EncodeBase32 (DecodeBase32 (cs ++ replicate (fill 8 cs.length) 0x3D)).1 =
          (cs ++ replicate (fill 8 cs.length) 0x3D).map lower) :=
  ⟨⟨lawful_base64.decode_encode v, lawful_base32.decode_encode v⟩, fun _ =>
    ⟨fun alphabet valid => (lawful_base64.encode_decode alphabet valid).trans (map_id _), lawful_base32.encode_decode⟩⟩

theorem text_encodings_canonical_padded :
    EncodeBase64 (DecodeBase64 [0x5A, 0x6D, 0x38, 0x3D]).1 = [0x5A, 0x6D, 0x38, 0x3D] :=
  ((text_encodings_canonical []).2 [0x5A, 0x6D, 0x38]).1 (by decide +kernel) (by decide +kernel)

end Longcoin.TextEncoding

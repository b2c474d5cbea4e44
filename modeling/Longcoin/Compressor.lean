import Longcoin.Standard
import Longcoin.Serialize

/-! The compact form of an output (`compressor.cpp`): the amount without trailing zeros, and the
scripts of three common kinds without what every script of the kind has. Sizes do not wrap: a script
has fewer than 2^32 - 6 bytes. -/

namespace Longcoin.Compressor
open Primitives Standard Serialize Library.Codec List Option

/-- What `libsecp256k1` provides: whether a key is a point, and the 65 bytes of a compressed one. -/
structure Curve where
  isFullyValid : List UInt8 → Bool
  decompress : List UInt8 → Option (List UInt8)

/-- Decompressing the first coordinate and the parity of the second gives a fully valid key back. -/
def Curve.Lawful (curve : Curve) : Prop :=
  ∀ (x y : List UInt8) (last : UInt8), x.length = 32 → y.length = 31 →
    curve.isFullyValid (0x04 :: (x ++ y ++ [last])) = true →
    curve.decompress ((0x02 + (last &&& 0x01)) :: x) = some (0x04 :: (x ++ y ++ [last]))

def isToKeyID (script : CScript) : Option (List UInt8) :=
  if script.length = 25 ∧ script[0]? = some OP_DUP ∧ script[1]? = some OP_HASH160 ∧ script[2]? = some 20 ∧
      script[23]? = some OP_EQUALVERIFY ∧ script[24]? = some OP_CHECKSIG then
    some ((script.drop 3).take 20)
  else none

def OP_EQUAL : UInt8 := 0x87

def isToScriptID (script : CScript) : Option (List UInt8) :=
  if script.length = 23 ∧ script[0]? = some OP_HASH160 ∧ script[1]? = some 20 ∧ script[22]? = some OP_EQUAL then
    some ((script.drop 2).take 20)
  else none

/-- A key that is not fully valid could not be decompressed again. -/
def isToPubKey (curve : Curve) (script : CScript) : Option (List UInt8) :=
  if script.length = 35 ∧ script[0]? = some 33 ∧ script[34]? = some OP_CHECKSIG ∧
      (script[1]? = some 0x02 ∨ script[1]? = some 0x03) then
    some ((script.drop 1).take 33)
  else if script.length = 67 ∧ script[0]? = some 65 ∧ script[66]? = some OP_CHECKSIG ∧ script[1]? = some 0x04 then
    if curve.isFullyValid ((script.drop 1).take 65) then some ((script.drop 1).take 65) else none
  else none

/-- The compressed form of a key: the first byte tells how to decompress it. -/
def compressKey (pubkey : List UInt8) : Option (List UInt8) :=
  if pubkey[0]? = some 0x02 ∨ pubkey[0]? = some 0x03 then some (pubkey.take 33)
  else if pubkey[0]? = some 0x04 then
    (pubkey[64]?).map fun last => (0x04 ||| (last &&& 0x01)) :: (pubkey.drop 1).take 32
  else none

def compress (curve : Curve) (script : CScript) : Option (List UInt8) :=
  ((isToKeyID script).map (0x00 :: ·)).or
    (((isToScriptID script).map (0x01 :: ·)).or ((isToPubKey curve script).bind compressKey))

def nSpecialScripts : Nat := 6

def getSpecialSize (nSize : Nat) : Nat :=
  if nSize = 0 ∨ nSize = 1 then 20 else if nSize = 2 ∨ nSize = 3 ∨ nSize = 4 ∨ nSize = 5 then 32 else 0

/-- The script stays empty when the key does not decompress. -/
def decompress (curve : Curve) (nSize : Nat) (vch : List UInt8) : CScript :=
  if nSize = 0 then [OP_DUP, OP_HASH160, 20] ++ vch ++ [OP_EQUALVERIFY, OP_CHECKSIG]
  else if nSize = 1 then [OP_HASH160, 20] ++ vch ++ [OP_EQUAL]
  else if nSize = 2 ∨ nSize = 3 then 33 :: UInt8.ofNat nSize :: (vch ++ [OP_CHECKSIG])
  else if nSize = 4 ∨ nSize = 5 then
    (curve.decompress (UInt8.ofNat (nSize - 2) :: vch)).elim [] fun pubkey => 65 :: (pubkey ++ [OP_CHECKSIG])
  else []

def writeScript (curve : Curve) (script : CScript) : List UInt8 :=
  (compress curve script).getD (writeVarInt (script.length + nSpecialScripts) ++ script)

def sizeOfScript (curve : Curve) (script : CScript) : Nat :=
  (compress curve script).elim (script.length + getSizeOfVarInt (script.length + nSpecialScripts)) List.length

def readScript (curve : Curve) : Reader CScript := do
  let nSize ← readVarInt
  if nSize < nSpecialScripts then
    let vch ← readBytes (getSpecialSize nSize)
    return decompress curve nSize vch
  else readBytes (nSize - nSpecialScripts)

/-- The largest power of ten, up to the ninth, that divides the amount, and the rest. -/
def dropZeros : Nat → Nat → Nat × Nat
  | 0, n => (n, 0)
  | left + 1, n =>
      if n % 10 = 0 then ((dropZeros left (n / 10)).1, (dropZeros left (n / 10)).2 + 1) else (n, 0)

def compressAmount (amount : Nat) : Nat :=
  if amount = 0 then 0
  else
    let n := (dropZeros 9 amount).1
    let e := (dropZeros 9 amount).2
    if e < 9 then (1 + (n / 10 * 9 + n % 10 - 1) * 10 + e) % 2 ^ 64 else (1 + (n - 1) * 10 + 9) % 2 ^ 64

def decompressAmount (x : Nat) : Nat :=
  if x = 0 then 0
  else
    let e := (x - 1) % 10
    let x := (x - 1) / 10
    let n := if e < 9 then x / 9 * 10 + x % 9 + 1 else x + 1
    n * 10 ^ e % 2 ^ 64

def writeTxOut (curve : Curve) (txout : CTxOut) : List UInt8 :=
  writeVarInt (compressAmount txout.nValue.toNat) ++ writeScript curve txout.scriptPubKey

def sizeOfTxOut (curve : Curve) (txout : CTxOut) : Nat :=
  getSizeOfVarInt (compressAmount txout.nValue.toNat) + sizeOfScript curve txout.scriptPubKey

def readTxOut (curve : Curve) : Reader CTxOut := do
  let nVal ← readVarInt
  let scriptPubKey ← readScript curve
  return { nValue := decompressAmount nVal, scriptPubKey := scriptPubKey }

theorem dropZeros_spec (left amount : Nat) :
    (dropZeros left amount).1 * 10 ^ (dropZeros left amount).2 = amount ∧ (dropZeros left amount).2 ≤ left ∧
      ((dropZeros left amount).2 < left → (dropZeros left amount).1 % 10 ≠ 0) := by
  induction left generalizing amount with
  | zero => exact ⟨Nat.mul_one amount, Nat.le_refl 0, fun below => absurd below (Nat.lt_irrefl 0)⟩
  | succ left ih =>
    rw [dropZeros]
    split
    · next zero =>
      obtain ⟨whole, bound, last⟩ := ih (amount / 10)
      refine ⟨?_, Nat.succ_le_succ bound, fun below => last (Nat.lt_of_succ_lt_succ below)⟩
      rw [Nat.pow_succ, ← Nat.mul_assoc, whole]
      omega
    · next nonzero => exact ⟨Nat.mul_one amount, Nat.zero_le _, fun _ => nonzero⟩

/-- `CompressAmount` without overflow. -/
def compressed (amount : Nat) : Nat :=
  if amount = 0 then 0
  else
    let n := (dropZeros 9 amount).1
    let e := (dropZeros 9 amount).2
    if e < 9 then 1 + (n / 10 * 9 + n % 10 - 1) * 10 + e else 1 + (n - 1) * 10 + 9

/-- `DecompressAmount` without overflow. -/
def decompressed (x : Nat) : Nat :=
  if x = 0 then 0
  else
    let e := (x - 1) % 10
    let x := (x - 1) / 10
    (if e < 9 then x / 9 * 10 + x % 9 + 1 else x + 1) * 10 ^ e

theorem compressAmount_eq (amount : Nat) : compressAmount amount = compressed amount % 2 ^ 64 := by
  unfold compressAmount compressed
  split_ifs
  · rfl
  · dsimp only
    split_ifs <;> rfl

theorem decompressAmount_eq (x : Nat) : decompressAmount x = decompressed x % 2 ^ 64 := by
  unfold decompressAmount decompressed
  split_ifs <;> rfl

theorem compressed_le (amount : Nat) : compressed amount ≤ 10 * amount := by
  unfold compressed
  split_ifs with zero
  · exact Nat.zero_le _
  · obtain ⟨whole, bound, last⟩ := dropZeros_spec 9 amount
    dsimp only
    generalize (dropZeros 9 amount).1 = n at *
    generalize (dropZeros 9 amount).2 = e at *
    have positive : 0 < n := by
      rw [Nat.pos_iff_ne_zero]
      rintro rfl
      exact zero (by rw [← whole, Nat.zero_mul])
    have shifted : n * (e + 1) ≤ amount := by
      rw [← whole]
      exact Nat.mul_le_mul_left n (Nat.lt_pow_self (by decide))
    have grown : n + e ≤ n * (e + 1) := by
      rw [Nat.mul_succ]
      have := Nat.le_mul_of_pos_left e positive
      omega
    split_ifs <;> omega

theorem decompressed_compressed (amount : Nat) : decompressed (compressed amount) = amount := by
  unfold compressed
  split_ifs with zero
  · rw [zero, decompressed, if_pos rfl]
  · obtain ⟨whole, bound, last⟩ := dropZeros_spec 9 amount
    dsimp only
    generalize (dropZeros 9 amount).1 = n at *
    generalize (dropZeros 9 amount).2 = e at *
    have positive : 0 < n := by
      rw [Nat.pos_iff_ne_zero]
      rintro rfl
      exact zero (by rw [← whole, Nat.zero_mul])
    split_ifs with below
    · have digit := last below
      have exponent : (1 + (n / 10 * 9 + n % 10 - 1) * 10 + e - 1) % 10 = e := by omega
      have rest : (1 + (n / 10 * 9 + n % 10 - 1) * 10 + e - 1) / 10 = n / 10 * 9 + n % 10 - 1 := by omega
      have digits : (n / 10 * 9 + n % 10 - 1) / 9 * 10 + (n / 10 * 9 + n % 10 - 1) % 9 + 1 = n := by omega
      rw [decompressed, if_neg (by omega)]
      simp only [exponent, rest, below, if_true, digits, whole]
    · obtain rfl : e = 9 := by omega
      have exponent : (1 + (n - 1) * 10 + 9 - 1) % 10 = 9 := by omega
      have rest : (1 + (n - 1) * 10 + 9 - 1) / 10 + 1 = n := by omega
      rw [decompressed, if_neg (by omega)]
      simp only [exponent, rest, Nat.lt_irrefl, if_false, whole]

theorem dropZeros_power {left e n : Nat} (within : e ≤ left) (last : e = left ∨ n % 10 ≠ 0) :
    dropZeros left (n * 10 ^ e) = (n, e) := by
  induction left generalizing e with
  | zero =>
    obtain rfl : e = 0 := by omega
    rw [Nat.pow_zero, Nat.mul_one, dropZeros]
  | succ left ih =>
    cases e with
    | zero => rw [Nat.pow_zero, Nat.mul_one, dropZeros, if_neg (last.resolve_left (by omega))]
    | succ e =>
      have zero : n * 10 ^ (e + 1) % 10 = 0 := by
        rw [Nat.pow_succ, ← Nat.mul_assoc, Nat.mul_mod_left]
      have rest : n * 10 ^ (e + 1) / 10 = n * 10 ^ e := by
        rw [Nat.pow_succ, ← Nat.mul_assoc, Nat.mul_div_cancel _ (by decide)]
      rw [dropZeros, if_pos zero, rest, ih (by omega) (last.imp_left Nat.succ.inj)]

theorem compressed_decompressed (x : Nat) : compressed (decompressed x) = x := by
  unfold decompressed
  split_ifs with zero
  · rw [zero, compressed, if_pos rfl]
  · dsimp only
    generalize exponent : (x - 1) % 10 = e
    generalize rest : (x - 1) / 10 = y
    split_ifs with below
    · have power : 0 < 10 ^ e := Nat.pow_pos (by decide)
      have nonzero : (y / 9 * 10 + y % 9 + 1) * 10 ^ e ≠ 0 := Nat.mul_ne_zero (by omega) (by omega)
      rw [compressed, if_neg nonzero, dropZeros_power (by omega) (.inr (by omega))]
      simp only [below, if_true]
      omega
    · obtain rfl : e = 9 := by omega
      rw [compressed, if_neg (by omega), dropZeros_power (Nat.le_refl 9) (.inl rfl)]
      simp only [Nat.lt_irrefl, if_false]
      omega

theorem decompressAmount_compressAmount (amount : Nat) (small : amount ≤ 2 ^ 59) :
    decompressAmount (compressAmount amount) = amount := by
  have fits := compressed_le amount
  rw [compressAmount_eq, Nat.mod_eq_of_lt (by omega), decompressAmount_eq, decompressed_compressed, Nat.mod_eq_of_lt (by omega)]

/-- Amounts of money stay below 2^64 in both directions, and no two numbers whose amounts fit give the same one. -/
theorem amount_compression : (∀ n : Nat, moneyRange n = true →
      compressed n < 2 ^ 64 ∧ decompressed (compressed n) < 2 ^ 64 ∧ decompressAmount (compressAmount n) = n) ∧
    ∀ x : Nat, x < 2 ^ 64 → decompressed x < 2 ^ 64 → compressAmount (decompressAmount x) = x := by
  constructor
  · intro n money
    have small : n ≤ 2 ^ 59 := by
      have bound : (n : Int) ≤ 4200000000000 := ((moneyRange_iff n).mp money).2
      omega
    have fits : compressed n < 2 ^ 64 := by
      have := compressed_le n
      omega
    have back := decompressed_compressed n
    exact ⟨fits, by omega, decompressAmount_compressAmount n small⟩
  · intro x fits amount
    rw [decompressAmount_eq, Nat.mod_eq_of_lt amount, compressAmount_eq, compressed_decompressed, Nat.mod_eq_of_lt fits]

theorem take_eq {s xs : List UInt8} (long : xs.length ≤ s.length) (each : ∀ i < xs.length, s[i]? = xs[i]?) :
    s.take xs.length = xs := by
  apply ext_getElem?
  intro i
  by_cases inside : i < xs.length
  · rw [getElem?_take_of_lt inside, each i inside]
  · rw [getElem?_eq_none (by rw [length_take]; omega), getElem?_eq_none (by omega)]

theorem drop_eq {s xs : List UInt8} {start : Nat} (long : s.length = start + xs.length)
    (each : ∀ i < xs.length, s[start + i]? = xs[i]?) : s.drop start = xs := by
  apply ext_getElem?
  intro i
  rw [getElem?_drop]
  by_cases inside : i < xs.length
  · exact each i inside
  · rw [getElem?_eq_none (by omega), getElem?_eq_none (by omega)]

theorem script_parts {script front back : List UInt8} {middle : Nat}
    (long : script.length = front.length + middle + back.length) (starts : ∀ i < front.length, script[i]? = front[i]?)
    (ends : ∀ i < back.length, script[front.length + middle + i]? = back[i]?) :
    front ++ (script.drop front.length).take middle ++ back = script := by
  have first : script.take front.length = front := take_eq (by omega) starts
  have last : (script.drop front.length).drop middle = back := by
    rw [drop_drop]
    exact drop_eq long ends
  calc front ++ (script.drop front.length).take middle ++ back
      = script.take front.length ++ ((script.drop front.length).take middle ++ (script.drop front.length).drop middle) := by
        rw [first, last, append_assoc]
    _ = script := by rw [take_append_drop, take_append_drop]

variable {curve : Curve}

variable {script : CScript}

theorem special_reads {nSize : Nat} {vch : List UInt8} (special : nSize < nSpecialScripts)
    (sized : vch.length = getSpecialSize nSize) (same : decompress curve nSize vch = script) :
    Reads (readScript curve) (UInt8.ofNat nSize :: vch) script := by
  have written : writeVarInt nSize = [UInt8.ofNat nSize] := by
    have all : ∀ n < 6, writeVarInt n = [UInt8.ofNat n] := by decide
    exact all nSize special
  have head : Reads readVarInt [UInt8.ofNat nSize] nSize := by
    rw [← written]
    exact readVarInt_reads nSize
  refine head.bind ?_
  rw [if_pos special, ← sized, ← same]
  exact (readBytes_reads vch).bind_pure (decompress curve nSize ·)

theorem keyID_decompress {hash : List UInt8} (found : isToKeyID script = some hash) :
    hash.length = 20 ∧ decompress curve 0 hash = script := by
  rw [isToKeyID] at found
  split at found
  swap
  · cases found
  next kind =>
  obtain ⟨length, b0, b1, b2, b23, b24⟩ := kind
  obtain rfl := some.inj found
  refine ⟨by rw [length_take, length_drop, length]; rfl, ?_⟩
  refine @script_parts script [OP_DUP, OP_HASH160, 20] [OP_EQUALVERIFY, OP_CHECKSIG] 20 length ?_ ?_
  · intro i inside
    obtain rfl | rfl | rfl : i = 0 ∨ i = 1 ∨ i = 2 := by
      change i < 3 at inside
      omega
    exacts [b0, b1, b2]
  · intro i inside
    obtain rfl | rfl : i = 0 ∨ i = 1 := by
      change i < 2 at inside
      omega
    exacts [b23, b24]

theorem scriptID_decompress {hash : List UInt8} (found : isToScriptID script = some hash) :
    hash.length = 20 ∧ decompress curve 1 hash = script := by
  rw [isToScriptID] at found
  split at found
  swap
  · cases found
  next kind =>
  obtain ⟨length, b0, b1, b22⟩ := kind
  obtain rfl := some.inj found
  refine ⟨by rw [length_take, length_drop, length]; rfl, ?_⟩
  refine @script_parts script [OP_HASH160, 20] [OP_EQUAL] 20 length ?_ ?_
  · intro i inside
    obtain rfl | rfl : i = 0 ∨ i = 1 := by
      change i < 2 at inside
      omega
    exacts [b0, b1]
  · intro i inside
    obtain rfl : i = 0 := by
      change i < 1 at inside
      omega
    exact b22

theorem script_of_pubKey {size : Nat} {length : UInt8} (long : script.length = 1 + size + 1)
    (starts : script[0]? = some length) (ends : script[1 + size]? = some OP_CHECKSIG) :
    length :: ((script.drop 1).take size ++ [OP_CHECKSIG]) = script := by
  refine @script_parts script [length] [OP_CHECKSIG] size long ?_ ?_
  · intro i inside
    obtain rfl : i = 0 := by
      change i < 1 at inside
      omega
    exact starts
  · intro i inside
    obtain rfl : i = 0 := by
      change i < 1 at inside
      omega
    exact ends

theorem key_cons {size : Nat} {first : UInt8} (long : script.length = 1 + (size + 1) + 1) (starts : script[1]? = some first) :
    ∃ rest, (script.drop 1).take (size + 1) = first :: rest ∧ rest.length = size := by
  have length : ((script.drop 1).take (size + 1)).length = size + 1 := by
    rw [length_take, length_drop]
    omega
  have head : ((script.drop 1).take (size + 1))[0]? = some first := by
    rw [getElem?_take_of_lt (Nat.succ_pos size), getElem?_drop]
    exact starts
  cases key : (script.drop 1).take (size + 1) with
  | nil =>
    rw [key] at length
    cases length
  | cons byte rest =>
    rw [key] at length head
    exact ⟨rest, by rw [some.inj head], Nat.succ.inj length⟩

theorem isToPubKey_cases {pubkey : List UInt8} (found : isToPubKey curve script = some pubkey) :
    (∃ first x, (first = 0x02 ∨ first = 0x03) ∧ x.length = 32 ∧ pubkey = first :: x ∧
        33 :: (pubkey ++ [OP_CHECKSIG]) = script) ∨
      ∃ x y last, x.length = 32 ∧ y.length = 31 ∧ pubkey = 0x04 :: (x ++ y ++ [last]) ∧
        curve.isFullyValid pubkey = true ∧ 65 :: (pubkey ++ [OP_CHECKSIG]) = script := by
  rw [isToPubKey] at found
  split at found
  · next kind =>
    obtain ⟨length, b0, b34, b1⟩ := kind
    obtain rfl := some.inj found
    left
    obtain ⟨first, starts, which⟩ : ∃ first, script[1]? = some first ∧ (first = 0x02 ∨ first = 0x03) := by
      rcases b1 with two | three
      · exact ⟨0x02, two, .inl rfl⟩
      · exact ⟨0x03, three, .inr rfl⟩
    obtain ⟨x, key, sized⟩ := @key_cons script 32 first length starts
    exact ⟨first, x, which, sized, key, @script_of_pubKey script 33 33 length b0 b34⟩
  · split at found
    swap
    · cases found
    next kind =>
    obtain ⟨length, b0, b66, b1⟩ := kind
    split at found
    swap
    · cases found
    next valid =>
    obtain rfl := some.inj found
    right
    obtain ⟨rest, key, sized⟩ := @key_cons script 64 0x04 length b1
    have nonempty : rest.drop 32 ≠ [] := by
      rw [← length_pos_iff, length_drop]
      omega
    refine ⟨rest.take 32, (rest.drop 32).dropLast, (rest.drop 32).getLast nonempty, ?_, ?_, ?_, valid,
      @script_of_pubKey script 65 65 length b0 b66⟩
    · rw [length_take]
      omega
    · rw [length_dropLast, length_drop]
      omega
    · rw [append_assoc, dropLast_append_getLast, take_append_drop, key]

theorem parity_cases (last : UInt8) : last &&& 0x01 = 0 ∨ last &&& 0x01 = 1 := by
  have value : (last &&& 0x01).toNat = last.toNat % 2 := by
    rw [UInt8.toNat_and]
    exact Nat.and_one_is_mod _
  rcases Nat.mod_two_eq_zero_or_one last.toNat with even | odd
  · left
    apply UInt8.toNat_inj.mp
    rw [value, even]
    rfl
  · right
    apply UInt8.toNat_inj.mp
    rw [value, odd]
    rfl

theorem pubKey_reads (lawful : curve.Lawful) {pubkey out : List UInt8} (found : isToPubKey curve script = some pubkey)
    (compressed : compressKey pubkey = some out) :
    Reads (readScript curve) out script := by
  rcases isToPubKey_cases found with ⟨first, x, which, xLength, rfl, same⟩ | ⟨x, y, last, xLength, yLength, rfl, valid, same⟩
  · have out_eq : out = first :: x := by
      rw [compressKey, getElem?_cons_zero, if_pos (by rcases which with rfl | rfl <;> decide)] at compressed
      rw [← some.inj compressed, take_of_length_le (by rw [length_cons, xLength])]
    subst out_eq
    rcases which with rfl | rfl
    · exact @special_reads curve script 2 x (by decide) xLength same
    · exact @special_reads curve script 3 x (by decide) xLength same
  · have lastByte : (0x04 :: (x ++ y ++ [last]))[64]? = some last := by
      rw [getElem?_cons_succ, getElem?_append_right (by rw [length_append]; omega), length_append,
        xLength, yLength]
      rfl
    have out_eq : out = (0x04 ||| (last &&& 0x01)) :: x := by
      rw [compressKey, getElem?_cons_zero, if_neg (by decide), if_pos rfl, lastByte, map_some] at compressed
      rw [← some.inj compressed, drop_succ_cons, drop_zero, append_assoc,
        ← xLength, take_left]
    subst out_eq
    have decompressed := lawful x y last xLength yLength valid
    rcases parity_cases last with even | odd
    · rw [even] at decompressed ⊢
      refine @special_reads curve script 4 x (by decide) xLength ?_
      change (curve.decompress (0x02 :: x)).elim [] _ = script
      rw [show (0x02 : UInt8) = 0x02 + 0 by decide, decompressed]
      exact same
    · rw [odd] at decompressed ⊢
      refine @special_reads curve script 5 x (by decide) xLength ?_
      change (curve.decompress (0x03 :: x)).elim [] _ = script
      rw [show (0x03 : UInt8) = 0x02 + 1 by decide, decompressed]
      exact same

theorem readScript_reads (lawful : curve.Lawful) (script : CScript) : Reads (readScript curve) (writeScript curve script) script := by
  rw [writeScript, compress]
  cases keyID : isToKeyID script with
  | some hash =>
    obtain ⟨sized, same⟩ := keyID_decompress keyID
    exact special_reads (by decide) sized same
  | none =>
    cases scriptID : isToScriptID script with
    | some hash =>
      obtain ⟨sized, same⟩ := scriptID_decompress scriptID
      exact special_reads (by decide) sized same
    | none =>
      cases key : (isToPubKey curve script).bind compressKey with
      | some out =>
        obtain ⟨pubkey, found, compressed⟩ := bind_eq_some_iff.mp key
        exact pubKey_reads lawful found compressed
      | none =>
        refine (readVarInt_reads _).bind ?_
        rw [if_neg (by omega), Nat.add_sub_cancel]
        exact readBytes_reads script

theorem readTxOut_reads (lawful : curve.Lawful) {txout : CTxOut} (inRange : moneyRange txout.nValue = true) :
    Reads (readTxOut curve) (writeTxOut curve txout) txout := by
  obtain ⟨nonneg, small⟩ := (moneyRange_iff _).mp inRange
  have amount : decompressAmount (compressAmount txout.nValue.toNat) = txout.nValue.toNat := by
    refine decompressAmount_compressAmount _ ?_
    have bound : MAX_MONEY ≤ (2 ^ 59 : Int) := by decide
    have small59 : txout.nValue ≤ (2 ^ 59 : Int) := le_trans small bound
    exact Int.toNat_le.mpr small59
  have value : ((txout.nValue.toNat : Nat) : Int) = txout.nValue := Int.toNat_of_nonneg nonneg
  refine (readVarInt_reads _).bind ?_
  rw [amount, value]
  exact (readScript_reads lawful txout.scriptPubKey).bind_pure (fun scriptPubKey => CTxOut.mk txout.nValue scriptPubKey)

theorem length_writeScript (script : CScript) : (writeScript curve script).length = sizeOfScript curve script := by
  rw [writeScript, sizeOfScript]
  cases compress curve script with
  | some out => rfl
  | none =>
    rw [getD_none, elim_none, length_append, length_writeVarInt]
    omega

theorem length_writeTxOut (txout : CTxOut) : (writeTxOut curve txout).length = sizeOfTxOut curve txout := by
  rw [writeTxOut, sizeOfTxOut, length_append, length_writeVarInt, length_writeScript]

end Longcoin.Compressor

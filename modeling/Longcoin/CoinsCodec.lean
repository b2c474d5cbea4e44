import Longcoin.UndoBlock
import Longcoin.Compressor

/-! The record of unspent outputs as the database stores it (`coins.h`): the version, a code with the
coinbase flag, the first two outputs and the number of mask bytes that are not zero, the mask of the
other outputs, the unspent outputs and the height. -/

namespace Longcoin.CoinsCodec
open Primitives Coins Script Serialize Compressor Library.Codec UndoBlock CTxOut CCoins List Option Bool

/-- `i < vout.size() && !vout[i].IsNull()`. -/
def unspentAt (vout : List CTxOut) (i : Nat) : Bool := (vout[i]?).any fun out => !out.isNull

/-- How many bytes a mask of all outputs but the first two has. -/
def maskBlocks (vout : List CTxOut) : Nat := (vout.length - 2 + 7) / 8

/-- The byte that shows eight flags, the first one lowest. -/
def maskByte (flag : Nat → Bool) : UInt8 :=
  (List.range 8).foldl (fun chAvail i => if flag i then chAvail ||| (1 <<< UInt8.ofNat i) else chAvail) 0

/-- The byte of the outputs from `2 + 8 * b` on. -/
def chAvail (vout : List CTxOut) (b : Nat) : UInt8 := maskByte fun i => unspentAt vout (2 + b * 8 + i)

def blockUsed (vout : List CTxOut) (b : Nat) : Bool := (List.range 8).any fun i => unspentAt vout (2 + b * 8 + i)

/-- `CalcMaskSize`: the bytes up to the last that is not zero, and how many are not zero. -/
def calcMaskSize (vout : List CTxOut) : Nat × Nat :=
  (List.range (maskBlocks vout)).foldl (fun sizes b => if blockUsed vout b then (b + 1, sizes.2 + 1) else sizes) (0, 0)

/-- `nCode`. When neither of the first two outputs is unspent, one mask byte is understood. -/
def headerCode (coins : CCoins) : Nat :=
  8 * ((calcMaskSize coins.vout).2 - if unspentAt coins.vout 0 || unspentAt coins.vout 1 then 0 else 1) +
    (if coins.fCoinBase then 1 else 0) + (if unspentAt coins.vout 0 then 2 else 0) +
    if unspentAt coins.vout 1 then 4 else 0

def serializable (coins : CCoins) : Bool :=
  unspentAt coins.vout 0 || unspentAt coins.vout 1 || (calcMaskSize coins.vout).2 != 0

def serialize (curve : Curve) (coins : CCoins) : Option (List UInt8) :=
  if serializable coins then
    some (writeVarIntSigned coins.nVersion ++ (writeVarInt (headerCode coins) ++
      ((List.range (calcMaskSize coins.vout).1).map (chAvail coins.vout) ++
        ((coins.vout.flatMap fun out => if out.isNull then [] else writeTxOut curve out) ++ writeVarInt coins.nHeight))))
  else none

def getSerializeSize (curve : Curve) (coins : CCoins) : Option Nat :=
  if serializable coins then
    some (getSizeOfVarIntSigned coins.nVersion + getSizeOfVarInt (headerCode coins) + (calcMaskSize coins.vout).1 +
      (coins.vout.map fun out => if out.isNull then 0 else sizeOfTxOut curve out).sum + getSizeOfVarInt coins.nHeight)
  else none

def maskFlags (chAvail : UInt8) : List Bool := (List.range 8).map fun p => chAvail &&& (1 <<< UInt8.ofNat p) != 0

/-- Mask bytes are read until so many that are not zero were met. -/
def readMask : Nat → List UInt8 → Option (List Bool × List UInt8)
  | 0, stream => some ([], stream)
  | _ + 1, [] => none
  | nMaskCode + 1, chAvail :: stream =>
      (readMask (if chAvail = 0 then nMaskCode + 1 else nMaskCode) stream).map fun read =>
        (maskFlags chAvail ++ read.1, read.2)

def readSlot (curve : Curve) (avail : Bool) : Reader CTxOut := if avail then readTxOut curve else pure .setNull

def unserialize (curve : Curve) : Reader CCoins := do
  let nVersion ← readVarInt
  let nCode ← readVarInt
  let flags ← readMask (nCode / 8 + if nCode.testBit 1 || nCode.testBit 2 then 0 else 1)
  let vout ← readEach (readSlot curve) (nCode.testBit 1 :: nCode.testBit 2 :: flags)
  let nHeight ← readVarInt
  return CCoins.cleanup { fCoinBase := nCode.testBit 0, vout := vout, nHeight := nHeight, nVersion := nVersion }

theorem maskByte_spec (flag : Nat → Bool) :
    maskFlags (maskByte flag) = (range 8).map flag ∧ (maskByte flag = 0 ↔ (range 8).any flag = false) := by
  rw [maskByte, show range 8 = [0, 1, 2, 3, 4, 5, 6, 7] by rfl]
  simp only [foldl_cons, foldl_nil, map_cons, map_nil, any_cons, any_nil]
  generalize flag 0 = f0
  generalize flag 1 = f1
  generalize flag 2 = f2
  generalize flag 3 = f3
  generalize flag 4 = f4
  generalize flag 5 = f5
  generalize flag 6 = f6
  generalize flag 7 = f7
  revert f0 f1 f2 f3 f4 f5 f6 f7
  decide +kernel

theorem chAvail_eq_zero (vout : List CTxOut) (b : Nat) : chAvail vout b = 0 ↔ blockUsed vout b = false :=
  (maskByte_spec fun i => unspentAt vout (2 + b * 8 + i)).2

theorem maskFlags_chAvail (vout : List CTxOut) (b : Nat) :
    maskFlags (chAvail vout b) = (range 8).map fun i => unspentAt vout (2 + b * 8 + i) :=
  (maskByte_spec fun i => unspentAt vout (2 + b * 8 + i)).1

theorem readMask_reads (bytes : List UInt8) (ends : ∀ last, bytes.getLast? = some last → last ≠ 0) :
    Reads (readMask (bytes.countP (· != 0))) bytes (bytes.flatMap maskFlags) := by
  intro rest
  induction bytes with
  | nil =>
    rw [countP_nil, readMask]
    rfl
  | cons byte bytes ih =>
    have later : ∀ last, bytes.getLast? = some last → last ≠ 0 := by
      intro last found
      apply ends
      rw [getLast?_cons, found]
      rfl
    have tail := ih later
    by_cases zero : byte = 0
    · have nonzero : 0 < bytes.countP (· != 0) := by
        cases found : bytes.getLast? with
        | none =>
          rw [getLast?_eq_none_iff.mp found] at ends
          exact absurd zero (ends byte rfl)
        | some last =>
          rw [countP_pos_iff]
          exact ⟨last, mem_of_getLast? found, by simpa using later last found⟩
      obtain ⟨count, counted⟩ := Nat.exists_eq_succ_of_ne_zero (Nat.ne_of_gt nonzero)
      rw [counted] at tail
      rw [countP_cons_of_neg (by simp [zero]), counted, cons_append, readMask, if_pos zero, tail]
      rfl
    · rw [countP_cons_of_pos (by simpa using zero), cons_append, readMask, if_neg zero, tail]
      rfl

theorem flatMap_maskFlags (vout : List CTxOut) (blocks : Nat) :
    ((range blocks).map (chAvail vout)).flatMap maskFlags = (range (blocks * 8)).map fun j => unspentAt vout (2 + j) := by
  induction blocks with
  | zero => rfl
  | succ blocks ih =>
    rw [range_succ, map_append, flatMap_append, ih, Nat.succ_mul, range_add, map_append,
      List.map_singleton, List.flatMap_singleton, maskFlags_chAvail, List.map_map]
    simp only [Function.comp_def, Nat.add_assoc]

theorem calcMaskSize_spec (vout : List CTxOut) :
    (calcMaskSize vout).2 = (range (calcMaskSize vout).1).countP (blockUsed vout) ∧
      (∀ b < maskBlocks vout, (calcMaskSize vout).1 ≤ b → blockUsed vout b = false) ∧
      (0 < (calcMaskSize vout).1 → blockUsed vout ((calcMaskSize vout).1 - 1) = true) := by
  rw [calcMaskSize]
  generalize maskBlocks vout = blocks
  have whole : ∀ sizes : Nat × Nat, sizes = (range blocks).foldl
      (fun sizes b => if blockUsed vout b then (b + 1, sizes.2 + 1) else sizes) (0, 0) →
      sizes.1 ≤ blocks ∧ sizes.2 = (range sizes.1).countP (blockUsed vout) ∧
        (∀ b < blocks, sizes.1 ≤ b → blockUsed vout b = false) ∧ (0 < sizes.1 → blockUsed vout (sizes.1 - 1) = true) := by
    induction blocks with
    | zero =>
      rintro sizes rfl
      exact ⟨Nat.le_refl 0, rfl, fun b small => absurd small (Nat.not_lt_zero b), fun positive => absurd positive (Nat.lt_irrefl 0)⟩
    | succ blocks ih =>
      rintro sizes rfl
      obtain ⟨bound, counted, unused, used⟩ := ih _ rfl
      rw [range_succ, foldl_append, foldl_cons, foldl_nil]
      generalize (range blocks).foldl (fun sizes b => if blockUsed vout b then (b + 1, sizes.2 + 1) else sizes) (0, 0) =
        before at *
      split
      · next now =>
        refine ⟨Nat.le_refl _, ?_, fun b small large => absurd small (Nat.not_lt.mpr large), fun _ => now⟩
        have between : (range blocks).countP (blockUsed vout) = (range before.1).countP (blockUsed vout) := by
          obtain ⟨more, rfl⟩ := Nat.exists_eq_add_of_le bound
          rw [range_add, countP_append, Nat.add_eq_left, countP_eq_zero]
          intro b member
          obtain ⟨i, inside, rfl⟩ := mem_map.mp member
          have small := mem_range.mp inside
          simpa using unused (before.1 + i) (by omega) (by omega)
        change before.2 + 1 = (range (blocks + 1)).countP (blockUsed vout)
        rw [range_succ, countP_append, between, counted, countP_singleton, if_pos now]
      · next idle =>
        refine ⟨Nat.le_succ_of_le bound, counted, ?_, used⟩
        intro b small large
        rcases Nat.lt_succ_iff_lt_or_eq.mp small with earlier | rfl
        · exact unused b earlier large
        · simpa using idle
  exact (whole _ rfl).2

theorem countP_mask (vout : List CTxOut) :
    ((range (calcMaskSize vout).1).map (chAvail vout)).countP (· != 0) = (calcMaskSize vout).2 := by
  rw [(calcMaskSize_spec vout).1, countP_map]
  refine countP_congr fun b _ => ?_
  have zero := chAvail_eq_zero vout b
  cases used : blockUsed vout b with
  | false => simpa using zero.mpr used
  | true =>
    have nonzero : chAvail vout b ≠ 0 := fun equal => by
      rw [zero.mp equal] at used
      exact Bool.noConfusion used
    simpa using nonzero

theorem mask_ends (vout : List CTxOut) (last : UInt8)
    (found : ((range (calcMaskSize vout).1).map (chAvail vout)).getLast? = some last) : last ≠ 0 := by
  have used := (calcMaskSize_spec vout).2.2
  cases size : (calcMaskSize vout).1 with
  | zero =>
    rw [size] at found
    cases found
  | succ blocks =>
    rw [size] at found used
    rw [range_succ, map_append, getLast?_append] at found
    have same : chAvail vout blocks = last := some.inj found
    rintro rfl
    have idle := (chAvail_eq_zero vout blocks).mp same
    rw [Nat.add_sub_cancel, idle] at used
    exact Bool.noConfusion (used (Nat.succ_pos _))

theorem map_getElem?_range (vout : List CTxOut) (more : Nat) :
    (range (vout.length + more)).map (fun i => vout[i]?) = vout.map some ++ replicate more none := by
  apply ext_getElem?
  intro i
  rw [getElem?_map]
  by_cases inside : i < vout.length
  · rw [getElem?_append_left (by rw [length_map]; exact inside), getElem?_map, getElem?_range (by omega),
      map_some, getElem?_eq_getElem inside, map_some]
  · rw [getElem?_append_right (by rw [length_map]; omega), length_map, getElem?_replicate]
    by_cases padded : i < vout.length + more
    · rw [getElem?_range padded, map_some, getElem?_eq_none (by omega), if_pos (by omega)]
    · rw [getElem?_eq_none (by rw [length_range]; omega), if_neg (by omega), map_none]

def writeSlot (curve : Curve) (out? : Option CTxOut) : List UInt8 :=
  out?.elim [] fun out => if out.isNull then [] else writeTxOut curve out

section

variable {curve : Curve} (lawful : curve.Lawful) {vout : List CTxOut}
  (amounts : ∀ out ∈ vout, out.isNull = false → moneyRange out.nValue = true)
  (exact : ∀ out ∈ vout, out.isNull = true → out = .setNull)
include lawful amounts exact

theorem readSlot_reads (i : Nat) :
    Reads (readSlot curve (unspentAt vout i)) (writeSlot curve vout[i]?) (vout[i]?.getD .setNull) := by
  rw [unspentAt]
  cases found : vout[i]? with
  | none => exact Reads.pure _
  | some out =>
    have member := mem_of_getElem? found
    rw [any_some, writeSlot, elim_some, getD_some]
    cases null : out.isNull with
    | true =>
      rw [exact out member null]
      exact Reads.pure _
    | false => exact readTxOut_reads lawful (amounts out member null)

theorem readSlots_reads (more : Nat) :
    Reads (readEach (readSlot curve) ((range (vout.length + more)).map (unspentAt vout)))
      (vout.flatMap fun out => if out.isNull then [] else writeTxOut curve out) (vout ++ replicate more .setNull) := by
  have slots := map_getElem?_range vout more
  have written : (range (vout.length + more)).flatMap (fun i => writeSlot curve vout[i]?) =
      vout.flatMap fun out => if out.isNull then [] else writeTxOut curve out := by
    rw [← flatMap_map, slots, flatMap_append, flatMap_map, flatMap_replicate]
    simp [writeSlot]
  have values : (range (vout.length + more)).map (fun i => vout[i]?.getD .setNull) =
      vout ++ replicate more setNull := by
    change (range (vout.length + more)).map ((fun out? : Option CTxOut => out?.getD .setNull) ∘ fun i => vout[i]?) = _
    rw [← List.map_map, slots, List.map_append, List.map_map, List.map_replicate]
    simp
  rw [← written, ← values]
  exact readEach_reads _ fun i _ => readSlot_reads lawful amounts exact i

end

theorem rdropWhile_padded {vout : List CTxOut} (clean : vout.rdropWhile isNull = vout) (more : Nat) :
    (vout ++ replicate more setNull).rdropWhile isNull = vout := by
  induction more with
  | zero => rw [replicate_zero, append_nil, clean]
  | succ more ih => rw [replicate_succ', ← append_assoc, rdropWhile_concat_pos _ _ _ rfl, ih]

theorem last_unspent {vout : List CTxOut} (clean : vout.rdropWhile isNull = vout) (nonempty : 0 < vout.length) :
    unspentAt vout (vout.length - 1) = true := by
  have there := length_pos_iff.mp nonempty
  have live := rdropWhile_last_not isNull vout (by rw [clean]; exact there)
  simp only [clean] at live
  rw [unspentAt, ← getLast?_eq_getElem?, getLast?_eq_some_getLast there]
  simpa using live

theorem blockUsed_of_unspent {vout : List CTxOut} {i : Nat} (unspent : unspentAt vout (2 + i) = true) :
    blockUsed vout (i / 8) = true := by
  rw [blockUsed, List.any_eq_true]
  refine ⟨i % 8, List.mem_range.mpr (Nat.mod_lt _ (by omega)), ?_⟩
  rw [show 2 + i / 8 * 8 + i % 8 = 2 + i by omega]
  exact unspent

theorem mask_covers {vout : List CTxOut} (clean : vout.rdropWhile isNull = vout) :
    vout.length ≤ 2 + (calcMaskSize vout).1 * 8 := by
  by_contra short
  have long : 2 < vout.length := by omega
  have unspent := last_unspent clean (by omega)
  rw [show vout.length - 1 = 2 + (vout.length - 3) by omega] at unspent
  have unused := (calcMaskSize_spec vout).2.1 ((vout.length - 3) / 8) (by rw [maskBlocks]; omega) (by omega)
  rw [blockUsed_of_unspent unspent] at unused
  exact Bool.noConfusion unused

theorem serializable_of_clean {coins : CCoins} (clean : coins.vout.rdropWhile isNull = coins.vout)
    (nonempty : 0 < coins.vout.length) : serializable coins = true := by
  have unspent := last_unspent clean nonempty
  rw [serializable, or_eq_true, or_eq_true, bne_iff_ne]
  obtain one | two | more : coins.vout.length = 1 ∨ coins.vout.length = 2 ∨ 2 < coins.vout.length := by omega
  · rw [one] at unspent
    exact .inl (.inl unspent)
  · rw [two] at unspent
    exact .inl (.inr unspent)
  · right
    have covers := mask_covers clean
    have used := (calcMaskSize_spec coins.vout).2.2 (by omega)
    rw [(calcMaskSize_spec coins.vout).1]
    refine Nat.ne_of_gt (countP_pos_iff.mpr ⟨_, mem_range.mpr ?_, used⟩)
    omega

theorem code_bits (q : Nat) (fCoinBase fFirst fSecond : Bool) :
    (8 * q + (if fCoinBase then 1 else 0) + (if fFirst then 2 else 0) + if fSecond then 4 else 0) / 8 = q ∧
      (8 * q + (if fCoinBase then 1 else 0) + (if fFirst then 2 else 0) + if fSecond then 4 else 0).testBit 0 = fCoinBase ∧
      (8 * q + (if fCoinBase then 1 else 0) + (if fFirst then 2 else 0) + if fSecond then 4 else 0).testBit 1 = fFirst ∧
      (8 * q + (if fCoinBase then 1 else 0) + (if fFirst then 2 else 0) + if fSecond then 4 else 0).testBit 2 = fSecond := by
  simp only [Nat.testBit_eq_decide_div_mod_eq]
  cases fCoinBase <;> cases fFirst <;> cases fSecond <;> simp <;> omega

theorem maskCode_eq {coins : CCoins} (ready : serializable coins = true) :
    (calcMaskSize coins.vout).2 - (if unspentAt coins.vout 0 || unspentAt coins.vout 1 then 0 else 1) +
      (if unspentAt coins.vout 0 || unspentAt coins.vout 1 then 0 else 1) = (calcMaskSize coins.vout).2 := by
  rw [serializable, or_eq_true, bne_iff_ne] at ready
  split
  · omega
  · next neither =>
    have bytes := ready.resolve_left neither
    omega

theorem flags_eq (vout : List CTxOut) (blocks : Nat) :
    unspentAt vout 0 :: unspentAt vout 1 :: ((range (blocks * 8)).map fun j => unspentAt vout (2 + j)) =
      (List.range (2 + blocks * 8)).map (unspentAt vout) := by
  rw [List.range_add, List.map_append, List.map_map]
  rfl

theorem unserialize_reads {curve : Curve} (lawful : curve.Lawful) {coins : CCoins} (clean : coins.Clean)
    (nonempty : 0 < coins.vout.length) (version : 0 ≤ coins.nVersion)
    (amounts : ∀ out ∈ coins.vout, out.isNull = false → moneyRange out.nValue = true) (exact : NullsExact coins) :
    Reads (unserialize curve) (writeVarIntSigned coins.nVersion ++ (writeVarInt (headerCode coins) ++
      ((range (calcMaskSize coins.vout).1).map (chAvail coins.vout) ++
        ((coins.vout.flatMap fun out => if out.isNull then [] else writeTxOut curve out) ++ writeVarInt coins.nHeight))))
      coins := by
  have tight : coins.vout.rdropWhile isNull = coins.vout := congrArg vout clean
  have ready := serializable_of_clean tight nonempty
  obtain ⟨more, covers⟩ := Nat.exists_eq_add_of_le (mask_covers tight)
  obtain ⟨nVersion, versionEq⟩ := Int.eq_ofNat_of_zero_le version
  obtain ⟨quotient, coinBase, first, second⟩ := code_bits
    ((calcMaskSize coins.vout).2 - if unspentAt coins.vout 0 || unspentAt coins.vout 1 then 0 else 1) coins.fCoinBase
    (unspentAt coins.vout 0) (unspentAt coins.vout 1)
  have mask := readMask_reads _ (mask_ends coins.vout)
  rw [countP_mask, flatMap_maskFlags] at mask
  have slots := readSlots_reads lawful amounts exact more
  rw [← covers, ← flags_eq] at slots
  rw [versionEq, writeVarIntSigned_ofNat]
  refine (readVarInt_reads nVersion).bind ((readVarInt_reads (headerCode coins)).bind ?_)
  rw [headerCode, quotient, coinBase, first, second, maskCode_eq ready]
  refine mask.bind (slots.bind ?_)
  have whole : cleanup
      { fCoinBase := coins.fCoinBase
        vout := coins.vout ++ replicate more .setNull
        nHeight := coins.nHeight
        nVersion := (nVersion : Int) } = coins := by
    rw [cleanup, rdropWhile_padded tight more]
    cases coins
    simp only at versionEq
    rw [versionEq]
  have last := (readVarInt_reads coins.nHeight).bind_pure fun nHeight => cleanup
      { fCoinBase := coins.fCoinBase
        vout := coins.vout ++ replicate more .setNull
        nHeight := nHeight
        nVersion := (nVersion : Int) }
  rw [whole] at last
  exact last

theorem sizes_eq (curve : Curve) (vout : List CTxOut) :
    (vout.flatMap fun out => if out.isNull then [] else writeTxOut curve out).length =
      (vout.map fun out => if out.isNull then 0 else sizeOfTxOut curve out).sum := by
  induction vout with
  | nil => rfl
  | cons out rest ih =>
    rw [flatMap_cons, length_append, map_cons, sum_cons, ih]
    split
    · rfl
    · rw [length_writeTxOut]

/-- A clean record with an unspent output is read back from what was written, whatever follows, and
`GetSerializeSize` tells its length. -/
theorem record_round_trip (curve : Curve) (lawful : curve.Lawful) (coins : CCoins) (clean : coins.Clean)
    (unspent : coins.isPruned = false) (version : 0 ≤ coins.nVersion)
    (amounts : ∀ out ∈ coins.vout, out.isNull = false → moneyRange out.nValue = true) (exact : NullsExact coins) :
    ∃ bytes, serialize curve coins = some bytes ∧ Reads (unserialize curve) bytes coins ∧
      getSerializeSize curve coins = some bytes.length := by
  have nonempty : 0 < coins.vout.length := by
    have live := vout_isEmpty_of_clean clean
    rw [unspent, isEmpty_eq_false_iff] at live
    exact length_pos_iff.mpr live
  have ready := serializable_of_clean (congrArg vout clean) nonempty
  refine ⟨_, if_pos ready, unserialize_reads lawful clean nonempty version amounts exact, ?_⟩
  rw [getSerializeSize, if_pos ready, length_append, length_append, length_append, length_append,
    length_writeVarIntSigned, length_writeVarInt, length_writeVarInt, length_map, length_range, sizes_eq]
  congr 1
  omega

def sampleCurve : Curve where
  isFullyValid key := key == 0x04 :: (generatorX ++ generatorY)
  decompress key := if key = 0x02 :: generatorX then some (0x04 :: (generatorX ++ generatorY)) else none

theorem sampleCurve_lawful : sampleCurve.Lawful := by
  intro x y last xLength yLength valid
  have same : 0x04 :: (x ++ y ++ [last]) = 0x04 :: (generatorX ++ generatorY) := beq_iff_eq.mp valid
  have coordinates : x ++ (y ++ [last]) = generatorX ++ generatorY := by
    rw [← append_assoc]
    exact tail_eq_of_cons_eq same
  obtain ⟨rfl, second⟩ := append_inj coordinates (by rw [xLength]; rfl)
  have lastByte : last = 0xb8 := by
    have tails := congrArg getLast? second
    rw [getLast?_append] at tails
    exact some.inj tails
  rw [append_assoc, second, lastByte]
  decide

/-- Two spent outputs at the beginning and one in the middle, a payment to the generator, one to a key
hash and one to a script without a special form. -/
def sampleCoins : CCoins where
  fCoinBase := true
  vout := [.setNull, .setNull, ⟨234925952, 65 :: (0x04 :: (generatorX ++ generatorY) ++ [0xac])⟩, .setNull,
    ⟨110397, [0x76, 0xa9, 20] ++ List.replicate 20 0x61 ++ [0x88, 0xac]⟩] ++ List.replicate 13 .setNull ++
    [⟨4200000000000, [0x51]⟩]
  nHeight := 120891
  nVersion := 1

theorem record_round_trip_sample :
    ∃ bytes, serialize sampleCurve sampleCoins = some bytes ∧ Reads (unserialize sampleCurve) bytes sampleCoins ∧
      getSerializeSize sampleCurve sampleCoins = some bytes.length :=
  record_round_trip sampleCurve sampleCurve_lawful sampleCoins (by unfold Clean; decide +kernel) (by decide +kernel)
    (by decide) (by decide +kernel) (by unfold NullsExact; decide +kernel)

def staleCoins : CCoins where
  vout := [⟨-1, [0x51]⟩, ⟨5, [0x51]⟩]
  nVersion := 1

theorem stale_script_is_lost : staleCoins.Clean ∧ staleCoins.isPruned = false ∧ 0 ≤ staleCoins.nVersion ∧
      (∀ out ∈ staleCoins.vout, out.isNull = false → moneyRange out.nValue = true) ∧
      ¬ ∃ bytes, serialize sampleCurve staleCoins = some bytes ∧ Reads (unserialize sampleCurve) bytes staleCoins := by
  refine ⟨by unfold Clean; decide +kernel, by decide +kernel, by decide, by decide +kernel, ?_⟩
  rintro ⟨bytes, written, reads⟩
  have read := reads []
  rw [append_nil] at read
  have both : (serialize sampleCurve staleCoins).bind (unserialize sampleCurve ·) = some (staleCoins, []) := by
    rw [written, bind_some, read]
  exact absurd both (by decide +kernel)

end Longcoin.CoinsCodec

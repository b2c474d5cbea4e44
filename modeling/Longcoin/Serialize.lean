import Longcoin.Library.Codec

/-! Numbers of variable length (`serialize.h`): groups of seven bits, the most significant first, each
but the last with its high bit set and one less than it would be. -/

namespace Longcoin.Serialize
open Library.Codec List Option

/-- The groups that `WriteVarInt` puts into `tmp`, in the order they are written. `mark` is 0x80 for
all but the last one; a turn makes the number smaller, so as many turns as the number are enough. -/
def varIntGroups : Nat → Nat → Nat → List UInt8
  | 0, n, mark => [UInt8.ofNat (n % 128 + mark)]
  | turns + 1, n, mark =>
      if n ≤ 0x7f then [UInt8.ofNat (n % 128 + mark)]
      else varIntGroups turns (n / 128 - 1) 0x80 ++ [UInt8.ofNat (n % 128 + mark)]

def writeVarInt (n : Nat) : List UInt8 := varIntGroups n n 0

/-- `WriteVarInt` of an `int`: a negative number is not above 0x7f, so one group is written. -/
def writeVarIntSigned (n : Int) : List UInt8 :=
  if n ≤ 0x7f then [UInt8.ofNat (n % 128).toNat] else writeVarInt n.toNat

def sizeOfVarIntTurns : Nat → Nat → Nat
  | 0, _ => 1
  | turns + 1, n => if n ≤ 0x7f then 1 else sizeOfVarIntTurns turns (n / 128 - 1) + 1

/-- `GetSizeOfVarInt`. -/
def getSizeOfVarInt (n : Nat) : Nat := sizeOfVarIntTurns n n

def getSizeOfVarIntSigned (n : Int) : Nat := if n ≤ 0x7f then 1 else getSizeOfVarInt n.toNat

def readVarIntFrom : Nat → List UInt8 → Option (Nat × List UInt8)
  | _, [] => none
  | n, chData :: stream =>
      if 0x80 ≤ chData.toNat then readVarIntFrom (n * 128 + chData.toNat % 128 + 1) stream
      else some (n * 128 + chData.toNat % 128, stream)

def readVarInt : Reader Nat := readVarIntFrom 0

theorem readVarIntFrom_marked (n group : Nat) (small : group < 128) (stream : List UInt8) :
    readVarIntFrom n (UInt8.ofNat (group + 0x80) :: stream) = readVarIntFrom (n * 128 + group + 1) stream := by
  have value : (UInt8.ofNat (group + 0x80)).toNat = group + 128 := by
    rw [UInt8.toNat_ofNat']
    omega
  rw [readVarIntFrom, value, if_pos (by omega), Nat.add_mod_right, Nat.mod_eq_of_lt small]

theorem readVarIntFrom_last (n group : Nat) (small : group < 128) (stream : List UInt8) :
    readVarIntFrom n (UInt8.ofNat (group + 0) :: stream) = some (n * 128 + group, stream) := by
  have value : (UInt8.ofNat (group + 0)).toNat = group := by
    rw [UInt8.toNat_ofNat']
    omega
  rw [readVarIntFrom, value, if_neg (by omega), Nat.mod_eq_of_lt small]

theorem readVarIntFrom_groups (turns n : Nat) (enough : n ≤ turns) (stream : List UInt8) :
    readVarIntFrom 0 (varIntGroups turns n 0x80 ++ stream) = readVarIntFrom (n + 1) stream := by
  induction turns generalizing n stream with
  | zero =>
    obtain rfl : n = 0 := by omega
    exact readVarIntFrom_marked 0 0 (by omega) stream
  | succ turns ih =>
    rw [varIntGroups]
    split
    · next small =>
      rw [Nat.mod_eq_of_lt (by omega), singleton_append, readVarIntFrom_marked 0 n (by omega), Nat.zero_mul,
        Nat.zero_add]
    · next large =>
      have group : n % 128 < 128 := Nat.mod_lt _ (by omega)
      have whole : (n / 128 - 1 + 1) * 128 + n % 128 = n := by omega
      rw [append_assoc, ih _ (by omega), singleton_append, readVarIntFrom_marked _ _ group, whole]

theorem readVarInt_reads (n : Nat) : Reads readVarInt (writeVarInt n) n := by
  intro stream
  rw [readVarInt, writeVarInt]
  cases n with
  | zero => exact readVarIntFrom_last 0 0 (by omega) stream
  | succ m =>
    rw [varIntGroups]
    split
    · next small =>
      rw [Nat.mod_eq_of_lt (by omega), singleton_append, readVarIntFrom_last 0 (m + 1) (by omega), Nat.zero_mul,
        Nat.zero_add]
    · next large =>
      have group : (m + 1) % 128 < 128 := Nat.mod_lt _ (by omega)
      have whole : ((m + 1) / 128 - 1 + 1) * 128 + (m + 1) % 128 = m + 1 := by omega
      rw [append_assoc, readVarIntFrom_groups _ _ (by omega), singleton_append, readVarIntFrom_last _ _ group, whole]

theorem length_varIntGroups (turns n mark : Nat) : (varIntGroups turns n mark).length = sizeOfVarIntTurns turns n := by
  induction turns generalizing n mark with
  | zero => rfl
  | succ turns ih =>
    rw [varIntGroups, sizeOfVarIntTurns]
    split
    · rfl
    · rw [length_append, ih]
      rfl

theorem length_writeVarInt (n : Nat) : (writeVarInt n).length = getSizeOfVarInt n := length_varIntGroups n n 0

theorem writeVarIntSigned_ofNat (n : Nat) : writeVarIntSigned n = writeVarInt n := by
  rw [writeVarIntSigned, Int.toNat_natCast]
  split
  · next small =>
    have group : ((n : Int) % 128).toNat = n % 128 := by omega
    rw [group, writeVarInt]
    cases n with
    | zero => rfl
    | succ m =>
      rw [varIntGroups, if_pos (by omega)]
      rfl
  · rfl

theorem length_writeVarIntSigned (n : Int) : (writeVarIntSigned n).length = getSizeOfVarIntSigned n := by
  rw [writeVarIntSigned, getSizeOfVarIntSigned]
  split
  · rfl
  · exact length_writeVarInt _

/-- The loop of `ReadVarInt` in an unsigned type of `bits` bits. -/
def readVarIntWord (bits : Nat) : Nat → List UInt8 → Option (Nat × List UInt8)
  | _, [] => none
  | n, chData :: stream =>
      let n := (n * 128 + chData.toNat % 128) % 2 ^ bits
      if 0x80 ≤ chData.toNat then readVarIntWord bits ((n + 1) % 2 ^ bits) stream else some (n, stream)

/-- `(sizeof(n)*8+6)/7`, the size of `tmp`. -/
def tmpSize (bits : Nat) : Nat := (bits + 6) / 7

theorem readVarIntWord_eq (bits n : Nat) (stream : List UInt8) :
    readVarIntWord bits (n % 2 ^ bits) stream = (readVarIntFrom n stream).map fun read => (read.1 % 2 ^ bits, read.2) := by
  induction stream generalizing n with
  | nil => rfl
  | cons chData stream ih =>
    have group : (n % 2 ^ bits * 128 + chData.toNat % 128) % 2 ^ bits = (n * 128 + chData.toNat % 128) % 2 ^ bits := by
      rw [Nat.add_mod, Nat.mod_mul_mod, ← Nat.add_mod]
    unfold readVarIntWord readVarIntFrom
    dsimp only
    rw [group, Nat.mod_add_mod]
    split_ifs
    · exact ih _
    · rfl

theorem sizeOfVarIntTurns_le {groups : Nat} (turns : Nat) {n : Nat} (fits : n < 128 ^ (groups + 1)) :
    sizeOfVarIntTurns turns n ≤ groups + 1 := by
  induction turns generalizing groups n with
  | zero => exact Nat.succ_le_succ (Nat.zero_le groups)
  | succ turns ih =>
    rw [sizeOfVarIntTurns]
    split_ifs with last
    · exact Nat.succ_le_succ (Nat.zero_le groups)
    · cases groups with
      | zero => omega
      | succ groups =>
        rw [Nat.pow_succ] at fits
        exact Nat.succ_le_succ (ih (by omega))

theorem varIntGroups_enough {turns more n : Nat} (mark : Nat) (enough : n ≤ turns) (enough' : n ≤ more) :
    varIntGroups turns n mark = varIntGroups more n mark := by
  induction turns generalizing more n mark with
  | zero =>
    obtain rfl : n = 0 := by omega
    cases more <;> rfl
  | succ turns ih =>
    cases more with
    | zero =>
      obtain rfl : n = 0 := by omega
      rfl
    | succ more =>
      unfold varIntGroups
      split_ifs
      · rfl
      · rw [ih 0x80 (by omega) (show n / 128 - 1 ≤ more by omega)]

/-- The groups of a number before its last one, as the reader counts them: one more than what was written. -/
def groupsBefore : Nat → List UInt8
  | 0 => []
  | n + 1 => varIntGroups n n 0x80

theorem groups_snoc (n digit mark : Nat) (small : digit < 128) :
    varIntGroups (n * 128 + digit) (n * 128 + digit) mark = groupsBefore n ++ [UInt8.ofNat (digit + mark)] := by
  have group : (n * 128 + digit) % 128 = digit := by omega
  rw [varIntGroups_enough mark (Nat.le_refl _) (Nat.le_succ _), varIntGroups, group]
  cases n with
  | zero => exact if_pos (by omega)
  | succ n =>
    have rest : ((n + 1) * 128 + digit) / 128 - 1 = n := by omega
    rw [if_neg (by omega), rest, groupsBefore, varIntGroups_enough 0x80 (show n ≤ _ by omega) (Nat.le_refl n)]

theorem readVarIntFrom_written {stream : List UInt8} {n value : Nat} {rest : List UInt8}
    (read : readVarIntFrom n stream = some (value, rest)) :
    ∃ front, stream = front ++ rest ∧ groupsBefore n ++ front = writeVarInt value := by
  induction stream generalizing n with
  | nil => cases read
  | cons chData stream ih =>
    have byte := chData.toNat_lt
    have small : chData.toNat % 128 < 128 := Nat.mod_lt _ (by decide)
    rw [readVarIntFrom] at read
    split_ifs at read with marked
    · obtain ⟨front, split, written⟩ := ih read
      have same : UInt8.ofNat (chData.toNat % 128 + 0x80) = chData := by
        rw [show chData.toNat % 128 + 0x80 = chData.toNat by omega, UInt8.ofNat_toNat]
      refine ⟨chData :: front, by rw [split, cons_append], ?_⟩
      rw [← written, groupsBefore, groups_snoc n _ 0x80 small, same, append_assoc, singleton_append]
    · injection read with pair
      injection pair with number left
      have same : UInt8.ofNat (chData.toNat % 128 + 0) = chData := by
        rw [show chData.toNat % 128 + 0 = chData.toNat by omega, UInt8.ofNat_toNat]
      refine ⟨[chData], by rw [left, singleton_append], ?_⟩
      rw [← number, writeVarInt, groups_snoc n _ 0 small, same]

/-- What is written is read back and fits into `tmp`, and what is read without wrapping around is what is written. -/
theorem varInt_canonical (bits : Nat) (word : bits = 32 ∨ bits = 64) : (∀ n < 2 ^ bits, ∀ rest,
      readVarIntWord bits 0 (writeVarInt n ++ rest) = some (n, rest) ∧
        (writeVarInt n).length = getSizeOfVarInt n ∧ (writeVarInt n).length ≤ tmpSize bits) ∧
    ∀ first second n value value', readVarIntWord bits 0 first = some (n, []) → readVarIntWord bits 0 second = some (n, []) →
      readVarInt first = some (value, []) → readVarInt second = some (value', []) → value < 2 ^ bits → value' < 2 ^ bits →
      first = second := by
  constructor
  · intro n fits rest
    have bounded : n < 128 ^ (tmpSize bits - 1 + 1) := by
      apply Nat.lt_of_lt_of_le fits
      rcases word with rfl | rfl <;> decide
    refine ⟨?_, length_writeVarInt n, ?_⟩
    · have read := readVarInt_reads n rest
      rw [readVarInt] at read
      rw [← Nat.zero_mod (2 ^ bits), readVarIntWord_eq, read, map_some, Nat.mod_eq_of_lt fits]
    · rw [length_writeVarInt]
      apply Nat.le_trans (sizeOfVarIntTurns_le n bounded)
      rcases word with rfl | rfl <;> decide
  · intro first second n value value' word1 word2 read1 read2 fits fits'
    have decoded {stream : List UInt8} {value : Nat} (wrapped : readVarIntWord bits 0 stream = some (n, []))
        (read : readVarInt stream = some (value, [])) (fits : value < 2 ^ bits) : stream = writeVarInt n := by
      obtain ⟨front, split, written⟩ := readVarIntFrom_written read
      rw [readVarInt] at read
      rw [← Nat.zero_mod (2 ^ bits), readVarIntWord_eq, read, map_some, Nat.mod_eq_of_lt fits] at wrapped
      have same : value = n := congrArg Prod.fst (some.inj wrapped)
      rw [split, append_nil, ← same]
      exact written
    exact (decoded word1 read1 fits).trans (decoded word2 read2 fits').symm

theorem varInt_canonical_word : readVarIntWord 32 0 (writeVarInt 16511 ++ [7]) = some (16511, [7]) :=
  ((varInt_canonical 32 (.inl rfl)).1 16511 (by decide) [7]).1

end Longcoin.Serialize

import Longcoin.StandardShape

/-! Scripts that are built with `operator<<` (`script/script.h`), and what `GetOp` reads of them. -/

namespace Longcoin.Standard
open Primitives Script Library.Bytes List

inductive ScriptItem where
  | opcode (op : UInt8) (plain : ¬ op ≤ OP_PUSHDATA4)
  | data (b : List UInt8) (fits : b.length < 2 ^ 32)

/-- `operator<<` -/
def ScriptItem.write : ScriptItem → CScript
  | .opcode op _ => [op]
  | .data b _ => pushData b

def ScriptItem.read : ScriptItem → UInt8 × List UInt8
  | .opcode op _ => (op, [])
  | .data b _ => ((pushHeader b.length).headD OP_0, b)

def build (items : List ScriptItem) : CScript := items.flatMap ScriptItem.write

/-- `end()`: `item_ptr` takes the size as an `int`. -/
def endOf (script : CScript) : Int := (script.length : Int).bmod (2 ^ 32)

/-- `GetOp2` at a position of a script, with the position after the instruction. An `end()` after the beginning is where the
bytes end. -/
def getOp2 (script : CScript) (pc : Nat) : Option (UInt8 × List UInt8 × Nat) :=
  if endOf script ≤ pc then none
  else (getOp (script.drop pc)).map fun op => (op.1, op.2.1, script.length - op.2.2.length)

/-- Calls of `GetOp2` one after the other, each of which succeeds. -/
def Calls (script : CScript) : Nat → List (UInt8 × List UInt8) → Nat → Prop
  | pc, [], last => pc = last
  | pc, op :: ops, last => ∃ next, getOp2 script pc = some (op.1, op.2, next) ∧ Calls script next ops last

open ScriptItem

theorem getOp_write (item : ScriptItem) (rest : CScript) : getOp (item.write ++ rest) = some (item.read.1, item.read.2, rest) := by
  cases item with
  | opcode op plain => exact if_neg plain
  | data b small =>
    obtain ⟨opcode, isPush, read⟩ := getOp_pushData b rest small
    obtain ⟨first, tail, header, _⟩ := pushSize_pushHeader b.length small rest
    have head : opcode = (pushHeader b.length).headD OP_0 := by
      have begins := head_getOp read
      unfold pushData at begins
      rw [header] at begins ⊢
      exact (Option.some.inj begins).symm
    change _ = some ((pushHeader b.length).headD OP_0, b, rest)
    rw [← head]
    exact read

theorem endOf_short {script : CScript} (short : script.length < 2 ^ 31) : endOf script = script.length := by
  unfold endOf
  rw [Int.bmod_eq_of_le] <;> omega

theorem getOp2_some {script : CScript} {pc : Nat} {op : UInt8 × List UInt8 × Nat} (read : getOp2 script pc = some op) :
    getOp (script.drop pc) = some (op.1, op.2.1, script.drop op.2.2) ∧ pc < op.2.2 ∧ op.2.2 ≤ script.length := by
  unfold getOp2 at read
  split at read
  · cases read
  obtain ⟨⟨opcode, data, rest⟩, there, rfl⟩ := Option.map_eq_some_iff.mp read
  obtain ⟨front, nonempty, (whole : script.drop pc = front ++ rest)⟩ := getOp_suffix there
  have positive := length_pos_iff.mpr nonempty
  have lengths := congrArg length whole
  rw [length_drop, length_append] at lengths
  have left : script.drop (script.length - rest.length) = rest := by
    rw [show script.length - rest.length = pc + front.length by omega, ← drop_drop, whole, drop_left]
  refine ⟨there.trans (by rw [left]), ?_, Nat.sub_le _ _⟩
  change pc < script.length - rest.length
  omega

theorem calls_build {script : CScript} (short : script.length < 2 ^ 31) (items : List ScriptItem) {pc : Nat}
    (there : script.drop pc = build items) (inside : pc ≤ script.length) : Calls script pc (items.map read) script.length := by
  induction items generalizing pc with
  | nil =>
    have reached := drop_eq_nil_iff.mp there
    exact Nat.le_antisymm inside reached
  | cons item items ih =>
    have split : script.drop pc = item.write ++ build items := there.trans flatMap_cons
    have read := getOp_write item (build items)
    rw [← split] at read
    have shorter := length_getOp read
    rw [length_drop] at shorter
    have called : getOp2 script pc = some (item.read.1, item.read.2, script.length - (build items).length) := by
      unfold getOp2
      rw [endOf_short short, if_neg (by omega), read]
      rfl
    have next := (getOp2_some called).1
    rw [read] at next
    exact ⟨_, called, ih (congrArg (fun op => op.2.2) (Option.some.inj next)).symm (Nat.sub_le _ _)⟩

theorem Calls.reads {script : CScript} {ops : List (UInt8 × List UInt8)} {pc last : Nat} (calls : Calls script pc ops last)
    (inside : pc ≤ script.length) : Reads (script.drop pc) ops (script.drop last) ∧ pc + ops.length ≤ last ∧ last ≤ script.length := by
  induction ops generalizing pc with
  | nil =>
    obtain rfl : pc = last := calls
    exact ⟨rfl, Nat.le_refl _, inside⟩
  | cons op ops ih =>
    obtain ⟨next, called, calls⟩ := calls
    obtain ⟨read, (forward : pc < next), within⟩ := getOp2_some called
    obtain ⟨reads, far, bound⟩ := ih calls within
    refine ⟨⟨_, read, reads⟩, ?_, bound⟩
    rw [length_cons]
    omega

/-- A script of less than 2^31 bytes is read back as it was built; whatever the bytes are, `GetOp2` goes forward and stays
between the ends. -/
theorem builder_and_parser_agree :
    (∀ items, (build items).length < 2 ^ 31 → Calls (build items) 0 (items.map read) (build items).length) ∧
    (∀ script pc op, getOp2 script pc = some op → pc < op.2.2 ∧ op.2.2 ≤ script.length) ∧
    ∀ script ops last, Calls script 0 ops last →
      Reads script ops (script.drop last) ∧ ops.length ≤ last ∧ last ≤ script.length := by
  refine ⟨fun items short => calls_build short items rfl (Nat.zero_le _), fun _ _ _ read => (getOp2_some read).2, ?_⟩
  intro script ops last calls
  have whole := calls.reads (Nat.zero_le _)
  rwa [Nat.zero_add] at whole

def largestData : ScriptItem := .data (replicate (2 ^ 31 - 5) 0) (by rw [length_replicate]; decide)

/-- Of a script of 2^31 bytes the end lies before the beginning. -/
theorem getOp2_long {script : CScript} (long : script.length = 2 ^ 31) : getOp2 script 0 = none := by
  unfold getOp2 endOf
  rw [long, if_pos (by decide)]

theorem largest_data_unread : ¬ ∀ items, Calls (build items) 0 (items.map read) (build items).length := by
  intro reads
  obtain ⟨next, read, -⟩ := reads [largestData]
  have length : (build [largestData]).length = 2 ^ 31 := by
    unfold build largestData
    rw [flatMap_cons, flatMap_nil, append_nil, write, pushData, length_append, length_replicate, pushHeader,
      if_neg (by decide), if_neg (by decide), if_neg (by decide), length_cons, length_littleBytes]
    norm_num
  rw [getOp2_long length] at read
  cases read

end Longcoin.Standard

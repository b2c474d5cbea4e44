import Longcoin.Interpreter

/-! The instructions of a script, and the scripts that `Solver` has a template for. -/

namespace Longcoin.Standard
open Primitives Script LongData Interpreter List Option

/-- The instructions of a script, each an opcode and its data, and the bytes after them. -/
def Reads : CScript → List (UInt8 × List UInt8) → CScript → Prop
  | pc, [], rest => pc = rest
  | pc, op :: ops, rest => ∃ next, getOp pc = some (op.1, op.2, next) ∧ Reads next ops rest

variable {rest : CScript} {ops : List (UInt8 × List UInt8)}

theorem Reads.append {pc middle : CScript} {more : List (UInt8 × List UInt8)} (reads : Reads pc ops middle)
    (readsMore : Reads middle more rest) : Reads pc (ops ++ more) rest := by
  induction ops generalizing pc with
  | nil =>
    rw [Reads] at reads
    rw [reads]
    exact readsMore
  | cons op ops ih =>
    obtain ⟨next, read, reads⟩ := reads
    exact ⟨next, read, ih reads⟩

theorem Reads.split {pc : CScript} {more : List (UInt8 × List UInt8)} (reads : Reads pc (ops ++ more) rest) :
    ∃ middle, Reads pc ops middle ∧ Reads middle more rest := by
  induction ops generalizing pc with
  | nil => exact ⟨pc, rfl, reads⟩
  | cons op ops ih =>
    obtain ⟨next, read, reads⟩ := reads
    obtain ⟨middle, front, back⟩ := ih reads
    exact ⟨middle, ⟨next, read, front⟩, back⟩

section

variable {pc : CScript} {op : UInt8 × List UInt8 × CScript} (read : getOp pc = some op)
include read

theorem getOp_suffix : ∃ front, front ≠ [] ∧ pc = front ++ op.2.2 := by
  cases pc with
  | nil => cases read
  | cons opcode pc =>
    by_cases isPush : opcode ≤ OP_PUSHDATA4
    · obtain ⟨nSize, -, -, rfl⟩ := getOp_cons_push isPush read
      refine ⟨opcode :: pc.take (sizeBytes opcode + nSize), cons_ne_nil _ _, ?_⟩
      simp only [drop_drop, cons_append, take_append_drop]
    · rw [getOp, if_neg isPush] at read
      rw [← some.inj read]
      exact ⟨[opcode], cons_ne_nil _ _, rfl⟩

theorem head_getOp : pc.head? = some op.1 := by
  cases pc with
  | nil => cases read
  | cons opcode pc =>
    by_cases isPush : opcode ≤ OP_PUSHDATA4
    · obtain ⟨nSize, -, -, rfl⟩ := getOp_cons_push isPush read
      rfl
    · rw [getOp, if_neg isPush] at read
      rw [← some.inj read]
      rfl

theorem length_getOp : op.2.2.length < pc.length := by
  obtain ⟨front, nonempty, rfl⟩ := getOp_suffix read
  have := length_pos_iff.mpr nonempty
  rw [length_append]
  omega

end

theorem Reads.length_le {pc : CScript} (reads : Reads pc ops rest) : ops.length ≤ pc.length := by
  induction ops generalizing pc with
  | nil => exact Nat.zero_le _
  | cons op ops ih =>
    obtain ⟨next, read, reads⟩ := reads
    exact Nat.succ_le_of_lt (Nat.lt_of_le_of_lt (ih reads) (length_getOp read))

theorem getOp_length_le {pc : CScript} {op : UInt8 × List UInt8 × CScript} (read : getOp pc = some op) :
    pc.length ≤ op.2.2.length + op.2.1.length + 5 := by
  cases pc with
  | nil => exact Nat.zero_le _
  | cons opcode pc =>
    by_cases isPush : opcode ≤ OP_PUSHDATA4
    · obtain ⟨nSize, -, enough, rfl⟩ := getOp_cons_push isPush read
      have few : sizeBytes opcode ≤ 4 := by
        unfold sizeBytes
        split_ifs <;> decide
      simp only [length_cons, length_drop, length_take]
      omega
    · rw [getOp, if_neg isPush] at read
      rw [← some.inj read]
      simp only [length_cons, length_nil]
      omega

theorem Reads.length_le_data {pc : CScript} {most : Nat} (reads : Reads pc ops rest) (small : ∀ op ∈ ops, op.2.length ≤ most) :
    pc.length ≤ rest.length + ops.length * (most + 5) := by
  induction ops generalizing pc with
  | nil =>
    rw [Reads] at reads
    rw [reads]
    exact Nat.le_add_right _ _
  | cons op ops ih =>
    obtain ⟨next, read, reads⟩ := reads
    have later := ih reads (forall_mem_cons.mp small).2
    have first : pc.length ≤ next.length + op.2.length + 5 := getOp_length_le read
    have data := small op mem_cons_self
    rw [length_cons, Nat.succ_mul]
    omega

theorem getOp_plain {pc : CScript} {op : UInt8 × List UInt8 × CScript} (read : getOp pc = some op)
    (plain : ¬ op.1 ≤ OP_PUSHDATA4) : op.2.1 = [] := by
  cases pc with
  | nil => cases read
  | cons opcode pc =>
    by_cases isPush : opcode ≤ OP_PUSHDATA4
    · obtain ⟨nSize, -, -, rfl⟩ := getOp_cons_push isPush read
      exact absurd isPush plain
    · rw [getOp, if_neg isPush] at read
      rw [← some.inj read]

theorem getOp_isPush {pc : CScript} {op : UInt8 × List UInt8 × CScript} (read : getOp pc = some op) (data : op.2.1 ≠ []) :
    op.1 ≤ OP_PUSHDATA4 := by
  by_contra plain
  exact data (getOp_plain read plain)

theorem Reads.read {pc : CScript} {op : UInt8 × List UInt8} (reads : Reads pc ops rest) (member : op ∈ ops) :
    ∃ later next, getOp later = some (op.1, op.2, next) := by
  induction ops generalizing pc with
  | nil => cases member
  | cons first ops ih =>
    obtain ⟨next, read, reads⟩ := reads
    rcases mem_cons.mp member with rfl | member
    · exact ⟨pc, next, read⟩
    · exact ih reads member

theorem Reads.isPush {pc : CScript} {op : UInt8 × List UInt8} (reads : Reads pc ops rest) (member : op ∈ ops)
    (data : op.2 ≠ []) : op.1 ≤ OP_PUSHDATA4 := by
  obtain ⟨later, next, read⟩ := reads.read member
  exact getOp_isPush read data

theorem getOp_zero {pc : CScript} {op : UInt8 × List UInt8 × CScript} (read : getOp pc = some op) (zero : op.1 = OP_0) :
    op.2.1 = [] := by
  cases pc with
  | nil => cases read
  | cons opcode pc =>
    have first : opcode = op.1 := some.inj (head_getOp read)
    rw [first, zero] at read
    obtain ⟨nSize, sized, -, rfl⟩ := getOp_cons_push (show OP_0 ≤ OP_PUSHDATA4 by decide) read
    have none : pushSize OP_0 pc = some 0 := rfl
    rw [none] at sized
    rw [← some.inj sized]
    rfl

def minimalOp (op : UInt8 × List UInt8) : Bool := !decide (op.1 ≤ OP_PUSHDATA4) || checkMinimalPush op.2 op.1

def passes (flags : Nat) (op : UInt8 × List UInt8) : Bool := !has flags SCRIPT_VERIFY_MINIMALDATA || minimalOp op

theorem passes_standard : passes STANDARD_SCRIPT_VERIFY_FLAGS = minimalOp := by
  funext op
  unfold passes
  have asked : has STANDARD_SCRIPT_VERIFY_FLAGS SCRIPT_VERIFY_MINIMALDATA = true := by decide
  rw [asked]
  rfl

def minimalTurns : Nat → CScript → Bool
  | 0, pc => pc.isEmpty
  | turns + 1, pc => pc.isEmpty || (getOp pc).any fun op => minimalOp (op.1, op.2.1) && minimalTurns turns op.2.2

def minimalPushes (script : CScript) : Bool := minimalTurns script.length script

variable {turns : Nat}

theorem minimalTurns_reads {pc : CScript} (reads : Reads pc ops []) (enough : pc.length ≤ turns) :
    minimalTurns turns pc = ops.all minimalOp := by
  induction ops generalizing turns pc with
  | nil =>
    rw [Reads] at reads
    subst reads
    cases turns <;> rfl
  | cons op ops ih =>
    obtain ⟨next, read, reads⟩ := reads
    have shorter : next.length < pc.length := length_getOp read
    obtain ⟨turns, rfl⟩ : ∃ less, turns = less + 1 := ⟨turns - 1, by omega⟩
    have nonempty : pc.isEmpty = false := by
      rw [isEmpty_eq_false_iff]
      rintro rfl
      cases shorter
    rw [minimalTurns, nonempty, Bool.false_or, read, any_some, ih reads (by omega), all_cons]

variable {script : CScript}

theorem minimalPushes_reads (reads : Reads script ops []) :
    minimalPushes script = ops.all minimalOp := minimalTurns_reads reads (Nat.le_refl _)

theorem dropCopies_fresh {b pc : CScript} (fresh : ¬ b <+: pc) (turns : Nat) : dropCopies b turns pc = pc := by
  cases turns with
  | zero => rfl
  | succ turns => rw [dropCopies, if_neg (by rwa [ isPrefixOf_iff_prefix])]

theorem push_not_prefix {pc sig : CScript} {op : UInt8 × List UInt8 × CScript} (read : getOp pc = some op)
    (size : pc.length < 2 ^ 32) (fresh : op.2.1 ≠ sig) : ¬ pushData sig <+: pc := by
  rintro ⟨rest, rfl⟩
  obtain ⟨opcode, -, there⟩ := getOp_pushData sig rest (by rw [pushData, length_append, length_append] at size; omega)
  rw [there] at read
  exact fresh (by rw [← some.inj read])

theorem deleteTurns_absent {b pc : CScript} (reads : Reads pc ops [])
    (absent : ∀ op ∈ ops, ∀ later next, getOp later = some (op.1, op.2, next) → later.length ≤ pc.length → ¬ b <+: later) :
    deleteTurns b turns pc = pc := by
  induction turns generalizing pc ops with
  | zero => rfl
  | succ turns ih =>
    cases ops with
    | nil =>
      rw [Reads] at reads
      subst reads
      rfl
    | cons op ops =>
      obtain ⟨next, read, reads⟩ := reads
      obtain ⟨front, -, whole⟩ := getOp_suffix read
      have left : next.length ≤ pc.length := Nat.le_of_lt (length_getOp read)
      have here := absent op mem_cons_self pc next read (Nat.le_refl _)
      have taken : pc.take (pc.length - next.length) = front := by
        rw [whole, length_append, Nat.add_sub_cancel, take_left]
      have rest : deleteTurns b turns next = next := by
        apply ih reads
        intro op member later follows readLater shorter
        exact absent op (mem_cons_of_mem _ member) later follows readLater (Nat.le_trans shorter left)
      rw [deleteTurns, dropCopies_fresh here, read, elim_some, rest, taken]
      exact whole.symm

theorem findAndDelete_absent {b : CScript} (reads : Reads script ops [])
    (absent : ∀ op ∈ ops, ∀ later next, getOp later = some (op.1, op.2, next) → later.length ≤ script.length → ¬ b <+: later) :
    findAndDelete script b = script := by
  rw [findAndDelete]
  split
  · rfl
  · exact deleteTurns_absent reads absent

theorem findAndDelete_reads {sig : CScript} (reads : Reads script ops []) (size : script.length < 2 ^ 32)
    (fresh : ∀ op ∈ ops, op.2 ≠ sig) : findAndDelete script (pushData sig) = script := by
  apply findAndDelete_absent reads
  intro op member later next read shorter
  exact push_not_prefix read (Nat.lt_of_le_of_lt shorter size) (fresh op member)

theorem findAndDelete_empty (reads : Reads script ops []) (pushes : ∀ op ∈ ops, op.1 ≠ OP_0) :
    findAndDelete script (pushData []) = script := by
  apply findAndDelete_absent reads
  intro op member later next read _ starts
  obtain ⟨rest, whole⟩ := starts
  have first := head_getOp read
  rw [← whole] at first
  exact pushes op member (some.inj first).symm

theorem matchOp_same {opcode1 opcode2 : UInt8} {vch1 : List UInt8} {vSolutions next : List (List UInt8)}
    (fixed : ¬ (opcode2 = OP_PUBKEY ∨ (opcode2 = OP_PUBKEYHASH ∨ opcode2 = OP_SCRIPTHASH) ∨ opcode2 = OP_SMALLINTEGER))
    (accepted : matchOp opcode1 vch1 opcode2 [] vSolutions = some next) :
    opcode1 = opcode2 ∧ vch1 = [] ∧ next = vSolutions := by
  rw [not_or, not_or] at fixed
  rw [matchOp, if_neg fixed.1, if_neg fixed.2.1, if_neg fixed.2.2] at accepted
  split at accepted
  · cases accepted
  · next same =>
    rw [not_or, not_not, not_not] at same
    exact ⟨same.1, same.2, (some.inj accepted).symm⟩

section

variable {opcode1 : UInt8} {vch1 vch2 : List UInt8} {vSolutions next : List (List UInt8)}

theorem matchOp_pubKey (accepted : matchOp opcode1 vch1 OP_PUBKEY vch2 vSolutions = some next) :
    33 ≤ vch1.length ∧ vch1.length ≤ 65 ∧ next = vSolutions ++ [vch1] := by
  rw [matchOp, if_pos rfl] at accepted
  split at accepted
  · cases accepted
  · exact ⟨by omega, by omega, (some.inj accepted).symm⟩

theorem matchOp_pubKeyHash (accepted : matchOp opcode1 vch1 OP_PUBKEYHASH vch2 vSolutions = some next) :
    vch1.length = 20 ∧ next = vSolutions ++ [vch1] := by
  rw [matchOp, if_neg (by decide), if_pos (by decide)] at accepted
  split at accepted
  · cases accepted
  · exact ⟨by omega, (some.inj accepted).symm⟩

theorem matchOp_smallInteger (accepted : matchOp opcode1 vch1 OP_SMALLINTEGER vch2 vSolutions = some next) :
    (opcode1 = OP_0 ∨ OP_1 ≤ opcode1 ∧ opcode1 ≤ OP_16) ∧ next = vSolutions ++ [[decodeOP_N opcode1]] := by
  rw [matchOp, if_neg (by decide), if_neg (by decide), if_pos rfl] at accepted
  split at accepted
  · next small => exact ⟨small, (some.inj accepted).symm⟩
  · cases accepted

end

variable {solutions : List (List UInt8)}

theorem matchTemplate_nil {pc : CScript} {vSolutions : List (List UInt8)}
    (matched : matchTemplate turns pc [] vSolutions = some solutions) : pc = [] ∧ vSolutions = solutions := by
  cases turns with
  | zero => cases matched
  | succ turns =>
    rw [matchTemplate] at matched
    split at matched
    · next ended =>
      rw [List.isEmpty_nil, Bool.and_true, List.isEmpty_iff] at ended
      exact ⟨ended, some.inj matched⟩
    · obtain ⟨op, -, matched⟩ := bind_eq_some_iff.mp matched
      cases matched

theorem matchTemplate_same {pc1 pc2 : CScript} {vSolutions : List (List UInt8)} {opcode2 : UInt8}
    (ordinary : opcode2 ≠ OP_PUBKEYS) (single : ¬ opcode2 ≤ OP_PUSHDATA4)
    (fixed : ¬ (opcode2 = OP_PUBKEY ∨ (opcode2 = OP_PUBKEYHASH ∨ opcode2 = OP_SCRIPTHASH) ∨ opcode2 = OP_SMALLINTEGER))
    (matched : matchTemplate (turns + 1) pc1 (opcode2 :: pc2) vSolutions = some solutions) :
    ∃ next, getOp pc1 = some (opcode2, [], next) ∧ matchTemplate turns next pc2 vSolutions = some solutions := by
  obtain ⟨op, next, read, accepted, rest⟩ := matchTemplate_succ ordinary single matched
  obtain ⟨opcode, data, same⟩ := matchOp_same fixed accepted
  rw [same] at rest
  exact ⟨op.2.2, by rw [read, ← opcode, ← data], rest⟩

theorem pubKey_shape (matched : matchTemplate 3 script [OP_PUBKEY, OP_CHECKSIG] [] = some solutions) :
    ∃ opcode key, solutions = [key] ∧ 33 ≤ key.length ∧ key.length ≤ 65 ∧
      Reads script [(opcode, key), (OP_CHECKSIG, [])] [] := by
  obtain ⟨op, first, read, accepted, matched⟩ := matchTemplate_succ (by decide) (by decide) matched
  obtain ⟨least, most, rfl⟩ := matchOp_pubKey accepted
  obtain ⟨next, readSig, matched⟩ := matchTemplate_same (by decide) (by decide) (by decide) matched
  obtain ⟨rfl, rfl⟩ := matchTemplate_nil matched
  exact ⟨op.1, op.2.1, rfl, least, most, _, read, _, readSig, rfl⟩

theorem pubKeyHash_shape
    (matched : matchTemplate 6 script [OP_DUP, OP_HASH160, OP_PUBKEYHASH, OP_EQUALVERIFY, OP_CHECKSIG] [] = some solutions) :
    ∃ opcode hash, solutions = [hash] ∧ hash.length = 20 ∧
      Reads script [(OP_DUP, []), (OP_HASH160, []), (opcode, hash), (OP_EQUALVERIFY, []), (OP_CHECKSIG, [])] [] := by
  obtain ⟨next1, read1, matched⟩ := matchTemplate_same (by decide) (by decide) (by decide) matched
  obtain ⟨next2, read2, matched⟩ := matchTemplate_same (by decide) (by decide) (by decide) matched
  obtain ⟨op, third, read3, accepted, matched⟩ := matchTemplate_succ (by decide) (by decide) matched
  obtain ⟨length, rfl⟩ := matchOp_pubKeyHash accepted
  obtain ⟨next4, read4, matched⟩ := matchTemplate_same (by decide) (by decide) (by decide) matched
  obtain ⟨next5, read5, matched⟩ := matchTemplate_same (by decide) (by decide) (by decide) matched
  obtain ⟨rfl, rfl⟩ := matchTemplate_nil matched
  exact ⟨op.1, op.2.1, rfl, length, _, read1, _, read2, _, read3, _, read4, _, read5, rfl⟩

theorem takePubKeys_reads {pc : CScript} {op : UInt8 × List UInt8 × CScript} {vSolutions : List (List UInt8)}
    (read : getOp pc = some op) : (takePubKeys turns op vSolutions).1.1 = OP_INVALIDOPCODE ∨
      ∃ ops middle, (takePubKeys turns op vSolutions).2 = vSolutions ++ ops.map Prod.snd ∧
        (∀ key ∈ ops, 33 ≤ key.2.length ∧ key.2.length ≤ 65) ∧ Reads pc ops middle ∧
        getOp middle = some (takePubKeys turns op vSolutions).1 := by
  induction turns generalizing pc op vSolutions with
  | zero => exact .inr ⟨[], pc, (append_nil _).symm, nofun, rfl, read⟩
  | succ turns ih =>
    rw [takePubKeys]
    split
    · next size =>
      cases readNext : getOp op.2.2 with
      | none => exact .inl rfl
      | some next =>
        rw [elim_some]
        refine (ih readNext).imp_right ?_
        rintro ⟨ops, middle, solutions, sizes, reads, readMiddle⟩
        refine ⟨(op.1, op.2.1) :: ops, middle, ?_, ?_, ⟨_, read, reads⟩, readMiddle⟩
        · rw [solutions, map_cons, append_assoc]
          rfl
        · intro key member
          rcases mem_cons.mp member with rfl | member
          · exact size
          · exact sizes key member
    · exact .inr ⟨[], pc, (append_nil _).symm, nofun, rfl, read⟩

theorem multisig_shape
    (matched : matchTemplate 5 script [OP_SMALLINTEGER, OP_PUBKEYS, OP_SMALLINTEGER, OP_CHECKMULTISIG] [] = some solutions) :
    ∃ opM opN keys, (opM.1 = OP_0 ∨ OP_1 ≤ opM.1 ∧ opM.1 ≤ OP_16) ∧ (opN.1 = OP_0 ∨ OP_1 ≤ opN.1 ∧ opN.1 ≤ OP_16) ∧
      (∀ key ∈ keys, 33 ≤ key.2.length ∧ key.2.length ≤ 65) ∧
      solutions = [decodeOP_N opM.1] :: (keys.map Prod.snd ++ [[decodeOP_N opN.1]]) ∧
      Reads script (opM :: (keys ++ [opN, (OP_CHECKMULTISIG, [])])) [] := by
  obtain ⟨opM, first, readM, accepted, matched⟩ := matchTemplate_succ (by decide) (by decide) matched
  obtain ⟨smallM, rfl⟩ := matchOp_smallInteger accepted
  rw [matchTemplate, isEmpty_cons, Bool.and_false] at matched
  obtain ⟨keyOp, readKey, matched⟩ := bind_eq_some_iff.mp matched
  have pubKeys : getOp [OP_PUBKEYS, OP_SMALLINTEGER, OP_CHECKMULTISIG] =
      some (OP_PUBKEYS, [], [OP_SMALLINTEGER, OP_CHECKMULTISIG]) := by decide
  have small : getOp [OP_SMALLINTEGER, OP_CHECKMULTISIG] = some (OP_SMALLINTEGER, [], [OP_CHECKMULTISIG]) := by decide
  rw [pubKeys, bind_eq_bind, bind_some, if_pos rfl, small, bind_eq_bind, bind_some] at matched
  obtain ⟨second, accepted, matched⟩ := bind_eq_some_iff.mp matched
  obtain ⟨smallN, rfl⟩ := matchOp_smallInteger accepted
  obtain ⟨next, readSig, matched⟩ := matchTemplate_same (by decide) (by decide) (by decide) matched
  obtain ⟨rfl, rfl⟩ := matchTemplate_nil matched
  rcases takePubKeys_reads readKey with invalid | ⟨keys, middle, taken, sizes, reads, readN⟩
  · rw [invalid] at smallN
    exact absurd smallN (by decide)
  · refine ⟨(opM.1, opM.2.1), (_, _), keys, smallM, smallN, sizes, ?_, _, readM, reads.append ⟨_, readN, _, readSig, rfl⟩⟩
    rw [taken]
    simp

theorem multisigChecks_eq (m n : UInt8) (keys : List (List UInt8)) : multisigChecks ([m] :: (keys ++ [[n]])) =
    some (!(m < 1 || n < 1 || m > n || keys.length != n.toNat)) := by
  have last : ([m] :: (keys ++ [[n]])).getLast? = some [n] := by
    rw [← cons_append, getLast?_append]
    rfl
  have length : ([m] :: (keys ++ [[n]])).length - 2 = keys.length := by
    rw [length_cons, length_append, length_singleton]
    omega
  rw [multisigChecks, last, length]
  rfl

end Longcoin.Standard

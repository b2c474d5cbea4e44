import Longcoin.TransactionCodec
import Longcoin.StandardShape
import Mathlib.Data.List.GetD

/-! `SignatureHash` (`script/interpreter.cpp`) against the copy of the transaction that is edited and serialised
(`SignatureHashOld`, `test/sighash_tests.cpp`). -/

namespace Longcoin.SignatureHash
open Primitives Script Interpreter Serialize Library.Bytes Standard List Option

def SIGHASH_ALL : BitVec 32 := 1
def SIGHASH_NONE : BitVec 32 := 2
def SIGHASH_SINGLE : BitVec 32 := 3
def SIGHASH_ANYONECANPAY : BitVec 32 := 0x80

/-- Where `GetOp` leaves the iterator when there is no whole instruction. -/
def stoppedAt : CScript → CScript
  | [] => []
  | opcode :: pc => if (pushSize opcode pc).isSome then pc.drop (sizeBytes opcode) else pc

/-- `nCodeSeparators`. -/
def countSeparators : Nat → CScript → Nat
  | 0, _ => 0
  | turns + 1, it =>
    (getOp it).elim 0 fun op => (if op.1 = OP_CODESEPARATOR then 1 else 0) + countSeparators turns op.2.2

/-- What the second loop writes, and the rest of the script after it. -/
def writePieces : Nat → CScript → CScript → List UInt8
  | 0, _, _ => []
  | turns + 1, itBegin, it =>
    (getOp it).elim (itBegin.take (itBegin.length - (stoppedAt it).length)) fun op =>
      if op.1 = OP_CODESEPARATOR then itBegin.take (itBegin.length - op.2.2.length - 1) ++ writePieces turns op.2.2 op.2.2
      else writePieces turns itBegin op.2.2

structure CTransactionSignatureSerializer where
  txTo : CTransaction
  scriptCode : CScript
  nIn : Nat
  nHashType : BitVec 32

namespace CTransactionSignatureSerializer
variable (ser : CTransactionSignatureSerializer)

def fAnyoneCanPay : Bool := ser.nHashType &&& SIGHASH_ANYONECANPAY != 0

def fHashSingle : Bool := ser.nHashType &&& 0x1f == SIGHASH_SINGLE

def fHashNone : Bool := ser.nHashType &&& 0x1f == SIGHASH_NONE

def serializeScriptCode : List UInt8 :=
  writeCompactSize (ser.scriptCode.length - countSeparators (ser.scriptCode.length + 1) ser.scriptCode) ++
    writePieces (ser.scriptCode.length + 1) ser.scriptCode ser.scriptCode

/-- `txTo.vin[nInput]`, which is there. -/
def input (nInput : Nat) : CTxIn := ser.txTo.vin.getD nInput ⟨⟨0, 0⟩, [], 0⟩

/-- `txTo.vout[nOutput]`, which is there. -/
def output (nOutput : Nat) : CTxOut := ser.txTo.vout.getD nOutput .setNull

def serializeInput (nInput : Nat) : List UInt8 :=
  let nInput := if ser.fAnyoneCanPay then ser.nIn else nInput
  writeOutPoint (ser.input nInput).prevout ++
    (if nInput ≠ ser.nIn then writeByteVector [] else ser.serializeScriptCode) ++
    (if nInput ≠ ser.nIn ∧ (ser.fHashSingle || ser.fHashNone) = true then writeInt 4 0
    else littleBytes 4 (ser.input nInput).nSequence)

def serializeOutput (nOutput : Nat) : List UInt8 :=
  if ser.fHashSingle = true ∧ nOutput ≠ ser.nIn then writeTxOut .setNull else writeTxOut (ser.output nOutput)

/-- An `unsigned int`. -/
def nInputs : Nat := if ser.fAnyoneCanPay then 1 else ser.txTo.vin.length % 2 ^ 32

def nOutputs : Nat :=
  if ser.fHashNone then 0 else if ser.fHashSingle then (ser.nIn + 1) % 2 ^ 32 else ser.txTo.vout.length % 2 ^ 32

def serialize : List UInt8 :=
  writeInt 4 ser.txTo.nVersion ++ (writeCompactSize ser.nInputs ++ (List.range ser.nInputs).flatMap ser.serializeInput) ++
    (writeCompactSize ser.nOutputs ++ (List.range ser.nOutputs).flatMap ser.serializeOutput) ++
    littleBytes 4 ser.txTo.nLockTime

end CTransactionSignatureSerializer

/-- The bytes that `SignatureHash` hashes, unless it returns one. -/
def signatureHash (scriptCode : CScript) (txTo : CTransaction) (nIn : Nat) (nHashType : BitVec 32) : Option (List UInt8) :=
  if nIn ≥ txTo.vin.length then none
  else if nHashType &&& 0x1f = SIGHASH_SINGLE ∧ nIn ≥ txTo.vout.length then none
  else some ((CTransactionSignatureSerializer.mk txTo scriptCode nIn nHashType).serialize ++ littleBytes 4 nHashType.toNat)

/-- `CMutableTransaction`. -/
structure Copy where
  nVersion : Int
  vin : List CTxIn
  vout : List CTxOut
  nLockTime : Nat
deriving DecidableEq

def Copy.ofTransaction (tx : CTransaction) : Copy := ⟨tx.nVersion, tx.vin, tx.vout, tx.nLockTime⟩

def Copy.blankSignatures (txTmp : Copy) (nIn : Nat) (scriptCode : CScript) : Copy :=
  { txTmp with vin := (txTmp.vin.map fun txin => { txin with scriptSig := [] }).modify nIn fun txin => { txin with scriptSig := scriptCode } }

def Copy.freeSequences (txTmp : Copy) (nIn : Nat) : Copy :=
  { txTmp with vin := txTmp.vin.mapIdx fun i txin => if i ≠ nIn then { txin with nSequence := 0 } else txin }

/-- Only lock-in the txout payee at same index as txin. -/
def Copy.lockOutput (txTmp : Copy) (nOut : Nat) : Copy :=
  { txTmp with vout := (txTmp.vout.take (nOut + 1)).mapIdx fun i txout => if i < nOut then .setNull else txout }

def Copy.onlyInput (txTmp : Copy) (nIn : Nat) : Copy :=
  { txTmp with vin := (txTmp.vin.set 0 (txTmp.vin.getD nIn ⟨⟨0, 0⟩, [], 0⟩)).take 1 }

/-- Blank out some of the outputs; a single output must be there. -/
def Copy.blankOutputs (txTmp : Copy) (nIn : Nat) (nHashType : BitVec 32) : Option Copy :=
  if nHashType &&& 0x1f = SIGHASH_NONE then some ({ txTmp with vout := [] }.freeSequences nIn)
  else if nHashType &&& 0x1f = SIGHASH_SINGLE then
    if nIn ≥ txTmp.vout.length then none else some ((txTmp.lockOutput nIn).freeSequences nIn)
  else some txTmp

/-- The bytes that `SignatureHashOld` hashes, unless it returns one. -/
def signatureHashOld (scriptCode : CScript) (txTo : CTransaction) (nIn : Nat) (nHashType : BitVec 32) : Option (List UInt8) :=
  if nIn ≥ txTo.vin.length then none
  else
    let scriptCode := findAndDelete scriptCode [OP_CODESEPARATOR]
    let txTmp := (Copy.ofTransaction txTo).blankSignatures nIn scriptCode
    (txTmp.blankOutputs nIn nHashType).map fun txTmp =>
      let txTmp := if nHashType &&& SIGHASH_ANYONECANPAY ≠ 0 then txTmp.onlyInput nIn else txTmp
      writeTransaction txTmp.nVersion txTmp.vin txTmp.vout txTmp.nLockTime ++ littleBytes 4 nHashType.toNat

/-- A script, the same without its separators, and their number. -/
inductive Cleared : CScript → CScript → Nat → Prop
  | done : Cleared [] [] 0
  | separator {pc code : CScript} {count : Nat} (rest : Cleared pc code count) :
      Cleared (OP_CODESEPARATOR :: pc) code (count + 1)
  | instruction {front pc code : CScript} {opcode : UInt8} {data : List UInt8} {count : Nat}
      (read : getOp (front ++ pc) = some (opcode, data, pc)) (other : opcode ≠ OP_CODESEPARATOR)
      (rest : Cleared pc code count) : Cleared (front ++ pc) (front ++ code) count

theorem getOp_separator (pc : CScript) : getOp (OP_CODESEPARATOR :: pc) = some (OP_CODESEPARATOR, [], pc) := rfl

variable {pc : CScript}

theorem cleared_of_reads {ops : List (UInt8 × List UInt8)} (reads : Reads pc ops []) :
    ∃ code count, Cleared pc code count := by
  induction ops generalizing pc with
  | nil =>
    rw [Reads] at reads
    rw [reads]
    exact ⟨[], 0, .done⟩
  | cons op ops ih =>
    obtain ⟨next, read, reads⟩ := reads
    obtain ⟨code, count, rest⟩ := ih reads
    by_cases separator : op.1 = OP_CODESEPARATOR
    · have first := head_getOp read
      cases pc with
      | nil => cases read
      | cons opcode pc =>
        have same : opcode = OP_CODESEPARATOR := (some.inj first).trans separator
        rw [same, getOp_separator, some.injEq, Prod.mk.injEq, Prod.mk.injEq] at read
        rw [same, read.2.2]
        exact ⟨code, count + 1, .separator rest⟩
    · obtain ⟨front, -, whole⟩ := getOp_suffix read
      rw [whole] at read ⊢
      exact ⟨front ++ code, count, .instruction read separator rest⟩

variable {code : CScript} {count : Nat}

theorem Cleared.length (cleared : Cleared pc code count) : pc.length = code.length + count := by
  induction cleared with
  | done => rfl
  | separator rest ih =>
    rw [length_cons, ih]
    omega
  | instruction read other rest ih =>
    rw [length_append, length_append, ih]
    omega

theorem Cleared.count_eq {turns : Nat} (cleared : Cleared pc code count) (enough : pc.length < turns) :
    countSeparators turns pc = count := by
  obtain ⟨turns, rfl⟩ : ∃ less, turns = less + 1 := ⟨turns - 1, by omega⟩
  induction cleared generalizing turns with
  | done => rfl
  | separator rest ih =>
    rw [length_cons] at enough
    obtain ⟨turns, rfl⟩ : ∃ less, turns = less + 1 := ⟨turns - 1, by omega⟩
    rw [countSeparators, getOp_separator, elim_some, if_pos rfl, ih turns (by omega), Nat.add_comm]
  | @instruction front pc code opcode data count read other rest ih =>
    have shorter : pc.length < (front ++ pc).length := length_getOp read
    obtain ⟨turns, rfl⟩ : ∃ less, turns = less + 1 := ⟨turns - 1, by omega⟩
    rw [countSeparators, read, elim_some, if_neg other, ih turns (by omega), Nat.zero_add]

theorem Cleared.pieces {turns : Nat} (cleared : Cleared pc code count) (enough : pc.length < turns) (front : CScript) :
    writePieces turns (front ++ pc) pc = front ++ code := by
  obtain ⟨turns, rfl⟩ : ∃ less, turns = less + 1 := ⟨turns - 1, by omega⟩
  induction cleared generalizing turns front with
  | done =>
    change (front ++ []).take ((front ++ []).length - 0) = front ++ []
    rw [Nat.sub_zero, take_length]
  | @separator pc code count rest ih =>
    rw [length_cons] at enough
    obtain ⟨turns, rfl⟩ : ∃ less, turns = less + 1 := ⟨turns - 1, by omega⟩
    have piece : (front ++ OP_CODESEPARATOR :: pc).length - pc.length - 1 = front.length := by
      rw [length_append, length_cons]
      omega
    have later := ih [] turns (by omega)
    rw [writePieces, getOp_separator, elim_some, if_pos rfl, piece, take_left]
    exact congrArg (front ++ ·) later
  | @instruction between pc code opcode data count read other rest ih =>
    have shorter : pc.length < (between ++ pc).length := length_getOp read
    obtain ⟨turns, rfl⟩ : ∃ less, turns = less + 1 := ⟨turns - 1, by omega⟩
    rw [writePieces, read, elim_some, if_neg other, ← append_assoc, ih (front ++ between) turns (by omega),
      append_assoc]

theorem dropCopies_separator (turns : Nat) (pc : CScript) (enough : pc.length ≤ turns) :
    dropCopies [OP_CODESEPARATOR] turns pc = pc.dropWhile (· == OP_CODESEPARATOR) := by
  induction turns generalizing pc with
  | zero =>
    rw [length_eq_zero_iff.mp (Nat.le_zero.mp enough)]
    rfl
  | succ turns ih =>
    cases pc with
    | nil => rfl
    | cons opcode pc =>
      have enough : pc.length ≤ turns := Nat.le_of_succ_le_succ enough
      rw [dropCopies]
      by_cases separator : opcode = OP_CODESEPARATOR
      · rw [separator]
        exact ih pc enough
      · have different : (OP_CODESEPARATOR == opcode) = false := beq_false_of_ne (Ne.symm separator)
        rw [dropWhile_cons_of_neg (by simpa using separator), isPrefixOf, different, Bool.false_and,
          if_neg Bool.false_ne_true]

theorem Cleared.dropWhile (cleared : Cleared pc code count) : (pc.dropWhile (· == OP_CODESEPARATOR) = [] ∧ code = []) ∨
      ∃ front next rest op data less, pc.dropWhile (· == OP_CODESEPARATOR) = front ++ next ∧ code = front ++ rest ∧
        getOp (front ++ next) = some (op, data, next) ∧ Cleared next rest less := by
  induction cleared with
  | done => exact .inl ⟨rfl, rfl⟩
  | separator rest ih => exact ih
  | @instruction front pc code opcode data count read other rest ih =>
    have first := head_getOp read
    have same : (front ++ pc).dropWhile (· == OP_CODESEPARATOR) = front ++ pc := by
      cases whole : front ++ pc with
      | nil => rfl
      | cons byte rest =>
        rw [whole, head?_cons, some.injEq] at first
        exact dropWhile_cons_of_neg (by rw [first]; simpa using other)
    exact .inr ⟨front, pc, code, opcode, data, count, same, rfl, read, rest⟩

theorem Cleared.deleteTurns {turns : Nat} (cleared : Cleared pc code count) (enough : pc.length < turns) :
    deleteTurns [OP_CODESEPARATOR] turns pc = code := by
  induction turns generalizing pc code count with
  | zero => cases enough
  | succ turns ih =>
    have fewer := (dropWhile_suffix (l := pc) (· == OP_CODESEPARATOR)).length_le
    rw [Interpreter.deleteTurns, dropCopies_separator _ _ (Nat.le_refl _)]
    rcases cleared.dropWhile with ⟨ended, empty⟩ | ⟨front, next, rest, op, data, less, kept, whole, read, later⟩
    · rw [ended, empty]
      rfl
    · rw [kept] at fewer ⊢
      have shorter : next.length < (front ++ next).length := length_getOp read
      have taken : (front ++ next).take ((front ++ next).length - next.length) = front := by
        rw [length_append, Nat.add_sub_cancel, take_left]
      rw [read, elim_some, taken, ih later (by omega), whole]

theorem Cleared.findAndDelete {script : CScript} (cleared : Cleared script code count) :
    findAndDelete script [OP_CODESEPARATOR] = code := by
  rw [Interpreter.findAndDelete, isEmpty_cons, if_neg Bool.false_ne_true]
  exact cleared.deleteTurns (Nat.lt_succ_self _)

open CTransactionSignatureSerializer

theorem serializeScriptCode_eq {ser : CTransactionSignatureSerializer} {ops : List (UInt8 × List UInt8)}
    (reads : Reads ser.scriptCode ops []) :
    ser.serializeScriptCode = writeByteVector (findAndDelete ser.scriptCode [OP_CODESEPARATOR]) := by
  obtain ⟨code, count, cleared⟩ := cleared_of_reads reads
  have length := cleared.length
  have left : ser.scriptCode.length - count = code.length := by omega
  unfold serializeScriptCode writeByteVector
  rw [cleared.findAndDelete, cleared.count_eq (Nat.lt_succ_self _), left]
  exact congrArg (writeCompactSize code.length ++ ·) (cleared.pieces (Nat.lt_succ_self _) [])

namespace CTransactionSignatureSerializer
variable (ser : CTransactionSignatureSerializer)

def editedInput (i : Nat) : CTxIn where
  prevout := (ser.input i).prevout
  scriptSig := if i = ser.nIn then Interpreter.findAndDelete ser.scriptCode [OP_CODESEPARATOR] else []
  nSequence := if i ≠ ser.nIn ∧ (ser.fHashSingle || ser.fHashNone) = true then 0 else (ser.input i).nSequence

def editedOutput (i : Nat) : CTxOut := if ser.fHashSingle = true ∧ i ≠ ser.nIn then .setNull else ser.output i

variable {ser}

theorem serializeInput_eq {ops : List (UInt8 × List UInt8)} (reads : Reads ser.scriptCode ops []) (i : Nat) :
    ser.serializeInput i = writeTxIn (ser.editedInput (if ser.fAnyoneCanPay then ser.nIn else i)) := by
  unfold serializeInput
  generalize (if ser.fAnyoneCanPay = true then ser.nIn else i) = place
  unfold editedInput writeTxIn
  by_cases same : place = ser.nIn
  · simp only [same, ne_eq, not_true_eq_false, if_false, false_and, if_true, serializeScriptCode_eq reads]
  · have zero : writeInt 4 0 = littleBytes 4 0 := rfl
    simp only [same, ne_eq, not_false_eq_true, if_true, true_and, if_false, zero]
    split <;> rfl

theorem serializeOutput_eq (i : Nat) : ser.serializeOutput i = writeTxOut (ser.editedOutput i) := by
  unfold serializeOutput editedOutput
  split <;> rfl

theorem serialize_eq {ops : List (UInt8 × List UInt8)} (reads : Reads ser.scriptCode ops []) :
    ser.serialize = writeTransaction ser.txTo.nVersion
      ((range ser.nInputs).map fun i => ser.editedInput (if ser.fAnyoneCanPay then ser.nIn else i))
      ((range ser.nOutputs).map ser.editedOutput) ser.txTo.nLockTime := by
  have inputs : ser.serializeInput = fun i => writeTxIn (ser.editedInput (if ser.fAnyoneCanPay then ser.nIn else i)) :=
    funext (serializeInput_eq reads)
  have outputs : ser.serializeOutput = fun i => writeTxOut (ser.editedOutput i) := funext serializeOutput_eq
  unfold serialize writeTransaction writeVector
  rw [inputs, outputs, length_map, length_range, length_map, length_range, flatMap_map, flatMap_map]

end CTransactionSignatureSerializer

theorem map_range_getD {α : Type} (items : List α) (default : α) :
    (range items.length).map (fun i => items.getD i default) = items := by
  apply ext_getElem
  · rw [length_map, length_range]
  · intro i _ inside
    rw [getElem_map, getElem_range, getD_eq_getElem _ _ inside]

section Copies
variable (ser : CTransactionSignatureSerializer)

def blanked : Copy :=
  (Copy.ofTransaction ser.txTo).blankSignatures ser.nIn (findAndDelete ser.scriptCode [OP_CODESEPARATOR])

variable {ser}

open Copy

theorem vin_blanked (all : ser.fHashSingle = false) (notNone : ser.fHashNone = false) :
    (blanked ser).vin = (range ser.txTo.vin.length).map ser.editedInput := by
  apply ext_getElem
  · simp [blanked, blankSignatures, ofTransaction]
  · intro i inside inRange
    have there : i < ser.txTo.vin.length := by simpa using inRange
    have read : ser.input i = ser.txTo.vin[i] := getD_eq_getElem _ _ there
    rw [getElem_map, getElem_range]
    simp only [editedInput, all, notNone, read, blanked, blankSignatures, ofTransaction,
      getElem_modify, getElem_map]
    by_cases same : ser.nIn = i
    · simp [same]
    · simp [same, Ne.symm same]

theorem vin_freeSequences (free : (ser.fHashSingle || ser.fHashNone) = true) {txTmp : Copy} (vin : txTmp.vin = (blanked ser).vin) :
    (txTmp.freeSequences ser.nIn).vin = (range ser.txTo.vin.length).map ser.editedInput := by
  unfold freeSequences
  rw [vin]
  apply ext_getElem
  · simp [blanked, blankSignatures, ofTransaction]
  · intro i inside inRange
    have there : i < ser.txTo.vin.length := by simpa using inRange
    have read : ser.input i = ser.txTo.vin[i] := getD_eq_getElem _ _ there
    rw [getElem_map, getElem_range]
    simp only [editedInput, free, read, blanked, blankSignatures, ofTransaction,
      getElem_mapIdx, getElem_modify, getElem_map]
    by_cases same : ser.nIn = i
    · simp [same]
    · simp [same, Ne.symm same]

theorem vout_lockOutput (inside : ser.nIn < ser.txTo.vout.length) (single : ser.fHashSingle = true) :
    ((blanked ser).lockOutput ser.nIn).vout = (List.range (ser.nIn + 1)).map ser.editedOutput := by
  change (ser.txTo.vout.take (ser.nIn + 1)).mapIdx _ = _
  apply ext_getElem
  · simp
    omega
  · intro i inTaken inRange
    have below : i < ser.nIn + 1 := by simpa using inRange
    have there : i < ser.txTo.vout.length := by omega
    have read : ser.output i = ser.txTo.vout[i] := getD_eq_getElem _ _ there
    rw [getElem_map, getElem_range, getElem_mapIdx, getElem_take]
    unfold editedOutput
    rw [read, single]
    by_cases before : i < ser.nIn
    · rw [if_pos before, if_pos ⟨rfl, by omega⟩]
    · rw [if_neg before, if_neg (by omega)]

theorem vin_onlyInput {txTmp : Copy} {inputs : List CTxIn} (vin : txTmp.vin = inputs) {nIn : Nat} (inside : nIn < inputs.length) :
    (txTmp.onlyInput nIn).vin = [inputs[nIn]] := by
  unfold onlyInput
  rw [vin, getD_eq_getElem _ _ inside]
  cases inputs with
  | nil => cases inside
  | cons first rest => rfl

/-- The copy whose inputs and outputs are those of the serialiser. -/
def CTransactionSignatureSerializer.copy (ser : CTransactionSignatureSerializer) : Copy where
  nVersion := ser.txTo.nVersion
  vin := (List.range ser.txTo.vin.length).map ser.editedInput
  vout := (List.range ser.nOutputs).map ser.editedOutput
  nLockTime := ser.txTo.nLockTime

theorem copy_ext {first second : Copy} (version : first.nVersion = second.nVersion) (vin : first.vin = second.vin)
    (vout : first.vout = second.vout) (lockTime : first.nLockTime = second.nLockTime) : first = second := by
  cases first
  cases second
  simp_all

theorem blankOutputs_eq (inside : ser.nIn < ser.txTo.vin.length) (inputs : ser.txTo.vin.length < 2 ^ 32)
    (outputs : ser.txTo.vout.length < 2 ^ 32) : (blanked ser).blankOutputs ser.nIn ser.nHashType =
      if ser.nHashType &&& 0x1f = SIGHASH_SINGLE ∧ ser.nIn ≥ ser.txTo.vout.length then none else some ser.copy := by
  unfold blankOutputs
  by_cases none : ser.nHashType &&& 0x1f = SIGHASH_NONE
  · have isNone : ser.fHashNone = true := beq_iff_eq.mpr none
    have notSingle : ¬ ser.nHashType &&& 0x1f = SIGHASH_SINGLE := by
      rw [none]
      decide
    rw [if_pos none, if_neg fun both => notSingle both.1]
    congr 1
    apply copy_ext
    · rfl
    · exact vin_freeSequences (by rw [isNone, Bool.or_true]) rfl
    · unfold copy nOutputs
      rw [isNone]
      rfl
    · rfl
  · have notNone : ser.fHashNone = false := beq_false_of_ne none
    rw [if_neg none]
    by_cases single : ser.nHashType &&& 0x1f = SIGHASH_SINGLE
    · have isSingle : ser.fHashSingle = true := beq_iff_eq.mpr single
      rw [if_pos single]
      change (if ser.nIn ≥ ser.txTo.vout.length then _ else _) = _
      by_cases missing : ser.nIn ≥ ser.txTo.vout.length
      · rw [if_pos missing, if_pos ⟨single, missing⟩]
      · rw [if_neg missing, if_neg fun both => missing both.2]
        congr 1
        apply copy_ext
        · rfl
        · exact vin_freeSequences (by rw [isSingle, Bool.true_or]) rfl
        · have count : ser.nOutputs = ser.nIn + 1 := by
            unfold nOutputs
            rw [notNone, isSingle, if_neg Bool.false_ne_true, if_pos rfl, Nat.mod_eq_of_lt (by omega)]
          unfold copy
          rw [count]
          exact vout_lockOutput (Nat.not_le.mp missing) isSingle
        · rfl
    · have notSingle : ser.fHashSingle = false := beq_false_of_ne single
      rw [if_neg single, if_neg fun both => single both.1]
      congr 1
      apply copy_ext
      · rfl
      · exact vin_blanked notSingle notNone
      · have every : ser.editedOutput = fun i => ser.txTo.vout.getD i .setNull := by
          funext i
          unfold editedOutput
          rw [notSingle, if_neg fun both => Bool.false_ne_true both.1]
          rfl
        unfold copy nOutputs
        rw [notNone, notSingle, every, if_neg Bool.false_ne_true, if_neg Bool.false_ne_true, Nat.mod_eq_of_lt outputs,
          map_range_getD]
        rfl
      · rfl

theorem serialize_copy {ops : List (UInt8 × List UInt8)} (reads : Reads ser.scriptCode ops [])
    (inside : ser.nIn < ser.txTo.vin.length) (inputs : ser.txTo.vin.length < 2 ^ 32) {txTmp : Copy}
    (edited : txTmp = if ser.nHashType &&& SIGHASH_ANYONECANPAY ≠ 0 then ser.copy.onlyInput ser.nIn else ser.copy) :
    ser.serialize = writeTransaction txTmp.nVersion txTmp.vin txTmp.vout txTmp.nLockTime := by
  rw [serialize_eq reads, edited]
  unfold nInputs
  by_cases anyone : ser.nHashType &&& SIGHASH_ANYONECANPAY = 0
  · have every : ser.fAnyoneCanPay = false := by
      unfold fAnyoneCanPay
      rw [anyone]
      rfl
    simp only [anyone, ne_eq, not_true_eq_false, if_false, every, Bool.false_eq_true, Nat.mod_eq_of_lt inputs]
    rfl
  · have only : ser.fAnyoneCanPay = true := bne_iff_ne.mpr anyone
    have bound : ser.nIn < ser.copy.vin.length := by
      unfold copy
      rw [length_map, length_range]
      exact inside
    have one := @vin_onlyInput ser.copy _ rfl ser.nIn bound
    have edited : ser.copy.vin[ser.nIn] = ser.editedInput ser.nIn := by simp [copy]
    rw [edited] at one
    simp only [anyone, ne_eq, not_false_eq_true, if_true, only, one, range_one, map_cons, map_nil]
    rfl

end Copies

/-- Hashing in place is hashing the edited copy: the same bytes, and one for the same arguments. The counts of the
inputs and outputs are written as an `unsigned int`. -/
theorem signatureHash_eq_old (scriptCode : CScript) (txTo : CTransaction) (nIn : Nat) (nHashType : BitVec 32)
    (decodes : ∃ ops, Reads scriptCode ops []) (inputs : txTo.vin.length < 2 ^ 32) (outputs : txTo.vout.length < 2 ^ 32) :
    signatureHash scriptCode txTo nIn nHashType = signatureHashOld scriptCode txTo nIn nHashType := by
  obtain ⟨ops, reads⟩ := decodes
  unfold signatureHash signatureHashOld
  by_cases outside : nIn ≥ txTo.vin.length
  · rw [if_pos outside, if_pos outside]
  · have inside : nIn < txTo.vin.length := Nat.not_le.mp outside
    have edited := @blankOutputs_eq ⟨txTo, scriptCode, nIn, nHashType⟩ inside inputs outputs
    rw [if_neg outside, if_neg outside]
    change _ = ((blanked ⟨txTo, scriptCode, nIn, nHashType⟩).blankOutputs nIn nHashType).map _
    rw [edited]
    dsimp only
    split
    · rfl
    · rw [map_some, @serialize_copy ⟨txTo, scriptCode, nIn, nHashType⟩ ops reads inside inputs _ rfl]

/-- An input that spends nothing and a number of empty outputs. -/
def manyOutputs (count : Nat) : CTransaction where
  hash := 0
  vin := [⟨⟨0, 0⟩, [], 0⟩]
  vout := List.replicate count ⟨0, []⟩

theorem signatureHash_eq_old_anyone :
    signatureHash [OP_CODESEPARATOR, OP_CHECKSIG] (manyOutputs 2) 0 (SIGHASH_SINGLE ||| SIGHASH_ANYONECANPAY) =
      signatureHashOld [OP_CODESEPARATOR, OP_CHECKSIG] (manyOutputs 2) 0 (SIGHASH_SINGLE ||| SIGHASH_ANYONECANPAY) :=
  signatureHash_eq_old _ _ _ _ ⟨[(OP_CODESEPARATOR, []), (OP_CHECKSIG, [])], [OP_CHECKSIG], rfl, [], rfl, rfl⟩ (by decide) (by decide)

theorem nOutputs_manyOutputs (count : Nat) : (mk (manyOutputs count) [] 0 SIGHASH_ALL).nOutputs = count % 2 ^ 32 := by
  have notNone : (mk (manyOutputs count) [] 0 SIGHASH_ALL).fHashNone = false :=
    show (SIGHASH_ALL &&& 0x1f == SIGHASH_NONE) = false by decide
  have notSingle : (mk (manyOutputs count) [] 0 SIGHASH_ALL).fHashSingle = false :=
    show (SIGHASH_ALL &&& 0x1f == SIGHASH_SINGLE) = false by decide
  have outputs : (manyOutputs count).vout.length = count := length_replicate
  unfold nOutputs
  rw [notNone, notSingle, if_neg Bool.false_ne_true, if_neg Bool.false_ne_true, outputs]

theorem signatureHash_manyOutputs (wraps : count % 2 ^ 32 = 0) :
    ∃ bytes, signatureHash [] (manyOutputs count) 0 SIGHASH_ALL = some bytes ∧ bytes.length < 2 ^ 32 := by
  refine ⟨_, if_neg (Nat.not_succ_le_zero 0) |>.trans (if_neg fun both => absurd both.1 (by decide)), ?_⟩
  unfold serialize
  rw [nOutputs_manyOutputs, wraps]
  simp only [length_append, length_writeInt, length_littleBytes, range_zero, flatMap_nil, length_nil]
  have every : (mk (manyOutputs count) [] 0 SIGHASH_ALL).fAnyoneCanPay = false :=
    show (SIGHASH_ALL &&& SIGHASH_ANYONECANPAY != 0) = false by decide
  have one : (mk (manyOutputs count) [] 0 SIGHASH_ALL).nInputs = 1 := by
    unfold nInputs
    rw [every]
    rfl
  have input : ((mk (manyOutputs count) [] 0 SIGHASH_ALL).serializeInput 0).length = 41 := by
    unfold serializeInput
    rw [every]
    rfl
  rw [one, range_one, flatMap_singleton, input]
  decide

theorem signatureHashOld_manyOutputs (count : Nat) :
    ∃ bytes, signatureHashOld [] (manyOutputs count) 0 SIGHASH_ALL = some bytes ∧ count ≤ bytes.length := by
  refine ⟨_, if_neg (Nat.not_succ_le_zero 0), ?_⟩
  have outputs : count ≤ ((replicate count (CTxOut.mk 0 [])).flatMap writeTxOut).length := by
    induction count with
    | zero => exact Nat.zero_le _
    | succ count ih =>
      have size : (writeTxOut ⟨0, []⟩).length = 9 := rfl
      rw [replicate_succ, flatMap_cons, length_append, size]
      omega
  change count ≤ (writeInt 4 1 ++ writeVector writeTxIn [⟨⟨0, 0⟩, [], 0⟩] ++
    (writeCompactSize (replicate count (CTxOut.mk 0 [])).length ++ (replicate count (CTxOut.mk 0 [])).flatMap writeTxOut) ++
    littleBytes 4 0 ++ littleBytes 4 SIGHASH_ALL.toNat).length
  simp only [length_append]
  omega

/-- The number of 2^32 outputs is written as zero. -/
theorem signatureHash_drops_outputs :
    signatureHash [] (manyOutputs (2 ^ 32)) 0 SIGHASH_ALL ≠ signatureHashOld [] (manyOutputs (2 ^ 32)) 0 SIGHASH_ALL := by
  obtain ⟨bytes, inPlace, few⟩ := signatureHash_manyOutputs (Nat.mod_self (2 ^ 32))
  obtain ⟨copied, edited, many⟩ := signatureHashOld_manyOutputs (2 ^ 32)
  rw [inPlace, edited]
  intro same
  rw [some.inj same] at few
  omega

end Longcoin.SignatureHash

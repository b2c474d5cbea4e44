import Longcoin.CombineSignatures

/-! Combining partial inputs of a multisignature script loses no signature. -/

namespace Longcoin.Sign
open Primitives Script LongData Standard Interpreter ScriptNum Library.Bytes Library.Outcome Library.Matching TxnOutType List Option

variable {checker : Checker}

theorem length_number {opcode : UInt8} (small : PushesNumber opcode) :
    (serialize ((opcode.toNat : Int) - (OP_1.toNat - 1))).length ≤ MAX_SCRIPT_PUSH_SIZE := by
  rcases small with rfl | ⟨least, most⟩
  · decide
  · obtain ⟨value, few⟩ := smallNumber least most
    rw [value]
    generalize (decodeOP_N opcode).toNat = number at few
    interval_cases number <;> decide

/-- Every item of a stack is one that a script may push. -/
def Pushed (stack : Stack) : Prop := ∀ item ∈ stack, item.length ≤ MAX_SCRIPT_PUSH_SIZE

variable {flags : Nat}

theorem pushed_execOp {opcode : UInt8} {data : List UInt8} {pc : CScript} {st st' : EvalState} (push : opcode ≤ OP_16)
    (exec : st.vfExec = []) (size : data.length ≤ MAX_SCRIPT_PUSH_SIZE)
    (done : execOp checker flags opcode data pc st = .ok st') (pushed : Pushed st.stack) :
    st'.vfExec = [] ∧ Pushed st'.stack := by
  have runs : st.fExec = true := by
    rw [EvalState.fExec, exec]
    rfl
  obtain ⟨value, rfl, pushes⟩ := execOp_push push runs done
  refine ⟨exec, fun item member => ?_⟩
  rcases mem_cons.mp member with rfl | older
  · rcases pushes with rfl | ⟨number, rfl⟩
    · exact size
    · exact length_number number
  · exact pushed item older

theorem evalStep_stackSize {opcode : UInt8} {data : List UInt8} {pc : CScript} {st : EvalState}
    (failed : evalStep checker flags opcode data pc st = .error (.error .STACK_SIZE)) : data.length ≤ MAX_SCRIPT_PUSH_SIZE := by
  by_contra large
  unfold evalStep check require at failed
  rw [decide_eq_false large] at failed
  cases failed

theorem pushed_leftTurns (turns : Nat) : ∀ (pc : CScript) (st : EvalState), pushOnlyTurns turns pc = true →
    st.vfExec = [] → Pushed st.stack → Pushed (leftTurns checker flags turns pc st) := by
  induction turns with
  | zero => exact fun _ _ _ _ pushed => pushed
  | succ turns ih =>
    intro pc st pushOnly exec pushed
    unfold leftTurns
    split
    · exact pushed
    · next more =>
      rw [pushOnlyTurns, Bool.or_eq_true] at pushOnly
      obtain ⟨op, read, pushOnly⟩ := (any_eq_true _ _).mp (pushOnly.resolve_left more)
      rw [Bool.and_eq_true, decide_eq_true_eq] at pushOnly
      rw [read, elim_some]
      split
      · next after step =>
        obtain ⟨-, size, nOpCount, done⟩ := evalStep_ok step
        have next := @pushed_execOp checker flags op.1 op.2.1 op.2.2 { st with nOpCount } after pushOnly.1 exec size done pushed
        exact ih op.2.2 after pushOnly.2 next.1 next.2
      · next failed =>
        split
        · next after done => exact (pushed_execOp pushOnly.1 exec (evalStep_stackSize failed) done pushed).2
        · exact pushed
      · exact pushed

theorem pushed_stackLeft {scriptSig : CScript} (pushOnly : isPushOnly scriptSig = true) : Pushed (stackLeft checker scriptSig) := by
  have empty : Pushed [] := nofun
  unfold stackLeft
  split
  · exact pushed_leftTurns _ _ _ pushOnly rfl empty
  · exact empty

theorem leftTurns_ok (turns : Nat) : ∀ (pc : CScript) (st last : EvalState),
    evalTurns checker flags turns pc st = .ok last → leftTurns checker flags turns pc st = last.stack := by
  induction turns with
  | zero =>
    intro pc st last done
    rw [← Except.ok.inj done]
    rfl
  | succ turns ih =>
    intro pc st last done
    unfold evalTurns at done
    unfold leftTurns
    split at done
    · next ended =>
      rw [if_pos ended, ← Except.ok.inj done]
    · next more =>
      rw [if_neg more]
      cases read : getOp pc with
      | none =>
        rw [read] at done
        cases done
      | some op =>
        rw [read, elim_some] at done
        obtain ⟨next, step, done⟩ := bind_ok.mp done
        simp only [elim_some, step]
        exact ih op.2.2 next last done

theorem stackLeft_ok {scriptSig : CScript} {stack : Stack}
    (done : evalScript (baseSignatureChecker checker) SCRIPT_VERIFY_STRICTENC [] scriptSig = .ok stack) :
    stackLeft checker scriptSig = stack := by
  unfold evalScript check at done
  obtain ⟨size, done⟩ := require_bind_ok.mp done
  obtain ⟨last, turns, done⟩ := bind_ok.mp done
  obtain ⟨-, done⟩ := require_bind_ok.mp done
  rw [stackLeft, if_pos (of_decide_eq_true size), ← pure_ok.mp done]
  apply leftTurns_ok
  cases run : evalTurns (baseSignatureChecker checker) SCRIPT_VERIFY_STRICTENC scriptSig.length scriptSig (.start [] scriptSig) with
  | error stop =>
    rw [EvalState.start] at run
    rw [run] at turns
    cases turns
  | ok st =>
    rw [EvalState.start] at run
    rw [run] at turns
    exact turns

/-- What pays to a script: the script itself, or the hash of it. The inputs of the latter end in the script. -/
inductive Wraps (checker : Checker) (script : CScript) : CScript → Stack → Prop where
  | plain : Wraps checker script script []
  | hash {scriptPubKey : CScript} (p2sh : CScript.isPayToScriptHash scriptPubKey = true)
      (hashed : range scriptPubKey 2 20 = some (checker.hash160 script)) : Wraps checker script scriptPubKey [script]

/-- An input of pushes. What it leaves, from the top of the stack down, is the redeem script if there is one, and signatures. -/
structure Carries (checker : Checker) (redeem : Stack) (scriptSig : CScript) (sigs : List (List UInt8)) : Prop where
  pushOnly : isPushOnly scriptSig = true
  left : stackLeft checker scriptSig = redeem ++ sigs

/-- `OP_0`, the signatures, an `OP_0` for each that is missing, and the redeem script if there is one. -/
def combinedScript (required : Nat) (sigs : List (List UInt8)) (redeem : Stack) : CScript :=
  OP_0 :: (pushAll sigs ++ List.replicate (required - sigs.length) OP_0 ++ pushAll redeem)

def combinedItems (required : Nat) (sigs : List (List UInt8)) : List (List UInt8) :=
  sigs ++ List.replicate (required - sigs.length) []

theorem pushAll_append (data more : List (List UInt8)) : pushAll (data ++ more) = pushAll data ++ pushAll more :=
  flatMap_append

theorem pushAll_replicate (count : Nat) : pushAll (replicate count []) = replicate count OP_0 := by
  induction count with
  | zero => rfl
  | succ count ih =>
    rw [replicate_succ, replicate_succ, ← ih]
    rfl

theorem combinedScript_eq (required : Nat) (sigs : List (List UInt8)) (redeem : Stack) :
    combinedScript required sigs redeem = pushAll (([] :: combinedItems required sigs) ++ redeem) := by
  rw [combinedScript, pushAll_append, combinedItems]
  have first : pushAll ([] :: (sigs ++ replicate (required - sigs.length) [])) =
      OP_0 :: pushAll (sigs ++ replicate (required - sigs.length) []) := rfl
  rw [first, pushAll_append, pushAll_replicate]
  rfl

section Multisig
variable {script scriptPubKey : CScript} {m n : UInt8} {keys sigs1 sigs2 : List (List UInt8)} {redeem : Stack}

def combinedSigs (checker : Checker) (script : CScript) (required : Nat) (keys sigs1 sigs2 : List (List UInt8)) :
    List (List UInt8) :=
  (keys.filterMap (sigsByKey checker script keys (allSigs sigs1 sigs2))).take required

theorem combineMultisig_eq (sigs1 sigs2 : List (List UInt8)) :
    combineMultisig checker script ([m] :: (keys ++ [[n]])) sigs1.reverse sigs2.reverse =
      some (combinedScript m.toNat (combinedSigs checker script m.toNat keys sigs1 sigs2) []) := by
  have several : ¬ ([m] :: (keys ++ [[n]])).length ≤ 1 := by
    simp only [length_cons, length_append]
    omega
  have pubKeys : (([m] :: (keys ++ [[n]])).drop 1).dropLast = keys := by
    rw [drop_succ_cons, drop_zero, dropLast_concat]
  have turned : allSigs sigs1.reverse sigs2.reverse = allSigs sigs1 sigs2 := allSigs_comm fun sig => by simp
  have none : pushAll [] = [] := rfl
  rw [combineMultisig, if_neg several, pubKeys, turned, combinedScript, none, append_nil]
  rfl

theorem combineStacks_multisig (sigs1 sigs2 : Stack) (vSolutions : List (List UInt8)) :
    combineStacks checker sigs1 sigs2 script .multisig vSolutions =
      combineMultisig checker script vSolutions sigs1.reverse sigs2.reverse := by
  cases sigs1 <;> rw [combineStacks]

theorem combineSignatures_eq {scriptSig1 scriptSig2 : CScript}
    (solved : solver script = some ⟨true, .multisig, [m] :: (keys ++ [[n]])⟩) (wraps : Wraps checker script scriptPubKey redeem)
    (holds1 : Carries checker redeem scriptSig1 sigs1) (holds2 : Carries checker redeem scriptSig2 sigs2) :
    combineSignatures checker scriptPubKey scriptSig1 scriptSig2 =
      some (combinedScript m.toNat (combinedSigs checker script m.toNat keys sigs1 sigs2) redeem) := by
  unfold combineSignatures
  rw [holds1.left, holds2.left]
  cases wraps with
  | plain =>
    rw [solved, bind_some, combineStacks_multisig]
    exact combineMultisig_eq sigs1 sigs2
  | hash p2sh hashed =>
    have outer : solver scriptPubKey = some ⟨true, .scriptHash, [checker.hash160 script]⟩ := by
      rw [solver, p2sh_plain p2sh, if_neg Bool.false_ne_true, if_pos p2sh, hashed]
      rfl
    have nonempty : script.isEmpty = false := by
      rw [isEmpty_eq_false_iff]
      rintro rfl
      have bare : solver [] = some ⟨false, .nonStandard, []⟩ := by decide
      rw [bare] at solved
      simp at solved
    rw [outer]
    change combineStacks checker (script :: sigs1) (script :: sigs2) scriptPubKey .scriptHash [checker.hash160 script] = _
    rw [combineStacks, nonempty, if_neg Bool.false_ne_true, headD_cons, nonempty, if_neg Bool.false_ne_true, solved]
    rw [bind_some, combineStacks_multisig, drop_succ_cons, drop_zero, combineMultisig_eq, map_some]
    apply congrArg some
    simp only [combinedScript, pushAll, flatMap_cons, flatMap_nil, append_nil, cons_append]

theorem multisig_solved (solved : solver script = some ⟨true, .multisig, [m] :: (keys ++ [[n]])⟩) :
    CScript.isPayToScriptHash script = false ∧ ∃ opM opN ops, decodeOP_N opM.1 = m ∧ ops.map Prod.snd = keys ∧
      MultisigOps script opM opN ops := by
  have plain : isReturnPush script = false := by
    rw [← Bool.not_eq_true]
    exact fun data => solver_return data solved rfl
  have bare : CScript.isPayToScriptHash script = false := by
    rw [← Bool.not_eq_true]
    intro p2sh
    obtain ⟨hash, -, same⟩ := solver_p2sh plain p2sh solved
    exact absurd (congrArg Solved.typeRet same) (show multisig ≠ .scriptHash by decide)
  refine ⟨bare, ?_⟩
  rcases solver_template plain bare solved rfl with ⟨kind, -⟩ | ⟨kind, -⟩ | ⟨-, checks, matched⟩
  · exact absurd kind (show multisig ≠ .pubKey by decide)
  · exact absurd kind (show multisig ≠ .pubKeyHash by decide)
  · obtain ⟨opM, opN, ops, solutions, shape⟩ := multisig_ops checks matched
    obtain ⟨first, rest⟩ := cons.inj solutions
    obtain ⟨same, -⟩ := append_inj' rest rfl
    exact ⟨opM, opN, ops, (cons.inj first).1.symm, same.symm, shape⟩

section

variable {opM opN : UInt8 × List UInt8} {ops : List (UInt8 × List UInt8)} (shape : MultisigOps script opM opN ops)
include shape

theorem multisig_data : ∀ op ∈ opM :: (ops ++ [opN, (OP_CHECKMULTISIG, [])]), op.2.length ≤ 65 := by
  have number (op : UInt8 × List UInt8) (range : OP_1 ≤ op.1 ∧ op.1 ≤ OP_16)
      (inside : op ∈ opM :: (ops ++ [opN, (OP_CHECKMULTISIG, [])])) : op.2.length ≤ 65 := by
    by_contra large
    have data : op.2 ≠ [] := ne_nil_of_length_pos (by omega)
    exact absurd (UInt8.le_trans range.1 (shape.reads.isPush inside data)) (by decide)
  intro op member
  rcases mem_cons.mp member with rfl | later
  · exact number _ shape.rangeM member
  · rcases mem_append.mp later with isKey | later
    · exact (shape.sizes op isKey).2
    · rcases mem_cons.mp later with rfl | last
      · exact number _ shape.rangeN member
      · rw [mem_singleton.mp last]
        exact Nat.zero_le _

theorem length_multisig : script.length ≤ MAX_SCRIPT_SIZE := by
  have length := shape.reads.length_le_data (multisig_data shape)
  have most := shape.most
  have limit : MAX_SCRIPT_SIZE = 87382 := rfl
  simp only [length_cons, length_append, length_nil] at length
  omega

theorem multisig_kept : findAndDelete script (pushData []) = script := by
  apply findAndDelete_empty shape.reads
  have number (op : UInt8 × List UInt8) (range : OP_1 ≤ op.1 ∧ op.1 ≤ OP_16) : op.1 ≠ OP_0 := by
    intro zero
    rw [zero] at range
    cases range.1
  intro op member
  rcases mem_cons.mp member with rfl | later
  · exact number _ shape.rangeM
  · rcases mem_append.mp later with isKey | later
    · intro zero
      obtain ⟨pc, next, read⟩ := shape.reads.read member
      have empty : op.2 = [] := getOp_zero read zero
      have least := (shape.sizes op isKey).1
      rw [empty] at least
      cases least
    · rcases mem_cons.mp later with rfl | last
      · exact number _ shape.rangeN
      · rw [mem_singleton.mp last]
        decide

end

variable {sigs : List (List UInt8)}

theorem evalScript_multisig {required : Nat} {opM opN : UInt8 × List UInt8} {ops : List (UInt8 × List UInt8)}
    (shape : MultisigOps script opM opN ops) (count : (decodeOP_N opM.1).toNat = required) (few : sigs.length ≤ required)
    (kept : ∀ sig ∈ sigs, findAndDelete script (pushData sig) = script) :
    evalScript checker SCRIPT_VERIFY_P2SH ((combinedItems required sigs).reverse ++ [[]]) script =
      .ok [vchBool (greedy (fun sig pubkey => checker.checkSig sig pubkey script) (ops.map Prod.snd).reverse
        (combinedItems required sigs).reverse)] := by
  have length : (combinedItems required sigs).length = required := by
    rw [combinedItems, length_append, length_replicate]
    omega
  have fewer : (combinedItems required sigs).length ≤ ops.length := by
    rw [length, ← count]
    exact shape.fewer
  have encoded : Encoded checker SCRIPT_VERIFY_P2SH (ops.map Prod.snd) (combinedItems required sigs) := by
    constructor
    · intro sig _
      unfold checkSignatureEncoding
      split <;> rfl
    · intro pubkey _
      rfl
  have keptAll (sig : List UInt8) (member : sig ∈ combinedItems required sigs) : findAndDelete script (pushData sig) = script := by
    rcases mem_append.mp member with given | missing
    · exact kept sig given
    · rw [eq_of_mem_replicate missing]
      exact multisig_kept shape
  have passed : ops.all (passes SCRIPT_VERIFY_P2SH) = true := all_eq_true.mpr fun _ _ => rfl
  apply evalScript_ok (length_multisig shape)
  rw [run_multisig shape.reads shape.rangeM shape.rangeN (by rw [count, length]) shape.count shape.sizes shape.most fewer encoded
    keptAll, passed, if_pos rfl]

theorem verifyScript_combined {required : Nat} {opM opN : UInt8 × List UInt8} {ops : List (UInt8 × List UInt8)}
    (shape : MultisigOps script opM opN ops) (bare : CScript.isPayToScriptHash script = false)
    (wraps : Wraps checker script scriptPubKey redeem) (count : (decodeOP_N opM.1).toNat = required)
    (few : sigs.length ≤ required) (kept : ∀ sig ∈ sigs, findAndDelete script (pushData sig) = script)
    (pushed : Pushed (redeem ++ sigs)) (size : (combinedScript required sigs redeem).length ≤ MAX_SCRIPT_SIZE) :
    verifyScript checker SCRIPT_VERIFY_P2SH (combinedScript required sigs redeem) scriptPubKey = .ok () ↔
      Matches (fun sig pubkey => checker.checkSig sig pubkey script) (combinedItems required sigs) (ops.map Prod.snd) := by
  have most : required ≤ 16 := by
    rw [← count]
    exact Nat.le_trans shape.fewer shape.most
  have itemsLength : (combinedItems required sigs).length = required := by
    rw [combinedItems, length_append, length_replicate]
    omega
  have wrapped : redeem.length ≤ 1 := by cases wraps <;> simp
  have small (item : List UInt8) (member : item ∈ ([] :: combinedItems required sigs) ++ redeem) :
      item.length ≤ MAX_SCRIPT_PUSH_SIZE := by
    rcases mem_append.mp member with front | last
    · rcases mem_cons.mp front with rfl | later
      · exact Nat.zero_le _
      · rcases mem_append.mp later with given | missing
        · exact pushed item (mem_append_right _ given)
        · rw [eq_of_mem_replicate missing]
          exact Nat.zero_le _
    · exact pushed item (mem_append_left _ last)
  rw [combinedScript_eq] at size ⊢
  have fewItems : (([] :: combinedItems required sigs) ++ redeem).length ≤ 1000 := by
    rw [length_append, length_cons]
    omega
  obtain ⟨left, pushOnly⟩ := @evalScript_pushAll checker _ SCRIPT_VERIFY_P2SH size fewItems small fun _ _ _ _ => rfl
  have verified : verifyScript checker SCRIPT_VERIFY_P2SH (pushAll (([] :: combinedItems required sigs) ++ redeem)) scriptPubKey =
      (evalScript checker SCRIPT_VERIFY_P2SH ((combinedItems required sigs).reverse ++ [[]]) script).bind fun stack =>
        (checkTrue stack).bind fun _ => checkCleanStack SCRIPT_VERIFY_P2SH stack := by
    cases wraps with
    | plain =>
      rw [append_nil, reverse_cons] at left
      rw [append_nil] at pushOnly ⊢
      exact verifyScript_bare pushOnly left bare
    | hash p2sh hashed =>
      have turned : (([] :: combinedItems required sigs) ++ [script]).reverse =
          script :: ((combinedItems required sigs).reverse ++ [[]]) := by
        rw [reverse_append, reverse_singleton, reverse_cons, singleton_append]
      have room : ((combinedItems required sigs).reverse ++ [[]]).length ≤ 900 := by
        rw [length_append, length_reverse, length_singleton]
        omega
      rw [turned] at left
      exact verifyScript_p2sh pushOnly left (by decide) room p2sh hashed
  rw [verified, evalScript_multisig shape count few kept, ← matches_reverse, ← greedy_iff]
  cases greedy (fun sig pubkey => checker.checkSig sig pubkey script) (ops.map Prod.snd).reverse
      (combinedItems required sigs).reverse with
  | false => exact ⟨fun verified => (nomatch verified), fun accepted => (nomatch accepted)⟩
  | true => exact ⟨fun _ => rfl, fun _ => rfl⟩

theorem verifyScript_long {flags : Nat} {scriptSig scriptPubKey : CScript} (long : MAX_SCRIPT_SIZE < scriptSig.length) :
    verifyScript checker flags scriptSig scriptPubKey ≠ .ok () := by
  intro done
  unfold verifyScript check at done
  obtain ⟨-, done⟩ := require_bind_ok.mp done
  obtain ⟨stack, left, -⟩ := bind_ok.mp done
  unfold evalScript check at left
  obtain ⟨size, -⟩ := require_bind_ok.mp left
  exact absurd (of_decide_eq_true size) (Nat.not_le.mpr long)

theorem signedBy_mem {given : List (List UInt8)} (chosen : Forall₂ (SignedBy checker script given) sigs keys)
    {sig : List UInt8} (member : sig ∈ sigs) : sig ∈ given := by
  obtain ⟨i, bound, rfl⟩ := getElem_of_mem member
  exact (chosen.get bound (chosen.length_eq ▸ bound)).1

/-- One signature for each of the first keys that have one: these match the keys when there are enough of them, and no
placeholder matches. -/
theorem matches_combined {required : Nat} {given : List (List UInt8)}
    (nonempty : ∀ pubkey, checker.checkSig [] pubkey script = false)
    (chosen : Forall₂ (SignedBy checker script given) sigs ((keys.filter (covered checker script given)).take required)) :
    Matches (fun sig pubkey => checker.checkSig sig pubkey script) (combinedItems required sigs) keys ↔
      required ≤ (keys.filter (covered checker script given)).length := by
  have length : sigs.length = min required (keys.filter (covered checker script given)).length := by
    rw [chosen.length_eq, length_take]
  constructor
  · intro matching
    by_contra few
    have missing : [] ∈ combinedItems required sigs := by
      apply mem_append_right
      rw [mem_replicate]
      exact ⟨by omega, rfl⟩
    obtain ⟨pubkey, -, valid⟩ := exists_of_matches matching missing
    rw [nonempty] at valid
    cases valid
  · intro enough
    have all : combinedItems required sigs = sigs := by
      have none : required - sigs.length = 0 := by omega
      rw [combinedItems, none, replicate_zero, append_nil]
    rw [all]
    apply sublistForall₂_iff.mpr
    exact ⟨_, chosen.imp fun _ _ signed => signed.2, (take_sublist _ _).trans filter_sublist⟩

end Multisig

/-- What combining gives for a multisignature script, plain or behind a script hash, and two partial inputs none of whose
signatures is valid for two of the keys: a signature for each of the first keys that have one in either input, and
placeholders. The order of the inputs does not matter. The result satisfies the script just when enough keys have a
signature and it is no longer than a script may be. -/
theorem combineSignatures_covers (checker : Checker) {script scriptPubKey scriptSig1 scriptSig2 : CScript} {m n : UInt8}
    {keys sigs1 sigs2 : List (List UInt8)} {redeem : Stack}
    (solved : solver script = some ⟨true, .multisig, [m] :: (keys ++ [[n]])⟩) (wraps : Wraps checker script scriptPubKey redeem)
    (carries1 : Carries checker redeem scriptSig1 sigs1) (carries2 : Carries checker redeem scriptSig2 sigs2)
    (nonempty : ∀ pubkey, checker.checkSig [] pubkey script = false)
    (absent : ∀ sig ∈ sigs1 ++ sigs2, findAndDelete script (pushData sig) = script)
    (oneKey : OneKey checker script keys (sigs1 ++ sigs2)) :
    ∃ sigs, Forall₂ (SignedBy checker script (sigs1 ++ sigs2)) sigs
        ((keys.filter (covered checker script (sigs1 ++ sigs2))).take m.toNat) ∧
      combineSignatures checker scriptPubKey scriptSig1 scriptSig2 = some (combinedScript m.toNat sigs redeem) ∧
      combineSignatures checker scriptPubKey scriptSig2 scriptSig1 = some (combinedScript m.toNat sigs redeem) ∧
      (verifyScript checker SCRIPT_VERIFY_P2SH (combinedScript m.toNat sigs redeem) scriptPubKey = .ok () ↔
        m.toNat ≤ (keys.filter (covered checker script (sigs1 ++ sigs2))).length ∧
          (combinedScript m.toNat sigs redeem).length ≤ MAX_SCRIPT_SIZE) := by
  have chosen : Forall₂ (SignedBy checker script (sigs1 ++ sigs2)) (combinedSigs checker script m.toNat keys sigs1 sigs2)
      ((keys.filter (covered checker script (sigs1 ++ sigs2))).take m.toNat) := firstSigs m.toNat oneKey nonempty
  have turned : combinedSigs checker script m.toNat keys sigs2 sigs1 = combinedSigs checker script m.toNat keys sigs1 sigs2 := by
    rw [combinedSigs, allSigs_comm fun sig => show sig ∈ sigs2 ++ sigs1 ↔ sig ∈ sigs1 ++ sigs2 by simp [or_comm]]
    rfl
  refine ⟨combinedSigs checker script m.toNat keys sigs1 sigs2, chosen, combineSignatures_eq solved wraps carries1 carries2, ?_, ?_⟩
  · rw [combineSignatures_eq solved wraps carries2 carries1, turned]
  · obtain ⟨bare, opM, opN, ops, required, keysOf, shape⟩ := multisig_solved solved
    have few : (combinedSigs checker script m.toNat keys sigs1 sigs2).length ≤ m.toNat := length_take_le _ _
    have member (sig : List UInt8) (inside : sig ∈ combinedSigs checker script m.toNat keys sigs1 sigs2) : sig ∈ sigs1 ++ sigs2 :=
      signedBy_mem chosen inside
    have pushed : Pushed (redeem ++ combinedSigs checker script m.toNat keys sigs1 sigs2) := by
      have pushed1 : Pushed (redeem ++ sigs1) := carries1.left ▸ pushed_stackLeft carries1.pushOnly
      have pushed2 : Pushed (redeem ++ sigs2) := carries2.left ▸ pushed_stackLeft carries2.pushOnly
      intro item inside
      rcases mem_append.mp inside with front | sig
      · exact pushed1 item (mem_append_left _ front)
      · rcases mem_append.mp (member item sig) with first | second
        · exact pushed1 item (mem_append_right _ first)
        · exact pushed2 item (mem_append_right _ second)
    by_cases size : (combinedScript m.toNat (combinedSigs checker script m.toNat keys sigs1 sigs2) redeem).length ≤ MAX_SCRIPT_SIZE
    · rw [verifyScript_combined shape bare wraps (congrArg UInt8.toNat required) few (fun sig inside => absent sig (member sig inside))
        pushed size, keysOf, matches_combined nonempty chosen, and_iff_left size]
    · constructor
      · intro verified
        exact absurd verified (verifyScript_long (Nat.not_le.mp size))
      · exact fun conditions => absurd conditions.2 size

def bothKeys : List (List UInt8) := [0x02 :: generatorX, 0x04 :: (generatorX ++ generatorY)]

def twoOfTwo : CScript := [OP_1 + 1] ++ pushAll bothKeys ++ [OP_1 + 1, OP_CHECKMULTISIG]

theorem twoOfTwo_solved : solver twoOfTwo = some ⟨true, .multisig, [2] :: (bothKeys ++ [[2]])⟩ := by decide

def firstByte : Checker :=
  sampleChecker.answering fun vchSig vchPubKey _ => !vchSig.isEmpty && vchSig.head? == vchPubKey.head?

theorem oneKey_firstByte (sigs : List (List UInt8)) : OneKey firstByte twoOfTwo bothKeys sigs := by
  intro sig _ pubkey isKey other isKey' valid valid'
  have starts {pubkey : List UInt8} (valid : firstByte.checkSig sig pubkey twoOfTwo = true) : sig.head? = pubkey.head? :=
    beq_iff_eq.mp (Bool.and_eq_true _ _ ▸ valid).2
  have same : pubkey.head? = other.head? := (starts valid).symm.trans (starts valid')
  have different : ∀ key ∈ bothKeys, ∀ key' ∈ bothKeys, key.head? = key'.head? → key = key' := by decide
  exact different pubkey isKey other isKey' same

theorem combineSignatures_covers_halves :
    ∃ sigs, combineSignatures firstByte twoOfTwo (pushAll [[], [4, 1], [9]]) (pushAll [[2, 1], []]) =
        some (combinedScript 2 sigs []) ∧
      verifyScript firstByte SCRIPT_VERIFY_P2SH (combinedScript 2 sigs []) twoOfTwo = .ok () := by
  have carries1 : Carries firstByte [] (pushAll [[], [4, 1], [9]]) [[9], [4, 1], []] := ⟨by decide, by decide⟩
  have carries2 : Carries firstByte [] (pushAll [[2, 1], []]) [[], [2, 1]] := ⟨by decide, by decide⟩
  obtain ⟨sigs, chosen, combined, -, verifies⟩ := combineSignatures_covers firstByte twoOfTwo_solved .plain carries1 carries2
    (fun _ => rfl) (by decide) (oneKey_firstByte _)
  have two : sigs.length = 2 := chosen.length_eq
  have short : ∀ sig ∈ ([[9], [4, 1], []] ++ [[], [2, 1]] : List (List UInt8)), sig.length ≤ 2 := by decide
  have small : (combinedScript 2 sigs []).length ≤ MAX_SCRIPT_SIZE := by
    have length := length_pushAll fun sig member => short sig (signedBy_mem chosen member)
    rw [two] at length
    simp only [combinedScript, two, length_cons, length_append, length_replicate]
    exact Nat.le_trans (Nat.add_le_add_right (Nat.add_le_add_right (Nat.add_le_add_right length _) _) _) (by decide)
  exact ⟨sigs, combined, verifies.mpr ⟨by decide, small⟩⟩

/-- Two inputs with a signature for each of the two keys, combined to a script that is not accepted. -/
structure Loses (checker : Checker) (scriptSig1 scriptSig2 : CScript) (sigs1 sigs2 : List (List UInt8)) : Prop where
  nonempty : ∀ pubkey, checker.checkSig [] pubkey twoOfTwo = false
  absent : ∀ sig ∈ sigs1 ++ sigs2, findAndDelete twoOfTwo (pushData sig) = twoOfTwo
  carries1 : Carries checker [] scriptSig1 sigs1
  carries2 : Carries checker [] scriptSig2 sigs2
  covers : (bothKeys.filter (covered checker twoOfTwo (sigs1 ++ sigs2))).length = 2
  refused : ∃ sigs, combineSignatures checker twoOfTwo scriptSig1 scriptSig2 = some (combinedScript 2 sigs []) ∧
    verifyScript checker SCRIPT_VERIFY_P2SH (combinedScript 2 sigs []) twoOfTwo ≠ .ok ()

def anyBytes : Checker := sampleChecker.answering fun vchSig _ _ => !vchSig.isEmpty

theorem loses_shared : Loses anyBytes (pushAll [[], [1]]) (pushAll [[]]) [[1], []] [[]] where
  nonempty _ := rfl
  absent := by decide
  carries1 := ⟨by decide, by decide⟩
  carries2 := ⟨by decide, by decide⟩
  covers := by decide
  refused := by
    have fails : verifyScript anyBytes SCRIPT_VERIFY_P2SH (combinedScript 2 [[1]] []) twoOfTwo = .error (.error .EVAL_FALSE) := rfl
    refine ⟨[[1]], by decide, ?_⟩
    rw [fails]
    exact nofun

/-- A signature of which an input may hold one, and two are too long together. -/
def longSig (first : UInt8) : List UInt8 := first :: List.replicate 50000 0

theorem length_longSig (first : UInt8) : (longSig first).length = 50001 := by
  rw [longSig, length_cons, length_replicate]

theorem carries_longSig (first : UInt8) : Carries firstByte [] (pushAll [longSig first]) [longSig first] := by
  have only (item : List UInt8) (member : item ∈ [longSig first]) : item.length = 50001 := by
    rw [mem_singleton.mp member, length_longSig]
  have size : (pushAll [longSig first]).length ≤ MAX_SCRIPT_SIZE :=
    Nat.le_trans (length_pushAll fun item member => Nat.le_of_eq (only item member)) (show 1 * (50001 + 5) ≤ MAX_SCRIPT_SIZE by decide)
  have small (item : List UInt8) (member : item ∈ [longSig first]) : item.length ≤ MAX_SCRIPT_PUSH_SIZE := by
    rw [only item member]
    decide
  obtain ⟨left, pushOnly⟩ := @evalScript_pushAll (baseSignatureChecker firstByte) [longSig first] SCRIPT_VERIFY_STRICTENC size
    (show 1 ≤ 1000 by decide) small fun _ _ _ _ => rfl
  exact ⟨pushOnly, stackLeft_ok left⟩

theorem length_pushAll_ge {data : List (List UInt8)} {least : Nat} (large : ∀ item ∈ data, least ≤ item.length) :
    data.length * least ≤ (pushAll data).length := by
  induction data with
  | nil => exact Nat.le_of_eq (Nat.zero_mul _)
  | cons first rest ih =>
    have later := ih (forall_mem_cons.mp large).2
    have here := large first mem_cons_self
    rw [pushAll] at later ⊢
    rw [flatMap_cons, length_append, length_cons, Nat.succ_mul, pushData, length_append]
    omega

theorem loses_long : Loses firstByte (pushAll [longSig 2]) (pushAll [longSig 4]) [longSig 2] [longSig 4] where
  nonempty _ := rfl
  absent := by
    obtain ⟨-, opM, opN, ops, -, -, shape⟩ := multisig_solved twoOfTwo_solved
    intro sig member
    have large : sig.length = 50001 := by
      simp only [cons_append, nil_append, mem_cons, not_mem_nil, or_false] at member
      rcases member with rfl | rfl <;> exact length_longSig _
    apply findAndDelete_reads shape.reads (Nat.lt_of_le_of_lt (length_multisig shape) (by decide))
    intro op inside same
    have small := multisig_data shape op inside
    rw [same, large] at small
    exact absurd small (by decide)
  carries1 := carries_longSig 2
  carries2 := carries_longSig 4
  covers := by decide
  refused := by
    refine ⟨_, combineSignatures_eq twoOfTwo_solved .plain (carries_longSig 2) (carries_longSig 4), ?_⟩
    change verifyScript firstByte SCRIPT_VERIFY_P2SH
      (combinedScript 2 (combinedSigs firstByte twoOfTwo 2 bothKeys [longSig 2] [longSig 4]) []) twoOfTwo ≠ .ok ()
    have chosen := @firstSigs [longSig 2] [longSig 4] firstByte twoOfTwo bothKeys 2 (oneKey_firstByte _) fun _ => rfl
    have two : (combinedSigs firstByte twoOfTwo 2 bothKeys [longSig 2] [longSig 4]).length = 2 := chosen.length_eq
    have large (sig : List UInt8) (member : sig ∈ combinedSigs firstByte twoOfTwo 2 bothKeys [longSig 2] [longSig 4]) :
        50001 ≤ sig.length := by
      have given := signedBy_mem chosen member
      simp only [cons_append, nil_append, mem_cons, not_mem_nil, or_false] at given
      rcases given with rfl | rfl <;> exact Nat.le_of_eq (length_longSig _).symm
    have length := length_pushAll_ge large
    have limit : MAX_SCRIPT_SIZE = 87382 := rfl
    rw [two] at length
    apply verifyScript_long
    rw [combinedScript, length_cons, length_append, length_append]
    omega

theorem combineSignatures_loses : solver twoOfTwo = some ⟨true, .multisig, [2] :: (bothKeys ++ [[2]])⟩ ∧ bothKeys.Nodup ∧
    Loses anyBytes (pushAll [[], [1]]) (pushAll [[]]) [[1], []] [[]] ∧
    Loses firstByte (pushAll [longSig 2]) (pushAll [longSig 4]) [longSig 2] [longSig 4] :=
  ⟨twoOfTwo_solved, by decide, loses_shared, loses_long⟩

end Longcoin.Sign

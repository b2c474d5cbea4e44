import Longcoin.MultiSig
import Mathlib.Tactic.IntervalCases

/-! The standard scripts run under the standard flags. -/

namespace Longcoin.Interpreter
open Primitives Script Standard ScriptNum Library.Bytes Library.Outcome Library.Matching List Bool

variable {checker : Checker} {flags : Nat}

/-- The loop of `EvalScript` from some byte of the script on. -/
def run (checker : Checker) (flags : Nat) (pc : CScript) (st : EvalState) : Except Stop EvalState :=
  evalTurns checker flags pc.length pc st

theorem run_read {pc next : CScript} {opcode : UInt8} {data : List UInt8} (read : getOp pc = some (opcode, data, next))
    (st : EvalState) :
    run checker flags pc st = (evalStep checker flags opcode data next st).bind (run checker flags next) := by
  have shorter : next.length < pc.length := length_getOp read
  obtain ⟨turns, length⟩ : ∃ less, pc.length = less + 1 := ⟨pc.length - 1, by omega⟩
  have nonempty : pc.isEmpty = false := by
    rw [List.isEmpty_eq_false_iff]
    rintro rfl
    cases shorter
  rw [run, length, evalTurns, nonempty, if_neg Bool.false_ne_true, read, Option.elim_some]
  congr 1
  funext st
  exact evalTurns_enough checker flags st (Nat.le_refl _) (by omega)

theorem enabled_push {opcode : UInt8} (isPush : opcode ≤ OP_16) : isDisabled opcode = false := by
  rw [isDisabled, elem_eq_contains, ← not_eq_true, contains_iff_mem]
  intro member
  have above : [OP_CAT, OP_SUBSTR, OP_LEFT, OP_RIGHT, OP_INVERT, OP_AND, OP_OR, OP_XOR, OP_2MUL, OP_2DIV,
    OP_MUL, OP_DIV, OP_MOD, OP_LSHIFT, OP_RSHIFT].all (fun disabled => !decide (disabled ≤ OP_16)) = true := rfl
  have higher := all_eq_true.mp above opcode member
  rw [decide_eq_true isPush] at higher
  cases higher

section

variable {opcode : UInt8} {data : List UInt8} {pc : CScript}

theorem evalStep_exec {st : EvalState} {nOpCount : Nat}
    (counted : (if opcode > OP_16 then st.nOpCount + 1 else st.nOpCount) = nOpCount)
    (size : data.length ≤ MAX_SCRIPT_PUSH_SIZE) (count : nOpCount ≤ MAX_OPS_PER_SCRIPT)
    (enabled : isDisabled opcode = false) :
    evalStep checker flags opcode data pc st =
      (execOp checker flags opcode data pc { st with nOpCount }).bind fun st =>
        (check (st.stack.length + st.altstack.length ≤ 1000) .STACK_SIZE).map fun _ => st := by
  rw [evalStep, counted, enabled, decide_eq_true size]
  dsimp only
  rw [decide_eq_true count]
  rfl

theorem execOp_plain {st : EvalState} (notPush : ¬ opcode ≤ OP_PUSHDATA4)
    (exec : st.fExec = true) : execOp checker flags opcode data pc st = evalOp checker flags opcode pc st := by
  rw [execOp, if_neg fun both => notPush both.2, if_pos (.inl exec)]

theorem evalStep_ok {st st' : EvalState}
    (done : evalStep checker flags opcode data pc st = .ok st') :
    isDisabled opcode = false ∧ data.length ≤ MAX_SCRIPT_PUSH_SIZE ∧
      ∃ nOpCount, execOp checker flags opcode data pc { st with nOpCount } = .ok st' := by
  unfold evalStep check at done
  obtain ⟨size, done⟩ := require_bind_ok.mp done
  obtain ⟨-, done⟩ := require_bind_ok.mp done
  obtain ⟨enabled, done⟩ := require_bind_ok.mp done
  obtain ⟨after, exec, done⟩ := bind_ok.mp done
  obtain ⟨-, done⟩ := require_bind_ok.mp done
  rw [pure_ok.mp done] at exec
  exact ⟨by simpa using enabled, of_decide_eq_true size, _, exec⟩

end

def PushesNumber (opcode : UInt8) : Prop := opcode = OP_1NEGATE ∨ OP_1 ≤ opcode ∧ opcode ≤ OP_16

theorem execOp_push {opcode : UInt8} {data : List UInt8} {pc : CScript} {st st' : EvalState} (push : opcode ≤ OP_16)
    (exec : st.fExec = true) (done : execOp checker flags opcode data pc st = .ok st') :
    ∃ value, st' = { st with stack := value :: st.stack } ∧
      (value = data ∨ PushesNumber opcode ∧ value = serialize ((opcode.toNat : Int) - (OP_1.toNat - 1))) := by
  unfold execOp at done
  rw [exec] at done
  by_cases isPush : opcode ≤ OP_PUSHDATA4
  · rw [if_pos ⟨rfl, isPush⟩] at done
    obtain ⟨-, pushed⟩ := require_bind_ok.mp done
    exact ⟨data, (pure_ok.mp pushed).symm, .inl rfl⟩
  · rw [if_neg fun both => isPush both.2, if_pos (.inl rfl)] at done
    by_cases small : opcode = OP_1NEGATE ∨ OP_1 ≤ opcode ∧ opcode ≤ OP_16
    · rw [evalOp, if_pos small] at done
      exact ⟨_, (Except.ok.inj done).symm, .inr ⟨small, rfl⟩⟩
    · -- `OP_RESERVED` counts as a push, and fails
      have reserved : opcode = 0x50 := by
        have above : ¬ opcode.toNat ≤ 78 := isPush
        have most : opcode.toNat ≤ 96 := push
        have notNegate : opcode.toNat ≠ 79 := fun same => small (.inl (UInt8.toNat.inj same))
        have notNumber : ¬ (81 ≤ opcode.toNat ∧ opcode.toNat ≤ 96) := fun range => small (.inr range)
        apply UInt8.toNat.inj
        change opcode.toNat = 80
        omega
      rw [reserved] at done
      cases done

variable {script : CScript} {stack : Stack} {nOpCount : Nat}

theorem evalStep_push {opcode : UInt8} {data : List UInt8} {pc : CScript} (isPush : opcode ≤ OP_PUSHDATA4)
    (size : data.length ≤ MAX_SCRIPT_PUSH_SIZE) (room : stack.length < 1000) (count : nOpCount ≤ MAX_OPS_PER_SCRIPT) :
    evalStep checker flags opcode data pc ⟨stack, [], [], nOpCount, script⟩ =
      if passes flags (opcode, data) then .ok ⟨data :: stack, [], [], nOpCount, script⟩
      else .error (.error .MINIMALDATA) := by
  have small : opcode ≤ OP_16 := UInt8.le_trans isPush (by decide)
  have within : decide (stack.length + 1 + 0 ≤ 1000) = true := decide_eq_true room
  have same : passes flags (opcode, data) = (!has flags SCRIPT_VERIFY_MINIMALDATA || checkMinimalPush data opcode) := by
    rw [passes, minimalOp, decide_eq_true isPush]
    rfl
  rw [evalStep_exec (if_neg (UInt8.not_lt.mpr small)) size count (enabled_push small), execOp, if_pos ⟨rfl, isPush⟩, same]
  cases !has flags SCRIPT_VERIFY_MINIMALDATA || checkMinimalPush data opcode with
  | false => rfl
  | true =>
    change (check (decide (stack.length + 1 + 0 ≤ 1000)) .STACK_SIZE).map _ = _
    rw [within]
    rfl

theorem evalStep_op {opcode : UInt8} {pc : CScript} {stack' : Stack} {nOpCount' : Nat} (isOp : OP_16 < opcode)
    (enabled : isDisabled opcode = false) (count : nOpCount + 1 ≤ MAX_OPS_PER_SCRIPT) (small : stack'.length ≤ 1000)
    (done : evalOp checker flags opcode pc ⟨stack, [], [], nOpCount + 1, script⟩ = .ok ⟨stack', [], [], nOpCount', script⟩) :
    evalStep checker flags opcode [] pc ⟨stack, [], [], nOpCount, script⟩ = .ok ⟨stack', [], [], nOpCount', script⟩ := by
  have notPush : ¬ opcode ≤ OP_PUSHDATA4 := fun isPush =>
    absurd (UInt8.lt_of_lt_of_le isOp (UInt8.le_trans isPush (by decide))) (UInt8.lt_irrefl _)
  have within : decide (stack'.length + 0 ≤ 1000) = true := decide_eq_true small
  rw [evalStep_exec (if_pos isOp) (Nat.zero_le _) count enabled, execOp_plain notPush rfl, done]
  change (check (decide (stack'.length + 0 ≤ 1000)) .STACK_SIZE).map _ = _
  rw [within]
  rfl

theorem smallNumber {opcode : UInt8} (least : OP_1 ≤ opcode) (most : opcode ≤ OP_16) :
    ((opcode.toNat : Int) - (OP_1.toNat - 1)) = (decodeOP_N opcode).toNat ∧ (decodeOP_N opcode).toNat ≤ 16 := by
  have notZero : opcode ≠ OP_0 := by
    rintro rfl
    cases least
  rw [decodeOP_N, if_neg notZero, UInt8.toNat_sub_of_le _ _ (UInt8.le_trans (by decide) least)]
  have least := UInt8.le_iff_toNat_le.mp least
  have most := UInt8.le_iff_toNat_le.mp most
  have one : (OP_1 - 1).toNat = 80 := rfl
  have first : OP_1.toNat = 81 := rfl
  have last : OP_16.toNat = 96 := rfl
  omega

theorem evalStep_small {opcode : UInt8} {pc : CScript} (least : OP_1 ≤ opcode) (most : opcode ≤ OP_16)
    (room : stack.length < 1000) (count : nOpCount ≤ MAX_OPS_PER_SCRIPT) :
    evalStep checker flags opcode [] pc ⟨stack, [], [], nOpCount, script⟩ =
      .ok ⟨serialize (decodeOP_N opcode).toNat :: stack, [], [], nOpCount, script⟩ := by
  have notPush : ¬ opcode ≤ OP_PUSHDATA4 := fun isPush => absurd (UInt8.le_trans least isPush) (by decide)
  have value := (smallNumber least most).1
  have within : decide (stack.length + 1 + 0 ≤ 1000) = true := decide_eq_true room
  rw [evalStep_exec (if_neg (UInt8.not_lt.mpr most)) (Nat.zero_le _) count (enabled_push most),
    execOp_plain notPush rfl, evalOp, if_pos (.inr ⟨least, most⟩), value]
  change (check (decide (stack.length + 1 + 0 ≤ 1000)) .STACK_SIZE).map _ = _
  rw [within]
  rfl

theorem run_push {pc next : CScript} {opcode : UInt8} {data : List UInt8} (read : getOp pc = some (opcode, data, next))
    (isPush : opcode ≤ OP_PUSHDATA4) (size : data.length ≤ MAX_SCRIPT_PUSH_SIZE) (room : stack.length < 1000)
    (count : nOpCount ≤ MAX_OPS_PER_SCRIPT) :
    run checker flags pc ⟨stack, [], [], nOpCount, script⟩ =
      if passes flags (opcode, data) then run checker flags next ⟨data :: stack, [], [], nOpCount, script⟩
      else .error (.error .MINIMALDATA) := by
  rw [run_read read, evalStep_push isPush size room count]
  cases passes flags (opcode, data) <;> rfl

theorem run_pushes {pc rest : CScript} {ops : List (UInt8 × List UInt8)} (reads : Reads pc ops rest)
    (pushes : ∀ op ∈ ops, op.1 ≤ OP_PUSHDATA4 ∧ op.2.length ≤ MAX_SCRIPT_PUSH_SIZE) (room : stack.length + ops.length ≤ 1000)
    (count : nOpCount ≤ MAX_OPS_PER_SCRIPT) :
    run checker flags pc ⟨stack, [], [], nOpCount, script⟩ =
      if ops.all (passes flags) then
        run checker flags rest ⟨(ops.map Prod.snd).reverse ++ stack, [], [], nOpCount, script⟩
      else .error (.error .MINIMALDATA) := by
  induction ops generalizing pc stack with
  | nil =>
    rw [Reads] at reads
    rw [reads]
    rfl
  | cons op ops ih =>
    obtain ⟨next, read, reads⟩ := reads
    obtain ⟨isPush, size⟩ := pushes op mem_cons_self
    rw [length_cons] at room
    have left : (op.2 :: stack).length + ops.length ≤ 1000 := by
      rw [length_cons]
      omega
    have later := ih reads (forall_mem_cons.mp pushes).2 left
    rw [run_push read isPush size (by omega) count, all_cons]
    cases passes flags op with
    | false => rfl
    | true =>
      rw [if_pos rfl, later, Bool.true_and, List.map_cons, List.reverse_cons, List.append_assoc]
      rfl

theorem evalScript_ok {stack' : Stack} (size : script.length ≤ MAX_SCRIPT_SIZE)
    (done : run checker flags script ⟨stack, [], [], 0, script⟩ = .ok ⟨stack', [], [], nOpCount, script⟩) :
    evalScript checker flags stack script = .ok stack' := by
  rw [run] at done
  rw [evalScript, done, check, require, decide_eq_true size]
  rfl

theorem evalScript_error {serror : ScriptError} (size : script.length ≤ MAX_SCRIPT_SIZE)
    (done : run checker flags script ⟨stack, [], [], 0, script⟩ = .error (.error serror)) :
    evalScript checker flags stack script = .error (.error serror) := by
  rw [run] at done
  rw [evalScript, done, check, require, decide_eq_true size]
  rfl

theorem run_op {opcode : UInt8} {pc next : CScript} {stack' : Stack} {nOpCount' : Nat}
    (read : getOp pc = some (opcode, [], next)) (isOp : OP_16 < opcode) (enabled : isDisabled opcode = false)
    (count : nOpCount + 1 ≤ MAX_OPS_PER_SCRIPT) (small : stack'.length ≤ 1000)
    (done : evalOp checker flags opcode next ⟨stack, [], [], nOpCount + 1, script⟩ = .ok ⟨stack', [], [], nOpCount', script⟩) :
    run checker flags pc ⟨stack, [], [], nOpCount, script⟩ = run checker flags next ⟨stack', [], [], nOpCount', script⟩ := by
  rw [run_read read, evalStep_op isOp enabled count small done]
  rfl

/-- A signature and a key that pass for a script under the standard flags. -/
structure Signed (checker : Checker) (vchSig vchPubKey : List UInt8) (scriptCode : CScript) : Prop where
  encoding : checkSignatureEncoding checker vchSig STANDARD_SCRIPT_VERIFY_FLAGS = .ok ()
  pubKey : isCompressedOrUncompressedPubKey vchPubKey = true
  verifies : checker.checkSig vchSig vchPubKey scriptCode = true
  kept : findAndDelete scriptCode (pushData vchSig) = scriptCode

theorem checkPubKeyEncoding_ok {vchPubKey : List UInt8} (pubKey : isCompressedOrUncompressedPubKey vchPubKey = true) :
    checkPubKeyEncoding vchPubKey flags = .ok () := by
  rw [checkPubKeyEncoding, pubKey, Bool.or_true]
  rfl

theorem opCheckSig_signed {vchSig vchPubKey : List UInt8} (signed : Signed checker vchSig vchPubKey script) :
    opCheckSig checker STANDARD_SCRIPT_VERIFY_FLAGS script false (vchPubKey :: vchSig :: stack) = .ok ([1] :: stack) := by
  have tops : stacktop (vchPubKey :: vchSig :: stack) 2 = .ok vchSig ∧ stacktop (vchPubKey :: vchSig :: stack) 1 = .ok vchPubKey :=
    ⟨rfl, rfl⟩
  have popped : popMany 2 (vchPubKey :: vchSig :: stack) = .ok stack := rfl
  simp [opCheckSig, check, require, tops.1, tops.2, popped, bind, Except.bind, pure, Except.pure, signed.encoding,
    checkPubKeyEncoding_ok signed.pubKey, signed.kept, signed.verifies, vchBool]

theorem scriptNum_small {flags count : Nat} (small : count ≤ 16) :
    scriptNum flags (serialize count) nDefaultMaxNumSize = .ok (count : Int) := by
  unfold scriptNum
  cases has flags SCRIPT_VERIFY_MINIMALDATA <;> interval_cases count <;> rfl

theorem countAt_small {flags : Nat} {i limit count : Nat} {serror : ScriptError} (small : count ≤ 16)
    (inside : count ≤ limit) (place : 1 ≤ i) (there : stack[i - 1]? = some (serialize count)) :
    countAt flags stack i limit serror = .ok count := by
  have enough : i ≤ stack.length := by
    have := (List.getElem?_eq_some_iff.mp there).1
    omega
  have top : stacktop stack i = .ok (serialize count) := by
    rw [stacktop, if_neg (by omega), there]
    rfl
  have value : getint (count : Int) = count := by
    interval_cases count <;> rfl
  have within : (0 : Int) ≤ count ∧ (count : Int) ≤ limit := by omega
  simp [countAt, check, require, enough, top, bind, Except.bind, pure, Except.pure, scriptNum_small small, value, within]

/-- What `OP_CHECKMULTISIG` finds on the stack. -/
def multisigStack (keys sigs : List (List UInt8)) : Stack :=
  serialize keys.length :: (keys.reverse ++ serialize sigs.length :: (sigs.reverse ++ [[]]))

section

variable (keys sigs : List (List UInt8))

theorem length_multisigStack : (multisigStack keys sigs).length = keys.length + sigs.length + 3 := by
  simp only [multisigStack, length_cons, length_append, length_reverse, length_nil]
  omega

theorem multisigStack_counts : (multisigStack keys sigs)[0]? = some (serialize keys.length) ∧
      (multisigStack keys sigs)[keys.length + 1]? = some (serialize sigs.length) := by
  refine ⟨rfl, ?_⟩
  rw [multisigStack, getElem?_cons_succ, getElem?_append_right (by rw [length_reverse]), length_reverse,
    Nat.sub_self]
  rfl

theorem keysOf_multisigStack : keysOf (multisigStack keys sigs) keys.length = keys.reverse := by
  rw [keysOf, multisigStack, drop_succ_cons, drop_zero, ← length_reverse, take_left]

theorem drop_multisigStack : (multisigStack keys sigs).drop (2 + keys.length) = sigs.reverse ++ [[]] := by
  have place : 2 + keys.length = keys.reverse.length + 1 + 1 := by
    rw [length_reverse]
    omega
  rw [multisigStack, place, drop_succ_cons, ← drop_drop, drop_left, drop_succ_cons, drop_zero]

theorem sigsOf_multisigStack : sigsOf (multisigStack keys sigs) keys.length sigs.length = sigs.reverse := by
  rw [sigsOf, drop_multisigStack, ← length_reverse, take_left]

theorem dummy_multisigStack : entry (multisigStack keys sigs) (sigs.length + keys.length + 3) = [] := by
  have place : sigs.length + keys.length + 3 - 1 = 2 + keys.length + sigs.reverse.length := by
    rw [length_reverse]
    omega
  rw [entry, place, getD_eq_getElem?_getD, ← getElem?_drop, drop_multisigStack, getElem?_append_right (Nat.le_refl _),
    Nat.sub_self]
  rfl

end

theorem multiSigCode_kept {sigs : List (List UInt8)}
    (kept : ∀ vchSig ∈ sigs, findAndDelete script (pushData vchSig) = script) : multiSigCode script sigs = script := by
  induction sigs with
  | nil => rfl
  | cons vchSig sigs ih =>
    have later := ih (forall_mem_cons.mp kept).2
    rw [multiSigCode, foldl_cons, kept vchSig mem_cons_self]
    exact later

theorem opCheckMultiSig_stack {keys sigs : List (List UInt8)} (most : keys.length ≤ 16) (fewer : sigs.length ≤ keys.length)
    (count : nOpCount + keys.length ≤ MAX_OPS_PER_SCRIPT) (encoded : Encoded checker flags keys sigs)
    (kept : ∀ vchSig ∈ sigs, findAndDelete script (pushData vchSig) = script) :
    opCheckMultiSig checker flags script false nOpCount (multisigStack keys sigs) =
      .ok ([vchBool (greedy (fun vchSig vchPubKey => checker.checkSig vchSig vchPubKey script) keys.reverse sigs.reverse)],
        nOpCount + keys.length) := by
  have nKeys : countAt flags (multisigStack keys sigs) 1 MAX_PUBKEYS_PER_MULTISIG .PUBKEY_COUNT = .ok keys.length :=
    countAt_small most (Nat.le_trans most (by decide)) (Nat.le_refl _) (multisigStack_counts keys sigs).1
  have nSigs : countAt flags (multisigStack keys sigs) (2 + keys.length) keys.length .SIG_COUNT = .ok sigs.length := by
    apply countAt_small (Nat.le_trans fewer most) fewer (by omega)
    have place : 2 + keys.length - 1 = keys.length + 1 := by omega
    rw [place]
    exact (multisigStack_counts keys sigs).2
  have room : sigs.length + keys.length + 3 ≤ (multisigStack keys sigs).length := by
    rw [length_multisigStack]
    omega
  have reversed : Encoded checker flags keys.reverse sigs.reverse :=
    ⟨fun vchSig member => encoded.sigs vchSig (List.mem_reverse.mp member),
      fun vchPubKey member => encoded.keys vchPubKey (List.mem_reverse.mp member)⟩
  have code : multiSigCode script sigs.reverse = script :=
    multiSigCode_kept fun vchSig member => kept vchSig (List.mem_reverse.mp member)
  have rest : (multisigStack keys sigs).drop (sigs.length + keys.length + 3) = [] := by
    apply List.drop_eq_nil_of_le
    rw [length_multisigStack]
    omega
  rw [← keysOf_multisigStack keys sigs, ← sigsOf_multisigStack keys sigs] at reversed
  rw [opCheckMultiSig_eq ⟨nKeys, nSigs⟩ room reversed, keysOf_multisigStack, sigsOf_multisigStack, dummy_multisigStack, code, rest,
    check, require, decide_eq_true count, if_pos rfl, ok_bind, List.isEmpty_nil, Bool.or_true, check, require, if_pos rfl, ok_bind]
  rfl

theorem evalOp_checkSig (pc : CScript) (st : EvalState) :
    evalOp checker flags OP_CHECKSIG pc st = st.onStack (opCheckSig checker flags st.codehash false st.stack) := rfl

theorem evalOp_checkMultiSig {pc : CScript} {st : EvalState}
    (done : opCheckMultiSig checker flags st.codehash false st.nOpCount st.stack = .ok (stack, nOpCount)) :
    evalOp checker flags OP_CHECKMULTISIG pc st = .ok { st with stack, nOpCount } := by
  change (opCheckMultiSig checker flags st.codehash false st.nOpCount st.stack).bind _ = _
  rw [done]
  rfl

theorem evalOp_dup (pc : CScript) (st : EvalState) : evalOp checker flags OP_DUP pc st = st.onStack (opCopy 1 1 1 st.stack) := rfl

theorem evalOp_hash160 (pc : CScript) (st : EvalState) :
    evalOp checker flags OP_HASH160 pc st = st.onStack (opHash checker.hash160 st.stack) := rfl

theorem evalOp_equal (pc : CScript) (st : EvalState) : evalOp checker flags OP_EQUAL pc st = st.onStack (opEqual false st.stack) := rfl

theorem evalOp_equalVerify (pc : CScript) (st : EvalState) :
    evalOp checker flags OP_EQUALVERIFY pc st = st.onStack (opEqual true st.stack) := rfl

theorem opCopy_dup (top : List UInt8) (rest : Stack) : opCopy 1 1 1 (top :: rest) = .ok (top :: top :: rest) := rfl

theorem opHash_top (hash : List UInt8 → List UInt8) (top : List UInt8) (rest : Stack) :
    opHash hash (top :: rest) = .ok (hash top :: rest) := rfl

theorem opEqual_same (top : List UInt8) (rest : Stack) :
    opEqual false (top :: top :: rest) = .ok ([1] :: rest) ∧ opEqual true (top :: top :: rest) = .ok rest := by
  have tops : stacktop (top :: top :: rest) 2 = .ok top ∧ stacktop (top :: top :: rest) 1 = .ok top := ⟨rfl, rfl⟩
  have popped : popMany 2 (top :: top :: rest) = .ok rest := rfl
  constructor <;>
    simp [opEqual, check, require, tops.1, tops.2, popped, bind, Except.bind, pure, Except.pure, vchBool]

/-- How a standard script ends on the stack its solution leaves: true when its pushes are minimal. -/
def Ends (checker : Checker) (stack : Stack) (script : CScript) : Prop :=
  evalScript checker STANDARD_SCRIPT_VERIFY_FLAGS stack script =
    if minimalPushes script then .ok [[1]] else .error (.error .MINIMALDATA)

theorem ends_of_run (nOpCount : Nat) (size : script.length ≤ MAX_SCRIPT_SIZE)
    (done : run checker STANDARD_SCRIPT_VERIFY_FLAGS script ⟨stack, [], [], 0, script⟩ =
      if minimalPushes script then .ok ⟨[[1]], [], [], nOpCount, script⟩ else .error (.error .MINIMALDATA)) :
    Ends checker stack script := by
  rw [Ends]
  cases minimal : minimalPushes script with
  | true =>
    rw [minimal] at done
    exact evalScript_ok size done
  | false =>
    rw [minimal] at done
    exact evalScript_error size done

theorem ends_pubKey {opcode : UInt8} {key vchSig : List UInt8} (size : script.length ≤ MAX_SCRIPT_SIZE)
    (reads : Reads script [(opcode, key), (OP_CHECKSIG, [])] []) (least : 33 ≤ key.length) (most : key.length ≤ 65)
    (signed : Signed checker vchSig key script) : Ends checker [vchSig] script := by
  have minimal : minimalPushes script = minimalOp (opcode, key) := by
    rw [minimalPushes_reads reads]
    exact and_true _
  obtain ⟨next, readKey, rest, readSig, ended⟩ := reads
  have isPush := getOp_isPush readKey (ne_nil_of_length_pos (Nat.lt_of_lt_of_le (by decide) least))
  have checked : run checker STANDARD_SCRIPT_VERIFY_FLAGS next ⟨[key, vchSig], [], [], 0, script⟩ =
      .ok ⟨[[1]], [], [], 1, script⟩ := by
    rw [ended] at readSig
    refine run_op readSig (by decide) (by decide) (by decide) (by simp) ?_
    rw [evalOp_checkSig, opCheckSig_signed signed]
    rfl
  refine ends_of_run 1 size ?_
  rw [run_push readKey isPush (Nat.le_trans most (by decide)) (by simp) (by decide), passes_standard, checked, minimal]

theorem ends_pubKeyHash {opcode : UInt8} {hash key vchSig : List UInt8} (size : script.length ≤ MAX_SCRIPT_SIZE)
    (reads : Reads script [(OP_DUP, []), (OP_HASH160, []), (opcode, hash), (OP_EQUALVERIFY, []), (OP_CHECKSIG, [])] [])
    (length : hash.length = 20) (hashes : checker.hash160 key = hash) (signed : Signed checker vchSig key script) :
    Ends checker [key, vchSig] script := by
  have minimal : minimalPushes script = minimalOp (opcode, hash) := by
    rw [minimalPushes_reads reads]
    exact and_true _
  obtain ⟨next1, readDup, next2, readHash, next3, readId, next4, readEqual, next5, readSig, ended⟩ := reads
  have isPush := getOp_isPush readId (ne_nil_of_length_pos (by rw [length]; decide))
  have copied : run checker STANDARD_SCRIPT_VERIFY_FLAGS script ⟨[key, vchSig], [], [], 0, script⟩ =
      run checker STANDARD_SCRIPT_VERIFY_FLAGS next1 ⟨[key, key, vchSig], [], [], 1, script⟩ := by
    refine run_op readDup (by decide) (by decide) (by decide) (by simp) ?_
    rw [evalOp_dup, opCopy_dup]
    rfl
  have hashed : run checker STANDARD_SCRIPT_VERIFY_FLAGS next1 ⟨[key, key, vchSig], [], [], 1, script⟩ =
      run checker STANDARD_SCRIPT_VERIFY_FLAGS next2 ⟨[hash, key, vchSig], [], [], 2, script⟩ := by
    refine run_op readHash (by decide) (by decide) (by decide) (by simp) ?_
    rw [evalOp_hash160, opHash_top, hashes]
    rfl
  have equal : run checker STANDARD_SCRIPT_VERIFY_FLAGS next3 ⟨[hash, hash, key, vchSig], [], [], 2, script⟩ =
      run checker STANDARD_SCRIPT_VERIFY_FLAGS next4 ⟨[key, vchSig], [], [], 3, script⟩ := by
    refine run_op readEqual (by decide) (by decide) (by decide) (by simp) ?_
    rw [evalOp_equalVerify, (opEqual_same hash _).2]
    rfl
  have checked : run checker STANDARD_SCRIPT_VERIFY_FLAGS next4 ⟨[key, vchSig], [], [], 3, script⟩ =
      .ok ⟨[[1]], [], [], 4, script⟩ := by
    rw [ended] at readSig
    refine run_op readSig (by decide) (by decide) (by decide) (by simp) ?_
    rw [evalOp_checkSig, opCheckSig_signed signed]
    rfl
  refine ends_of_run 4 size ?_
  rw [copied, hashed, run_push readId isPush (by rw [length]; decide) (by simp) (by decide), passes_standard, equal, checked, minimal]

theorem run_multisig {opM opN : UInt8 × List UInt8} {keys : List (UInt8 × List UInt8)} {sigs : List (List UInt8)}
    (reads : Reads script (opM :: (keys ++ [opN, (OP_CHECKMULTISIG, [])])) []) (smallM : OP_1 ≤ opM.1 ∧ opM.1 ≤ OP_16)
    (smallN : OP_1 ≤ opN.1 ∧ opN.1 ≤ OP_16) (countM : (decodeOP_N opM.1).toNat = sigs.length)
    (countN : (decodeOP_N opN.1).toNat = keys.length) (sizes : ∀ key ∈ keys, 33 ≤ key.2.length ∧ key.2.length ≤ 65)
    (most : keys.length ≤ 16) (fewer : sigs.length ≤ keys.length) (encoded : Encoded checker flags (keys.map Prod.snd) sigs)
    (kept : ∀ vchSig ∈ sigs, findAndDelete script (pushData vchSig) = script) :
    run checker flags script ⟨sigs.reverse ++ [[]], [], [], 0, script⟩ =
      if keys.all (passes flags) then
        .ok ⟨[vchBool (greedy (fun vchSig vchPubKey => checker.checkSig vchSig vchPubKey script) (keys.map Prod.snd).reverse
          sigs.reverse)], [], [], 1 + keys.length, script⟩
      else .error (.error .MINIMALDATA) := by
  have plain (op : UInt8 × List UInt8) (small : OP_1 ≤ op.1 ∧ op.1 ≤ OP_16) : ¬ op.1 ≤ OP_PUSHDATA4 := fun isPush =>
    absurd (UInt8.le_trans small.1 isPush) (by decide)
  obtain ⟨next1, readM, reads⟩ := reads
  obtain ⟨middle, keysRead, next2, readN, next3, readSig, ended⟩ := Reads.split reads
  have pushes : ∀ op ∈ keys, op.1 ≤ OP_PUSHDATA4 ∧ op.2.length ≤ MAX_SCRIPT_PUSH_SIZE := fun op member =>
    ⟨Reads.isPush keysRead member (ne_nil_of_length_pos (Nat.lt_of_lt_of_le (by decide) (sizes op member).1)),
      Nat.le_trans (sizes op member).2 (by decide)⟩
  have few : (serialize sigs.length :: (sigs.reverse ++ [[]])).length + keys.length ≤ 1000 := by
    simp only [length_cons, length_append, length_reverse, length_nil]
    omega
  have noDataM : opM.2 = [] := getOp_plain readM (plain opM smallM)
  have noDataN : opN.2 = [] := getOp_plain readN (plain opN smallN)
  rw [noDataM] at readM
  rw [noDataN] at readN
  have required : run checker flags script ⟨sigs.reverse ++ [[]], [], [], 0, script⟩ =
      run checker flags next1 ⟨serialize sigs.length :: (sigs.reverse ++ [[]]), [], [], 0, script⟩ := by
    rw [run_read readM, evalStep_small smallM.1 smallM.2 (by rw [length_cons] at few; omega) (by decide), countM]
    rfl
  have counted : run checker flags middle
        ⟨(keys.map Prod.snd).reverse ++ serialize sigs.length :: (sigs.reverse ++ [[]]), [], [], 0, script⟩ =
      run checker flags next2 ⟨multisigStack (keys.map Prod.snd) sigs, [], [], 0, script⟩ := by
    have room : ((keys.map Prod.snd).reverse ++ serialize sigs.length :: (sigs.reverse ++ [[]])).length < 1000 := by
      simp only [length_cons, length_append, length_reverse, length_nil, length_map]
      omega
    rw [run_read readN, evalStep_small smallN.1 smallN.2 room (by decide), countN, multisigStack, length_map]
    rfl
  have checked : run checker flags next2 ⟨multisigStack (keys.map Prod.snd) sigs, [], [], 0, script⟩ =
      .ok ⟨[vchBool (greedy (fun vchSig vchPubKey => checker.checkSig vchSig vchPubKey script) (keys.map Prod.snd).reverse
        sigs.reverse)], [], [], 1 + keys.length, script⟩ := by
    rw [ended] at readSig
    have mapped : (keys.map Prod.snd).length = keys.length := length_map _
    have limit : 0 + 1 + (keys.map Prod.snd).length ≤ MAX_OPS_PER_SCRIPT := by
      rw [mapped]
      exact Nat.le_trans (Nat.add_le_add_left most _) (by decide)
    have found := opCheckMultiSig_stack (by rw [mapped]; exact most) (by rw [mapped]; exact fewer) limit encoded kept
    apply run_op readSig (by decide) (by decide) (by decide) (by simp)
    rw [evalOp_checkMultiSig found, mapped]
  rw [required, run_pushes keysRead pushes few (by decide), counted, checked]

theorem ends_multisig {opM opN : UInt8 × List UInt8} {keys : List (UInt8 × List UInt8)} {sigs : List (List UInt8)}
    (size : script.length ≤ MAX_SCRIPT_SIZE) (reads : Reads script (opM :: (keys ++ [opN, (OP_CHECKMULTISIG, [])])) [])
    (smallM : OP_1 ≤ opM.1 ∧ opM.1 ≤ OP_16) (smallN : OP_1 ≤ opN.1 ∧ opN.1 ≤ OP_16)
    (countM : (decodeOP_N opM.1).toNat = sigs.length) (countN : (decodeOP_N opN.1).toNat = keys.length)
    (sizes : ∀ key ∈ keys, 33 ≤ key.2.length ∧ key.2.length ≤ 65) (most : keys.length ≤ 16)
    (fewer : sigs.length ≤ keys.length) (encoded : ∀ key ∈ keys.map Prod.snd, isCompressedOrUncompressedPubKey key = true)
    (signed : ∀ (i : Nat) (isSig : i < sigs.length) (isKey : i < (keys.map Prod.snd).length), Signed checker sigs[i] (keys.map Prod.snd)[i] script) :
    Ends checker (sigs.reverse ++ [[]]) script := by
  have free (op : UInt8 × List UInt8) (small : OP_1 ≤ op.1 ∧ op.1 ≤ OP_16) : minimalOp op = true := by
    rw [minimalOp, decide_eq_false fun isPush => absurd (UInt8.le_trans small.1 isPush) (by decide)]
    rfl
  have minimal : minimalPushes script = keys.all minimalOp := by
    rw [minimalPushes_reads reads, all_cons, all_append, all_cons, free opM smallM, free opN smallN]
    exact and_true _
  have within : sigs.length ≤ (keys.map Prod.snd).length := by
    rw [length_map]
    exact fewer
  have pair (vchSig : List UInt8) (member : vchSig ∈ sigs) : ∃ vchPubKey, Signed checker vchSig vchPubKey script := by
    obtain ⟨i, isSig, there⟩ := getElem_of_mem member
    exact ⟨_, there ▸ signed i isSig (Nat.lt_of_lt_of_le isSig within)⟩
  have passed : Encoded checker STANDARD_SCRIPT_VERIFY_FLAGS (keys.map Prod.snd) sigs :=
    ⟨fun vchSig member => (pair vchSig member).choose_spec.encoding,
      fun vchPubKey member => checkPubKeyEncoding_ok (encoded vchPubKey member)⟩
  have kept (vchSig : List UInt8) (member : vchSig ∈ sigs) : findAndDelete script (pushData vchSig) = script :=
    (pair vchSig member).choose_spec.kept
  have matching : greedy (fun vchSig vchPubKey => checker.checkSig vchSig vchPubKey script) (keys.map Prod.snd).reverse sigs.reverse =
      true := by
    rw [greedy_iff, matches_reverse]
    apply matches_of_take within
    exact fun i isSig => (signed i isSig (Nat.lt_of_lt_of_le isSig within)).verifies
  apply ends_of_run (1 + keys.length) size
  rw [run_multisig reads smallM smallN countM countN sizes most fewer passed kept, passes_standard, minimal, matching]
  rfl

end Longcoin.Interpreter

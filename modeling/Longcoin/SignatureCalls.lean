import Longcoin.StackGuard

/-! The calls of `BaseSignatureChecker::CheckSig` that a script makes, in their order. -/

namespace Longcoin.Interpreter
open Primitives Script Standard Library.Outcome Option List

structure SigCall where
  vchSig : List UInt8
  vchPubKey : List UInt8
  scriptCode : CScript
deriving DecidableEq, Repr

def callsAfter {α : Type} (first : Except Stop α) (next : α → List SigCall) : List SigCall :=
  match first with
  | .ok result => next result
  | .error _ => []

/-- `OP_CHECKSIG` calls once its arguments are there and encoded as the flags ask. -/
def opCheckSigCalls (checker : Checker) (flags : Nat) (script : CScript) (stack : Stack) : List SigCall :=
  callsAfter (check (2 ≤ stack.length) .INVALID_STACK_OPERATION) fun _ =>
    callsAfter (stacktop stack 2) fun vchSig =>
      callsAfter (stacktop stack 1) fun vchPubKey =>
        callsAfter (checkSignatureEncoding checker vchSig flags) fun _ =>
          callsAfter (checkPubKeyEncoding vchPubKey flags) fun _ =>
            [⟨vchSig, vchPubKey, findAndDelete script (pushData vchSig)⟩]

def checkSigsCalls (checker : Checker) (flags : Nat) (scriptCode : CScript) (stack : Stack) :
    (nKeysCount nSigsCount isig ikey : Nat) → List SigCall
  | _, 0, _, _ => []
  | 0, _ + 1, _, _ => []
  | nKeysCount + 1, nSigsCount + 1, isig, ikey =>
    callsAfter (stacktop stack isig) fun vchSig =>
      callsAfter (stacktop stack ikey) fun vchPubKey =>
        callsAfter (checkSignatureEncoding checker vchSig flags) fun _ =>
          callsAfter (checkPubKeyEncoding vchPubKey flags) fun _ =>
            let fOk := checker.checkSig vchSig vchPubKey scriptCode
            let left := if fOk then nSigsCount else nSigsCount + 1
            ⟨vchSig, vchPubKey, scriptCode⟩ ::
              if left > nKeysCount then []
              else checkSigsCalls checker flags scriptCode stack nKeysCount left (if fOk then isig + 1 else isig) (ikey + 1)

def opCheckMultiSigCalls (checker : Checker) (flags : Nat) (script : CScript) (nOpCount : Nat) (stack : Stack) :
    List SigCall :=
  callsAfter (countAt flags stack 1 MAX_PUBKEYS_PER_MULTISIG .PUBKEY_COUNT) fun nKeysCount =>
    callsAfter (check (nOpCount + nKeysCount ≤ MAX_OPS_PER_SCRIPT) .OP_COUNT) fun _ =>
      callsAfter (countAt flags stack (2 + nKeysCount) nKeysCount .SIG_COUNT) fun nSigsCount =>
        callsAfter (check (3 + nKeysCount + nSigsCount ≤ stack.length) .INVALID_STACK_OPERATION) fun _ =>
          callsAfter ((List.range' (3 + nKeysCount) nSigsCount).foldlM (dropSignature stack) script) fun scriptCode =>
            checkSigsCalls checker flags scriptCode stack nKeysCount nSigsCount (3 + nKeysCount) 2

/-- The `switch`: no other instruction calls the checker for a signature. -/
def evalOpCalls (checker : Checker) (flags : Nat) (opcode : UInt8) (st : EvalState) : List SigCall :=
  if opcode = OP_CHECKSIG ∨ opcode = OP_CHECKSIGVERIFY then opCheckSigCalls checker flags st.codehash st.stack
  else if opcode = OP_CHECKMULTISIG ∨ opcode = OP_CHECKMULTISIGVERIFY then
    opCheckMultiSigCalls checker flags st.codehash st.nOpCount st.stack
  else []

def execOpCalls (checker : Checker) (flags : Nat) (opcode : UInt8) (st : EvalState) : List SigCall :=
  if st.fExec = true ∧ opcode ≤ OP_PUSHDATA4 then []
  else if st.fExec = true ∨ OP_IF ≤ opcode ∧ opcode ≤ OP_ENDIF then evalOpCalls checker flags opcode st
  else []

def evalStepCalls (checker : Checker) (flags : Nat) (opcode : UInt8) (vchPushValue : List UInt8) (st : EvalState) :
    List SigCall :=
  callsAfter (check (vchPushValue.length ≤ MAX_SCRIPT_PUSH_SIZE) .PUSH_SIZE) fun _ =>
    let nOpCount := if opcode > OP_16 then st.nOpCount + 1 else st.nOpCount
    callsAfter (check (nOpCount ≤ MAX_OPS_PER_SCRIPT) .OP_COUNT) fun _ =>
      callsAfter (check (!isDisabled opcode) .DISABLED_OPCODE) fun _ =>
        execOpCalls checker flags opcode { st with nOpCount }

def evalTurnsCalls (checker : Checker) (flags : Nat) : Nat → CScript → EvalState → List SigCall
  | 0, _, _ => []
  | turns + 1, pc, st =>
    if pc.isEmpty then []
    else
      (getOp pc).elim [] fun op =>
        evalStepCalls checker flags op.1 op.2.1 st ++
          callsAfter (evalStep checker flags op.1 op.2.1 op.2.2 st) (evalTurnsCalls checker flags turns op.2.2)

def evalScriptCalls (checker : Checker) (flags : Nat) (stack : Stack) (script : CScript) : List SigCall :=
  callsAfter (check (script.length ≤ MAX_SCRIPT_SIZE) .SCRIPT_SIZE) fun _ =>
    evalTurnsCalls checker flags script.length script (.start stack script)

def verifyRedeemScriptCalls (checker : Checker) (flags : Nat) (scriptSig : CScript) (stackCopy : Stack) : List SigCall :=
  callsAfter (check (isPushOnly scriptSig) .SIG_PUSHONLY) fun _ =>
    callsAfter (require (!stackCopy.isEmpty) .assertion) fun _ =>
      callsAfter (stacktop stackCopy 1) fun pubKey2 =>
        callsAfter (popstack stackCopy) fun stack => evalScriptCalls checker flags stack pubKey2

/-- `VerifyScript`: the calls of `scriptSig`, of `scriptPubKey`, and of a redeem script that is run. -/
def verifyScriptCalls (checker : Checker) (flags : Nat) (scriptSig scriptPubKey : CScript) : List SigCall :=
  callsAfter (check (!has flags SCRIPT_VERIFY_SIGPUSHONLY || isPushOnly scriptSig) .SIG_PUSHONLY) fun _ =>
    evalScriptCalls checker flags [] scriptSig ++
      callsAfter (evalScript checker flags [] scriptSig) fun stackCopy =>
        evalScriptCalls checker flags stackCopy scriptPubKey ++
          callsAfter (evalScript checker flags stackCopy scriptPubKey) fun stack =>
            callsAfter (checkTrue stack) fun _ =>
              if has flags SCRIPT_VERIFY_P2SH && CScript.isPayToScriptHash scriptPubKey then
                verifyRedeemScriptCalls checker flags scriptSig stackCopy
              else []

/-! ## The calls are all there is to a checker

A script under another checker for signatures, which answers these calls alike, does the same. -/

/-- The same interpreter with other answers about signatures. -/
def Checker.answering (checker : Checker) (other : List UInt8 → List UInt8 → CScript → Bool) : Checker :=
  { checker with checkSig := other }

/-- Another checker gives the same answers to these calls. -/
def Alike (checker : Checker) (other : List UInt8 → List UInt8 → CScript → Bool) (calls : List SigCall) : Prop :=
  ∀ call ∈ calls, other call.vchSig call.vchPubKey call.scriptCode = checker.checkSig call.vchSig call.vchPubKey call.scriptCode

section Answers
variable {checker : Checker} {flags : Nat} {other : List UInt8 → List UInt8 → CScript → Bool}

theorem bind_congr_calls {α β : Type} {first : Except Stop α} {next next' : α → Except Stop β} {calls : α → List SigCall}
    (alike : Alike checker other (callsAfter first calls))
    (later : ∀ middle, Alike checker other (calls middle) → next' middle = next middle) :
    (first >>= next') = (first >>= next) := by
  cases first with
  | error stop => rfl
  | ok middle => exact later middle alike

variable {stack : Stack}

theorem opCheckSig_answering {script : CScript} (isVerify : Bool)
    (alike : Alike checker other (opCheckSigCalls checker flags script stack)) :
    opCheckSig (checker.answering other) flags script isVerify stack = opCheckSig checker flags script isVerify stack := by
  apply bind_congr_calls alike; intro _ alike
  apply bind_congr_calls alike; intro vchSig alike
  apply bind_congr_calls alike; intro vchPubKey alike
  apply bind_congr_calls alike; intro _ alike
  apply bind_congr_calls alike; intro _ alike
  have same : (checker.answering other).checkSig vchSig vchPubKey (findAndDelete script (pushData vchSig)) = _ :=
    alike _ mem_cons_self
  rw [same]

theorem checkSigs_answering {scriptCode : CScript} {nKeysCount : Nat} : ∀ {nSigsCount isig ikey : Nat},
    Alike checker other (checkSigsCalls checker flags scriptCode stack nKeysCount nSigsCount isig ikey) →
    checkSigs (checker.answering other) flags scriptCode stack nKeysCount nSigsCount isig ikey =
      checkSigs checker flags scriptCode stack nKeysCount nSigsCount isig ikey := by
  induction nKeysCount with
  | zero =>
    intro nSigsCount isig ikey _
    cases nSigsCount <;> rfl
  | succ nKeysCount ih =>
    intro nSigsCount isig ikey alike
    cases nSigsCount with
    | zero => rfl
    | succ nSigsCount =>
      unfold checkSigs
      unfold checkSigsCalls at alike
      apply bind_congr_calls alike; intro vchSig alike
      apply bind_congr_calls alike; intro vchPubKey alike
      apply bind_congr_calls alike; intro _ alike
      apply bind_congr_calls alike; intro _ alike
      have same : (checker.answering other).checkSig vchSig vchPubKey scriptCode = checker.checkSig vchSig vchPubKey scriptCode :=
        alike _ mem_cons_self
      have next (left isig : Nat) (alike : Alike checker other
          (if left > nKeysCount then [] else checkSigsCalls checker flags scriptCode stack nKeysCount left isig (ikey + 1))) :
          (if left > nKeysCount then .ok false
            else checkSigs (checker.answering other) flags scriptCode stack nKeysCount left isig (ikey + 1)) =
          if left > nKeysCount then .ok false else checkSigs checker flags scriptCode stack nKeysCount left isig (ikey + 1) := by
        by_cases tooMany : left > nKeysCount
        · rw [if_pos tooMany, if_pos tooMany]
        · rw [if_neg tooMany] at alike
          rw [if_neg tooMany, if_neg tooMany, ih alike]
      simp only [same]
      exact next _ _ (forall_mem_cons.mp alike).2

theorem opCheckMultiSig_answering {script : CScript} {nOpCount : Nat} (isVerify : Bool)
    (alike : Alike checker other (opCheckMultiSigCalls checker flags script nOpCount stack)) :
    opCheckMultiSig (checker.answering other) flags script isVerify nOpCount stack =
      opCheckMultiSig checker flags script isVerify nOpCount stack := by
  apply bind_congr_calls alike; intro nKeysCount alike
  apply bind_congr_calls alike; intro _ alike
  apply bind_congr_calls alike; intro nSigsCount alike
  apply bind_congr_calls alike; intro _ alike
  apply bind_congr_calls alike; intro scriptCode alike
  rw [checkSigs_answering alike]

theorem evalOp_answering {opcode : UInt8} {pc : CScript} {st : EvalState}
    (alike : Alike checker other (evalOpCalls checker flags opcode st)) :
    evalOp (checker.answering other) flags opcode pc st = evalOp checker flags opcode pc st := by
  unfold evalOpCalls at alike
  by_cases single : opcode = OP_CHECKSIG ∨ opcode = OP_CHECKSIGVERIFY
  · rw [if_pos single] at alike
    have same (isVerify : Bool) := opCheckSig_answering isVerify alike
    rcases single with rfl | rfl
    · exact congrArg st.onStack (same false)
    · exact congrArg st.onStack (same true)
  · rw [if_neg single] at alike
    by_cases several : opcode = OP_CHECKMULTISIG ∨ opcode = OP_CHECKMULTISIGVERIFY
    · rw [if_pos several] at alike
      have same (isVerify : Bool) := opCheckMultiSig_answering isVerify alike
      rcases several with rfl | rfl
      · exact congrArg (fun result => result >>= fun after => pure { st with stack := after.1, nOpCount := after.2 }) (same false)
      · exact congrArg (fun result => result >>= fun after => pure { st with stack := after.1, nOpCount := after.2 }) (same true)
    · unfold evalOp
      simp only [if_neg single, if_neg several]
      rfl

theorem evalStep_answering {opcode : UInt8} {vchPushValue : List UInt8} {pc : CScript} {st : EvalState}
    (alike : Alike checker other (evalStepCalls checker flags opcode vchPushValue st)) :
    evalStep (checker.answering other) flags opcode vchPushValue pc st = evalStep checker flags opcode vchPushValue pc st := by
  apply bind_congr_calls alike; intro _ alike
  apply bind_congr_calls alike; intro _ alike
  apply bind_congr_calls alike; intro _ alike
  have same (st : EvalState) (alike : Alike checker other (execOpCalls checker flags opcode st)) :
      execOp (checker.answering other) flags opcode vchPushValue pc st = execOp checker flags opcode vchPushValue pc st := by
    unfold execOpCalls at alike
    unfold execOp
    split at alike
    · next push => rw [if_pos push, if_pos push]
    · next notPush =>
      rw [if_neg notPush, if_neg notPush]
      split at alike
      · next runs => rw [if_pos runs, if_pos runs, evalOp_answering alike]
      · next skipped => rw [if_neg skipped, if_neg skipped]
  exact congrArg (fun result => result >>= _) (same _ alike)

theorem alike_append {front back : List SigCall} :
    Alike checker other (front ++ back) ↔ Alike checker other front ∧ Alike checker other back := forall_mem_append

theorem evalTurns_answering {turns : Nat} {pc : CScript} {st : EvalState}
    (alike : Alike checker other (evalTurnsCalls checker flags turns pc st)) :
    evalTurns (checker.answering other) flags turns pc st = evalTurns checker flags turns pc st := by
  induction turns generalizing pc st with
  | zero => rfl
  | succ turns ih =>
    unfold evalTurnsCalls at alike
    unfold evalTurns
    split at alike
    · next ended => rw [if_pos ended, if_pos ended]
    · next goesOn =>
      rw [if_neg goesOn, if_neg goesOn]
      cases read : getOp pc with
      | none => rw [elim_none, elim_none]
      | some op =>
        rw [read, elim_some, alike_append] at alike
        rw [elim_some, elim_some, evalStep_answering alike.1]
        apply bind_congr_calls alike.2
        intro st alike
        exact ih alike

theorem evalScript_answering {script : CScript} (alike : Alike checker other (evalScriptCalls checker flags stack script)) :
    evalScript (checker.answering other) flags stack script = evalScript checker flags stack script := by
  apply bind_congr_calls alike
  intro _ alike
  have same := evalTurns_answering alike
  change ((evalTurns (checker.answering other) flags script.length script (.start stack script)).mapError caught >>= _) = _
  rw [same]
  rfl

theorem verifyRedeemScript_answering {scriptSig : CScript} {stackCopy : Stack}
    (alike : Alike checker other (verifyRedeemScriptCalls checker flags scriptSig stackCopy)) :
    verifyRedeemScript (checker.answering other) flags scriptSig stackCopy = verifyRedeemScript checker flags scriptSig stackCopy := by
  apply bind_congr_calls alike; intro _ alike
  apply bind_congr_calls alike; intro _ alike
  apply bind_congr_calls alike; intro pubKey2 alike
  apply bind_congr_calls alike; intro stack alike
  rw [evalScript_answering alike]

/-- A checker that gives the same answers to the calls that are made leads to the same result. -/
theorem verifyScript_answering {scriptSig scriptPubKey : CScript}
    (alike : Alike checker other (verifyScriptCalls checker flags scriptSig scriptPubKey)) :
    verifyScript (checker.answering other) flags scriptSig scriptPubKey = verifyScript checker flags scriptSig scriptPubKey := by
  apply bind_congr_calls alike; intro _ alike
  rw [alike_append] at alike
  rw [evalScript_answering alike.1]
  apply bind_congr_calls alike.2; intro stackCopy alike
  rw [alike_append] at alike
  rw [evalScript_answering alike.1]
  apply bind_congr_calls alike.2; intro stack alike
  apply bind_congr_calls alike; intro _ alike
  split
  · next redeems =>
    rw [if_pos redeems] at alike
    rw [verifyRedeemScript_answering alike]
  · rfl

end Answers

theorem verifyScript_answering_once : verifyScript (sampleChecker.answering fun vchSig _ _ => decide (vchSig = [7])) 0 [1, 7, 1, 8] [OP_CHECKSIG] =
    verifyScript sampleChecker 0 [1, 7, 1, 8] [OP_CHECKSIG] :=
  verifyScript_answering (show ∀ call ∈ verifyScriptCalls sampleChecker 0 [1, 7, 1, 8] [OP_CHECKSIG], _ by decide)

end Longcoin.Interpreter

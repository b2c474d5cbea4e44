import Longcoin.StandardRun

/-! `CScript::GetSigOpCount` (`script/script.cpp`) against the signatures that a script checks. -/

namespace Longcoin.Interpreter
open Primitives Script Standard ScriptNum Library.Bytes Library.Outcome EvalState List Option Bool

def sigOps (fAccurate : Bool) (lastOpcode opcode : UInt8) : Nat :=
  if opcode = OP_CHECKSIG ∨ opcode = OP_CHECKSIGVERIFY then 1
  else if opcode = OP_CHECKMULTISIG ∨ opcode = OP_CHECKMULTISIGVERIFY then
    if fAccurate = true ∧ OP_1 ≤ lastOpcode ∧ lastOpcode ≤ OP_16 then (decodeOP_N lastOpcode).toNat
    else MAX_PUBKEYS_PER_MULTISIG
  else 0

/-- The loop, up to an instruction that does not decode; `n` is an `unsigned int`. -/
def sigOpTurns (fAccurate : Bool) : Nat → CScript → UInt8 → Nat → Nat
  | 0, _, _, n => n
  | turns + 1, pc, lastOpcode, n =>
    if pc.isEmpty then n
    else (getOp pc).elim n fun op => sigOpTurns fAccurate turns op.2.2 op.1 ((n + sigOps fAccurate lastOpcode op.1) % 2 ^ 32)

def getSigOpCount (fAccurate : Bool) (script : CScript) : Nat := sigOpTurns fAccurate script.length script OP_INVALIDOPCODE 0

def lastPush : Nat → CScript → List UInt8 → Option (List UInt8)
  | 0, _, data => some data
  | turns + 1, pc, data =>
    if pc.isEmpty then some data
    else (getOp pc).bind fun op => if op.1 > OP_16 then none else lastPush turns op.2.2 op.2.1

/-- `scriptPubKey.GetSigOpCount(scriptSig)`. -/
def getSigOpCountOf (scriptPubKey scriptSig : CScript) : Nat :=
  if !CScript.isPayToScriptHash scriptPubKey then getSigOpCount true scriptPubKey
  else (lastPush scriptSig.length scriptSig []).elim 0 (getSigOpCount true)

def sigOpSum (fAccurate : Bool) : Nat → CScript → UInt8 → Nat
  | 0, _, _ => 0
  | turns + 1, pc, lastOpcode =>
    if pc.isEmpty then 0
    else (getOp pc).elim 0 fun op => sigOps fAccurate lastOpcode op.1 + sigOpSum fAccurate turns op.2.2 op.1

theorem sigOps_le (fAccurate : Bool) (lastOpcode opcode : UInt8) : sigOps fAccurate lastOpcode opcode ≤ MAX_PUBKEYS_PER_MULTISIG := by
  unfold sigOps
  split
  · decide
  · split
    · split
      · next small => exact Nat.le_trans (smallNumber small.2.1 small.2.2).2 (by decide)
      · exact Nat.le_refl _
    · exact Nat.zero_le _

theorem sigOps_accurate (lastOpcode opcode : UInt8) : sigOps true lastOpcode opcode ≤ sigOps false lastOpcode opcode := by
  have most := sigOps_le true lastOpcode opcode
  unfold sigOps at most ⊢
  split
  · exact Nat.le_refl _
  · split
    · next notSingle several => simpa [notSingle, several] using most
    · exact Nat.le_refl _

theorem sigOpTurns_eq (fAccurate : Bool) (turns : Nat) (pc : CScript) (lastOpcode : UInt8) (n : Nat) (small : n < 2 ^ 32) :
    sigOpTurns fAccurate turns pc lastOpcode n = (n + sigOpSum fAccurate turns pc lastOpcode) % 2 ^ 32 := by
  induction turns generalizing pc lastOpcode n with
  | zero => exact (Nat.mod_eq_of_lt small).symm
  | succ turns ih =>
    unfold sigOpTurns sigOpSum
    by_cases ended : pc.isEmpty = true
    · rw [if_pos ended, if_pos ended]
      exact (Nat.mod_eq_of_lt small).symm
    · rw [if_neg ended, if_neg ended]
      cases getOp pc with
      | none => exact (Nat.mod_eq_of_lt small).symm
      | some op =>
        rw [elim_some, elim_some, ih _ _ _ (Nat.mod_lt _ (by decide)), Nat.mod_add_mod, Nat.add_assoc]

theorem sigOpSum_accurate (turns : Nat) (pc : CScript) (lastOpcode : UInt8) :
    sigOpSum true turns pc lastOpcode ≤ sigOpSum false turns pc lastOpcode := by
  induction turns generalizing pc lastOpcode with
  | zero => exact Nat.le_refl _
  | succ turns ih =>
    unfold sigOpSum
    split
    · exact Nat.le_refl _
    · cases getOp pc with
      | none => exact Nat.le_refl _
      | some op => exact Nat.add_le_add (sigOps_accurate lastOpcode op.1) (ih op.2.2 op.1)

theorem sigOpSum_le (fAccurate : Bool) (turns : Nat) (pc : CScript) (lastOpcode : UInt8) :
    sigOpSum fAccurate turns pc lastOpcode ≤ turns * MAX_PUBKEYS_PER_MULTISIG := by
  induction turns generalizing pc lastOpcode with
  | zero => exact Nat.zero_le _
  | succ turns ih =>
    unfold sigOpSum
    split
    · exact Nat.zero_le _
    · cases getOp pc with
      | none => exact Nat.zero_le _
      | some op =>
        have here := sigOps_le fAccurate lastOpcode op.1
        have later := ih op.2.2 op.1
        rw [Nat.succ_mul, elim_some]
        omega

theorem getSigOpCount_eq (fAccurate : Bool) {script : CScript} (size : script.length ≤ MAX_SCRIPT_SIZE) :
    getSigOpCount fAccurate script = sigOpSum fAccurate script.length script OP_INVALIDOPCODE := by
  have most := sigOpSum_le fAccurate script.length script OP_INVALIDOPCODE
  have limit : script.length * MAX_PUBKEYS_PER_MULTISIG < 2 ^ 32 :=
    Nat.lt_of_le_of_lt (Nat.mul_le_mul_right _ size) (by decide)
  unfold getSigOpCount
  rw [sigOpTurns_eq fAccurate _ _ _ _ (by decide), Nat.zero_add, Nat.mod_eq_of_lt (by omega)]

section Calls
variable {checker : Checker} {flags : Nat}

/-- After an `OP_1` to `OP_16` that ran, its number is on the top of the stack. -/
def TopNumber (lastOpcode : UInt8) (st : EvalState) : Prop :=
  OP_1 ≤ lastOpcode → lastOpcode ≤ OP_16 → st.fExec = true →
    st.stack[0]? = some (serialize (decodeOP_N lastOpcode).toNat)

variable {opcode : UInt8} {st : EvalState}

theorem execOp_small {data : List UInt8} {pc : CScript} (least : OP_1 ≤ opcode) (most : opcode ≤ OP_16) :
    execOp checker flags opcode data pc st =
      .ok (if st.fExec then { st with stack := serialize (decodeOP_N opcode).toNat :: st.stack } else st) := by
  have notPush : ¬ opcode ≤ OP_PUSHDATA4 := fun isPush => absurd (UInt8.le_trans least isPush) (by decide)
  have notIf : ¬ OP_IF ≤ opcode := fun isIf => absurd (UInt8.le_trans isIf most) (by decide)
  unfold execOp
  rw [if_neg fun both => notPush both.2]
  cases exec : st.fExec with
  | false => simp [notIf]
  | true => rw [if_pos (.inl rfl), evalOp, if_pos (.inr ⟨least, most⟩), (smallNumber least most).1, if_pos rfl]

theorem topNumber_step {data : List UInt8} {pc : CScript} {st' : EvalState}
    (done : evalStep checker flags opcode data pc st = .ok st') : TopNumber opcode st' := by
  intro least most exec
  obtain ⟨-, -, nOpCount, done⟩ := evalStep_ok done
  rw [execOp_small least most, Except.ok.injEq] at done
  split at done
  · rw [← done]
    rfl
  · next skipped =>
    rw [← done] at exec
    exact absurd exec skipped

theorem length_opCheckSigCalls (script : CScript) (stack : Stack) : (opCheckSigCalls checker flags script stack).length ≤ 1 := by
  iterate 5 (apply callsAfter_length; intro _ _)
  exact Nat.le_refl 1

variable {lastOpcode : UInt8}

theorem length_evalOpCalls (top : TopNumber lastOpcode st) (exec : st.fExec = true) :
    (evalOpCalls checker flags opcode st).length ≤ sigOps true lastOpcode opcode := by
  unfold evalOpCalls sigOps
  split
  · exact length_opCheckSigCalls st.codehash st.stack
  · split
    · apply length_opCheckMultiSigCalls
      intro nKeysCount counted
      split
      · next small =>
        obtain ⟨-, least, most⟩ := small
        have few := (smallNumber least most).2
        have same := @countAt_small st.stack flags 1 MAX_PUBKEYS_PER_MULTISIG _ .PUBKEY_COUNT few
          (Nat.le_trans few (by decide)) (Nat.le_refl 1) (top least most exec)
        rw [counted, Except.ok.injEq] at same
        exact Nat.le_of_eq same
      · exact (countAt_ok counted).2
    · exact Nat.le_refl 0

theorem length_execOpCalls (top : TopNumber lastOpcode st) :
    (execOpCalls checker flags opcode st).length ≤ sigOps true lastOpcode opcode := by
  unfold execOpCalls
  split
  · exact Nat.zero_le _
  · split
    · next runs =>
      by_cases exec : st.fExec = true
      · exact length_evalOpCalls top exec
      · -- where the script is skipped only the conditions in it are followed
        have range := runs.resolve_left exec
        have notSingle : ¬ (opcode = OP_CHECKSIG ∨ opcode = OP_CHECKSIGVERIFY) := by
          intro single
          rcases single with rfl | rfl <;> exact absurd range.2 (by decide)
        have notSeveral : ¬ (opcode = OP_CHECKMULTISIG ∨ opcode = OP_CHECKMULTISIGVERIFY) := by
          intro several
          rcases several with rfl | rfl <;> exact absurd range.2 (by decide)
        unfold evalOpCalls
        rw [if_neg notSingle, if_neg notSeveral]
        exact Nat.zero_le _
    · exact Nat.zero_le _

theorem length_evalStepCalls {data : List UInt8} (top : TopNumber lastOpcode st) :
    (evalStepCalls checker flags opcode data st).length ≤ sigOps true lastOpcode opcode := by
  apply callsAfter_length; intro _ _
  apply callsAfter_length; intro _ _
  apply callsAfter_length; intro _ _
  have numbered (nOpCount : Nat) : TopNumber lastOpcode { st with nOpCount } := top
  exact length_execOpCalls (numbered _)

theorem length_evalTurnsCalls (turns : Nat) (pc : CScript) (lastOpcode : UInt8) (st : EvalState) (top : TopNumber lastOpcode st) :
    (evalTurnsCalls checker flags turns pc st).length ≤ sigOpSum true turns pc lastOpcode := by
  induction turns generalizing pc lastOpcode st with
  | zero => exact Nat.le_refl 0
  | succ turns ih =>
    unfold evalTurnsCalls sigOpSum
    split
    · exact Nat.le_refl 0
    · cases getOp pc with
      | none => exact Nat.le_refl 0
      | some op =>
        rw [elim_some, elim_some, length_append]
        apply Nat.add_le_add (length_evalStepCalls top)
        apply callsAfter_length
        intro st' done
        exact ih op.2.2 op.1 st' (topNumber_step done)

theorem length_evalScriptCalls (stack : Stack) (script : CScript) :
    (evalScriptCalls checker flags stack script).length ≤ getSigOpCount true script := by
  apply callsAfter_length
  intro _ size
  have size : script.length ≤ MAX_SCRIPT_SIZE := of_decide_eq_true (require_ok.mp size)
  rw [getSigOpCount_eq true size]
  apply length_evalTurnsCalls
  intro _ most
  exact absurd most (by decide)

/-- A script that checks no signature whatever the stack. -/
def Idle (checker : Checker) (flags : Nat) (script : CScript) : Prop := ∀ stack, evalScriptCalls checker flags stack script = []

theorem idle_small (small : PushesNumber opcode) :
    Idle checker flags (serialize ((opcode.toNat : Int) - (OP_1.toNat - 1))) := by
  intro stack
  rcases small with rfl | ⟨least, most⟩
  · rfl
  · obtain ⟨value, few⟩ := smallNumber least most
    rw [value]
    generalize (decodeOP_N opcode).toNat = number at few
    interval_cases number <;> rfl

theorem lastPush_top (turns : Nat) (pc : CScript) (data : List UInt8) (st last : EvalState) (exec : st.vfExec = [])
    (pushOnly : pushOnlyTurns turns pc = true) (done : evalTurns checker flags turns pc st = .ok last)
    (known : ∀ top, st.stack.head? = some top → top = data ∨ Idle checker flags top) :
    ∃ subscript, lastPush turns pc data = some subscript ∧
      ∀ top, last.stack.head? = some top → top = subscript ∨ Idle checker flags top := by
  induction turns generalizing pc data st with
  | zero =>
    cases done
    exact ⟨data, rfl, known⟩
  | succ turns ih =>
    unfold pushOnlyTurns at pushOnly
    unfold evalTurns at done
    unfold lastPush
    by_cases ended : pc.isEmpty = true
    · rw [if_pos ended] at done ⊢
      cases done
      exact ⟨data, rfl, known⟩
    · rw [if_neg ended] at done ⊢
      rw [or_eq_true] at pushOnly
      obtain ⟨op, read, pushOnly⟩ := (any_eq_true _ _).mp (pushOnly.resolve_left ended)
      rw [and_eq_true, decide_eq_true_eq] at pushOnly
      rw [read, elim_some] at done
      rw [read, bind_some, if_neg (UInt8.not_lt.mpr pushOnly.1)]
      obtain ⟨st', stepped, done⟩ := bind_ok.mp done
      obtain ⟨-, -, nOpCount, stepped⟩ := evalStep_ok stepped
      have running : fExec { st with nOpCount } = true := by
        unfold fExec
        rw [exec]
        rfl
      obtain ⟨value, rfl, pushed⟩ := execOp_push pushOnly.1 running stepped
      apply ih op.2.2 op.2.1 _ ?_ pushOnly.2 done
      · intro top there
        rw [← some.inj there]
        rcases pushed with data | ⟨small, number⟩
        · exact .inl data
        · rw [number]
          exact .inr (idle_small small)
      · exact exec

theorem length_verifyRedeemScriptCalls {scriptSig : CScript} {stackCopy : Stack}
    (evaluated : evalScript checker flags [] scriptSig = .ok stackCopy) :
    (verifyRedeemScriptCalls checker flags scriptSig stackCopy).length ≤
      (lastPush scriptSig.length scriptSig []).elim 0 (getSigOpCount true) := by
  apply callsAfter_length; intro _ pushOnly
  apply callsAfter_length; intro _ _
  apply callsAfter_length; intro pubKey2 top
  apply callsAfter_length; intro stack _
  have pushOnly : isPushOnly scriptSig = true := require_ok.mp pushOnly
  unfold evalScript check at evaluated
  obtain ⟨-, evaluated⟩ := require_bind_ok.mp evaluated
  obtain ⟨last, ran, evaluated⟩ := bind_ok.mp evaluated
  obtain ⟨-, evaluated⟩ := require_bind_ok.mp evaluated
  have ran : evalTurns checker flags scriptSig.length scriptSig (.start [] scriptSig) = .ok last := by
    cases turns : evalTurns checker flags scriptSig.length scriptSig (.start [] scriptSig) with
    | error stop =>
      rw [start] at turns
      rw [turns] at ran
      cases ran
    | ok st =>
      rw [start] at turns
      rw [turns] at ran
      exact ran
  obtain ⟨subscript, pushed, known⟩ := lastPush_top scriptSig.length scriptSig [] (.start [] scriptSig) last rfl pushOnly ran
    fun _ h => by cases h
  rw [pushed, elim_some]
  have head : last.stack.head? = some pubKey2 := by
    rw [pure_ok.mp evaluated]
    unfold stacktop at top
    rw [if_neg (by decide)] at top
    cases stackCopy with
    | nil => cases top
    | cons first rest =>
      cases top
      rfl
  rcases known pubKey2 head with rfl | idle
  · exact length_evalScriptCalls stack pubKey2
  · rw [idle stack]
    exact Nat.zero_le _

end Calls

def evaluatesP2SH (flags : Nat) (scriptPubKey : CScript) : Bool :=
  has flags SCRIPT_VERIFY_P2SH && CScript.isPayToScriptHash scriptPubKey

/-- No input makes more checks of signatures than it is counted for; and the accurate count of a script is at most the
other, if this one fits an `unsigned int`. -/
theorem sigOpCount_bounds_calls (checker : Checker) (flags : Nat) (scriptSig scriptPubKey : CScript) :
    (verifyScriptCalls checker flags scriptSig scriptPubKey).length ≤
        getSigOpCount true scriptSig + getSigOpCount true scriptPubKey +
          (if evaluatesP2SH flags scriptPubKey then getSigOpCountOf scriptPubKey scriptSig else 0) ∧
      ∀ script, sigOpSum false script.length script OP_INVALIDOPCODE < 2 ^ 32 →
        getSigOpCount true script ≤ getSigOpCount false script := by
  constructor
  · rw [Nat.add_assoc]
    apply callsAfter_length; intro _ _
    rw [length_append]
    apply Nat.add_le_add (length_evalScriptCalls [] scriptSig)
    apply callsAfter_length; intro stackCopy evaluated
    rw [length_append]
    apply Nat.add_le_add (length_evalScriptCalls stackCopy scriptPubKey)
    apply callsAfter_length; intro stack _
    apply callsAfter_length; intro _ _
    change (if evaluatesP2SH flags scriptPubKey then _ else _ : List SigCall).length ≤ _
    cases redeems : evaluatesP2SH flags scriptPubKey with
    | false => exact Nat.le_refl 0
    | true =>
      rw [if_pos rfl, if_pos rfl]
      have scriptHash : CScript.isPayToScriptHash scriptPubKey = true := (and_eq_true_iff.mp redeems).2
      unfold getSigOpCountOf
      rw [scriptHash, Bool.not_true, if_neg Bool.false_ne_true]
      exact length_verifyRedeemScriptCalls evaluated
  · intro script fits
    have accurate := sigOpSum_accurate script.length script OP_INVALIDOPCODE
    unfold getSigOpCount
    rw [sigOpTurns_eq true _ _ _ _ (by decide), sigOpTurns_eq false _ _ _ _ (by decide), Nat.zero_add, Nat.zero_add,
      Nat.mod_eq_of_lt fits, Nat.mod_eq_of_lt (by omega)]
    exact accurate

/-- Two checks of which only the second follows a small number. -/
theorem sigOpCount_bounds_calls_small :
    getSigOpCount true [OP_CHECKMULTISIG, OP_1, OP_CHECKMULTISIG] ≤ getSigOpCount false [OP_CHECKMULTISIG, OP_1, OP_CHECKMULTISIG] :=
  (sigOpCount_bounds_calls sampleChecker SCRIPT_VERIFY_P2SH [] []).2 _ (by decide)

/-- `OP_16 OP_CHECKMULTISIG`, over and over. -/
def multiSigs (times : Nat) : CScript := (List.replicate times [OP_16, OP_CHECKMULTISIG]).flatten

theorem sigOpSum_multiSigs (fAccurate : Bool) (times : Nat) (lastOpcode : UInt8) :
    sigOpSum fAccurate (multiSigs times).length (multiSigs times) lastOpcode = times * if fAccurate then 16 else 20 := by
  induction times generalizing lastOpcode with
  | zero => cases fAccurate <;> rfl
  | succ times ih =>
    have script : multiSigs (times + 1) = OP_16 :: OP_CHECKMULTISIG :: multiSigs times := rfl
    have first : getOp (OP_16 :: OP_CHECKMULTISIG :: multiSigs times) = some (OP_16, [], OP_CHECKMULTISIG :: multiSigs times) := rfl
    have second : getOp (OP_CHECKMULTISIG :: multiSigs times) = some (OP_CHECKMULTISIG, [], multiSigs times) := rfl
    have none : sigOps fAccurate lastOpcode OP_16 = 0 := by
      unfold sigOps
      rw [if_neg (by decide), if_neg (by decide)]
    have keys : sigOps fAccurate OP_16 OP_CHECKMULTISIG = if fAccurate then 16 else 20 := by cases fAccurate <;> rfl
    rw [script, List.length_cons, sigOpSum, List.isEmpty_cons, if_neg Bool.false_ne_true, first, Option.elim_some, none,
      List.length_cons, sigOpSum, List.isEmpty_cons, if_neg Bool.false_ne_true, second, Option.elim_some, keys, ih,
      Nat.zero_add, Nat.succ_mul, Nat.add_comm]

/-- 429 MB of multisignature checks: the count of twenty keys for each wraps around. -/
theorem sigOpCount_wraps : ¬ getSigOpCount true (multiSigs 214748365) ≤ getSigOpCount false (multiSigs 214748365) := by
  unfold getSigOpCount
  rw [sigOpTurns_eq true _ _ _ _ (by decide), sigOpTurns_eq false _ _ _ _ (by decide), sigOpSum_multiSigs, sigOpSum_multiSigs]
  decide

end Longcoin.Interpreter

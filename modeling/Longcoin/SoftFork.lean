import Longcoin.Interpreter

/-! Script verification flags only ever restrict: what a script does under more flags it does under fewer,
and so do the inputs of a transaction and the transactions of a block. -/

namespace Longcoin.Interpreter
open Primitives Script ScriptNum Library.Outcome Bool

/-- The flags of one set are among those of another, and neither set asks for what the other would change:
where the upgradable no-ops are discouraged the sets agree on which of them are enabled. -/
structure Fewer (flags more : Nat) : Prop where
  subset : flags &&& more = flags
  enabled : has flags SCRIPT_VERIFY_DISCOURAGE_UPGRADABLE_NOPS = true →
    has flags SCRIPT_VERIFY_CHECKLOCKTIMEVERIFY = has more SCRIPT_VERIFY_CHECKLOCKTIMEVERIFY ∧
      has flags SCRIPT_VERIFY_CHECKSEQUENCEVERIFY = has more SCRIPT_VERIFY_CHECKSEQUENCEVERIFY

variable {checker : Checker} {flags more : Nat}

section

variable (fewer : Fewer flags more)
include fewer

theorem has_of_fewer {flag : Nat} (holds : has flags flag = true) : has more flag = true := by
  rw [has, bne_iff_ne] at holds ⊢
  intro absent
  apply holds
  calc flags &&& flag = flags &&& (more &&& flag) := by rw [← Nat.and_assoc, fewer.subset]
    _ = 0 := by rw [absent, Nat.and_zero]

theorem weakens_check (flag : Nat) (passes : Bool) (serror : ScriptError) :
    Weakens (check (!has flags flag || passes) serror) (check (!has more flag || passes) serror) := by
  refine weakens_require fun passed => ?_
  rw [or_eq_true, not_eq_true'] at passed ⊢
  refine passed.imp_left fun absent => ?_
  by_contra present
  rw [not_eq_false] at present
  rw [has_of_fewer fewer present] at absent
  cases absent

theorem checkSignatureEncoding_weakens (vchSig : List UInt8) :
    Weakens (checkSignatureEncoding checker vchSig flags) (checkSignatureEncoding checker vchSig more) := by
  refine weakens_else fun _ => ?_
  refine weakens_bind (weakens_check fewer _ _ _) fun _ => ?_
  refine weakens_bind (weakens_check fewer _ _ _) fun _ => ?_
  refine weakens_bind (weakens_check fewer _ _ _) fun _ => ?_
  exact weakens_check fewer _ _ _

theorem checkPubKeyEncoding_weakens (vchPubKey : List UInt8) :
    Weakens (checkPubKeyEncoding vchPubKey flags) (checkPubKeyEncoding vchPubKey more) := weakens_check fewer _ _ _

theorem scriptNum_weakens (vch : List UInt8) (nMaxNumSize : Nat) :
    Weakens (scriptNum flags vch nMaxNumSize) (scriptNum more vch nMaxNumSize) := by
  intro value read
  rw [scriptNum] at read ⊢
  cases number : ofBytes vch (has more SCRIPT_VERIFY_MINIMALDATA) nMaxNumSize with
  | none =>
    rw [number] at read
    cases read
  | some value' =>
    rw [number] at read
    rw [ofBytes_of_minimal (has_of_fewer fewer) number]
    exact read

theorem stackNum_weakens (stack : Stack) (i nMaxNumSize : Nat) {α : Type}
    {next next' : Int → Except Stop α} (later : ∀ value, Weakens (next value) (next' value)) :
    Weakens (stacktop stack i >>= fun vch => scriptNum flags vch nMaxNumSize >>= next)
      (stacktop stack i >>= fun vch => scriptNum more vch nMaxNumSize >>= next') :=
  weakens_after fun _ => weakens_bind (scriptNum_weakens fewer _ _) later

theorem opPick_weakens (isRoll : Bool) (stack : Stack) : Weakens (opPick flags isRoll stack) (opPick more isRoll stack) :=
  weakens_after fun _ => stackNum_weakens fewer _ _ _ fun _ => weakens_refl _

theorem opUnary_weakens (opcode : UInt8) (stack : Stack) : Weakens (opUnary flags opcode stack) (opUnary more opcode stack) :=
  weakens_after fun _ => stackNum_weakens fewer _ _ _ fun _ => weakens_refl _

theorem opBinary_weakens (opcode : UInt8) (stack : Stack) :
    Weakens (opBinary flags opcode stack) (opBinary more opcode stack) := by
  refine weakens_after fun _ => ?_
  refine stackNum_weakens fewer _ _ _ fun bn1 => ?_
  exact stackNum_weakens fewer _ _ _ fun bn2 => weakens_refl _

theorem opWithin_weakens (stack : Stack) : Weakens (opWithin flags stack) (opWithin more stack) := by
  refine weakens_after fun _ => ?_
  refine stackNum_weakens fewer _ _ _ fun bn1 => ?_
  refine stackNum_weakens fewer _ _ _ fun bn2 => ?_
  exact stackNum_weakens fewer _ _ _ fun bn3 => weakens_refl _

theorem opCheckSig_weakens (script : CScript) (isVerify : Bool) (stack : Stack) :
    Weakens (opCheckSig checker flags script isVerify stack) (opCheckSig checker more script isVerify stack) := by
  refine weakens_after fun _ => ?_
  refine weakens_after fun vchSig => ?_
  refine weakens_after fun vchPubKey => ?_
  refine weakens_bind (checkSignatureEncoding_weakens fewer _) fun _ => ?_
  exact weakens_bind (checkPubKeyEncoding_weakens fewer _) fun _ => weakens_refl _

theorem checkSigs_weakens (scriptCode : CScript) (stack : Stack) (nKeysCount nSigsCount isig ikey : Nat) :
    Weakens (checkSigs checker flags scriptCode stack nKeysCount nSigsCount isig ikey)
      (checkSigs checker more scriptCode stack nKeysCount nSigsCount isig ikey) := by
  induction nKeysCount generalizing nSigsCount isig ikey with
  | zero => cases nSigsCount <;> exact weakens_refl _
  | succ nKeysCount ih =>
    cases nSigsCount with
    | zero => exact weakens_refl _
    | succ nSigsCount =>
      rw [checkSigs, checkSigs]
      refine weakens_after fun vchSig => ?_
      refine weakens_after fun vchPubKey => ?_
      refine weakens_bind (checkSignatureEncoding_weakens fewer _) fun _ => ?_
      refine weakens_bind (checkPubKeyEncoding_weakens fewer _) fun _ => ?_
      exact weakens_else fun _ => ih _ _ _

theorem countAt_weakens (stack : Stack) (i limit : Nat) (serror : ScriptError) :
    Weakens (countAt flags stack i limit serror) (countAt more stack i limit serror) :=
  weakens_after fun _ => stackNum_weakens fewer _ _ _ fun _ => weakens_refl _

theorem opCheckMultiSig_weakens (script : CScript) (isVerify : Bool) (nOpCount : Nat) (stack : Stack) :
    Weakens (opCheckMultiSig checker flags script isVerify nOpCount stack)
      (opCheckMultiSig checker more script isVerify nOpCount stack) := by
  refine weakens_bind (countAt_weakens fewer _ _ _ _) fun nKeysCount => ?_
  refine weakens_after fun _ => ?_
  refine weakens_bind (countAt_weakens fewer _ _ _ _) fun nSigsCount => ?_
  refine weakens_after fun _ => ?_
  refine weakens_after fun scriptCode => ?_
  refine weakens_bind (checkSigs_weakens fewer _ _ _ _ _ _) fun fSuccess => ?_
  refine weakens_after fun stack => ?_
  refine weakens_after fun _ => ?_
  refine weakens_after fun dummy => ?_
  exact weakens_bind (weakens_check fewer _ _ _) fun _ => weakens_refl _

theorem opUpgradableNop_weakens : Weakens (opUpgradableNop flags) (opUpgradableNop more) := by
  have switched := weakens_check fewer SCRIPT_VERIFY_DISCOURAGE_UPGRADABLE_NOPS false .DISCOURAGE_UPGRADABLE_NOPS
  rwa [Bool.or_false, Bool.or_false] at switched

theorem lockTime_weakens (flag : Nat) (enables : has flags SCRIPT_VERIFY_DISCOURAGE_UPGRADABLE_NOPS = true →
      has flags flag = has more flag) {lockTime lockTime' : Except Stop Unit} (weakens : Weakens lockTime lockTime') :
    Weakens (if has flags flag then lockTime else opUpgradableNop flags)
      (if has more flag then lockTime' else opUpgradableNop more) := by
  cases enabled : has flags flag with
  | true =>
    rw [has_of_fewer fewer enabled]
    exact weakens
  | false =>
    cases enabledMore : has more flag with
    | false => exact opUpgradableNop_weakens fewer
    | true =>
      have welcome : has flags SCRIPT_VERIFY_DISCOURAGE_UPGRADABLE_NOPS = false := by
        by_contra discouraged
        have agree := enables (not_eq_false _ ▸ discouraged)
        rw [enabled, enabledMore] at agree
        cases agree
      intro _ _
      rw [if_neg (by decide), opUpgradableNop, welcome]
      rfl

theorem lockTimeOperand_weakens (stack : Stack) : Weakens (lockTimeOperand flags stack) (lockTimeOperand more stack) :=
  weakens_after fun _ => stackNum_weakens fewer _ _ _ fun _ => weakens_refl _

theorem opCheckLockTimeVerify_weakens (stack : Stack) :
    Weakens (opCheckLockTimeVerify checker flags stack) (opCheckLockTimeVerify checker more stack) :=
  lockTime_weakens fewer _ (fun discouraged => (fewer.enabled discouraged).1)
    (weakens_bind (lockTimeOperand_weakens fewer _) fun _ => weakens_refl _)

theorem opCheckSequenceVerify_weakens (stack : Stack) :
    Weakens (opCheckSequenceVerify checker flags stack) (opCheckSequenceVerify checker more stack) :=
  lockTime_weakens fewer _ (fun discouraged => (fewer.enabled discouraged).2)
    (weakens_bind (lockTimeOperand_weakens fewer _) fun _ => weakens_refl _)

end

theorem onStack_weakens (st : EvalState) {result result' : Except Stop Stack} (weakens : Weakens result result') :
    Weakens (st.onStack result) (st.onStack result') := weakens_bind weakens fun _ => weakens_refl _

section

variable (fewer : Fewer flags more)
include fewer

theorem evalOp_weakens (opcode : UInt8) (pc : CScript) (st : EvalState) :
    Weakens (evalOp checker flags opcode pc st) (evalOp checker more opcode pc st) := by
  rw [evalOp, evalOp]
  refine weakens_else fun _ => ?_
  refine weakens_else fun _ => ?_
  refine weakens_if (fun _ => weakens_bind (opCheckLockTimeVerify_weakens fewer _) fun _ => weakens_refl _) fun _ => ?_
  refine weakens_if (fun _ => weakens_bind (opCheckSequenceVerify_weakens fewer _) fun _ => weakens_refl _) fun _ => ?_
  refine weakens_if (fun _ => weakens_bind (opUpgradableNop_weakens fewer) fun _ => weakens_refl _) fun _ => ?_
  -- conditions, `OP_RETURN` and the alternative stack
  iterate 7 refine weakens_else fun _ => ?_
  -- numbers
  refine weakens_if (fun _ => onStack_weakens st (opPick_weakens fewer _ _)) fun _ => ?_
  refine weakens_if (fun _ => onStack_weakens st (opUnary_weakens fewer _ _)) fun _ => ?_
  refine weakens_if (fun _ => onStack_weakens st (opBinary_weakens fewer _ _)) fun _ => ?_
  refine weakens_if (fun _ => onStack_weakens st (opWithin_weakens fewer _)) fun _ => ?_
  -- signatures
  refine weakens_if (fun _ => onStack_weakens st (opCheckSig_weakens fewer _ _ _)) fun _ => ?_
  refine weakens_if (fun _ => ?_) fun _ => weakens_refl _
  exact weakens_bind (opCheckMultiSig_weakens fewer _ _ _ _) fun _ => weakens_refl _

theorem execOp_weakens (opcode : UInt8) (vchPushValue : List UInt8) (pc : CScript) (st : EvalState) :
    Weakens (execOp checker flags opcode vchPushValue pc st) (execOp checker more opcode vchPushValue pc st) := by
  refine weakens_if (fun _ => weakens_bind (weakens_check fewer _ _ _) fun _ => weakens_refl _) fun _ => ?_
  exact weakens_if (fun _ => evalOp_weakens fewer _ _ _) fun _ => weakens_refl _

theorem evalStep_weakens (opcode : UInt8) (vchPushValue : List UInt8) (pc : CScript) (st : EvalState) :
    Weakens (evalStep checker flags opcode vchPushValue pc st) (evalStep checker more opcode vchPushValue pc st) := by
  refine weakens_after fun _ => ?_
  refine weakens_after fun _ => ?_
  refine weakens_after fun _ => ?_
  exact weakens_bind (execOp_weakens fewer _ _ _ _) fun _ => weakens_refl _

theorem evalTurns_weakens (turns : Nat) (pc : CScript) (st : EvalState) :
    Weakens (evalTurns checker flags turns pc st) (evalTurns checker more turns pc st) := by
  induction turns generalizing pc st with
  | zero =>
    rw [evalTurns, evalTurns]
    exact weakens_refl _
  | succ turns ih =>
    rw [evalTurns, evalTurns]
    refine weakens_else fun _ => ?_
    cases getOp pc with
    | none =>
      rw [Option.elim_none, Option.elim_none]
      exact weakens_refl _
    | some op => exact weakens_bind (evalStep_weakens fewer _ _ _ _) fun st => ih _ st

theorem evalScript_weakens (stack : Stack) (script : CScript) :
    Weakens (evalScript checker flags stack script) (evalScript checker more stack script) := by
  refine weakens_after fun _ => ?_
  exact weakens_bind (weakens_mapError _ (evalTurns_weakens fewer _ _ _)) fun _ => weakens_refl _

end

/-- A set of flags and a larger one, as `VerifyScript` takes them: a clean stack is asked for with P2SH only. -/
structure SoftFork (flags more : Nat) : Prop extends Fewer flags more where
  clean : has flags SCRIPT_VERIFY_CLEANSTACK = true → has flags SCRIPT_VERIFY_P2SH = true
  cleanMore : has more SCRIPT_VERIFY_CLEANSTACK = true → has more SCRIPT_VERIFY_P2SH = true

theorem verifyRedeemScript_weakens (fewer : Fewer flags more) (scriptSig : CScript) (stackCopy : Stack) :
    Weakens (verifyRedeemScript checker flags scriptSig stackCopy) (verifyRedeemScript checker more scriptSig stackCopy) := by
  refine weakens_after fun _ => ?_
  refine weakens_after fun _ => ?_
  refine weakens_after fun pubKey2 => ?_
  refine weakens_after fun stack => ?_
  exact weakens_bind (evalScript_weakens fewer _ _) fun _ => weakens_refl _

theorem checkCleanStack_weakens (fork : SoftFork flags more) (stack : Stack) :
    Weakens (checkCleanStack flags stack) (checkCleanStack more stack) := by
  rw [checkCleanStack, checkCleanStack]
  cases clean : has flags SCRIPT_VERIFY_CLEANSTACK with
  | false => exact fun _ _ => rfl
  | true =>
    rw [has_of_fewer fork.toFewer clean]
    exact weakens_bind (weakens_require fun _ => fork.clean clean) fun _ => weakens_refl _

theorem checkCleanStack_plain (fork : SoftFork flags more) (plain : has flags SCRIPT_VERIFY_P2SH = false) (stack : Stack) :
    checkCleanStack flags stack = .ok () := by
  rw [checkCleanStack, if_neg]
  intro clean
  rw [fork.clean clean] at plain
  cases plain

theorem verifyScript_weakens (fork : SoftFork flags more) (scriptSig scriptPubKey : CScript) :
    Weakens (verifyScript checker flags scriptSig scriptPubKey) (verifyScript checker more scriptSig scriptPubKey) := by
  refine weakens_bind (weakens_check fork.toFewer _ _ _) fun _ => ?_
  refine weakens_bind (evalScript_weakens fork.toFewer _ _) fun stackCopy => ?_
  refine weakens_bind (evalScript_weakens fork.toFewer _ _) fun stack => ?_
  refine weakens_after fun _ => ?_
  cases redeems : has flags SCRIPT_VERIFY_P2SH with
  | true =>
    rw [has_of_fewer fork.toFewer redeems]
    refine weakens_if (fun _ => ?_) fun _ => ?_
    · exact weakens_bind (verifyRedeemScript_weakens fork.toFewer _ _) fun stack => checkCleanStack_weakens fork stack
    · exact checkCleanStack_weakens fork stack
  | false => exact fun _ _ => checkCleanStack_plain fork redeems stack

def sampleChecker : Checker where
  ripemd160 _ := []
  sha1 _ := []
  sha256 _ := []
  hash160 _ := []
  hash256 _ := []
  checkLowS _ := true
  checkSig _ _ _ := true
  checkLockTime _ := true
  checkSequence _ := true

-- where upgradable no-ops are discouraged, enabling one of them is no restriction
example : verifyScript sampleChecker (SCRIPT_VERIFY_DISCOURAGE_UPGRADABLE_NOPS ||| SCRIPT_VERIFY_CHECKLOCKTIMEVERIFY)
      [OP_1] [OP_CHECKLOCKTIMEVERIFY] = .ok () ∧
    verifyScript sampleChecker SCRIPT_VERIFY_DISCOURAGE_UPGRADABLE_NOPS [OP_1] [OP_CHECKLOCKTIMEVERIFY] =
      .error (.error .DISCOURAGE_UPGRADABLE_NOPS) := ⟨rfl, rfl⟩

end Longcoin.Interpreter

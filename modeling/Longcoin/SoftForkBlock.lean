import Longcoin.SoftFork
import Longcoin.ConnectBlock

/-! The script checks of `CheckInputs` and `ConnectBlock` under two sets of flags: a transaction or block
that is accepted under more flags is accepted under fewer. -/

namespace Longcoin.ConnectBlock
open Primitives Validation Library.Outcome Interpreter

variable {σ : Type} [CoinsView σ]

def stopString : Stop → String
  | .error serror => scriptErrorString serror
  | _ => scriptErrorString .UNKNOWN_ERROR

/-- `CScriptCheck` with the interpreter and the signature checker of each input. -/
def cScriptCheck (checkers : CTransaction → Nat → Checker) (tx : CTransaction) (nIn : Nat) (prevout : CTxOut)
    (flags : Nat) : Option String :=
  match verifyScript (checkers tx nIn) flags ((tx.vin[nIn]?.map CTxIn.scriptSig).getD []) prevout.scriptPubKey with
  | .ok _ => none
  | .error stop => some (stopString stop)

/-- An environment whose scripts are run by the interpreter. -/
def scripted (env : Env) (checkers : CTransaction → Nat → Checker) : Env :=
  { env with scriptCheck := cScriptCheck checkers }

/-- `ConnectBlock` with the script flags given, not found from the chain. -/
def connectBlockUnder (flags : Nat) (env : Env) (block : CBlock) (pindex : CBlockIndex) (view : σ) (fJustCheck : Bool) :
    Except Failure (ConnectState σ) := do
  checkBlock env block (!fJustCheck) (!fJustCheck)
  require (pindex.hashPrevBlock == CoinsView.getBestBlock view) .assertion
  if block.hash = env.hashGenesisBlock then
    return { view := if fJustCheck then view else CoinsView.setBestBlock view pindex.getBlockHash }
  else do
    require (!(enforceBIP30 env pindex && overwrites view block)) (dos 100 "bad-txns-BIP30")
    let st ← block.vtx.zipIdx.foldlM (connectTx { blockContext env block pindex with flags }) { view }
    checkReward env block pindex.nHeight st.nFees
    require st.control (.rejected 100 0 "" false)
    return { st with view := if fJustCheck then st.view else CoinsView.setBestBlock st.view pindex.getBlockHash }

theorem connectBlockUnder_flags (env : Env) (block : CBlock) (pindex : CBlockIndex) (view : σ) (fJustCheck : Bool) :
    connectBlockUnder (blockContext env block pindex).flags env block pindex view fJustCheck =
      connectBlock env block pindex view fJustCheck := rfl

section Inputs

variable {env : Env} {checkers : CTransaction → Nat → Checker} {flags more : Nat}

theorem cScriptCheck_none (fork : SoftFork flags more) {tx : CTransaction} {nIn : Nat} {prevout : CTxOut}
    (accepts : cScriptCheck checkers tx nIn prevout more = none) : cScriptCheck checkers tx nIn prevout flags = none := by
  rw [cScriptCheck] at accepts ⊢
  split at accepts
  next verified => rw [verifyScript_weakens fork _ _ _ verified]
  next stop refused => cases accepts

theorem scriptFailure_none (fork : SoftFork flags more) {tx : CTransaction} {prevouts : List CTxOut}
    (accepts : scriptFailure (scripted env checkers) tx prevouts more = none) :
    scriptFailure (scripted env checkers) tx prevouts flags = none := by
  rw [scriptFailure, List.findSome?_eq_none_iff] at accepts ⊢
  intro entry member
  have checked : cScriptCheck checkers tx entry.2 entry.1 more = none := by
    have here := accepts entry member
    rwa [scriptReject, Option.map_eq_none_iff] at here
  rw [scriptReject, Option.map_eq_none_iff]
  exact cScriptCheck_none fork checked

theorem checkInputs_fewer (fork : SoftFork flags more) {view : σ} {tx : CTransaction} {nSpendHeight : Nat}
    {fScriptChecks : Bool}
    (accepts : checkInputs (scripted env checkers) view tx nSpendHeight fScriptChecks more = .ok true) :
    checkInputs (scripted env checkers) view tx nSpendHeight fScriptChecks flags = .ok true := by
  rw [checkInputs, bind_ok] at accepts ⊢
  obtain ⟨⟨⟩, amounts, accepts⟩ := accepts
  refine ⟨(), amounts, ?_⟩
  rw [bind_ok] at accepts ⊢
  obtain ⟨prevouts, found, accepts⟩ := accepts
  refine ⟨prevouts, found, ?_⟩
  cases fScriptChecks with
  | false => rfl
  | true =>
    rw [if_pos rfl] at accepts ⊢
    cases failure : scriptFailure (scripted env checkers) tx prevouts more with
    | none =>
      rw [scriptFailure_none fork failure]
      rfl
    | some failed =>
      rw [failure] at accepts
      by_cases single : (scripted env checkers).nScriptCheckThreads = 0
      · simp [single] at accepts
      · simp [single] at accepts

end Inputs

section Block

variable {ctx : BlockContext} {env : Env} {checkers : CTransaction → Nat → Checker} {flags more : Nat}

section

variable (fork : SoftFork flags more) (env_eq : ctx.env = scripted env checkers)
include fork env_eq

theorem connectInputs_fewer {st st' : ConnectState σ}
    {tx : CTransaction} {i : Nat} (connects : connectInputs { ctx with flags := more } st tx i = .ok st')
    (accepts : st'.control = true) :
    st.control = true ∧ connectInputs { ctx with flags } st tx i = .ok st' := by
  cases coinbase : tx.isCoinBase with
  | true =>
    simp only [connectInputs, coinbase, if_true] at connects ⊢
    rw [Except.ok.injEq] at connects
    rw [connects]
    exact ⟨accepts, rfl⟩
  | false =>
    simp only [connectInputs, coinbase, Bool.false_eq_true, if_false, bind_ok, require_ok, pure_ok] at connects ⊢
    obtain ⟨⟨⟩, inputs, ⟨⟩, locks, prevouts, read, ⟨⟩, sigOps, nValueIn, valueIn, nValueOut, valueOut, fee, difference,
      nFees, sum, passes, checked, rfl⟩ := connects
    obtain ⟨before, passed⟩ := Bool.and_eq_true_iff.mp accepts
    subst passed
    refine ⟨before, (), inputs, (), locks, prevouts, read, (), sigOps, nValueIn, valueIn, nValueOut, valueOut, fee,
      difference, nFees, sum, true, ?_, rfl⟩
    rw [env_eq] at checked ⊢
    exact checkInputs_fewer fork checked

theorem connectTx_fewer {st st' : ConnectState σ}
    {entry : CTransaction × Nat} (connects : connectTx { ctx with flags := more } st entry = .ok st')
    (accepts : st'.control = true) : st.control = true ∧ connectTx { ctx with flags } st entry = .ok st' := by
  rw [connectTx, require_bind_ok, bind_ok] at connects
  obtain ⟨sigOps, middle, inputs, outputs⟩ := connects
  have control : middle.control = true := by
    simp only [connectOutputs, bind_ok, pure_ok] at outputs
    obtain ⟨updated, -, rfl⟩ := outputs
    exact accepts
  obtain ⟨before, inputs⟩ := connectInputs_fewer fork env_eq inputs control
  refine ⟨before, ?_⟩
  rw [connectTx, require_bind_ok, bind_ok]
  exact ⟨sigOps, middle, inputs, outputs⟩

theorem connectTxs_fewer (entries : List (CTransaction × Nat)) {st last : ConnectState σ}
    (connects : entries.foldlM (connectTx { ctx with flags := more }) st = .ok last) (accepts : last.control = true) :
    st.control = true ∧ entries.foldlM (connectTx { ctx with flags }) st = .ok last := by
  induction entries generalizing st with
  | nil =>
    rw [List.foldlM_nil, pure_ok] at connects
    rw [List.foldlM_nil, pure_ok]
    exact ⟨connects ▸ accepts, connects⟩
  | cons entry rest ih =>
    obtain ⟨st', first, later⟩ := foldlM_cons_ok.mp connects
    obtain ⟨control, later⟩ := ih later
    obtain ⟨before, first⟩ := connectTx_fewer fork env_eq first control
    exact ⟨before, foldlM_cons_ok.mpr ⟨st', first, later⟩⟩

end

theorem connectBlockUnder_fewer (fork : SoftFork flags more) (block : CBlock) (pindex : CBlockIndex) (view : σ)
    (fJustCheck : Bool) : Weakens (connectBlockUnder flags (scripted env checkers) block pindex view fJustCheck)
      (connectBlockUnder more (scripted env checkers) block pindex view fJustCheck) := by
  refine weakens_after fun _ => ?_
  refine weakens_after fun _ => ?_
  refine weakens_else fun _ => ?_
  refine weakens_after fun _ => ?_
  intro result connects
  obtain ⟨st, loop, rest⟩ := bind_ok.mp connects
  obtain ⟨⟨⟩, reward, accepts⟩ := bind_ok.mp rest
  have control := (require_bind_ok.mp accepts).1
  have loop' := (connectTxs_fewer fork rfl block.vtx.zipIdx loop control).2
  exact bind_ok.mpr ⟨st, loop', rest⟩

end Block

theorem softFork_standard : SoftFork MANDATORY_SCRIPT_VERIFY_FLAGS STANDARD_SCRIPT_VERIFY_FLAGS where
  subset := by decide
  enabled := by decide
  clean := by decide
  cleanMore := by decide

example : STANDARD_SCRIPT_VERIFY_FLAGS ^^^ MANDATORY_SCRIPT_VERIFY_FLAGS = STANDARD_NOT_MANDATORY_VERIFY_FLAGS := by decide

/-- More flags only ever restrict: scripts, the second `CheckInputs` of `AcceptToMemoryPool`, and blocks. -/
theorem fewer_flags_accept (env : Env) (checkers : CTransaction → Nat → Checker) :
    (∀ (checker : Checker) (flags more : Nat), SoftFork flags more → ∀ scriptSig scriptPubKey,
      verifyScript checker more scriptSig scriptPubKey = .ok () → verifyScript checker flags scriptSig scriptPubKey = .ok ()) ∧
    (∀ (view : σ) (tx : CTransaction) (nSpendHeight : Nat),
      checkInputs (scripted env checkers) view tx nSpendHeight true STANDARD_SCRIPT_VERIFY_FLAGS = .ok true →
        checkInputs (scripted env checkers) view tx nSpendHeight true MANDATORY_SCRIPT_VERIFY_FLAGS = .ok true) ∧
    (∀ flags more : Nat, SoftFork flags more → ∀ (block : CBlock) (pindex : CBlockIndex) (view : σ) (fJustCheck : Bool)
      (st : ConnectState σ), connectBlockUnder more (scripted env checkers) block pindex view fJustCheck = .ok st →
        connectBlockUnder flags (scripted env checkers) block pindex view fJustCheck = .ok st) := by
  refine ⟨?_, ?_, ?_⟩
  · intro checker flags more fork scriptSig scriptPubKey verified
    exact verifyScript_weakens fork scriptSig scriptPubKey () verified
  · intro view tx nSpendHeight accepts
    exact checkInputs_fewer softFork_standard accepts
  · intro flags more fork block pindex view fJustCheck st connects
    exact connectBlockUnder_fewer fork block pindex view fJustCheck st connects

end Longcoin.ConnectBlock

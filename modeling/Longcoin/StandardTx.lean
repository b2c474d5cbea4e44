import Longcoin.FeeRate
import Longcoin.Interpreter
import Longcoin.TransactionCodec

/-! `IsStandard` and `IsStandardTx` (`policy/policy.cpp`): what they let through of data. -/

namespace Longcoin.StandardTx
open Primitives Script LongData Standard Serialize FeeRate Library.Outcome List Option

def MAX_STANDARD_VERSION : Int := 2
def MAX_STANDARD_TX_SIZE : Nat := 100000
def MAX_OP_RETURN_RELAY : Nat := 64 * 1024 * 4 / 3 + 1

/-- `-datacarrier`, `-datacarriersize`, `-permitbaremultisig` and `-minrelaytxfee`. -/
structure Settings where
  fAcceptDatacarrier : Bool := true
  nMaxDatacarrierBytes : Nat := MAX_OP_RETURN_RELAY
  fIsBareMultisigStd : Bool := true
  minRelayTxFee : CFeeRate

/-- Why a transaction is not standard, or a read outside of a script. -/
inductive Refusal where
  | outOfRange
  | reason (text : String)
deriving DecidableEq

def firstByte (solution : Option (List UInt8)) : Except Refusal UInt8 :=
  (solution.bind fun bytes => bytes[0]?).elim (.error .outOfRange) .ok

/-- Success and `whichType`. -/
def isStandard (settings : Settings) (scriptPubKey : CScript) : Except Refusal (Bool × TxnOutType) := do
  let solved ← (solver scriptPubKey).elim (.error .outOfRange) .ok
  if !solved.success then return (false, solved.typeRet)
  else if solved.typeRet = .multisig then do
    let m ← firstByte solved.vSolutionsRet.head?
    let n ← firstByte solved.vSolutionsRet.getLast?
    -- up to x-of-3
    if n < 1 ∨ 3 < n then return (false, .multisig)
    else if m < 1 ∨ n < m then return (false, .multisig)
    else return (true, .multisig)
  else if solved.typeRet = .nullData ∧
      (!settings.fAcceptDatacarrier || decide (scriptPubKey.length > settings.nMaxDatacarrierBytes)) = true then
    return (false, .nullData)
  else return (solved.typeRet != .nonStandard, solved.typeRet)

/-- `CTxOut::IsDust`. -/
def isDust (_ : CTxOut) (_ : CFeeRate) : Bool := false

def checkInput (txin : CTxIn) : Except Refusal Unit := do
  require (txin.scriptSig.length ≤ 1650) (.reason "scriptsig-size")
  require (isPushOnly txin.scriptSig) (.reason "scriptsig-not-pushonly")

/-- One output; `nDataOut` is an `unsigned int`. -/
def checkOutput (settings : Settings) (nDataOut : Nat) (txout : CTxOut) : Except Refusal Nat := do
  let (standard, whichType) ← isStandard settings txout.scriptPubKey
  require standard (.reason "scriptpubkey")
  if whichType = .nullData then return (nDataOut + 1) % 2 ^ 32
  else if whichType = .multisig ∧ !settings.fIsBareMultisigStd then .error (.reason "bare-multisig")
  else if isDust txout settings.minRelayTxFee then .error (.reason "dust")
  else return nDataOut

def isStandardTx (settings : Settings) (tx : CTransaction) : Except Refusal Unit := do
  require (!(decide (tx.nVersion > MAX_STANDARD_VERSION) || decide (tx.nVersion < 1))) (.reason "version")
  let sz := (writeTransaction tx.nVersion tx.vin tx.vout tx.nLockTime).length % 2 ^ 32
  require (sz < MAX_STANDARD_TX_SIZE) (.reason "tx-size")
  tx.vin.forM checkInput
  let nDataOut ← tx.vout.foldlM (checkOutput settings) 0
  -- only one OP_RETURN txout is permitted
  require (nDataOut ≤ 2) (.reason "multi-op-return")

/-- A LONG message to a key, a key hash or a script hash. -/
def isAddressed (scriptPubKey : CScript) : Bool :=
  match getLongToPubKey scriptPubKey with
  | some (some _) => true
  | _ => false

def isPlainData (scriptPubKey : CScript) : Bool := isReturnPush scriptPubKey && !isAddressed scriptPubKey

variable {scriptPubKey : CScript}

theorem isReturnPush_of_isAddressed (addressed : isAddressed scriptPubKey = true) : isReturnPush scriptPubKey = true := by
  by_contra notPush
  have unread : getPushedReturnData scriptPubKey = some none := by
    unfold getPushedReturnData getOffsetPushedReturnData
    rw [if_neg notPush]
    rfl
  have none : getLongToPubKey scriptPubKey = some none := by
    unfold getLongToPubKey withLong isLong
    rw [unread]
    rfl
  unfold isAddressed at addressed
  rw [none] at addressed
  cases addressed

theorem solver_plain {solved : Solved} (plain : isPlainData scriptPubKey = true) (found : solver scriptPubKey = some solved) :
    solved = ⟨true, .nullData, []⟩ := by
  unfold isPlainData at plain
  rw [Bool.and_eq_true, Bool.not_eq_true'] at plain
  obtain ⟨push, notAddressed⟩ := plain
  unfold solver at found
  rw [if_pos push] at found
  obtain ⟨long, -, found⟩ := bind_eq_some_iff.mp found
  split at found
  · obtain ⟨key?, parsed, found⟩ := map_eq_some_iff.mp found
    unfold isAddressed at notAddressed
    rw [parsed] at notAddressed
    cases key? with
    | none => exact found.symm
    | some key => cases notAddressed
  · exact (some.inj found).symm

theorem solver_notPush {pc : CScript} (notPush : isReturnPush (OP_RETURN :: pc) ≠ true) :
    solver (OP_RETURN :: pc) = some ⟨false, .nonStandard, []⟩ := by
  unfold solver
  rw [if_neg notPush, if_neg]
  · rfl
  · simp [CScript.isPayToScriptHash, OP_RETURN]

/-- The script starts with `OP_RETURN`. -/
def isDataOutput (txout : CTxOut) : Bool := txout.scriptPubKey.head? == some OP_RETURN

variable {settings : Settings}

theorem plain_standard {whichType : TxnOutType} (plain : isPlainData scriptPubKey = true)
    (standard : isStandard settings scriptPubKey = .ok (true, whichType)) :
    settings.fAcceptDatacarrier = true ∧ scriptPubKey.length ≤ settings.nMaxDatacarrierBytes := by
  unfold isStandard at standard
  cases found : solver scriptPubKey with
  | none =>
    rw [found] at standard
    cases standard
  | some solved =>
    have data := solver_plain plain found
    rw [found, data] at standard
    by_cases refused : (!settings.fAcceptDatacarrier || decide (scriptPubKey.length > settings.nMaxDatacarrierBytes)) = true
    · simp only [elim_some, bind, Except.bind, Bool.not_true, Bool.false_eq_true, if_false, reduceCtorEq, refused, and_self,
        if_true] at standard
      cases standard
    · simpa using refused

theorem return_standard {whichType : TxnOutType} (first : scriptPubKey.head? = some OP_RETURN)
    (standard : isStandard settings scriptPubKey = .ok (true, whichType)) : isReturnPush scriptPubKey = true := by
  cases scriptPubKey with
  | nil => cases first
  | cons opcode pc =>
    rw [head?_cons, some.injEq] at first
    rw [first] at standard ⊢
    by_contra notPush
    unfold isStandard at standard
    rw [solver_notPush notPush] at standard
    cases standard

theorem checkOutput_standard {nDataOut nDataOut' : Nat} {txout : CTxOut}
    (done : checkOutput settings nDataOut txout = .ok nDataOut') :
    ∃ whichType, isStandard settings txout.scriptPubKey = .ok (true, whichType) := by
  unfold checkOutput at done
  obtain ⟨answer, found, done⟩ := bind_ok.mp done
  obtain ⟨standard, -⟩ := require_bind_ok.mp done
  refine ⟨answer.2, ?_⟩
  rw [found, ← standard]

theorem outputs_standard {tx : CTransaction} (accepted : isStandardTx settings tx = .ok ()) :
    ∀ txout ∈ tx.vout, ∃ whichType, isStandard settings txout.scriptPubKey = .ok (true, whichType) := by
  unfold isStandardTx at accepted
  obtain ⟨-, accepted⟩ := require_bind_ok.mp accepted
  obtain ⟨-, accepted⟩ := require_bind_ok.mp accepted
  obtain ⟨-, -, accepted⟩ := bind_ok.mp accepted
  obtain ⟨nDataOut, counted, -⟩ := bind_ok.mp accepted
  apply foldlM_invariant (fun done _ => ∀ txout ∈ done, ∃ whichType, isStandard settings txout.scriptPubKey = .ok (true, whichType))
    tx.vout _ _ counted
  · intro done txout rest state state' _ earlier stepped other member
    rcases mem_append.mp member with before | here
    · exact earlier other before
    · rw [mem_singleton.mp here]
      exact checkOutput_standard stepped
  · intro txout member
    cases member

/-- What the checks are for: at most two data outputs, each within the limit, and none where they are switched off. -/
structure DataLimited (settings : Settings) (tx : CTransaction) : Prop where
  few : tx.vout.countP isDataOutput ≤ 2
  small : ∀ txout ∈ tx.vout, isDataOutput txout = true → txout.scriptPubKey.length ≤ settings.nMaxDatacarrierBytes
  switched : ∀ txout ∈ tx.vout, isDataOutput txout = true → settings.fAcceptDatacarrier = true

/-- The messages with an address keep the limits, which no check asks of them. -/
structure AddressedLimited (settings : Settings) (tx : CTransaction) : Prop where
  few : tx.vout.countP (isAddressed ·.scriptPubKey) + tx.vout.countP (isPlainData ·.scriptPubKey) ≤ 2
  small : ∀ txout ∈ tx.vout, isAddressed txout.scriptPubKey = true → txout.scriptPubKey.length ≤ settings.nMaxDatacarrierBytes
  switched : ∀ txout ∈ tx.vout, isAddressed txout.scriptPubKey = true → settings.fAcceptDatacarrier = true

theorem isDataOutput_of_push {txout : CTxOut} (push : isReturnPush txout.scriptPubKey = true) : isDataOutput txout = true :=
  (Bool.and_eq_true_iff.mp push).1

theorem isDataOutput_iff {txout : CTxOut} {whichType : TxnOutType}
    (standard : isStandard settings txout.scriptPubKey = .ok (true, whichType)) :
    isDataOutput txout = true ↔ isAddressed txout.scriptPubKey = true ∨ isPlainData txout.scriptPubKey = true := by
  constructor
  · intro data
    have push := return_standard (beq_iff_eq.mp data) standard
    unfold isPlainData
    rw [push]
    cases isAddressed txout.scriptPubKey <;> simp
  · intro kind
    rcases kind with addressed | plain
    · exact isDataOutput_of_push (isReturnPush_of_isAddressed addressed)
    · exact isDataOutput_of_push (Bool.and_eq_true_iff.mp plain).1

theorem countP_data {vout : List CTxOut}
    (standard : ∀ txout ∈ vout, ∃ whichType, isStandard settings txout.scriptPubKey = .ok (true, whichType)) :
    vout.countP isDataOutput = vout.countP (isAddressed ·.scriptPubKey) + vout.countP (isPlainData ·.scriptPubKey) := by
  induction vout with
  | nil => rfl
  | cons txout vout ih =>
    obtain ⟨whichType, here⟩ := standard txout mem_cons_self
    have kinds := isDataOutput_iff here
    have later := ih (forall_mem_cons.mp standard).2
    have apart : isPlainData txout.scriptPubKey = true → isAddressed txout.scriptPubKey = false := by
      intro plain
      simpa using (Bool.and_eq_true_iff.mp plain).2
    rw [countP_cons, countP_cons, countP_cons, later]
    cases addressed : isAddressed txout.scriptPubKey with
    | true =>
      have notPlain : isPlainData txout.scriptPubKey ≠ true := fun plain => by simp [apart plain] at addressed
      rw [if_pos (kinds.mpr (.inl addressed)), if_pos rfl, if_neg notPlain]
      omega
    | false =>
      rw [if_neg Bool.false_ne_true]
      by_cases plain : isPlainData txout.scriptPubKey = true
      · rw [if_pos (kinds.mpr (.inr plain)), if_pos plain]
        omega
      · have notData : isDataOutput txout ≠ true := by
          intro data
          rcases kinds.mp data with other | other
          · rw [addressed] at other
            cases other
          · exact plain other
        rw [if_neg notData, if_neg plain]
        omega

/-- A standard transaction keeps the limits on data just when its messages with an address keep them: those pass as
payments, and only data outputs without an address are counted and measured. -/
theorem isStandardTx_limits_data (settings : Settings) (tx : CTransaction) (accepted : isStandardTx settings tx = .ok ()) :
    DataLimited settings tx ↔ AddressedLimited settings tx := by
  have standard := outputs_standard accepted
  have count := countP_data standard
  constructor
  · intro limited
    have data (txout : CTxOut) (addressed : isAddressed txout.scriptPubKey = true) : isDataOutput txout = true :=
      isDataOutput_of_push (isReturnPush_of_isAddressed addressed)
    exact {
      few := count ▸ limited.few
      small := fun txout member addressed => limited.small txout member (data txout addressed)
      switched := fun txout member addressed => limited.switched txout member (data txout addressed) }
  · intro limited
    have each (txout : CTxOut) (member : txout ∈ tx.vout) (data : isDataOutput txout = true) :
        settings.fAcceptDatacarrier = true ∧ txout.scriptPubKey.length ≤ settings.nMaxDatacarrierBytes := by
      obtain ⟨whichType, here⟩ := standard txout member
      rcases (isDataOutput_iff here).mp data with addressed | plain
      · exact ⟨limited.switched txout member addressed, limited.small txout member addressed⟩
      · exact plain_standard plain here
    exact {
      few := count ▸ limited.few
      small := fun txout member data => (each txout member data).2
      switched := fun txout member data => (each txout member data).1 }

/-- `OP_RETURN` and a message of one letter to the key hash of zeros. -/
def addressedMessage : CScript :=
  OP_RETURN :: pushData (longBytes ++ [0x00, OP_TO, 0xfd] ++ List.replicate 20 0 ++ [OP_DATA_TYPE, 0, OP_ENCRYPTION, 0, 0x01, 0x41])

def messages (count : Nat) : CTransaction where
  hash := 0
  vin := [⟨⟨1, 0⟩, [], 4294967295⟩]
  vout := List.replicate count ⟨0, addressedMessage⟩

def noData : Settings where
  fAcceptDatacarrier := false
  nMaxDatacarrierBytes := 4
  minRelayTxFee := .ofPerK 1

theorem isStandardTx_limits_data_messages : DataLimited noData (messages 1) ↔ AddressedLimited noData (messages 1) :=
  isStandardTx_limits_data noData (messages 1) (by decide +kernel)

/-- Three messages, each too long, where no data is to be relayed. -/
theorem isStandardTx_passes_messages : isStandardTx noData (messages 3) = .ok () ∧
    ¬ (messages 3).vout.countP isDataOutput ≤ 2 ∧
    ∃ txout ∈ (messages 3).vout, isDataOutput txout = true ∧ ¬ txout.scriptPubKey.length ≤ noData.nMaxDatacarrierBytes ∧
      noData.fAcceptDatacarrier = false := by
  refine ⟨?_, ?_, ⟨0, addressedMessage⟩, ?_, ?_⟩
  all_goals decide +kernel

end Longcoin.StandardTx

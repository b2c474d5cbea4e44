import Longcoin.FeeRate
import Longcoin.SelectCoins
import Longcoin.VectorCodec

/-! `CWallet::CreateTransaction` and `CWallet::FundTransaction` (`wallet/wallet.cpp`), with `-sendfreetransactions` off. -/

namespace Longcoin.CreateTransaction
open Primitives Wallet CoinSelection SelectCoins FeeRate Library.Outcome
open Serialize (writeCompactSize)

variable {Dest : Type}

structure CRecipient where
  scriptPubKey : CScript
  nAmount : CAmount
  fSubtractFeeFromAmount : Bool

structure CMutableTransaction where
  vin : List CTxIn
  vout : List CTxOut
  nLockTime : ℕ

/-- The rates that are set, the one that the pool estimates, and the limit. `ParseMoney` takes at most ten digits. -/
structure Policy where
  payTxFee : CFeeRate
  minTxFee : CFeeRate
  fallbackFee : CFeeRate
  minRelayTxFee : CFeeRate
  estimateSmartFee : CFeeRate
  maxTxFee : CAmount
  payTxFee_le : payTxFee.nSatoshisPerK ≤ 10 ^ 10
  minTxFee_le : minTxFee.nSatoshisPerK ≤ 10 ^ 10
  minRelayTxFee_le : minRelayTxFee.nSatoshisPerK ≤ 10 ^ 10

def getRequiredFee (policy : Policy) (nTxBytes : ℕ) : CAmount :=
  max (policy.minTxFee.getFee nTxBytes) (policy.minRelayTxFee.getFee nTxBytes)

def feeByRate (policy : Policy) (nTxBytes : ℕ) : CAmount :=
  if policy.payTxFee.getFee nTxBytes ≠ 0 then policy.payTxFee.getFee nTxBytes
  else if policy.estimateSmartFee.getFee nTxBytes ≠ 0 then policy.estimateSmartFee.getFee nTxBytes
  else policy.fallbackFee.getFee nTxBytes

def getMinimumFee (policy : Policy) (nTxBytes : ℕ) : CAmount :=
  min (max (feeByRate policy nTxBytes) (getRequiredFee policy nTxBytes)) policy.maxTxFee

def compactSize (nSize : ℕ) : ℕ := (writeCompactSize nSize).length

def sizeOfTxIn (txin : CTxIn) : ℕ := 36 + compactSize txin.scriptSig.length + txin.scriptSig.length + 4

def sizeOfTxOut (txout : CTxOut) : ℕ := 8 + compactSize txout.scriptPubKey.length + txout.scriptPubKey.length

def getSerializeSize (tx : CMutableTransaction) : ℕ :=
  4 + compactSize tx.vin.length + (tx.vin.map sizeOfTxIn).sum + compactSize tx.vout.length + (tx.vout.map sizeOfTxOut).sum + 4

def MAX_STANDARD_TX_SIZE : ℕ := 100000

/-- `CTxOut::GetDustThreshold`. -/
def getDustThreshold (_ : CTxOut) (_ : CFeeRate) : CAmount := 0

/-- `CTxOut::IsDust`: there is none. -/
def isDust (_ : CTxOut) (_ : CFeeRate) : Bool := false

/-- Why a call ends without a transaction: an assertion, a sum that no `int64_t` holds, which the language leaves undefined,
too little fuel, or the reason that it gives. -/
inductive Stop where
  | assertion
  | overflow
  | fuel
  | failed (strFailReason : String)
deriving DecidableEq

/-- What a recipient that pays for the fee is short of. The first one pays the remainder. -/
def shareOf (nFeeRet : CAmount) (nSubtractFeeFromAmount : ℕ) (fFirst : Bool) : CAmount :=
  nFeeRet / nSubtractFeeFromAmount + if fFirst then nFeeRet % nSubtractFeeFromAmount else 0

def tooSmall (recipient : CRecipient) (txout : CTxOut) (nFeeRet : CAmount) : String :=
  if recipient.fSubtractFeeFromAmount && decide (0 < nFeeRet) then
    if txout.nValue < 0 then "The transaction amount is too small to pay the fee"
    else "The transaction amount is too small to send after the fee has been deducted"
  else "Transaction amount too small"

def payees (policy : Policy) (nFeeRet : CAmount) (nSubtractFeeFromAmount : ℕ) :
    Bool → List CRecipient → Except Stop (List CTxOut)
  | _, [] => .ok []
  | fFirst, recipient :: vecSend => do
    let share := if recipient.fSubtractFeeFromAmount then shareOf nFeeRet nSubtractFeeFromAmount fFirst else 0
    let txout : CTxOut := ⟨recipient.nAmount - share, recipient.scriptPubKey⟩
    require (!isDust txout policy.minRelayTxFee) (.failed (tooSmall recipient txout nFeeRet))
    let vout ← payees policy nFeeRet nSubtractFeeFromAmount (fFirst && !recipient.fSubtractFeeFromAmount) vecSend
    return txout :: vout

/-- What the change is raised by, out of the first recipient that pays for the fee. -/
def deductDust (policy : Policy) (nDust : CAmount) : List CRecipient → List CTxOut → Except Stop (List CTxOut)
  | recipient :: vecSend, txout :: vout =>
    if recipient.fSubtractFeeFromAmount then do
      require (!isDust { txout with nValue := txout.nValue - nDust } policy.minRelayTxFee)
        (.failed "The transaction amount is too small to send after the fee has been deducted")
      return { txout with nValue := txout.nValue - nDust } :: vout
    else do
      let vout ← deductDust policy nDust vecSend vout
      return txout :: vout
  | _, vout => .ok vout

/-- The outputs, the fee and the position of the change. -/
structure Outputs where
  vout : List CTxOut
  nFeeRet : CAmount
  nChangePosRet : Option ℕ

/-- The change is inserted at a random position, or is left to the fee. -/
def placeChange (policy : Policy) (nFeeRet nChange : CAmount) (draw : ℕ) (newTxOut : CTxOut) (vout : List CTxOut) : Outputs :=
  if isDust newTxOut policy.minRelayTxFee then ⟨vout, nFeeRet + nChange, none⟩
  else ⟨vout.insertIdx (draw % (vout.length + 1)) newTxOut, nFeeRet, some (draw % (vout.length + 1))⟩

def addChange (policy : Policy) (vecSend : List CRecipient) (nSubtractFeeFromAmount : ℕ) (nFeeRet nChange : CAmount)
    (scriptChange : CScript) (draw : ℕ) (vout : List CTxOut) : Except Stop Outputs :=
  let newTxOut : CTxOut := ⟨nChange, scriptChange⟩
  if 0 < nSubtractFeeFromAmount ∧ isDust newTxOut policy.minRelayTxFee = true then do
    let nDust := getDustThreshold newTxOut policy.minRelayTxFee - newTxOut.nValue
    let vout ← deductDust policy nDust vecSend vout
    return placeChange policy nFeeRet nChange draw { newTxOut with nValue := newTxOut.nValue + nDust } vout
  else .ok (placeChange policy nFeeRet nChange draw newTxOut vout)

/-- What a pass takes from elsewhere: random choices, the order in which the set of coins is listed, a key of the pool, and
signatures. -/
structure Draws where
  choices : ℕ → Choices
  arrange : List COutPoint → List COutPoint
  arrange_perm : ∀ outpoints, (arrange outpoints).Perm outpoints
  reservedScript : Option CScript
  changeDraw : ℕ
  produceSignature : CMutableTransaction → ℕ → CScript → Option CScript
  dummySignature : CScript → Option CScript

structure Request where
  vecSend : List CRecipient
  coinControl : Option CCoinControl
  sign : Bool

def Request.nSubtractFeeFromAmount (request : Request) : ℕ := request.vecSend.countP fun recipient => recipient.fSubtractFeeFromAmount

def scriptChange (request : Request) (draws : Draws) : Option CScript :=
  (request.coinControl.bind CCoinControl.destChange).or draws.reservedScript

def changeOutputs (policy : Policy) (request : Request) (draws : Draws) (nFeeRet nChange : CAmount) (vout : List CTxOut) :
    Except Stop Outputs :=
  if 0 < nChange then do
    let script ← (scriptChange request draws).elim (.error .assertion) Except.ok
    addChange policy request.vecSend request.nSubtractFeeFromAmount nFeeRet nChange script draws.changeDraw vout
  else .ok ⟨vout, nFeeRet, none⟩

def signInput (w : WalletState Dest) (request : Request) (draws : Draws) (txNew : CMutableTransaction) (input : CTxIn × ℕ) :
    Except Stop CTxIn :=
  let scriptPubKey := (findOutput w.mapWallet input.1.prevout).elim [] CTxOut.scriptPubKey
  (if request.sign then draws.produceSignature txNew input.2 scriptPubKey else draws.dummySignature scriptPubKey).elim
    (.error (.failed "Signing transaction failed")) fun scriptSig => .ok { input.1 with scriptSig := scriptSig }

/-- What a pass makes: the transaction that is returned, the one whose size is measured, the fee and the position of the change. -/
structure Created where
  txNew : CMutableTransaction
  measured : CMutableTransaction
  nFeeRet : CAmount
  nChangePosRet : Option ℕ

def Request.nValueToSelect (request : Request) (nValue nFeeRet : CAmount) : CAmount :=
  if request.nSubtractFeeFromAmount = 0 then nValue + nFeeRet else nValue

/-- The inputs of the coins: with a sequence number that leaves the lock time in force. -/
def inputsOf (draws : Draws) (setCoins : List COutPoint) : List CTxIn :=
  (draws.arrange setCoins).map fun outpoint => { prevout := outpoint, scriptSig := [], nSequence := 4294967294 }

def agesAgree (w : WalletState Dest) (setCoins : List COutPoint) : Bool :=
  setCoins.all fun outpoint => (findTx w.mapWallet outpoint.hash).all fun pcoin => !decide (getDepthInMainChain w.node pcoin < 0)

/-- A pass up to the transaction. Sums of coins are exact, as they are bounded by all the money there is. -/
def build (w : WalletState Dest) (policy : Policy) (request : Request) (draws : Draws) (nLockTime : ℕ) (nValue nFeeRet : CAmount) :
    Except Stop Created := do
  let vout ← payees policy nFeeRet request.nSubtractFeeFromAmount true request.vecSend
  let nValueToSelect := request.nValueToSelect nValue nFeeRet
  require (decide (nValueToSelect < 2 ^ 63)) .overflow
  let taken ← (selectCoins w draws.choices nValueToSelect request.coinControl).elim (.error (.failed "Insufficient funds")) Except.ok
  require (agesAgree w taken.1) .assertion
  let outputs ← changeOutputs policy request draws nFeeRet (taken.2 - nValueToSelect) vout
  let unsigned : CMutableTransaction := ⟨inputsOf draws taken.1, outputs.vout, nLockTime⟩
  let vin ← unsigned.vin.zipIdx.mapM (signInput w request draws unsigned)
  let measured : CMutableTransaction := { unsigned with vin := vin }
  return ⟨if request.sign then measured else unsigned, measured, outputs.nFeeRet, outputs.nChangePosRet⟩

def feeNeeded (policy : Policy) (coinControl : Option CCoinControl) (nBytes : ℕ) : CAmount :=
  let nFeeNeeded := getMinimumFee policy nBytes
  coinControl.elim nFeeNeeded fun control =>
    if 0 < nFeeNeeded ∧ nFeeNeeded < control.nMinimumTotalFee then control.nMinimumTotalFee else nFeeNeeded

/-- A pass: the transaction with enough fee, or the fee for the next pass. -/
def feePass (w : WalletState Dest) (policy : Policy) (request : Request) (draws : Draws) (nLockTime : ℕ) (nValue nFeeRet : CAmount) :
    Except Stop (Created ⊕ CAmount) := do
  let created ← build w policy request draws nLockTime nValue nFeeRet
  let nBytes := getSerializeSize created.measured
  require (decide (nBytes < MAX_STANDARD_TX_SIZE)) (.failed "Transaction too large")
  require (!decide (feeNeeded policy request.coinControl nBytes < policy.minRelayTxFee.getFee nBytes))
    (.failed "Transaction too large for fee policy")
  return if feeNeeded policy request.coinControl nBytes ≤ created.nFeeRet then .inl created
    else .inr (feeNeeded policy request.coinControl nBytes)

def feeLoop (w : WalletState Dest) (policy : Policy) (request : Request) (draws : ℕ → Draws) (nLockTime : ℕ) (nValue : CAmount) :
    ℕ → ℕ → CAmount → Except Stop Created
  | 0, _, _ => .error .fuel
  | fuel + 1, nPass, nFeeRet => do
    match ← feePass w policy request (draws nPass) nLockTime nValue nFeeRet with
    | .inl created => return created
    | .inr nFeeNeeded => feeLoop w policy request draws nLockTime nValue fuel (nPass + 1) nFeeNeeded

def sumAmounts : List CRecipient → CAmount → Except Stop CAmount
  | [], nValue => do
    require (!decide (nValue < 0)) (.failed "Transaction amounts must be positive")
    return nValue
  | recipient :: vecSend, nValue => do
    require (!(decide (nValue < 0) || decide (recipient.nAmount < 0))) (.failed "Transaction amounts must be positive")
    require (decide (nValue + recipient.nAmount < 2 ^ 63)) .overflow
    sumAmounts vecSend (nValue + recipient.nAmount)

/-- The lock time: the height, and at times up to a hundred blocks before it. -/
def chooseLockTime (nHeight : Int) (back : Option ℕ) : Except Stop ℕ := do
  let nLockTime := back.elim (nHeight % 2 ^ 32) fun draw => max 0 (nHeight - (draw % 100 : ℕ))
  require (decide (nLockTime ≤ nHeight % 2 ^ 32) && decide (nLockTime < LOCKTIME_THRESHOLD)) .assertion
  return nLockTime.toNat

def largestFee (policy : Policy) (coinControl : Option CCoinControl) : CAmount :=
  max 0 (max policy.maxTxFee (coinControl.elim 0 CCoinControl.nMinimumTotalFee))

def createTransaction (w : WalletState Dest) (policy : Policy) (request : Request) (draws : ℕ → Draws) (back : Option ℕ) :
    Except Stop Created := do
  let nValue ← sumAmounts request.vecSend 0
  require (!request.vecSend.isEmpty) (.failed "Transaction amounts must be positive")
  let nLockTime ← chooseLockTime w.node.nHeight back
  feeLoop w policy request draws nLockTime nValue ((largestFee policy request.coinControl).toNat + 2) 0 0

/-- The inputs of a transaction are set, and more are allowed. -/
def fundRequest (tx : CMutableTransaction) (includeWatching : Bool) : Request where
  vecSend := tx.vout.map fun txOut => ⟨txOut.scriptPubKey, txOut.nValue, false⟩
  coinControl := some
    { fAllowOtherInputs := true
      fAllowWatchOnly := includeWatching
      setSelected := (tx.vin.map CTxIn.prevout).dedup
      distinct := List.nodup_dedup _ }
  sign := false

/-- The change goes where `CreateTransaction` has it. -/
def addFundedChange (created : Created) (vout : List CTxOut) : List CTxOut :=
  created.nChangePosRet.elim vout fun position => (created.txNew.vout[position]?).elim vout (vout.insertIdx position)

def addFundedInput (vin : List CTxIn) (txin : CTxIn) : List CTxIn :=
  if vin.any fun origTxIn => txin.prevout == origTxIn.prevout then vin else vin ++ [txin]

/-- `FundTransaction`: the transaction, the fee and the position of the change. -/
def fundTransaction (w : WalletState Dest) (policy : Policy) (draws : ℕ → Draws) (back : Option ℕ) (tx : CMutableTransaction)
    (includeWatching : Bool) : Except Stop (CMutableTransaction × CAmount × Option ℕ) := do
  let created ← createTransaction w policy (fundRequest tx includeWatching) draws back
  return ({ tx with vin := created.txNew.vin.foldl addFundedInput tx.vin, vout := addFundedChange created tx.vout }, created.nFeeRet,
    created.nChangePosRet)

end Longcoin.CreateTransaction

import Longcoin.BlockTreeDB
import Longcoin.CoinsCache
import Longcoin.UtxoSet
import Longcoin.Validation

/-! `UpdateCoins`, `CheckInputs` and `ConnectBlock` (`main.cpp`), for any kind of coins view. -/

namespace Longcoin.ConnectBlock
open Primitives Coins Validation BlockTreeDB Library.Outcome

/-- What block connection asks of a coins view. A transaction the view does not know reads
as the empty record, which every caller treats like the null pointer. -/
class CoinsView (σ : Type) where
  accessCoins : σ → Uint256 → CCoins
  modifyCoins : σ → Uint256 → (CCoins → CCoins) → σ
  modifyNewCoins : σ → Uint256 → (CCoins → CCoins) → σ
  getBestBlock : σ → Uint256
  setBestBlock : σ → Uint256 → σ

open CoinsView

@[ext] structure PlainView where
  utxo : UtxoSet
  hashBlock : Uint256

instance : CoinsView PlainView where
  accessCoins view txid := view.utxo.coins txid
  modifyCoins view txid edit := { view with utxo := view.utxo.modify txid edit }
  modifyNewCoins view txid edit := { view with utxo := view.utxo.modify txid fun _ => edit {} }
  getBestBlock view := view.hashBlock
  setBestBlock view hashBlock := { view with hashBlock }

/-- What `undo.h` keeps of a spent output. -/
structure CTxInUndo where
  txout : CTxOut
  fCoinBase : Bool := false
  nHeight : Nat := 0
  nVersion : Int := 0
deriving DecidableEq, Repr

abbrev CTxUndo := List CTxInUndo
abbrev CBlockUndo := List CTxUndo

def COINBASE_MATURITY : Int := 30
def SCRIPT_VERIFY_P2SH : Nat := 1 <<< 0
def SCRIPT_VERIFY_DERSIG : Nat := 1 <<< 2
def SCRIPT_VERIFY_CHECKLOCKTIMEVERIFY : Nat := 1 <<< 9
def SCRIPT_VERIFY_CHECKSEQUENCEVERIFY : Nat := 1 <<< 10
/-- `STANDARD_SCRIPT_VERIFY_FLAGS` without P2SH: bits 1 to 10 except SIGPUSHONLY. -/
def STANDARD_NOT_MANDATORY_VERIFY_FLAGS : Nat := 0b11111011110
def LOCKTIME_VERIFY_SEQUENCE : Nat := 1 <<< 0
def nBIP16SwitchTime : Nat := 1333238400

/-- `GetBlockSubsidy` with `COIN = 1`. -/
def getBlockSubsidy (env : Env) (nHeight : Nat) : CAmount :=
  let halvings := nHeight / env.nSubsidyHalvingInterval
  if 64 ≤ halvings then 0 else (10000 >>> halvings : Nat)

section View
variable {σ : Type} [CoinsView σ]

def getOutputFor (view : σ) (input : CTxIn) : Except Failure CTxOut :=
  let coins := accessCoins view input.prevout.hash
  match coins.vout[input.prevout.n]? with
  | some out => if coins.isAvailable input.prevout.n then .ok out else .error .assertion
  | none => .error .assertion

def addValueIn (view : σ) (nResult : CAmount) (txin : CTxIn) : Except Failure CAmount := do
  let prevout ← getOutputFor view txin
  addInt64 nResult prevout.nValue

def getValueIn (view : σ) (tx : CTransaction) : Except Failure CAmount :=
  if tx.isCoinBase then .ok 0 else tx.vin.foldlM (addValueIn view) 0

def haveInputs (view : σ) (tx : CTransaction) : Bool :=
  tx.isCoinBase || tx.vin.all fun txin => (accessCoins view txin.prevout.hash).isAvailable txin.prevout.n

/-- One input of `UpdateCoins`: spend the output, and keep the header with the last one. -/
def spendInput (view : σ) (txin : CTxIn) : Except Failure (CTxInUndo × σ) :=
  let coins := accessCoins view txin.prevout.hash
  match coins.vout[txin.prevout.n]? with
  | none => .error .assertion
  | some txout =>
      if txout.isNull then .error .assertion
      else
        let spent := (coins.spend txin.prevout.n).2
        let undo : CTxInUndo :=
          if spent.vout.length = 0 then
            { txout, nHeight := spent.nHeight, fCoinBase := spent.fCoinBase, nVersion := spent.nVersion }
          else { txout }
        .ok (undo, modifyCoins view txin.prevout.hash fun coins => (coins.spend txin.prevout.n).2)

def spendInputs (view : σ) (vin : List CTxIn) : Except Failure (CTxUndo × σ) :=
  vin.foldlM (fun acc txin => do
    let (undo, view) ← spendInput acc.2 txin
    return (acc.1 ++ [undo], view)) ([], view)

def updateCoins (view : σ) (tx : CTransaction) (nHeight : Nat) : Except Failure (CTxUndo × σ) := do
  if tx.isCoinBase then return ([], modifyCoins view tx.hash fun _ => CCoins.fromTx tx nHeight)
  else do
    let (txundo, view) ← spendInputs view tx.vin
    return (txundo, modifyNewCoins view tx.hash fun _ => CCoins.fromTx tx nHeight)

/-- One input of `Consensus::CheckTxInputs`: maturity and range, with the running total. -/
def checkTxInput (view : σ) (nSpendHeight : Nat) (nValueIn : CAmount) (txin : CTxIn) : Except Failure CAmount := do
  let coins := accessCoins view txin.prevout.hash
  require (!coins.fCoinBase || COINBASE_MATURITY ≤ (nSpendHeight : Int) - coins.nHeight)
    (invalid REJECT_INVALID "bad-txns-premature-spend-of-coinbase")
  let prevout ← getOutputFor view txin
  let nValueIn ← addInt64 nValueIn prevout.nValue
  require (moneyRange prevout.nValue && moneyRange nValueIn) (dos 100 "bad-txns-inputvalues-outofrange")
  return nValueIn

def checkTxInputs (view : σ) (tx : CTransaction) (nSpendHeight : Nat) : Except Failure Unit := do
  require (haveInputs view tx) (invalid 0 "")
  let nValueIn ← tx.vin.foldlM (checkTxInput view nSpendHeight) 0
  let nValueOut ← getValueOut tx
  require (nValueOut ≤ nValueIn) (dos 100 "bad-txns-in-belowout")
  let nTxFee ← addInt64 nValueIn (-nValueOut)
  require (0 ≤ nTxFee) (dos 100 "bad-txns-fee-negative")
  require (moneyRange nTxFee) (dos 100 "bad-txns-fee-outofrange")

/-- A script that does not accept; it is looked at again without the flags that are not mandatory. -/
def scriptReject (env : Env) (tx : CTransaction) (flags : Nat) (entry : CTxOut × Nat) : Option Failure :=
  let (prevout, i) := entry
  (env.scriptCheck tx i prevout flags).map fun scriptError =>
    if flags &&& STANDARD_NOT_MANDATORY_VERIFY_FLAGS ≠ 0 ∧
        env.scriptCheck tx i prevout (flags &&& (4294967295 ^^^ STANDARD_NOT_MANDATORY_VERIFY_FLAGS)) = none then
      invalid REJECT_NONSTANDARD ("non-mandatory-script-verify-flag (" ++ scriptError ++ ")")
    else dos 100 ("mandatory-script-verify-flag-failed (" ++ scriptError ++ ")")

def scriptFailure (env : Env) (tx : CTransaction) (prevouts : List CTxOut) (flags : Nat) : Option Failure :=
  prevouts.zipIdx.findSome? (scriptReject env tx flags)

/-- `CheckInputs`: with script threads the scripts are only collected, and the answer says
whether all of them will accept. -/
def checkInputs (env : Env) (view : σ) (tx : CTransaction) (nSpendHeight : Nat) (fScriptChecks : Bool) (flags : Nat) :
    Except Failure Bool := do
  checkTxInputs view tx nSpendHeight
  let prevouts ← tx.vin.mapM (getOutputFor view)
  match if fScriptChecks then scriptFailure env tx prevouts flags else none with
  | none => return true
  | some failure => if env.nScriptCheckThreads = 0 then .error failure else .ok false

def receivingEntries (nHeight i : Nat) (tx : CTransaction) : AddressIndex :=
  tx.vout.zipIdx.filterMap fun (out, k) =>
    out.scriptPubKey.address.map fun (type, hashBytes) =>
      ({ type, hashBytes, blockHeight := nHeight, txindex := i, txhash := tx.hash, index := k, spending := false },
        out.nValue)

def unspentEntries (nHeight : Nat) (tx : CTransaction) : AddressUnspentIndex :=
  tx.vout.zipIdx.filterMap fun (out, k) =>
    out.scriptPubKey.address.map fun (type, hashBytes) =>
      ({ type, hashBytes, txhash := tx.hash, index := k },
        { satoshis := out.nValue, script := out.scriptPubKey, blockHeight := nHeight })

def spendingEntries (nHeight i : Nat) (tx : CTransaction) (prevouts : List CTxOut) : AddressIndex :=
  prevouts.zipIdx.filterMap fun (prevout, j) =>
    prevout.scriptPubKey.address.map fun (type, hashBytes) =>
      ({ type, hashBytes, blockHeight := nHeight, txindex := i, txhash := tx.hash, index := j, spending := true },
        prevout.nValue * -1)

def spentUnspentEntries (tx : CTransaction) (prevouts : List CTxOut) : AddressUnspentIndex :=
  (tx.vin.zip prevouts).filterMap fun (input, prevout) =>
    prevout.scriptPubKey.address.map fun (type, hashBytes) =>
      ({ type, hashBytes, txhash := input.prevout.hash, index := input.prevout.n }, {})

/-- The record of one spend; an output without an address has type 0 and the null hash. -/
def spentValue (nHeight : Nat) (tx : CTransaction) (j : Nat) (prevout : CTxOut) : CSpentIndexValue :=
  let (addressType, addressHash) := prevout.scriptPubKey.address.getD (0, 0)
  { txid := tx.hash, inputIndex := j, blockHeight := nHeight, satoshis := prevout.nValue, addressType, addressHash }

def spentEntries (nHeight : Nat) (tx : CTransaction) (prevouts : List CTxOut) : SpentIndex :=
  (tx.vin.zip prevouts).zipIdx.map fun ((input, prevout), j) =>
    ({ txid := input.prevout.hash, outputIndex := input.prevout.n }, spentValue nHeight tx j prevout)

structure ConnectState (σ : Type) where
  view : σ
  nFees : CAmount := 0
  nSigOps : Nat := 0
  vtxundo : CBlockUndo := []
  addressIndex : AddressIndex := []
  addressUnspentIndex : AddressUnspentIndex := []
  spentIndex : SpentIndex := []
  /-- Whether all collected scripts accept, for `control.Wait()`. -/
  control : Bool := true

/-- What `ConnectBlock` fixes before the loop. -/
structure BlockContext where
  env : Env
  pindex : CBlockIndex
  fScriptChecks : Bool
  fStrictPayToScriptHash : Bool
  flags : Nat
  nLockTimeFlags : Nat

def connectInputs (ctx : BlockContext) (st : ConnectState σ) (tx : CTransaction) (i : Nat) :
    Except Failure (ConnectState σ) :=
  if tx.isCoinBase then .ok st
  else do
    let env := ctx.env
    let nHeight := ctx.pindex.nHeight
    require (haveInputs st.view tx) (dos 100 "bad-txns-inputs-missingorspent")
    let prevheights := tx.vin.map fun txin => (accessCoins st.view txin.prevout.hash).nHeight
    require (env.sequenceLocks tx ctx.nLockTimeFlags prevheights ctx.pindex) (dos 100 "bad-txns-nonfinal")
    let prevouts ← tx.vin.mapM (getOutputFor st.view)
    let nSigOps := st.nSigOps + if ctx.fStrictPayToScriptHash then env.getP2SHSigOpCount tx prevouts else 0
    require (nSigOps ≤ MAX_BLOCK_SIGOPS) (dos 100 "bad-blk-sigops")
    let nValueIn ← getValueIn st.view tx
    let nValueOut ← getValueOut tx
    let fee ← addInt64 nValueIn (-nValueOut)
    let nFees ← addInt64 st.nFees fee
    -- the view's best block is the parent here, so `GetSpendHeight` is the height of this block
    let accepts ← checkInputs env st.view tx nHeight ctx.fScriptChecks ctx.flags
    return { st with
      nFees
      nSigOps
      addressIndex := st.addressIndex ++ if env.fAddressIndex then spendingEntries nHeight i tx prevouts else []
      addressUnspentIndex :=
        st.addressUnspentIndex ++ if env.fAddressIndex then spentUnspentEntries tx prevouts else []
      spentIndex := st.spentIndex ++ if env.fSpentIndex then spentEntries nHeight tx prevouts else []
      control := st.control && accepts }

/-- The record of the outputs and the update of the coins, for every transaction. -/
def connectOutputs (ctx : BlockContext) (st : ConnectState σ) (tx : CTransaction) (i : Nat) :
    Except Failure (ConnectState σ) := do
  let nHeight := ctx.pindex.nHeight
  let (txundo, view) ← updateCoins st.view tx nHeight
  return { st with
    view := view
    vtxundo := if 0 < i then st.vtxundo ++ [txundo] else st.vtxundo
    addressIndex := st.addressIndex ++ if ctx.env.fAddressIndex then receivingEntries nHeight i tx else []
    addressUnspentIndex :=
      st.addressUnspentIndex ++ if ctx.env.fAddressIndex then unspentEntries nHeight tx else [] }

def connectTx (ctx : BlockContext) (st : ConnectState σ) (entry : CTransaction × Nat) :
    Except Failure (ConnectState σ) := do
  let (tx, i) := entry
  let nSigOps := st.nSigOps + ctx.env.getLegacySigOpCount tx
  require (nSigOps ≤ MAX_BLOCK_SIGOPS) (dos 100 "bad-blk-sigops")
  let st ← connectInputs ctx { st with nSigOps } tx i
  connectOutputs ctx st tx i

/-- The two blocks of another chain whose coinbases repeat earlier ones. -/
def isDuplicateCoinbaseBlock (pindex : CBlockIndex) : Bool :=
  pindex.nHeight == 91842 && pindex.getBlockHash ==
      0x00000000000a4d0a398161ffc163c503763b1f4360639393e0e4c8e300e0caec ||
    pindex.nHeight == 91880 && pindex.getBlockHash ==
      0x00000000000743f190a18c5577a3c2d2a1f610ae9601ac046a38084ccb7cd721

def enforceBIP30 (env : Env) (pindex : CBlockIndex) : Bool :=
  (pindex.phashBlock.isNone || !isDuplicateCoinbaseBlock pindex) &&
    pindex.prevAncestor env.BIP34Height != some env.BIP34Hash

/-- The two exemptions of the BIP30 test go by hashes that no block of this chain has: `BIP34Hash`, null on every
network, and those of the two blocks of another chain. -/
structure OwnHashes (env : Env) (pindex : CBlockIndex) : Prop where
  bip34 : pindex.prevAncestor env.BIP34Height ≠ some env.BIP34Hash
  coinbases : isDuplicateCoinbaseBlock pindex = false

theorem OwnHashes.enforced {env : Env} {pindex : CBlockIndex} (own : OwnHashes env pindex) :
    enforceBIP30 env pindex = true := by
  simp [enforceBIP30, own.bip34, own.coinbases]

def overwrites (view : σ) (block : CBlock) : Bool :=
  block.vtx.any fun tx => !(accessCoins view tx.hash).isPruned

def blockContext (env : Env) (block : CBlock) (pindex : CBlockIndex) : BlockContext :=
  let fStrictPayToScriptHash : Bool := nBIP16SwitchTime ≤ pindex.nTime
  let csv := env.csvActive pindex
  { env, pindex, fStrictPayToScriptHash
    fScriptChecks := env.fScriptChecks pindex
    flags :=
      (if fStrictPayToScriptHash then SCRIPT_VERIFY_P2SH else 0) |||
      (if 3 ≤ block.nVersion ∧ env.isSuperMajority 3 pindex = true then SCRIPT_VERIFY_DERSIG else 0) |||
      (if 4 ≤ block.nVersion ∧ env.isSuperMajority 4 pindex = true then SCRIPT_VERIFY_CHECKLOCKTIMEVERIFY else 0) |||
      (if csv then SCRIPT_VERIFY_CHECKSEQUENCEVERIFY else 0)
    nLockTimeFlags := if csv then LOCKTIME_VERIFY_SEQUENCE else 0 }

/-- `blockReward` with the test of the coinbase amount. -/
def checkReward (env : Env) (block : CBlock) (nHeight : Nat) (nFees : CAmount) : Except Failure Unit := do
  let blockReward ← addInt64 nFees (getBlockSubsidy env nHeight)
  match block.vtx with
  | [] => .error .assertion
  | coinbase :: _ => do
      let nValueOut ← getValueOut coinbase
      require (nValueOut ≤ blockReward) (dos 100 "bad-cb-amount")

/-- `ConnectBlock` up to its writes: the state at the end of the loop, with the best block moved
unless only checking. -/
def connectBlock (env : Env) (block : CBlock) (pindex : CBlockIndex) (view : σ) (fJustCheck : Bool) :
    Except Failure (ConnectState σ) := do
  checkBlock env block (!fJustCheck) (!fJustCheck)
  require (pindex.hashPrevBlock == getBestBlock view) .assertion
  if block.hash = env.hashGenesisBlock then
    return { view := if fJustCheck then view else setBestBlock view pindex.getBlockHash }
  else do
    require (!(enforceBIP30 env pindex && overwrites view block)) (dos 100 "bad-txns-BIP30")
    let st ← block.vtx.zipIdx.foldlM (connectTx (blockContext env block pindex)) { view }
    checkReward env block pindex.nHeight st.nFees
    require st.control (.rejected 100 0 "" false)
    return { st with view := if fJustCheck then st.view else setBestBlock st.view pindex.getBlockHash }

end View

/-- An environment in which everything outside the model accepts. -/
def permissiveEnv : Env where
  fAddressIndex := true
  fSpentIndex := true
  serializeSizeTx _ := 100
  serializeSizeBlock _ := 1000
  checkProofOfWork _ := true
  getAdjustedTime := 1500000000
  blockMerkleRoot block := (block.hashMerkleRoot, false)
  getLegacySigOpCount _ := 0
  getP2SHSigOpCount _ _ := 0
  isSuperMajority _ _ := true
  csvActive _ := true
  sequenceLocks _ _ _ _ := true
  fScriptChecks _ := true
  nScriptCheckThreads := 0
  scriptCheck _ _ _ _ := none

end Longcoin.ConnectBlock

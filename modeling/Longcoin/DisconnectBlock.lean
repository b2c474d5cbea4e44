import Longcoin.ConnectBlock

/-! `ApplyTxInUndo` and `DisconnectBlock` (`main.cpp`). -/

namespace Longcoin.DisconnectBlock
open Primitives Coins Validation BlockTreeDB ConnectBlock CoinsView Library.Outcome

section View
variable {σ : Type} [CoinsView σ]

/-- The edit of `ApplyTxInUndo`. -/
def restore (undo : CTxInUndo) (n : Nat) (coins : CCoins) : CCoins :=
  let coins : CCoins :=
    if undo.nHeight ≠ 0 then { fCoinBase := undo.fCoinBase, nHeight := undo.nHeight, nVersion := undo.nVersion }
    else coins
  let vout := coins.vout ++ List.replicate (n + 1 - coins.vout.length) CTxOut.setNull
  { coins with vout := vout.set n undo.txout }

/-- False when the undo data does not fit the coins; the output is restored all the same. -/
def applyTxInUndo (undo : CTxInUndo) (view : σ) (out : COutPoint) : Bool × σ :=
  let coins := accessCoins view out.hash
  let fClean := if undo.nHeight ≠ 0 then coins.isPruned else !coins.isPruned && !coins.isAvailable out.n
  (fClean, modifyCoins view out.hash (restore undo out.n))

structure DisconnectState (σ : Type) where
  view : σ
  fClean : Bool := true
  addressIndex : AddressIndex := []
  addressUnspentIndex : AddressUnspentIndex := []
  spentIndex : SpentIndex := []

def undoReceivingEntries (nHeight i : Nat) (tx : CTransaction) : AddressIndex :=
  tx.vout.zipIdx.reverse.filterMap fun (out, k) =>
    out.scriptPubKey.address.map fun (type, hashBytes) =>
      ({ type, hashBytes, blockHeight := nHeight, txindex := i, txhash := tx.hash, index := k, spending := false },
        out.nValue)

def undoUnspentEntries (tx : CTransaction) : AddressUnspentIndex :=
  tx.vout.zipIdx.reverse.filterMap fun (out, k) =>
    out.scriptPubKey.address.map fun (type, hashBytes) => ({ type, hashBytes, txhash := tx.hash, index := k }, {})

/-- Whether the outputs are there and match the block, and the view without them. -/
def removeOutputs (view : σ) (tx : CTransaction) (nHeight : Nat) : Bool × σ :=
  let outsBlock := CCoins.fromTx tx nHeight
  let outs := (accessCoins view tx.hash).clearUnspendable
  let outs := if outsBlock.nVersion < 0 then { outs with nVersion := outsBlock.nVersion } else outs
  (outs.beq outsBlock, modifyCoins view tx.hash CCoins.clear)

def undoSpendingEntry (nHeight i : Nat) (tx : CTransaction) (j : Nat) (prevout : CTxOut) :
    Option (CAddressIndexKey × CAmount) :=
  prevout.scriptPubKey.address.map fun (type, hashBytes) =>
    ({ type, hashBytes, blockHeight := nHeight, txindex := i, txhash := tx.hash, index := j, spending := true },
      prevout.nValue * -1)

/-- The unspent entry that comes back; its height is the one in the undo record. -/
def restoredEntry (input : CTxIn) (undo : CTxInUndo) (prevout : CTxOut) :
    Option (CAddressUnspentKey × CAddressUnspentValue) :=
  prevout.scriptPubKey.address.map fun (type, hashBytes) =>
    ({ type, hashBytes, txhash := input.prevout.hash, index := input.prevout.n },
      { satoshis := prevout.nValue, script := prevout.scriptPubKey, blockHeight := undo.nHeight })

/-- The output just put back, read from the view when the address index needs it. -/
def outputPutBack (env : Env) (view : σ) (input : CTxIn) (undo : CTxInUndo) : Except Failure CTxOut :=
  if env.fAddressIndex then getOutputFor view input else .ok undo.txout

/-- One input of the inner loop, with the index entries of its spend taken back. -/
def disconnectInput (env : Env) (nHeight i : Nat) (tx : CTransaction) (st : DisconnectState σ)
    (entry : (CTxIn × CTxInUndo) × Nat) : Except Failure (DisconnectState σ) := do
  let ((input, undo), j) := entry
  let (fClean, view) := applyTxInUndo undo st.view input.prevout
  let prevout ← outputPutBack env view input undo
  return { st with
    view := view
    fClean := st.fClean && fClean
    addressIndex := st.addressIndex ++
      if env.fAddressIndex then (undoSpendingEntry nHeight i tx j prevout).toList else []
    addressUnspentIndex := st.addressUnspentIndex ++
      if env.fAddressIndex then (restoredEntry input undo prevout).toList else []
    spentIndex := st.spentIndex ++
      if env.fSpentIndex then [({ txid := input.prevout.hash, outputIndex := input.prevout.n }, {})] else [] }

/-- One turn of the outer loop; the coinbase has no inputs to restore. -/
def disconnectTx (env : Env) (nHeight : Nat) (st : DisconnectState σ)
    (entry : (CTransaction × CTxUndo) × Nat) : Except Failure (DisconnectState σ) := do
  let ((tx, txundo), i) := entry
  let (fClean, view) := removeOutputs st.view tx nHeight
  let st : DisconnectState σ := { st with
    view := view
    fClean := st.fClean && fClean
    addressIndex := st.addressIndex ++ if env.fAddressIndex then undoReceivingEntries nHeight i tx else []
    addressUnspentIndex := st.addressUnspentIndex ++ if env.fAddressIndex then undoUnspentEntries tx else [] }
  if 0 < i then do
    require (txundo.length == tx.vin.length)
      (.error "DisconnectBlock(): transaction and undo data inconsistent")
    (tx.vin.zip txundo).zipIdx.reverse.foldlM (disconnectInput env nHeight i tx) st
  else .ok st

/-- `DisconnectBlock` up to its writes, on the undo data read back from disk. The loop runs over
the transactions from the last to the first, each with its undo data. -/
def disconnectBlock (env : Env) (block : CBlock) (pindex : CBlockIndex) (view : σ) (blockUndo : CBlockUndo) :
    Except Failure (DisconnectState σ) := do
  require (pindex.getBlockHash == getBestBlock view) .assertion
  require (blockUndo.length + 1 == block.vtx.length) (.error "DisconnectBlock(): block and undo data inconsistent")
  let st ← (block.vtx.zip ([] :: blockUndo)).zipIdx.reverse.foldlM (disconnectTx env pindex.nHeight) { view }
  return { st with view := setBestBlock st.view pindex.hashPrevBlock }

end View

end Longcoin.DisconnectBlock

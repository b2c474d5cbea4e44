import Longcoin.BlockEffect
import Longcoin.DisconnectBlock

/-! What a clean disconnection does to the plain map and which index entries it takes back,
whatever undo data it is given. -/

namespace Longcoin.DisconnectEffect
open Primitives Coins Validation BlockTreeDB ConnectBlock DisconnectBlock BlockEffect Library.Outcome CCoins UtxoSet List Bool Option

/-- What disconnecting the inputs of a transaction adds to the index batches. -/
def undoneSpending (nHeight i : Nat) (tx : CTransaction) (entries : List ((CTxIn × CTxInUndo) × Nat)) :
    AddressIndex :=
  entries.filterMap fun entry => undoSpendingEntry nHeight i tx entry.2 entry.1.2.txout

def restoredUnspent (entries : List ((CTxIn × CTxInUndo) × Nat)) : AddressUnspentIndex :=
  entries.filterMap fun entry => restoredEntry entry.1.1 entry.1.2 entry.1.2.txout

def erasedSpent (entries : List ((CTxIn × CTxInUndo) × Nat)) : SpentIndex :=
  entries.map fun entry => ({ txid := entry.1.1.prevout.hash, outputIndex := entry.1.1.prevout.n }, {})

/-- What disconnecting transactions adds to the index batches. -/
def undoneAddress (nHeight : Nat) (entries : List ((CTransaction × CTxUndo) × Nat)) : AddressIndex :=
  entries.flatMap fun entry => undoReceivingEntries nHeight entry.2 entry.1.1 ++
    undoneSpending nHeight entry.2 entry.1.1 (entry.1.1.vin.zip entry.1.2).zipIdx.reverse

def undoneUnspent (entries : List ((CTransaction × CTxUndo) × Nat)) : AddressUnspentIndex :=
  entries.flatMap fun entry => undoUnspentEntries entry.1.1 ++
    restoredUnspent (entry.1.1.vin.zip entry.1.2).zipIdx.reverse

def undoneSpent (entries : List ((CTransaction × CTxUndo) × Nat)) : SpentIndex :=
  entries.flatMap fun entry => erasedSpent (entry.1.1.vin.zip entry.1.2).zipIdx.reverse

def restored (utxo : UtxoSet) (prevout : COutPoint) (undo : CTxInUndo) : UtxoSet :=
  utxo.modify prevout.hash (restore undo prevout.n)

/-- The plain map without the outputs of a transaction. -/
def removed (utxo : UtxoSet) (tx : CTransaction) : UtxoSet := utxo.modify tx.hash CCoins.clear

/-- When `ApplyTxInUndo` does not complain: a header comes back to an empty record, anything else
to a record that has outputs left but not this one. -/
def Restorable (coins : CCoins) (undo : CTxInUndo) (n : Nat) : Prop :=
  if undo.nHeight ≠ 0 then coins.isPruned = true else coins.isPruned = false ∧ coins.unspentOut n = none

/-- Inputs put back one after another, in the order of `entries`. -/
inductive Restores : UtxoSet → List ((CTxIn × CTxInUndo) × Nat) → UtxoSet → Prop where
  | done (utxo : UtxoSet) : Restores utxo [] utxo
  | more {utxo utxo' : UtxoSet} {txin : CTxIn} {undo : CTxInUndo} {j : Nat} {entries : List ((CTxIn × CTxInUndo) × Nat)}
      (clean : Restorable (utxo.coins txin.prevout.hash) undo txin.prevout.n) (live : undo.txout.isNull = false)
      (rest : Restores (restored utxo txin.prevout undo) entries utxo') :
      Restores utxo (((txin, undo), j) :: entries) utxo'

/-- The outputs in the view are those of the transaction, as far as they can be spent. -/
def Matches (coins : CCoins) (tx : CTransaction) (nHeight : Nat) : Prop :=
  ∃ nVersion, { coins.clearUnspendable with nVersion } ≈ CCoins.fromTx tx nHeight

/-- Transactions taken back one after another, in the order of `entries`. -/
inductive Disconnects (nHeight : Nat) : UtxoSet → List ((CTransaction × CTxUndo) × Nat) → UtxoSet → Prop where
  | done (utxo : UtxoSet) : Disconnects nHeight utxo [] utxo
  | more {utxo middle utxo' : UtxoSet} {tx : CTransaction} {txundo : CTxUndo} {i : Nat}
      {entries : List ((CTransaction × CTxUndo) × Nat)} (same : Matches (utxo.coins tx.hash) tx nHeight)
      (restores : Restores (removed utxo tx) (tx.vin.zip txundo).zipIdx.reverse middle)
      (rest : Disconnects nHeight middle entries utxo') : Disconnects nHeight utxo (((tx, txundo), i) :: entries) utxo'

theorem padded_unspent (vout : List CTxOut) (n m : Nat) :
    (vout ++ replicate (n + 1 - vout.length) CTxOut.setNull)[m]?.filter (fun out => !out.isNull) =
      vout[m]?.filter fun out => !out.isNull := by
  by_cases inside : m < vout.length
  · rw [getElem?_append_left inside]
  · rw [getElem?_append_right (by omega), getElem?_replicate, getElem?_eq_none (by omega)]
    split_ifs <;> rfl

theorem restore_unspentOut (undo : CTxInUndo) (n : Nat) (coins : CCoins) (m : Nat) :
    (restore undo n coins).unspentOut m =
      if m = n then (some undo.txout).filter fun out => !out.isNull
      else if undo.nHeight ≠ 0 then none else coins.unspentOut m := by
  have inRange (vout : List CTxOut) : n < (vout ++ replicate (n + 1 - vout.length) CTxOut.setNull).length := by
    simp only [length_append, length_replicate]
    omega
  simp only [restore, unspentOut, getElem?_set]
  by_cases here : m = n
  · subst here
    rw [if_pos rfl, if_pos (inRange _), if_pos rfl]
  · rw [if_neg (Ne.symm here), if_neg here, padded_unspent]
    split_ifs <;> rfl

theorem restore_nHeight (undo : CTxInUndo) (n : Nat) (coins : CCoins) :
    (restore undo n coins).nHeight = if undo.nHeight ≠ 0 then undo.nHeight else coins.nHeight := by
  simp only [restore]
  split_ifs <;> rfl

variable {undo : CTxInUndo}

theorem restored_unspentOut {utxo : UtxoSet} {prevout : COutPoint}
    (clean : Restorable (utxo.coins prevout.hash) undo prevout.n) (live : undo.txout.isNull = false) (txid : Uint256)
    (n : Nat) :
    ((restored utxo prevout undo).coins txid).unspentOut n =
      if txid = prevout.hash ∧ n = prevout.n then some undo.txout else (utxo.coins txid).unspentOut n := by
  by_cases same : txid = prevout.hash
  · subst same
    rw [restored, modify_self, unspentOut_canonical, restore_unspentOut]
    unfold Restorable at clean
    by_cases here : n = prevout.n
    · simp [here, live]
    · have elsewhere : ¬(prevout.hash = prevout.hash ∧ n = prevout.n) := fun both => here both.2
      rw [if_neg here, if_neg elsewhere]
      by_cases given : undo.nHeight ≠ 0
      · rw [if_pos given] at clean ⊢
        rw [unspentOut_of_pruned clean]
      · rw [if_neg given]
  · rw [restored, modify_of_ne _ _ same, if_neg fun both => same both.1]

theorem restored_unspent {utxo : UtxoSet} {prevout : COutPoint} (clean : Restorable (utxo.coins prevout.hash) undo prevout.n)
    (live : undo.txout.isNull = false) : ((restored utxo prevout undo).coins prevout.hash).isPruned = false := by
  by_contra pruned
  rw [not_eq_false] at pruned
  have found := restored_unspentOut clean live prevout.hash prevout.n
  rw [if_pos ⟨rfl, rfl⟩, unspentOut_of_pruned pruned] at found
  simp at found

theorem removed_coins (utxo : UtxoSet) (tx : CTransaction) (txid : Uint256) :
    (removed utxo tx).coins txid = if txid = tx.hash then {} else utxo.coins txid := by
  split_ifs with same
  · subst same
    rw [removed, modify_self]
    rfl
  · exact modify_of_ne _ _ same

theorem applyTxInUndo_clean {view : PlainView} {out : COutPoint} (clean : (applyTxInUndo undo view out).1 = true) :
    Restorable (view.utxo.coins out.hash) undo out.n := by
  unfold applyTxInUndo at clean
  unfold Restorable
  simp only [plain_accessCoins] at clean
  split_ifs at clean ⊢ with given
  · exact clean
  · rw [and_eq_true, not_eq_true', not_eq_true', isAvailable_eq, isSome_eq_false_iff,
      isNone_iff_eq_none] at clean
    exact clean

variable {env : Env} {nHeight : Nat} {st st' : DisconnectState PlainView}

theorem disconnectInput_ok {i : Nat} {tx : CTransaction} {txin : CTxIn} {j : Nat} (live : undo.txout.isNull = false)
    (run : disconnectInput env nHeight i tx st ((txin, undo), j) = .ok st') (clean : st'.fClean = true) :
    st.fClean = true ∧ Restorable (st.view.utxo.coins txin.prevout.hash) undo txin.prevout.n ∧
      st'.view.utxo = restored st.view.utxo txin.prevout undo ∧
      st'.addressIndex = st.addressIndex ++
        (if env.fAddressIndex then undoneSpending nHeight i tx [((txin, undo), j)] else []) ∧
      st'.addressUnspentIndex = st.addressUnspentIndex ++
        (if env.fAddressIndex then restoredUnspent [((txin, undo), j)] else []) := by
  simp only [disconnectInput, bind_ok, pure_ok] at run
  obtain ⟨prevout, read, rfl⟩ := run
  rw [and_eq_true] at clean
  have fits := applyTxInUndo_clean clean.2
  have same : prevout = undo.txout := by
    unfold outputPutBack at read
    split_ifs at read
    · have output := getOutputFor_ok.mp read
      change ((restored st.view.utxo txin.prevout undo).coins txin.prevout.hash).unspentOut txin.prevout.n = _ at output
      rw [restored_unspentOut fits live, if_pos ⟨rfl, rfl⟩, some.injEq] at output
      exact output.symm
    · exact (Except.ok.inj read).symm
  subst same
  refine ⟨clean.1, fits, rfl, ?_, ?_⟩
  · simp only [undoneSpending, filterMap_cons, filterMap_nil]
    cases undoSpendingEntry nHeight i tx j undo.txout <;> rfl
  · simp only [restoredUnspent, filterMap_cons, filterMap_nil]
    cases restoredEntry txin undo undo.txout <;> rfl

theorem disconnectInputs_ok {i : Nat} {tx : CTransaction} {entries : List ((CTxIn × CTxInUndo) × Nat)}
    (live : ∀ entry ∈ entries, entry.1.2.txout.isNull = false)
    (run : entries.foldlM (disconnectInput env nHeight i tx) st = .ok st') (clean : st'.fClean = true) :
    st.fClean = true ∧ Restores st.view.utxo entries st'.view.utxo ∧
      st'.addressIndex = st.addressIndex ++ (if env.fAddressIndex then undoneSpending nHeight i tx entries else []) ∧
      st'.addressUnspentIndex = st.addressUnspentIndex ++
        (if env.fAddressIndex then restoredUnspent entries else []) := by
  induction entries generalizing st with
  | nil =>
    simp only [foldlM_nil, pure_ok] at run
    subst run
    exact ⟨clean, .done _, by simp [undoneSpending], by simp [restoredUnspent]⟩
  | cons entry entries ih =>
    obtain ⟨⟨txin, undo⟩, j⟩ := entry
    obtain ⟨middle, first, others⟩ := foldlM_cons_ok.mp run
    have here : undo.txout.isNull = false := live _ mem_cons_self
    obtain ⟨cleanMiddle, restores, address, unspent⟩ :=
      ih (forall_mem_cons.mp live).2 others
    obtain ⟨cleanFirst, fits, view, addressFirst, unspentFirst⟩ := disconnectInput_ok here first cleanMiddle
    rw [view] at restores
    refine ⟨cleanFirst, .more fits here restores, ?_, ?_⟩
    · rw [address, addressFirst]
      cases fAddressIndex : env.fAddressIndex
      · simp
      · simp only [if_true, undoneSpending, append_assoc, ← filterMap_append, singleton_append]
    · rw [unspent, unspentFirst]
      cases fAddressIndex : env.fAddressIndex
      · simp
      · simp only [if_true, restoredUnspent, append_assoc, ← filterMap_append, singleton_append]

theorem disconnectTx_ok {tx : CTransaction} {txundo : CTxUndo} {i : Nat} (dummy : i = 0 → txundo = [])
    (live : ∀ input ∈ tx.vin.zip txundo, input.2.txout.isNull = false)
    (run : disconnectTx env nHeight st ((tx, txundo), i) = .ok st') (clean : st'.fClean = true) :
    st.fClean = true ∧ Matches (st.view.utxo.coins tx.hash) tx nHeight ∧
      Restores (removed st.view.utxo tx) (tx.vin.zip txundo).zipIdx.reverse st'.view.utxo ∧
      (0 < i → txundo.length = tx.vin.length) ∧
      st'.addressIndex = st.addressIndex ++
        (if env.fAddressIndex then undoneAddress nHeight [((tx, txundo), i)] else []) ∧
      st'.addressUnspentIndex = st.addressUnspentIndex ++
        (if env.fAddressIndex then undoneUnspent [((tx, txundo), i)] else []) := by
  simp only [disconnectTx] at run
  have matched (outs : (removeOutputs st.view tx nHeight).1 = true) :
      Matches (st.view.utxo.coins tx.hash) tx nHeight := by
    have same := beq_iff_equiv.mp outs
    simp only [plain_accessCoins] at same
    unfold Matches
    split_ifs at same with negative
    · exact ⟨_, same⟩
    · exact ⟨_, same⟩
  by_cases first : i = 0
  · have empty := dummy first
    subst first empty
    simp only [Nat.lt_irrefl, if_false, Except.ok.injEq] at run
    subst run
    rw [and_eq_true] at clean
    refine ⟨clean.1, matched clean.2, ?_, by simp, ?_, ?_⟩
    · rw [zip_nil_right]
      exact .done _
    · simp [undoneAddress, undoneSpending]
    · simp [undoneUnspent, restoredUnspent]
  · rw [if_pos (Nat.pos_of_ne_zero first), require_bind_ok] at run
    obtain ⟨cleanOuts, restores, address, unspent⟩ := disconnectInputs_ok (fun entry member =>
      live entry.1 (fst_mem_of_mem_zipIdx (mem_reverse.mp member))) run.2 clean
    rw [and_eq_true] at cleanOuts
    refine ⟨cleanOuts.1, matched cleanOuts.2, restores, fun _ => by simpa using run.1, ?_, ?_⟩
    · rw [address]
      cases fAddressIndex : env.fAddressIndex <;> simp [undoneAddress]
    · rw [unspent]
      cases fAddressIndex : env.fAddressIndex <;> simp [undoneUnspent]

/-- The undo data of the transactions has the right lengths: none for the coinbase, one record
for each input of the others. -/
def UndoShape (entries : List ((CTransaction × CTxUndo) × Nat)) : Prop :=
  ∀ entry ∈ entries, if entry.2 = 0 then entry.1.2 = [] else entry.1.2.length = entry.1.1.vin.length

theorem disconnectTxs_ok {entries : List ((CTransaction × CTxUndo) × Nat)}
    (dummy : ∀ entry ∈ entries, entry.2 = 0 → entry.1.2 = [])
    (live : ∀ entry ∈ entries, ∀ input ∈ entry.1.1.vin.zip entry.1.2, input.2.txout.isNull = false)
    (run : entries.foldlM (disconnectTx env nHeight) st = .ok st') (clean : st'.fClean = true) :
    st.fClean = true ∧ Disconnects nHeight st.view.utxo entries st'.view.utxo ∧ UndoShape entries ∧
      st'.addressIndex = st.addressIndex ++ (if env.fAddressIndex then undoneAddress nHeight entries else []) ∧
      st'.addressUnspentIndex = st.addressUnspentIndex ++
        (if env.fAddressIndex then undoneUnspent entries else []) := by
  induction entries generalizing st with
  | nil =>
    simp only [foldlM_nil, pure_ok] at run
    subst run
    exact ⟨clean, .done _, by simp [UndoShape], by simp [undoneAddress], by simp [undoneUnspent]⟩
  | cons entry entries ih =>
    obtain ⟨⟨tx, txundo⟩, i⟩ := entry
    obtain ⟨middle, first, others⟩ := foldlM_cons_ok.mp run
    obtain ⟨cleanMiddle, disconnects, shape, address, unspent⟩ :=
      ih (forall_mem_cons.mp dummy).2
        (forall_mem_cons.mp live).2 others
    obtain ⟨cleanFirst, same, restores, size, addressFirst, unspentFirst⟩ :=
      disconnectTx_ok (dummy _ mem_cons_self) (live _ mem_cons_self) first cleanMiddle
    refine ⟨cleanFirst, .more same restores disconnects, ?_, ?_, ?_⟩
    · intro other member
      rcases mem_cons.mp member with rfl | member
      · simp only
        split_ifs with zero
        · exact dummy _ mem_cons_self zero
        · exact size (Nat.pos_of_ne_zero zero)
      · exact shape other member
    · rw [address, addressFirst]
      cases fAddressIndex : env.fAddressIndex
      · simp
      · simp only [if_true, undoneAddress, append_assoc, ← flatMap_append, singleton_append]
    · rw [unspent, unspentFirst]
      cases fAddressIndex : env.fAddressIndex
      · simp
      · simp only [if_true, undoneUnspent, append_assoc, ← flatMap_append, singleton_append]

theorem dummy_first (vtx : List CTransaction) (blockUndo : CBlockUndo) :
    ∀ entry ∈ (vtx.zip ([] :: blockUndo)).zipIdx.reverse, entry.2 = 0 → entry.1.2 = [] := by
  cases vtx with
  | nil => simp
  | cons tx vtx =>
    rintro ⟨⟨tx', txundo⟩, i⟩ member zero
    rw [mem_reverse, zip_cons_cons, zipIdx_cons] at member
    rcases mem_cons.mp member with same | later
    · exact (Prod.mk.inj (Prod.mk.inj same).1).2
    · have position := le_snd_of_mem_zipIdx later
      simp only at position zero
      omega

theorem disconnectBlock_ok {block : CBlock} {pindex : CBlockIndex} {view : PlainView} {blockUndo : CBlockUndo}
    (live : ∀ entry ∈ block.vtx.zip ([] :: blockUndo), ∀ input ∈ entry.1.vin.zip entry.2, input.2.txout.isNull = false)
    (run : disconnectBlock env block pindex view blockUndo = .ok st) (clean : st.fClean = true) :
    blockUndo.length + 1 = block.vtx.length ∧
      Disconnects pindex.nHeight view.utxo (block.vtx.zip ([] :: blockUndo)).zipIdx.reverse st.view.utxo ∧
      UndoShape (block.vtx.zip ([] :: blockUndo)).zipIdx.reverse ∧ st.view.hashBlock = pindex.hashPrevBlock ∧
      st.addressIndex = (if env.fAddressIndex then
        undoneAddress pindex.nHeight (block.vtx.zip ([] :: blockUndo)).zipIdx.reverse else []) ∧
      st.addressUnspentIndex = (if env.fAddressIndex then
        undoneUnspent (block.vtx.zip ([] :: blockUndo)).zipIdx.reverse else []) := by
  simp only [disconnectBlock, bind_ok, require_ok, pure_ok] at run
  obtain ⟨⟨⟩, -, ⟨⟩, sizes, last, loop, rfl⟩ := run
  obtain ⟨-, disconnects, shape, address, unspent⟩ :=
    disconnectTxs_ok (dummy_first block.vtx blockUndo) (fun entry member =>
      live entry.1 (fst_mem_of_mem_zipIdx (mem_reverse.mp member))) loop clean
  exact ⟨by simpa using sizes, disconnects, shape, rfl, by simpa using address, by simpa using unspent⟩

end Longcoin.DisconnectEffect

import Longcoin.DisconnectEffect

/-! Disconnecting a block takes back exactly what connecting it did. An undo record keeps the
header of the coins only with the last output spent, so the proof follows the inputs one by one,
in the order they were spent and back. -/

namespace Longcoin.UndoBlock
open Primitives Coins Validation BlockTreeDB ConnectBlock DisconnectBlock BlockEffect DisconnectEffect CoinsView Library.Outcome UtxoSet CTxOut List

/-- A slot that was spent holds the null output itself, as `Unserialize` leaves it. -/
def NullsExact (coins : CCoins) : Prop := ∀ out ∈ coins.vout, out.isNull = true → out = .setNull

theorem rdropWhile_pad {vout : List CTxOut} (exact : ∀ out ∈ vout, out.isNull = true → out = .setNull) :
    vout = vout.rdropWhile isNull ++ replicate (vout.length - (vout.rdropWhile isNull).length) .setNull := by
  induction vout using reverseRecOn with
  | nil => rfl
  | append_singleton vout out ih =>
    by_cases null : out.isNull = true
    · rw [rdropWhile_concat_pos _ _ _ null]
      have shorter := ( rdropWhile_prefix isNull vout).length_le
      have padded := ih (forall_mem_append.mp exact).1
      have same : out = .setNull := exact out (by simp) null
      have count : (vout ++ [out]).length - (vout.rdropWhile isNull).length =
          vout.length - (vout.rdropWhile isNull).length + 1 := by
        rw [length_append, length_singleton]
        omega
      rw [count, replicate_succ', ← append_assoc, ← padded, same]
    · rw [rdropWhile_concat_neg _ _ _ null]
      simp

variable {coins : CCoins}

theorem nullsExact_set (exact : NullsExact coins) (n : Nat) :
    ∀ out ∈ coins.vout.set n .setNull, out.isNull = true → out = .setNull := by
  intro out member null
  rcases mem_or_eq_of_mem_set member with member | rfl
  · exact exact out member null
  · rfl

variable {n : Nat}

theorem resize_spent (clean : coins.Clean) (exact : NullsExact coins) (inRange : n < coins.vout.length) :
    let vout := (coins.vout.set n .setNull).rdropWhile isNull
    vout ++ replicate (n + 1 - vout.length) .setNull = coins.vout.set n .setNull := by
  intro vout
  have padded := rdropWhile_pad (nullsExact_set exact n)
  rw [length_set] at padded
  by_cases last : n + 1 = coins.vout.length
  · rw [last]
    exact padded.symm
  · have whole : vout = coins.vout.set n .setNull := by
      apply rdropWhile_eq_self_iff.mpr
      intro nonempty
      have same : coins.vout.rdropWhile isNull = coins.vout := congrArg CCoins.vout clean
      have lastOut := rdropWhile_eq_self_iff.mp same (ne_nil_of_length_pos (by omega))
      rw [getLast_eq_getElem] at lastOut ⊢
      rw [getElem_set_ne (by simp only [length_set]; omega)]
      simpa using lastOut
    rw [whole, length_set, Nat.sub_eq_zero_of_le (by omega)]
    simp

theorem set_getElem {vout : List CTxOut} {out null : CTxOut} (found : vout[n]? = some out) :
    (vout.set n null).set n out = vout := by
  rw [set_set]
  obtain ⟨inRange, same⟩ := List.getElem?_eq_some_iff.mp found
  rw [← same, set_getElem_self]

variable {txout : CTxOut}

theorem isAvailable_of_found (found : coins.vout[n]? = some txout) (live : txout.isNull = false) :
    coins.isAvailable n = true := by
  simp [CCoins.isAvailable, found, live]

theorem spend_of_available (available : coins.isAvailable n = true) :
    (coins.spend n).2 = { coins with vout := (coins.vout.set n .setNull).rdropWhile isNull } := by
  simp [CCoins.spend, available, CCoins.cleanup]

theorem spend_clean (available : coins.isAvailable n = true) : (coins.spend n).2.Clean := by
  simp only [CCoins.spend, available, if_true]
  exact CCoins.clean_cleanup _

theorem canonical_of_clean (clean : coins.Clean) (unspent : coins.isPruned = false) : canonical coins = coins := by
  rw [canonical_of_unspent unspent, clean]

theorem restore_spend (clean : coins.Clean) (exact : NullsExact coins) (height : coins.nHeight ≠ 0)
    (found : coins.vout[n]? = some txout) (live : txout.isNull = false) :
    restore (undoOf coins n txout) n (canonical (coins.spend n).2) = coins := by
  have available := isAvailable_of_found found live
  have inRange : n < coins.vout.length := (List.getElem?_eq_some_iff.mp found).1
  have resized := resize_spent clean exact inRange
  have spentClean := spend_clean available
  by_cases pruned : (coins.spend n).2.isPruned = true
  · have empty : (coins.spend n).2.vout = [] := by
      have isEmpty := CCoins.vout_isEmpty_of_clean spentClean
      rw [pruned] at isEmpty
      exact isEmpty_iff.mp isEmpty
    have header := spend_of_available available
    rw [header] at empty
    simp only at empty
    simp only [empty, nil_append, length_nil, Nat.sub_zero] at resized
    simp only [restore, undoOf, header, empty, length_nil, if_true, ne_eq, height, not_false_eq_true,
      nil_append, Nat.sub_zero, resized, set_getElem found]
  · rw [Bool.not_eq_true] at pruned
    rw [canonical_of_clean spentClean pruned]
    have nonempty : ¬ (coins.spend n).2.vout.length = 0 := by
      rw [length_eq_zero_iff]
      rintro empty
      simp [CCoins.isPruned, empty] at pruned
    have header := spend_of_available available
    simp only [restore, undoOf, nonempty, if_false, ne_eq, not_true_eq_false]
    simp only [header, resized, set_getElem found]

/-- What every record of a view satisfies that validation built from nothing. -/
structure Regular (utxo : UtxoSet) : Prop where
  exact : ∀ txid, NullsExact (utxo.coins txid)
  height : ∀ txid, (utxo.coins txid).isPruned = false → (utxo.coins txid).nHeight ≠ 0

theorem nullsExact_canonical (exact : NullsExact coins) : NullsExact (canonical coins) := by
  cases pruned : coins.isPruned with
  | true => rw [canonical_of_pruned pruned]; simp [NullsExact]
  | false =>
    rw [canonical_of_unspent pruned]
    intro out member
    exact exact out (( rdropWhile_prefix _ _).subset member)

theorem canonical_nHeight (unspent : coins.isPruned = false) : (canonical coins).nHeight = coins.nHeight := by
  rw [canonical_of_unspent unspent]
  rfl

theorem spend_nHeight (coins : CCoins) (n : Nat) : (coins.spend n).2.nHeight = coins.nHeight := by
  unfold CCoins.spend
  split_ifs <;> rfl

theorem spend_nullsExact (exact : NullsExact coins) (n : Nat) : NullsExact (coins.spend n).2 := by
  unfold CCoins.spend
  split_ifs with available
  · intro out member
    exact nullsExact_set exact n out (( rdropWhile_prefix _ _).subset member)
  · exact exact

theorem spend_isPruned (unspent : (coins.spend n).2.isPruned = false) : coins.isPruned = false := by
  by_contra pruned
  rw [Bool.not_eq_false, CCoins.isPruned_iff_unspentOut] at pruned
  have gone : (coins.spend n).2.isPruned = true := CCoins.isPruned_iff_unspentOut.mpr fun nPos => by
    rw [CCoins.unspentOut_spend, pruned nPos, ite_self]
  simp [gone] at unspent

variable {utxo : UtxoSet}

theorem regular_spent (regular : Regular utxo) (prevout : COutPoint) : Regular (spent utxo prevout) := by
  constructor <;> intro txid <;> by_cases same : txid = prevout.hash
  · subst same
    rw [spent_coins_self]
    exact nullsExact_canonical (spend_nullsExact (regular.exact _) _)
  · rw [spent, modify_of_ne _ _ same]
    exact regular.exact txid
  · subst same
    rw [spent_coins_self, isPruned_canonical]
    intro unspent
    rw [canonical_nHeight unspent, spend_nHeight]
    exact regular.height _ (spend_isPruned unspent)
  · rw [spent, modify_of_ne _ _ same]
    exact regular.height txid

theorem modify_modify_self (utxo : UtxoSet) {txid : Uint256} (edit undo : CCoins → CCoins)
    (restores : undo (canonical (edit (utxo.coins txid))) = utxo.coins txid) :
    (utxo.modify txid edit).modify txid undo = utxo := by
  ext1
  funext other
  by_cases same : other = txid
  · subst same
    rw [modify_self, modify_self, restores, utxo.isCanonical]
  · rw [modify_of_ne _ _ same, modify_of_ne _ _ same]

theorem applyTxInUndo_spent (view : PlainView) (regular : Regular view.utxo) {prevout : COutPoint}
    (found : (view.utxo.coins prevout.hash).unspentOut prevout.n = some txout) :
    applyTxInUndo (undoOf (view.utxo.coins prevout.hash) prevout.n txout)
      { view with utxo := spent view.utxo prevout } prevout = (true, view) := by
  have unspent : (view.utxo.coins prevout.hash).isPruned = false := by
    by_contra pruned
    rw [Bool.not_eq_false] at pruned
    simp [CCoins.unspentOut_of_pruned pruned] at found
  have available : (view.utxo.coins prevout.hash).isAvailable prevout.n = true := by
    rw [CCoins.isAvailable_eq, found]
    rfl
  obtain ⟨hit, live⟩ := CCoins.unspentOut_eq_some.mp found
  have clean := view.utxo.coins_clean prevout.hash
  have height := regular.height prevout.hash unspent
  have restored := restore_spend clean (regular.exact prevout.hash) height hit live
  have back := modify_modify_self view.utxo (fun coins => (coins.spend prevout.n).2) _ restored
  simp only [applyTxInUndo, plain_accessCoins, plain_modifyCoins, Prod.mk.injEq]
  refine ⟨?_, by rw [spent, back]⟩
  rw [spent_coins_self, isPruned_canonical]
  have empty := CCoins.vout_isEmpty_of_clean (spend_clean available)
  unfold undoOf
  simp only
  split_ifs with last given given
  · rw [← empty]
    simpa using last
  · simp only [ne_eq, not_not, spend_nHeight] at given
    exact absurd given height
  · exact absurd rfl given
  · rw [CCoins.isAvailable_eq, unspentOut_canonical, CCoins.unspentOut_spend, if_pos rfl, ← empty]
    simpa using last

/-- The state after a piece of the loop that put the coins back to `utxo`. -/
def extend (st : DisconnectState PlainView) (env : Env) (utxo : UtxoSet) (address : AddressIndex)
    (unspent : AddressUnspentIndex) (spentIndex : SpentIndex) : DisconnectState PlainView where
  view := { st.view with utxo }
  fClean := st.fClean
  addressIndex := st.addressIndex ++ if env.fAddressIndex then address else []
  addressUnspentIndex := st.addressUnspentIndex ++ if env.fAddressIndex then unspent else []
  spentIndex := st.spentIndex ++ if env.fSpentIndex then spentIndex else []

theorem extend_extend (st : DisconnectState PlainView) (env : Env) (utxo utxo' : UtxoSet)
    (address address' : AddressIndex) (unspent unspent' : AddressUnspentIndex) (spentIndex spentIndex' : SpentIndex) :
    extend (extend st env utxo address unspent spentIndex) env utxo' address' unspent' spentIndex' =
      extend st env utxo' (address ++ address') (unspent ++ unspent') (spentIndex ++ spentIndex') := by
  cases fAddressIndex : env.fAddressIndex <;> cases fSpentIndex : env.fSpentIndex <;>
    simp [extend, fAddressIndex, fSpentIndex]

theorem disconnectInput_spent (env : Env) (nHeight i : Nat) (tx : CTransaction) (st : DisconnectState PlainView)
    (regular : Regular utxo) {txin : CTxIn} (j : Nat)
    (found : (utxo.coins txin.prevout.hash).unspentOut txin.prevout.n = some txout)
    (here : st.view.utxo = spent utxo txin.prevout) :
    let undo := undoOf (utxo.coins txin.prevout.hash) txin.prevout.n txout
    disconnectInput env nHeight i tx st ((txin, undo), j) =
      .ok (extend st env utxo (undoneSpending nHeight i tx [((txin, undo), j)]) (restoredUnspent [((txin, undo), j)])
        (erasedSpent [((txin, undo), j)])) := by
  intro undo
  have restored := applyTxInUndo_spent { st.view with utxo } regular found
  have view : ({ { st.view with utxo } with utxo := spent utxo txin.prevout } : PlainView) = st.view := by
    rw [← here]
  rw [view] at restored
  have output : getOutputFor ({ st.view with utxo } : PlainView) txin = .ok txout := getOutputFor_ok.mpr found
  unfold disconnectInput outputPutBack
  simp only [undo, restored, Bool.and_true, undoOf_txout]
  cases fAddressIndex : env.fAddressIndex with
  | true =>
    rw [if_pos rfl, output]
    change Except.ok _ = Except.ok _
    simp only [extend, fAddressIndex, if_true, undoneSpending, restoredUnspent, erasedSpent, map_cons,
      map_nil, undoOf_txout, Except.ok.injEq, filterMap_cons, filterMap_nil]
    cases undoSpendingEntry nHeight i tx j txout <;> cases restoredEntry txin undo txout <;> rfl
  | false =>
    change Except.ok _ = Except.ok _
    simp only [extend, fAddressIndex, Bool.false_eq_true, if_false, erasedSpent, map_cons, map_nil]

theorem disconnectInputs_spends (env : Env) (nHeight i : Nat) (tx : CTransaction) {utxo' : UtxoSet} {vin : List CTxIn}
    {txundo : CTxUndo} (spends : Spends utxo vin txundo utxo') (regular : Regular utxo) (k : Nat)
    (st : DisconnectState PlainView) (here : st.view.utxo = utxo') :
    let entries := ((vin.zip txundo).zipIdx k).reverse
    entries.foldlM (disconnectInput env nHeight i tx) st =
      .ok (extend st env utxo (undoneSpending nHeight i tx entries) (restoredUnspent entries) (erasedSpent entries)) := by
  induction spends generalizing k st with
  | done utxo =>
    subst here
    simp [extend, undoneSpending, restoredUnspent, erasedSpent, pure, Except.pure]
  | @more utxo utxo' txin vin txundo txout found rest ih =>
    intro entries
    have others := ih (regular_spent regular txin.prevout) (k + 1) st here
    simp only at others
    have first := disconnectInput_spent env nHeight i tx
      (extend st env (spent utxo txin.prevout) (undoneSpending nHeight i tx ((vin.zip txundo).zipIdx (k + 1)).reverse)
        (restoredUnspent ((vin.zip txundo).zipIdx (k + 1)).reverse)
        (erasedSpent ((vin.zip txundo).zipIdx (k + 1)).reverse)) regular k found rfl
    simp only at first
    simp only [entries, zip_cons_cons, zipIdx_cons, reverse_cons]
    rw [foldlM_append_ok]
    refine ⟨_, others, ?_⟩
    rw [foldlM_cons, first]
    simp [extend_extend, undoneSpending, restoredUnspent, erasedSpent, bind, Except.bind, pure, Except.pure]

variable {tx : CTransaction}

theorem fromTx_nullsExact (checked : Checked tx) (nHeight : Nat) : NullsExact (CCoins.fromTx tx nHeight) := by
  intro out member null
  have inside := ( rdropWhile_prefix isNull _).subset member
  simp only [mem_map] at inside
  obtain ⟨txout, created, rfl⟩ := inside
  split_ifs at null ⊢ with unspendable
  · rfl
  · have amount := (checked.amounts txout created).1
    simp only [isNull, beq_iff_eq] at null
    rw [null] at amount
    cases amount

theorem regular_created (regular : Regular utxo) (checked : Checked tx) {nHeight : Nat} (height : nHeight ≠ 0) :
    Regular (created utxo tx nHeight) := by
  constructor <;> intro txid <;> by_cases same : txid = tx.hash
  · subst same
    rw [created, modify_self]
    exact nullsExact_canonical (fromTx_nullsExact checked nHeight)
  · rw [created, modify_of_ne _ _ same]
    exact regular.exact txid
  · subst same
    rw [created, modify_self, isPruned_canonical]
    intro unspent
    rw [canonical_nHeight unspent]
    exact height
  · rw [created, modify_of_ne _ _ same]
    exact regular.height txid

theorem regular_spends {utxo' : UtxoSet} {vin : List CTxIn} {txundo : CTxUndo} (spends : Spends utxo vin txundo utxo')
    (regular : Regular utxo) : Regular utxo' := by
  induction spends with
  | done => exact regular
  | more found rest ih => exact ih (regular_spent regular _)

theorem fromTx_clean (tx : CTransaction) (nHeight : Nat) : (CCoins.fromTx tx nHeight).Clean :=
  CCoins.clean_cleanup _

theorem clearUnspendable_fromTx (tx : CTransaction) (nHeight : Nat) :
    (CCoins.fromTx tx nHeight).clearUnspendable = CCoins.fromTx tx nHeight := by
  have unchanged : ((CCoins.fromTx tx nHeight).vout.map fun out =>
      if out.scriptPubKey.isUnspendable then .setNull else out) = (CCoins.fromTx tx nHeight).vout := by
    refine (map_congr_left fun out member => ?_).trans (map_id _)
    have inside := ( rdropWhile_prefix isNull _).subset member
    simp only [mem_map] at inside
    obtain ⟨txout, -, rfl⟩ := inside
    by_cases unspendable : txout.scriptPubKey.isUnspendable = true
    · simp only [unspendable, if_true, ite_self, id]
    · simp only [unspendable, Bool.false_eq_true, if_false, id]
  unfold CCoins.clearUnspendable
  rw [unchanged]
  exact fromTx_clean tx nHeight

theorem removeOutputs_created (view : PlainView) (fresh : Fresh view.utxo tx) (nHeight : Nat) :
    removeOutputs { view with utxo := created view.utxo tx nHeight } tx nHeight = (true, view) := by
  have before := view.utxo.coins_of_pruned fresh
  have cleared : (canonical (CCoins.fromTx tx nHeight)).clear = view.utxo.coins tx.hash := by
    rw [before]
    rfl
  have back := modify_modify_self view.utxo (fun _ => CCoins.fromTx tx nHeight) CCoins.clear cleared
  simp only [removeOutputs, plain_accessCoins, plain_modifyCoins, Prod.mk.injEq]
  refine ⟨?_, by rw [created, back]⟩
  rw [created, modify_self, CCoins.beq_iff]
  by_cases pruned : (CCoins.fromTx tx nHeight).isPruned = true
  · left
    rw [canonical_of_pruned pruned]
    refine ⟨?_, pruned⟩
    split_ifs <;> rfl
  · right
    rw [Bool.not_eq_true] at pruned
    rw [canonical_of_clean (fromTx_clean tx nHeight) pruned, clearUnspendable_fromTx]
    split_ifs <;> rfl

theorem disconnectTx_connects (env : Env) (nHeight : Nat) (st : DisconnectState PlainView) {middle : UtxoSet}
    {txundo : CTxUndo} (spends : Spends utxo (spentInputs tx) txundo middle) (fresh : Fresh middle tx)
    (regular : Regular utxo) (here : st.view.utxo = created middle tx nHeight) (i : Nat)
    (coinbase : tx.isCoinBase = true ↔ i = 0) : disconnectTx env nHeight st ((tx, txundo), i) =
      .ok (extend st env utxo (undoneAddress nHeight [((tx, txundo), i)]) (undoneUnspent [((tx, txundo), i)])
        (undoneSpent [((tx, txundo), i)])) := by
  have removed := removeOutputs_created { st.view with utxo := middle } fresh nHeight
  have view : ({ { st.view with utxo := middle } with utxo := created middle tx nHeight } : PlainView) = st.view := by
    rw [← here]
  rw [view] at removed
  unfold disconnectTx
  simp only [removed, Bool.and_true]
  have opened : ({ st with
      view := { st.view with utxo := middle }
      addressIndex := st.addressIndex ++ if env.fAddressIndex = true then undoReceivingEntries nHeight i tx else []
      addressUnspentIndex :=
        st.addressUnspentIndex ++ if env.fAddressIndex = true then undoUnspentEntries tx else [] } :
      DisconnectState PlainView) =
      extend st env middle (undoReceivingEntries nHeight i tx) (undoUnspentEntries tx) [] := by
    simp [extend]
  rw [opened]
  by_cases first : i = 0
  · have isCoinBase := coinbase.mpr first
    rw [spentInputs, isCoinBase, if_pos rfl] at spends
    cases spends
    subst first
    simp [undoneAddress, undoneUnspent, undoneSpent, undoneSpending, restoredUnspent, erasedSpent, extend]
  · have ordinary : tx.isCoinBase = false := by
      rw [← Bool.not_eq_true, coinbase]
      exact first
    rw [spentInputs, ordinary, if_neg Bool.false_ne_true] at spends
    rw [if_pos (Nat.pos_of_ne_zero first), require_bind_ok]
    refine ⟨by simp [spends_length spends], ?_⟩
    rw [disconnectInputs_spends env nHeight i tx spends regular 0 _ rfl, extend_extend]
    simp [undoneAddress, undoneUnspent, undoneSpent]

theorem disconnectTxs_connects (env : Env) {nHeight : Nat} (height : nHeight ≠ 0) {utxo' : UtxoSet} {vtx : List CTransaction}
    {vtxundo : List CTxUndo} (connects : Connects Fresh nHeight utxo vtx vtxundo utxo') (checked : ∀ tx ∈ vtx, Checked tx)
    (regular : Regular utxo) (k : Nat) (coinbase : ∀ entry ∈ vtx.zipIdx k, entry.1.isCoinBase = true ↔ entry.2 = 0)
    (st : DisconnectState PlainView) (here : st.view.utxo = utxo') :
    let entries := ((vtx.zip vtxundo).zipIdx k).reverse
    entries.foldlM (disconnectTx env nHeight) st =
      .ok (extend st env utxo (undoneAddress nHeight entries) (undoneUnspent entries) (undoneSpent entries)) := by
  induction connects generalizing k st with
  | done utxo =>
    subst here
    simp [extend, undoneAddress, undoneUnspent, undoneSpent, pure, Except.pure]
  | @more utxo middle utxo' tx vtx txundo vtxundo spends fresh rest ih =>
    intro entries
    have regular' := regular_created (regular_spends spends regular) (checked tx mem_cons_self) height
    have others := ih (forall_mem_cons.mp checked).2 regular' (k + 1)
      (fun entry member => coinbase entry (by rw [zipIdx_cons]; exact mem_cons_of_mem _ member)) st here
    have first := disconnectTx_connects env nHeight
      (extend st env (created middle tx nHeight) (undoneAddress nHeight ((vtx.zip vtxundo).zipIdx (k + 1)).reverse)
        (undoneUnspent ((vtx.zip vtxundo).zipIdx (k + 1)).reverse)
        (undoneSpent ((vtx.zip vtxundo).zipIdx (k + 1)).reverse)) spends fresh regular rfl k
      (coinbase (tx, k) (by rw [zipIdx_cons]; exact mem_cons_self))
    simp only at others
    simp only [entries, zip_cons_cons, zipIdx_cons, reverse_cons]
    rw [foldlM_append_ok]
    refine ⟨_, others, ?_⟩
    rw [foldlM_cons, first]
    simp [extend_extend, undoneAddress, undoneUnspent, undoneSpent, bind, Except.bind, pure, Except.pure]

theorem disconnectBlock_accepted {env : Env} {block : CBlock} {pindex : CBlockIndex} {view : PlainView}
    {st : ConnectState PlainView} (accepted : Accepted env block pindex view st) (collisionFree : CollisionFree block.vtx)
    (free : ∀ tx ∈ block.vtx, (view.utxo.coins tx.hash).isPruned = true) (regular : Regular view.utxo)
    (height : 0 < pindex.nHeight) : disconnectBlock env block pindex st.view st.vtxundo = .ok (extend { view } env view.utxo
        (undoneAddress pindex.nHeight (block.vtx.zip ([] :: st.vtxundo)).zipIdx.reverse)
        (undoneUnspent (block.vtx.zip ([] :: st.vtxundo)).zipIdx.reverse)
        (undoneSpent (block.vtx.zip ([] :: st.vtxundo)).zipIdx.reverse)) := by
  have connects := accepted_fresh accepted collisionFree free
  have sizes := connects_length connects
  rw [length_cons] at sizes
  have undone := disconnectTxs_connects env (Nat.pos_iff_ne_zero.mp height) connects accepted.shape.transactions
    regular 0 (coinbase_first accepted.shape) { view := st.view } rfl
  simp only at undone
  have best : (pindex.getBlockHash == getBestBlock st.view) = true := by
    rw [beq_iff_eq]
    exact accepted.best.symm
  simp only [disconnectBlock, best, sizes, beq_self_eq_true, require, if_true]
  change ((block.vtx.zip ([] :: st.vtxundo)).zipIdx.reverse.foldlM (disconnectTx env pindex.nHeight)
    { view := st.view } >>= _) = _
  rw [undone]
  simp only [bind, Except.bind, pure, Except.pure, extend, Except.ok.injEq, DisconnectState.mk.injEq, and_true]
  exact PlainView.ext rfl accepted.parent.symm

/-- Connecting a block and disconnecting it with the undo data just built is the identity on
the coins. -/
theorem connect_disconnect_identity {env : Env} {block : CBlock} {pindex : CBlockIndex} {view : PlainView}
    {st : ConnectState PlainView} (ordinary : block.hash ≠ env.hashGenesisBlock) (height : 0 < pindex.nHeight)
    (connected : connectBlock env block pindex view false = .ok st) (own : OwnHashes env pindex)
    (collisionFree : CollisionFree block.vtx) (regular : Regular view.utxo) :
    ∃ st', disconnectBlock env block pindex st.view st.vtxundo = .ok st' ∧ st'.fClean = true ∧
      getBestBlock st'.view = pindex.hashPrevBlock ∧
      ∀ txid, (accessCoins st'.view txid).beq (accessCoins view txid) = true := by
  have accepted := connectBlock_ok ordinary connected
  refine ⟨_, disconnectBlock_accepted accepted collisionFree (accepted.free own.enforced) regular height, rfl,
    accepted.parent, fun txid => ?_⟩
  exact CCoins.beq_iff_equiv.mpr (Setoid.refl _)

/-! A block that spends both outputs of one transaction below it, the last one first, and then an output of its own. -/

def twoOutputs : CTransaction where
  hash := 5
  vin := [{ prevout := { hash := 2, n := 0 } }]
  vout := [{ nValue := 4, scriptPubKey := [] }, { nValue := 6, scriptPubKey := [] }]

def spendingBlock : CBlock where
  hash := 3
  hashPrevBlock := 4
  vtx := [
    { hash := 7, vin := [{ prevout := { hash := 0, n := 4294967295 }, scriptSig := [1, 2] }],
      vout := [{ nValue := 5, scriptPubKey := [] }] },
    { hash := 8, vin := [{ prevout := { hash := 5, n := 1 } }, { prevout := { hash := 5, n := 0 } }],
      vout := [{ nValue := 10, scriptPubKey := [] }] },
    { hash := 9, vin := [{ prevout := { hash := 8, n := 0 } }], vout := [{ nValue := 9, scriptPubKey := [] }] }]

def spendingIndex : CBlockIndex where
  phashBlock := some 3
  ancestors := [4, 9]

def spentView : PlainView where
  utxo := created .empty twoOutputs 1
  hashBlock := 4

theorem connect_disconnect_identity_spends :
    ∃ st st', connectBlock permissiveEnv spendingBlock spendingIndex spentView false = .ok st ∧
      (accessCoins st.view 5).isPruned = true ∧
      disconnectBlock permissiveEnv spendingBlock spendingIndex st.view st.vtxundo = .ok st' ∧ st'.fClean = true ∧
      getBestBlock st'.view = 4 ∧ ∀ txid, (accessCoins st'.view txid).beq (accessCoins spentView txid) = true := by
  have regular : Regular spentView.utxo := by
    refine regular_created ⟨fun txid out member => by simp at member, fun txid unspent => by simp at unspent⟩
      (@checkTransaction_ok permissiveEnv _ (by rfl)) (by decide)
  have collisionFree : CollisionFree spendingBlock.vtx := by simp [CollisionFree, spendingBlock]
  obtain ⟨st, run, spent⟩ : ∃ st, connectBlock permissiveEnv spendingBlock spendingIndex spentView false = .ok st ∧
      (accessCoins st.view 5).isPruned = true := ⟨_, rfl, rfl⟩
  obtain ⟨st', back⟩ := connect_disconnect_identity (by decide) (by decide) run ⟨by decide, by decide⟩ collisionFree regular
  exact ⟨st, st', run, spent, back⟩

end Longcoin.UndoBlock

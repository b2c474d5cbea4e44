import Longcoin.ActiveChain
import Longcoin.Issuance
import Mathlib.Tactic.Linarith

/-! No block creates more than its subsidy, and no sum of amounts overflows on the way. -/

namespace Longcoin.MoneySupply
open Primitives Coins UtxoSet Validation ConnectBlock BlockEffect ActiveChain CoinsValue Issuance CCoins CTxOut CTxIn List
open Library Library.Total Library.Outcome

noncomputable def totalSupply (utxo : UtxoSet) : CAmount := totalValue (fun _ => true) utxo

def Amounts (utxo : UtxoSet) : Prop := ∀ txid n out, (utxo.coins txid).unspentOut n = some out → 0 ≤ out.nValue

/-- What the coins of a transaction count for when only those whose header is `held` count. -/
def partValue (held : Bool → Nat → Bool) (coins : CCoins) : CAmount :=
  if held coins.fCoinBase coins.nHeight then coinsValue (fun _ => true) coins else 0

noncomputable def heldValue (held : Bool → Nat → Bool) (utxo : UtxoSet) : CAmount :=
  total fun txid => partValue held (utxo.coins txid)

theorem heldValue_all (utxo : UtxoSet) : heldValue (fun _ _ => true) utxo = totalSupply utxo := rfl

variable {held : Bool → Nat → Bool}

@[simp] theorem partValue_empty : partValue held {} = 0 := by
  simp [partValue]

@[simp] theorem partValue_canonical (coins : CCoins) : partValue held (canonical coins) = partValue held coins := by
  cases pruned : coins.isPruned with
  | true =>
    rw [canonical_of_pruned pruned, partValue_empty, partValue, coinsValue_of_pruned _ pruned, ite_self]
  | false =>
    rw [canonical_of_unspent pruned]
    simp only [partValue, coinsValue_cleanup]
    rfl

theorem coinsValue_nonneg {coins : CCoins} (amounts : ∀ n out, coins.unspentOut n = some out → 0 ≤ out.nValue) :
    0 ≤ coinsValue (fun _ => true) coins := by
  apply sum_nonneg
  intro value member
  obtain ⟨out, inside, rfl⟩ := mem_map.mp member
  obtain ⟨n, found⟩ := mem_iff_getElem?.mp inside
  unfold slotValue
  split_ifs with counted
  · simp only [Bool.and_true, Bool.not_eq_true'] at counted
    exact amounts n out (unspentOut_eq_some.mpr ⟨found, counted⟩)
  · exact le_rfl

theorem partValue_nonneg {coins : CCoins} (amounts : ∀ n out, coins.unspentOut n = some out → 0 ≤ out.nValue) :
    0 ≤ partValue held coins := by
  unfold partValue
  split_ifs
  · exact coinsValue_nonneg amounts
  · exact le_rfl

variable {utxo : UtxoSet}

theorem heldValue_nonneg (amounts : Amounts utxo) : 0 ≤ heldValue held utxo :=
  total_nonneg _ fun txid => partValue_nonneg (amounts txid)

theorem heldValue_modify (utxo : UtxoSet) (txid : Uint256) (edit : CCoins → CCoins) : heldValue held (utxo.modify txid edit) =
      heldValue held utxo - partValue held (utxo.coins txid) + partValue held (edit (utxo.coins txid)) := by
  have moved : (fun other => partValue held ((utxo.modify txid edit).coins other)) =
      Function.update (fun other => partValue held (utxo.coins other)) txid (partValue held (edit (utxo.coins txid))) := by
    funext other
    by_cases same : other = txid
    · subst same
      rw [UtxoSet.modify_self, Function.update_self, partValue_canonical]
    · rw [UtxoSet.modify_of_ne _ _ same, Function.update_of_ne same]
  rw [heldValue, moved, total_update]
  rfl

variable {out : CTxOut}

theorem partValue_spend {coins : CCoins} {n : Nat} (found : coins.unspentOut n = some out)
    (holds : held coins.fCoinBase coins.nHeight = true) :
    partValue held (coins.spend n).2 = partValue held coins - out.nValue := by
  have available : coins.isAvailable n = true := by
    rw [isAvailable_eq, found]
    rfl
  have header : held (coins.spend n).2.fCoinBase (coins.spend n).2.nHeight = true := by
    simp only [spend, available, if_true]
    exact holds
  have live := (unspentOut_eq_some.mp found).2
  rw [partValue, if_pos header, partValue, if_pos holds, coinsValue_spend _ found, slotValue, live]
  rfl

theorem heldValue_spent {prevout : COutPoint} (found : (utxo.coins prevout.hash).unspentOut prevout.n = some out)
    (holds : held (utxo.coins prevout.hash).fCoinBase (utxo.coins prevout.hash).nHeight = true) :
    heldValue held (spent utxo prevout) = heldValue held utxo - out.nValue := by
  rw [spent, heldValue_modify, partValue_spend found holds]
  abel

theorem spent_header {prevout : COutPoint} {txid : Uint256} (unspent : ((spent utxo prevout).coins txid).isPruned = false) :
    ((spent utxo prevout).coins txid).fCoinBase = (utxo.coins txid).fCoinBase ∧
      ((spent utxo prevout).coins txid).nHeight = (utxo.coins txid).nHeight := by
  by_cases same : txid = prevout.hash
  · subst same
    rw [spent_coins_self] at unspent ⊢
    rw [isPruned_canonical] at unspent
    rw [canonical_of_unspent unspent]
    simp only [spend]
    split_ifs <;> exact ⟨rfl, rfl⟩
  · rw [spent, UtxoSet.modify_of_ne _ _ same]
    exact ⟨rfl, rfl⟩

theorem amounts_spent (amounts : Amounts utxo) (prevout : COutPoint) : Amounts (spent utxo prevout) := by
  intro txid n out found
  rw [spent_unspentOut] at found
  split_ifs at found
  exact amounts txid n out found

def Holds (held : Bool → Nat → Bool) (utxo : UtxoSet) (txin : CTxIn) : Prop :=
  held (utxo.coins txin.prevout.hash).fCoinBase (utxo.coins txin.prevout.hash).nHeight = true

variable {txin : CTxIn}

theorem holds_spent {prevout : COutPoint} (holds : Holds held utxo txin)
    (found : ((spent utxo prevout).coins txin.prevout.hash).unspentOut txin.prevout.n = some out) :
    Holds held (spent utxo prevout) txin := by
  have unspent : ((spent utxo prevout).coins txin.prevout.hash).isPruned = false := by
    rw [Bool.eq_false_iff]
    intro pruned
    rw [unspentOut_of_pruned pruned] at found
    simp at found
  unfold Holds at holds ⊢
  rw [(spent_header unspent).1, (spent_header unspent).2]
  exact holds

variable {utxo' : UtxoSet} {vin : List CTxIn}

theorem heldValue_spends {txundo : CTxUndo} (spends : Spends utxo vin txundo utxo')
    (holds : ∀ txin ∈ vin, Holds held utxo txin) :
    heldValue held utxo' = heldValue held utxo - (txundo.map fun undo => undo.txout.nValue).sum := by
  induction spends with
  | done => simp
  | @more utxo utxo' txin vin txundo txout found rest ih =>
    rw [ih, heldValue_spent found (holds txin mem_cons_self), map_cons, sum_cons, undoOf_txout]
    · abel
    · intro other member
      obtain ⟨index, inRange, rfl⟩ := mem_iff_getElem.mp member
      have later := forall₂_iff_get.mp (spends_found rest)
      exact holds_spent (holds _ (mem_cons_of_mem _ member)) (later.2 index inRange (later.1 ▸ inRange))

theorem amounts_spends {txundo : CTxUndo} (spends : Spends utxo vin txundo utxo') (amounts : Amounts utxo) : Amounts utxo' := by
  induction spends with
  | done => exact amounts
  | more found rest ih => exact ih (amounts_spent amounts _)

variable {outs : List CTxOut}

def Reads (utxo : UtxoSet) (vin : List CTxIn) (outs : List CTxOut) : Prop :=
  Forall₂ (fun txin out => (utxo.coins txin.prevout.hash).unspentOut txin.prevout.n = some out) vin outs

theorem exists_spends (distinct : (vin.map prevout).Nodup) (found : Reads utxo vin outs) :
    ∃ txundo utxo', Spends utxo vin txundo utxo' ∧ txundo.map CTxInUndo.txout = outs := by
  induction vin generalizing utxo outs with
  | nil =>
    cases found
    exact ⟨[], utxo, .done utxo, rfl⟩
  | cons txin vin ih =>
    obtain ⟨out, outs, here, rest, rfl⟩ := forall₂_cons_left_iff.mp found
    rw [map_cons, nodup_cons] at distinct
    have later : Reads (spent utxo txin.prevout) vin outs := by
      refine forall₂_iff_get.mpr ⟨(forall₂_iff_get.mp rest).1, fun index inVin inOuts => ?_⟩
      rw [spent_unspentOut, if_neg]
      · exact (forall₂_iff_get.mp rest).2 index inVin inOuts
      · rintro ⟨hash, n⟩
        refine distinct.1 (mem_map.mpr ⟨vin.get ⟨index, inVin⟩, get_mem _ _, ?_⟩)
        rw [COutPoint.mk.injEq]
        exact ⟨hash, n⟩
    obtain ⟨txundo, utxo', spends, values⟩ := ih distinct.2 later
    exact ⟨_, utxo', .more here spends, by rw [map_cons, undoOf_txout, values]⟩

theorem sum_le_heldValue (amounts : Amounts utxo) (distinct : (vin.map prevout).Nodup) (found : Reads utxo vin outs)
    (holds : ∀ txin ∈ vin, Holds held utxo txin) : (outs.map nValue).sum ≤ heldValue held utxo := by
  obtain ⟨txundo, utxo', spends, rfl⟩ := exists_spends distinct found
  have left := heldValue_spends spends holds
  have enough : 0 ≤ heldValue held utxo' := heldValue_nonneg (amounts_spends spends amounts)
  rw [map_map]
  rw [left] at enough
  exact Int.sub_nonneg.mp enough

/-- A sum of amounts that does not fit, or inputs whose amounts are refused. -/
def Arithmetic (failure : Failure) : Prop :=
  failure = .overflow ∨ failure = dos 100 "bad-txns-inputvalues-outofrange"

theorem avoids_rejected {passes : Bool} {level code : Nat} {reason : String} {corrupted : Bool}
    (other : reason ≠ "bad-txns-inputvalues-outofrange" := by simp) :
    Avoids Arithmetic (require passes (.rejected level code reason corrupted)) :=
  avoids_require fun _ => by simp [Arithmetic, dos, other]

theorem addInt64_avoids {a b : CAmount} (lower : -2 * MAX_MONEY - 10000 ≤ a + b) (upper : a + b ≤ 4 * MAX_MONEY + 10000) :
    Avoids Arithmetic (addInt64 a b) := by
  refine avoids_bind (avoids_require fun outside => ?_) fun _ _ => avoids_pure _
  unfold MAX_MONEY at lower upper
  rw [decide_eq_false_iff_not] at outside
  exact absurd ⟨by linarith, by linarith⟩ outside

theorem addOutput_avoids {nValueOut : CAmount} (started : moneyRange nValueOut = true) (txout : CTxOut) :
    Avoids Arithmetic (addOutput nValueOut txout) := by
  rw [moneyRange_iff] at started
  refine avoids_bind avoids_rejected fun _ positive => ?_
  refine avoids_bind avoids_rejected fun _ small => ?_
  rw [require_ok, decide_eq_true_eq] at positive small
  unfold MAX_MONEY at started small
  refine avoids_bind (addInt64_avoids ?_ ?_) fun _ _ => ?_
  · unfold MAX_MONEY
    linarith
  · unfold MAX_MONEY
    linarith
  exact avoids_bind avoids_rejected fun _ _ => avoids_pure _

theorem checkTransaction_avoids (env : Env) (tx : CTransaction) : Avoids Arithmetic (checkTransaction env tx) := by
  refine avoids_bind avoids_rejected fun _ _ => ?_
  refine avoids_bind avoids_rejected fun _ _ => ?_
  refine avoids_bind avoids_rejected fun _ _ => ?_
  refine avoids_bind ?_ fun _ _ => avoids_bind ?_ fun _ _ => ?_
  · refine avoids_foldlM (fun _ nValueOut => moneyRange nValueOut = true) _ (fun _ _ _ _ _ _ _ added => ?_)
      (fun _ txout _ _ _ started => addOutput_avoids started txout) (by decide)
    exact (addOutput_ok added).2.1
  · refine avoids_foldlM (fun _ _ => True) _ (fun _ _ _ _ _ _ _ _ => trivial) (fun _ _ _ _ _ _ => ?_) trivial
    exact avoids_bind avoids_rejected fun _ _ => avoids_pure _
  · split_ifs
    · exact avoids_rejected
    · exact avoids_rejected

theorem checkBlock_avoids (env : Env) (block : CBlock) (fCheckPOW fCheckMerkleRoot : Bool) :
    Avoids Arithmetic (checkBlock env block fCheckPOW fCheckMerkleRoot) := by
  refine avoids_bind ?_ fun _ _ => avoids_bind ?_ fun _ _ => ?_
  · refine avoids_bind avoids_rejected fun _ _ => ?_
    exact avoids_rejected
  · refine avoids_bind avoids_rejected fun _ _ => ?_
    exact avoids_rejected
  refine avoids_bind avoids_rejected fun _ _ => ?_
  refine avoids_bind avoids_rejected fun _ _ => ?_
  refine avoids_bind avoids_rejected fun _ _ => ?_
  refine avoids_bind (avoids_forM fun tx _ => checkTransaction_avoids env tx) fun _ _ => ?_
  exact avoids_rejected

theorem getOutputFor_avoids (view : PlainView) (txin : CTxIn) : Avoids Arithmetic (getOutputFor view txin) := by
  unfold getOutputFor
  dsimp only
  split
  · split_ifs
    · exact avoids_ok _
    · exact avoids_error (by simp [Arithmetic, dos])
  · exact avoids_error (by simp [Arithmetic, dos])

theorem getValueOut_avoids {tx : CTransaction} (checked : Checked tx) : Avoids Arithmetic (getValueOut tx) := by
  rw [checked.valueOut]
  exact avoids_ok _

theorem valueOut_range {tx : CTransaction} (checked : Checked tx) {nValueOut : CAmount}
    (out : getValueOut tx = .ok nValueOut) : 0 ≤ nValueOut ∧ nValueOut ≤ MAX_MONEY := by
  rw [checked.valueOut, Except.ok.injEq] at out
  subst out
  refine ⟨sum_nonneg fun value member => ?_, checked.total⟩
  obtain ⟨out, inside, rfl⟩ := mem_map.mp member
  exact (checked.amounts out inside).1

theorem reads_snoc (reads : Reads utxo vin outs)
    (found : (utxo.coins txin.prevout.hash).unspentOut txin.prevout.n = some out) :
    Reads utxo (vin ++ [txin]) (outs ++ [out]) :=
  rel_append reads (.cons found .nil)

theorem reads_nonneg (amounts : Amounts utxo) (reads : Reads utxo vin outs) : 0 ≤ (outs.map nValue).sum := by
  induction reads with
  | nil => exact le_rfl
  | cons found rest ih =>
    rw [map_cons, sum_cons]
    exact add_nonneg (amounts _ _ _ found) ih

theorem distinct_snoc {before after : List CTxIn} (distinct : (vin.map prevout).Nodup)
    (whole : vin = before ++ txin :: after) : ((before ++ [txin]).map prevout).Nodup := by
  rw [whole, ← singleton_append, ← append_assoc, map_append] at distinct
  exact (nodup_append.mp distinct).1

/-- The running total of `GetValueIn` after some inputs. -/
def SummedInputs (utxo : UtxoSet) (done : List CTxIn) (nResult : CAmount) : Prop :=
  ∃ outs, Reads utxo done outs ∧ nResult = (outs.map CTxOut.nValue).sum

variable {view : PlainView} {done : List CTxIn}

theorem summed_addValueIn {nResult nResult' : CAmount} (summed : SummedInputs view.utxo done nResult)
    (run : addValueIn view nResult txin = .ok nResult') : SummedInputs view.utxo (done ++ [txin]) nResult' := by
  obtain ⟨outs, reads, rfl⟩ := summed
  simp only [addValueIn, bind_ok, addInt64_ok] at run
  obtain ⟨prevout, read, -, rfl⟩ := run
  exact ⟨outs ++ [prevout], reads_snoc reads (getOutputFor_ok.mp read), by simp⟩

theorem getValueIn_avoids {tx : CTransaction} (checked : Checked tx) (amounts : Amounts view.utxo)
    (bounded : totalSupply view.utxo ≤ 2 * MAX_MONEY) : Avoids Arithmetic (getValueIn view tx) := by
  unfold getValueIn
  split_ifs
  · exact avoids_ok 0
  refine avoids_foldlM (SummedInputs view.utxo) _ (fun _ _ _ _ _ _ => summed_addValueIn) ?_ ⟨[], .nil, rfl⟩
  · rintro done txin rest _ whole ⟨outs, reads, rfl⟩
    refine avoids_bind (getOutputFor_avoids view txin) fun prevout read => ?_
    have more := reads_snoc reads (getOutputFor_ok.mp read)
    have upper : _ ≤ heldValue (fun _ _ => true) view.utxo :=
      sum_le_heldValue amounts (distinct_snoc checked.distinct whole) more fun _ _ => rfl
    have lower := reads_nonneg amounts more
    rw [heldValue_all] at upper
    simp only [map_append, sum_append, map_cons, map_nil, sum_cons, sum_nil, add_zero]
      at upper lower
    unfold MAX_MONEY at bounded
    refine addInt64_avoids ?_ ?_ <;> unfold MAX_MONEY <;> linarith

def matured (nSpendHeight : Nat) (fCoinBase : Bool) (nHeight : Nat) : Bool :=
  !fCoinBase || COINBASE_MATURITY ≤ (nSpendHeight : Int) - nHeight

/-- After some inputs: all of them mature, and their amounts in the running total. -/
def TalliedInputs (utxo : UtxoSet) (nSpendHeight : Nat) (done : List CTxIn) (nValueIn : CAmount) : Prop :=
  (∀ txin ∈ done, Holds (matured nSpendHeight) utxo txin) ∧
    ∃ outs, Reads utxo done outs ∧ nValueIn = (outs.map CTxOut.nValue).sum

variable {nSpendHeight : Nat} {nValueIn : CAmount}

theorem tallied_checkTxInput {nValueIn' : CAmount} (tallied : TalliedInputs view.utxo nSpendHeight done nValueIn)
    (run : checkTxInput view nSpendHeight nValueIn txin = .ok nValueIn') :
    TalliedInputs view.utxo nSpendHeight (done ++ [txin]) nValueIn' := by
  obtain ⟨mature, outs, reads, rfl⟩ := tallied
  simp only [checkTxInput, bind_ok, require_ok, addInt64_ok, pure_ok] at run
  obtain ⟨⟨⟩, old, prevout, read, _, ⟨-, rfl⟩, ⟨⟩, -, rfl⟩ := run
  refine ⟨fun other member => ?_, outs ++ [prevout], reads_snoc reads (getOutputFor_ok.mp read), by simp⟩
  rcases mem_append.mp member with before | here
  · exact mature other before
  · rw [mem_singleton.mp here]
    exact old

theorem tallied_bounds (amounts : Amounts utxo) (distinct : (done.map prevout).Nodup)
    (tallied : TalliedInputs utxo nSpendHeight done nValueIn) :
    0 ≤ nValueIn ∧ nValueIn ≤ heldValue (matured nSpendHeight) utxo := by
  obtain ⟨mature, outs, reads, rfl⟩ := tallied
  exact ⟨reads_nonneg amounts reads, sum_le_heldValue amounts distinct reads mature⟩

theorem checkTxInput_avoids {rest : List CTxIn} (amounts : Amounts view.utxo)
    (bounded : heldValue (matured nSpendHeight) view.utxo ≤ MAX_MONEY) (distinct : ((done ++ txin :: rest).map prevout).Nodup)
    (tallied : TalliedInputs view.utxo nSpendHeight done nValueIn) :
    Avoids Arithmetic (checkTxInput view nSpendHeight nValueIn txin) := by
  obtain ⟨mature, outs, reads, rfl⟩ := tallied
  refine avoids_bind avoids_rejected fun _ old => ?_
  refine avoids_bind (getOutputFor_avoids view txin) fun prevout read => ?_
  rw [require_ok] at old
  have found := getOutputFor_ok.mp read
  have more : TalliedInputs view.utxo nSpendHeight (done ++ [txin]) ((outs.map nValue).sum + prevout.nValue) := by
    refine ⟨fun other member => ?_, outs ++ [prevout], reads_snoc reads found, by simp⟩
    rcases mem_append.mp member with before | here
    · exact mature other before
    · rw [mem_singleton.mp here]
      exact old
  obtain ⟨lower, upper⟩ := tallied_bounds amounts (distinct_snoc distinct rfl) more
  have range : moneyRange prevout.nValue = true := by
    have single : Reads view.utxo [txin] [prevout] := .cons found .nil
    have worth : _ ≤ heldValue (matured nSpendHeight) view.utxo := sum_le_heldValue amounts (by simp) single
      fun other member => by rw [mem_singleton.mp member]; exact old
    simp only [map_cons, map_nil, sum_cons, sum_nil, add_zero] at worth
    exact (moneyRange_iff _).mpr ⟨amounts _ _ _ found, worth.trans bounded⟩
  have total : moneyRange ((outs.map nValue).sum + prevout.nValue) = true :=
    (moneyRange_iff _).mpr ⟨lower, upper.trans bounded⟩
  unfold MAX_MONEY at bounded
  refine avoids_bind (addInt64_avoids ?_ ?_) fun nValueIn sum => ?_
  · unfold MAX_MONEY
    linarith
  · unfold MAX_MONEY
    linarith
  rw [← (addInt64_ok.mp sum).2]
  refine avoids_bind (avoids_require fun refused => ?_) fun _ _ => avoids_pure _
  rw [range, total] at refused
  simp at refused

theorem checkTxInputs_avoids {tx : CTransaction} (checked : Checked tx) (amounts : Amounts view.utxo)
    (bounded : heldValue (matured nSpendHeight) view.utxo ≤ MAX_MONEY) :
    Avoids Arithmetic (checkTxInputs view tx nSpendHeight) := by
  have starts : TalliedInputs view.utxo nSpendHeight [] 0 := ⟨by simp, [], .nil, rfl⟩
  refine avoids_bind avoids_rejected fun _ _ => ?_
  refine avoids_bind (avoids_foldlM (TalliedInputs view.utxo nSpendHeight) _ (fun _ _ _ _ _ _ => tallied_checkTxInput)
    (fun done txin rest _ whole => checkTxInput_avoids amounts bounded (whole ▸ checked.distinct)) starts)
    fun nValueIn loop => ?_
  have tallied := foldlM_invariant (TalliedInputs view.utxo nSpendHeight) _ (fun _ _ _ _ _ _ => tallied_checkTxInput)
    starts loop
  obtain ⟨lower, upper⟩ := tallied_bounds amounts checked.distinct tallied
  refine avoids_bind (getValueOut_avoids checked) fun nValueOut out => ?_
  have range := valueOut_range checked out
  unfold MAX_MONEY at bounded range
  refine avoids_bind avoids_rejected fun _ _ => ?_
  refine avoids_bind (addInt64_avoids ?_ ?_) fun nTxFee _ => ?_
  · unfold MAX_MONEY
    linarith
  · unfold MAX_MONEY
    linarith
  refine avoids_bind avoids_rejected fun _ _ => ?_
  exact avoids_rejected

theorem checkTxInputs_mature {tx : CTransaction} (accepted : checkTxInputs view tx nSpendHeight = .ok ()) :
    ∀ txin ∈ tx.vin, Holds (matured nSpendHeight) view.utxo txin := by
  simp only [checkTxInputs, bind_ok] at accepted
  obtain ⟨⟨⟩, -, nValueIn, loop, -⟩ := accepted
  exact (foldlM_invariant (TalliedInputs view.utxo nSpendHeight) _ (fun _ _ _ _ _ _ => tallied_checkTxInput)
    ⟨by simp, [], .nil, rfl⟩ loop).1

theorem scriptReject_harmless (env : Env) (tx : CTransaction) (flags : Nat) (entry : CTxOut × Nat) {failure : Failure}
    (rejects : scriptReject env tx flags entry = some failure) : ¬Arithmetic failure := by
  have different (first second : String) (apart : first.toList.head? ≠ second.toList.head?) (rest : String)
      (some' : first.toList ≠ []) : first ++ rest ≠ second := by
    rintro rfl
    obtain ⟨letter, letters, list⟩ := exists_cons_of_ne_nil some'
    simp [list] at apart
  obtain ⟨scriptError, -, rfl⟩ := Option.map_eq_some_iff.mp rejects
  split_ifs
  · simp only [Arithmetic, invalid, dos, reduceCtorEq, false_or, Failure.rejected.injEq]
    rintro ⟨nDoS, -⟩
    cases nDoS
  · simp only [Arithmetic, dos, reduceCtorEq, false_or, Failure.rejected.injEq, true_and, and_true]
    rw [String.append_assoc]
    exact different _ _ (by decide) _ (by decide)

variable {env : Env}

theorem checkInputs_avoids {tx : CTransaction} {flags : Nat} (fScriptChecks : Bool) (checked : Checked tx)
    (amounts : Amounts view.utxo) (bounded : heldValue (matured nSpendHeight) view.utxo ≤ MAX_MONEY) :
    Avoids Arithmetic (checkInputs env view tx nSpendHeight fScriptChecks flags) := by
  refine avoids_bind (checkTxInputs_avoids checked amounts bounded) fun _ _ => ?_
  refine avoids_bind (avoids_mapM fun txin _ => getOutputFor_avoids view txin) fun prevouts _ => ?_
  split
  · exact avoids_pure _
  next failure rejects =>
    split_ifs
    · refine avoids_error ?_
      split_ifs at rejects
      obtain ⟨entry, -, found⟩ := exists_of_findSome?_eq_some rejects
      exact scriptReject_harmless env tx flags entry found
    · exact avoids_ok _

theorem createdValue_le {tx : CTransaction} (checked : Checked tx) :
    createdValue (fun _ => true) tx ≤ (tx.vout.map nValue).sum := by
  apply sum_le_sum
  intro out member
  have positive := (checked.amounts out member).1
  unfold slotValue
  split_ifs
  · exact positive
  · exact le_rfl
  · exact positive

theorem heldValue_created_le (amounts : Amounts utxo) {tx : CTransaction} (checked : Checked tx) (nHeight : Nat) :
    heldValue held (created utxo tx nHeight) ≤
      heldValue held utxo + if held tx.isCoinBase nHeight then (tx.vout.map nValue).sum else 0 := by
  have old : 0 ≤ partValue held (utxo.coins tx.hash) := partValue_nonneg (amounts tx.hash)
  have new : partValue held (fromTx tx nHeight) =
      if held tx.isCoinBase nHeight then createdValue (fun _ => true) tx else 0 := by
    rw [partValue, coinsValue_fromTx]
    rfl
  rw [created, heldValue_modify, new]
  have value := createdValue_le checked
  split_ifs <;> linarith

theorem amounts_created (amounts : Amounts utxo) {tx : CTransaction} (checked : Checked tx) (nHeight : Nat) :
    Amounts (created utxo tx nHeight) := by
  intro txid n out found
  rw [created_unspentOut] at found
  split_ifs at found
  · exact (checked.amounts out (mem_of_getElem? (Option.filter_eq_some_iff.mp found).1)).1
  · exact amounts txid n out found

/-- While the transactions of a block are connected: what may be spent and the fees together stay
within the money before the block, and the new coinbase adds at most `MAX_MONEY`. -/
structure Funded (nHeight : Nat) (start : CAmount) (done : List (CTransaction × Nat)) (st : ConnectState PlainView) :
    Prop where
  amounts : Amounts st.view.utxo
  nFees : 0 ≤ st.nFees
  mature : heldValue (matured nHeight) st.view.utxo + st.nFees ≤ start
  total : totalSupply st.view.utxo ≤ start + if done = [] then 0 else MAX_MONEY

variable {ctx : BlockContext} {st st' : ConnectState PlainView} {tx : CTransaction} {i : Nat}

theorem connectTx_mature (ordinary : tx.isCoinBase = false) (run : connectTx ctx st (tx, i) = .ok st') :
    ∀ txin ∈ tx.vin, Holds (matured ctx.pindex.nHeight) st.view.utxo txin := by
  simp only [connectTx, bind_ok] at run
  obtain ⟨⟨⟩, -, st₁, inputs, -⟩ := run
  simp only [connectInputs, ordinary, Bool.false_eq_true, if_false, bind_ok] at inputs
  obtain ⟨⟨⟩, -, ⟨⟩, -, prevouts, -, ⟨⟩, -, nValueIn, -, nValueOut, -, fee, -, nFees, -, accepts, check, -⟩ := inputs
  simp only [checkInputs, bind_ok] at check
  obtain ⟨⟨⟩, amounts, -⟩ := check
  exact checkTxInputs_mature amounts

theorem connectTx_funded {start : CAmount} {done : List (CTransaction × Nat)} (checked : Checked tx)
    (coinbase : tx.isCoinBase = true → done = []) (funded : Funded ctx.pindex.nHeight start done st)
    (run : connectTx ctx st (tx, i) = .ok st') : Funded ctx.pindex.nHeight start (done ++ [(tx, i)]) st' := by
  obtain ⟨txundo, middle, spends, affordable, view, nFees, -⟩ := connectTx_ok checked run
  have amounts := amounts_spends spends funded.amounts
  have positive := affordable.fee
  have total := funded.total
  have mature := funded.mature
  have matureAfter := @heldValue_created_le (matured ctx.pindex.nHeight) _ amounts _ checked ctx.pindex.nHeight
  have totalAfter := @heldValue_created_le (fun _ _ => true) _ amounts _ checked ctx.pindex.nHeight
  rw [heldValue_all, heldValue_all, if_pos rfl] at totalAfter
  have limit := checked.total
  cases isCoinBase : tx.isCoinBase with
  | true =>
    have young : matured ctx.pindex.nHeight true ctx.pindex.nHeight = false := by
      simp [matured, COINBASE_MATURITY]
    rw [coinbase isCoinBase, if_pos rfl] at total
    rw [isCoinBase, young, if_neg Bool.false_ne_true, add_zero] at matureAfter
    rw [spentInputs, isCoinBase, if_pos rfl] at spends
    rw [feeOf, isCoinBase, if_pos rfl, add_zero] at nFees
    cases spends
    refine ⟨?_, nFees ▸ funded.nFees, ?_, ?_⟩
    · rw [view]
      exact amounts_created amounts checked _
    · rw [view, nFees]
      exact (add_le_add_left matureAfter _).trans mature
    · rw [view, if_neg (by simp)]
      linarith
  | false =>
    have holds := connectTx_mature isCoinBase run
    rw [spentInputs, isCoinBase, if_neg Bool.false_ne_true] at spends
    have matureSpent := heldValue_spends spends holds
    have totalSpent : totalSupply middle = totalSupply st.view.utxo - _ :=
      @heldValue_spends (fun _ _ => true) _ _ _ _ spends fun _ _ => rfl
    have open' : matured ctx.pindex.nHeight false ctx.pindex.nHeight = true := rfl
    rw [isCoinBase, open', if_pos rfl] at matureAfter
    rw [feeOf, isCoinBase, if_neg Bool.false_ne_true] at nFees positive
    have room : (if done = [] then 0 else MAX_MONEY) ≤ MAX_MONEY := by split_ifs <;> decide
    refine ⟨?_, ?_, ?_, ?_⟩
    · rw [view]
      exact amounts_created amounts checked _
    · rw [nFees]
      exact add_nonneg funded.nFees positive
    · rw [view, nFees]
      linarith
    · rw [view, if_neg (by simp)]
      linarith

theorem updateCoins_avoids (view : PlainView) (tx : CTransaction) (nHeight : Nat) :
    Avoids Arithmetic (updateCoins view tx nHeight) := by
  unfold updateCoins
  split_ifs
  · exact avoids_pure _
  refine avoids_bind ?_ fun _ _ => avoids_pure _
  refine avoids_foldlM (fun _ _ => True) _ (fun _ _ _ _ _ _ _ _ => trivial) (fun _ txin _ acc _ _ => ?_) trivial
  refine avoids_bind ?_ fun _ _ => avoids_pure _
  unfold spendInput
  dsimp only
  split
  · exact avoids_error (by simp [Arithmetic, dos])
  next txout _ =>
    by_cases null : txout.isNull = true
    · rw [if_pos null]
      exact avoids_error (by simp [Arithmetic, dos])
    · rw [if_neg null]
      exact avoids_ok _

theorem valueIn_bounds (checked : Checked tx) (amounts : Amounts view.utxo) (run : getValueIn view tx = .ok nValueIn) :
    0 ≤ nValueIn ∧ nValueIn ≤ totalSupply view.utxo := by
  have all : 0 ≤ totalSupply view.utxo := @heldValue_nonneg (fun _ _ => true) _ amounts
  unfold getValueIn at run
  split_ifs at run
  · rw [Except.ok.injEq] at run
    subst run
    exact ⟨le_rfl, all⟩
  · obtain ⟨outs, reads, rfl⟩ := foldlM_invariant (SummedInputs view.utxo) _ (fun _ _ _ _ _ _ => summed_addValueIn)
      ⟨[], .nil, rfl⟩ run
    have upper : _ ≤ heldValue (fun _ _ => true) view.utxo :=
      sum_le_heldValue amounts checked.distinct reads fun _ _ => rfl
    exact ⟨reads_nonneg amounts reads, upper⟩

theorem connectTx_avoids {start : CAmount} {done : List (CTransaction × Nat)} (bounded : start ≤ MAX_MONEY)
    (checked : Checked tx) (funded : Funded ctx.pindex.nHeight start done st) :
    Avoids Arithmetic (connectTx ctx st (tx, i)) := by
  have total : totalSupply st.view.utxo ≤ 2 * MAX_MONEY := by
    have room : (if done = [] then 0 else MAX_MONEY) ≤ MAX_MONEY := by split_ifs <;> decide
    have whole := funded.total
    linarith
  have mature : heldValue (matured ctx.pindex.nHeight) st.view.utxo ≤ MAX_MONEY := by
    have both := funded.mature
    have fees := funded.nFees
    linarith
  have fees : st.nFees ≤ MAX_MONEY := by
    have both := funded.mature
    have rest : 0 ≤ heldValue (matured ctx.pindex.nHeight) st.view.utxo := heldValue_nonneg funded.amounts
    linarith
  have positive := funded.nFees
  refine avoids_bind avoids_rejected fun _ _ => avoids_bind ?_ fun st₁ _ => ?_
  · unfold connectInputs
    by_cases isCoinBase : tx.isCoinBase = true
    · rw [if_pos isCoinBase]
      exact avoids_ok _
    rw [if_neg isCoinBase]
    refine avoids_bind avoids_rejected fun _ _ => ?_
    refine avoids_bind avoids_rejected fun _ _ => ?_
    refine avoids_bind (avoids_mapM fun txin _ => getOutputFor_avoids st.view txin) fun prevouts _ => ?_
    refine avoids_bind avoids_rejected fun _ _ => ?_
    refine avoids_bind (getValueIn_avoids checked funded.amounts total) fun nValueIn valueIn => ?_
    refine avoids_bind (getValueOut_avoids checked) fun nValueOut valueOut => ?_
    have inRange := valueIn_bounds checked funded.amounts valueIn
    have outRange := valueOut_range checked valueOut
    unfold MAX_MONEY at total fees outRange
    refine avoids_bind (addInt64_avoids ?_ ?_) fun fee difference => ?_
    · unfold MAX_MONEY
      linarith
    · unfold MAX_MONEY
      linarith
    rw [← (addInt64_ok.mp difference).2]
    refine avoids_bind (addInt64_avoids ?_ ?_) fun nFees _ => ?_
    · unfold MAX_MONEY
      linarith
    · unfold MAX_MONEY
      linarith
    exact avoids_bind (checkInputs_avoids _ checked funded.amounts mature) fun _ _ => avoids_pure _
  · exact avoids_bind (updateCoins_avoids _ tx _) fun _ _ => avoids_pure _

theorem heldValue_le (amounts : Amounts utxo) : heldValue held utxo ≤ totalSupply utxo := by
  refine total_mono _ _ fun txid => ?_
  unfold partValue
  split_ifs
  · exact le_rfl
  · exact coinsValue_nonneg (amounts txid)

theorem position_of_zipIdx {vtx : List CTransaction} {done rest : List (CTransaction × Nat)}
    (whole : vtx.zipIdx = done ++ (tx, i) :: rest) : (tx, i) ∈ vtx.zipIdx ∧ i = done.length := by
  refine ⟨by simp [whole], ?_⟩
  have here : vtx.zipIdx[done.length]? = some (tx, i) := by simp [whole]
  rw [getElem?_zipIdx, Option.map_eq_some_iff] at here
  obtain ⟨other, -, same⟩ := here
  rw [Prod.mk.injEq] at same
  omega

theorem funded_turn {start : CAmount} {block : CBlock} (shape : CheckedBlock block)
    {done rest : List (CTransaction × Nat)} {entry : CTransaction × Nat} (whole : block.vtx.zipIdx = done ++ entry :: rest)
    (funded : Funded ctx.pindex.nHeight start done st) (run : connectTx ctx st entry = .ok st') :
    Funded ctx.pindex.nHeight start (done ++ [entry]) st' := by
  obtain ⟨tx, i⟩ := entry
  obtain ⟨member, position⟩ := position_of_zipIdx whole
  refine connectTx_funded (shape.transactions tx (fst_mem_of_mem_zipIdx member)) (fun isCoinBase => ?_) funded run
  have zero := (coinbase_first shape (tx, i) member).mp isCoinBase
  exact eq_nil_of_length_eq_zero (position ▸ zero)

/-- With no more than `MAX_MONEY` in the coins no block, accepted or not, makes a sum overflow or
has inputs refused for their amounts. -/
theorem connectBlock_avoids (amounts : Amounts view.utxo) (bounded : totalSupply view.utxo ≤ MAX_MONEY) (block : CBlock)
    (pindex : CBlockIndex) (fJustCheck : Bool) : Avoids Arithmetic (connectBlock env block pindex view fJustCheck) := by
  refine avoids_bind (checkBlock_avoids env block _ _) fun _ check => ?_
  have shape := checkBlock_ok check
  refine avoids_bind (avoids_require fun _ => by simp [Arithmetic, dos]) fun _ _ => ?_
  by_cases genesis : block.hash = env.hashGenesisBlock
  · rw [if_pos genesis]
    exact avoids_pure _
  rw [if_neg genesis]
  refine avoids_bind avoids_rejected fun _ _ => ?_
  have turn (done : List (CTransaction × Nat)) (entry : CTransaction × Nat) (rest : List (CTransaction × Nat))
      (st st' : ConnectState PlainView) (whole : block.vtx.zipIdx = done ++ entry :: rest) :=
    @funded_turn (blockContext env block pindex) st st' (totalSupply view.utxo) block shape done rest entry whole
  have starts : Funded pindex.nHeight (totalSupply view.utxo) [] ({ view } : ConnectState PlainView) :=
    ⟨amounts, le_rfl, by simpa using heldValue_le amounts, by simp⟩
  refine avoids_bind (avoids_foldlM (Funded pindex.nHeight (totalSupply view.utxo)) _
    turn (fun done entry _ st whole funded => ?_) starts) fun st loop => ?_
  · have member := (position_of_zipIdx whole).1
    exact connectTx_avoids bounded (shape.transactions entry.1 (fst_mem_of_mem_zipIdx member)) funded
  have funded := foldlM_invariant (Funded pindex.nHeight (totalSupply view.utxo)) _ turn starts loop
  have fees : 0 ≤ st.nFees ∧ st.nFees ≤ MAX_MONEY := by
    have rest : 0 ≤ heldValue (matured pindex.nHeight) st.view.utxo := heldValue_nonneg funded.amounts
    have both := funded.mature
    exact ⟨funded.nFees, by linarith⟩
  have subsidy := subsidy_le env pindex.nHeight
  have paid := subsidy_nonneg env pindex.nHeight
  unfold MAX_MONEY at fees
  refine avoids_bind (avoids_bind (addInt64_avoids ?_ ?_) fun blockReward _ => ?_) fun _ _ => ?_
  · unfold MAX_MONEY
    linarith
  · unfold MAX_MONEY
    linarith
  · cases list : block.vtx with
    | nil => exact avoids_error (by simp [Arithmetic, dos])
    | cons coinbase rest =>
      have checked := shape.transactions coinbase (by simp [list])
      refine avoids_bind (getValueOut_avoids checked) fun nValueOut _ => ?_
      exact avoids_rejected
  · refine avoids_bind avoids_rejected fun _ _ => avoids_pure _

theorem connects_amounts {allowed : UtxoSet → CTransaction → Prop} {nHeight : Nat} {vtx : List CTransaction}
    {vtxundo : List CTxUndo} (connects : Connects allowed nHeight utxo vtx vtxundo utxo') (checked : ∀ tx ∈ vtx, Checked tx)
    (amounts : Amounts utxo) : Amounts utxo' := by
  induction connects with
  | done => exact amounts
  | more spends allows rest ih =>
    refine ih (forall_mem_cons.mp checked).2 ?_
    exact amounts_created (amounts_spends spends amounts) (checked _ mem_cons_self) nHeight

theorem totalSupply_tx {middle : UtxoSet} {txundo : CTxUndo} (amounts : Amounts utxo) (checked : Checked tx)
    (spends : Spends utxo (spentInputs tx) txundo middle) (nHeight : Nat) : totalSupply (created middle tx nHeight) ≤
      totalSupply utxo - (txundo.map fun undo => undo.txout.nValue).sum + (tx.vout.map nValue).sum := by
  have spent := @heldValue_spends (fun _ _ => true) _ _ _ _ spends fun _ _ => rfl
  have after := @heldValue_created_le (fun _ _ => true) _ (amounts_spends spends amounts) _ checked nHeight
  rw [heldValue_all, heldValue_all] at spent
  rw [heldValue_all, heldValue_all, if_pos rfl, spent] at after
  exact after

theorem totalSupply_connects {allowed : UtxoSet → CTransaction → Prop} {nHeight : Nat} {vtx : List CTransaction}
    {vtxundo : List CTxUndo} (connects : Connects allowed nHeight utxo vtx vtxundo utxo') (checked : ∀ tx ∈ vtx, Checked tx)
    (ordinary : ∀ tx ∈ vtx, tx.isCoinBase = false) (amounts : Amounts utxo) :
    totalSupply utxo' ≤ totalSupply utxo - (zipWith feeOf vtx vtxundo).sum := by
  induction connects with
  | done => simp
  | @more utxo middle utxo' tx vtx txundo vtxundo spends allows rest ih =>
    have here := totalSupply_tx amounts (checked tx mem_cons_self) spends nHeight
    have later := ih (forall_mem_cons.mp checked).2
      (forall_mem_cons.mp ordinary).2
      (amounts_created (amounts_spends spends amounts) (checked tx mem_cons_self) nHeight)
    rw [zipWith_cons_cons, sum_cons, feeOf, ordinary tx mem_cons_self, if_neg Bool.false_ne_true]
    linarith

theorem totalSupply_accepted {block : CBlock} {pindex : CBlockIndex} {st : ConnectState PlainView}
    (accepted : Accepted env block pindex view st) (amounts : Amounts view.utxo) :
    totalSupply st.view.utxo ≤ totalSupply view.utxo + getBlockSubsidy env pindex.nHeight := by
  obtain ⟨coinbase, rest, list, isCoinBase, ordinary⟩ := accepted.shape.coinbase
  have connects := accepted.connects
  have reward := accepted.reward coinbase (by simp [list])
  have fees := accepted.nFees
  have checked := accepted.shape.transactions
  rw [list] at connects fees checked
  rw [zipWith_cons_cons, sum_cons, feeOf, isCoinBase, if_pos rfl, zero_add] at fees
  cases connects with
  | more spends allows others =>
    have first := totalSupply_tx amounts (checked coinbase mem_cons_self) spends pindex.nHeight
    have later := totalSupply_connects others (forall_mem_cons.mp checked).2 ordinary
      (amounts_created (amounts_spends spends amounts) (checked coinbase mem_cons_self) pindex.nHeight)
    rw [map_nil, sum_nil, sub_zero] at first
    linarith

/-- The chain is `n` blocks long and its money is within the subsidies of those blocks. -/
structure WithinSubsidies (env : Env) (s : ChainState) : Prop where
  amounts : Amounts s.view.utxo
  supply : totalSupply s.view.utxo ≤ issued env s.chain.length

theorem withinSubsidies_connect {store : BlockStore} {s s' : ChainState} {hash : Uint256} (within : WithinSubsidies env s)
    (step : ChainStep env store s (.connect hash) s') : WithinSubsidies env s' := by
  cases step with
  | connect extends' found ordinary connected =>
    have accepted := step_accepted found ordinary connected
    refine ⟨connects_amounts accepted.connects accepted.shape.transactions within.amounts, ?_⟩
    have added := totalSupply_accepted accepted within.amounts
    rw [nHeight_of_linked extends'] at added
    have before := within.supply
    change totalSupply _ ≤ issued env (s.chain.length + 1)
    rw [issued]
    exact added.trans (add_le_add_left before _)

theorem run_connects {store : BlockStore} {s s' : ChainState} {hashes : List Uint256}
    (run : Steps (ChainStep env store) s (hashes.map .connect) s') (within : WithinSubsidies env s) :
    WithinSubsidies env s' ∧ s'.chain.length = s.chain.length + hashes.length := by
  induction hashes generalizing s with
  | nil =>
    cases run
    exact ⟨within, rfl⟩
  | cons hash hashes ih =>
    cases run with
    | more first rest =>
      obtain ⟨last, length⟩ := ih rest (withinSubsidies_connect within first)
      refine ⟨last, ?_⟩
      cases first
      rw [length, length_cons]
      change s.chain.length + 1 + _ = _
      omega

/-- The coins after `n` blocks are worth at most the subsidies of heights 1 to `n`, these stay
within `MAX_MONEY`, and no block or transaction offered next makes a sum of amounts overflow or has
inputs that are there refused for their amounts. -/
theorem no_inflation {env : Env} {store : BlockStore} (mainNetwork : env.nSubsidyHalvingInterval = 210000000)
    {hashes : List Uint256} {s : ChainState} (run : Steps (ChainStep env store) (genesisState env) (hashes.map .connect) s) :
    totalSupply s.view.utxo ≤ issued env hashes.length ∧ (∀ n, issued env n ≤ MAX_MONEY) ∧
      (∀ block pindex fJustCheck, Avoids Arithmetic (connectBlock env block pindex s.view fJustCheck)) ∧
      ∀ tx nSpendHeight, checkTransaction env tx = .ok () → Avoids Arithmetic (checkTxInputs s.view tx nSpendHeight) := by
  have genesis : WithinSubsidies env (genesisState env) := by
    refine ⟨fun txid n out found => ?_, (totalValue_empty _).le⟩
    change (({} : CCoins).unspentOut n) = some out at found
    simp [unspentOut] at found
  obtain ⟨within, length⟩ := run_connects run genesis
  have height : s.chain.length = hashes.length := by
    rw [length]
    exact Nat.zero_add _
  have supply := within.supply
  rw [height] at supply
  have small := supply.trans (issued_le_maxMoney mainNetwork hashes.length)
  refine ⟨supply, issued_le_maxMoney mainNetwork, connectBlock_avoids within.amounts small, fun tx nSpendHeight accepted => ?_⟩
  exact checkTxInputs_avoids (checkTransaction_ok accepted) within.amounts ((heldValue_le within.amounts).trans small)

/-- The sample chain: 10 of the 310000 that its blocks could have issued. -/
theorem no_inflation_sample : ∃ s : ChainState, s.chain.length = 31 ∧
    totalSupply s.view.utxo ≤ issued permissiveEnv 31 ∧ issued permissiveEnv 31 = 310000 := by
  have ran : (runGuarded permissiveEnv sampleStore (fun _ _ => True) (sampleConnects 31)).map
      (fun s => s.chain.length) = some 31 := by decide +kernel
  obtain ⟨s, run, shown⟩ := Option.map_eq_some_iff.mp ran
  have connects : sampleConnects 31 = ((range 31).map fun k => BitVec.ofNat 256 (k + 1)).map .connect := by
    rw [sampleConnects, map_map]
    rfl
  have steps := steps_of_guarded (guardedStep_run run)
  rw [connects] at steps
  exact ⟨s, shown, (no_inflation rfl steps).1, by decide⟩

end Longcoin.MoneySupply

import Longcoin.ConnectBlock

/-! What an accepted block does to the plain map: each input takes one output out, each
transaction puts its own outputs in, and the undo data and the index entries follow. -/

namespace Longcoin.BlockEffect
open Primitives Coins UtxoSet Validation BlockTreeDB ConnectBlock CoinsView Library.Outcome CCoins List

@[simp] theorem plain_accessCoins (view : PlainView) (txid : Uint256) : accessCoins view txid = view.utxo.coins txid := rfl

@[simp] theorem plain_modifyCoins (view : PlainView) (txid : Uint256) (edit : CCoins → CCoins) :
    modifyCoins view txid edit = { view with utxo := view.utxo.modify txid edit } := rfl

@[simp] theorem plain_modifyNewCoins (view : PlainView) (txid : Uint256) (edit : CCoins → CCoins) :
    modifyNewCoins view txid edit = { view with utxo := view.utxo.modify txid fun _ => edit {} } := rfl

/-- The undo record that `UpdateCoins` writes for an output. -/
def undoOf (coins : CCoins) (n : Nat) (txout : CTxOut) : CTxInUndo :=
  let spent := (coins.spend n).2
  if spent.vout.length = 0 then
    { txout, nHeight := spent.nHeight, fCoinBase := spent.fCoinBase, nVersion := spent.nVersion }
  else { txout }

theorem getOutputFor_ok {σ : Type} [CoinsView σ] {view : σ} {input : CTxIn} {out : CTxOut} :
    getOutputFor view input = .ok out ↔ (accessCoins view input.prevout.hash).unspentOut input.prevout.n = some out := by
  rw [unspentOut_eq_some]
  unfold getOutputFor
  dsimp only
  split
  next txout found =>
    have available : (accessCoins view input.prevout.hash).isAvailable input.prevout.n = !txout.isNull := by
      simp [isAvailable, found]
    rw [available, found]
    constructor
    · intro read
      split_ifs at read with live
      cases read
      exact ⟨rfl, by simpa using live⟩
    · rintro ⟨⟨⟩, live⟩
      simp [live]
  next missing => simp [missing]

@[simp] theorem undoOf_txout (coins : CCoins) (n : Nat) (txout : CTxOut) : (undoOf coins n txout).txout = txout := by
  simp only [undoOf]
  split_ifs <;> rfl

def spent (utxo : UtxoSet) (prevout : COutPoint) : UtxoSet :=
  utxo.modify prevout.hash fun coins => (coins.spend prevout.n).2

/-- Inputs spent one after another, with the undo records written on the way. -/
inductive Spends : UtxoSet → List CTxIn → CTxUndo → UtxoSet → Prop where
  | done (utxo : UtxoSet) : Spends utxo [] [] utxo
  | more {utxo utxo' : UtxoSet} {txin : CTxIn} {vin : List CTxIn} {txundo : CTxUndo} {txout : CTxOut}
      (found : (utxo.coins txin.prevout.hash).unspentOut txin.prevout.n = some txout)
      (rest : Spends (spent utxo txin.prevout) vin txundo utxo') :
      Spends utxo (txin :: vin) (undoOf (utxo.coins txin.prevout.hash) txin.prevout.n txout :: txundo) utxo'

variable {view : PlainView}

theorem spendInput_ok {txin : CTxIn} {undo : CTxInUndo} {view' : PlainView} (run : spendInput view txin = .ok (undo, view')) :
    ∃ txout, (view.utxo.coins txin.prevout.hash).unspentOut txin.prevout.n = some txout ∧
      undo = undoOf (view.utxo.coins txin.prevout.hash) txin.prevout.n txout ∧
      view' = { view with utxo := spent view.utxo txin.prevout } := by
  unfold spendInput at run
  simp only [plain_accessCoins, plain_modifyCoins] at run
  cases found : (view.utxo.coins txin.prevout.hash).vout[txin.prevout.n]? with
  | none => simp [found] at run
  | some txout =>
    by_cases null : txout.isNull = true
    · simp [found, null] at run
    · simp only [found, null, Bool.false_eq_true, if_false, Except.ok.injEq, Prod.mk.injEq] at run
      rw [Bool.not_eq_true] at null
      exact ⟨txout, unspentOut_eq_some.mpr ⟨found, null⟩, run.1.symm, run.2.symm⟩

variable {vin : List CTxIn} {txundo : CTxUndo}

theorem spendInputs_ok {view' : PlainView} (run : spendInputs view vin = .ok (txundo, view')) :
    Spends view.utxo vin txundo view'.utxo ∧ view'.hashBlock = view.hashBlock := by
  have main (vin : List CTxIn) (before : CTxUndo) (view : PlainView) (run : vin.foldlM (fun acc txin => do
      let (undo, view) ← spendInput acc.2 txin
      return (acc.1 ++ [undo], view)) (before, view) = .ok (txundo, view')) :
      ∃ after, txundo = before ++ after ∧ Spends view.utxo vin after view'.utxo ∧
        view'.hashBlock = view.hashBlock := by
    induction vin generalizing before view with
    | nil =>
      simp only [foldlM_nil, pure_ok, Prod.mk.injEq] at run
      obtain ⟨rfl, rfl⟩ := run
      exact ⟨[], by simp, .done _, rfl⟩
    | cons txin vin ih =>
      obtain ⟨middle, first, rest⟩ := foldlM_cons_ok.mp run
      obtain ⟨⟨undo, view₁⟩, spending, same⟩ := bind_ok.mp first
      simp only [pure_ok] at same
      subst same
      obtain ⟨txout, found, rfl, rfl⟩ := spendInput_ok spending
      obtain ⟨after, rfl, spends, best⟩ := ih _ _ rest
      exact ⟨_, by simp, .more found spends, best⟩
  obtain ⟨after, same, spends, best⟩ := main vin [] view run
  rw [nil_append] at same
  exact ⟨same ▸ spends, best⟩

theorem spent_coins_self (utxo : UtxoSet) (prevout : COutPoint) :
    (spent utxo prevout).coins prevout.hash = canonical ((utxo.coins prevout.hash).spend prevout.n).2 :=
  UtxoSet.modify_self ..

theorem spent_unspentOut (utxo : UtxoSet) (prevout : COutPoint) (txid : Uint256) (n : Nat) :
    ((spent utxo prevout).coins txid).unspentOut n =
      if txid = prevout.hash ∧ n = prevout.n then none else (utxo.coins txid).unspentOut n := by
  by_cases same : txid = prevout.hash
  · subst same
    rw [spent_coins_self, unspentOut_canonical, unspentOut_spend]
    simp
  · rw [spent, UtxoSet.modify_of_ne _ _ same]
    simp [same]

theorem spends_length {utxo utxo' : UtxoSet} (spends : Spends utxo vin txundo utxo') : txundo.length = vin.length := by
  induction spends with
  | done => rfl
  | more found rest ih => simp [ih]

def spentInputs (tx : CTransaction) : List CTxIn := if tx.isCoinBase then [] else tx.vin

def created (utxo : UtxoSet) (tx : CTransaction) (nHeight : Nat) : UtxoSet :=
  utxo.modify tx.hash fun _ => CCoins.fromTx tx nHeight

/-- The transactions of a block one after another; `allowed` is asked of each once its inputs are spent. -/
inductive Connects (allowed : UtxoSet → CTransaction → Prop) (nHeight : Nat) :
    UtxoSet → List CTransaction → List CTxUndo → UtxoSet → Prop where
  | done (utxo : UtxoSet) : Connects allowed nHeight utxo [] [] utxo
  | more {utxo middle utxo' : UtxoSet} {tx : CTransaction} {vtx : List CTransaction} {txundo : CTxUndo}
      {vtxundo : List CTxUndo} (spends : Spends utxo (spentInputs tx) txundo middle) (allows : allowed middle tx)
      (rest : Connects allowed nHeight (created middle tx nHeight) vtx vtxundo utxo') :
      Connects allowed nHeight utxo (tx :: vtx) (txundo :: vtxundo) utxo'

/-- Nothing is left of an earlier transaction with this id. -/
def Fresh (utxo : UtxoSet) (tx : CTransaction) : Prop := (utxo.coins tx.hash).isPruned = true

/-- The undo records have the outputs that the inputs spend. -/
def Found (utxo : UtxoSet) (vin : List CTxIn) (txundo : CTxUndo) : Prop :=
  Forall₂ (fun txin undo => (utxo.coins txin.prevout.hash).unspentOut txin.prevout.n = some undo.txout) vin txundo

theorem spends_found {utxo utxo' : UtxoSet} (spends : Spends utxo vin txundo utxo') : Found utxo vin txundo := by
  induction spends with
  | done => exact .nil
  | more found rest ih =>
    refine .cons (by rw [undoOf_txout]; exact found) (ih.imp fun txin undo later => ?_)
    rw [spent_unspentOut] at later
    split_ifs at later
    exact later

private theorem outputs_unique {utxo : UtxoSet} (hashBlock : Uint256) {vin : List CTxIn} {txundo : CTxUndo}
    {prevouts : List CTxOut} (found : Found utxo vin txundo)
    (read : Forall₂ (fun txin out => getOutputFor ({ utxo, hashBlock } : PlainView) txin = .ok out) vin prevouts) :
    prevouts = txundo.map CTxInUndo.txout := by
  induction found generalizing prevouts with
  | nil => cases read; rfl
  | cons here rest ih =>
    cases read with
    | cons first others =>
      have same : _ = some _ := getOutputFor_ok.mp first
      rw [plain_accessCoins, here, Option.some.injEq] at same
      rw [map_cons, ih others, same]

section

variable {allowed : UtxoSet → CTransaction → Prop} {nHeight : Nat} {utxo utxo' : UtxoSet} {vtx : List CTransaction}
  {vtxundo : List CTxUndo} (connects : Connects allowed nHeight utxo vtx vtxundo utxo')
include connects

theorem connects_length : vtxundo.length = vtx.length := by
  induction connects with
  | done => rfl
  | more spends allows rest ih => simp [ih]

theorem connects_spends : ∀ entry ∈ vtx.zip vtxundo, ∃ before after, Spends before (spentInputs entry.1) entry.2 after := by
  induction connects with
  | done => simp
  | more spends allows rest ih =>
    rintro entry member
    rcases mem_cons.mp (zip_cons_cons ▸ member) with rfl | later
    · exact ⟨_, _, spends⟩
    · exact ih entry later

end

/-- The fee a transaction adds to `nFees`; a coinbase adds nothing. -/
def feeOf (tx : CTransaction) (txundo : CTxUndo) : CAmount :=
  if tx.isCoinBase then 0
  else (txundo.map fun undo => undo.txout.nValue).sum - (tx.vout.map CTxOut.nValue).sum

/-- What connecting transactions adds to the index batches. -/
def connectedAddress (nHeight : Nat) (entries : List ((CTransaction × CTxUndo) × Nat)) : AddressIndex :=
  entries.flatMap fun entry => spendingEntries nHeight entry.2 entry.1.1 (entry.1.2.map CTxInUndo.txout) ++
    receivingEntries nHeight entry.2 entry.1.1

def connectedUnspent (nHeight : Nat) (entries : List ((CTransaction × CTxUndo) × Nat)) : AddressUnspentIndex :=
  entries.flatMap fun entry => spentUnspentEntries entry.1.1 (entry.1.2.map CTxInUndo.txout) ++
    unspentEntries nHeight entry.1.1

def connectedSpent (nHeight : Nat) (entries : List ((CTransaction × CTxUndo) × Nat)) : SpentIndex :=
  entries.flatMap fun entry => spentEntries nHeight entry.1.1 (entry.1.2.map CTxInUndo.txout)

/-- What `CheckTxInputs` found about the amounts a transaction spends. -/
structure Affordable (tx : CTransaction) (txundo : CTxUndo) : Prop where
  amounts : ∀ undo ∈ txundo, 0 ≤ undo.txout.nValue ∧ undo.txout.nValue ≤ MAX_MONEY
  total : (txundo.map fun undo => undo.txout.nValue).sum ≤ MAX_MONEY
  fee : 0 ≤ feeOf tx txundo

variable {tx : CTransaction}

theorem checkTxInputs_ok {nSpendHeight : Nat} (checked : Checked tx) (ordinary : tx.isCoinBase = false)
    (found : Found view.utxo tx.vin txundo)
    (accepted : checkTxInputs view tx nSpendHeight = .ok ()) : Affordable tx txundo := by
  simp only [checkTxInputs, bind_ok, require_ok] at accepted
  obtain ⟨⟨⟩, -, nValueIn, loop, nValueOut, out, ⟨⟩, enough, -⟩ := accepted
  have main (vin : List CTxIn) (txundo : CTxUndo) (start : CAmount) (started : moneyRange start = true)
      (found : Found view.utxo vin txundo)
      (loop : vin.foldlM (checkTxInput view nSpendHeight) start = .ok nValueIn) :
      (∀ undo ∈ txundo, 0 ≤ undo.txout.nValue ∧ undo.txout.nValue ≤ MAX_MONEY) ∧ moneyRange nValueIn = true ∧
        nValueIn = start + (txundo.map fun undo => undo.txout.nValue).sum := by
    induction found generalizing start with
    | nil =>
      simp only [foldlM_nil, pure_ok] at loop
      subst loop
      simpa using started
    | cons here rest ih =>
      obtain ⟨middle, first, others⟩ := foldlM_cons_ok.mp loop
      simp only [checkTxInput, bind_ok, require_ok, addInt64_ok, Bool.and_eq_true, pure_ok] at first
      obtain ⟨⟨⟩, -, prevout, read, _, ⟨-, rfl⟩, ⟨⟩, ⟨range, total⟩, rfl⟩ := first
      have same : _ = some prevout := getOutputFor_ok.mp read
      rw [plain_accessCoins, here, Option.some.injEq] at same
      subst same
      obtain ⟨amounts, last, sum⟩ := ih _ total others
      refine ⟨?_, last, by rw [sum, map_cons, sum_cons, add_assoc]⟩
      simpa using ⟨(moneyRange_iff _).mp range, amounts⟩
  obtain ⟨amounts, last, sum⟩ := main tx.vin txundo 0 (by decide) found loop
  rw [checked.valueOut, Except.ok.injEq] at out
  rw [zero_add] at sum
  refine ⟨amounts, sum ▸ ((moneyRange_iff _).mp last).2, ?_⟩
  rw [decide_eq_true_eq] at enough
  rw [feeOf, ordinary, if_neg Bool.false_ne_true, ← sum, out]
  exact Int.sub_nonneg_of_le enough

theorem getValueIn_ok {nValueIn : CAmount} (ordinary : tx.isCoinBase = false)
    (found : Found view.utxo tx.vin txundo)
    (run : getValueIn view tx = .ok nValueIn) : nValueIn = (txundo.map fun undo => undo.txout.nValue).sum := by
  have main (vin : List CTxIn) (txundo : CTxUndo) (start : CAmount)
      (found : Found view.utxo vin txundo)
      (run : vin.foldlM (addValueIn view) start = .ok nValueIn) :
      nValueIn = start + (txundo.map fun undo => undo.txout.nValue).sum := by
    induction found generalizing start with
    | nil =>
      simp only [foldlM_nil, pure_ok] at run
      simp [run]
    | cons here rest ih =>
      obtain ⟨middle, first, others⟩ := foldlM_cons_ok.mp run
      simp only [addValueIn, bind_ok, addInt64_ok] at first
      obtain ⟨prevout, read, -, rfl⟩ := first
      have same : _ = some prevout := getOutputFor_ok.mp read
      rw [plain_accessCoins, here, Option.some.injEq] at same
      subst same
      rw [ih _ others, map_cons, sum_cons, add_assoc]
  rw [getValueIn, ordinary, if_neg Bool.false_ne_true] at run
  rw [main tx.vin txundo 0 found run, zero_add]

variable {st : ConnectState PlainView}

theorem connectTx_ok {ctx : BlockContext} {st' : ConnectState PlainView} {i : Nat} (checked : Checked tx)
    (run : connectTx ctx st (tx, i) = .ok st') :
    ∃ txundo middle, Spends st.view.utxo (spentInputs tx) txundo middle ∧ Affordable tx txundo ∧
      st'.view = { st.view with utxo := created middle tx ctx.pindex.nHeight } ∧
      st'.nFees = st.nFees + feeOf tx txundo ∧
      st'.vtxundo = (if 0 < i then st.vtxundo ++ [txundo] else st.vtxundo) ∧
      st'.addressIndex = st.addressIndex ++
        (if ctx.env.fAddressIndex then connectedAddress ctx.pindex.nHeight [((tx, txundo), i)] else []) ∧
      st'.addressUnspentIndex = st.addressUnspentIndex ++
        (if ctx.env.fAddressIndex then connectedUnspent ctx.pindex.nHeight [((tx, txundo), i)] else []) ∧
      st'.spentIndex = st.spentIndex ++
        (if ctx.env.fSpentIndex then connectedSpent ctx.pindex.nHeight [((tx, txundo), i)] else []) := by
  simp only [connectTx, bind_ok, require_ok] at run
  obtain ⟨⟨⟩, -, st₁, inputs, outputs⟩ := run
  simp only [connectOutputs, bind_ok, pure_ok] at outputs
  obtain ⟨⟨txundo, view⟩, update, rfl⟩ := outputs
  cases coinbase : tx.isCoinBase with
  | true =>
    simp only [connectInputs, coinbase, if_true, Except.ok.injEq] at inputs
    subst inputs
    simp only [updateCoins, coinbase, if_true, pure_ok, Prod.mk.injEq] at update
    obtain ⟨rfl, rfl⟩ := update
    refine ⟨[], st.view.utxo, by rw [spentInputs, coinbase, if_pos rfl]; exact .done _, ?_, rfl, ?_⟩
    · exact ⟨by simp, by simp [MAX_MONEY], by simp [feeOf, coinbase]⟩
    · simp [feeOf, coinbase, connectedAddress, connectedUnspent, connectedSpent, spendingEntries, spentUnspentEntries,
        spentEntries]
  | false =>
    simp only [connectInputs, coinbase, Bool.false_eq_true, if_false, bind_ok, require_ok, pure_ok] at inputs
    obtain ⟨⟨⟩, -, ⟨⟩, -, prevouts, read, ⟨⟩, -, nValueIn, valueIn, nValueOut, valueOut, fee, difference, nFees, sum,
      accepts, check, rfl⟩ := inputs
    simp only [updateCoins, coinbase, Bool.false_eq_true, if_false, bind_ok, pure_ok] at update
    obtain ⟨⟨txundo', view'⟩, spending, same⟩ := update
    simp only [Prod.mk.injEq] at same
    obtain ⟨rfl, rfl⟩ := same
    obtain ⟨spends, best⟩ := spendInputs_ok spending
    have found := spends_found spends
    have outputs := outputs_unique st.view.hashBlock found (mapM_ok.mp read)
    subst outputs
    simp only [checkInputs, bind_ok] at check
    obtain ⟨⟨⟩, amounts, -⟩ := check
    have affordable := checkTxInputs_ok checked coinbase found amounts
    rw [checked.valueOut, Except.ok.injEq] at valueOut
    have total := getValueIn_ok coinbase found valueIn
    refine ⟨txundo', view'.utxo, by rw [spentInputs, coinbase, if_neg Bool.false_ne_true]; exact spends, affordable, ?_⟩
    have kept : view' = { st.view with utxo := view'.utxo } := PlainView.ext rfl best
    refine ⟨by rw [kept]; rfl, ?_, rfl, ?_⟩
    · rw [← (addInt64_ok.mp sum).2, ← (addInt64_ok.mp difference).2, feeOf, coinbase, if_neg Bool.false_ne_true, total,
        ← valueOut]
      rfl
    · cases fAddressIndex : ctx.env.fAddressIndex <;> cases fSpentIndex : ctx.env.fSpentIndex <;>
        simp [connectedAddress, connectedUnspent, connectedSpent]

theorem connectTxs_ok {ctx : BlockContext} {st' : ConnectState PlainView} {vtx : List CTransaction} (k : Nat)
    (checked : ∀ tx ∈ vtx, Checked tx) (run : (vtx.zipIdx k).foldlM (connectTx ctx) st = .ok st') :
    ∃ vtxundo, Connects (fun _ _ => True) ctx.pindex.nHeight st.view.utxo vtx vtxundo st'.view.utxo ∧
      st'.view.hashBlock = st.view.hashBlock ∧ Forall₂ Affordable vtx vtxundo ∧
      st'.nFees = st.nFees + (zipWith feeOf vtx vtxundo).sum ∧
      st'.vtxundo = st.vtxundo ++ (if 0 < k then vtxundo else vtxundo.tail) ∧
      st'.addressIndex = st.addressIndex ++
        (if ctx.env.fAddressIndex then connectedAddress ctx.pindex.nHeight ((vtx.zip vtxundo).zipIdx k) else []) ∧
      st'.addressUnspentIndex = st.addressUnspentIndex ++
        (if ctx.env.fAddressIndex then connectedUnspent ctx.pindex.nHeight ((vtx.zip vtxundo).zipIdx k) else []) ∧
      st'.spentIndex = st.spentIndex ++
        (if ctx.env.fSpentIndex then connectedSpent ctx.pindex.nHeight ((vtx.zip vtxundo).zipIdx k) else []) := by
  induction vtx generalizing k st with
  | nil =>
    simp only [zipIdx_nil, foldlM_nil, pure_ok] at run
    subst run
    exact ⟨[], .done _, rfl, .nil, by simp, by simp, by simp [connectedAddress], by simp [connectedUnspent],
      by simp [connectedSpent]⟩
  | cons tx vtx ih =>
    rw [zipIdx_cons] at run
    obtain ⟨st₁, first, others⟩ := foldlM_cons_ok.mp run
    obtain ⟨txundo, middle, spends, affordable, view, nFees, undo, address, unspent, spentIndex⟩ :=
      connectTx_ok (checked tx mem_cons_self) first
    obtain ⟨vtxundo, connects, best, rest, fees, undos, addresses, unspents, spentIndexes⟩ :=
      ih (k + 1) (forall_mem_cons.mp checked).2 others
    rw [view] at connects best
    refine ⟨txundo :: vtxundo, .more spends trivial connects, best, .cons affordable rest, ?_, ?_, ?_, ?_, ?_⟩
    · rw [fees, nFees, zipWith_cons_cons, sum_cons, add_assoc]
    · rw [undos, undo, if_pos (Nat.succ_pos k)]
      split_ifs <;> simp
    · rw [addresses, address]
      cases fAddressIndex : ctx.env.fAddressIndex <;> simp [connectedAddress]
    · rw [unspents, unspent]
      cases fAddressIndex : ctx.env.fAddressIndex <;> simp [connectedUnspent]
    · rw [spentIndexes, spentIndex]
      cases fSpentIndex : ctx.env.fSpentIndex <;> simp [connectedSpent]

/-- What `ConnectBlock` found out about a block that it connected to the plain map. -/
structure Accepted (env : Env) (block : CBlock) (pindex : CBlockIndex) (view : PlainView)
    (st : ConnectState PlainView) : Prop where
  shape : CheckedBlock block
  parent : view.hashBlock = pindex.hashPrevBlock
  free : enforceBIP30 env pindex = true → ∀ tx ∈ block.vtx, (view.utxo.coins tx.hash).isPruned = true
  connects : Connects (fun _ _ => True) pindex.nHeight view.utxo block.vtx ([] :: st.vtxundo) st.view.utxo
  best : st.view.hashBlock = pindex.getBlockHash
  affordable : List.Forall₂ Affordable block.vtx ([] :: st.vtxundo)
  nFees : st.nFees = (List.zipWith feeOf block.vtx ([] :: st.vtxundo)).sum
  reward : ∀ coinbase ∈ block.vtx.head?,
    (coinbase.vout.map CTxOut.nValue).sum ≤ st.nFees + getBlockSubsidy env pindex.nHeight
  addressIndex : st.addressIndex =
    if env.fAddressIndex then connectedAddress pindex.nHeight (block.vtx.zip ([] :: st.vtxundo)).zipIdx else []
  addressUnspentIndex : st.addressUnspentIndex =
    if env.fAddressIndex then connectedUnspent pindex.nHeight (block.vtx.zip ([] :: st.vtxundo)).zipIdx else []
  spentIndex : st.spentIndex =
    if env.fSpentIndex then connectedSpent pindex.nHeight (block.vtx.zip ([] :: st.vtxundo)).zipIdx else []

variable {block : CBlock}

theorem checkReward_ok {env : Env} {nHeight : Nat} {nFees : CAmount} (checked : ∀ tx ∈ block.vtx, Checked tx)
    (accepted : checkReward env block nHeight nFees = .ok ()) :
    ∀ coinbase ∈ block.vtx.head?, (coinbase.vout.map CTxOut.nValue).sum ≤ nFees + getBlockSubsidy env nHeight := by
  unfold checkReward at accepted
  cases shape : block.vtx with
  | nil => simp
  | cons coinbase rest =>
    simp only [shape, bind_ok, require_ok, addInt64_ok] at accepted
    obtain ⟨blockReward, ⟨-, rfl⟩, nValueOut, out, enough⟩ := accepted
    have member : coinbase ∈ block.vtx := by rw [shape]; exact mem_cons_self
    rw [(checked coinbase member).valueOut, Except.ok.injEq] at out
    simp only [head?_cons, Option.mem_def, Option.some.injEq]
    rintro _ rfl
    rw [out]
    simpa using enough

theorem connectBlock_ok {env : Env} {pindex : CBlockIndex} (ordinary : block.hash ≠ env.hashGenesisBlock)
    (run : connectBlock env block pindex view false = .ok st) : Accepted env block pindex view st := by
  simp only [connectBlock, bind_ok, require_ok, if_neg ordinary, Bool.false_eq_true, if_false, pure_ok] at run
  obtain ⟨⟨⟩, check, ⟨⟩, parent, ⟨⟩, bip30, last, loop, ⟨⟩, reward, ⟨⟩, -, rfl⟩ := run
  have shape := checkBlock_ok check
  obtain ⟨vtxundo, connects, -, affordable, fees, undos, address, unspent, spentIndex⟩ :=
    connectTxs_ok 0 shape.transactions loop
  obtain ⟨coinbase, rest, list, isCoinBase, -⟩ := shape.coinbase
  -- the coinbase spends nothing, so its undo record is the dummy one
  obtain ⟨others, rfl⟩ : ∃ others, vtxundo = [] :: others := by
    rw [list] at connects
    cases connects with
    | more spends allows rest =>
      rw [spentInputs, isCoinBase, if_pos rfl] at spends
      cases spends
      exact ⟨_, rfl⟩
  simp only [Nat.lt_irrefl, if_false, tail_cons, nil_append] at undos
  simp only [zero_add] at fees
  simp only [nil_append] at address unspent spentIndex
  subst undos
  refine ⟨shape, (beq_iff_eq.mp parent).symm, ?_, connects, rfl, affordable, fees, ?_, address, unspent, spentIndex⟩
  · intro enforced tx member
    simp only [enforced, Bool.true_and, Bool.not_eq_true', overwrites, any_eq_false] at bip30
    simpa using bip30 tx member
  · exact checkReward_ok shape.transactions reward

theorem coinbase_first (shape : CheckedBlock block) :
    ∀ entry ∈ block.vtx.zipIdx 0, entry.1.isCoinBase = true ↔ entry.2 = 0 := by
  obtain ⟨coinbase, rest, list, isCoinBase, ordinary⟩ := shape.coinbase
  rw [list, zipIdx_cons]
  rintro ⟨tx, i⟩ member
  rcases mem_cons.mp member with same | later
  · obtain ⟨rfl, rfl⟩ := Prod.mk.inj same
    simp [isCoinBase]
  · have position := le_snd_of_mem_zipIdx later
    have inside := fst_mem_of_mem_zipIdx later
    simp only [ordinary tx inside, Bool.false_eq_true, false_iff]
    simp only at position
    omega

/-- No two transactions of the block share an id without being the same transaction. -/
def CollisionFree (vtx : List CTransaction) : Prop := ∀ tx ∈ vtx, ∀ other ∈ vtx, tx.hash = other.hash → tx = other

theorem spends_unspentOut {utxo utxo' : UtxoSet} (spends : Spends utxo vin txundo utxo') (txid : Uint256) (n : Nat) :
    (utxo'.coins txid).unspentOut n =
      if ∃ txin ∈ vin, txin.prevout.hash = txid ∧ txin.prevout.n = n then none
      else (utxo.coins txid).unspentOut n := by
  induction spends with
  | done => simp
  | @more utxo utxo' txin vin txundo txout found rest ih =>
    rw [ih, spent_unspentOut]
    simp only [mem_cons, exists_eq_or_imp]
    by_cases here : txid = txin.prevout.hash ∧ n = txin.prevout.n
    · rw [if_pos here, if_pos (Or.inl ⟨here.1.symm, here.2.symm⟩), ite_self]
    · have elsewhere : ¬(txin.prevout.hash = txid ∧ txin.prevout.n = n) :=
        fun same => here ⟨same.1.symm, same.2.symm⟩
      simp only [if_neg here, elsewhere, false_or]

theorem created_coins_of_ne {utxo : UtxoSet} {nHeight : Nat} {txid : Uint256} (different : txid ≠ tx.hash) :
    (created utxo tx nHeight).coins txid = utxo.coins txid :=
  UtxoSet.modify_of_ne _ _ different

theorem spends_isPruned {utxo utxo' : UtxoSet} (spends : Spends utxo vin txundo utxo') {txid : Uint256}
    (pruned : (utxo.coins txid).isPruned = true) : (utxo'.coins txid).isPruned = true := by
  rw [isPruned_iff_unspentOut] at pruned ⊢
  intro nPos
  rw [spends_unspentOut spends, pruned nPos, ite_self]

/-- While the transactions `before` of a block on `start` have led to `utxo`: only they can have
added coins, and what they spent stays spent. -/
structure Progress (start : UtxoSet) (before : List CTransaction) (utxo : UtxoSet) : Prop where
  origin : ∀ txid, (start.coins txid).isPruned = true → (∀ tx ∈ before, tx.hash ≠ txid) →
    (utxo.coins txid).isPruned = true
  gone : ∀ tx ∈ before, ∀ txin ∈ spentInputs tx,
    (utxo.coins txin.prevout.hash).unspentOut txin.prevout.n = none ∧
      ((start.coins txin.prevout.hash).isPruned = false ∨ ∃ tx' ∈ before, tx'.hash = txin.prevout.hash)

theorem exists_spentInput (checked : Checked tx) (ordinary : tx.isCoinBase = false) :
    ∃ txin vin, spentInputs tx = txin :: vin := by
  rw [spentInputs, ordinary, if_neg Bool.false_ne_true]
  exact exists_cons_of_ne_nil checked.vin

theorem progress_distinct {start utxo middle : UtxoSet} {before : List CTransaction} (progress : Progress start before utxo)
    (spends : Spends utxo (spentInputs tx) txundo middle) (checked : Checked tx)
    (same : ∀ other ∈ before, other.hash = tx.hash → other = tx) (coinbase : tx.isCoinBase = true → before = []) :
    ∀ other ∈ before, other.hash ≠ tx.hash := by
  intro other member equal
  have repeated := same other member equal
  subst repeated
  cases isCoinBase : other.isCoinBase with
  | true => simp [coinbase isCoinBase] at member
  | false =>
    obtain ⟨txin, vin, inputs⟩ := exists_spentInput checked isCoinBase
    have gone := (progress.gone other member txin (by rw [inputs]; exact mem_cons_self)).1
    rw [inputs] at spends
    cases spends with
    | more found rest => simp [gone] at found

theorem progress_step {start utxo middle : UtxoSet} {before : List CTransaction} (nHeight : Nat)
    (progress : Progress start before utxo) (spends : Spends utxo (spentInputs tx) txundo middle)
    (free : (start.coins tx.hash).isPruned = true) (distinct : ∀ other ∈ before, other.hash ≠ tx.hash) :
    Progress start (before ++ [tx]) (created middle tx nHeight) := by
  have unknown : (utxo.coins tx.hash).isPruned = true := progress.origin _ free distinct
  -- an id with coins, or one of an earlier transaction, is not the id of `tx`
  have elsewhere (txid : Uint256)
      (from' : (start.coins txid).isPruned = false ∨ ∃ tx' ∈ before, tx'.hash = txid) : txid ≠ tx.hash := by
    rintro rfl
    rcases from' with unspent | ⟨other, member, same⟩
    · simp [free] at unspent
    · exact distinct other member same
  constructor
  · intro txid pruned absent
    have different : txid ≠ tx.hash := (absent tx (by simp)).symm
    rw [created_coins_of_ne different]
    exact spends_isPruned spends (progress.origin txid pruned fun other member => absent other (by simp [member]))
  · intro other member txin input
    rcases mem_append.mp member with earlier | now
    · obtain ⟨gone, source⟩ := progress.gone other earlier txin input
      refine ⟨?_, source.imp_right fun ⟨tx', member', same⟩ => ⟨tx', by simp [member'], same⟩⟩
      rw [created_coins_of_ne (elsewhere _ source), spends_unspentOut spends, gone, ite_self]
    · rw [mem_singleton] at now
      subst now
      have source : (start.coins txin.prevout.hash).isPruned = false ∨
          ∃ tx' ∈ before, tx'.hash = txin.prevout.hash := by
        by_contra neither
        rw [not_or, Bool.not_eq_false] at neither
        have pruned := progress.origin _ neither.1 fun tx' member' same => neither.2 ⟨tx', member', same⟩
        have found := (forall₂_iff_get.mp (spends_found spends))
        obtain ⟨index, inRange, rfl⟩ := mem_iff_getElem.mp input
        have here := found.2 index inRange (found.1 ▸ inRange)
        simp only [get_eq_getElem] at here
        rw [unspentOut_of_pruned pruned] at here
        simp at here
      refine ⟨?_, source.imp_right fun ⟨tx', member', same⟩ => ⟨tx', by simp [member'], same⟩⟩
      rw [created_coins_of_ne (elsewhere _ source), spends_unspentOut spends, if_pos ⟨txin, input, rfl, rfl⟩]

theorem connects_fresh {nHeight : Nat} (start : UtxoSet) {utxo utxo' : UtxoSet} (before : List CTransaction)
    {vtx : List CTransaction} {vtxundo : List CTxUndo} (connects : Connects (fun _ _ => True) nHeight utxo vtx vtxundo utxo')
    (progress : Progress start before utxo) (checked : ∀ tx ∈ vtx, Checked tx)
    (collisionFree : CollisionFree (before ++ vtx)) (free : ∀ tx ∈ vtx, (start.coins tx.hash).isPruned = true)
    (coinbase : ∀ tx rest, vtx = tx :: rest → (tx.isCoinBase = true → before = []) ∧
      ∀ other ∈ rest, other.isCoinBase = false) : Connects Fresh nHeight utxo vtx vtxundo utxo' := by
  induction connects generalizing before with
  | done utxo => exact .done utxo
  | @more utxo middle utxo' tx vtx txundo vtxundo spends allows rest ih =>
    obtain ⟨first, others⟩ := coinbase tx vtx rfl
    have distinct := progress_distinct progress spends (checked tx mem_cons_self)
      (fun other member same => collisionFree other (by simp [member]) tx (by simp) same) first
    have here := free tx mem_cons_self
    refine .more spends (spends_isPruned spends (progress.origin _ here distinct)) ?_
    refine ih (before ++ [tx]) (progress_step nHeight progress spends here distinct)
      (forall_mem_cons.mp checked).2 (by simpa using collisionFree)
      (forall_mem_cons.mp free).2 ?_
    rintro next rest rfl
    refine ⟨fun isCoinBase => ?_, (forall_mem_cons.mp others).2⟩
    simp [others next mem_cons_self] at isCoinBase

theorem accepted_fresh {env : Env} {pindex : CBlockIndex} (accepted : Accepted env block pindex view st)
    (collisionFree : CollisionFree block.vtx) (free : ∀ tx ∈ block.vtx, (view.utxo.coins tx.hash).isPruned = true) :
    Connects Fresh pindex.nHeight view.utxo block.vtx ([] :: st.vtxundo) st.view.utxo := by
  refine connects_fresh view.utxo [] accepted.connects
    ⟨fun txid pruned _ => pruned, by simp⟩ accepted.shape.transactions collisionFree free ?_
  intro tx rest list
  obtain ⟨coinbase, others, list', -, ordinary⟩ := accepted.shape.coinbase
  rw [list', cons.injEq] at list
  exact ⟨fun _ => rfl, list.2 ▸ ordinary⟩

end Longcoin.BlockEffect

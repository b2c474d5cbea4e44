import Longcoin.ActiveChain

/-! The address-unspent index against the coins it describes. Connecting a block keeps the two
equal; disconnecting it does so only where the undo data still has the height of the output. -/

namespace Longcoin.AddressUnspentIndex
open Primitives Coins Validation BlockTreeDB ConnectBlock DisconnectBlock BlockEffect DisconnectEffect CCoins CTransaction UtxoSet List Option Bool Function
open ActiveChain Library

abbrev Index := CAddressUnspentKey → Option CAddressUnspentValue

/-- What the index should hold for a key: the unspent output it names, if that pays the address. -/
def mirrored (utxo : UtxoSet) (key : CAddressUnspentKey) : Option CAddressUnspentValue :=
  match (utxo.coins key.txhash).unspentOut key.index with
  | none => none
  | some out =>
      if out.scriptPubKey.address = some (key.type, key.hashBytes) then
        some { satoshis := out.nValue, script := out.scriptPubKey, blockHeight := (utxo.coins key.txhash).nHeight }
      else none

/-- The index shows the coins; only for the transactions in `pending` may a height be wrong. -/
def Mirrors (pending : List Uint256) (utxo : UtxoSet) (index : Index) : Prop :=
  ∀ key, index key = mirrored utxo key ∨ key.txhash ∈ pending ∧
    ∃ height, index key = (mirrored utxo key).map fun value => { value with blockHeight := height }

def write (batch : AddressUnspentIndex) (index : Index) : Index := writeBatch (fun entry => entry.2.isNull) batch index

theorem write_append (first second : AddressUnspentIndex) (index : Index) :
    write (first ++ second) index = write second (write first index) := writeBatch_append ..

theorem write_filterMap_cons {α : Type} (entry : α → Option (CAddressUnspentKey × CAddressUnspentValue)) (item : α)
    (items : List α) (index : Index) :
    write ((item :: items).filterMap entry) index = write (items.filterMap entry) (write (entry item).toList index) := by
  rw [filterMap_cons]
  cases entry item <;> rfl

variable {utxo : UtxoSet} {index : Index}

theorem mirrors_iff : Mirrors [] utxo index ↔ ∀ key, index key = mirrored utxo key := by
  simp [Mirrors]

theorem mirrored_of_spent_slot {key : CAddressUnspentKey} (gone : (utxo.coins key.txhash).unspentOut key.index = none) :
    mirrored utxo key = none := by
  simp [mirrored, gone]

variable {utxo' : UtxoSet}

theorem mirrored_congr {key : CAddressUnspentKey}
    (outs : (utxo'.coins key.txhash).unspentOut key.index = (utxo.coins key.txhash).unspentOut key.index)
    (height : (utxo.coins key.txhash).unspentOut key.index ≠ none → (utxo'.coins key.txhash).nHeight = (utxo.coins key.txhash).nHeight) :
    mirrored utxo' key = mirrored utxo key := by
  unfold mirrored
  rw [outs]
  cases found : (utxo.coins key.txhash).unspentOut key.index with
  | none => rfl
  | some out => rw [height (by simp [found])]

theorem write_single (key key' : CAddressUnspentKey) (value : CAddressUnspentValue) (index : Index) :
    write [(key', value)] index key = if key = key' then (if value.isNull then none else some value) else index key := by
  change update index key' _ key = _
  rw [update_apply]

theorem mirrored_spent (utxo : UtxoSet) (prevout : COutPoint) (key : CAddressUnspentKey) :
    mirrored (spent utxo prevout) key =
      if key.txhash = prevout.hash ∧ key.index = prevout.n then none else mirrored utxo key := by
  have outs := spent_unspentOut utxo prevout key.txhash key.index
  split_ifs at outs ⊢ with here
  · exact mirrored_of_spent_slot outs
  · refine mirrored_congr outs fun live => ?_
    by_cases same : key.txhash = prevout.hash
    · rw [same] at outs live ⊢
      have unspent : ((spent utxo prevout).coins prevout.hash).isPruned = false := by
        by_contra pruned
        rw [not_eq_false] at pruned
        rw [unspentOut_of_pruned pruned] at outs
        exact live outs.symm
      rw [spent_coins_self, isPruned_canonical] at unspent
      rw [spent_coins_self, canonical_of_unspent unspent]
      change ((utxo.coins prevout.hash).spend prevout.n).2.nHeight = _
      unfold spend
      split_ifs <;> rfl
    · rw [spent, modify_of_ne _ _ same]

def erasure (input : CTxIn) (prevout : CTxOut) : Option (CAddressUnspentKey × CAddressUnspentValue) :=
  prevout.scriptPubKey.address.map fun (type, hashBytes) =>
    ({ type, hashBytes, txhash := input.prevout.hash, index := input.prevout.n }, {})

theorem mirrors_spent (mirrors : Mirrors [] utxo index) {input : CTxIn} {out : CTxOut}
    (found : (utxo.coins input.prevout.hash).unspentOut input.prevout.n = some out) :
    Mirrors [] (spent utxo input.prevout) (write (erasure input out).toList index) := by
  rw [mirrors_iff] at mirrors ⊢
  intro key
  rw [mirrored_spent]
  cases address : out.scriptPubKey.address with
  | none =>
    simp only [erasure, address, map_none, toList_none, write, writeBatch_nil]
    split_ifs with here
    · rw [mirrors key, mirrored, here.1, here.2, found]
      simp [address]
    · exact mirrors key
  | some pays =>
    obtain ⟨type, hashBytes⟩ := pays
    simp only [erasure, address, map_some, toList_some, write_single]
    by_cases this : key = { type, hashBytes, txhash := input.prevout.hash, index := input.prevout.n }
    · subst this
      simp [CAddressUnspentValue.isNull]
    · rw [if_neg this, mirrors key]
      split_ifs with here
      · have other : ¬(type = key.type ∧ hashBytes = key.hashBytes) := by
          rintro ⟨rfl, rfl⟩
          rw [← here.1, ← here.2] at this
          exact this rfl
        rw [mirrored, here.1, here.2, found]
        simp [address, other]
      · rfl

theorem mirrors_spends {vin : List CTxIn} {txundo : CTxUndo} (spends : Spends utxo vin txundo utxo')
    (mirrors : Mirrors [] utxo index) :
    Mirrors [] utxo' (write ((vin.zip (txundo.map CTxInUndo.txout)).filterMap fun (input, prevout) =>
      erasure input prevout) index) := by
  induction spends generalizing index with
  | done => exact mirrors
  | more found rest ih =>
    rw [map_cons, zip_cons_cons, write_filterMap_cons, undoOf_txout]
    exact ih (mirrors_spent mirrors found)

theorem spendable_of_address {script : CScript} {pays : Nat × Uint160} (address : script.address = some pays) :
    script.isUnspendable = false := by
  unfold CScript.address at address
  cases script with
  | nil => simp [CScript.isPayToScriptHash, CScript.isPayToPublicKeyHash] at address
  | cons opcode rest =>
    by_contra unspendable
    rw [not_eq_false, CScript.isUnspendable, head?_cons, beq_iff_eq, some.injEq] at unspendable
    simp [CScript.isPayToScriptHash, CScript.isPayToPublicKeyHash, unspendable] at address

variable {tx : CTransaction}

theorem live_of_checked (checked : Checked tx) {n : Nat} {out : CTxOut} (found : tx.vout[n]? = some out) :
    out.isNull = false := by
  have amount := (checked.amounts out (mem_of_getElem? found)).1
  simp only [CTxOut.isNull, beq_eq_false_iff_ne]
  intro null
  rw [null] at amount
  cases amount

theorem mirrored_created (checked : Checked tx) (utxo : UtxoSet) (nHeight : Nat) (key : CAddressUnspentKey) :
    mirrored (created utxo tx nHeight) key =
      if key.txhash = tx.hash then
        match tx.vout[key.index]? with
        | none => none
        | some out =>
            if out.scriptPubKey.address = some (key.type, key.hashBytes) then
              some { satoshis := out.nValue, script := out.scriptPubKey, blockHeight := nHeight }
            else none
      else mirrored utxo key := by
  have outs := created_unspentOut utxo tx nHeight key.txhash key.index
  split_ifs at outs ⊢ with same
  · cases found : tx.vout[key.index]? with
    | none =>
      rw [found] at outs
      exact mirrored_of_spent_slot outs
    | some out =>
      rw [found] at outs
      dsimp only
      split_ifs with pays
      · rw [filter_some, spendable_of_address pays, live_of_checked checked found] at outs
        have unspent : (fromTx tx nHeight).isPruned = false := by
          by_contra pruned
          rw [not_eq_false] at pruned
          rw [same, created, modify_self, unspentOut_canonical, unspentOut_of_pruned pruned] at outs
          simp at outs
        have height : ((created utxo tx nHeight).coins key.txhash).nHeight = nHeight := by
          rw [same, created, modify_self, canonical_of_unspent unspent]
          rfl
        simp [mirrored, outs, pays, height]
      · unfold mirrored
        rw [outs, filter_some]
        split_ifs <;> simp [pays]
  · exact mirrored_congr outs fun _ => by rw [created_coins_of_ne same]

variable {nHeight : Nat}

/-- The rows of the outputs of a transaction, with any value. -/
theorem mem_outputRows (value : CTxOut → CAddressUnspentValue) {entry : CAddressUnspentKey × CAddressUnspentValue} :
    (entry ∈ tx.vout.zipIdx.filterMap fun (out, k) => out.scriptPubKey.address.map fun (type, hashBytes) =>
        ({ type, hashBytes, txhash := tx.hash, index := k }, value out)) ↔
      ∃ out, tx.vout[entry.1.index]? = some out ∧ out.scriptPubKey.address = some (entry.1.type, entry.1.hashBytes) ∧
        entry.1.txhash = tx.hash ∧ entry.2 = value out := by
  obtain ⟨⟨type, hashBytes, txhash, index⟩, amount⟩ := entry
  simp only [mem_filterMap, Prod.exists, mem_zipIdx_iff_getElem?, map_eq_some_iff, Prod.mk.injEq, CAddressUnspentKey.mk.injEq]
  constructor
  · rintro ⟨out, k, found, type', hashBytes', pays, ⟨rfl, rfl, rfl, rfl⟩, rfl⟩
    exact ⟨out, found, pays, rfl, rfl⟩
  · rintro ⟨out, found, pays, rfl, rfl⟩
    exact ⟨out, index, found, type, hashBytes, pays, ⟨rfl, rfl, rfl, rfl⟩, rfl⟩

theorem mem_unspentEntries {entry : CAddressUnspentKey × CAddressUnspentValue} :
    entry ∈ unspentEntries nHeight tx ↔ ∃ out, tx.vout[entry.1.index]? = some out ∧
      out.scriptPubKey.address = some (entry.1.type, entry.1.hashBytes) ∧ entry.1.txhash = tx.hash ∧
      entry.2 = { satoshis := out.nValue, script := out.scriptPubKey, blockHeight := nHeight } :=
  mem_outputRows fun out => { satoshis := out.nValue, script := out.scriptPubKey, blockHeight := nHeight }

theorem mirrors_created (mirrors : Mirrors [] utxo index) (checked : Checked tx) (nHeight : Nat)
    (replaced : ∀ n out, (utxo.coins tx.hash).unspentOut n = some out → tx.vout[n]? = some out) :
    Mirrors [] (created utxo tx nHeight) (write (unspentEntries nHeight tx) index) := by
  rw [mirrors_iff] at mirrors ⊢
  intro key
  rw [mirrored_created checked]
  by_cases mentioned : ∃ entry ∈ unspentEntries nHeight tx, entry.1 = key
  · obtain ⟨entry, member, rfl⟩ := mentioned
    obtain ⟨out, found, pays, id, -⟩ := mem_unspentEntries.mp member
    rw [if_pos id, found]
    dsimp only
    rw [if_pos pays]
    refine writeBatch_agreed _ _ _ ?_ ⟨entry, member, rfl⟩
    intro other inside same
    obtain ⟨out', found', -, -, value⟩ := mem_unspentEntries.mp inside
    rw [same, found, some.injEq] at found'
    subst found'
    have live : other.2.isNull = false := by
      rw [value]
      exact live_of_checked checked found
    rw [live, if_neg Bool.false_ne_true, value]
  · rw [write, writeBatch_absent _ _ _ fun entry member same => mentioned ⟨entry, member, same⟩, mirrors key]
    split_ifs with id
    · have unpaid (out : CTxOut) (found : tx.vout[key.index]? = some out) :
          ¬out.scriptPubKey.address = some (key.type, key.hashBytes) := fun pays =>
        mentioned ⟨(key, _), mem_unspentEntries.mpr ⟨out, found, pays, id, rfl⟩, rfl⟩
      have nothing : mirrored utxo key = none := by
        unfold mirrored
        rw [id]
        cases old : (utxo.coins tx.hash).unspentOut key.index with
        | none => rfl
        | some out => exact if_neg (unpaid out (replaced _ _ old))
      rw [nothing]
      cases found : tx.vout[key.index]? with
      | none => rfl
      | some out => exact (if_neg (unpaid out found)).symm
    · rfl

theorem mirrors_connects {store : BlockStore} (distinct : TxidsDistinct store) {allowed : UtxoSet → CTransaction → Prop}
    {vtx : List CTransaction} {vtxundo : List CTxUndo} {hash : Uint256}
    (connects : Connects allowed nHeight utxo vtx vtxundo utxo') (known : Known store utxo)
    (checked : ∀ tx ∈ vtx, Checked tx) (stored : ∀ tx ∈ vtx, tx ∈ (store.readBlockFromDisk hash).vtx)
    (mirrors : Mirrors [] utxo index) (k : Nat) :
    Mirrors [] utxo' (write (connectedUnspent nHeight ((vtx.zip vtxundo).zipIdx k)) index) := by
  induction connects generalizing index k with
  | done => exact mirrors
  | @more utxo middle utxo' tx vtx txundo vtxundo spends allows rest ih =>
    have member := stored tx mem_cons_self
    have knownMiddle := known_spends spends known
    have erased : spentUnspentEntries tx (txundo.map CTxInUndo.txout) =
        ((spentInputs tx).zip (txundo.map CTxInUndo.txout)).filterMap fun (input, prevout) => erasure input prevout := by
      unfold spentInputs at spends ⊢
      split_ifs at spends ⊢
      · cases spends
        simp [spentUnspentEntries]
      · rfl
    rw [zip_cons_cons, zipIdx_cons]
    simp only [connectedUnspent, flatMap_cons, write_append]
    rw [erased]
    refine ih (known_created knownMiddle member nHeight) (forall_mem_cons.mp checked).2
      (forall_mem_cons.mp stored).2 ?_ (k + 1)
    refine mirrors_created (mirrors_spends spends mirrors) (checked tx mem_cons_self) nHeight fun n out old => ?_
    obtain ⟨hash', tx', member', id, found⟩ := knownMiddle _ _ _ old
    rw [distinct hash' hash tx' member' tx member id] at found
    exact found

theorem mirrored_removed (utxo : UtxoSet) (tx : CTransaction) (key : CAddressUnspentKey) :
    mirrored (removed utxo tx) key = if key.txhash = tx.hash then none else mirrored utxo key := by
  have outs := removed_unspentOut utxo tx key.txhash key.index
  split_ifs at outs ⊢ with same
  · exact mirrored_of_spent_slot outs
  · exact mirrored_congr outs fun _ => by rw [removed_coins, if_neg same]

theorem mem_undoUnspentEntries {entry : CAddressUnspentKey × CAddressUnspentValue} :
    entry ∈ undoUnspentEntries tx ↔ ∃ out, tx.vout[entry.1.index]? = some out ∧
      out.scriptPubKey.address = some (entry.1.type, entry.1.hashBytes) ∧ entry.1.txhash = tx.hash ∧ entry.2 = {} := by
  rw [undoUnspentEntries, filterMap_reverse, mem_reverse]
  exact mem_outputRows fun _ => {}

theorem matches_output {coins : CCoins} (same : Matches coins tx nHeight) {n : Nat} {out : CTxOut}
    (found : coins.unspentOut n = some out) (spendable : out.scriptPubKey.isUnspendable = false) :
    tx.vout[n]? = some out := by
  obtain ⟨nVersion, equal⟩ := same
  have kept : ({ coins.clearUnspendable with nVersion } : CCoins).unspentOut n = some out := by
    obtain ⟨hit, live⟩ := unspentOut_eq_some.mp found
    change coins.clearUnspendable.unspentOut n = some out
    rw [clearUnspendable, unspentOut_cleanup, unspentOut_eq_some]
    simp [hit, spendable, live]
  have agreed : (fromTx tx nHeight).unspentOut n = some out := by
    rcases equal with ⟨pruned, -⟩ | equal
    · rw [unspentOut_of_pruned pruned] at kept
      simp at kept
    · rwa [← equal]
  rw [unspentOut_fromTx] at agreed
  exact (filter_eq_some_iff.mp agreed).1

variable {pending : List Uint256}

theorem mirrors_removed (mirrors : Mirrors (tx.hash :: pending) utxo index) (same : Matches (utxo.coins tx.hash) tx nHeight) :
    Mirrors pending (removed utxo tx) (write (undoUnspentEntries tx) index) := by
  intro key
  rw [mirrored_removed]
  by_cases mentioned : ∃ entry ∈ undoUnspentEntries tx, entry.1 = key
  · left
    obtain ⟨entry, member, rfl⟩ := mentioned
    obtain ⟨out, found, pays, id, -⟩ := mem_undoUnspentEntries.mp member
    rw [if_pos id]
    refine writeBatch_agreed _ _ _ ?_ ⟨entry, member, rfl⟩
    intro other inside _
    obtain ⟨-, -, -, -, value⟩ := mem_undoUnspentEntries.mp inside
    rw [value]
    rfl
  · rw [write, writeBatch_absent _ _ _ fun entry member equal => mentioned ⟨entry, member, equal⟩]
    split_ifs with id
    · left
      have nothing : mirrored utxo key = none := by
        unfold mirrored
        rw [id]
        cases old : (utxo.coins tx.hash).unspentOut key.index with
        | none => rfl
        | some out =>
          refine if_neg fun pays => mentioned ⟨(key, {}), mem_undoUnspentEntries.mpr ⟨out, ?_, pays, id, rfl⟩, rfl⟩
          exact matches_output same old (spendable_of_address pays)
      rcases mirrors key with exact' | ⟨-, height, held⟩
      · rw [exact', nothing]
      · rw [held, nothing]
        rfl
    · exact (mirrors key).imp_right fun ⟨member, held⟩ => ⟨(mem_cons.mp member).resolve_left id, held⟩

theorem restored_nHeight {prevout : COutPoint} {undo : CTxInUndo}
    (clean : Restorable (utxo.coins prevout.hash) undo prevout.n) (live : undo.txout.isNull = false) :
    ((restored utxo prevout undo).coins prevout.hash).nHeight =
      if undo.nHeight ≠ 0 then undo.nHeight else (utxo.coins prevout.hash).nHeight := by
  have unspent := restored_unspent clean live
  rw [restored, modify_self, isPruned_canonical] at unspent
  rw [restored, modify_self, canonical_of_unspent unspent]
  exact restore_nHeight undo prevout.n _

theorem mirrored_restored {prevout : COutPoint} {undo : CTxInUndo}
    (clean : Restorable (utxo.coins prevout.hash) undo prevout.n) (live : undo.txout.isNull = false)
    (key : CAddressUnspentKey) :
    mirrored (restored utxo prevout undo) key =
      if key.txhash = prevout.hash ∧ key.index = prevout.n then
        if undo.txout.scriptPubKey.address = some (key.type, key.hashBytes) then
          some {
            satoshis := undo.txout.nValue, script := undo.txout.scriptPubKey,
            blockHeight := if undo.nHeight ≠ 0 then undo.nHeight else (utxo.coins prevout.hash).nHeight }
        else none
      else mirrored utxo key := by
  have outs := restored_unspentOut clean live key.txhash key.index
  split_ifs at outs with here
  · rw [if_pos here, mirrored, outs, here.1, restored_nHeight clean live]
  · rw [if_neg here]
    refine mirrored_congr outs fun found => ?_
    by_cases same : key.txhash = prevout.hash
    · rw [same, restored_nHeight clean live]
      unfold Restorable at clean
      split_ifs at clean ⊢ with given
      · rw [same, unspentOut_of_pruned clean] at found
        exact absurd rfl found
      · rfl
    · rw [restored, modify_of_ne _ _ same]

theorem mirrors_restored (mirrors : Mirrors pending utxo index) {input : CTxIn} {undo : CTxInUndo}
    (clean : Restorable (utxo.coins input.prevout.hash) undo input.prevout.n) (live : undo.txout.isNull = false)
    (height : undo.txout.scriptPubKey.address ≠ none → undo.nHeight = 0 → input.prevout.hash ∈ pending) :
    Mirrors pending (restored utxo input.prevout undo) (write (restoredEntry input undo undo.txout).toList index) := by
  intro key
  rw [mirrored_restored clean live]
  by_cases here : key.txhash = input.prevout.hash ∧ key.index = input.prevout.n
  · rw [if_pos here]
    by_cases pays : undo.txout.scriptPubKey.address = some (key.type, key.hashBytes)
    · rw [if_pos pays]
      obtain ⟨type, hashBytes, txhash, n⟩ := key
      obtain ⟨rfl, rfl⟩ : txhash = input.prevout.hash ∧ n = input.prevout.n := here
      simp only [restoredEntry, pays, map_some, toList_some, write_single, if_true]
      have kept (height : Nat) : (CAddressUnspentValue.mk undo.txout.nValue undo.txout.scriptPubKey height).isNull = false :=
        live
      rw [kept, if_neg Bool.false_ne_true]
      by_cases given : undo.nHeight ≠ 0
      · left
        rw [if_pos given]
      · right
        exact ⟨height (by rw [pays]; simp) (not_not.mp given), undo.nHeight, rfl⟩
    · rw [if_neg pays]
      left
      have untouched : write (restoredEntry input undo undo.txout).toList index key = index key := by
        unfold restoredEntry
        cases address : undo.txout.scriptPubKey.address with
        | none => rfl
        | some paid =>
          obtain ⟨type, hashBytes⟩ := paid
          simp only [map_some, toList_some, write_single]
          refine if_neg fun same => pays ?_
          rw [address, same]
      have nothing : mirrored utxo key = none := by
        apply mirrored_of_spent_slot
        rw [here.1, here.2]
        unfold Restorable at clean
        split_ifs at clean
        · exact unspentOut_of_pruned clean _
        · exact clean.2
      rw [untouched]
      rcases mirrors key with exact' | ⟨-, height, held⟩
      · rw [exact', nothing]
      · rw [held, nothing]
        rfl
  · rw [if_neg here]
    have untouched : write (restoredEntry input undo undo.txout).toList index key = index key := by
      unfold restoredEntry
      cases undo.txout.scriptPubKey.address with
      | none => rfl
      | some paid =>
        simp only [map_some, toList_some, write_single]
        refine if_neg fun same => here ?_
        rw [same]
        exact ⟨rfl, rfl⟩
    rw [untouched]
    exact mirrors key

theorem mirrors_restores {entries : List ((CTxIn × CTxInUndo) × Nat)} (restores : Restores utxo entries utxo')
    (mirrors : Mirrors pending utxo index)
    (heights : ∀ entry ∈ entries, entry.1.2.txout.scriptPubKey.address ≠ none → entry.1.2.nHeight = 0 → entry.1.1.prevout.hash ∈ pending) :
    Mirrors pending utxo' (write (restoredUnspent entries) index) := by
  induction restores generalizing index with
  | done => exact mirrors
  | more clean live rest ih =>
    rw [restoredUnspent, write_filterMap_cons]
    exact ih (mirrors_restored mirrors clean live (heights _ mem_cons_self))
      (forall_mem_cons.mp heights).2

/-- Every restored output with an address gets its height back, unless an earlier transaction of
the same block created it, whose own entries are then erased. -/
def KeepsHeights (block : CBlock) (blockUndo : CBlockUndo) : Prop :=
  ∀ entry ∈ (block.vtx.zip ([] :: blockUndo)).zipIdx, ∀ input ∈ entry.1.1.vin.zip entry.1.2,
    input.2.txout.scriptPubKey.address ≠ none → input.2.nHeight = 0 →
      input.1.prevout.hash ∈ (block.vtx.take entry.2).map CTransaction.hash

theorem mirrors_weaken (mirrors : Mirrors [] utxo index) (pending : List Uint256) :
    Mirrors pending utxo index := fun key => .inl (mirrors_iff.mp mirrors key)

theorem mirrors_disconnects {vtx : List CTransaction} {vtxundo : List CTxUndo}
    (heights : ∀ entry ∈ (vtx.zip vtxundo).zipIdx, ∀ input ∈ entry.1.1.vin.zip entry.1.2,
      input.2.txout.scriptPubKey.address ≠ none → input.2.nHeight = 0 → input.1.prevout.hash ∈ (vtx.take entry.2).map hash)
    (count : Nat) (bound : count ≤ (vtx.zip vtxundo).length)
    (disconnects : Disconnects nHeight utxo ((vtx.zip vtxundo).zipIdx.take count).reverse utxo')
    (mirrors : Mirrors ((vtx.take count).map hash) utxo index) :
    Mirrors [] utxo' (write (undoneUnspent ((vtx.zip vtxundo).zipIdx.take count).reverse) index) := by
  -- from the last transaction to the first; those before position `count` still wait
  induction count generalizing utxo index with
  | zero =>
    simp only [take_zero, reverse_nil] at disconnects ⊢
    cases disconnects
    exact mirrors
  | succ count ih =>
    have inside : count < (vtx.zip vtxundo).zipIdx.length := by rwa [length_zipIdx]
    have first : count < vtx.length := by
      rw [length_zip] at bound
      omega
    have second : count < vtxundo.length := by
      rw [length_zip] at bound
      omega
    have entryEq : (vtx.zip vtxundo).zipIdx[count] = ((vtx[count], vtxundo[count]), count) := by simp
    have split : ((vtx.zip vtxundo).zipIdx.take (count + 1)).reverse =
        ((vtx[count], vtxundo[count]), count) :: ((vtx.zip vtxundo).zipIdx.take count).reverse := by
      rw [← take_append_getElem inside, reverse_append, entryEq]
      rfl
    rw [split] at disconnects ⊢
    cases disconnects with
    | more same restores rest =>
      have waiting : (vtx.take (count + 1)).map hash =
          (vtx.take count).map hash ++ [vtx[count].hash] := by
        rw [← take_append_getElem first, map_append]
        rfl
      have reordered : Mirrors (vtx[count].hash :: (vtx.take count).map hash) utxo index := by
        intro key
        refine (mirrors key).imp_right fun ⟨member, held⟩ => ⟨?_, held⟩
        rw [waiting, mem_append, mem_singleton] at member
        exact mem_cons.mpr member.symm
      have back := mirrors_restores restores (mirrors_removed reordered same) fun entry member => by
        rw [mem_reverse] at member
        exact heights ((vtx[count], vtxundo[count]), count) (entryEq ▸ getElem_mem inside) entry.1
          (fst_mem_of_mem_zipIdx member)
      have last := ih (Nat.le_of_succ_le bound) rest back
      simpa only [undoneUnspent, flatMap_cons, write_append] using last

/-- Where the index survives a disconnection: the undo data of the tip keeps the heights. -/
def HeightsGuard (store : BlockStore) (s : ChainState) : ChainOp → Prop
  | .connect _ => True
  | .disconnect => ∀ hash ∈ s.chain.head?, ∀ blockUndo ∈ s.undo hash,
      KeepsHeights (store.readBlockFromDisk hash) blockUndo

instance (block : CBlock) (blockUndo : CBlockUndo) : Decidable (KeepsHeights block blockUndo) :=
  inferInstanceAs (Decidable (∀ entry ∈ (block.vtx.zip ([] :: blockUndo)).zipIdx, ∀ input ∈ entry.1.1.vin.zip entry.1.2, _ → _ → _ ∈ _))

-- by the tip and its undo data, not over all hashes
instance (store : BlockStore) (s : ChainState) : ∀ op, Decidable (HeightsGuard store s op)
  | .connect _ => inferInstanceAs (Decidable True)
  | .disconnect => Option.decidableForallMem _

theorem mirrors_step {env : Env} {store : BlockStore} (indexed : env.fAddressIndex = true)
    (distinct : TxidsDistinct store) {s s' : ChainState} {op : ChainOp} (sound : Sound env store s)
    (step : Guarded env store (HeightsGuard store) s op s')
    (mirrors : Mirrors [] s.view.utxo s.pblocktree.addressUnspentIndex) :
    Mirrors [] s'.view.utxo s'.pblocktree.addressUnspentIndex := by
  obtain ⟨step, guard⟩ := step
  cases step with
  | @connect hash st extends' found ordinary connected =>
    have accepted := step_accepted found ordinary connected
    have kept := mirrors_connects distinct accepted.connects sound.known accepted.shape.transactions
      (fun tx member => member) mirrors 0
    have batch := accepted.addressUnspentIndex
    rw [indexed, if_pos rfl] at batch
    rw [← batch] at kept
    simp only [writeConnected, indexed, if_true]
    split_ifs <;> exact kept
  | @disconnect hash rest blockUndo st tip stored disconnected clean =>
    have undos := sound.undo hash blockUndo stored
    obtain ⟨sizes, disconnects, -, -, -, batch⟩ := disconnectBlock_ok (knownUndo_live undos) disconnected clean
    rw [indexed, if_pos rfl] at batch
    have heights := guard hash (by simp [tip]) blockUndo stored
    have whole : ((store.readBlockFromDisk hash).vtx.zip ([] :: blockUndo)).zipIdx.take
        ((store.readBlockFromDisk hash).vtx.zip ([] :: blockUndo)).length =
        ((store.readBlockFromDisk hash).vtx.zip ([] :: blockUndo)).zipIdx :=
      take_of_length_le (by rw [length_zipIdx])
    rw [← whole] at disconnects batch
    have kept := mirrors_disconnects heights _ le_rfl disconnects (mirrors_weaken mirrors _)
    rw [← batch] at kept
    simp only [writeDisconnected, indexed, if_true]
    exact kept

/-- In every run whose disconnections keep the heights, the index is the image of the coins: a key
is there exactly for an unspent output that pays its address, with that output's amount, script
and height. -/
theorem addressUnspentIndex_mirrors {env : Env} {store : BlockStore} (indexed : env.fAddressIndex = true)
    (distinct : TxidsDistinct store) {ops : List ChainOp} {s : ChainState}
    (run : Steps (Guarded env store (HeightsGuard store)) (genesisState env) ops s) (key : CAddressUnspentKey) :
    s.pblocktree.addressUnspentIndex key = mirrored s.view.utxo key := by
  have holds : Sound env store s ∧ Mirrors [] s.view.utxo s.pblocktree.addressUnspentIndex := by
    refine run.invariant (fun s => Sound env store s ∧ Mirrors [] s.view.utxo s.pblocktree.addressUnspentIndex)
      (fun before op after both step => ?_) ⟨sound_genesis env store, ?_⟩
    · exact ⟨sound_step both.1 step.1, mirrors_step indexed distinct both.1 step both.2⟩
    · exact mirrors_iff.mpr fun _ => rfl
  exact mirrors_iff.mp holds.2 key

/-- The first output of the sample chain that has an address. -/
def sampleKey : CAddressUnspentKey where
  type := 1
  hashBytes := uint160 (List.replicate 20 7)
  txhash := 1001
  index := 0

def sampleValue (blockHeight : Nat) : CAddressUnspentValue where
  satoshis := 5
  script := payToPublicKeyHash 7
  blockHeight := blockHeight

/-- The output that block 31 makes and block 32 spends. -/
def spentKey : CAddressUnspentKey := { sampleKey with hashBytes := uint160 (List.replicate 20 8), txhash := 5000 }

/-- Block 32 spends all that a transaction made, and is taken back. -/
theorem addressUnspentIndex_mirrors_sample : ∃ s : ChainState,
    s.pblocktree.addressUnspentIndex spentKey = mirrored s.view.utxo spentKey ∧
      mirrored s.view.utxo spentKey = some ⟨10, payToPublicKeyHash 8, 31⟩ := by
  have ran : (runGuarded permissiveEnv sampleStore (HeightsGuard sampleStore) (sampleConnects 32 ++ [.disconnect])).map
      (fun s => mirrored s.view.utxo spentKey) = some (some ⟨10, payToPublicKeyHash 8, 31⟩) := by decide +kernel
  obtain ⟨s, run, shown⟩ := map_eq_some_iff.mp ran
  exact ⟨s, addressUnspentIndex_mirrors rfl sample_distinct (guardedStep_run run) spentKey, shown⟩

/-- Block 31 spends both outputs of one transaction, so only the second undo record has the height.
Taking the block back restores the first entry with height 0. -/
theorem restored_height_is_lost :
    ¬ ∀ (env : Env) (store : BlockStore) (ops : List ChainOp) (s : ChainState), env.fAddressIndex = true →
      TxidsDistinct store → Steps (ChainStep env store) (genesisState env) ops s →
      ∀ key, s.pblocktree.addressUnspentIndex key = mirrored s.view.utxo key := by
  intro mirrors
  have ran : (runGuarded permissiveEnv sampleStore (fun _ _ => True) (sampleConnects 31 ++ [.disconnect])).map
      (fun s => (s.pblocktree.addressUnspentIndex sampleKey, mirrored s.view.utxo sampleKey)) =
        some (some (sampleValue 0), some (sampleValue 1)) := by decide +kernel
  obtain ⟨s, run, shown⟩ := map_eq_some_iff.mp ran
  rw [Prod.mk.injEq] at shown
  have same := mirrors permissiveEnv sampleStore _ s rfl sample_distinct (steps_of_guarded (guardedStep_run run)) sampleKey
  rw [shown.1, shown.2] at same
  cases same

end Longcoin.AddressUnspentIndex

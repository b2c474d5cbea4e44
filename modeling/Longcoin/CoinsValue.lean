import Longcoin.BlockEffect
import Longcoin.Library.Total

/-! The money in the unspent outputs, counted for the outputs that `pays` selects, and how
spending and creating outputs moves it. -/

namespace Longcoin.CoinsValue
open Primitives Coins UtxoSet ConnectBlock BlockEffect Library.Total CCoins List Function

instance : Finite Uint256 := Finite.of_injective BitVec.toFin fun _ _ same => BitVec.eq_of_toFin_eq same

def slotValue (pays : CTxOut → Bool) (out : CTxOut) : CAmount := if !out.isNull && pays out then out.nValue else 0

def coinsValue (pays : CTxOut → Bool) (coins : CCoins) : CAmount := (coins.vout.map (slotValue pays)).sum

noncomputable def totalValue (pays : CTxOut → Bool) (utxo : UtxoSet) : CAmount :=
  total fun txid => coinsValue pays (utxo.coins txid)

variable (pays : CTxOut → Bool)

@[simp] theorem slotValue_setNull : slotValue pays .setNull = 0 := rfl

theorem slotValue_of_null {out : CTxOut} (null : out.isNull = true) : slotValue pays out = 0 := by
  simp [slotValue, null]

@[simp] theorem coinsValue_empty : coinsValue pays {} = 0 := rfl

theorem coinsValue_of_pruned {coins : CCoins} (pruned : coins.isPruned = true) : coinsValue pays coins = 0 := by
  apply sum_eq_zero
  intro value member
  obtain ⟨out, inside, rfl⟩ := mem_map.mp member
  exact slotValue_of_null pays (all_eq_true.mp pruned out inside)

@[simp] theorem coinsValue_cleanup (coins : CCoins) : coinsValue pays coins.cleanup = coinsValue pays coins := by
  have main (vout : List CTxOut) :
      ((vout.rdropWhile CTxOut.isNull).map (slotValue pays)).sum = (vout.map (slotValue pays)).sum := by
    induction vout using reverseRecOn with
    | nil => rfl
    | append_singleton vout out ih =>
      by_cases null : out.isNull = true
      · rw [rdropWhile_concat_pos _ _ _ null, ih]
        simp [slotValue_of_null pays null]
      · rw [rdropWhile_concat_neg _ _ _ null]
  exact main coins.vout

@[simp] theorem coinsValue_canonical (coins : CCoins) : coinsValue pays (canonical coins) = coinsValue pays coins := by
  cases pruned : coins.isPruned with
  | true => rw [canonical_of_pruned pruned, coinsValue_of_pruned pays pruned, coinsValue_empty]
  | false => rw [canonical_of_unspent pruned, coinsValue_cleanup]

theorem slots_set (vout : List CTxOut) {n : Nat} {out : CTxOut} (new : CTxOut) (found : vout[n]? = some out) :
    ((vout.set n new).map (slotValue pays)).sum =
      (vout.map (slotValue pays)).sum - slotValue pays out + slotValue pays new := by
  induction vout generalizing n with
  | nil => simp at found
  | cons first rest ih =>
    cases n with
    | zero =>
      simp only [getElem?_cons_zero, Option.some.injEq] at found
      subst found
      simp only [set_cons_zero, map_cons, sum_cons]
      abel
    | succ n =>
      simp only [getElem?_cons_succ] at found
      simp only [set_cons_succ, map_cons, sum_cons, ih found]
      abel

theorem coinsValue_spend {coins : CCoins} {n : Nat} {out : CTxOut} (found : coins.unspentOut n = some out) :
    coinsValue pays (coins.spend n).2 = coinsValue pays coins - slotValue pays out := by
  have available : coins.isAvailable n = true := by
    rw [isAvailable_eq, found]
    rfl
  have hit := (unspentOut_eq_some.mp found).1
  simp only [spend, available, if_true, coinsValue_cleanup]
  simp only [coinsValue, slots_set pays coins.vout .setNull hit, slotValue_setNull, add_zero]

/-- What the outputs of a transaction add: the spendable ones. -/
def createdValue (tx : CTransaction) : CAmount :=
  (tx.vout.map fun out => if out.scriptPubKey.isUnspendable then 0 else slotValue pays out).sum

theorem coinsValue_fromTx (tx : CTransaction) (nHeight : Nat) :
    coinsValue pays (fromTx tx nHeight) = createdValue pays tx := by
  rw [fromTx, clearUnspendable, coinsValue_cleanup]
  simp only [coinsValue, createdValue, map_map]
  congr 1
  apply map_congr_left
  intro out member
  simp only [comp_apply]
  split_ifs <;> simp

theorem totalValue_modify (utxo : UtxoSet) (txid : Uint256) (edit : CCoins → CCoins) :
    totalValue pays (utxo.modify txid edit) =
      totalValue pays utxo - coinsValue pays (utxo.coins txid) + coinsValue pays (edit (utxo.coins txid)) := by
  have moved : (fun other => coinsValue pays ((utxo.modify txid edit).coins other)) =
      update (fun other => coinsValue pays (utxo.coins other)) txid
        (coinsValue pays (edit (utxo.coins txid))) := by
    funext other
    by_cases same : other = txid
    · subst same
      rw [UtxoSet.modify_self, update_self, coinsValue_canonical]
    · rw [UtxoSet.modify_of_ne _ _ same, update_of_ne same]
  rw [totalValue, moved, total_update]
  rfl

theorem totalValue_spent {utxo : UtxoSet} {prevout : COutPoint} {out : CTxOut}
    (found : (utxo.coins prevout.hash).unspentOut prevout.n = some out) :
    totalValue pays (spent utxo prevout) = totalValue pays utxo - slotValue pays out := by
  rw [spent, totalValue_modify, coinsValue_spend pays found]
  abel

theorem totalValue_created (utxo : UtxoSet) (tx : CTransaction) (nHeight : Nat) : totalValue pays (created utxo tx nHeight) =
      totalValue pays utxo - coinsValue pays (utxo.coins tx.hash) + createdValue pays tx := by
  rw [created, totalValue_modify, coinsValue_fromTx]

theorem totalValue_spends {utxo utxo' : UtxoSet} {vin : List CTxIn} {txundo : CTxUndo}
    (spends : Spends utxo vin txundo utxo') :
    totalValue pays utxo' = totalValue pays utxo - (txundo.map fun undo => slotValue pays undo.txout).sum := by
  induction spends with
  | done => simp
  | more found rest ih =>
    rw [ih, totalValue_spent pays found, map_cons, sum_cons, undoOf_txout]
    abel

@[simp] theorem totalValue_empty : totalValue pays .empty = 0 := by
  simp [totalValue]

end Longcoin.CoinsValue

import Longcoin.Coins

/-! The unspent outputs as a plain map: what a view is for. A transaction with nothing
left is the same as an unknown one, so the map keeps the empty record for both. -/

namespace Longcoin.UtxoSet
open Primitives Coins

/-- The record the plain map keeps: cleaned up, and empty when nothing is left. -/
def canonical (coins : CCoins) : CCoins := if coins.isPruned then {} else coins.cleanup

theorem canonical_of_pruned {coins : CCoins} (pruned : coins.isPruned = true) : canonical coins = {} := by
  simp [canonical, pruned]

theorem canonical_of_unspent {coins : CCoins} (unspent : coins.isPruned = false) : canonical coins = coins.cleanup := by
  simp [canonical, unspent]

@[simp] theorem canonical_empty : canonical {} = {} := rfl

@[simp] theorem isPruned_canonical (coins : CCoins) : (canonical coins).isPruned = coins.isPruned := by
  cases pruned : coins.isPruned with
  | true => simp [canonical_of_pruned pruned]
  | false => rw [canonical_of_unspent pruned, CCoins.isPruned_cleanup, pruned]

theorem canonical_idem (coins : CCoins) : canonical (canonical coins) = canonical coins := by
  cases pruned : coins.isPruned with
  | true => simp [canonical_of_pruned pruned]
  | false =>
    have unspent : coins.cleanup.isPruned = false := by rw [CCoins.isPruned_cleanup, pruned]
    rw [canonical_of_unspent pruned, canonical_of_unspent unspent, CCoins.clean_cleanup coins]

theorem cleanup_equiv_canonical (coins : CCoins) : coins.cleanup ≈ canonical coins := by
  cases pruned : coins.isPruned with
  | true => exact CCoins.equiv_of_pruned (by simpa using pruned) (by simpa using pruned)
  | false => exact CCoins.equiv_iff.mpr (.inr (canonical_of_unspent pruned).symm)

@[simp] theorem unspentOut_canonical (coins : CCoins) (nPos : Nat) :
    (canonical coins).unspentOut nPos = coins.unspentOut nPos := by
  cases pruned : coins.isPruned with
  | true => rw [canonical_of_pruned pruned, CCoins.unspentOut_of_pruned pruned]; rfl
  | false => rw [canonical_of_unspent pruned, CCoins.unspentOut_cleanup]

theorem canonical_eq_of_equiv {a b : CCoins} (same : a ≈ b) : canonical a = canonical b := by
  rcases same with ⟨first, second⟩ | rfl
  · rw [canonical_of_pruned first, canonical_of_pruned second]
  · rfl

end Longcoin.UtxoSet

namespace Longcoin
open Primitives Coins UtxoSet

@[ext] structure UtxoSet where
  coins : Uint256 → CCoins
  isCanonical : ∀ txid, canonical (coins txid) = coins txid

namespace UtxoSet

def empty : UtxoSet := { coins := fun _ => {}, isCanonical := fun _ => rfl }

def modify (utxo : UtxoSet) (txid : Uint256) (edit : CCoins → CCoins) : UtxoSet where
  coins := Function.update utxo.coins txid (canonical (edit (utxo.coins txid)))
  isCanonical other := by
    by_cases same : other = txid
    · subst same
      rw [Function.update_self, canonical_idem]
    · rw [Function.update_of_ne same, utxo.isCanonical]

@[simp] theorem modify_self (utxo : UtxoSet) (txid : Uint256) (edit : CCoins → CCoins) :
    (utxo.modify txid edit).coins txid = canonical (edit (utxo.coins txid)) := Function.update_self ..

theorem modify_of_ne (utxo : UtxoSet) {txid other : Uint256} (edit : CCoins → CCoins) (different : other ≠ txid) :
    (utxo.modify txid edit).coins other = utxo.coins other := Function.update_of_ne different ..

theorem coins_of_pruned (utxo : UtxoSet) {txid : Uint256} (pruned : (utxo.coins txid).isPruned = true) :
    utxo.coins txid = {} := by
  rw [← utxo.isCanonical, canonical_of_pruned pruned]

theorem coins_clean (utxo : UtxoSet) (txid : Uint256) : (utxo.coins txid).Clean := by
  cases pruned : (utxo.coins txid).isPruned with
  | true => rw [utxo.coins_of_pruned pruned]; exact CCoins.clean_empty
  | false =>
    rw [← utxo.isCanonical, canonical_of_unspent pruned]
    exact CCoins.clean_cleanup _

@[simp] theorem empty_coins (txid : Uint256) : empty.coins txid = {} := rfl

end UtxoSet

end Longcoin

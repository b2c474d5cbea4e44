import Longcoin.CoinsRefinement
import Longcoin.Library.Steps

/-! Whole histories of a stack of caches: any operations on the top layer, new layers
pushed and the top layer flushed, against the plain map that sees only the edits. -/

namespace Longcoin.CoinsRun
open Primitives Coins Library CoinsCache UtxoSet CoinsRefinement CCoins CCoinsView

inductive Op where
  | getCoins (txid : Uint256)
  | accessCoins (txid : Uint256)
  | haveCoins (txid : Uint256)
  | modifyCoins (txid : Uint256) (edit : CCoins → CCoins)
  | modifyNewCoins (txid : Uint256) (edit : CCoins → CCoins)
  | spend (txid : Uint256) (nPos : Nat)
  | uncache (txid : Uint256)
  | push
  | flush

/-- One operation on the top layer; the store below the last layer is never called directly. -/
def apply (view : CCoinsView) (op : Op) : CCoinsView :=
  match view with
  | .db store => .db store
  | .cache layer base =>
      match op with
      | .getCoins txid => ((CCoinsView.cache layer base).getCoins txid).2
      | .accessCoins txid => ((CCoinsView.cache layer base).accessCoins txid).2
      | .haveCoins txid => ((CCoinsView.cache layer base).haveCoins txid).2
      | .modifyCoins txid edit => .cache (modifyCoins layer base txid edit).1 (modifyCoins layer base txid edit).2
      | .modifyNewCoins txid edit => .cache (modifyNewCoins layer txid edit) base
      | .spend txid nPos =>
          .cache (modifyCoins layer base txid fun coins => (coins.spend nPos).2).1
            (modifyCoins layer base txid fun coins => (coins.spend nPos).2).2
      | .uncache txid => .cache (uncache layer txid) base
      | .push => .cache {} (.cache layer base)
      | .flush => .cache (flush layer base).1 (flush layer base).2

def applyFlat (utxo : UtxoSet) : Op → UtxoSet
  | .modifyCoins txid edit => utxo.modify txid edit
  | .modifyNewCoins txid edit => utxo.modify txid edit
  | .spend txid nPos => utxo.modify txid fun coins => (coins.spend nPos).2
  | _ => utxo

/-- What the BIP30 test gives a caller of `ModifyNewCoins`. -/
def Guarded (view : CCoinsView) (op : Op) : Prop :=
  match view, op with
  | .cache layer base, .modifyNewCoins txid _ =>
      (report (.cache layer base) txid).isPruned = true ∧ (report base txid).isPruned = true
  | _, _ => True

/-- The edit of an operation treats all records with nothing left alike. -/
def Blind : Op → Prop
  | .modifyCoins _ edit => PrunedBlind edit
  | _ => True

def GuardedStep (view : CCoinsView) (op : Op) (view' : CCoinsView) : Prop :=
  Guarded view op ∧ view' = apply view op

def BlindStep (view : CCoinsView) (op : Op) (view' : CCoinsView) : Prop :=
  GuardedStep view op view' ∧ Blind op

def start (store : CCoinsViewDB) : CCoinsView := .cache {} (.db store)

def ofStore (store : CCoinsViewDB) : UtxoSet where
  coins txid := canonical (answered (store.coins txid))
  isCanonical _ := canonical_idem _

/-- The coins a plain map ends with after the edits of a history. -/
def runFlat (utxo : UtxoSet) (ops : List Op) : UtxoSet := ops.foldl applyFlat utxo

theorem refines_start (store : CCoinsViewDB) : Refines (start store) (ofStore store) := by
  refine ⟨⟨fun txid entry hit => by simp at hit, trivial⟩, fun txid => ?_⟩
  change report (.db store) txid ≈ canonical (answered (store.coins txid))
  have clean := report_clean (.db store) txid
  change (answered (store.coins txid)).cleanup = _ at clean
  have same := cleanup_equiv_canonical (answered (store.coins txid))
  rwa [clean] at same

theorem spend_of_pruned {coins : CCoins} (pruned : coins.isPruned = true) (nPos : Nat) :
    coins.spend nPos = (false, coins) := by
  cases available : coins.isAvailable nPos with
  | false => simp [spend, available]
  | true => simp [isAvailable_isPruned available] at pruned

theorem spend_prunedBlind (nPos : Nat) : PrunedBlind fun coins => (coins.spend nPos).2 := by
  intro a b first second
  simp only [spend_of_pruned first, spend_of_pruned second]
  exact equiv_of_pruned first second

theorem refines_read {view : CCoinsView} {utxo : UtxoSet} (refines : Refines view utxo) (txid : Uint256) :
    Refines (view.getCoins txid).2 utxo := by
  obtain ⟨-, same, sound⟩ := getCoins_spec view refines.sound txid
  exact ⟨sound, fun other => by rw [same]; exact refines.agrees other⟩

theorem refines_apply {view : CCoinsView} {utxo : UtxoSet} (refines : Refines view utxo)
    (top : ∃ layer base, view = .cache layer base) (op : Op) (guarded : Guarded view op) (blind : Blind op) :
    Refines (apply view op) (applyFlat utxo op) := by
  obtain ⟨layer, base, rfl⟩ := top
  cases op with
  | getCoins txid => exact refines_read refines txid
  | accessCoins txid => exact refines_read refines txid
  | haveCoins txid =>
    simp only [apply, applyFlat, (haveCoins_spec refines.sound txid).2]
    exact refines_read refines txid
  | modifyCoins txid edit => exact refines_modifyCoins refines txid blind
  | modifyNewCoins txid edit => exact refines_modifyNewCoins refines txid edit guarded.1 guarded.2
  | spend txid nPos => exact refines_modifyCoins refines txid (spend_prunedBlind nPos)
  | uncache txid => exact refines_uncache refines txid
  | push => exact ⟨⟨fun txid entry hit => by simp at hit, refines.sound⟩, fun txid => refines.agrees txid⟩
  | flush => exact refines_flush refines

theorem getCoins_cache (layer : CCoinsViewCache) (base : CCoinsView) (txid : Uint256) :
    ∃ layer' base', ((cache layer base).getCoins txid).2 = .cache layer' base' := by
  simp only [getCoins]
  split
  · exact ⟨_, _, rfl⟩
  · split <;> exact ⟨_, _, rfl⟩

theorem apply_cache {view : CCoinsView} (top : ∃ layer base, view = .cache layer base) (op : Op) :
    ∃ layer base, apply view op = .cache layer base := by
  obtain ⟨layer, base, rfl⟩ := top
  cases op with
  | getCoins txid => exact getCoins_cache layer base txid
  | accessCoins txid => exact getCoins_cache layer base txid
  | haveCoins txid =>
    obtain ⟨layer', base', read⟩ := getCoins_cache layer base txid
    refine ⟨layer', base', ?_⟩
    rw [← read]
    simp only [apply, haveCoins]
    split <;> simp only [*]
  | _ => exact ⟨_, _, rfl⟩

theorem refines_steps {view last : CCoinsView} {utxo : UtxoSet} {ops : List Op}
    (run : Steps BlindStep view ops last) (refines : Refines view utxo) (top : ∃ layer base, view = .cache layer base) :
    Refines last (runFlat utxo ops) ∧ ∃ layer base, last = .cache layer base := by
  induction run generalizing utxo with
  | done view => exact ⟨refines, top⟩
  | more first rest ih =>
    obtain ⟨⟨guarded, rfl⟩, blind⟩ := first
    exact ih (refines_apply refines top _ guarded blind) (apply_cache top _)

/-- A stack of caches reports the plain map, answers `HaveCoins` from it, and leaves it in
the store once all layers are written down. -/
theorem stack_refines_plain_map (store : CCoinsViewDB) (ops : List Op) (view : CCoinsView)
    (run : Steps BlindStep (start store) ops view) (txid : Uint256) :
    answered (view.getCoins txid).1 ≈ (runFlat (ofStore store) ops).coins txid ∧
      answered (view.accessCoins txid).1 ≈ (runFlat (ofStore store) ops).coins txid ∧ ((view.haveCoins txid).1 = true ↔
        ∃ nPos, ((runFlat (ofStore store) ops).coins txid).isAvailable nPos = true) ∧
      answered (view.flushAll.coins txid) ≈ (runFlat (ofStore store) ops).coins txid := by
  obtain ⟨refines, layer, base, rfl⟩ := refines_steps run (refines_start store) ⟨{}, .db store, rfl⟩
  have read : answered ((cache layer base).getCoins txid).1 ≈ (runFlat (ofStore store) ops).coins txid := by
    rw [(getCoins_spec _ refines.sound txid).1]
    exact refines.agrees txid
  refine ⟨read, read, ?_, ?_⟩
  · rw [(haveCoins_spec refines.sound txid).1, equiv_isPruned (refines.agrees txid), Bool.not_eq_true']
    constructor
    · exact exists_isAvailable
    · rintro ⟨nPos, available⟩
      exact isAvailable_isPruned available
  · exact flushAll_agrees refines txid

/-! ## Where a plain map is not enough

A spent record keeps its header until it is flushed out of the last layer, and an edit can
read that header back. -/

def residueOut : CTxOut := { nValue := 7, scriptPubKey := [] }

def residueStore : CCoinsViewDB where
  coins txid := if txid = 1 then some (.of { vout := [residueOut], nHeight := 5 }) else none

def addOutput (coins : CCoins) : CCoins := { coins with vout := [residueOut] }

def layered : List Op := [.push, .modifyCoins 2 fun _ => { vout := [residueOut] }, .spend 1 0, .flush]

/-- A second layer edits one record, spends from another, and is flushed into the first. -/
theorem stack_refines_plain_map_flushed :
    answered ((layered.foldl apply (start residueStore)).flushAll.coins 2) ≈ (runFlat (ofStore residueStore) layered).coins 2 :=
  (stack_refines_plain_map residueStore layered _ (.more ⟨⟨trivial, rfl⟩, trivial⟩ (.more ⟨⟨trivial, rfl⟩, fun _ _ _ _ => Setoid.refl _⟩
    (.more ⟨⟨trivial, rfl⟩, trivial⟩ (.more ⟨⟨trivial, rfl⟩, trivial⟩ (.done _))))) 2).2.2.2

/-- Not every edit is seen alike by a stack and by a plain map: with the same edits, a stack that
was flushed in between and one that was not report different records. -/
theorem residue_is_visible : (¬ ∀ store ops view, Steps GuardedStep (start store) ops view →
      ∀ txid, report view txid ≈ (runFlat (ofStore store) ops).coins txid) ∧
    ¬ report (apply (apply (start residueStore) (.spend 1 0)) (.modifyCoins 1 addOutput)) 1 ≈
      report (apply (apply (apply (start residueStore) (.spend 1 0)) .flush) (.modifyCoins 1 addOutput)) 1 := by
  have kept : report (apply (apply (start residueStore) (.spend 1 0)) (.modifyCoins 1 addOutput)) 1 =
      { vout := [residueOut], nHeight := 5 } := by rfl
  have lost : report (apply (apply (apply (start residueStore) (.spend 1 0)) .flush) (.modifyCoins 1 addOutput)) 1 =
      { vout := [residueOut] } := by rfl
  have flat : (runFlat (ofStore residueStore) [.spend 1 0, .modifyCoins 1 addOutput]).coins 1 =
      { vout := [residueOut] } := by rfl
  constructor
  · intro agree
    have same := agree residueStore [.spend 1 0, .modifyCoins 1 addOutput] _
      (.more ⟨trivial, rfl⟩ (.more ⟨trivial, rfl⟩ (.done _))) 1
    rw [kept, flat, ← beq_iff_equiv] at same
    cases same
  · rw [kept, lost, ← beq_iff_equiv]
    decide

end Longcoin.CoinsRun

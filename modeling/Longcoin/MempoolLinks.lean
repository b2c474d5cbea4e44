import Longcoin.MempoolAncestors
import Longcoin.MempoolDescendants
import Longcoin.MempoolUpdate

/-! What adding and removing does to the links and the sums of a pool, entry by entry. -/

namespace Longcoin.Mempool
open Primitives Library FiniteMap CTxMemPoolEntry List

/-- What an entry is counted with in the sums of its ancestors: one, its size and its modified fee. -/
def CTxMemPoolEntry.weight (entry : CTxMemPoolEntry) : Int × Int × Int := (1, entry.nTxSize, entry.getModifiedFee)

/-- The count, size and fees of an entry with its descendants. -/
def CTxMemPoolEntry.sums (entry : CTxMemPoolEntry) : Int × Int × Int :=
  (entry.nCountWithDescendants, entry.nSizeWithDescendants, entry.nModFeesWithDescendants)

def CTxMemPoolEntry.withSums (entry : CTxMemPoolEntry) (sums : Int × Int × Int) : CTxMemPoolEntry :=
  { entry with nCountWithDescendants := sums.1, nSizeWithDescendants := sums.2.1, nModFeesWithDescendants := sums.2.2 }

def Lively (sums : Int × Int × Int) : Prop := 0 < sums.1 ∧ 0 < sums.2.1

section Entry

variable {entry : CTxMemPoolEntry} {sums change : Int × Int × Int}

@[simp] theorem withSums_tx : (entry.withSums sums).tx = entry.tx := rfl

@[simp] theorem withSums_nTxSize : (entry.withSums sums).nTxSize = entry.nTxSize := rfl

@[simp] theorem withSums_weight : (entry.withSums sums).weight = entry.weight := rfl

@[simp] theorem sums_withSums : (entry.withSums sums).sums = sums := rfl

@[simp] theorem withSums_sums : entry.withSums entry.sums = entry := rfl

theorem updateState_eq (now : Lively entry.sums) (after : Lively (entry.sums + change)) :
    entry.updateState change.2.1 change.2.2 change.1 = some (entry.withSums (entry.sums + change)) := by
  have clean : entry.isDirty = false := beq_eq_false_iff_ne.mpr (ne_of_gt now.1)
  rw [updateState, clean, if_neg Bool.false_ne_true, if_pos ⟨after.2, after.1⟩]
  rfl

end Entry

section Update

variable {pool : CTxMemPool} {order : Iteration}

theorem updateDescendantStates_eq {items : List Uint256} (distinct : items.Nodup) (change : Int × Int × Int)
    (each : ∀ it ∈ items, ∃ entry, pool.mapTx.find it = some entry ∧ Lively entry.sums ∧ Lively (entry.sums + change)) :
    items.foldlM (updateDescendantState change.2.1 change.2.2 change.1) pool =
      some { pool with mapTx := pool.mapTx.adjust fun key entry =>
        if key ∈ items then entry.withSums (entry.sums + change) else entry } := by
  induction items generalizing pool with
  | nil =>
    rw [foldlM_nil, adjust_eq_self fun key entry _ => if_neg not_mem_nil]
    rfl
  | cons it items ih =>
    obtain ⟨fresh, rest⟩ := nodup_cons.mp distinct
    obtain ⟨entry, found, now, after⟩ := each it mem_cons_self
    have first : updateDescendantState change.2.1 change.2.2 change.1 pool it =
        some { pool with mapTx := pool.mapTx.put it (entry.withSums (entry.sums + change)) } := by
      simp only [updateDescendantState, found, updateState_eq now after, bind, Option.bind, pure]
    rw [foldlM_cons, first, Option.bind_eq_bind, Option.bind_some, ih rest ?each]
    case each =>
      intro other member
      have different : other ≠ it := fun same => fresh (same ▸ member)
      rw [find_put_ne different]
      exact each other (mem_cons_of_mem _ member)
    rw [put_eq_adjust found, adjust_adjust]
    congr 2
    refine adjust_congr fun key value here => ?_
    by_cases same : key = it
    · subst same
      rw [found, Option.some.injEq] at here
      rw [if_pos rfl, if_neg fresh, if_pos mem_cons_self, here]
    · rw [if_neg same]
      simp only [mem_cons, same, false_or]

theorem updateChildren_eq {items : List Uint256} (distinct : items.Nodup) (child : Uint256) (add : Bool) (pool : CTxMemPool) :
    items.foldl (fun pool piter => updateChild pool piter child add) pool =
      { pool with mapLinks := pool.mapLinks.adjust fun key links => if key ∈ items then
          { links with children := if add then insert child links.children else links.children.erase child } else links } := by
  rw [← foldl_modify distinct]
  clear distinct
  induction items generalizing pool with
  | nil => rfl
  | cons it items ih => exact ih _

theorem updateParents_eq {items : List Uint256} (distinct : items.Nodup) (parent : Uint256) (add : Bool) (pool : CTxMemPool) :
    items.foldl (fun pool updateIt => updateParent pool updateIt parent add) pool =
      { pool with mapLinks := pool.mapLinks.adjust fun key links => if key ∈ items then
          { links with parents := if add then insert parent links.parents else links.parents.erase parent } else links } := by
  rw [← foldl_modify distinct]
  clear distinct
  induction items generalizing pool with
  | nil => rfl
  | cons it items ih => exact ih _

theorem updateAncestorsOf_eq {it : Uint256} {entry : CTxMemPoolEntry} {links : TxLinks} {add : Bool} {change : Int × Int × Int}
    (found : pool.mapTx.find it = some entry) (foundLinks : pool.mapLinks.find it = some links)
    (changed : change = if add then entry.weight else -entry.weight) (setAncestors : Finset Uint256)
    (each : ∀ other ∈ setAncestors, ∃ ancestor, pool.mapTx.find other = some ancestor ∧ Lively ancestor.sums ∧
      Lively (ancestor.sums + change)) :
    updateAncestorsOf order add pool it setAncestors = some { pool with
      mapLinks := pool.mapLinks.adjust fun key other => if key ∈ links.parents then
        { other with children := if add then insert it other.children else other.children.erase it } else other
      mapTx := pool.mapTx.adjust fun key ancestor => if key ∈ setAncestors then ancestor.withSums (ancestor.sums + change)
        else ancestor } := by
  have amounts : (if add then 1 else -1 : Int) * entry.nTxSize = change.2.1 ∧
      (if add then 1 else -1 : Int) * entry.getModifiedFee = change.2.2 ∧ (if add then 1 else -1 : Int) = change.1 := by
    rw [changed]
    cases add with
    | true => simp [weight]
    | false => simp [weight]
  simp only [updateAncestorsOf, found, foundLinks, bind, Option.bind]
  rw [amounts.1, amounts.2.1, amounts.2.2, updateChildren_eq (order.nodup _)]
  refine (updateDescendantStates_eq (order.nodup _) change ?_).trans ?_
  · exact fun other member => each other ((order.mem_list _ _).mp member)
  · simp only [order.mem_list]

end Update

end Longcoin.Mempool

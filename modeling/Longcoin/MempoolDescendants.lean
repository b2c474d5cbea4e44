import Longcoin.Mempool

/-! `CalculateDescendants` finds an entry and all its descendants. -/

namespace Longcoin.Mempool
open Primitives Library Finset

theorem poolChildren_subset (pool : CTxMemPool) (hash : Uint256) : poolChildren pool hash ⊆ pool.mapTx.keys := filter_subset _ _

variable {pool : CTxMemPool}

theorem mem_poolChildren {hash child : Uint256} : child ∈ poolChildren pool hash ↔ hash ∈ poolParents pool child := by
  rw [poolChildren, mem_filter, and_iff_right_iff_imp]
  intro parent
  by_contra missing
  rw [poolParents_missing missing] at parent
  exact notMem_empty _ parent

theorem Linked.children_eq (linked : Linked pool) {hash : Uint256} {links : TxLinks}
    (found : pool.mapLinks.find hash = some links) : links.children = poolChildren pool hash := by
  ext child
  rw [linked.children hash links child found, mem_poolChildren]

theorem descendantsLoop_spec (linked : Linked pool) (order : Iteration) {seeds : Finset Uint256}
    (inside : seeds ⊆ pool.mapTx.keys) {turns : Nat} {stage done : Finset Uint256}
    (frontier : Frontier (poolChildren pool) seeds stage done) (enough : (pool.mapTx.keys \ done).card < turns) :
    descendantsLoop order pool turns stage done = some (closure (poolChildren pool) pool.mapTx.keys seeds) := by
  have stays : ∀ hash ∈ pool.mapTx.keys, poolChildren pool hash ⊆ pool.mapTx.keys := fun hash _ => poolChildren_subset pool hash
  induction turns generalizing stage done with
  | zero => omega
  | succ turns ih =>
    rw [descendantsLoop]
    cases start : order.begin stage with
    | none =>
      have none := order.begin_none start
      subst none
      rw [frontier.finish_closure inside stays]
    | some it =>
      have member := order.begin_some start
      have inPool := (mem_closure.mp (frontier.subset_closure inside stays (mem_union_right _ member))).1
      obtain ⟨links, found⟩ := FiniteMap.find_of_mem (linked.keys ▸ inPool)
      simp only [found, bind, Option.bind]
      rw [linked.children_eq found]
      have fewer := frontier.fewer member inPool
      exact ih (frontier.turn member) (by omega)

/-- All the descendants in the pool of some entries, and these themselves. -/
noncomputable def descendantsOf (pool : CTxMemPool) (entries : Finset Uint256) : Finset Uint256 :=
  closure (poolChildren pool) pool.mapTx.keys entries

variable {entries : Finset Uint256}

theorem calculateDescendants_spec (linked : Linked pool) (order : Iteration) (inside : entries ⊆ pool.mapTx.keys)
    {entryit : Uint256} (inPool : entryit ∈ pool.mapTx.keys) :
    calculateDescendants order pool entryit (descendantsOf pool entries) = some (descendantsOf pool (insert entryit entries)) := by
  have stays : ∀ hash ∈ pool.mapTx.keys, poolChildren pool hash ⊆ pool.mapTx.keys := fun hash _ => poolChildren_subset pool hash
  have closed : ∀ hash ∈ descendantsOf pool entries, poolChildren pool hash ⊆ descendantsOf pool entries :=
    fun _ => closure_closed stays
  have fewer := card_le_card (sdiff_subset : pool.mapTx.keys \ descendantsOf pool entries ⊆ pool.mapTx.keys)
  rw [calculateDescendants, descendantsLoop_spec linked order
    (insert_subset inPool (closure_subset _ _ _)) (.resume closed entryit) (by omega)]
  exact congrArg some (closure_insert_closure inside entryit)

theorem calculateDescendants_fold (linked : Linked pool) (order : Iteration) {items : List Uint256}
    (inside : entries ⊆ pool.mapTx.keys) (inPool : ∀ hash ∈ items, hash ∈ pool.mapTx.keys) :
    items.foldlM (fun found it => calculateDescendants order pool it found) (descendantsOf pool entries) =
      some (descendantsOf pool (items.toFinset ∪ entries)) := by
  induction items generalizing entries with
  | nil =>
    rw [List.toFinset_nil, empty_union]
    rfl
  | cons it items ih =>
    have here := inPool it List.mem_cons_self
    rw [List.foldlM_cons, calculateDescendants_spec linked order inside here]
    have rest := ih (insert_subset here inside) (List.forall_mem_cons.mp inPool).2
    rw [union_insert, ← insert_union, ← List.toFinset_cons] at rest
    exact rest

theorem descendantsOf_empty (pool : CTxMemPool) : descendantsOf pool ∅ = ∅ := closure_empty _ _

/-- What an entry descends from is an ancestor of whatever the entry is an ancestor of. -/
theorem ancestor_of_descendant {seeds : Finset Uint256} {hash : Uint256} (descends : Reach (poolChildren pool) entries hash)
    (ancestor : Reach (poolParents pool) seeds hash) : ∃ entry ∈ entries, Reach (poolParents pool) seeds entry := by
  induction descends with
  | seed member => exact ⟨_, member, ancestor⟩
  | step before edge ih => exact ih (.step ancestor (mem_filter.mp edge).2)

end Longcoin.Mempool

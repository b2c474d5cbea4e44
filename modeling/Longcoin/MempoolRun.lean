import Longcoin.MempoolOperations

/-! What holds of the pool whatever happens to it, one event after another, from the empty pool on. -/

namespace Longcoin.Mempool
open Primitives Library Option Finset

inductive MempoolEvent where
  | addUnchecked (entry : CTxMemPoolEntry) (setAncestors : Finset Uint256)
  | remove (origTx : CTransaction) (fRecursive : Bool)
  | removeConflicts (tx : CTransaction)
  | removeForBlock (vtx : List CTransaction)
  | expire (time : Int)
  | trimToSize (sizelimit : Nat)
  | prioritiseTransaction (hash : Uint256) (nFeeDelta : Int)

/-- The pool after an event. Nothing where an assertion fails. -/
def CTxMemPool.next (order : Iteration) (memory : Memory) (pool : CTxMemPool) : MempoolEvent → Option CTxMemPool
  | .addUnchecked entry setAncestors => Mempool.addUnchecked order pool entry.tx.hash entry setAncestors
  | .remove origTx fRecursive => (Mempool.remove order pool origTx fRecursive).map Prod.fst
  | .removeConflicts tx => (Mempool.removeConflicts order pool tx).map Prod.fst
  | .removeForBlock vtx => (Mempool.removeForBlock order pool vtx).map Prod.fst
  | .expire time => (Mempool.expire order pool time).map Prod.fst
  | .trimToSize sizelimit => (Mempool.trimToSize order memory pool sizelimit).map Prod.fst
  | .prioritiseTransaction hash nFeeDelta => Mempool.prioritiseTransaction order pool hash nFeeDelta

/-- A delta is one that the amounts of the pool leave room for. -/
def Allowed (memory : Memory) (pool : CTxMemPool) : MempoolEvent → Prop
  | .addUnchecked entry setAncestors => Fresh pool entry ∧ setAncestors = ancestorsOf pool entry.tx
  | .trimToSize sizelimit => Attainable memory pool sizelimit
  | .prioritiseTransaction _ nFeeDelta => amounts pool + |nFeeDelta| < 2 ^ 63
  | .remove _ _ | .removeConflicts _ | .removeForBlock _ | .expire _ => True

/-- Nothing is removed without its descendants that two others are related through alone. -/
def Orderly (order : Iteration) (pool : CTxMemPool) : MempoolEvent → Prop
  | .remove origTx fRecursive => fRecursive = false → origTx.hash ∈ pool.mapTx.keys → Removable pool {origTx.hash}
  | .removeForBlock vtx => Separable order pool vtx
  | .addUnchecked _ _ | .removeConflicts _ | .expire _ | .trimToSize _ | .prioritiseTransaction _ _ => True

inductive Reached (order : Iteration) (memory : Memory) (kind : CTxMemPool → MempoolEvent → Prop) : CTxMemPool → Prop where
  | empty : Reached order memory kind {}
  | step {pool next : CTxMemPool} {event : MempoolEvent} (before : Reached order memory kind pool) (allowed : kind pool event)
      (runs : pool.next order memory event = some next) : Reached order memory kind next

theorem Reached.mono {order : Iteration} {memory : Memory} {kind more : CTxMemPool → MempoolEvent → Prop}
    (weaker : ∀ pool event, kind pool event → more pool event) {pool : CTxMemPool} (reached : Reached order memory kind pool) :
    Reached order memory more pool := by
  induction reached with
  | empty => exact .empty
  | step before allowed runs ih => exact .step ih (weaker _ _ allowed) runs

theorem exact_empty : Exact {} where
  claims := by
    refine ⟨fun outpoint inpoint => ?_, fun hash entry found => ?_⟩
    · rw [FiniteMap.find_empty]
      refine iff_of_false nofun ?_
      rintro ⟨entry, found, -⟩
      cases found
    · cases found
  linked := by
    refine ⟨fun hash entry found => ?_, rfl, fun hash links found => ?_, fun hash links child found => ?_⟩
    · cases found
    · cases found
    · cases found
  sums hash entry found := by cases found
  totalTxSize := rfl
  acyclic hash member := notMem_empty hash (closure_subset _ _ _ member)
  deltas hash entry found := by cases found
  distinct hash entry found := by cases found
  bounded := Nat.two_pow_pos 63
  modest := by decide

section Step

variable {order : Iteration} {memory : Memory} {pool : CTxMemPool}

theorem Exact.next (exact_ : Exact pool) {event : MempoolEvent} (allowed : Allowed memory pool event)
    (orderly : Orderly order pool event) : ∃ next, pool.next order memory event = some next ∧ Exact next := by
  cases event with
  | addUnchecked entry setAncestors =>
    obtain ⟨fresh, rfl⟩ := allowed
    obtain ⟨next, runs, added⟩ := exact_.addUnchecked_added order fresh
    exact ⟨next, runs, next_exact added fresh exact_⟩
  | remove origTx fRecursive =>
    obtain ⟨rest, removed, runs, kept, -⟩ := exact_.remove order origTx fRecursive orderly
    exact ⟨rest, by rw [CTxMemPool.next, runs, map_some], kept⟩
  | removeConflicts tx =>
    obtain ⟨rest, runs, kept, -⟩ := exact_.removeConflicts_fold order tx tx.vin []
    exact ⟨rest.1, by rw [CTxMemPool.next, removeConflicts, runs, map_some], kept⟩
  | removeForBlock vtx =>
    obtain ⟨rest, runs, kept, -⟩ := exact_.removeForBlock_fold order orderly []
    exact ⟨rest.1, by rw [CTxMemPool.next, removeForBlock, runs, map_some], kept⟩
  | expire time =>
    obtain ⟨rest, runs, kept, -⟩ := exact_.expire order time
    exact ⟨rest.1, by rw [CTxMemPool.next, runs, map_some], kept⟩
  | trimToSize sizelimit =>
    obtain ⟨rest, runs, kept⟩ := exact_.trimLoop order allowed (Nat.lt_succ_self _)
    exact ⟨rest.1, by rw [CTxMemPool.next, trimToSize, runs, map_some], kept⟩
  | prioritiseTransaction hash nFeeDelta => exact ⟨_, exact_.prioritise_eq order, exact_.reprioritised rfl allowed⟩

theorem Reached.exact_ (reached : Reached order memory (fun pool event => Allowed memory pool event ∧ Orderly order pool event) pool) :
    Exact pool := by
  induction reached with
  | empty => exact exact_empty
  | step _ allowed runs ih =>
    obtain ⟨next, same, kept⟩ := ih.next allowed.1 allowed.2
    obtain rfl := some.inj (same.symm.trans runs)
    exact kept

theorem Exact.abs_weightOf_le (exact_ : Exact pool) {set : Finset Uint256} (inside : set ⊆ pool.mapTx.keys) :
    |(∑ hash ∈ set, weightOf pool hash).2.2| ≤ amounts pool := by
  have each : ∀ hash ∈ pool.mapTx.keys, |(weightOf pool hash).2.2| ≤
      (pool.mapTx.find hash).elim 0 (fun entry => |entry.nFee|) + |(pool.mapDeltas.find hash).getD 0| := by
    intro hash member
    obtain ⟨entry, found⟩ := FiniteMap.find_of_mem member
    rw [weightOf_found found, found, elim_some, ← exact_.deltas hash entry found]
    exact abs_add_le _ _
  have deltas : ∑ hash ∈ pool.mapTx.keys, |(pool.mapDeltas.find hash).getD 0| ≤ pool.mapDeltas.sum fun delta => |delta| := by
    have only : ∑ hash ∈ pool.mapTx.keys, |(pool.mapDeltas.find hash).getD 0| =
        ∑ hash ∈ pool.mapTx.keys ∩ pool.mapDeltas.keys, (pool.mapDeltas.find hash).elim 0 fun delta => |delta| := by
      rw [← filter_mem_eq_inter, sum_filter]
      refine sum_congr rfl fun hash _ => ?_
      cases asked : pool.mapDeltas.find hash with
      | none => rw [if_neg (FiniteMap.find_eq_none.mp asked), getD_none, abs_zero]
      | some delta => rw [if_pos (FiniteMap.mem_of_find asked), getD_some, elim_some]
    rw [only]
    refine sum_le_sum_of_subset_of_nonneg inter_subset_right fun hash _ _ => ?_
    cases pool.mapDeltas.find hash with
    | none => exact le_refl 0
    | some delta => exact abs_nonneg delta
  calc |(∑ hash ∈ set, weightOf pool hash).2.2| = |∑ hash ∈ set, (weightOf pool hash).2.2| := by rw [Prod.snd_sum, Prod.snd_sum]
    _ ≤ ∑ hash ∈ set, |(weightOf pool hash).2.2| := abs_sum_le_sum_abs _ _
    _ ≤ ∑ hash ∈ pool.mapTx.keys, |(weightOf pool hash).2.2| := sum_le_sum_of_subset_of_nonneg inside fun _ _ _ => abs_nonneg _
    _ ≤ amounts pool := (sum_le_sum each).trans (by rw [sum_add_distrib]; exact add_le_add_right deltas _)

/-- Whatever happens to the pool, its graph is exact, no entry is dirty, its fees fit 64 bits and no assertion fails next, when
nothing is removed alone that two others are related through. -/
theorem graph_exact (reached : Reached order memory (fun pool event => Allowed memory pool event ∧ Orderly order pool event) pool) :
    GraphExact pool ∧ (∀ hash entry, pool.mapTx.find hash = some entry →
      entry.isDirty = false ∧ |entry.nModFeesWithDescendants| < 2 ^ 63) ∧
    ∀ event, Allowed memory pool event → Orderly order pool event → ∃ next, pool.next order memory event = some next := by
  have exact_ := reached.exact_
  refine ⟨exact_.graph, fun hash entry found => ?_, fun event allowed orderly => ?_⟩
  · have lively := lively_sum exact_.claims.sized (descendantsOf_subset pool {hash})
      (self_mem_descendantsOf (FiniteMap.mem_of_find found))
    have fits := exact_.abs_weightOf_le (descendantsOf_subset pool {hash})
    rw [← exact_.sums hash entry found] at lively fits
    exact ⟨beq_eq_false_iff_ne.mpr (ne_of_gt lively.1), fits.trans_lt exact_.modest⟩
  · obtain ⟨next, runs, -⟩ := exact_.next allowed orderly
    exact ⟨next, runs⟩

theorem remove_alone_iff (exact_ : Exact pool) {origTx : CTransaction} (inPool : origTx.hash ∈ pool.mapTx.keys) {rest : CTxMemPool}
    (runs : pool.next order memory (.remove origTx false) = some rest) : GraphExact rest ↔ Removable pool {origTx.hash} := by
  have stage : setAllRemoves order pool origTx false = some {origTx.hash} := by
    rw [setAllRemoves, txToRemove, if_pos ((pool.mapTx.mem_keys _).mp inPool)]
    rfl
  refine exact_.removeStaged_iff order (singleton_subset_iff.mpr inPool) ?_
  rw [CTxMemPool.next, Mempool.remove, stage, map_eq_some_iff] at runs
  obtain ⟨result, runs, rfl⟩ := runs
  obtain ⟨left, staged, same⟩ := bind_eq_some_iff.mp (show (removeStaged order pool {origTx.hash}).bind _ = some result from runs)
  obtain rfl := some.inj same
  exact staged

end Step

def sortedOrder : Iteration where
  list entries := Quot.liftOn entries.val (fun list => list.insertionSort (· ≤ ·))
    fun first second perm => List.Perm.eq_of_pairwise' (List.pairwise_insertionSort _ _) (List.pairwise_insertionSort _ _)
      ((List.perm_insertionSort _ _).trans (perm.trans (List.perm_insertionSort _ _).symm))
  mem_list := by
    rintro ⟨⟨list⟩, nodup⟩ hash
    exact List.mem_insertionSort _
  nodup := by
    rintro ⟨⟨list⟩, nodup⟩
    exact (List.perm_insertionSort _ _).nodup_iff.mpr nodup

def countedMemory : Memory where
  dynamicMemoryUsage pool := pool.mapTx.keys.card
  lowest pool := sortedOrder.begin pool.mapTx.keys
  lowest_some _ _ first := sortedOrder.begin_some first
  lowest_none _ none := sortedOrder.begin_none none

def chainEntry (hash parent : Uint256) : CTxMemPoolEntry :=
  { tx := { hash := hash, vin := [{ prevout := ⟨parent, 0⟩ }], vout := [⟨5, []⟩] }, nFee := 1, nTxSize := 100,
    nSizeWithDescendants := 100, nModFeesWithDescendants := 1 }

theorem chainEntry_fresh {pool : CTxMemPool} {hash parent : Uint256} (different : parent ≠ hash)
    (absent : pool.mapTx.find hash = none) (unclaimed : pool.mapNextTx.find ⟨parent, 0⟩ = none)
    (childless : ∀ outpoint ∈ pool.mapNextTx.keys, outpoint.hash ≠ hash)
    (bounded : ∑ hash ∈ pool.mapTx.keys, sizeOf pool hash + 100 < 2 ^ 63) (modest : amounts pool + 1 < 2 ^ 63) : Fresh pool (chainEntry hash parent) where
  absent := absent
  alone := ⟨rfl, rfl⟩
  sized := Nat.zero_lt_succ 99
  distinct := List.nodup_singleton _
  unclaimed txin member := by rwa [List.mem_singleton.mp member]
  childless outpoint inpoint claimed := childless outpoint (FiniteMap.mem_of_find claimed)
  foreign txin member := by rwa [List.mem_singleton.mp member]
  bounded := bounded
  modest := modest

/-- The pool with the first transaction, with the first two, and with all three of a chain. -/
def poolOfOne : CTxMemPool := (addUnchecked sortedOrder {} 1 (chainEntry 1 9) ∅).get rfl

def poolOfTwo : CTxMemPool := (addUnchecked sortedOrder poolOfOne 2 (chainEntry 2 1) {1}).get rfl

def poolOfThree : CTxMemPool := (addUnchecked sortedOrder poolOfTwo 3 (chainEntry 3 2) {1, 2}).get rfl

def ReachedOrderly (pool : CTxMemPool) : Prop :=
  Reached sortedOrder countedMemory (fun pool event => Allowed countedMemory pool event ∧ Orderly sortedOrder pool event) pool

theorem ReachedOrderly.add {pool next : CTxMemPool} (reached : ReachedOrderly pool) {entry : CTxMemPoolEntry} (fresh : Fresh pool entry)
    {setAncestors : Finset Uint256} (accepted : calculateMemPoolAncestors sortedOrder pool (pool.mapTx.keys.card + 1) entry noLimits true =
      some (.ok setAncestors)) (runs : addUnchecked sortedOrder pool entry.tx.hash entry setAncestors = some next) : ReachedOrderly next :=
  @Reached.step _ _ _ _ _ (.addUnchecked entry setAncestors) reached
    ⟨⟨fresh, ancestors_of_accepted reached.exact_.linked accepted⟩, trivial⟩ runs

theorem poolOfOne_reached : ReachedOrderly poolOfOne := by
  refine ReachedOrderly.add .empty (chainEntry_fresh (by decide) rfl rfl (by decide) (by decide) (by decide)) ?_ (some_get _).symm
  rfl

theorem poolOfTwo_reached : ReachedOrderly poolOfTwo := by
  refine poolOfOne_reached.add (chainEntry_fresh (by decide) rfl rfl (by decide) (by decide) (by decide)) ?_ (some_get _).symm
  rfl

theorem poolOfThree_reached : ReachedOrderly poolOfThree := by
  refine poolOfTwo_reached.add (chainEntry_fresh (by decide) rfl rfl (by decide) (by decide) (by decide)) ?_ (some_get _).symm
  rfl

theorem graph_exact_chain : GraphExact poolOfThree := (graph_exact poolOfThree_reached).1

theorem middle_not_removable : ¬ Removable poolOfThree {2} := by
  have last : poolParents poolOfThree 3 = {2} := by decide
  have middle : poolParents poolOfThree 2 = {1} := by decide
  have inPool : (1 : Uint256) ∈ poolOfThree.mapTx.keys := by decide
  have ancestor : 1 ∈ entryAncestors poolOfThree 3 := by
    refine mem_closure.mpr ⟨inPool, .step (@Reach.seed _ _ _ 2 ?_) ?_⟩
    · rw [last]
      exact mem_singleton_self _
    · rw [middle]
      exact mem_singleton_self _
  intro removable
  have reach := removable 3 1 (by decide) (by decide) ancestor
  rw [last, sdiff_self] at reach
  exact notMem_empty _ (reach.inside (Subset.refl _) fun key member => absurd member (notMem_empty _))

/-- Without the one in the middle the first still counts the last as a descendant. -/
theorem middle_removed_alone : ¬ ∀ (order : Iteration) (memory : Memory) (pool : CTxMemPool),
    Reached order memory (fun pool event => Allowed memory pool event) pool → GraphExact pool := by
  intro every
  have reached : Reached sortedOrder countedMemory (fun pool event => Allowed countedMemory pool event) poolOfThree :=
    poolOfThree_reached.mono fun _ _ both => both.1
  obtain ⟨rest, runs⟩ : ∃ rest, poolOfThree.next sortedOrder countedMemory (.remove (chainEntry 2 1).tx false) = some rest :=
    isSome_iff_exists.mp rfl
  have graph := every sortedOrder countedMemory rest (@Reached.step _ _ _ _ _ (.remove (chainEntry 2 1).tx false) reached trivial runs)
  exact middle_not_removable ((remove_alone_iff poolOfThree_reached.exact_ (by decide) runs).mp graph)

/-- Nothing is removed alone but the transactions of a block that has their parents before them. -/
def Ordinary (pool : CTxMemPool) : MempoolEvent → Prop
  | .remove _ fRecursive => fRecursive = true
  | .removeForBlock vtx => ParentsFirst pool vtx
  | _ => True

theorem Exact.orderly {order : Iteration} {pool : CTxMemPool} (exact_ : Exact pool) {event : MempoolEvent}
    (ordinary : Ordinary pool event) : Orderly order pool event := by
  cases event with
  | remove origTx fRecursive => exact fun alone => absurd (alone.symm.trans ordinary) Bool.false_ne_true
  | removeForBlock vtx => exact exact_.separable order ordinary
  | _ => trivial

/-- Blocks that come with the parents first leave the graph of every pool exact, and no assertion fails. -/
theorem ordinary_graph_exact {order : Iteration} {memory : Memory} {pool : CTxMemPool}
    (reached : Reached order memory (fun pool event => Allowed memory pool event ∧ Ordinary pool event) pool) :
    GraphExact pool ∧ ∀ event, Allowed memory pool event → Ordinary pool event →
      ∃ next, pool.next order memory event = some next ∧ GraphExact next := by
  have exact_ : Exact pool := by
    induction reached with
    | empty => exact exact_empty
    | step _ allowed runs ih =>
      obtain ⟨next, same, kept⟩ := ih.next allowed.1 (ih.orderly allowed.2)
      obtain rfl := some.inj (same.symm.trans runs)
      exact kept
  refine ⟨exact_.graph, fun event allowed ordinary => ?_⟩
  obtain ⟨next, runs, kept⟩ := exact_.next allowed (exact_.orderly ordinary)
  exact ⟨next, runs, kept.graph⟩

theorem ordinary_graph_exact_one : ∃ next, poolOfOne.next sortedOrder countedMemory (.removeForBlock [(chainEntry 1 9).tx]) = some next ∧
    GraphExact next := by
  have fresh : Fresh {} (chainEntry 1 9) := chainEntry_fresh (by decide) rfl rfl (by decide) (by decide) (by decide)
  refine (ordinary_graph_exact (@Reached.step _ _ _ _ _ (.addUnchecked (chainEntry 1 9) ∅) .empty
    ⟨⟨fresh, ?_⟩, trivial⟩ (some_get _).symm)).2 _ trivial fun front tx back split parent member => ?_
  · exact (subset_empty.mp (closure_subset _ _ _)).symm
  · cases front with
    | nil =>
      cases split
      exact absurd member (eq_empty_iff_forall_notMem.mp (by decide : poolParents poolOfOne 1 = ∅) parent)
    | cons first front => cases front <;> cases split

end Longcoin.Mempool

import Longcoin.MempoolGraph

/-! A new entry comes into the pool (`addUnchecked`). -/

namespace Longcoin.Mempool
open Primitives Library FiniteMap List Option Finset

/-- A transaction that can be added: a new one without children in the pool, whose inputs nothing else claims, with the sums of
an entry alone. -/
structure Fresh (pool : CTxMemPool) (entry : CTxMemPoolEntry) : Prop where
  absent : pool.mapTx.find entry.tx.hash = none
  alone : entry.feeDelta = 0 ∧ entry.sums = (1, (entry.nTxSize : Int), entry.nFee)
  sized : 0 < entry.nTxSize
  distinct : (entry.tx.vin.map fun txin => txin.prevout).Nodup
  unclaimed : ∀ txin ∈ entry.tx.vin, pool.mapNextTx.find txin.prevout = none
  childless : ∀ outpoint inpoint, pool.mapNextTx.find outpoint = some inpoint → outpoint.hash ≠ entry.tx.hash
  foreign : ∀ txin ∈ entry.tx.vin, txin.prevout.hash ≠ entry.tx.hash
  bounded : ∑ hash ∈ pool.mapTx.keys, sizeOf pool hash + entry.nTxSize < 2 ^ 63
  modest : amounts pool + |entry.nFee| < 2 ^ 63

/-- The entry with the fee delta that was asked for before it came. -/
def prioritised (pool : CTxMemPool) (entry : CTxMemPoolEntry) : CTxMemPoolEntry :=
  entry.updateFeeDelta ((pool.mapDeltas.find entry.tx.hash).getD 0)

structure Added (pool : CTxMemPool) (entry : CTxMemPoolEntry) (next : CTxMemPool) : Prop where
  mapTx : ∀ key, next.mapTx.find key = if key = entry.tx.hash then some (prioritised pool entry) else
    (pool.mapTx.find key).map fun old =>
      if key ∈ ancestorsOf pool entry.tx then old.withSums (old.sums + (prioritised pool entry).weight) else old
  mapLinks : ∀ key, next.mapLinks.find key = if key = entry.tx.hash then some ⟨parentsOf pool entry.tx, ∅⟩ else
    (pool.mapLinks.find key).map fun links =>
      if key ∈ parentsOf pool entry.tx then { links with children := insert entry.tx.hash links.children } else links
  mapNextTx : next.mapNextTx =
    entry.tx.vin.zipIdx.foldl (fun map input => map.put input.1.prevout ⟨entry.tx, input.2⟩) pool.mapNextTx
  mapDeltas : next.mapDeltas = pool.mapDeltas
  totalTxSize : next.totalTxSize = pool.totalTxSize + entry.nTxSize

section Pool

variable {pool : CTxMemPool}

theorem addParents_fold (items : List Uint256) (it : Uint256) :
    items.foldl (fun pool phash => if (pool.mapTx.find phash).isSome then updateParent pool it phash true else pool) pool =
      { pool with mapLinks := pool.mapLinks.modify it fun links =>
          { links with parents := items.toFinset ∩ pool.mapTx.keys ∪ links.parents } } := by
  induction items generalizing pool with
  | nil =>
    have same : (pool.mapLinks.modify it fun links => { links with parents := ∅ ∪ links.parents }) = pool.mapLinks := by
      rw [modify_eq_adjust]
      refine adjust_eq_self fun key links _ => ?_
      rw [empty_union, ite_self]
    rw [toFinset_nil, empty_inter, same]
    rfl
  | cons phash items ih =>
    rw [foldl_cons, ih, toFinset_cons]
    by_cases inPool : phash ∈ pool.mapTx.keys
    · rw [if_pos ((pool.mapTx.mem_keys phash).mp inPool), insert_inter_of_mem inPool]
      have same : (updateParent pool it phash true).mapLinks.modify it (fun links =>
          { links with parents := items.toFinset ∩ pool.mapTx.keys ∪ links.parents }) = pool.mapLinks.modify it fun links =>
          { links with parents := insert phash (items.toFinset ∩ pool.mapTx.keys) ∪ links.parents } := by
        rw [updateParent, modify_eq_adjust, modify_eq_adjust, modify_eq_adjust, adjust_adjust]
        refine adjust_congr fun key links _ => ?_
        by_cases here : key = it
        · rw [if_pos here, if_pos here, if_pos here, if_pos rfl, union_insert, insert_union]
        · rw [if_neg here, if_neg here, if_neg here]
      rw [← same]
      rfl
    · rw [if_neg fun found => inPool ((pool.mapTx.mem_keys phash).mpr found), insert_inter_of_notMem inPool]

theorem Fresh.alone_prioritised {entry : CTxMemPoolEntry} (fresh : Fresh pool entry) :
    (prioritised pool entry).sums = (prioritised pool entry).weight := by
  obtain ⟨noDelta, sums⟩ := fresh.alone
  simp only [CTxMemPoolEntry.sums, Prod.mk.injEq] at sums
  simp only [prioritised, CTxMemPoolEntry.updateFeeDelta, CTxMemPoolEntry.sums, CTxMemPoolEntry.weight,
    CTxMemPoolEntry.getModifiedFee, sums.1, sums.2.1, sums.2.2, noDelta, sub_zero]

theorem Fresh.spent {entry : CTxMemPoolEntry} (fresh : Fresh pool entry) (order : Iteration) :
    (order.list (entry.tx.vin.map fun txin => txin.prevout.hash).toFinset).toFinset ∩ insert entry.tx.hash pool.mapTx.keys =
      parentsOf pool entry.tx := by
  ext parent
  rw [Finset.mem_inter, List.mem_toFinset, order.mem_list, List.mem_toFinset, List.mem_map, Finset.mem_insert, parentsOf,
    mem_parentsIn, and_comm]
  constructor
  · rintro ⟨rfl | inPool, spends⟩
    · obtain ⟨txin, member, own⟩ := spends
      exact absurd own (fresh.foreign txin member)
    · exact ⟨inPool, spends⟩
  · rintro ⟨inPool, spends⟩
    exact ⟨.inr inPool, spends⟩

/-- The pool with the new entry and its links to its parents. -/
def entered (pool : CTxMemPool) (entry : CTxMemPoolEntry) : CTxMemPool :=
  { pool with
    mapTx := pool.mapTx.put entry.tx.hash (prioritised pool entry)
    mapLinks := pool.mapLinks.put entry.tx.hash ⟨parentsOf pool entry.tx, ∅⟩
    mapNextTx := entry.tx.vin.zipIdx.foldl (fun map input => map.put input.1.prevout ⟨entry.tx, input.2⟩) pool.mapNextTx }

theorem Exact.addUnchecked_entered (exact_ : Exact pool) (order : Iteration) {entry : CTxMemPoolEntry} (fresh : Fresh pool entry)
    (setAncestors : Finset Uint256) : addUnchecked order pool entry.tx.hash entry setAncestors =
      (updateAncestorsOf order true (entered pool entry) entry.tx.hash setAncestors).map fun next =>
        { next with totalTxSize := next.totalTxSize + entry.nTxSize } := by
  have noLinks : pool.mapLinks.find entry.tx.hash = none := by
    rw [find_eq_none, exact_.linked.keys]
    exact find_eq_none.mp fresh.absent
  have unchanged : entry.updateFeeDelta 0 = entry := by
    rw [CTxMemPoolEntry.updateFeeDelta, fresh.alone.1, sub_self, add_zero, ← fresh.alone.1]
  have links : (pool.mapLinks.put entry.tx.hash {}).modify entry.tx.hash (fun links =>
      { links with parents := parentsOf pool entry.tx ∪ links.parents }) =
      pool.mapLinks.put entry.tx.hash ⟨parentsOf pool entry.tx, ∅⟩ := by
    rw [modify_put, union_empty]
  have reaches (mapTx : FiniteMap Uint256 CTxMemPoolEntry) (same : mapTx = pool.mapTx.put entry.tx.hash (prioritised pool entry)) :
      (order.list (entry.tx.vin.map fun txin => txin.prevout.hash).toFinset).foldl
        (fun pool phash => if (pool.mapTx.find phash).isSome then updateParent pool entry.tx.hash phash true else pool)
        { pool with
          mapTx := mapTx
          mapLinks := pool.mapLinks.put entry.tx.hash {}
          mapNextTx := entry.tx.vin.zipIdx.foldl (fun map input => map.put input.1.prevout ⟨entry.tx, input.2⟩) pool.mapNextTx } =
        entered pool entry := by
    have keys : (pool.mapTx.put entry.tx.hash (prioritised pool entry)).keys = insert entry.tx.hash pool.mapTx.keys := rfl
    rw [addParents_fold, same, keys, fresh.spent order, links]
    rfl
  simp only [addUnchecked, insertNew_absent noLinks, insertNew_absent fresh.absent]
  rw [reaches]
  · cases updateAncestorsOf order true (entered pool entry) entry.tx.hash setAncestors with
    | none => rfl
    | some next => rfl
  · rw [prioritised]
    cases requested : pool.mapDeltas.find entry.tx.hash with
    | none => rw [getD_none, unchanged]
    | some delta =>
      by_cases zero : delta = 0
      · rw [getD_some, zero, unchanged]
        exact if_neg (not_not_intro rfl)
      · exact (if_pos zero).trans (modify_put _ _ _ _)

theorem Exact.addUnchecked_added (exact_ : Exact pool) (order : Iteration) {entry : CTxMemPoolEntry} (fresh : Fresh pool entry) :
    ∃ next, addUnchecked order pool entry.tx.hash entry (ancestorsOf pool entry.tx) = some next ∧ Added pool entry next := by
  have above : ∀ other ∈ ancestorsOf pool entry.tx, other ≠ entry.tx.hash ∧ ∃ ancestor, pool.mapTx.find other = some ancestor ∧
      Lively ancestor.sums ∧ Lively (ancestor.sums + (prioritised pool entry).weight) := by
    intro other member
    have inPool := (mem_closure.mp member).1
    obtain ⟨ancestor, found⟩ := find_of_mem inPool
    have lively := lively_sum exact_.claims.sized (descendantsOf_subset pool {other}) (self_mem_descendantsOf inPool)
    rw [← exact_.sums other ancestor found] at lively
    refine ⟨?_, ancestor, found, lively, ?_, ?_⟩
    · rintro rfl
      exact find_eq_none.mp fresh.absent inPool
    · exact Int.add_pos_of_pos_of_nonneg lively.1 Int.one_nonneg
    · exact Int.add_pos_of_pos_of_nonneg lively.2 (Int.natCast_nonneg _)
  have ancestors := @updateAncestorsOf_eq (entered pool entry) order entry.tx.hash (prioritised pool entry)
    ⟨parentsOf pool entry.tx, ∅⟩ true _ (find_put_self _ _ _) (find_put_self _ _ _) rfl (ancestorsOf pool entry.tx)
    fun other member => by
      obtain ⟨different, ancestor, found, lively⟩ := above other member
      exact ⟨ancestor, (find_put_ne different).trans found, lively⟩
  rw [exact_.addUnchecked_entered order fresh, ancestors]
  refine ⟨_, rfl, fun key => ?_, fun key => ?_, rfl, rfl, rfl⟩
  · rw [find_adjust, entered, find_put]
    by_cases same : key = entry.tx.hash
    · rw [if_pos same, if_pos same, map_some, if_neg fun member => (above key member).1 same]
    · rw [if_neg same, if_neg same]
      rfl
  · rw [find_adjust, entered, find_put]
    by_cases same : key = entry.tx.hash
    · have foreign : key ∉ parentsOf pool entry.tx :=
        fun member => find_eq_none.mp fresh.absent (same ▸ parentsOf_subset pool entry.tx member)
      rw [if_pos same, if_pos same, map_some, if_neg foreign]
    · rw [if_neg same, if_neg same]
      rfl

section Next

variable {entry : CTxMemPoolEntry} {next : CTxMemPool} (added : Added pool entry next)
include added

theorem next_keys : next.mapTx.keys = insert entry.tx.hash pool.mapTx.keys := by
  ext key
  rw [next.mapTx.mem_keys, added.mapTx, mem_insert, pool.mapTx.mem_keys]
  by_cases same : key = entry.tx.hash
  · simp [same]
  · simp [same]

theorem next_own : next.mapTx.find entry.tx.hash = some (prioritised pool entry) := by rw [added.mapTx, if_pos rfl]

theorem next_found {key : Uint256} {old : CTxMemPoolEntry} (fresh : Fresh pool entry) (found : pool.mapTx.find key = some old) :
    key ≠ entry.tx.hash ∧ next.mapTx.find key = some (if key ∈ ancestorsOf pool entry.tx then
      old.withSums (old.sums + (prioritised pool entry).weight) else old) := by
  have different : key ≠ entry.tx.hash := by
    rintro rfl
    rw [fresh.absent] at found
    cases found
  refine ⟨different, ?_⟩
  rw [added.mapTx, if_neg different, found, map_some]

theorem next_cases {key : Uint256} {found : CTxMemPoolEntry} (here : next.mapTx.find key = some found) :
    key = entry.tx.hash ∧ found = prioritised pool entry ∨ key ≠ entry.tx.hash ∧ ∃ old, pool.mapTx.find key = some old ∧
      found = if key ∈ ancestorsOf pool entry.tx then old.withSums (old.sums + (prioritised pool entry).weight) else old := by
  rw [added.mapTx] at here
  by_cases same : key = entry.tx.hash
  · rw [if_pos same, some.injEq] at here
    exact .inl ⟨same, here.symm⟩
  · rw [if_neg same, map_eq_some_iff] at here
    obtain ⟨old, found, equal⟩ := here
    exact .inr ⟨same, old, found, equal.symm⟩

theorem next_parents (fresh : Fresh pool entry) (claims : Claims pool)
    (keyed : ∀ hash entry, pool.mapTx.find hash = some entry → entry.tx.hash = hash) (key : Uint256) :
    poolParents next key = if key = entry.tx.hash then parentsOf pool entry.tx else poolParents pool key := by
  have same {tx : CTransaction} (foreign : ∀ txin ∈ tx.vin, txin.prevout.hash ≠ entry.tx.hash) : parentsOf next tx = parentsOf pool tx := by
    ext parent
    rw [parentsOf, mem_parentsIn, parentsOf, mem_parentsIn, next_keys added, mem_insert]
    refine and_congr_left fun spends => or_iff_right ?_
    obtain ⟨txin, member, own⟩ := spends
    rintro rfl
    exact foreign txin member own
  cases here : next.mapTx.find key with
  | none =>
    have missing := find_eq_none.mp here
    rw [poolParents_missing missing]
    rw [next_keys added, mem_insert, not_or] at missing
    rw [if_neg missing.1, poolParents_missing missing.2]
  | some found =>
    rw [poolParents_found here]
    rcases next_cases added here with ⟨own, rfl⟩ | ⟨different, old, there, rfl⟩
    · rw [if_pos own]
      exact same fresh.foreign
    · have tx : (if key ∈ ancestorsOf pool entry.tx then old.withSums (old.sums + (prioritised pool entry).weight) else old).tx = old.tx := by
        split <;> rfl
      rw [if_neg different, poolParents_found there, tx]
      refine same fun txin member own => ?_
      obtain ⟨inpoint, claimed, -⟩ := claims.of_spends keyed ⟨old, there, mem_map.mpr ⟨txin, member, rfl⟩⟩
      exact fresh.childless _ _ claimed own

theorem next_ancestors (fresh : Fresh pool entry) (exact_ : Exact pool) (key : Uint256) :
    entryAncestors next key = if key = entry.tx.hash then ancestorsOf pool entry.tx else entryAncestors pool key := by
  have parents := next_parents added fresh exact_.claims exact_.linked.keyed
  have same {seeds : Finset Uint256} (inside : seeds ⊆ pool.mapTx.keys) :
      closure (poolParents next) next.mapTx.keys seeds = closure (poolParents pool) pool.mapTx.keys seeds := by
    refine closure_congr ?_ (fun hash member => ?_) (fun hash _ => poolParents_subset pool hash) inside
    · rw [next_keys added]
      exact subset_insert _ _
    · rw [parents, if_neg]
      rintro rfl
      exact find_eq_none.mp fresh.absent member
  rw [entryAncestors, parents]
  split
  · exact same (parentsOf_subset pool entry.tx)
  · exact same (poolParents_subset pool key)

theorem next_weightOf_own : weightOf next entry.tx.hash = (prioritised pool entry).weight := weightOf_found (next_own added)

theorem next_sizeOf_own : sizeOf next entry.tx.hash = entry.nTxSize := by
  rw [sizeOf_found (next_own added)]
  rfl

theorem next_weightOf (fresh : Fresh pool entry) {key : Uint256} (inPool : key ∈ pool.mapTx.keys) :
    weightOf next key = weightOf pool key := by
  obtain ⟨old, found⟩ := find_of_mem inPool
  rw [weightOf_found (next_found added fresh found).2, weightOf_found found]
  split <;> rfl

theorem next_sizeOf (fresh : Fresh pool entry) {key : Uint256} (inPool : key ∈ pool.mapTx.keys) : sizeOf next key = sizeOf pool key := by
  obtain ⟨old, found⟩ := find_of_mem inPool
  rw [sizeOf_found (next_found added fresh found).2, sizeOf_found found]
  split <;> rfl

section

variable (fresh : Fresh pool entry) (exact_ : Exact pool)
include fresh exact_

theorem next_descendants {key : Uint256} (inPool : key ∈ pool.mapTx.keys) :
    descendantsOf next {key} = if key ∈ ancestorsOf pool entry.tx then insert entry.tx.hash (descendantsOf pool {key})
      else descendantsOf pool {key} := by
  have absent := find_eq_none.mp fresh.absent
  have inside : key ∈ next.mapTx.keys := by
    rw [next_keys added]
    exact mem_insert_of_mem inPool
  have different : entry.tx.hash ≠ key := fun same => absent (same ▸ inPool)
  ext other
  rw [mem_descendantsOf inside, next_ancestors added fresh exact_, next_keys added, mem_insert]
  by_cases own : other = entry.tx.hash
  · subst own
    have foreign : entry.tx.hash ∉ descendantsOf pool {key} := fun member => absent (descendantsOf_subset pool _ member)
    rw [if_pos rfl]
    split
    · next ancestor => simp [ancestor]
    · next stranger => simp [stranger, different, foreign]
  · rw [if_neg own]
    have old := @mem_descendantsOf pool key other inPool
    split
    · rw [mem_insert, or_iff_right own, or_iff_right own, old]
    · rw [or_iff_right own, old]

theorem next_descendants_own : descendantsOf next {entry.tx.hash} = {entry.tx.hash} := by
  have absent := find_eq_none.mp fresh.absent
  have inside : entry.tx.hash ∈ next.mapTx.keys := mem_of_find (next_own added)
  ext other
  rw [mem_descendantsOf inside, next_ancestors added fresh exact_, Finset.mem_singleton]
  constructor
  · rintro ⟨-, own | ancestor⟩
    · exact own
    · split at ancestor
      · next own => exact own
      · exact absurd (mem_closure.mp ancestor).1 absent
  · rintro rfl
    exact ⟨inside, .inl rfl⟩

theorem next_claims : Claims next where
  nextTx outpoint inpoint := by
    have distinct : (entry.tx.vin.zipIdx.map fun input => input.1.prevout).Nodup := by
      have same : (entry.tx.vin.zipIdx.map fun input => input.1.prevout) = entry.tx.vin.map fun txin => txin.prevout := by
        conv_rhs => rw [← List.zipIdx_map_fst 0 entry.tx.vin, List.map_map]
        rfl
      rw [same]
      exact fresh.distinct
    rw [added.mapNextTx, find_foldl_put (fun input : CTxIn × Nat => input.1.prevout)
      (fun input => (⟨entry.tx, input.2⟩ : CInPoint)) distinct]
    constructor
    · rintro (⟨⟨txin, n⟩, member, rfl, rfl⟩ | ⟨-, claimed⟩)
      · refine ⟨_, next_own added, rfl, ?_⟩
        rw [mem_zipIdx_iff_getElem?.mp member, map_some]
      · obtain ⟨old, found, same, at'⟩ := (exact_.claims.nextTx _ _).mp claimed
        refine ⟨_, (next_found added fresh found).2, ?_, at'⟩
        rw [← same]
        split <;> rfl
    · rintro ⟨found, here, same, at'⟩
      rcases next_cases added here with ⟨own, rfl⟩ | ⟨different, old, there, rfl⟩
      · obtain ⟨txin, spends, equal⟩ := map_eq_some_iff.mp at'
        change entry.tx = inpoint.ptx at same
        refine .inl ⟨(txin, inpoint.n), ?_, equal, ?_⟩
        · rw [mem_zipIdx_iff_getElem?, same]
          exact spends
        · rw [same]
      · have tx : old.tx = inpoint.ptx := by
          rw [← same]
          split <;> rfl
        have claimed := (exact_.claims.nextTx outpoint inpoint).mpr ⟨old, there, tx, at'⟩
        refine .inr ⟨fun member => ?_, claimed⟩
        obtain ⟨⟨txin, n⟩, inside, rfl⟩ := mem_map.mp member
        rw [fresh.unclaimed txin (fst_mem_of_mem_zipIdx inside)] at claimed
        cases claimed
  sized key found here := by
    rcases next_cases added here with ⟨-, rfl⟩ | ⟨-, old, there, rfl⟩
    · exact fresh.sized
    · split
      · exact exact_.claims.sized key old there
      · exact exact_.claims.sized key old there

theorem next_linked : Linked next where
  keyed key found here := by
    rcases next_cases added here with ⟨own, rfl⟩ | ⟨-, old, there, rfl⟩
    · exact own.symm
    · have keyed := exact_.linked.keyed key old there
      split <;> exact keyed
  keys := by
    ext key
    rw [next.mapLinks.mem_keys, added.mapLinks, next_keys added, mem_insert, ← exact_.linked.keys, pool.mapLinks.mem_keys]
    by_cases own : key = entry.tx.hash
    · simp [own]
    · simp [own]
  parents key links found := by
    rw [added.mapLinks] at found
    rw [next_parents added fresh exact_.claims exact_.linked.keyed]
    by_cases own : key = entry.tx.hash
    · rw [if_pos own, some.injEq] at found
      rw [if_pos own, ← found]
    · rw [if_neg own, map_eq_some_iff] at found
      obtain ⟨old, there, rfl⟩ := found
      have parents := exact_.linked.parents key old there
      rw [if_neg own]
      split <;> exact parents
  children key links child found := by
    have absent := find_eq_none.mp fresh.absent
    have orphan (hash : Uint256) : entry.tx.hash ∉ poolParents pool hash := fun member => absent (poolParents_subset pool hash member)
    rw [added.mapLinks] at found
    rw [next_parents added fresh exact_.claims exact_.linked.keyed]
    by_cases own : key = entry.tx.hash
    · rw [if_pos own, some.injEq] at found
      rw [← found, own]
      refine iff_of_false (notMem_empty _) fun member => ?_
      split at member
      · exact absent (parentsOf_subset pool entry.tx member)
      · exact orphan child member
    · rw [if_neg own, map_eq_some_iff] at found
      obtain ⟨old, there, rfl⟩ := found
      have children := exact_.linked.children key old child there
      by_cases new : child = entry.tx.hash
      · have stranger : child ∉ old.children := by
          rw [children, poolParents_missing (new ▸ absent)]
          exact notMem_empty _
        rw [if_pos new]
        split
        · next parent => simp [new, parent]
        · next foreign => exact iff_of_false stranger foreign
      · rw [if_neg new]
        split
        · rw [mem_insert, or_iff_right new, children]
        · exact children

theorem next_exact : Exact next where
  claims := next_claims added fresh exact_
  linked := next_linked added fresh exact_
  sums key found here := by
    rcases next_cases added here with ⟨rfl, rfl⟩ | ⟨-, old, there, rfl⟩
    · rw [next_descendants_own added fresh exact_, Finset.sum_singleton, next_weightOf_own added]
      exact fresh.alone_prioritised
    · have old_sum : ∑ other ∈ descendantsOf pool {key}, weightOf next other = old.sums := by
        rw [exact_.sums key old there]
        exact sum_congr rfl fun other member => next_weightOf added fresh (descendantsOf_subset pool _ member)
      rw [next_descendants added fresh exact_ (mem_of_find there)]
      split
      · have new : entry.tx.hash ∉ descendantsOf pool {key} :=
          fun member => find_eq_none.mp fresh.absent (descendantsOf_subset pool _ member)
        rw [sum_insert new, old_sum, next_weightOf_own added, sums_withSums, add_comm]
      · exact old_sum.symm
  totalTxSize := by
    have old_sum : ∑ key ∈ pool.mapTx.keys, (sizeOf next key : Int) = ∑ key ∈ pool.mapTx.keys, (sizeOf pool key : Int) :=
      sum_congr rfl fun key member => by rw [next_sizeOf added fresh member]
    rw [next_keys added, sum_insert (find_eq_none.mp fresh.absent), next_sizeOf_own added, old_sum, added.totalTxSize,
      exact_.totalTxSize, add_comm]
  acyclic key member := by
    rw [next_ancestors added fresh exact_] at member
    split at member
    · next own => exact find_eq_none.mp fresh.absent (own ▸ (mem_closure.mp member).1)
    · exact exact_.acyclic key member
  deltas key found here := by
    rw [added.mapDeltas]
    rcases next_cases added here with ⟨rfl, rfl⟩ | ⟨-, old, there, rfl⟩
    · rfl
    · have delta := exact_.deltas key old there
      split <;> exact delta
  distinct key found here := by
    rcases next_cases added here with ⟨-, rfl⟩ | ⟨-, old, there, rfl⟩
    · exact fresh.distinct
    · have single := exact_.distinct key old there
      split <;> exact single
  bounded := by
    have old_sum : ∑ key ∈ pool.mapTx.keys, sizeOf next key = ∑ key ∈ pool.mapTx.keys, sizeOf pool key :=
      sum_congr rfl fun key member => next_sizeOf added fresh member
    have total := fresh.bounded
    rw [next_keys added, sum_insert (find_eq_none.mp fresh.absent), next_sizeOf_own added, old_sum]
    omega
  modest := by
    have fees := @sum_le _ _ next.mapTx (pool.mapTx.put entry.tx.hash entry) _ (fun entry => abs_nonneg entry.nFee)
      fun key found here => by
        rcases next_cases added here with ⟨rfl, rfl⟩ | ⟨different, old, there, rfl⟩
        · exact ⟨entry, find_put_self _ _ _, rfl⟩
        · refine ⟨old, (find_put_ne different).trans there, ?_⟩
          split <;> rfl
    rw [sum_put fresh.absent] at fees
    have total := fresh.modest
    rw [amounts] at total ⊢
    rw [added.mapDeltas]
    omega

end

end Next

end Pool

end Longcoin.Mempool

import Longcoin.MempoolLinks
import Longcoin.MempoolReplace
import Mathlib.Algebra.BigOperators.Pi

/-! The graph of the pool: what is exact of the links, the sums of the descendants, the claimed outputs and the total size. -/

namespace Longcoin.Mempool
open Primitives Library FiniteMap List Option Finset

def weightOf (pool : CTxMemPool) (hash : Uint256) : Int × Int × Int := (pool.mapTx.find hash).elim 0 CTxMemPoolEntry.weight

noncomputable def entryAncestors (pool : CTxMemPool) (hash : Uint256) : Finset Uint256 :=
  closure (poolParents pool) pool.mapTx.keys (poolParents pool hash)

/-- The pool claims just the outputs that its transactions spend, the links are those of the spent outputs, the sums of an
entry that is not dirty are those over the entry and all its descendants, and the total size is that of all entries. -/
structure GraphExact (pool : CTxMemPool) : Prop where
  claims : Claims pool
  linked : Linked pool
  sums : ∀ hash entry, pool.mapTx.find hash = some entry → entry.isDirty = false →
    entry.sums = ∑ other ∈ descendantsOf pool {hash}, weightOf pool other
  totalTxSize : pool.totalTxSize = ∑ hash ∈ pool.mapTx.keys, (sizeOf pool hash : Int)

/-- What every step keeps: nothing is dirty, no entry is its own ancestor, the fee deltas are those asked for, no transaction
spends an output twice, and the sizes together and the amounts are in range. -/
structure Exact (pool : CTxMemPool) : Prop where
  claims : Claims pool
  linked : Linked pool
  sums : ∀ hash entry, pool.mapTx.find hash = some entry → entry.sums = ∑ other ∈ descendantsOf pool {hash}, weightOf pool other
  totalTxSize : pool.totalTxSize = ∑ hash ∈ pool.mapTx.keys, (sizeOf pool hash : Int)
  acyclic : ∀ hash, hash ∉ entryAncestors pool hash
  deltas : ∀ hash entry, pool.mapTx.find hash = some entry → entry.feeDelta = (pool.mapDeltas.find hash).getD 0
  distinct : ∀ hash entry, pool.mapTx.find hash = some entry → (entry.tx.vin.map fun txin => txin.prevout).Nodup
  bounded : ∑ hash ∈ pool.mapTx.keys, sizeOf pool hash < 2 ^ 63
  modest : amounts pool < 2 ^ 63

theorem Exact.graph {pool : CTxMemPool} (exact_ : Exact pool) : GraphExact pool where
  claims := exact_.claims
  linked := exact_.linked
  sums hash entry found _ := exact_.sums hash entry found
  totalTxSize := exact_.totalTxSize

section Pool

variable {pool : CTxMemPool}

variable {hash : Uint256} {entry : CTxMemPoolEntry}

theorem weightOf_found (found : pool.mapTx.find hash = some entry) :
    weightOf pool hash = entry.weight := by rw [weightOf, found, elim_some]

theorem sizeOf_found (found : pool.mapTx.find hash = some entry) :
    sizeOf pool hash = entry.nTxSize := by rw [sizeOf, found, elim_some]

theorem entryAncestors_found (found : pool.mapTx.find hash = some entry) :
    entryAncestors pool hash = ancestorsOf pool entry.tx := by rw [entryAncestors, poolParents_found found, ancestorsOf]

theorem mem_of_ancestor {other : Uint256} (ancestor : other ∈ entryAncestors pool hash) : hash ∈ pool.mapTx.keys := by
  by_contra missing
  rw [entryAncestors, poolParents_missing missing, closure_empty] at ancestor
  exact notMem_empty _ ancestor

theorem mem_descendantsOf {other : Uint256} (inPool : hash ∈ pool.mapTx.keys) :
    other ∈ descendantsOf pool {hash} ↔ other ∈ pool.mapTx.keys ∧ (other = hash ∨ hash ∈ entryAncestors pool other) := by
  rw [descendantsOf, mem_closure, reach_flip fun key child => mem_poolChildren, entryAncestors, mem_closure]
  simp only [inPool, true_and]

theorem self_mem_descendantsOf (inPool : hash ∈ pool.mapTx.keys) : hash ∈ descendantsOf pool {hash} :=
  (mem_descendantsOf inPool).mpr ⟨inPool, .inl rfl⟩

theorem descendantsOf_subset (pool : CTxMemPool) (entries : Finset Uint256) : descendantsOf pool entries ⊆ pool.mapTx.keys :=
  closure_subset _ _ _

variable {set : Finset Uint256}

theorem sum_weightOf_count (inside : set ⊆ pool.mapTx.keys) : (∑ hash ∈ set, weightOf pool hash).1 = set.card := by
  rw [Prod.fst_sum, card_eq_sum_ones, Nat.cast_sum]
  refine sum_congr rfl fun hash member => ?_
  obtain ⟨entry, found⟩ := find_of_mem (inside member)
  rw [weightOf_found found]
  rfl

theorem sum_weightOf_size (inside : set ⊆ pool.mapTx.keys) :
    (∑ hash ∈ set, weightOf pool hash).2.1 = (∑ hash ∈ set, sizeOf pool hash : Nat) := by
  rw [Prod.snd_sum, Prod.fst_sum, Nat.cast_sum]
  refine sum_congr rfl fun hash member => ?_
  obtain ⟨entry, found⟩ := find_of_mem (inside member)
  rw [weightOf_found found, sizeOf_found found]
  rfl

theorem card_le_sizes (sized : ∀ hash entry, pool.mapTx.find hash = some entry → 0 < entry.nTxSize)
    (inside : set ⊆ pool.mapTx.keys) : set.card ≤ ∑ hash ∈ set, sizeOf pool hash := by
  rw [card_eq_sum_ones]
  refine sum_le_sum fun hash member => ?_
  obtain ⟨entry, found⟩ := find_of_mem (inside member)
  rw [sizeOf_found found]
  exact sized hash entry found

theorem lively_sum (sized : ∀ hash entry, pool.mapTx.find hash = some entry → 0 < entry.nTxSize)
    (inside : set ⊆ pool.mapTx.keys) (member : hash ∈ set) : Lively (∑ hash ∈ set, weightOf pool hash) := by
  have count : 0 < set.card := card_pos.mpr ⟨hash, member⟩
  have size := card_le_sizes sized inside
  rw [Lively, sum_weightOf_count inside, sum_weightOf_size inside]
  omega

/-- All sizes and sums are far from the limit of 64 bits. -/
structure Bounded (pool : CTxMemPool) : Prop where
  sized : ∀ hash entry, pool.mapTx.find hash = some entry → 0 < entry.nTxSize
  total : ∑ hash ∈ pool.mapTx.keys, sizeOf pool hash < 2 ^ 63
  sums : ∀ hash entry, pool.mapTx.find hash = some entry →
    entry.nSizeWithDescendants < 2 ^ 63 ∧ entry.nCountWithDescendants < 2 ^ 63

theorem linkedAncestors_eq (order : Iteration) (up : UpLinked pool) (bounded : Bounded pool) {it : Uint256}
    (found : pool.mapTx.find it = some entry) (keyed : entry.tx.hash = it) :
    linkedAncestors order pool it = some (entryAncestors pool it) := by
  have part {set : Finset Uint256} (inside : set ⊆ pool.mapTx.keys) : ∑ hash ∈ set, sizeOf pool hash < 2 ^ 63 :=
    (sum_le_sum_of_subset inside).trans_lt bounded.total
  have own : entry.nTxSize < 2 ^ 63 := by
    have alone := part (singleton_subset_iff.mpr (mem_of_find found))
    rwa [Finset.sum_singleton, sizeOf_found found] at alone
  have inside : ancestorsOf pool entry.tx ⊆ pool.mapTx.keys := closure_subset _ _ _
  have fits : LoopFits pool entry noLimits (ancestorsOf pool entry.tx) := by
    refine ⟨fun _ => ?_, fun hash _ ancestor here => ?_, fun _ => ?_⟩
    · have others := part inside
      rw [packageSize]
      simp only [noLimits, nNoLimit]
      omega
    · obtain ⟨size, count⟩ := bounded.sums hash ancestor here
      simp only [noLimits, nNoLimit]
      omega
    · have few := (card_le_sizes bounded.sized inside).trans_lt (part inside)
      simp only [noLimits, nNoLimit]
      omega
  obtain ⟨result, runs, accepts, set⟩ := loop_spec up order entry noLimits (Nat.lt_succ_self pool.mapTx.keys.card)
  obtain ⟨ancestors, rfl⟩ := accepts.mpr fits
  have links := links_spec up (keyed ▸ found) order (pool.mapTx.keys.card + 1) noLimits
  rw [linkedAncestors, found, entryAncestors_found found, ← set ancestors rfl]
  simp only [bind, Option.bind, links, runs, Except.toOption]

section Adjust

variable {other : CTxMemPool} {change : Uint256 → CTxMemPoolEntry → CTxMemPoolEntry} (mapTx : other.mapTx = pool.mapTx.adjust change)
include mapTx

theorem keys_adjusted : other.mapTx.keys = pool.mapTx.keys := by
  rw [mapTx]
  rfl

theorem poolParents_adjust (kept : ∀ key entry, (change key entry).tx = entry.tx) : poolParents other = poolParents pool := by
  funext hash
  have same (tx : CTransaction) : parentsOf other tx = parentsOf pool tx := by
    rw [parentsOf, parentsIn, keys_adjusted mapTx]
    rfl
  rw [poolParents, mapTx, find_adjust, poolParents]
  cases pool.mapTx.find hash with
  | none => rfl
  | some entry => rw [map_some, elim_some, elim_some, same, kept]

theorem entryAncestors_adjust (kept : ∀ key entry, (change key entry).tx = entry.tx) : entryAncestors other = entryAncestors pool := by
  funext hash
  rw [entryAncestors, poolParents_adjust mapTx kept, keys_adjusted mapTx, entryAncestors]

theorem descendantsOf_adjust (kept : ∀ key entry, (change key entry).tx = entry.tx) (entries : Finset Uint256) :
    descendantsOf other entries = descendantsOf pool entries := by
  have same : poolChildren other = poolChildren pool := by
    funext hash
    ext child
    rw [mem_poolChildren, mem_poolChildren, poolParents_adjust mapTx kept]
  rw [descendantsOf, same, keys_adjusted mapTx, descendantsOf]

theorem sizeOf_adjust (kept : ∀ key entry, (change key entry).nTxSize = entry.nTxSize) : sizeOf other = sizeOf pool := by
  funext hash
  rw [sizeOf, mapTx, find_adjust, sizeOf]
  cases pool.mapTx.find hash with
  | none => rfl
  | some entry => rw [map_some, elim_some, elim_some, kept]

end Adjust

/-- The pool without the links to some entries as children, and with the sums of the ancestors without them. -/
noncomputable def severed (pool : CTxMemPool) (gone : Finset Uint256) : CTxMemPool :=
  { pool with
    mapLinks := pool.mapLinks.adjust fun _ links => { links with children := links.children \ gone }
    mapTx := pool.mapTx.adjust fun hash entry =>
      entry.withSums (∑ other ∈ descendantsOf pool {hash} \ gone.erase hash, weightOf pool other) }

/-- The severed pool when the children of some of the entries have lost them as parents. -/
noncomputable def unlinked (pool : CTxMemPool) (gone done : Finset Uint256) : CTxMemPool :=
  { severed pool gone with
    mapLinks := (severed pool gone).mapLinks.adjust fun hash links =>
      if hash ∈ gone then links else { links with parents := links.parents \ done } }

theorem severed_found (found : pool.mapTx.find hash = some entry) (gone : Finset Uint256) :
    (severed pool gone).mapTx.find hash =
      some (entry.withSums (∑ other ∈ descendantsOf pool {hash} \ gone.erase hash, weightOf pool other)) := by
  rw [severed, find_adjust, found, map_some]

theorem severed_links {links : TxLinks} (found : pool.mapLinks.find hash = some links) (gone : Finset Uint256) :
    (severed pool gone).mapLinks.find hash = some { links with children := links.children \ gone } := by
  rw [severed, find_adjust, found, map_some]

theorem poolParents_severed (gone : Finset Uint256) : poolParents (severed pool gone) = poolParents pool :=
  poolParents_adjust rfl fun _ _ => rfl

theorem entryAncestors_severed (gone : Finset Uint256) : entryAncestors (severed pool gone) = entryAncestors pool :=
  entryAncestors_adjust rfl fun _ _ => rfl

theorem sizeOf_severed (gone : Finset Uint256) : sizeOf (severed pool gone) = sizeOf pool := sizeOf_adjust rfl fun _ _ => rfl

section Severing

variable (exact_ : Exact pool) {gone : Finset Uint256}
include exact_

theorem Exact.severed_empty : severed pool ∅ = pool := by
  have links : (pool.mapLinks.adjust fun _ links => { links with children := links.children \ ∅ }) = pool.mapLinks :=
    adjust_eq_self fun hash links found => by rw [sdiff_empty]
  have entries : (pool.mapTx.adjust fun hash entry =>
      entry.withSums (∑ other ∈ descendantsOf pool {hash} \ (∅ : Finset Uint256).erase hash, weightOf pool other)) = pool.mapTx := by
    refine adjust_eq_self fun hash entry found => ?_
    rw [erase_empty, sdiff_empty, ← exact_.sums hash entry found, withSums_sums]
  rw [severed, links, entries]

theorem Exact.severed_up : UpLinked (severed pool gone) where
  keys := exact_.linked.keys
  parents hash links found := by
    rw [severed, find_adjust, map_eq_some_iff] at found
    obtain ⟨old, here, rfl⟩ := found
    rw [poolParents_severed]
    exact exact_.linked.parents hash old here

theorem Exact.severed_bounded : Bounded (severed pool gone) where
  sized hash entry found := by
    rw [severed, find_adjust, map_eq_some_iff] at found
    obtain ⟨old, here, rfl⟩ := found
    exact exact_.claims.sized hash old here
  total := by
    rw [sizeOf_severed]
    exact exact_.bounded
  sums hash entry found := by
    rw [severed, find_adjust, map_eq_some_iff] at found
    obtain ⟨old, -, rfl⟩ := found
    have inside : descendantsOf pool {hash} \ gone.erase hash ⊆ pool.mapTx.keys :=
      sdiff_subset.trans (descendantsOf_subset pool _)
    have size : ∑ other ∈ descendantsOf pool {hash} \ gone.erase hash, sizeOf pool other < 2 ^ 63 :=
      (sum_le_sum_of_subset inside).trans_lt exact_.bounded
    have count := card_le_sizes exact_.claims.sized inside
    have sums := And.intro (sum_weightOf_size inside) (sum_weightOf_count inside)
    simp only [CTxMemPoolEntry.withSums]
    rw [sums.1, sums.2]
    omega

theorem Exact.severed_lively {hash : Uint256} (inPool : hash ∈ pool.mapTx.keys) :
    Lively (∑ other ∈ descendantsOf pool {hash} \ gone.erase hash, weightOf pool other) :=
  lively_sum exact_.claims.sized (sdiff_subset.trans (descendantsOf_subset pool _))
    (mem_sdiff.mpr ⟨self_mem_descendantsOf inPool, notMem_erase _ _⟩)

theorem Exact.left_insert {it hash : Uint256} (fresh : it ∉ gone) (inPool : hash ∈ pool.mapTx.keys) :
    ∑ other ∈ descendantsOf pool {hash} \ (insert it gone).erase hash, weightOf pool other =
      (∑ other ∈ descendantsOf pool {hash} \ gone.erase hash, weightOf pool other) +
        if hash ∈ entryAncestors pool it then -weightOf pool it else 0 := by
  by_cases ancestor : hash ∈ entryAncestors pool it
  · have different : it ≠ hash := by
      rintro rfl
      exact exact_.acyclic it ancestor
    have present := mem_of_ancestor ancestor
    have member : it ∈ descendantsOf pool {hash} \ gone.erase hash :=
      mem_sdiff.mpr ⟨(mem_descendantsOf inPool).mpr ⟨present, .inr ancestor⟩, fun old => fresh (mem_of_mem_erase old)⟩
    rw [if_pos ancestor, erase_insert_of_ne different, sdiff_insert, ← sum_erase_add _ _ member,
      add_neg_cancel_right]
  · rw [if_neg ancestor, add_zero]
    refine sum_congr ?_ fun _ _ => rfl
    by_cases same : it = hash
    · rw [same, erase_insert_eq_erase]
    · rw [erase_insert_of_ne same, sdiff_insert_of_notMem]
      intro descends
      rcases ((mem_descendantsOf inPool).mp descends).2 with rfl | above
      · exact same rfl
      · exact ancestor above

theorem Exact.sever_turn (order : Iteration) {it : Uint256} (fresh : it ∉ gone) (inPool : it ∈ pool.mapTx.keys) :
    ((linkedAncestors order (severed pool gone) it).bind fun setAncestors =>
      updateAncestorsOf order false (severed pool gone) it setAncestors) = some (severed pool (insert it gone)) := by
  obtain ⟨entry, found⟩ := find_of_mem inPool
  obtain ⟨links, foundLinks⟩ := find_of_mem (exact_.linked.keys ▸ inPool)
  have here := severed_found found gone
  have weight := weightOf_found found
  have ancestors := linkedAncestors_eq order exact_.severed_up exact_.severed_bounded here (exact_.linked.keyed it entry found)
  rw [entryAncestors_severed] at ancestors
  rw [ancestors, bind_some]
  refine (updateAncestorsOf_eq here (severed_links foundLinks gone) rfl _ ?each).trans ?_
  case each =>
    intro other member
    have inside : other ∈ pool.mapTx.keys := (mem_closure.mp member).1
    obtain ⟨ancestor, there⟩ := find_of_mem inside
    refine ⟨_, severed_found there gone, exact_.severed_lively inside, ?_⟩
    have left := exact_.left_insert fresh inside
    rw [if_pos member, weight] at left
    rw [sums_withSums, if_neg Bool.false_ne_true, withSums_weight, ← left]
    exact exact_.severed_lively inside
  have children : (severed pool gone).mapLinks.adjust (fun key other => if key ∈ links.parents then
      { other with children := if false then insert it other.children else other.children.erase it } else other) =
      (severed pool (insert it gone)).mapLinks := by
    rw [severed, severed, adjust_adjust]
    refine adjust_congr fun key old there => ?_
    have child := exact_.linked.children key old it there
    rw [exact_.linked.parents it links foundLinks, sdiff_insert]
    split
    · rfl
    · next foreign => rw [erase_eq_of_notMem fun member => foreign (child.mp (mem_sdiff.mp member).1)]
  have sums : (severed pool gone).mapTx.adjust (fun key ancestor => if key ∈ entryAncestors pool it then
      ancestor.withSums (ancestor.sums + if false then entry.weight else -entry.weight) else ancestor) =
      (severed pool (insert it gone)).mapTx := by
    rw [severed, severed, adjust_adjust]
    refine adjust_congr fun key old there => ?_
    rw [exact_.left_insert fresh (mem_of_find there), weight]
    split
    · rfl
    · rw [add_zero]
  simp only [withSums_weight, children, sums]
  rfl

theorem Exact.sever_fold (order : Iteration) {items : List Uint256} (distinct : items.Nodup) (fresh : ∀ it ∈ items, it ∉ gone)
    (inPool : ∀ it ∈ items, it ∈ pool.mapTx.keys) :
    items.foldlM (fun pool removeIt => do
      let setAncestors ← linkedAncestors order pool removeIt
      updateAncestorsOf order false pool removeIt setAncestors) (severed pool gone) = some (severed pool (items.toFinset ∪ gone)) := by
  induction items generalizing gone with
  | nil =>
    rw [toFinset_nil, empty_union]
    rfl
  | cons it items ih =>
    obtain ⟨single, rest⟩ := nodup_cons.mp distinct
    have turn := exact_.sever_turn order (fresh it mem_cons_self) (inPool it mem_cons_self)
    have later : ∀ other ∈ items, other ∉ insert it gone := by
      intro other member again
      rcases mem_insert.mp again with rfl | old
      · exact single member
      · exact fresh other (mem_cons_of_mem _ member) old
    rw [toFinset_cons, insert_union, ← union_insert,
      ← ih rest later (forall_mem_cons.mp inPool).2]
    rw [foldlM_cons]
    simp only [bind] at turn ⊢
    rw [turn, bind_some]

theorem Exact.unlink_turn (order : Iteration) {it : Uint256} (member : it ∈ gone) (inPool : it ∈ pool.mapTx.keys) (done : Finset Uint256) :
    updateChildrenForRemoval order (unlinked pool gone done) it = some (unlinked pool gone (insert it done)) := by
  obtain ⟨links, foundLinks⟩ := find_of_mem (exact_.linked.keys ▸ inPool)
  have here : (unlinked pool gone done).mapLinks.find it = some { links with children := links.children \ gone } := by
    rw [unlinked, find_adjust, severed_links foundLinks, map_some, if_pos member]
  have parents : (unlinked pool gone done).mapLinks.adjust (fun key other => if key ∈ order.list (links.children \ gone) then
      { other with parents := if false then insert it other.parents else other.parents.erase it } else other) =
      (unlinked pool gone (insert it done)).mapLinks := by
    rw [unlinked, unlinked, adjust_adjust]
    refine adjust_congr fun key old there => ?_
    rw [severed, find_adjust, map_eq_some_iff] at there
    obtain ⟨own, found, rfl⟩ := there
    have parent := exact_.linked.parents key own found
    have child := exact_.linked.children it links key foundLinks
    simp only [order.mem_list, mem_sdiff]
    by_cases inside : key ∈ gone
    · rw [if_neg fun both => both.2 inside, if_pos inside, if_pos inside]
    · rw [if_neg inside, if_neg inside, sdiff_insert]
      split
      · rfl
      · next foreign =>
        have absent : it ∉ own.parents := fun spends => foreign ⟨child.mpr (parent ▸ spends), inside⟩
        rw [erase_eq_of_notMem fun left => absent (mem_sdiff.mp left).1]
  simp only [updateChildrenForRemoval, here, bind, Option.bind, pure]
  rw [updateParents_eq (order.nodup _), parents]
  rfl

theorem Exact.updateForRemove_eq (order : Iteration) (inside : gone ⊆ pool.mapTx.keys) :
    updateForRemoveFromMempool order pool gone = some (unlinked pool gone gone) := by
  have first := exact_.sever_fold order (order.nodup gone) (fun it _ => notMem_empty it)
    fun it member => inside ((order.mem_list _ _).mp member)
  rw [exact_.severed_empty, union_empty, order.toFinset_list] at first
  have second : ∀ (items : List Uint256) (done : Finset Uint256), (∀ it ∈ items, it ∈ gone) →
      items.foldlM (updateChildrenForRemoval order) (unlinked pool gone done) = some (unlinked pool gone (items.toFinset ∪ done)) := by
    intro items
    induction items with
    | nil =>
      intro done _
      rw [toFinset_nil, empty_union]
      rfl
    | cons it items ih =>
      intro done members
      have here := members it mem_cons_self
      rw [foldlM_cons, exact_.unlink_turn order here (inside here), toFinset_cons, insert_union, ← union_insert]
      exact ih _ (forall_mem_cons.mp members).2
  have start : unlinked pool gone ∅ = severed pool gone := by
    have same : ((severed pool gone).mapLinks.adjust fun hash links =>
        if hash ∈ gone then links else { links with parents := links.parents \ ∅ }) = (severed pool gone).mapLinks := by
      refine adjust_eq_self fun hash links _ => ?_
      rw [sdiff_empty, ite_self]
    rw [unlinked, same]
  have last := second (order.list gone) ∅ fun it member => (order.mem_list _ _).mp member
  rw [start, union_empty, order.toFinset_list] at last
  rw [updateForRemoveFromMempool]
  simp only [bind] at first ⊢
  rw [first, bind_some, last]

end Severing

def Spends (pool : CTxMemPool) (hash : Uint256) (outpoint : COutPoint) : Prop :=
  ∃ entry, pool.mapTx.find hash = some entry ∧ outpoint ∈ entry.tx.vin.map fun txin => txin.prevout

/-- A pool without some entries, and without the outputs they claim. -/
structure Leaves (pool : CTxMemPool) (gone : Finset Uint256) (rest : CTxMemPool) : Prop where
  mapTx : rest.mapTx = pool.mapTx.eraseAll gone
  mapLinks : rest.mapLinks = pool.mapLinks.eraseAll gone
  mapDeltas : rest.mapDeltas = pool.mapDeltas
  totalTxSize : rest.totalTxSize = pool.totalTxSize - ∑ hash ∈ gone, (sizeOf pool hash : Int)
  mapNextTx : ∀ outpoint inpoint, rest.mapNextTx.find outpoint = some inpoint ↔
    pool.mapNextTx.find outpoint = some inpoint ∧ ∀ hash ∈ gone, ¬ Spends pool hash outpoint

theorem leaves_none (pool : CTxMemPool) : Leaves pool ∅ pool where
  mapTx := (eraseAll_empty _).symm
  mapLinks := (eraseAll_empty _).symm
  mapDeltas := rfl
  totalTxSize := by rw [Finset.sum_empty, sub_zero]
  mapNextTx outpoint inpoint := by simp

theorem removeIndexes_eq (pool : CTxMemPool) (hash : Uint256) : ∃ mapAddress mapAddressInserted mapSpent mapSpentInserted,
    removeSpentIndex (removeAddressIndex pool hash) hash = { pool with
      mapAddress := mapAddress, mapAddressInserted := mapAddressInserted, mapSpent := mapSpent, mapSpentInserted := mapSpentInserted } := by
  have first : ∃ mapAddress mapAddressInserted, removeAddressIndex pool hash =
      { pool with mapAddress := mapAddress, mapAddressInserted := mapAddressInserted } := by
    rw [removeAddressIndex]
    split
    · exact ⟨_, _, rfl⟩
    · exact ⟨_, _, rfl⟩
  obtain ⟨mapAddress, mapAddressInserted, first⟩ := first
  rw [first, removeSpentIndex]
  split
  · exact ⟨_, _, _, _, rfl⟩
  · exact ⟨_, _, _, _, rfl⟩

theorem Leaves.turn {gone : Finset Uint256} {rest : CTxMemPool} (leaves : Leaves pool gone rest)
    {it : Uint256} (fresh : it ∉ gone) (inPool : it ∈ pool.mapTx.keys) : ∃ next, removeUnchecked rest it = some next ∧ Leaves pool (insert it gone) next := by
  obtain ⟨entry, found⟩ := find_of_mem inPool
  have here : rest.mapTx.find it = some entry := by rw [leaves.mapTx, find_eraseAll, if_neg fresh, found]
  simp only [removeUnchecked, here, bind, bind, pure]
  refine ⟨_, rfl, ?_⟩
  obtain ⟨mapAddress, mapAddressInserted, mapSpent, mapSpentInserted, same⟩ := removeIndexes_eq
    { rest with
      mapNextTx := entry.tx.vin.foldl (fun map txin => map.erase txin.prevout) rest.mapNextTx
      totalTxSize := rest.totalTxSize - entry.nTxSize
      mapLinks := rest.mapLinks.erase it
      mapTx := rest.mapTx.erase it } entry.tx.hash
  rw [same]
  refine ⟨?_, ?_, leaves.mapDeltas, ?_, fun outpoint inpoint => ?_⟩
  · rw [← erase_eraseAll, ← leaves.mapTx]
  · rw [← erase_eraseAll, ← leaves.mapLinks]
  · rw [sum_insert fresh, sizeOf_found found]
    simp only [leaves.totalTxSize]
    omega
  · have own : Spends pool it outpoint ↔ outpoint ∈ entry.tx.vin.map fun txin => txin.prevout := by
      rw [Spends, found]
      simp only [some.injEq, exists_eq_left']
    rw [find_foldl_erase (fun txin : CTxIn => txin.prevout), forall_mem_insert, own, and_left_comm,
      ← leaves.mapNextTx]
    split
    · next spent => simp [spent]
    · next unspent => simp [unspent]

theorem leaves_fold {items : List Uint256} {gone : Finset Uint256} {rest : CTxMemPool} (leaves : Leaves pool gone rest) (distinct : items.Nodup)
    (fresh : ∀ it ∈ items, it ∉ gone) (inPool : ∀ it ∈ items, it ∈ pool.mapTx.keys) :
    ∃ last, items.foldlM removeUnchecked rest = some last ∧ Leaves pool (items.toFinset ∪ gone) last := by
  induction items generalizing gone rest with
  | nil => exact ⟨rest, rfl, by rwa [toFinset_nil, empty_union]⟩
  | cons it items ih =>
    obtain ⟨single, different⟩ := nodup_cons.mp distinct
    obtain ⟨next, turn, after⟩ := leaves.turn (fresh it mem_cons_self) (inPool it mem_cons_self)
    have later : ∀ other ∈ items, other ∉ insert it gone := by
      intro other member again
      rcases mem_insert.mp again with rfl | old
      · exact single member
      · exact fresh other (mem_cons_of_mem _ member) old
    rw [foldlM_cons, turn, toFinset_cons, insert_union, ← union_insert]
    exact ih after different later (forall_mem_cons.mp inPool).2

/-- Of whatever entry another one is an ancestor, it is so without the entries that are removed. -/
def Removable (pool : CTxMemPool) (gone : Finset Uint256) : Prop :=
  ∀ hash other, hash ∉ gone → other ∉ gone → other ∈ entryAncestors pool hash →
    Reach (fun key => poolParents pool key \ gone) (poolParents pool hash \ gone) other

theorem removable_of_parents {gone : Finset Uint256} (closed : ∀ hash ∈ gone, poolParents pool hash ⊆ gone) :
    Removable pool gone := by
  intro hash other _ outside ancestor
  exact (mem_closure.mp ancestor).2.avoid_closed closed outside

theorem removable_of_children {gone : Finset Uint256} (closed : ∀ hash ∈ gone, poolChildren pool hash ⊆ gone) : Removable pool gone := by
  have apart : ∀ hash, hash ∉ gone → Disjoint (poolParents pool hash) gone := by
    intro hash outside
    rw [Finset.disjoint_left]
    exact fun parent spends member => outside (closed parent member (mem_poolChildren.mpr spends))
  intro hash other outside _ ancestor
  exact ((mem_closure.mp ancestor).2.avoid_unreached apart (apart hash outside)).2

section Rest

variable {gone : Finset Uint256} {rest : CTxMemPool} (leaves : Leaves (unlinked pool gone gone) gone rest)
include leaves

theorem rest_keys : rest.mapTx.keys = pool.mapTx.keys \ gone := by
  rw [leaves.mapTx]
  rfl

variable {hash : Uint256}

theorem rest_found {entry : CTxMemPoolEntry} (found : rest.mapTx.find hash = some entry) :
    hash ∉ gone ∧ ∃ old, pool.mapTx.find hash = some old ∧
      entry = old.withSums (∑ other ∈ descendantsOf pool {hash} \ gone, weightOf pool other) := by
  rw [leaves.mapTx, find_eraseAll] at found
  split at found
  · cases found
  next outside =>
    change (severed pool gone).mapTx.find hash = some entry at found
    rw [severed, find_adjust, map_eq_some_iff, erase_eq_of_notMem outside] at found
    obtain ⟨old, here, same⟩ := found
    exact ⟨outside, old, here, same.symm⟩

theorem rest_entry (outside : hash ∉ gone) {old : CTxMemPoolEntry} (found : pool.mapTx.find hash = some old) :
    rest.mapTx.find hash = some (old.withSums (∑ other ∈ descendantsOf pool {hash} \ gone, weightOf pool other)) := by
  rw [leaves.mapTx, find_eraseAll, if_neg outside]
  have here := severed_found found gone
  rwa [erase_eq_of_notMem outside] at here

theorem rest_links {links : TxLinks} (found : rest.mapLinks.find hash = some links) :
    hash ∉ gone ∧ ∃ old, pool.mapLinks.find hash = some old ∧ links = ⟨old.parents \ gone, old.children \ gone⟩ := by
  rw [leaves.mapLinks, find_eraseAll] at found
  split at found
  · cases found
  next outside =>
    rw [unlinked, find_adjust, severed, find_adjust, Option.map_map, Option.map_eq_some_iff] at found
    obtain ⟨old, here, same⟩ := found
    refine ⟨outside, old, here, ?_⟩
    rw [← same, Function.comp_apply, if_neg outside]

theorem rest_parents (hash : Uint256) : poolParents rest hash = if hash ∈ gone then ∅ else poolParents pool hash \ gone := by
  cases found : rest.mapTx.find hash with
  | none =>
    have missing := find_eq_none.mp found
    rw [poolParents_missing missing]
    rw [rest_keys leaves, mem_sdiff, not_and_not_right] at missing
    split
    · rfl
    · next outside => rw [poolParents_missing fun member => outside (missing member), empty_sdiff]
  | some entry =>
    obtain ⟨outside, old, here, rfl⟩ := rest_found leaves found
    rw [poolParents_found found, if_neg outside, poolParents_found here, withSums_tx]
    ext parent
    rw [parentsOf, mem_parentsIn, mem_sdiff, parentsOf, mem_parentsIn, rest_keys leaves, mem_sdiff, and_right_comm]

theorem rest_weightOf (outside : hash ∉ gone) : weightOf rest hash = weightOf pool hash := by
  cases found : pool.mapTx.find hash with
  | none =>
    have missing : rest.mapTx.find hash = none := by
      rw [find_eq_none, rest_keys leaves, mem_sdiff]
      exact fun inside => find_eq_none.mp found inside.1
    rw [weightOf, missing, weightOf, found]
  | some entry =>
    rw [weightOf_found found, weightOf_found (rest_entry leaves outside found), withSums_weight]

theorem rest_sizeOf (outside : hash ∉ gone) : sizeOf rest hash = sizeOf pool hash := by
  cases found : pool.mapTx.find hash with
  | none =>
    have missing : rest.mapTx.find hash = none := by
      rw [find_eq_none, rest_keys leaves, mem_sdiff]
      exact fun inside => find_eq_none.mp found inside.1
    rw [sizeOf, missing, sizeOf, found]
  | some entry =>
    rw [sizeOf_found found, sizeOf_found (rest_entry leaves outside found), withSums_nTxSize]

theorem rest_ancestors_subset (hash : Uint256) : entryAncestors rest hash ⊆ entryAncestors pool hash := by
  have fewer : ∀ key, poolParents rest key ⊆ poolParents pool key := by
    intro key
    rw [rest_parents leaves]
    split
    · exact empty_subset _
    · exact sdiff_subset
  intro other member
  obtain ⟨inside, reach⟩ := mem_closure.mp member
  rw [rest_keys leaves] at inside
  exact mem_closure.mpr ⟨(mem_sdiff.mp inside).1, (reach.weaken fewer).mono (fewer hash)⟩

theorem rest_ancestors (removable : Removable pool gone) (outside : hash ∉ gone) :
    entryAncestors rest hash = entryAncestors pool hash \ gone := by
  ext other
  rw [mem_sdiff]
  constructor
  · intro member
    have inside := (mem_closure.mp member).1
    rw [rest_keys leaves] at inside
    exact ⟨rest_ancestors_subset leaves hash member, (mem_sdiff.mp inside).2⟩
  · rintro ⟨member, apart⟩
    refine mem_closure.mpr ⟨?_, ?_⟩
    · rw [rest_keys leaves]
      exact mem_sdiff.mpr ⟨(mem_closure.mp member).1, apart⟩
    · have reach := removable hash other outside apart member
      rw [rest_parents leaves, if_neg outside]
      exact reach.of_avoiding fun key avoided => by rw [rest_parents leaves, if_neg avoided]

theorem rest_descendants (removable : Removable pool gone) (inPool : hash ∈ pool.mapTx.keys) (outside : hash ∉ gone) :
    descendantsOf rest {hash} = descendantsOf pool {hash} \ gone := by
  have inside : hash ∈ rest.mapTx.keys := by
    rw [rest_keys leaves]
    exact mem_sdiff.mpr ⟨inPool, outside⟩
  ext other
  rw [mem_descendantsOf inside, mem_sdiff, mem_descendantsOf inPool, rest_keys leaves, mem_sdiff, and_right_comm]
  refine and_congr_left fun apart => and_congr_right fun _ => or_congr_right ?_
  rw [rest_ancestors leaves removable apart, mem_sdiff, and_iff_left outside]

end Rest

variable {outpoint : COutPoint}

theorem spends_unlinked {gone done : Finset Uint256} :
    Spends (unlinked pool gone done) hash outpoint ↔ Spends pool hash outpoint := by
  change Spends (severed pool gone) hash outpoint ↔ _
  rw [Spends, Spends]
  cases found : pool.mapTx.find hash with
  | none => rw [severed, find_adjust, found, map_none]
  | some entry =>
    rw [severed_found found]
    simp only [some.injEq, exists_eq_left', withSums_tx]

theorem Claims.of_spends (claims : Claims pool)
    (keyed : ∀ hash entry, pool.mapTx.find hash = some entry → entry.tx.hash = hash) (spends : Spends pool hash outpoint) :
    ∃ inpoint, pool.mapNextTx.find outpoint = some inpoint ∧ inpoint.ptx.hash = hash := by
  obtain ⟨entry, found, member⟩ := spends
  obtain ⟨txin, inside, same⟩ := mem_map.mp member
  obtain ⟨n, at'⟩ := mem_iff_getElem?.mp inside
  have own := keyed hash entry found
  refine ⟨⟨entry.tx, n⟩, (claims.nextTx _ _).mpr ⟨entry, ?_, rfl, ?_⟩, own⟩
  · rwa [own]
  · rw [at', map_some, same]

theorem Claims.spends (claims : Claims pool) {inpoint : CInPoint} (claimed : pool.mapNextTx.find outpoint = some inpoint) :
    Spends pool inpoint.ptx.hash outpoint := by
  obtain ⟨entry, found, same, at'⟩ := (claims.nextTx _ _).mp claimed
  obtain ⟨txin, there, equal⟩ := map_eq_some_iff.mp at'
  refine ⟨entry, found, mem_map.mpr ⟨txin, ?_, equal⟩⟩
  rw [same]
  exact mem_of_getElem? there

theorem Exact.rest_claims (exact_ : Exact pool) {gone : Finset Uint256} {rest : CTxMemPool}
    (leaves : Leaves (unlinked pool gone gone) gone rest) : Claims rest where
  nextTx outpoint inpoint := by
    have spent (hash : Uint256) : Spends (unlinked pool gone gone) hash outpoint ↔ Spends pool hash outpoint := spends_unlinked
    simp only [leaves.mapNextTx, spent]
    change pool.mapNextTx.find outpoint = some inpoint ∧ _ ↔ _
    constructor
    · rintro ⟨claimed, apart⟩
      have outside : inpoint.ptx.hash ∉ gone := fun member => apart _ member (exact_.claims.spends claimed)
      obtain ⟨entry, found, same, at'⟩ := (exact_.claims.nextTx _ _).mp claimed
      exact ⟨_, rest_entry leaves outside found, same, at'⟩
    · rintro ⟨entry, found, same, at'⟩
      obtain ⟨outside, old, here, rfl⟩ := rest_found leaves found
      have claimed := (exact_.claims.nextTx _ _).mpr ⟨old, here, same, at'⟩
      refine ⟨claimed, fun hash member spends => ?_⟩
      obtain ⟨other, again, own⟩ := exact_.claims.of_spends exact_.linked.keyed spends
      rw [claimed, some.injEq] at again
      rw [again, own] at outside
      exact outside member
  sized hash entry found := by
    obtain ⟨-, old, here, rfl⟩ := rest_found leaves found
    exact exact_.claims.sized hash old here

theorem Exact.rest_linked (exact_ : Exact pool) {gone : Finset Uint256} {rest : CTxMemPool}
    (leaves : Leaves (unlinked pool gone gone) gone rest) : Linked rest where
  keyed hash entry found := by
    obtain ⟨-, old, here, rfl⟩ := rest_found leaves found
    exact exact_.linked.keyed hash old here
  keys := by
    rw [rest_keys leaves, ← exact_.linked.keys, leaves.mapLinks]
    rfl
  parents hash links found := by
    obtain ⟨outside, old, here, rfl⟩ := rest_links leaves found
    rw [rest_parents leaves, if_neg outside, exact_.linked.parents hash old here]
  children hash links child found := by
    obtain ⟨outside, old, here, rfl⟩ := rest_links leaves found
    rw [rest_parents leaves, mem_sdiff, exact_.linked.children hash old child here]
    split
    · next gone => simp [gone]
    · next left => simp [left, outside]

theorem Exact.rest (exact_ : Exact pool) {gone : Finset Uint256} {rest : CTxMemPool} (inside : gone ⊆ pool.mapTx.keys)
    (removable : Removable pool gone) (leaves : Leaves (unlinked pool gone gone) gone rest) : Exact rest where
  claims := exact_.rest_claims leaves
  linked := exact_.rest_linked leaves
  sums hash entry found := by
    obtain ⟨outside, old, here, rfl⟩ := rest_found leaves found
    rw [sums_withSums, rest_descendants leaves removable (mem_of_find here) outside]
    refine sum_congr rfl fun other member => ?_
    rw [rest_weightOf leaves (mem_sdiff.mp member).2]
  totalTxSize := by
    have same : ∑ hash ∈ pool.mapTx.keys \ gone, (sizeOf rest hash : Int) = ∑ hash ∈ pool.mapTx.keys \ gone, (sizeOf pool hash : Int) :=
      sum_congr rfl fun hash member => by rw [rest_sizeOf leaves (mem_sdiff.mp member).2]
    have split := sum_sdiff (f := fun hash => (sizeOf pool hash : Int)) inside
    have old : (unlinked pool gone gone).totalTxSize = pool.totalTxSize := rfl
    have sizes : sizeOf (unlinked pool gone gone) = sizeOf pool := sizeOf_severed gone
    rw [rest_keys leaves, same, leaves.totalTxSize, old, sizes, exact_.totalTxSize]
    omega
  acyclic hash member := exact_.acyclic hash (rest_ancestors_subset leaves hash member)
  deltas hash entry found := by
    obtain ⟨-, old, here, rfl⟩ := rest_found leaves found
    rw [leaves.mapDeltas]
    exact exact_.deltas hash old here
  distinct hash entry found := by
    obtain ⟨-, old, here, rfl⟩ := rest_found leaves found
    exact exact_.distinct hash old here
  bounded := by
    have same : ∑ hash ∈ pool.mapTx.keys \ gone, sizeOf rest hash = ∑ hash ∈ pool.mapTx.keys \ gone, sizeOf pool hash :=
      sum_congr rfl fun hash member => rest_sizeOf leaves (mem_sdiff.mp member).2
    rw [rest_keys leaves, same]
    exact (sum_le_sum_of_subset sdiff_subset).trans_lt exact_.bounded
  modest := by
    refine lt_of_le_of_lt (add_le_add (sum_le (fun _ => abs_nonneg _) fun key entry found => ?_) (leaves.mapDeltas ▸ le_refl _))
      exact_.modest
    obtain ⟨-, old, here, rfl⟩ := rest_found leaves found
    exact ⟨old, here, rfl⟩

theorem Exact.rest_iff (exact_ : Exact pool) {gone : Finset Uint256} {rest : CTxMemPool} (inside : gone ⊆ pool.mapTx.keys)
    (leaves : Leaves (unlinked pool gone gone) gone rest) : GraphExact rest ↔ Removable pool gone := by
  refine ⟨fun graph hash other outside apart ancestor => ?_, fun removable => (exact_.rest inside removable leaves).graph⟩
  have inPool := (mem_closure.mp ancestor).1
  have present := mem_of_ancestor ancestor
  have left {key : Uint256} (member : key ∈ pool.mapTx.keys) (kept : key ∉ gone) : key ∈ rest.mapTx.keys := by
    rw [rest_keys leaves]
    exact mem_sdiff.mpr ⟨member, kept⟩
  have subset : descendantsOf rest {other} ⊆ descendantsOf pool {other} \ gone := by
    intro key member
    have known := descendantsOf_subset rest _ member
    rw [rest_keys leaves, mem_sdiff] at known
    refine mem_sdiff.mpr ⟨(mem_descendantsOf inPool).mpr ⟨known.1, ?_⟩, known.2⟩
    exact ((mem_descendantsOf (left inPool apart)).mp member).2.imp_right fun above => rest_ancestors_subset leaves key above
  have whole : descendantsOf rest {other} = descendantsOf pool {other} \ gone := by
    obtain ⟨old, found⟩ := find_of_mem inPool
    have sums := graph.sums other _ (rest_entry leaves apart found)
    have lively := @Exact.severed_lively pool exact_ gone other inPool
    rw [erase_eq_of_notMem apart] at lively
    have counts := congrArg Prod.fst (sums (beq_eq_false_iff_ne.mpr (ne_of_gt lively.1)))
    rw [sums_withSums, sum_weightOf_count (sdiff_subset.trans (descendantsOf_subset pool _)),
      sum_weightOf_count (descendantsOf_subset rest _)] at counts
    exact eq_of_subset_of_card_le subset (by omega)
  have descends : hash ∈ descendantsOf rest {other} := by
    rw [whole]
    exact mem_sdiff.mpr ⟨(mem_descendantsOf inPool).mpr ⟨present, .inr ancestor⟩, outside⟩
  rcases ((mem_descendantsOf (left inPool apart)).mp descends).2 with rfl | above
  · exact absurd ancestor (exact_.acyclic hash)
  · have fewer : ∀ key, poolParents rest key ⊆ poolParents pool key \ gone := by
      intro key
      rw [rest_parents leaves]
      split
      · exact empty_subset _
      · exact Subset.refl _
    exact ((mem_closure.mp above).2.weaken fewer).mono (fewer hash)

theorem Exact.removeStaged_leaves (exact_ : Exact pool) (order : Iteration) {stage : Finset Uint256} (inside : stage ⊆ pool.mapTx.keys) :
    ∃ rest, removeStaged order pool stage = some rest ∧ Leaves (unlinked pool stage stage) stage rest := by
  obtain ⟨rest, runs, leaves⟩ := leaves_fold (leaves_none (unlinked pool stage stage)) (order.nodup stage)
    (fun it _ => notMem_empty it) fun it member => inside ((order.mem_list _ _).mp member)
  rw [union_empty, order.toFinset_list] at leaves
  refine ⟨rest, ?_, leaves⟩
  rw [removeStaged, exact_.updateForRemove_eq order inside]
  exact runs

structure Without (pool : CTxMemPool) (gone : Finset Uint256) (rest : CTxMemPool) : Prop where
  keys : rest.mapTx.keys = pool.mapTx.keys \ gone
  entries : ∀ hash entry, rest.mapTx.find hash = some entry → ∃ old, pool.mapTx.find hash = some old ∧ entry.tx = old.tx
  mapDeltas : rest.mapDeltas = pool.mapDeltas

theorem Exact.removeStaged (exact_ : Exact pool) (order : Iteration) {stage : Finset Uint256} (inside : stage ⊆ pool.mapTx.keys)
    (removable : Removable pool stage) :
    ∃ rest, removeStaged order pool stage = some rest ∧ Exact rest ∧ Without pool stage rest := by
  obtain ⟨rest, runs, leaves⟩ := exact_.removeStaged_leaves order inside
  refine ⟨rest, runs, exact_.rest inside removable leaves, rest_keys leaves, fun hash entry found => ?_, leaves.mapDeltas⟩
  obtain ⟨-, old, here, rfl⟩ := rest_found leaves found
  exact ⟨old, here, rfl⟩

theorem Exact.removeStaged_iff (exact_ : Exact pool) (order : Iteration) {stage : Finset Uint256} (inside : stage ⊆ pool.mapTx.keys)
    {rest : CTxMemPool} (runs : Mempool.removeStaged order pool stage = some rest) : GraphExact rest ↔ Removable pool stage := by
  obtain ⟨same, runs', leaves⟩ := exact_.removeStaged_leaves order inside
  obtain rfl := some.inj (runs'.symm.trans runs)
  exact exact_.rest_iff inside leaves

end Pool

end Longcoin.Mempool

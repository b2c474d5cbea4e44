import Longcoin.Mempool
import Mathlib.Algebra.Order.BigOperators.Group.Finset

/-! `CalculateMemPoolAncestors` finds all ancestors of an entry, and refuses by the limits on all of them. -/

namespace Longcoin.Mempool
open Primitives Library FiniteMap Option Finset

variable {limit : Nat} {parentHashes : Finset Uint256}

theorem searchParents_ok {pool : CTxMemPool} {vin : List CTxIn} {found : Finset Uint256}
    (searched : searchParents pool limit vin parentHashes = .ok found) :
    found = parentHashes ∪ parentsIn pool vin ∧ (parentsIn pool vin = ∅ ∨ found.card + 1 ≤ limit) := by
  induction vin generalizing parentHashes with
  | nil =>
    cases searched
    simp
  | cons txin vin ih =>
    simp only [searchParents] at searched
    split at searched
    · next inPool =>
      rw [parentsIn_cons_found inPool, union_insert, ← insert_union]
      split at searched
      · cases searched
      · next few =>
        obtain ⟨same, counted⟩ := ih searched
        refine ⟨same, .inr ?_⟩
        rcases counted with none | counted
        · rw [same, none, union_empty]
          omega
        · exact counted
    · next missing =>
      rw [parentsIn_cons_missing missing]
      exact ih searched

theorem searchParents_error {pool : CTxMemPool} {vin : List CTxIn} {error : AncestorError}
    (searched : searchParents pool limit vin parentHashes = .error error) :
    limit < (parentHashes ∪ parentsIn pool vin).card + 1 := by
  induction vin generalizing parentHashes with
  | nil => cases searched
  | cons txin vin ih =>
    simp only [searchParents] at searched
    split at searched
    · next inPool =>
      rw [parentsIn_cons_found inPool, union_insert, ← insert_union]
      split at searched
      · next many =>
        have below : (insert txin.prevout.hash parentHashes).card ≤ (insert txin.prevout.hash parentHashes ∪ parentsIn pool vin).card :=
          card_le_card subset_union_left
        omega
      · exact ih searched
    · next missing =>
      rw [parentsIn_cons_missing missing]
      exact ih searched

theorem stage_one (phash : Uint256) (rest : List Uint256) (done parentHashes : Finset Uint256) :
    (if phash ∈ done then parentHashes else insert phash parentHashes) ∪ rest.toFinset \ done =
      parentHashes ∪ (phash :: rest).toFinset \ done := by
  rw [List.toFinset_cons]
  split
  · next inside => rw [insert_sdiff_of_mem _ inside]
  · next outside => rw [insert_sdiff_of_notMem _ outside, union_insert, insert_union]

theorem stageParents_some {done staged : Finset Uint256} {parents : List Uint256}
    (stage : stageParents limit done parents parentHashes = some staged) :
    staged = parentHashes ∪ parents.toFinset \ done ∧ (parents ≠ [] → staged.card + done.card + 1 ≤ limit) := by
  induction parents generalizing parentHashes with
  | nil =>
    cases stage
    simp
  | cons phash rest ih =>
    have whole := stage_one phash rest done parentHashes
    simp only [stageParents] at stage
    generalize (if phash ∈ done then parentHashes else insert phash parentHashes) = more at stage whole
    split at stage
    · cases stage
    next few =>
    obtain ⟨same, counted⟩ := ih stage
    refine ⟨same.trans whole, fun _ => ?_⟩
    cases rest with
    | nil =>
      cases stage
      omega
    | cons => exact counted (List.cons_ne_nil _ _)

theorem stageParents_none {done : Finset Uint256} {parents : List Uint256}
    (stage : stageParents limit done parents parentHashes = none) :
    limit < (parentHashes ∪ parents.toFinset \ done).card + done.card + 1 := by
  induction parents generalizing parentHashes with
  | nil => cases stage
  | cons phash rest ih =>
    have whole := stage_one phash rest done parentHashes
    simp only [stageParents] at stage
    generalize (if phash ∈ done then parentHashes else insert phash parentHashes) = more at stage whole
    rw [← whole]
    split at stage
    · next many =>
      have below : more.card ≤ (more ∪ rest.toFinset \ done).card := card_le_card subset_union_left
      omega
    · exact ih stage

def packageSize (pool : CTxMemPool) (entry : CTxMemPoolEntry) (set : Finset Uint256) : Nat :=
  entry.nTxSize + ∑ hash ∈ set, sizeOf pool hash

/-- Another entry does not take some entries beyond the descendant limits. -/
def DescendantsFit (pool : CTxMemPool) (entry : CTxMemPoolEntry) (limits : AncestorLimits) (set : Finset Uint256) : Prop :=
  ∀ hash ∈ set, ∀ ancestor, pool.mapTx.find hash = some ancestor →
    ancestor.nSizeWithDescendants + entry.nTxSize ≤ limits.limitDescendantSize ∧
    ancestor.nCountWithDescendants + 1 ≤ limits.limitDescendantCount

/-- What the loop accepts: the number of ancestors is seen only where an ancestor has parents. -/
structure LoopFits (pool : CTxMemPool) (entry : CTxMemPoolEntry) (limits : AncestorLimits) (set : Finset Uint256) : Prop where
  size : set.Nonempty → packageSize pool entry set ≤ limits.limitAncestorSize
  descendants : DescendantsFit pool entry limits set
  count : (∃ hash ∈ set, (poolParents pool hash).Nonempty) → set.card + 1 ≤ limits.limitAncestorCount

structure Under (pool : CTxMemPool) (entry : CTxMemPoolEntry) (limits : AncestorLimits) (seeds todo done : Finset Uint256)
    (total : Nat) : Prop where
  frontier : Frontier (poolParents pool) seeds todo done
  summed : total = packageSize pool entry done
  size : done.Nonempty → total ≤ limits.limitAncestorSize
  descendants : DescendantsFit pool entry limits done
  count : (∃ hash ∈ done, (poolParents pool hash).Nonempty) → (done ∪ todo).card + 1 ≤ limits.limitAncestorCount

variable {entry : CTxMemPoolEntry}

theorem packageSize_insert {pool : CTxMemPool} {staged : CTxMemPoolEntry} {set : Finset Uint256} {hash : Uint256}
    (found : pool.mapTx.find hash = some staged) (fresh : hash ∉ set) :
    packageSize pool entry (insert hash set) = packageSize pool entry set + staged.nTxSize := by
  have size : sizeOf pool hash = staged.nTxSize := by rw [sizeOf, found, elim_some]
  rw [packageSize, packageSize, sum_insert fresh, size]
  omega

theorem packageSize_mono {pool : CTxMemPool} {set other : Finset Uint256} (subset : set ⊆ other) :
    packageSize pool entry set ≤ packageSize pool entry other :=
  Nat.add_le_add_left (sum_le_sum_of_subset subset) _

variable {limits : AncestorLimits}

theorem Under.turn {pool : CTxMemPool} {staged : CTxMemPoolEntry} {seeds todo done : Finset Uint256} {total : Nat}
    (under : Under pool entry limits seeds todo done total) {stageit : Uint256} (member : stageit ∈ todo)
    (found : pool.mapTx.find stageit = some staged)
    (descendantSize : staged.nSizeWithDescendants + entry.nTxSize ≤ limits.limitDescendantSize)
    (descendants : staged.nCountWithDescendants + 1 ≤ limits.limitDescendantCount)
    (size : total + staged.nTxSize ≤ limits.limitAncestorSize)
    (count : (poolParents pool stageit).Nonempty →
      (todo.erase stageit ∪ poolParents pool stageit \ insert stageit done).card + (insert stageit done).card + 1 ≤ limits.limitAncestorCount) :
    Under pool entry limits seeds (todo.erase stageit ∪ poolParents pool stageit \ insert stageit done) (insert stageit done)
      (total + staged.nTxSize) := by
  have frontier := under.frontier.turn member
  refine ⟨frontier, ?_, fun _ => size, ?_, ?_⟩
  · rw [under.summed, packageSize_insert found (under.frontier.apart stageit member)]
  · intro hash inside ancestor here
    rcases mem_insert.mp inside with rfl | old
    · rw [found] at here
      obtain rfl := some.inj here
      exact ⟨descendantSize, descendants⟩
    · exact under.descendants hash old ancestor here
  · rintro ⟨hash, inside, parents⟩
    rcases (poolParents pool stageit).eq_empty_or_nonempty with none | some
    · have old : hash ∈ done := by
        rcases mem_insert.mp inside with rfl | old
        · rw [none] at parents
          exact absurd parents not_nonempty_empty
        · exact old
      have same : insert stageit done ∪ (todo.erase stageit ∪ poolParents pool stageit \ insert stageit done) = done ∪ todo := by
        rw [none, empty_sdiff, union_empty, insert_union, ← union_insert, insert_erase member]
      rw [same]
      exact under.count ⟨hash, old, parents⟩
    · have both := card_union_le (insert stageit done) (todo.erase stageit ∪ poolParents pool stageit \ insert stageit done)
      have few := count some
      omega

structure UpLinked (pool : CTxMemPool) : Prop where
  keys : pool.mapLinks.keys = pool.mapTx.keys
  parents : ∀ hash links, pool.mapLinks.find hash = some links → links.parents = poolParents pool hash

theorem Linked.up {pool : CTxMemPool} (linked : Linked pool) : UpLinked pool := ⟨linked.keys, linked.parents⟩

section Loop

variable {pool : CTxMemPool} (linked : UpLinked pool) {seeds : Finset Uint256} (inside : seeds ⊆ pool.mapTx.keys)
include linked inside

theorem ancestorsLoop_spec (order : Iteration) (entry : CTxMemPoolEntry) (limits : AncestorLimits) {turns : Nat}
    {todo done : Finset Uint256} {total : Nat} (under : Under pool entry limits seeds todo done total)
    (enough : (pool.mapTx.keys \ done).card < turns) :
    ∃ result, ancestorsLoop order pool entry limits turns todo done total = some result ∧
      match result with
      | .ok set => set = closure (poolParents pool) pool.mapTx.keys seeds ∧ LoopFits pool entry limits set
      | .error _ => ¬ LoopFits pool entry limits (closure (poolParents pool) pool.mapTx.keys seeds) := by
  have stays : ∀ hash ∈ pool.mapTx.keys, poolParents pool hash ⊆ pool.mapTx.keys := fun hash _ => poolParents_subset pool hash
  induction turns generalizing todo done total with
  | zero => omega
  | succ turns ih =>
    rw [ancestorsLoop]
    cases start : order.begin todo with
    | none =>
      have none := order.begin_none start
      subst none
      have whole := under.frontier.finish_closure inside stays
      refine ⟨_, rfl, whole, ?_, under.descendants, ?_⟩
      · rw [← under.summed]
        exact under.size
      · have count := under.count
        rwa [union_empty] at count
    | some stageit =>
      have member := order.begin_some start
      have reached := under.frontier.subset_closure inside stays (mem_union_right _ member)
      have inPool := (mem_closure.mp reached).1
      obtain ⟨staged, found⟩ := find_of_mem inPool
      obtain ⟨links, foundLinks⟩ := find_of_mem (linked.keys ▸ inPool)
      have listed : (order.list links.parents).toFinset = poolParents pool stageit := by
        rw [order.toFinset_list, linked.parents _ _ foundLinks]
      have fresh := under.frontier.apart stageit member
      have later := (under.frontier.turn member).subset_closure inside stays
      simp only [found, foundLinks, bind, Option.bind]
      split
      · next exceeds =>
        refine ⟨_, rfl, fun fits => ?_⟩
        have within := (fits.descendants stageit reached staged found).1
        omega
      next descendantSize =>
      split
      · next exceeds =>
        refine ⟨_, rfl, fun fits => ?_⟩
        have within := (fits.descendants stageit reached staged found).2
        omega
      next descendants =>
      split
      · next exceeds =>
        refine ⟨_, rfl, fun fits => ?_⟩
        have within := fits.size ⟨stageit, reached⟩
        have part : packageSize pool entry (insert stageit done) ≤ _ := packageSize_mono (union_subset_left later)
        rw [packageSize_insert found fresh, ← under.summed] at part
        omega
      next size =>
      cases stage : stageParents limits.limitAncestorCount (insert stageit done) (order.list links.parents) (todo.erase stageit) with
      | none =>
        refine ⟨_, rfl, fun fits => ?_⟩
        have exceeds := stageParents_none stage
        rw [listed] at exceeds
        have some : (poolParents pool stageit).Nonempty := by
          rw [← listed, List.toFinset_nonempty_iff]
          intro none
          rw [none] at stage
          cases stage
        have within := fits.count ⟨stageit, reached, some⟩
        have part := card_le_card later
        rw [card_union_of_disjoint (disjoint_right.mpr (under.frontier.turn member).apart)] at part
        omega
      | some staging =>
        obtain ⟨same, counted⟩ := stageParents_some stage
        rw [listed] at same
        subst same
        refine ih (under.turn member found (by omega) (by omega) (by omega) fun some => counted ?_) ?_
        · rw [← List.toFinset_nonempty_iff, listed]
          exact some
        · have fewer := under.frontier.fewer member inPool
          omega

end Loop

structure InLimits (pool : CTxMemPool) (entry : CTxMemPoolEntry) (limits : AncestorLimits) : Prop where
  count : (ancestorsOf pool entry.tx).card + 1 ≤ limits.limitAncestorCount
  size : packageSize pool entry (ancestorsOf pool entry.tx) ≤ limits.limitAncestorSize
  descendants : DescendantsFit pool entry limits (ancestorsOf pool entry.tx)

/-- In any order and either way of finding the parents the calculation ends, accepts by the limits alone, and then finds
all ancestors. -/
def AncestorsExact (pool : CTxMemPool) (entry : CTxMemPoolEntry) (limits : AncestorLimits) : Prop :=
  ∀ (order : Iteration) (turns : Nat) (fSearchForParents : Bool), pool.mapTx.keys.card < turns →
    (fSearchForParents = true ∨ pool.mapTx.find entry.tx.hash = some entry) →
    ∃ result, calculateMemPoolAncestors order pool turns entry limits fSearchForParents = some result ∧
      ((∃ set, result = .ok set) ↔ InLimits pool entry limits) ∧ ∀ set, result = .ok set → set = ancestorsOf pool entry.tx

/-- An entry of the pool with more parents than allowed, none of which has parents itself, and within the other limits. -/
structure Unchecked (pool : CTxMemPool) (entry : CTxMemPoolEntry) (limits : AncestorLimits) : Prop where
  inPool : pool.mapTx.find entry.tx.hash = some entry
  flat : ∀ parent ∈ parentsOf pool entry.tx, poolParents pool parent = ∅
  many : limits.limitAncestorCount < (parentsOf pool entry.tx).card + 1
  size : packageSize pool entry (parentsOf pool entry.tx) ≤ limits.limitAncestorSize
  descendants : DescendantsFit pool entry limits (parentsOf pool entry.tx)

theorem parentsOf_subset (pool : CTxMemPool) (tx : CTransaction) : parentsOf pool tx ⊆ pool.mapTx.keys := filter_subset _ _

theorem parentsOf_subset_ancestorsOf (pool : CTxMemPool) (tx : CTransaction) : parentsOf pool tx ⊆ ancestorsOf pool tx :=
  fun _ member => mem_closure.mpr ⟨parentsOf_subset pool tx member, .seed member⟩

theorem ancestorsOf_flat {pool : CTxMemPool} {tx : CTransaction} (flat : ∀ parent ∈ parentsOf pool tx, poolParents pool parent = ∅) :
    ancestorsOf pool tx = parentsOf pool tx := by
  refine Subset.antisymm ?_ (parentsOf_subset_ancestorsOf pool tx)
  intro hash member
  refine (mem_closure.mp member).2.inside (Subset.refl _) fun parent inside => ?_
  rw [flat parent inside]
  exact empty_subset _

theorem LoopFits.of_inLimits {pool : CTxMemPool} (fits : InLimits pool entry limits) :
    LoopFits pool entry limits (ancestorsOf pool entry.tx) := ⟨fun _ => fits.size, fits.descendants, fun _ => fits.count⟩

theorem LoopFits.inLimits {pool : CTxMemPool} (parents : (parentsOf pool entry.tx).Nonempty)
    (fits : LoopFits pool entry limits (ancestorsOf pool entry.tx))
    (counted : (∀ parent ∈ parentsOf pool entry.tx, poolParents pool parent = ∅) → (parentsOf pool entry.tx).card + 1 ≤ limits.limitAncestorCount) :
    InLimits pool entry limits := by
  refine ⟨?_, fits.size (parents.mono (parentsOf_subset_ancestorsOf pool entry.tx)), fits.descendants⟩
  by_cases flat : ∀ parent ∈ parentsOf pool entry.tx, poolParents pool parent = ∅
  · rw [ancestorsOf_flat flat]
    exact counted flat
  · obtain ⟨parent, notFlat⟩ := not_forall.mp flat
    obtain ⟨member, some⟩ := not_forall.mp notFlat
    exact fits.count ⟨parent, parentsOf_subset_ancestorsOf pool entry.tx member, nonempty_iff_ne_empty.mpr some⟩

theorem under_start (pool : CTxMemPool) (entry : CTxMemPoolEntry) (limits : AncestorLimits) (seeds : Finset Uint256) :
    Under pool entry limits seeds seeds ∅ entry.nTxSize where
  frontier := .start
  summed := by rw [packageSize, Finset.sum_empty, Nat.add_zero]
  size some := absurd some Finset.not_nonempty_empty
  descendants hash member := absurd member (Finset.notMem_empty _)
  count := by
    rintro ⟨hash, member, -⟩
    exact absurd member (Finset.notMem_empty _)

theorem loop_spec {pool : CTxMemPool} (linked : UpLinked pool) (order : Iteration) (entry : CTxMemPoolEntry) (limits : AncestorLimits)
    {turns : Nat} (enough : pool.mapTx.keys.card < turns) :
    ∃ result, ancestorsLoop order pool entry limits turns (parentsOf pool entry.tx) ∅ entry.nTxSize = some result ∧
      ((∃ set, result = .ok set) ↔ LoopFits pool entry limits (ancestorsOf pool entry.tx)) ∧
      ∀ set, result = .ok set → set = ancestorsOf pool entry.tx := by
  obtain ⟨result, runs, spec⟩ := ancestorsLoop_spec linked (parentsOf_subset pool entry.tx) order entry limits
    (under_start pool entry limits _) (by rwa [sdiff_empty])
  refine ⟨result, runs, ?_⟩
  cases result with
  | error error =>
    refine ⟨iff_of_false ?_ spec, ?_⟩
    · rintro ⟨set, same⟩
      cases same
    · intro set same
      cases same
  | ok set =>
    obtain ⟨same, fits⟩ := spec
    rw [same] at fits ⊢
    refine ⟨iff_of_true ⟨_, rfl⟩ fits, ?_⟩
    intro other again
    cases again
    rfl

/-- In the order of `Finset.toList`. -/
noncomputable def listOrder : Iteration := ⟨Finset.toList, fun _ _ => Finset.mem_toList, Finset.nodup_toList⟩

theorem links_spec {pool : CTxMemPool} (linked : UpLinked pool) (inPool : pool.mapTx.find entry.tx.hash = some entry)
    (order : Iteration) (turns : Nat) (limits : AncestorLimits) :
    calculateMemPoolAncestors order pool turns entry limits false =
      ancestorsLoop order pool entry limits turns (parentsOf pool entry.tx) ∅ entry.nTxSize := by
  obtain ⟨links, found⟩ := find_of_mem (linked.keys ▸ mem_of_find inPool)
  rw [calculateMemPoolAncestors, if_neg Bool.false_ne_true]
  simp only [found, bind, Option.bind]
  rw [linked.parents _ _ found, poolParents_found inPool]

theorem ancestors_of_accepted {pool : CTxMemPool} (linked : Linked pool) {order : Iteration} {set : Finset Uint256}
    (accepted : calculateMemPoolAncestors order pool (pool.mapTx.keys.card + 1) entry limits true = some (.ok set)) :
    set = ancestorsOf pool entry.tx := by
  rw [calculateMemPoolAncestors, if_pos rfl] at accepted
  cases searched : searchParents pool limits.limitAncestorCount entry.tx.vin ∅ with
  | error error =>
    rw [searched] at accepted
    cases accepted
  | ok found =>
    have same := (searchParents_ok searched).1
    rw [empty_union] at same
    subst same
    rw [searched] at accepted
    obtain ⟨result, runs, -, exact_⟩ := loop_spec linked.up order entry limits (Nat.lt_succ_self _)
    exact exact_ set (some.inj (runs.symm.trans accepted))

theorem Unchecked.not_exact {pool : CTxMemPool} (linked : Linked pool) (unchecked : Unchecked pool entry limits) :
    ¬ AncestorsExact pool entry limits := by
  intro exact_
  have flat := ancestorsOf_flat unchecked.flat
  obtain ⟨result, runs, accepts, -⟩ := exact_ listOrder _ false (Nat.lt_succ_self _) (.inr unchecked.inPool)
  obtain ⟨other, runs', accepts', -⟩ := loop_spec linked.up listOrder entry limits (Nat.lt_succ_self pool.mapTx.keys.card)
  rw [links_spec linked.up unchecked.inPool, runs'] at runs
  obtain rfl := some.inj runs
  have fits : LoopFits pool entry limits (ancestorsOf pool entry.tx) := by
    rw [flat]
    refine ⟨fun _ => unchecked.size, unchecked.descendants, ?_⟩
    rintro ⟨hash, member, some⟩
    rw [unchecked.flat hash member] at some
    exact absurd some not_nonempty_empty
  have count := (accepts.mp (accepts'.mpr fits)).count
  rw [flat] at count
  exact absurd unchecked.many (by omega)

/-- The calculation is exact for an entry with parents in the pool, but for the entries of the pool whose too many parents
have no parents. -/
theorem ancestors_exact_iff {pool : CTxMemPool} (linked : Linked pool) {entry : CTxMemPoolEntry} {limits : AncestorLimits}
    (parents : (parentsOf pool entry.tx).Nonempty) : AncestorsExact pool entry limits ↔ ¬ Unchecked pool entry limits := by
  refine ⟨fun exact_ unchecked => unchecked.not_exact linked exact_, ?_⟩
  intro checked order turns fSearchForParents enough mode
  obtain ⟨result, runs, accepts, set⟩ := loop_spec linked.up order entry limits enough
  cases fSearchForParents with
  | false =>
    have inPool := mode.resolve_left Bool.false_ne_true
    refine ⟨result, by rw [links_spec linked.up inPool, runs], ?_, set⟩
    rw [accepts]
    refine ⟨fun fits => fits.inLimits parents fun flat => ?_, .of_inLimits⟩
    by_contra many
    rw [ancestorsOf_flat flat] at fits
    exact checked ⟨inPool, flat, by omega, fits.size parents, fits.descendants⟩
  | true =>
    rw [calculateMemPoolAncestors, if_pos rfl]
    cases searched : searchParents pool limits.limitAncestorCount entry.tx.vin ∅ with
    | error error =>
      refine ⟨.error error, rfl, iff_of_false ?_ ?_, ?_⟩
      · rintro ⟨set, same⟩
        cases same
      · intro fits
        have many := searchParents_error searched
        rw [empty_union] at many
        have part := card_le_card (parentsOf_subset_ancestorsOf pool entry.tx)
        have count := fits.count
        rw [parentsOf] at part
        omega
      · intro set same
        cases same
    | ok found =>
      obtain ⟨same, counted⟩ := searchParents_ok searched
      rw [empty_union] at same
      subst same
      refine ⟨result, runs, ?_, set⟩
      rw [accepts]
      exact ⟨fun fits => fits.inLimits parents fun _ => counted.resolve_left parents.ne_empty, .of_inLimits⟩

def parentTx : CTransaction := { hash := 1, vin := [{ prevout := ⟨9, 0⟩ }], vout := [⟨5, []⟩] }

def childTx : CTransaction := { hash := 2, vin := [{ prevout := ⟨1, 0⟩ }], vout := [⟨4, []⟩] }

def parentEntry : CTxMemPoolEntry :=
  { tx := parentTx, nFee := 1, nTxSize := 100, nCountWithDescendants := 2, nSizeWithDescendants := 200, nModFeesWithDescendants := 2 }

def childEntry : CTxMemPoolEntry := { tx := childTx, nFee := 1, nTxSize := 100, nSizeWithDescendants := 100, nModFeesWithDescendants := 1 }

def pairPool : CTxMemPool where
  mapTx := (FiniteMap.empty.put 1 parentEntry).put 2 childEntry
  mapLinks := (FiniteMap.empty.put 1 { children := {2} }).put 2 { parents := {1} }
  mapNextTx := (FiniteMap.empty.put ⟨9, 0⟩ ⟨parentTx, 0⟩).put ⟨1, 0⟩ ⟨childTx, 0⟩

theorem pairPool_linked : Linked pairPool where
  keyed hash entry found := by
    rw [pairPool, find_put, find_put] at found
    split at found
    · next same =>
      obtain rfl := some.inj found
      exact same.symm
    split at found
    · next same =>
      obtain rfl := some.inj found
      exact same.symm
    · cases found
  keys := rfl
  parents hash links found := by
    rw [pairPool, find_put, find_put] at found
    split at found
    · next same =>
      obtain rfl := some.inj found
      subst same
      decide
    split at found
    · next same =>
      obtain rfl := some.inj found
      subst same
      decide
    · cases found
  children hash links child found := by
    have onlyChild : hash ∈ poolParents pairPool child ↔ child = 2 ∧ hash = 1 := by
      by_cases two : child = 2
      · subst two
        have alone : poolParents pairPool 2 = {1} := by decide
        rw [alone, mem_singleton, eq_self_iff_true, true_and]
      · have none : poolParents pairPool child = ∅ := by
          by_cases one : child = 1
          · subst one
            decide
          · rw [poolParents, pairPool, find_put_ne two, find_put_ne one]
            rfl
        rw [none]
        exact iff_of_false (notMem_empty _) fun both => two both.1
    rw [onlyChild]
    rw [pairPool, find_put, find_put] at found
    split at found
    · next same =>
      obtain rfl := some.inj found
      subst same
      exact iff_of_false (notMem_empty _) fun both => absurd both.2 (by decide)
    split at found
    · next same =>
      obtain rfl := some.inj found
      subst same
      rw [mem_singleton, eq_self_iff_true, and_true]
    · cases found

theorem ancestors_exact_pair : AncestorsExact pairPool childEntry ⟨25, 101000, 25, 101000⟩ :=
  (ancestors_exact_iff pairPool_linked ⟨1, by decide⟩).mpr fun unchecked => absurd unchecked.many (by decide)

/-- With a limit of one the parent of the child is one too many by the inputs, and no one asks by the links. -/
theorem ancestors_unchecked : ¬ ∀ (pool : CTxMemPool) (entry : CTxMemPoolEntry) (limits : AncestorLimits), Linked pool →
    (parentsOf pool entry.tx).Nonempty → AncestorsExact pool entry limits := by
  intro every
  have alone : parentsOf pairPool childEntry.tx = {1} := by decide
  have unchecked : Unchecked pairPool childEntry ⟨1, 101000, 25, 101000⟩ := by
    refine ⟨rfl, ?_, by decide, by decide, ?_⟩
    · intro parent member
      rw [alone, mem_singleton] at member
      subst member
      decide
    · intro hash member ancestor found
      rw [alone, mem_singleton] at member
      subst member
      have parent : pairPool.mapTx.find 1 = some parentEntry := rfl
      rw [parent] at found
      obtain rfl := some.inj found
      decide
  exact unchecked.not_exact pairPool_linked (every _ _ _ pairPool_linked ⟨1, by decide⟩)

end Longcoin.Mempool

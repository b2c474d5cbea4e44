import Longcoin.MempoolAddition

/-! The operations that change the pool (`txmempool.cpp`), and that each of them keeps it exact. -/

namespace Longcoin.Mempool
open Primitives Library FiniteMap List Option Finset

/-- The transaction that spends an output is to be removed. -/
def addSpender (pool : CTxMemPool) (hash : Uint256) (txToRemove : Finset Uint256) (i : Nat) : Option (Finset Uint256) :=
  match pool.mapNextTx.find ⟨hash, i⟩ with
  | none => some txToRemove
  | some it => (pool.mapTx.find it.ptx.hash).map fun _ => insert it.ptx.hash txToRemove

/-- The transactions that spend outputs of a transaction that is not in the pool. Nothing where an assertion fails. -/
def spendersOf (pool : CTxMemPool) (origTx : CTransaction) : Option (Finset Uint256) :=
  (List.range origTx.vout.length).foldlM (addSpender pool origTx.hash) ∅

def calculateAllDescendants (order : Iteration) (pool : CTxMemPool) (entries : Finset Uint256) : Option (Finset Uint256) :=
  (order.list entries).foldlM (fun found it => calculateDescendants order pool it found) ∅

def txToRemove (pool : CTxMemPool) (origTx : CTransaction) (fRecursive : Bool) : Option (Finset Uint256) :=
  if (pool.mapTx.find origTx.hash).isSome then some {origTx.hash}
  else if fRecursive then spendersOf pool origTx
  else some ∅

def setAllRemoves (order : Iteration) (pool : CTxMemPool) (origTx : CTransaction) (fRecursive : Bool) : Option (Finset Uint256) :=
  (txToRemove pool origTx fRecursive).bind fun txToRemove =>
    if fRecursive then calculateAllDescendants order pool txToRemove else some txToRemove

/-- `remove`: the pool that is left, and the removed transactions. -/
def remove (order : Iteration) (pool : CTxMemPool) (origTx : CTransaction) (fRecursive : Bool) :
    Option (CTxMemPool × List CTransaction) := do
  let stage ← setAllRemoves order pool origTx fRecursive
  let rest ← removeStaged order pool stage
  return (rest, (order.list stage).filterMap fun it => (pool.mapTx.find it).map CTxMemPoolEntry.tx)

/-- `ClearPrioritisation` -/
def clearPrioritisation (pool : CTxMemPool) (hash : Uint256) : CTxMemPool := { pool with mapDeltas := pool.mapDeltas.erase hash }

def removeConflict (order : Iteration) (tx : CTransaction) (pool : CTxMemPool × List CTransaction) (txin : CTxIn) :
    Option (CTxMemPool × List CTransaction) :=
  match pool.1.mapNextTx.find txin.prevout with
  | none => some pool
  | some it =>
    if it.ptx.hash ≠ tx.hash then
      (remove order pool.1 it.ptx true).map fun rest => (clearPrioritisation rest.1 it.ptx.hash, pool.2 ++ rest.2)
    else some pool

/-- `removeConflicts` -/
def removeConflicts (order : Iteration) (pool : CTxMemPool) (tx : CTransaction) : Option (CTxMemPool × List CTransaction) :=
  tx.vin.foldlM (removeConflict order tx) (pool, [])

/-- What `removeForBlock` does for one transaction of the block. -/
def removeForTx (order : Iteration) (pool : CTxMemPool × List CTransaction) (tx : CTransaction) :
    Option (CTxMemPool × List CTransaction) := do
  let rest ← remove order pool.1 tx false
  let conflicts ← removeConflicts order rest.1 tx
  return (clearPrioritisation conflicts.1 tx.hash, pool.2 ++ conflicts.2)

/-- `removeForBlock`: the pool that is left, and the conflicts. -/
def removeForBlock (order : Iteration) (pool : CTxMemPool) (vtx : List CTransaction) : Option (CTxMemPool × List CTransaction) :=
  vtx.foldlM (removeForTx order) (pool, [])

def entriesBefore (pool : CTxMemPool) (time : Int) : Finset Uint256 :=
  pool.mapTx.keys.filter fun hash => (pool.mapTx.find hash).any fun entry => entry.nTime < time

/-- `Expire`: the pool that is left, and how many entries are not. -/
def expire (order : Iteration) (pool : CTxMemPool) (time : Int) : Option (CTxMemPool × Nat) := do
  let stage ← calculateAllDescendants order pool (entriesBefore pool time)
  let rest ← removeStaged order pool stage
  return (rest, stage.card)

/-- The memory that a pool takes, and the entry that is first by the score of its descendants. -/
structure Memory where
  dynamicMemoryUsage : CTxMemPool → Nat
  lowest : CTxMemPool → Option Uint256
  lowest_some : ∀ pool hash, lowest pool = some hash → hash ∈ pool.mapTx.keys
  lowest_none : ∀ pool, lowest pool = none → pool.mapTx.keys = ∅

/-- What the removed transactions spent from, where nothing of it is left in the pool. -/
def noSpendsRemaining (pool : CTxMemPool) (txn : List CTransaction) : List Uint256 :=
  (txn.flatMap fun tx => tx.vin.map fun txin => txin.prevout.hash).filter fun hash =>
    !(pool.mapTx.find hash).isSome && !decide (∃ outpoint ∈ pool.mapNextTx.keys, outpoint.hash = hash)

/-- The loop of `TrimToSize`. Nothing when the turns run out, or when the first entry of an empty pool is asked for. -/
def trimLoop (order : Iteration) (memory : Memory) (sizelimit : Nat) : Nat → CTxMemPool → Option (CTxMemPool × List Uint256)
  | 0, _ => none
  | turns + 1, pool =>
    if memory.dynamicMemoryUsage pool ≤ sizelimit then some (pool, [])
    else do
      let it ← memory.lowest pool
      let stage ← calculateDescendants order pool it ∅
      let rest ← removeStaged order pool stage
      let txn := (order.list stage).filterMap fun hash => (pool.mapTx.find hash).map CTxMemPoolEntry.tx
      let (last, later) ← trimLoop order memory sizelimit turns rest
      return (last, noSpendsRemaining rest txn ++ later)

/-- `TrimToSize` -/
def trimToSize (order : Iteration) (memory : Memory) (pool : CTxMemPool) (sizelimit : Nat) : Option (CTxMemPool × List Uint256) :=
  trimLoop order memory sizelimit (pool.mapTx.keys.card + 1) pool

def prioritiseTransaction (order : Iteration) (pool : CTxMemPool) (hash : Uint256) (nFeeDelta : Int) : Option CTxMemPool :=
  let delta := (pool.mapDeltas.find hash).getD 0 + nFeeDelta
  let pool := { pool with mapDeltas := pool.mapDeltas.put hash delta }
  match pool.mapTx.find hash with
  | none => some pool
  | some entry => do
    let pool := { pool with mapTx := pool.mapTx.put hash (entry.updateFeeDelta delta) }
    let setAncestors ← linkedAncestors order pool hash
    (order.list setAncestors).foldlM (updateDescendantState 0 nFeeDelta 0) pool

/-- The entries that are left are of the same transactions. -/
def Shrinks (pool rest : CTxMemPool) : Prop :=
  ∀ hash entry, rest.mapTx.find hash = some entry → ∃ old, pool.mapTx.find hash = some old ∧ entry.tx = old.tx

theorem Shrinks.refl (pool : CTxMemPool) : Shrinks pool pool := fun _ entry found => ⟨entry, found, rfl⟩

theorem Shrinks.trans {pool rest last : CTxMemPool} (first : Shrinks pool rest) (second : Shrinks rest last) : Shrinks pool last := by
  intro hash entry found
  obtain ⟨middle, there, same⟩ := second hash entry found
  obtain ⟨old, here, equal⟩ := first hash middle there
  exact ⟨old, here, same.trans equal⟩

theorem Shrinks.keys {pool rest : CTxMemPool} (shrinks : Shrinks pool rest) : rest.mapTx.keys ⊆ pool.mapTx.keys := by
  intro hash member
  obtain ⟨entry, found⟩ := find_of_mem member
  obtain ⟨old, here, -⟩ := shrinks hash entry found
  exact mem_of_find here

theorem Shrinks.poolParents {pool rest : CTxMemPool} (shrinks : Shrinks pool rest) (hash : Uint256) :
    poolParents rest hash ⊆ poolParents pool hash := by
  cases found : rest.mapTx.find hash with
  | none =>
    rw [poolParents_missing (find_eq_none.mp found)]
    exact empty_subset _
  | some entry =>
    obtain ⟨old, here, same⟩ := shrinks hash entry found
    rw [poolParents_found found, poolParents_found here, same]
    exact filter_subset_filter _ shrinks.keys

section Operations

variable {pool : CTxMemPool} (exact_ : Exact pool) (order : Iteration)
include exact_

theorem Exact.calculateAllDescendants_eq {entries : Finset Uint256} (inside : entries ⊆ pool.mapTx.keys) :
    calculateAllDescendants order pool entries = some (descendantsOf pool entries) := by
  have fold := calculateDescendants_fold exact_.linked order (empty_subset _)
    fun hash member => inside ((order.mem_list entries hash).mp member)
  rwa [descendantsOf_empty, order.toFinset_list, union_empty] at fold

omit exact_ in
theorem removable_descendants (entries : Finset Uint256) : Removable pool (descendantsOf pool entries) :=
  removable_of_children fun _ member => closure_closed (fun hash _ => poolChildren_subset pool hash) member

theorem Exact.removeDescendants (entries : Finset Uint256) :
    ∃ rest, Mempool.removeStaged order pool (descendantsOf pool entries) = some rest ∧ Exact rest ∧
      Without pool (descendantsOf pool entries) rest :=
  exact_.removeStaged order (descendantsOf_subset pool entries) (removable_descendants entries)

theorem Exact.spenders_fold (hash : Uint256) (items : List Nat) {before : Finset Uint256} (inside : before ⊆ pool.mapTx.keys) :
    ∃ spenders, items.foldlM (addSpender pool hash) before = some spenders ∧ spenders ⊆ pool.mapTx.keys := by
  induction items generalizing before with
  | nil => exact ⟨before, rfl, inside⟩
  | cons i items ih =>
    rw [foldlM_cons, addSpender]
    cases claimed : pool.mapNextTx.find ⟨hash, i⟩ with
    | none => exact ih inside
    | some it =>
      obtain ⟨entry, found, -⟩ := exact_.claims.spends claimed
      dsimp only
      rw [found]
      exact ih (insert_subset (mem_of_find found) inside)

theorem Exact.txToRemove_ok (origTx : CTransaction) (fRecursive : Bool) :
    ∃ start, txToRemove pool origTx fRecursive = some start ∧ start ⊆ pool.mapTx.keys ∧
      (origTx.hash ∈ pool.mapTx.keys → start = {origTx.hash}) ∧
      (origTx.hash ∉ pool.mapTx.keys → fRecursive = false → start = ∅) := by
  rw [txToRemove]
  by_cases inPool : origTx.hash ∈ pool.mapTx.keys
  · rw [if_pos ((pool.mapTx.mem_keys _).mp inPool)]
    exact ⟨_, rfl, singleton_subset_iff.mpr inPool, fun _ => rfl, fun missing => absurd inPool missing⟩
  · rw [if_neg fun found => inPool ((pool.mapTx.mem_keys _).mpr found)]
    cases fRecursive with
    | false => exact ⟨_, rfl, empty_subset _, fun member => absurd member inPool, fun _ _ => rfl⟩
    | true =>
      obtain ⟨spenders, found, inside⟩ := exact_.spenders_fold origTx.hash (range origTx.vout.length) (empty_subset _)
      exact ⟨spenders, found, inside, fun member => absurd member inPool, fun _ never => Bool.noConfusion never⟩

theorem Exact.setAllRemoves_ok (origTx : CTransaction) (fRecursive : Bool)
    (separable : fRecursive = false → origTx.hash ∈ pool.mapTx.keys → Removable pool {origTx.hash}) :
    ∃ stage, setAllRemoves order pool origTx fRecursive = some stage ∧ stage ⊆ pool.mapTx.keys ∧
      (origTx.hash ∈ pool.mapTx.keys → origTx.hash ∈ stage) ∧ Removable pool stage := by
  obtain ⟨start, started, inside, alone, none⟩ := exact_.txToRemove_ok origTx fRecursive
  rw [setAllRemoves, started, bind_some]
  cases fRecursive with
  | true =>
    refine ⟨_, exact_.calculateAllDescendants_eq order inside, descendantsOf_subset pool _, fun inPool => ?_, removable_descendants _⟩
    refine mem_closure.mpr ⟨inPool, .seed ?_⟩
    rw [alone inPool]
    exact Finset.mem_singleton_self _
  | false =>
    refine ⟨start, rfl, inside, fun inPool => ?_, ?_⟩
    · rw [alone inPool]
      exact Finset.mem_singleton_self _
    · by_cases inPool : origTx.hash ∈ pool.mapTx.keys
      · rw [alone inPool]
        exact separable rfl inPool
      · rw [none inPool rfl]
        exact removable_of_children fun hash member => absurd member (notMem_empty _)

theorem Exact.remove (origTx : CTransaction) (fRecursive : Bool)
    (separable : fRecursive = false → origTx.hash ∈ pool.mapTx.keys → Removable pool {origTx.hash}) :
    ∃ rest removed, Mempool.remove order pool origTx fRecursive = some (rest, removed) ∧ Exact rest ∧ Shrinks pool rest ∧
      origTx.hash ∉ rest.mapTx.keys ∧ rest.mapDeltas = pool.mapDeltas := by
  obtain ⟨stage, collected, inside, own, removable⟩ := exact_.setAllRemoves_ok order origTx fRecursive separable
  obtain ⟨rest, staged, kept, without⟩ := exact_.removeStaged order inside removable
  refine ⟨rest, (order.list stage).filterMap fun it => (pool.mapTx.find it).map CTxMemPoolEntry.tx, ?_, kept, without.entries,
    fun member => ?_, without.mapDeltas⟩
  · rw [Mempool.remove, collected]
    simp only [bind, staged, Option.bind]
    rfl
  · rw [without.keys, mem_sdiff] at member
    exact member.2 (own member.1)

theorem Exact.clearPrioritisation {hash : Uint256} (absent : hash ∉ pool.mapTx.keys) : Exact (clearPrioritisation pool hash) where
  claims := ⟨exact_.claims.nextTx, exact_.claims.sized⟩
  linked := { exact_.linked with }
  sums := exact_.sums
  totalTxSize := exact_.totalTxSize
  acyclic := exact_.acyclic
  deltas other entry found := by
    have different : other ≠ hash := by
      rintro rfl
      exact absent (mem_of_find found)
    rw [Mempool.clearPrioritisation, find_erase_ne different]
    exact exact_.deltas other entry found
  distinct := exact_.distinct
  bounded := exact_.bounded
  modest := by
    refine lt_of_le_of_lt (add_le_add_right (sum_le (fun _ => abs_nonneg _) fun key delta found => ⟨delta, ?_, rfl⟩) _) exact_.modest
    rw [Mempool.clearPrioritisation, find_erase] at found
    split at found
    · cases found
    · exact found

theorem Exact.removeConflict (tx : CTransaction) (removed : List CTransaction) (txin : CTxIn) :
    ∃ rest, Mempool.removeConflict order tx (pool, removed) txin = some rest ∧ Exact rest.1 ∧ Shrinks pool rest.1 := by
  rw [Mempool.removeConflict]
  cases claimed : pool.mapNextTx.find txin.prevout with
  | none => exact ⟨_, rfl, exact_, .refl pool⟩
  | some it =>
    dsimp only
    split
    · obtain ⟨rest, more, runs, kept, shrinks, absent, -⟩ := exact_.remove order it.ptx true fun never => Bool.noConfusion never
      exact ⟨_, by rw [runs, map_some], kept.clearPrioritisation absent, shrinks⟩
    · exact ⟨_, rfl, exact_, .refl pool⟩

theorem Exact.removeConflicts_fold (tx : CTransaction) (vin : List CTxIn) (removed : List CTransaction) :
    ∃ rest, vin.foldlM (Mempool.removeConflict order tx) (pool, removed) = some rest ∧ Exact rest.1 ∧ Shrinks pool rest.1 := by
  induction vin generalizing pool removed with
  | nil => exact ⟨_, rfl, exact_, .refl pool⟩
  | cons txin vin ih =>
    obtain ⟨rest, turn, kept, shrinks⟩ := exact_.removeConflict order tx removed txin
    obtain ⟨last, runs, exact', further⟩ := ih kept rest.2
    rw [foldlM_cons, turn]
    exact ⟨last, runs, exact', shrinks.trans further⟩

theorem Exact.removeForTx (conflicts : List CTransaction) (tx : CTransaction)
    (separable : tx.hash ∈ pool.mapTx.keys → Removable pool {tx.hash}) :
    ∃ rest, Mempool.removeForTx order (pool, conflicts) tx = some rest ∧ Exact rest.1 ∧ Shrinks pool rest.1 ∧
      tx.hash ∉ rest.1.mapTx.keys := by
  obtain ⟨middle, removed, runs, kept, shrinks, absent, -⟩ := exact_.remove order tx false fun _ => separable
  obtain ⟨last, more, exact', further⟩ := kept.removeConflicts_fold order tx tx.vin []
  have missing : tx.hash ∉ last.1.mapTx.keys := fun member => absent (further.keys member)
  refine ⟨(Mempool.clearPrioritisation last.1 tx.hash, conflicts ++ last.2), ?_, exact'.clearPrioritisation missing,
    shrinks.trans further, missing⟩
  simp only [Mempool.removeForTx, runs, bind, Option.bind, removeConflicts, more]
  rfl

theorem Exact.expire (time : Int) :
    ∃ rest, Mempool.expire order pool time = some rest ∧ Exact rest.1 ∧ Shrinks pool rest.1 := by
  have inside : entriesBefore pool time ⊆ pool.mapTx.keys := filter_subset _ _
  obtain ⟨rest, staged, kept, without⟩ := exact_.removeDescendants order (entriesBefore pool time)
  refine ⟨(rest, (descendantsOf pool (entriesBefore pool time)).card), ?_, kept, without.entries⟩
  simp only [Mempool.expire, exact_.calculateAllDescendants_eq order inside, staged, bind, Option.bind]
  rfl

end Operations

/-- Each transaction of a block is one that no two others are related through alone when it is removed. -/
def Separable (order : Iteration) : CTxMemPool → List CTransaction → Prop
  | _, [] => True
  | pool, tx :: vtx => (tx.hash ∈ pool.mapTx.keys → Removable pool {tx.hash}) ∧
      ∀ conflicts rest, removeForTx order (pool, conflicts) tx = some rest → Separable order rest.1 vtx

/-- Of every transaction of the pool that is in the block, the parents in the pool are in the block before it. -/
def ParentsFirst (pool : CTxMemPool) (vtx : List CTransaction) : Prop :=
  ∀ front tx back, vtx = front ++ tx :: back → ∀ parent ∈ poolParents pool tx.hash, ∃ earlier ∈ front, earlier.hash = parent

theorem Exact.removeForBlock_fold {pool : CTxMemPool} (exact_ : Exact pool) (order : Iteration) {vtx : List CTransaction}
    (separable : Separable order pool vtx) (conflicts : List CTransaction) :
    ∃ rest, vtx.foldlM (Mempool.removeForTx order) (pool, conflicts) = some rest ∧ Exact rest.1 ∧ Shrinks pool rest.1 := by
  induction vtx generalizing pool conflicts with
  | nil => exact ⟨_, rfl, exact_, .refl pool⟩
  | cons tx vtx ih =>
    obtain ⟨here, later⟩ := separable
    obtain ⟨rest, turn, kept, shrinks, -⟩ := exact_.removeForTx order conflicts tx here
    obtain ⟨last, runs, exact', further⟩ := ih kept (later conflicts rest turn) rest.2
    rw [foldlM_cons, turn]
    exact ⟨last, runs, exact', shrinks.trans further⟩

theorem Exact.separable {pool : CTxMemPool} (exact_ : Exact pool) (order : Iteration) {vtx : List CTransaction}
    (first : ParentsFirst pool vtx) : Separable order pool vtx := by
  induction vtx generalizing pool with
  | nil => exact trivial
  | cons tx vtx ih =>
    have orphan : poolParents pool tx.hash = ∅ := by
      rw [eq_empty_iff_forall_notMem]
      intro parent member
      obtain ⟨earlier, none, -⟩ := first [] tx vtx rfl parent member
      exact not_mem_nil none
    have removable : Removable pool {tx.hash} := by
      refine removable_of_parents fun hash member => ?_
      rw [Finset.mem_singleton.mp member, orphan]
      exact empty_subset _
    refine ⟨fun _ => removable, fun conflicts rest turn => ?_⟩
    obtain ⟨same, runs, kept, shrinks, absent⟩ := exact_.removeForTx order conflicts tx fun _ => removable
    obtain rfl := some.inj (runs.symm.trans turn)
    refine ih kept fun front other back split parent member => ?_
    obtain ⟨earlier, inside, own⟩ := first (tx :: front) other back (by rw [split, cons_append]) parent (shrinks.poolParents _ member)
    rcases mem_cons.mp inside with rfl | before
    · rw [own] at absent
      exact absurd (poolParents_subset _ _ member) absent
    · exact ⟨earlier, before, own⟩

/-- The limit is not below what a pool without entries takes. -/
def Attainable (memory : Memory) (pool : CTxMemPool) (sizelimit : Nat) : Prop :=
  ∀ rest, rest.mapTx.keys = ∅ → rest.mapDeltas = pool.mapDeltas → memory.dynamicMemoryUsage rest ≤ sizelimit

theorem Exact.trimLoop {pool : CTxMemPool} (exact_ : Exact pool) (order : Iteration) {memory : Memory} {sizelimit turns : Nat}
    (attainable : Attainable memory pool sizelimit) (enough : pool.mapTx.keys.card < turns) :
    ∃ rest, Mempool.trimLoop order memory sizelimit turns pool = some rest ∧ Exact rest.1 := by
  induction turns generalizing pool with
  | zero => omega
  | succ turns ih =>
    rw [Mempool.trimLoop]
    split
    · exact ⟨_, rfl, exact_⟩
    next above =>
    cases first : memory.lowest pool with
    | none => exact absurd (attainable pool (memory.lowest_none pool first) rfl) above
    | some it =>
      have inPool := memory.lowest_some pool it first
      have package := calculateDescendants_spec exact_.linked order (empty_subset _) inPool
      rw [descendantsOf_empty] at package
      obtain ⟨rest, staged, kept, without⟩ := exact_.removeDescendants order (insert it ∅)
      have fewer : rest.mapTx.keys.card < turns := by
        have gone : it ∈ descendantsOf pool (insert it ∅) := self_mem_descendantsOf inPool
        have less : rest.mapTx.keys ⊂ pool.mapTx.keys := by
          rw [without.keys]
          exact sdiff_ssubset (descendantsOf_subset pool _) ⟨it, gone⟩
        have cards := card_lt_card less
        omega
      obtain ⟨last, runs, exact'⟩ := ih kept (fun other empty same => attainable other empty (same.trans without.mapDeltas)) fewer
      simp only [package, staged, runs, bind, Option.bind]
      exact ⟨_, rfl, exact'⟩

section Prioritise

variable {pool : CTxMemPool} (exact_ : Exact pool) (order : Iteration) {hash : Uint256} {nFeeDelta : Int}

/-- How an entry changes when a transaction gets another fee delta. -/
noncomputable def reprioritised (pool : CTxMemPool) (hash : Uint256) (nFeeDelta : Int) (key : Uint256) (entry : CTxMemPoolEntry) :
    CTxMemPoolEntry :=
  if key = hash then entry.updateFeeDelta ((pool.mapDeltas.find hash).getD 0 + nFeeDelta)
  else if key ∈ entryAncestors pool hash then entry.withSums (entry.sums + (0, 0, nFeeDelta))
  else entry

theorem reprioritised_tx (key : Uint256) (entry : CTxMemPoolEntry) : (reprioritised pool hash nFeeDelta key entry).tx = entry.tx := by
  rw [reprioritised]
  split
  · rfl
  · split <;> rfl

theorem reprioritised_nTxSize (key : Uint256) (entry : CTxMemPoolEntry) :
    (reprioritised pool hash nFeeDelta key entry).nTxSize = entry.nTxSize := by
  rw [reprioritised]
  split
  · rfl
  · split <;> rfl

include exact_

theorem Exact.linkedAncestors_changed {delta : Int} {entry : CTxMemPoolEntry} {other : CTxMemPool}
    (mapTx : other.mapTx = pool.mapTx.adjust fun key before => if key = hash then before.updateFeeDelta delta else before)
    (mapLinks : other.mapLinks = pool.mapLinks) (found : other.mapTx.find hash = some entry) :
    linkedAncestors order other hash = some (entryAncestors pool hash) := by
  have tx (key : Uint256) (before : CTxMemPoolEntry) : (if key = hash then before.updateFeeDelta delta else before).tx = before.tx := by
    split <;> rfl
  have old {key : Uint256} {after : CTxMemPoolEntry} (there : other.mapTx.find key = some after) : ∃ before,
      pool.mapTx.find key = some before ∧ after.tx = before.tx ∧ after.nTxSize = before.nTxSize ∧
        after.nSizeWithDescendants = before.nSizeWithDescendants ∧ after.nCountWithDescendants = before.nCountWithDescendants := by
    rw [mapTx, find_adjust, map_eq_some_iff] at there
    obtain ⟨before, here, rfl⟩ := there
    refine ⟨before, here, ?_⟩
    split
    · exact ⟨rfl, rfl, rfl, rfl⟩
    · exact ⟨rfl, rfl, rfl, rfl⟩
  have sizes : sizeOf other = sizeOf pool := by
    refine sizeOf_adjust mapTx fun key before => ?_
    split <;> rfl
  have up : UpLinked other := by
    refine ⟨?_, fun key links there => ?_⟩
    · rw [mapLinks, keys_adjusted mapTx, exact_.linked.keys]
    · rw [poolParents_adjust mapTx tx]
      exact exact_.linked.parents key links (mapLinks ▸ there)
  have bounded : Bounded other := by
    have start := @Exact.severed_bounded pool exact_ ∅
    rw [exact_.severed_empty] at start
    refine ⟨fun key after there => ?_, ?_, fun key after there => ?_⟩
    · obtain ⟨before, here, -, size, -⟩ := old there
      rw [size]
      exact exact_.claims.sized key before here
    · rw [keys_adjusted mapTx, sizes]
      exact exact_.bounded
    · obtain ⟨before, here, -, -, size, count⟩ := old there
      rw [size, count]
      exact start.sums key before here
  obtain ⟨before, here, same, -⟩ := old found
  rw [linkedAncestors_eq order up bounded found (same ▸ exact_.linked.keyed hash before here), entryAncestors_adjust mapTx tx]

theorem Exact.prioritise_eq : Mempool.prioritiseTransaction order pool hash nFeeDelta = some { pool with
    mapDeltas := pool.mapDeltas.put hash ((pool.mapDeltas.find hash).getD 0 + nFeeDelta)
    mapTx := pool.mapTx.adjust (reprioritised pool hash nFeeDelta) } := by
  rw [Mempool.prioritiseTransaction]
  cases found : pool.mapTx.find hash with
  | none =>
    have missing := find_eq_none.mp found
    have same : pool.mapTx.adjust (reprioritised pool hash nFeeDelta) = pool.mapTx := by
      refine adjust_eq_self fun key entry here => ?_
      have different : key ≠ hash := by
        rintro rfl
        exact missing (mem_of_find here)
      rw [reprioritised, if_neg different, entryAncestors, poolParents_missing missing, closure_empty, if_neg (notMem_empty _)]
    rw [same]
  | some entry =>
    have entered := put_eq_modify found fun before =>
      before.updateFeeDelta ((pool.mapDeltas.find hash).getD 0 + nFeeDelta)
    rw [modify_eq_adjust] at entered
    have ancestors := @Exact.linkedAncestors_changed pool exact_ order hash ((pool.mapDeltas.find hash).getD 0 + nFeeDelta)
      (entry.updateFeeDelta ((pool.mapDeltas.find hash).getD 0 + nFeeDelta)) { pool with
        mapDeltas := pool.mapDeltas.put hash ((pool.mapDeltas.find hash).getD 0 + nFeeDelta)
        mapTx := pool.mapTx.put hash (entry.updateFeeDelta ((pool.mapDeltas.find hash).getD 0 + nFeeDelta)) }
      entered rfl (find_put_self _ _ _)
    simp only [ancestors, bind, bind]
    refine (updateDescendantStates_eq (order.nodup _) (0, 0, nFeeDelta) fun other member => ?_).trans ?_
    · rw [order.mem_list] at member
      have different : other ≠ hash := by
        rintro rfl
        exact exact_.acyclic other member
      have inPool := (mem_closure.mp member).1
      obtain ⟨ancestor, there⟩ := find_of_mem inPool
      have lively := lively_sum exact_.claims.sized (descendantsOf_subset pool {other}) (self_mem_descendantsOf inPool)
      rw [← exact_.sums other ancestor there] at lively
      refine ⟨ancestor, (find_put_ne different).trans there, lively, ?_⟩
      rw [Lively, Prod.fst_add, Prod.snd_add, Prod.fst_add, add_zero, add_zero]
      exact lively
    · have adjusted : (pool.mapTx.put hash (entry.updateFeeDelta ((pool.mapDeltas.find hash).getD 0 + nFeeDelta))).adjust
          (fun key before => if key ∈ order.list (entryAncestors pool hash) then before.withSums (before.sums + (0, 0, nFeeDelta))
            else before) = pool.mapTx.adjust (reprioritised pool hash nFeeDelta) := by
        rw [entered, adjust_adjust]
        refine adjust_congr fun key before _ => ?_
        rw [reprioritised]
        simp only [order.mem_list]
        by_cases same : key = hash
        · have foreign : key ∉ entryAncestors pool hash := by
            rw [same]
            exact exact_.acyclic hash
          rw [if_pos same, if_pos same, if_neg foreign]
        · rw [if_neg same, if_neg same]
      rw [adjusted]

theorem Exact.weightOf_reprioritised {other : CTxMemPool} (mapTx : other.mapTx = pool.mapTx.adjust (reprioritised pool hash nFeeDelta))
    {key : Uint256} (inPool : key ∈ pool.mapTx.keys) :
    weightOf other key = weightOf pool key + if key = hash then (0, 0, nFeeDelta) else 0 := by
  obtain ⟨entry, found⟩ := find_of_mem inPool
  have here : other.mapTx.find key = some (reprioritised pool hash nFeeDelta key entry) := by
    rw [mapTx, find_adjust, found, map_some]
  rw [weightOf_found here, weightOf_found found, reprioritised]
  by_cases same : key = hash
  · have delta := exact_.deltas key entry found
    rw [same] at delta
    rw [if_pos same, if_pos same]
    simp only [CTxMemPoolEntry.weight, CTxMemPoolEntry.getModifiedFee, CTxMemPoolEntry.updateFeeDelta, delta, Prod.mk_add_mk, add_zero,
      Int.add_assoc]
  · rw [if_neg same, if_neg same, add_zero]
    split <;> rfl

theorem Exact.reprioritised {other : CTxMemPool} (same : other = { pool with
    mapDeltas := pool.mapDeltas.put hash ((pool.mapDeltas.find hash).getD 0 + nFeeDelta)
    mapTx := pool.mapTx.adjust (reprioritised pool hash nFeeDelta) }) (modest : amounts pool + |nFeeDelta| < 2 ^ 63) : Exact other := by
  have mapTx : other.mapTx = pool.mapTx.adjust (Mempool.reprioritised pool hash nFeeDelta) := by rw [same]
  have mapLinks : other.mapLinks = pool.mapLinks := by rw [same]
  have parents := poolParents_adjust mapTx reprioritised_tx
  have keys := keys_adjusted mapTx
  have old {key : Uint256} {after : CTxMemPoolEntry} (there : other.mapTx.find key = some after) :
      ∃ before, pool.mapTx.find key = some before ∧ after = Mempool.reprioritised pool hash nFeeDelta key before := by
    rw [mapTx, find_adjust, map_eq_some_iff] at there
    obtain ⟨before, here, rfl⟩ := there
    exact ⟨before, here, rfl⟩
  have sizes := sizeOf_adjust mapTx reprioritised_nTxSize
  have tx {key : Uint256} {before : CTxMemPoolEntry} := @reprioritised_tx pool hash nFeeDelta key before
  exact {
    claims := by
      refine ⟨fun outpoint inpoint => ?_, fun key after there => ?_⟩
      · have nextTx : other.mapNextTx = pool.mapNextTx := by rw [same]
        rw [nextTx, exact_.claims.nextTx]
        constructor
        · rintro ⟨before, here, own, at'⟩
          exact ⟨_, by rw [mapTx, find_adjust, here, map_some], tx.trans own, at'⟩
        · rintro ⟨after, there, own, at'⟩
          obtain ⟨before, here, rfl⟩ := old there
          exact ⟨before, here, tx.symm.trans own, at'⟩
      · obtain ⟨before, here, rfl⟩ := old there
        rw [reprioritised_nTxSize]
        exact exact_.claims.sized key before here
    linked := by
      refine ⟨fun key after there => ?_, ?_, ?_, ?_⟩
      · obtain ⟨before, here, rfl⟩ := old there
        rw [tx]
        exact exact_.linked.keyed key before here
      · rw [mapLinks, keys]
        exact exact_.linked.keys
      · rw [mapLinks, parents]
        exact exact_.linked.parents
      · rw [mapLinks, parents]
        exact exact_.linked.children
    sums := by
      intro key after there
      obtain ⟨before, here, rfl⟩ := old there
      have inPool := mem_of_find here
      have total : ∑ descendant ∈ descendantsOf pool {key}, weightOf other descendant =
          before.sums + if hash ∈ descendantsOf pool {key} then (0, 0, nFeeDelta) else 0 := by
        rw [exact_.sums key before here, ← sum_ite_eq' (descendantsOf pool {key}) hash fun _ => (0, 0, nFeeDelta),
          ← sum_add_distrib]
        exact sum_congr rfl fun descendant member =>
          exact_.weightOf_reprioritised mapTx (descendantsOf_subset pool _ member)
      rw [descendantsOf_adjust mapTx reprioritised_tx, total, Mempool.reprioritised]
      by_cases own : key = hash
      · have delta := exact_.deltas key before here
        subst own
        rw [if_pos rfl, if_pos (self_mem_descendantsOf inPool)]
        simp only [CTxMemPoolEntry.sums, CTxMemPoolEntry.updateFeeDelta, delta, Prod.mk_add_mk, add_zero, add_sub_cancel_left]
      · rw [if_neg own]
        by_cases ancestor : key ∈ entryAncestors pool hash
        · rw [if_pos ancestor, if_pos ((mem_descendantsOf inPool).mpr ⟨mem_of_ancestor ancestor, .inr ancestor⟩), sums_withSums]
        · have foreign : hash ∉ descendantsOf pool {key} := by
            intro member
            rcases ((mem_descendantsOf inPool).mp member).2 with equal | above
            · exact own equal.symm
            · exact ancestor above
          rw [if_neg ancestor, if_neg foreign, add_zero]
    totalTxSize := by
      have total : other.totalTxSize = pool.totalTxSize := by rw [same]
      rw [total, keys, sizes]
      exact exact_.totalTxSize
    acyclic := by
      rw [entryAncestors_adjust mapTx reprioritised_tx]
      exact exact_.acyclic
    deltas := by
      intro key after there
      obtain ⟨before, here, rfl⟩ := old there
      have mapDeltas : other.mapDeltas = pool.mapDeltas.put hash ((pool.mapDeltas.find hash).getD 0 + nFeeDelta) := by rw [same]
      rw [mapDeltas, Mempool.reprioritised]
      by_cases own : key = hash
      · rw [if_pos own, own, find_put_self, getD_some]
        rfl
      · have delta := exact_.deltas key before here
        rw [if_neg own, find_put_ne own]
        split <;> exact delta
    distinct := by
      intro key after there
      obtain ⟨before, here, rfl⟩ := old there
      rw [tx]
      exact exact_.distinct key before here
    bounded := by
      rw [keys, sizes]
      exact exact_.bounded
    modest := by
      have fees := @sum_le _ _ other.mapTx pool.mapTx _ (fun entry => abs_nonneg entry.nFee) fun key after there => by
        obtain ⟨before, here, rfl⟩ := old there
        refine ⟨before, here, ?_⟩
        rw [Mempool.reprioritised]
        split
        · rfl
        · split <;> rfl
      have deltas : (pool.mapDeltas.put hash ((pool.mapDeltas.find hash).getD 0 + nFeeDelta)).sum (fun delta => |delta|) ≤
          pool.mapDeltas.sum (fun delta => |delta|) + |nFeeDelta| := by
        cases asked : pool.mapDeltas.find hash with
        | none => rw [sum_put asked, getD_none, zero_add]
        | some delta =>
          rw [sum_put_found asked, getD_some]
          have less := abs_add_le delta nFeeDelta
          omega
      have mapDeltas : other.mapDeltas = pool.mapDeltas.put hash ((pool.mapDeltas.find hash).getD 0 + nFeeDelta) := by rw [same]
      rw [amounts] at modest ⊢
      rw [mapDeltas]
      omega }

end Prioritise

end Longcoin.Mempool

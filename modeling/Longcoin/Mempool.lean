import Longcoin.Primitives
import Longcoin.Library.FiniteMap
import Longcoin.Library.Closure

/-! The memory pool (`txmempool.h`, `txmempool.cpp`): entries, the links between them, and the searches for ancestors
and descendants. -/

namespace Longcoin.Mempool
open Primitives Library List Finset

structure CTxMemPoolEntry where
  tx : CTransaction
  nFee : Int
  nTime : Int := 0
  nTxSize : Nat
  feeDelta : Int := 0
  nCountWithDescendants : Int := 1
  nSizeWithDescendants : Int
  nModFeesWithDescendants : Int
deriving DecidableEq, Repr

def CTxMemPoolEntry.getModifiedFee (entry : CTxMemPoolEntry) : Int := entry.nFee + entry.feeDelta

structure TxLinks where
  parents : Finset Uint256 := ∅
  children : Finset Uint256 := ∅
deriving DecidableEq

/-- A spending transaction in the pool and the index of the input. -/
structure CInPoint where
  ptx : CTransaction
  n : Nat
deriving DecidableEq, Repr

structure CMempoolAddressDeltaKey where
  type : Nat
  addressBytes : Uint160
  txhash : Uint256
  index : Nat
  spending : Bool
deriving DecidableEq, Repr

structure CMempoolAddressDelta where
  time : Int
  amount : Int
  prevhash : Uint256 := 0
  prevout : Nat := 0
deriving DecidableEq, Repr

/-- The pool, with the iterators of `mapTx` given by the hashes, and an output as the key of the spent index. -/
structure CTxMemPool where
  mapTx : FiniteMap Uint256 CTxMemPoolEntry := .empty
  mapLinks : FiniteMap Uint256 TxLinks := .empty
  mapNextTx : FiniteMap COutPoint CInPoint := .empty
  mapDeltas : FiniteMap Uint256 Int := .empty
  totalTxSize : Int := 0
  mapAddress : FiniteMap CMempoolAddressDeltaKey CMempoolAddressDelta := .empty
  mapAddressInserted : FiniteMap Uint256 (List CMempoolAddressDeltaKey) := .empty
  mapSpent : FiniteMap COutPoint CSpentIndexValue := .empty
  mapSpentInserted : FiniteMap Uint256 (List COutPoint) := .empty

/-- The order in which a `setEntries` is walked through. -/
structure Iteration where
  list : Finset Uint256 → List Uint256
  mem_list : ∀ entries hash, hash ∈ list entries ↔ hash ∈ entries
  nodup : ∀ entries, (list entries).Nodup

/-- `*entries.begin()` of a set that may be empty. -/
def Iteration.begin (order : Iteration) (entries : Finset Uint256) : Option Uint256 := (order.list entries).head?

theorem Iteration.begin_none (order : Iteration) {entries : Finset Uint256} (start : order.begin entries = none) : entries = ∅ := by
  rw [Iteration.begin, head?_eq_none_iff] at start
  rw [eq_empty_iff_forall_notMem]
  intro hash member
  have listed := (order.mem_list entries hash).mpr member
  rw [start] at listed
  exact not_mem_nil listed

variable {hash : Uint256}

theorem Iteration.begin_some (order : Iteration) {entries : Finset Uint256} (start : order.begin entries = some hash) :
    hash ∈ entries := (order.mem_list entries hash).mp (mem_of_head? start)

theorem Iteration.toFinset_list (order : Iteration) (entries : Finset Uint256) : (order.list entries).toFinset = entries := by
  ext hash
  rw [mem_toFinset, order.mem_list]

structure AncestorLimits where
  limitAncestorCount : Nat
  limitAncestorSize : Nat
  limitDescendantCount : Nat
  limitDescendantSize : Nat

inductive AncestorError where
  | unconfirmedParents (limit : Nat)
  | descendantSize (hash : Uint256) (limit : Nat)
  | descendants (hash : Uint256) (limit : Nat)
  | ancestorSize (limit : Nat)
  | unconfirmedAncestors (limit : Nat)
deriving DecidableEq, Repr

def searchParents (pool : CTxMemPool) (limitAncestorCount : Nat) :
    List CTxIn → Finset Uint256 → Except AncestorError (Finset Uint256)
  | [], parentHashes => .ok parentHashes
  | txin :: vin, parentHashes =>
    if (pool.mapTx.find txin.prevout.hash).isSome then
      let parentHashes := insert txin.prevout.hash parentHashes
      if parentHashes.card + 1 > limitAncestorCount then .error (.unconfirmedParents limitAncestorCount)
      else searchParents pool limitAncestorCount vin parentHashes
    else searchParents pool limitAncestorCount vin parentHashes

/-- The parents of a staged entry, added one by one. Nothing when there are too many ancestors then. -/
def stageParents (limitAncestorCount : Nat) (setAncestors : Finset Uint256) :
    List Uint256 → Finset Uint256 → Option (Finset Uint256)
  | [], parentHashes => some parentHashes
  | phash :: rest, parentHashes =>
    let parentHashes := if phash ∈ setAncestors then parentHashes else insert phash parentHashes
    if parentHashes.card + setAncestors.card + 1 > limitAncestorCount then none
    else stageParents limitAncestorCount setAncestors rest parentHashes

/-- The loop of `CalculateMemPoolAncestors`. Nothing when the turns run out or an iterator does not point into the pool. -/
def ancestorsLoop (order : Iteration) (pool : CTxMemPool) (entry : CTxMemPoolEntry) (limits : AncestorLimits) :
    Nat → Finset Uint256 → Finset Uint256 → Nat → Option (Except AncestorError (Finset Uint256))
  | 0, _, _, _ => none
  | turns + 1, parentHashes, setAncestors, totalSizeWithAncestors =>
    match order.begin parentHashes with
    | none => some (.ok setAncestors)
    | some stageit => do
      let staged ← pool.mapTx.find stageit
      let links ← pool.mapLinks.find stageit
      let setAncestors := insert stageit setAncestors
      let parentHashes := parentHashes.erase stageit
      let totalSizeWithAncestors := totalSizeWithAncestors + staged.nTxSize
      if staged.nSizeWithDescendants + entry.nTxSize > limits.limitDescendantSize then
        some (.error (.descendantSize stageit limits.limitDescendantSize))
      else if staged.nCountWithDescendants + 1 > limits.limitDescendantCount then
        some (.error (.descendants stageit limits.limitDescendantCount))
      else if totalSizeWithAncestors > limits.limitAncestorSize then some (.error (.ancestorSize limits.limitAncestorSize))
      else
        match stageParents limits.limitAncestorCount setAncestors (order.list links.parents) parentHashes with
        | none => some (.error (.unconfirmedAncestors limits.limitAncestorCount))
        | some parentHashes => ancestorsLoop order pool entry limits turns parentHashes setAncestors totalSizeWithAncestors

/-- `CalculateMemPoolAncestors` with an empty set: the error, or the set of ancestors. -/
def calculateMemPoolAncestors (order : Iteration) (pool : CTxMemPool) (turns : Nat) (entry : CTxMemPoolEntry)
    (limits : AncestorLimits) (fSearchForParents : Bool) : Option (Except AncestorError (Finset Uint256)) :=
  if fSearchForParents then
    match searchParents pool limits.limitAncestorCount entry.tx.vin ∅ with
    | .error error => some (.error error)
    | .ok parentHashes => ancestorsLoop order pool entry limits turns parentHashes ∅ entry.nTxSize
  else do
    let links ← pool.mapLinks.find entry.tx.hash
    ancestorsLoop order pool entry limits turns links.parents ∅ entry.nTxSize

def descendantsLoop (order : Iteration) (pool : CTxMemPool) : Nat → Finset Uint256 → Finset Uint256 → Option (Finset Uint256)
  | 0, _, _ => none
  | turns + 1, stage, setDescendants =>
    match order.begin stage with
    | none => some setDescendants
    | some it => do
      let links ← pool.mapLinks.find it
      let setDescendants := insert it setDescendants
      -- the children that are not done yet
      descendantsLoop order pool turns (stage.erase it ∪ links.children \ setDescendants) setDescendants

/-- `CalculateDescendants`: an entry and its descendants, with those that are there already. -/
def calculateDescendants (order : Iteration) (pool : CTxMemPool) (entryit : Uint256) (setDescendants : Finset Uint256) :
    Option (Finset Uint256) :=
  descendantsLoop order pool (pool.mapTx.keys.card + 1) (if entryit ∈ setDescendants then ∅ else {entryit}) setDescendants

def parentsIn (pool : CTxMemPool) (vin : List CTxIn) : Finset Uint256 :=
  pool.mapTx.keys.filter fun hash => vin.any fun txin => txin.prevout.hash == hash

variable {pool : CTxMemPool}

theorem mem_parentsIn {vin : List CTxIn} :
    hash ∈ parentsIn pool vin ↔ hash ∈ pool.mapTx.keys ∧ ∃ txin ∈ vin, txin.prevout.hash = hash := by
  simp [parentsIn]

@[simp] theorem parentsIn_nil (pool : CTxMemPool) : parentsIn pool [] = ∅ := by simp [parentsIn]

theorem parentsIn_cons_found {txin : CTxIn} (found : (pool.mapTx.find txin.prevout.hash).isSome = true) (vin : List CTxIn) :
    parentsIn pool (txin :: vin) = insert txin.prevout.hash (parentsIn pool vin) := by
  ext hash
  have member := (pool.mapTx.mem_keys txin.prevout.hash).mpr found
  rw [mem_insert, mem_parentsIn, mem_parentsIn, exists_mem_cons_iff]
  constructor
  · rintro ⟨inPool, same | later⟩
    · exact .inl same.symm
    · exact .inr ⟨inPool, later⟩
  · rintro (rfl | ⟨inPool, later⟩)
    · exact ⟨member, .inl rfl⟩
    · exact ⟨inPool, .inr later⟩

theorem parentsIn_cons_missing {txin : CTxIn} (missing : ¬ (pool.mapTx.find txin.prevout.hash).isSome = true)
    (vin : List CTxIn) : parentsIn pool (txin :: vin) = parentsIn pool vin := by
  ext hash
  rw [mem_parentsIn, mem_parentsIn, exists_mem_cons_iff]
  refine and_congr_right fun inPool => or_iff_right ?_
  rintro rfl
  exact missing ((pool.mapTx.mem_keys _).mp inPool)

/-- The pool transactions that a transaction spends from. -/
def parentsOf (pool : CTxMemPool) (tx : CTransaction) : Finset Uint256 := parentsIn pool tx.vin

def poolParents (pool : CTxMemPool) (hash : Uint256) : Finset Uint256 :=
  (pool.mapTx.find hash).elim ∅ fun entry => parentsOf pool entry.tx

theorem poolParents_found {entry : CTxMemPoolEntry} (found : pool.mapTx.find hash = some entry) :
    poolParents pool hash = parentsOf pool entry.tx := by
  rw [poolParents, found, Option.elim_some]

theorem poolParents_missing (missing : hash ∉ pool.mapTx.keys) : poolParents pool hash = ∅ := by
  rw [poolParents, FiniteMap.find_eq_none.mpr missing, Option.elim_none]

theorem poolParents_subset (pool : CTxMemPool) (hash : Uint256) : poolParents pool hash ⊆ pool.mapTx.keys := by
  cases found : pool.mapTx.find hash with
  | none => simp [poolParents, found]
  | some entry =>
    rw [poolParents_found found]
    exact filter_subset _ _

/-- Every entry stands under its own hash, and is linked to the pool transactions it spends from and to those that spend it. -/
structure Linked (pool : CTxMemPool) : Prop where
  keyed : ∀ hash entry, pool.mapTx.find hash = some entry → entry.tx.hash = hash
  keys : pool.mapLinks.keys = pool.mapTx.keys
  parents : ∀ hash links, pool.mapLinks.find hash = some links → links.parents = poolParents pool hash
  children : ∀ hash links child, pool.mapLinks.find hash = some links → (child ∈ links.children ↔ hash ∈ poolParents pool child)

def poolChildren (pool : CTxMemPool) (hash : Uint256) : Finset Uint256 :=
  pool.mapTx.keys.filter fun child => hash ∈ poolParents pool child

noncomputable def ancestorsOf (pool : CTxMemPool) (tx : CTransaction) : Finset Uint256 :=
  closure (poolParents pool) pool.mapTx.keys (parentsOf pool tx)

def sizeOf (pool : CTxMemPool) (hash : Uint256) : Nat := (pool.mapTx.find hash).elim 0 fun entry => entry.nTxSize

/-- All fees and fee deltas with the signs left out. Where this is below `2 ^ 63` no `CAmount` of the pool overflows. -/
def amounts (pool : CTxMemPool) : Int := (pool.mapTx.sum fun entry => |entry.nFee|) + pool.mapDeltas.sum fun delta => |delta|

end Longcoin.Mempool

import Longcoin.Mempool
import Longcoin.Library.Bytes
import Longcoin.Library.SortedRows
import Mathlib.Data.Prod.Lex

/-! Entries enter and leave the pool (`txmempool.cpp`): `addUnchecked`, `RemoveStaged` and `clear`. A step whose
assertion fails gives nothing. -/

namespace Longcoin.Mempool
open Primitives Library.Bytes

/-- `UpdateFeeDelta` -/
def CTxMemPoolEntry.updateFeeDelta (entry : CTxMemPoolEntry) (newFeeDelta : Int) : CTxMemPoolEntry :=
  { entry with
    nModFeesWithDescendants := entry.nModFeesWithDescendants + (newFeeDelta - entry.feeDelta)
    feeDelta := newFeeDelta }

def CTxMemPoolEntry.isDirty (entry : CTxMemPoolEntry) : Bool := entry.nCountWithDescendants == 0

/-- `UpdateState`. Nothing when a sum would not stay positive. -/
def CTxMemPoolEntry.updateState (entry : CTxMemPoolEntry) (modifySize : Int) (modifyFee : Int) (modifyCount : Int) :
    Option CTxMemPoolEntry :=
  if entry.isDirty then some entry
  else if 0 < entry.nSizeWithDescendants + modifySize ∧ 0 < entry.nCountWithDescendants + modifyCount then
    some { entry with
      nSizeWithDescendants := entry.nSizeWithDescendants + modifySize
      nModFeesWithDescendants := entry.nModFeesWithDescendants + modifyFee
      nCountWithDescendants := entry.nCountWithDescendants + modifyCount }
  else none

/-- `mapTx.modify(it, update_descendant_state(...))` -/
def updateDescendantState (modifySize : Int) (modifyFee : Int) (modifyCount : Int) (pool : CTxMemPool) (it : Uint256) :
    Option CTxMemPool := do
  let entry ← pool.mapTx.find it
  let entry ← entry.updateState modifySize modifyFee modifyCount
  return { pool with mapTx := pool.mapTx.put it entry }

/-- `UpdateChild` -/
def updateChild (pool : CTxMemPool) (entry child : Uint256) (add : Bool) : CTxMemPool :=
  { pool with mapLinks := pool.mapLinks.modify entry fun links =>
      { links with children := if add then insert child links.children else links.children.erase child } }

/-- `UpdateParent` -/
def updateParent (pool : CTxMemPool) (entry parent : Uint256) (add : Bool) : CTxMemPool :=
  { pool with mapLinks := pool.mapLinks.modify entry fun links =>
      { links with parents := if add then insert parent links.parents else links.parents.erase parent } }

/-- `UpdateAncestorsOf` -/
def updateAncestorsOf (order : Iteration) (add : Bool) (pool : CTxMemPool) (it : Uint256) (setAncestors : Finset Uint256) :
    Option CTxMemPool := do
  let entry ← pool.mapTx.find it
  let links ← pool.mapLinks.find it
  let pool := (order.list links.parents).foldl (fun pool piter => updateChild pool piter it add) pool
  let updateCount : Int := if add then 1 else -1
  (order.list setAncestors).foldlM
    (updateDescendantState (updateCount * entry.nTxSize) (updateCount * entry.getModifiedFee) updateCount) pool

/-- `UpdateChildrenForRemoval` -/
def updateChildrenForRemoval (order : Iteration) (pool : CTxMemPool) (it : Uint256) : Option CTxMemPool := do
  let links ← pool.mapLinks.find it
  return (order.list links.children).foldl (fun pool updateIt => updateParent pool updateIt it false) pool

def nNoLimit : Nat := 2 ^ 64 - 1

def noLimits : AncestorLimits := ⟨nNoLimit, nNoLimit, nNoLimit, nNoLimit⟩

/-- All the ancestors of an entry of the pool by the links. Nothing beyond 2⁶⁴ bytes. -/
def linkedAncestors (order : Iteration) (pool : CTxMemPool) (it : Uint256) : Option (Finset Uint256) := do
  let entry ← pool.mapTx.find it
  let result ← calculateMemPoolAncestors order pool (pool.mapTx.keys.card + 1) entry noLimits false
  result.toOption

/-- `UpdateForRemoveFromMempool` -/
def updateForRemoveFromMempool (order : Iteration) (pool : CTxMemPool) (entriesToRemove : Finset Uint256) : Option CTxMemPool := do
  let pool ← (order.list entriesToRemove).foldlM (fun pool removeIt => do
    let setAncestors ← linkedAncestors order pool removeIt
    updateAncestorsOf order false pool removeIt setAncestors) pool
  (order.list entriesToRemove).foldlM (updateChildrenForRemoval order) pool

def addUnchecked (order : Iteration) (pool : CTxMemPool) (hash : Uint256) (entry : CTxMemPoolEntry) (setAncestors : Finset Uint256) :
    Option CTxMemPool := do
  let newit := entry.tx.hash
  let mapTx := pool.mapTx.insertNew newit entry
  let pool := { pool with
    mapTx := match pool.mapDeltas.find hash with
      | some delta => if delta ≠ 0 then mapTx.modify newit fun entry => entry.updateFeeDelta delta else mapTx
      | none => mapTx
    mapLinks := pool.mapLinks.insertNew newit {}
    mapNextTx := entry.tx.vin.zipIdx.foldl (fun map input => map.put input.1.prevout ⟨entry.tx, input.2⟩) pool.mapNextTx }
  let setParentTransactions := (entry.tx.vin.map fun txin => txin.prevout.hash).toFinset
  let pool := (order.list setParentTransactions).foldl
    (fun pool phash => if (pool.mapTx.find phash).isSome then updateParent pool newit phash true else pool) pool
  let pool ← updateAncestorsOf order true pool newit setAncestors
  return { pool with totalTxSize := pool.totalTxSize + entry.nTxSize }

/-- What a coins view says of the output that an input spends. -/
abbrev CCoinsView := COutPoint → CTxOut

def addressDebits (tx : CTransaction) (time : Int) (view : CCoinsView) : List (CMempoolAddressDeltaKey × CMempoolAddressDelta) :=
  tx.vin.zipIdx.filterMap fun input =>
    (view input.1.prevout).scriptPubKey.address.map fun address =>
      (⟨address.1, address.2, tx.hash, input.2, true⟩,
        ⟨time, -(view input.1.prevout).nValue, input.1.prevout.hash, input.1.prevout.n⟩)

def addressCredits (tx : CTransaction) (time : Int) : List (CMempoolAddressDeltaKey × CMempoolAddressDelta) :=
  tx.vout.zipIdx.filterMap fun output =>
    output.1.scriptPubKey.address.map fun address =>
      (⟨address.1, address.2, tx.hash, output.2, false⟩, { time, amount := output.1.nValue })

def addressRows (tx : CTransaction) (time : Int) (view : CCoinsView) : List (CMempoolAddressDeltaKey × CMempoolAddressDelta) :=
  addressDebits tx time view ++ addressCredits tx time

def addAddressIndex (pool : CTxMemPool) (entry : CTxMemPoolEntry) (view : CCoinsView) : CTxMemPool :=
  let inserted := addressRows entry.tx entry.nTime view
  { pool with
    mapAddress := inserted.foldl (fun map row => map.insertNew row.1 row.2) pool.mapAddress
    mapAddressInserted := pool.mapAddressInserted.insertNew entry.tx.hash (inserted.map Prod.fst) }

/-- The bytes that `memcmp` compares. -/
def memory (size : Nat) (blob : Nat) : List Nat := (littleBytes size blob).map UInt8.toNat

/-- What `CMempoolAddressDeltaKeyCompare` compares, in its order. -/
def CMempoolAddressDeltaKey.rank (key : CMempoolAddressDeltaKey) : Nat ×ₗ List Nat ×ₗ List Nat ×ₗ Nat ×ₗ Bool :=
  toLex (key.type, toLex (memory 20 key.addressBytes.toNat, toLex (memory 32 key.txhash.toNat, toLex (key.index, key.spending))))

theorem memory_injective {size first second : Nat} (fits : first < 256 ^ size) (fits' : second < 256 ^ size)
    (same : memory size first = memory size second) : first = second := by
  have bytes : littleBytes size first = littleBytes size second :=
    List.map_injective_iff.mpr (fun _ _ => UInt8.toNat_inj.mp) same
  rw [← little_littleBytes size first fits, ← little_littleBytes size second fits', bytes]

/-- `operator<=` of `uint256` compares the bytes in memory. -/
def memcmpLE (first second : Uint256) : Prop := memory 32 first.toNat ≤ memory 32 second.toNat

instance : DecidableRel memcmpLE := fun first second =>
  inferInstanceAs (Decidable (memory 32 first.toNat ≤ memory 32 second.toNat))

instance : IsTrans Uint256 memcmpLE := ⟨fun _ _ _ => le_trans⟩

instance : Std.Total memcmpLE := ⟨fun _ _ => le_total _ _⟩

instance : Std.Antisymm memcmpLE :=
  ⟨fun first second less more => BitVec.toNat_inj.mp (memory_injective first.isLt second.isLt (le_antisymm less more))⟩

theorem CMempoolAddressDeltaKey.rank_injective : Function.Injective CMempoolAddressDeltaKey.rank := by
  rintro ⟨type, address, txhash, index, spending⟩ ⟨type', address', txhash', index', spending'⟩ same
  simp only [rank, EmbeddingLike.apply_eq_iff_eq, Prod.mk.injEq] at same
  obtain ⟨rfl, addresses, hashes, rfl, rfl⟩ := same
  obtain rfl := BitVec.toNat_inj.mp (memory_injective address.isLt address'.isLt addresses)
  obtain rfl := BitVec.toNat_inj.mp (memory_injective txhash.isLt txhash'.isLt hashes)
  rfl

instance : LinearOrder CMempoolAddressDeltaKey := LinearOrder.lift' _ CMempoolAddressDeltaKey.rank_injective

/-- `getAddressIndex`: for each address a walk from its least key on. -/
def getAddressIndex (pool : CTxMemPool) (addresses : List (Uint160 × Nat)) : List (CMempoolAddressDeltaKey × CMempoolAddressDelta) :=
  addresses.flatMap fun address =>
    let lower : CMempoolAddressDeltaKey := ⟨address.2, address.1, 0, 0, false⟩
    let keys := (pool.mapAddress.keys.sort.dropWhile fun key => decide (key < lower)).takeWhile fun key =>
      key.addressBytes == address.1 && key.type == address.2
    keys.filterMap fun key => (pool.mapAddress.find key).map fun delta => (key, delta)

def removeAddressIndex (pool : CTxMemPool) (txhash : Uint256) : CTxMemPool :=
  match pool.mapAddressInserted.find txhash with
  | none => pool
  | some keys => { pool with
      mapAddress := keys.foldl (fun map key => map.erase key) pool.mapAddress
      mapAddressInserted := pool.mapAddressInserted.erase txhash }

def spentValue (tx : CTransaction) (view : CCoinsView) (prevout : COutPoint) (inputIndex : Nat) : CSpentIndexValue where
  txid := tx.hash
  inputIndex := inputIndex
  blockHeight := -1
  satoshis := (view prevout).nValue
  addressType := ((view prevout).scriptPubKey.address.map Prod.fst).getD 0
  addressHash := ((view prevout).scriptPubKey.address.map Prod.snd).getD 0

def addSpentIndex (pool : CTxMemPool) (entry : CTxMemPoolEntry) (view : CCoinsView) : CTxMemPool :=
  { pool with
    mapSpent := entry.tx.vin.zipIdx.foldl
      (fun map input => map.insertNew input.1.prevout (spentValue entry.tx view input.1.prevout input.2)) pool.mapSpent
    mapSpentInserted := pool.mapSpentInserted.insertNew entry.tx.hash (entry.tx.vin.map fun txin => txin.prevout) }

def getSpentIndex (pool : CTxMemPool) (key : COutPoint) : Option CSpentIndexValue := pool.mapSpent.find key

def removeSpentIndex (pool : CTxMemPool) (txhash : Uint256) : CTxMemPool :=
  match pool.mapSpentInserted.find txhash with
  | none => pool
  | some keys => { pool with
      mapSpent := keys.foldl (fun map key => map.erase key) pool.mapSpent
      mapSpentInserted := pool.mapSpentInserted.erase txhash }

def removeUnchecked (pool : CTxMemPool) (it : Uint256) : Option CTxMemPool := do
  let entry ← pool.mapTx.find it
  let hash := entry.tx.hash
  let pool := { pool with
    mapNextTx := entry.tx.vin.foldl (fun map txin => map.erase txin.prevout) pool.mapNextTx
    totalTxSize := pool.totalTxSize - entry.nTxSize
    mapLinks := pool.mapLinks.erase it
    mapTx := pool.mapTx.erase it }
  return removeSpentIndex (removeAddressIndex pool hash) hash

def removeStaged (order : Iteration) (pool : CTxMemPool) (stage : Finset Uint256) : Option CTxMemPool := do
  let pool ← updateForRemoveFromMempool order pool stage
  (order.list stage).foldlM removeUnchecked pool

/-- `_clear` -/
def clear (pool : CTxMemPool) : CTxMemPool :=
  { pool with mapLinks := .empty, mapTx := .empty, mapNextTx := .empty, totalTxSize := 0 }

end Longcoin.Mempool

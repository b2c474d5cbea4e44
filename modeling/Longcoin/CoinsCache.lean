import Longcoin.Coins
import Longcoin.Library.KeyedFold

/-! `CCoinsViewCache` and the views below it (`coins.cpp`, `txdb.cpp`): a stack of
write-back layers whose entries carry the DIRTY and FRESH flags. -/

namespace Longcoin.CoinsCache
open Primitives Coins Library

/-- What a view stores: `~CCoinsModifier` and `Unserialize` both end with `Cleanup()`. -/
def StoredCoins := { coins : CCoins // coins.Clean }

def StoredCoins.of (coins : CCoins) : StoredCoins := ⟨coins.cleanup, CCoins.clean_cleanup coins⟩

structure CCoinsCacheEntry where
  coins : StoredCoins
  dirty : Bool := false
  fresh : Bool := false

abbrev CCoinsMap := AList fun _ : Uint256 => CCoinsCacheEntry

structure CCoinsViewDB where
  coins : Uint256 → Option StoredCoins
  hashBestBlock : Uint256 := 0

structure CCoinsViewCache where
  cacheCoins : CCoinsMap := ∅
  hashBlock : Uint256 := 0

inductive CCoinsView where
  | db (store : CCoinsViewDB)
  | cache (layer : CCoinsViewCache) (base : CCoinsView)

namespace CCoinsView

/-- `GetCoins` of either class. On a cache this is `FetchCoins`: a record found below is
copied into the layer, and is FRESH there when the layer below only has a pruned one. -/
def getCoins : CCoinsView → Uint256 → Option StoredCoins × CCoinsView
  | .db store, txid => (store.coins txid, .db store)
  | .cache layer base, txid =>
      match layer.cacheCoins.lookup txid with
      | some entry => (some entry.coins, .cache layer base)
      | none =>
          match base.getCoins txid with
          | (none, base') => (none, .cache layer base')
          | (some tmp, base') =>
              let entry : CCoinsCacheEntry := { coins := tmp, fresh := tmp.val.isPruned }
              (some tmp, .cache { layer with cacheCoins := layer.cacheCoins.insert txid entry } base')

def accessCoins (view : CCoinsView) (txid : Uint256) : Option StoredCoins × CCoinsView := view.getCoins txid

/-- The store only looks for the key, a cache only at `vout.empty()`. -/
def haveCoins : CCoinsView → Uint256 → Bool × CCoinsView
  | .db store, txid => ((store.coins txid).isSome, .db store)
  | .cache layer base, txid =>
      match (cache layer base).getCoins txid with
      | (some coins, view') => (!coins.val.vout.isEmpty, view')
      | (none, view') => (false, view')

end CCoinsView

/-- The destructor of `CCoinsModifier`: clean up, and drop an entry that ends up pruned
while nothing below knows the transaction. -/
def closeModifier (layer : CCoinsViewCache) (txid : Uint256) (entry : CCoinsCacheEntry)
    (edit : CCoins → CCoins) : CCoinsViewCache :=
  let coins := StoredCoins.of (edit entry.coins.val)
  if entry.fresh && coins.val.isPruned then { layer with cacheCoins := layer.cacheCoins.erase txid }
  else { layer with cacheCoins := layer.cacheCoins.insert txid { entry with coins } }

def emptyCoins : StoredCoins := ⟨{}, CCoins.clean_empty⟩

/-- `ModifyCoins` together with the edit made through the returned modifier. -/
def modifyCoins (layer : CCoinsViewCache) (base : CCoinsView) (txid : Uint256) (edit : CCoins → CCoins) :
    CCoinsViewCache × CCoinsView :=
  match layer.cacheCoins.lookup txid with
  | some entry => (closeModifier layer txid { entry with dirty := true } edit, base)
  | none =>
      match base.getCoins txid with
      | (none, base') =>
          (closeModifier layer txid { coins := emptyCoins, dirty := true, fresh := true } edit, base')
      | (some coins, base') =>
          (closeModifier layer txid { coins, dirty := true, fresh := coins.val.isPruned } edit, base')

/-- `ModifyNewCoins` never looks at the base: the entry is emptied and marked FRESH and DIRTY. -/
def modifyNewCoins (layer : CCoinsViewCache) (txid : Uint256) (edit : CCoins → CCoins) : CCoinsViewCache :=
  closeModifier layer txid { coins := emptyCoins, dirty := true, fresh := true } edit

def uncache (layer : CCoinsViewCache) (txid : Uint256) : CCoinsViewCache :=
  match layer.cacheCoins.lookup txid with
  | some entry =>
      if entry.dirty || entry.fresh then layer
      else { layer with cacheCoins := layer.cacheCoins.erase txid }
  | none => layer

def batchWriteEntry (ours : CCoinsMap) (txid : Uint256) (theirs : CCoinsCacheEntry) : CCoinsMap :=
  if theirs.dirty then
    match ours.lookup txid with
    | none =>
        if theirs.fresh && theirs.coins.val.isPruned then ours
        else ours.insert txid { coins := theirs.coins, dirty := true, fresh := theirs.fresh }
    | some our =>
        if our.fresh && theirs.coins.val.isPruned then ours.erase txid
        else ours.insert txid { our with coins := theirs.coins, dirty := true }
  else ours

def CCoinsViewCache.batchWrite (layer : CCoinsViewCache) (mapCoins : CCoinsMap) (hashBlock : Uint256) :
    CCoinsViewCache :=
  { cacheCoins := KeyedFold.run batchWriteEntry mapCoins.entries layer.cacheCoins, hashBlock }

/-- One turn of the loop of `CCoinsViewDB::BatchWrite`. -/
def writeEntry (coins : Uint256 → Option StoredCoins) (txid : Uint256) (entry : CCoinsCacheEntry) :
    Uint256 → Option StoredCoins :=
  if entry.dirty then
    Function.update coins txid (if entry.coins.val.isPruned then none else some entry.coins)
  else coins

def CCoinsViewDB.batchWrite (store : CCoinsViewDB) (mapCoins : CCoinsMap) (hashBlock : Uint256) : CCoinsViewDB :=
  { coins := KeyedFold.run writeEntry mapCoins.entries store.coins,
    hashBestBlock := if hashBlock = 0 then store.hashBestBlock else hashBlock }

def CCoinsView.batchWrite (view : CCoinsView) (mapCoins : CCoinsMap) (hashBlock : Uint256) : CCoinsView :=
  match view with
  | .db store => .db (store.batchWrite mapCoins hashBlock)
  | .cache layer base => .cache (layer.batchWrite mapCoins hashBlock) base

def flush (layer : CCoinsViewCache) (base : CCoinsView) : CCoinsViewCache × CCoinsView :=
  ({ layer with cacheCoins := ∅ }, base.batchWrite layer.cacheCoins layer.hashBlock)

/-- Pending entries written to a view, and each of its layers then flushed into the one below. -/
def flushInto : CCoinsView → CCoinsMap → Uint256 → CCoinsViewDB
  | .db store, mapCoins, hashBlock => store.batchWrite mapCoins hashBlock
  | .cache layer base, mapCoins, hashBlock =>
      let written := layer.batchWrite mapCoins hashBlock
      flushInto base written.cacheCoins written.hashBlock

/-- Every layer flushed, from the top down to the store. -/
def CCoinsView.flushAll : CCoinsView → CCoinsViewDB
  | .db store => store
  | .cache layer base => flushInto base layer.cacheCoins layer.hashBlock

end Longcoin.CoinsCache

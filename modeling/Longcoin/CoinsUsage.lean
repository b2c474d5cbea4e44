import Longcoin.Coins
import Longcoin.Library.FiniteMap
import Longcoin.Library.Steps
import Mathlib.Algebra.Order.BigOperators.Group.Finset

/-! What a `CCoinsViewCache` counts of its memory (`coins.cpp`, `memusage.h`): `cachedCoinsUsage`
against the objects in the map, also between the opening of a modifier and its destructor. -/

namespace Longcoin.CoinsUsage
open Primitives Coins Library FiniteMap CCoins Option

def mallocUsage (alloc : Nat) : Nat := if alloc = 0 then 0 else ((alloc + 31) >>> 4) <<< 4

/-- A `CCoins` with what it has allocated: `vout.capacity() * sizeof(CTxOut)` bytes and the memory of each
script. The allocator decides both, so an object made or edited may have any. -/
structure CCoinsObject where
  coins : CCoins := {}
  voutBytes : Nat := 0
  scriptBytes : List Nat := []

namespace CCoinsObject

def dynamicMemoryUsage (object : CCoinsObject) : Nat :=
  mallocUsage object.voutBytes + (object.scriptBytes.map mallocUsage).sum

/-- `pop_back` leaves the capacity alone; an empty vector is swapped for a new one. -/
def cleanup (object : CCoinsObject) : CCoinsObject :=
  let coins := object.coins.cleanup
  if coins.vout.isEmpty then { coins }
  else { object with coins, scriptBytes := object.scriptBytes.take coins.vout.length }

/-- What views store: nothing is left for `Cleanup` to do. -/
def Tidy (object : CCoinsObject) : Prop := object.cleanup = object

theorem coins_cleanup (object : CCoinsObject) : object.cleanup.coins = object.coins.cleanup := by
  rw [cleanup]
  split <;> rfl

theorem tidy_cleanup (object : CCoinsObject) : object.cleanup.Tidy := by
  have again : object.coins.cleanup.cleanup = object.coins.cleanup := clean_cleanup object.coins
  unfold Tidy
  by_cases spent : object.coins.cleanup.vout.isEmpty = true
  · have same : object.cleanup = { coins := object.coins.cleanup } := if_pos spent
    rw [same, cleanup, again, if_pos spent]
  · have same : object.cleanup =
        { object with coins := object.coins.cleanup, scriptBytes := object.scriptBytes.take object.coins.cleanup.vout.length } :=
      if_neg spent
    rw [same, cleanup, again, if_neg spent, List.take_take, Nat.min_self]

theorem usage_of_pruned {object : CCoinsObject} (tidy : object.Tidy) (pruned : object.coins.isPruned = true) :
    object.dynamicMemoryUsage = 0 := by
  have clean : object.coins.Clean := by rw [Clean, ← coins_cleanup, tidy]
  have spent : object.coins.cleanup.vout.isEmpty = true := by rw [clean, vout_isEmpty_of_clean clean, pruned]
  have same : object.cleanup = { coins := object.coins.cleanup } := if_pos spent
  rw [← tidy, same]
  rfl

end CCoinsObject

def StoredObject := { object : CCoinsObject // object.Tidy }

structure Entry where
  object : CCoinsObject := {}
  dirty : Bool := false
  fresh : Bool := false

namespace Entry

def usage (entry : Entry) : Nat := entry.object.dynamicMemoryUsage

end Entry

/-- `CCoinsModifier`: the entry it points to and the usage noted when it was opened. -/
structure Modifier where
  txid : Uint256
  cachedCoinUsage : Nat

/-- Additions of allocated bytes stay within `size_t`, so the counter is a number whose subtraction may fail. -/
structure Cache where
  cacheCoins : FiniteMap Uint256 Entry := .empty
  cachedCoinsUsage : Nat := 0
  modifier : Option Modifier := none

def subUsage (counter usage : Nat) : Option Nat := if usage ≤ counter then some (counter - usage) else none

namespace Cache

def fetchCoins (cache : Cache) (txid : Uint256) (below : Option StoredObject) : Cache :=
  match cache.cacheCoins.find txid, below with
  | some _, _ => cache
  | none, none => cache
  | none, some tmp =>
      { cache with
        cacheCoins := cache.cacheCoins.put txid { object := tmp.val, fresh := tmp.val.coins.isPruned }
        cachedCoinsUsage := cache.cachedCoinsUsage + tmp.val.dynamicMemoryUsage }

def openedEntry (cache : Cache) (txid : Uint256) (below : Option StoredObject) : Entry × Nat :=
  match cache.cacheCoins.find txid, below with
  | some entry, _ => ({ entry with dirty := true }, entry.usage)
  | none, none => ({ dirty := true, fresh := true }, 0)
  | none, some coins => ({ object := coins.val, dirty := true, fresh := coins.val.coins.isPruned }, 0)

def openModifier (cache : Cache) (txid : Uint256) (entry : Entry) (cachedCoinUsage : Nat) : Cache :=
  { cache with cacheCoins := cache.cacheCoins.put txid entry, modifier := some { txid, cachedCoinUsage } }

def modifyCoins (cache : Cache) (txid : Uint256) (below : Option StoredObject) : Cache :=
  cache.openModifier txid (cache.openedEntry txid below).1 (cache.openedEntry txid below).2

def modifyNewCoins (cache : Cache) (txid : Uint256) : Cache :=
  cache.openModifier txid { dirty := true, fresh := true } 0

/-- Whatever is done to the coins through an open modifier. -/
def edit (cache : Cache) (object : CCoinsObject) : Cache :=
  match cache.modifier with
  | none => cache
  | some opened => { cache with cacheCoins := cache.cacheCoins.modify opened.txid fun entry => { entry with object } }

/-- `~CCoinsModifier`. -/
def closeModifier (cache : Cache) : Option Cache := do
  let opened ← cache.modifier
  let entry ← cache.cacheCoins.find opened.txid
  let object := entry.object.cleanup
  let counter ← subUsage cache.cachedCoinsUsage opened.cachedCoinUsage
  if entry.fresh && object.coins.isPruned then
    return { cacheCoins := cache.cacheCoins.erase opened.txid, cachedCoinsUsage := counter }
  return { cacheCoins := cache.cacheCoins.put opened.txid { entry with object }
           cachedCoinsUsage := counter + object.dynamicMemoryUsage }

def uncache (cache : Cache) (txid : Uint256) : Option Cache :=
  match cache.cacheCoins.find txid with
  | none => some cache
  | some entry =>
      if entry.dirty || entry.fresh then some cache
      else do
        let counter ← subUsage cache.cachedCoinsUsage entry.usage
        return { cache with cacheCoins := cache.cacheCoins.erase txid, cachedCoinsUsage := counter }

/-- One turn of the loop of `BatchWrite`: the objects of the child are swapped in with their memory. -/
def batchWriteEntry (cache : Cache) (txid : Uint256) (theirs : Entry) : Option Cache :=
  if theirs.dirty then
    match cache.cacheCoins.find txid with
    | none =>
        if theirs.fresh && theirs.object.coins.isPruned then some cache
        else some { cache with
          cacheCoins := cache.cacheCoins.put txid { object := theirs.object, dirty := true, fresh := theirs.fresh }
          cachedCoinsUsage := cache.cachedCoinsUsage + theirs.usage }
    | some our => do
        let counter ← subUsage cache.cachedCoinsUsage our.usage
        if our.fresh && theirs.object.coins.isPruned then
          return { cache with cacheCoins := cache.cacheCoins.erase txid, cachedCoinsUsage := counter }
        return { cache with
          cacheCoins := cache.cacheCoins.put txid { our with object := theirs.object, dirty := true }
          cachedCoinsUsage := counter + theirs.usage }
  else some cache

def batchWrite (cache : Cache) (mapCoins : List (Uint256 × Entry)) : Option Cache :=
  mapCoins.foldlM (fun cache entry => cache.batchWriteEntry entry.1 entry.2) cache

def flush (cache : Cache) : Cache := { cache with cacheCoins := .empty, cachedCoinsUsage := 0 }

end Cache

/-- What happens to one cache. A modifier is opened, used any number of times and closed by separate events. -/
inductive Event where
  | fetchCoins (txid : Uint256) (below : Option StoredObject)
  | modifyCoins (txid : Uint256) (below : Option StoredObject)
  | modifyNewCoins (txid : Uint256)
  | edit (object : CCoinsObject)
  | closeModifier
  | uncache (txid : Uint256)
  | batchWrite (mapCoins : List (Uint256 × Entry))
  | flush

def step (cache : Cache) : Event → Option Cache
  | .fetchCoins txid below => some (cache.fetchCoins txid below)
  | .modifyCoins txid below => some (cache.modifyCoins txid below)
  | .modifyNewCoins txid => some (cache.modifyNewCoins txid)
  | .edit object => some (cache.edit object)
  | .closeModifier => cache.closeModifier
  | .uncache txid => cache.uncache txid
  | .batchWrite mapCoins => cache.batchWrite mapCoins
  | .flush => some cache.flush

/-- The callers' side: the assertions on `hasModifier` hold, a modifier does not outlive its entry, a child hands up
stored objects, and `ModifyNewCoins` is for transactions of which nothing unspent is reported. -/
def Allowed (cache : Cache) : Event → Prop
  | .fetchCoins _ _ => True
  | .modifyCoins _ _ => cache.modifier = none
  | .modifyNewCoins txid => cache.modifier = none ∧
      ∀ entry, cache.cacheCoins.find txid = some entry → entry.object.coins.isPruned = true
  | .edit _ => True
  | .closeModifier => cache.modifier.isSome = true
  | .uncache _ => True
  | .batchWrite mapCoins => cache.modifier = none ∧ ∀ entry ∈ mapCoins, entry.2.object.Tidy
  | .flush => cache.modifier = none

def AllowedStep (cache : Cache) (event : Event) (next : Cache) : Prop :=
  Allowed cache event ∧ step cache event = some next

namespace Cache

def held (cache : Cache) : Int := cache.cacheCoins.sum fun entry => (entry.usage : Int)

def settled (cache : Cache) : FiniteMap Uint256 Entry :=
  match cache.modifier with
  | none => cache.cacheCoins
  | some opened => cache.cacheCoins.erase opened.txid

def noted (cache : Cache) : Nat :=
  match cache.modifier with
  | none => 0
  | some opened => opened.cachedCoinUsage

structure Accounted (cache : Cache) : Prop where
  tidy : ∀ txid entry, cache.settled.find txid = some entry → entry.object.Tidy
  opened : ∀ opened, cache.modifier = some opened →
    ∃ entry, cache.cacheCoins.find opened.txid = some entry ∧ entry.dirty = true
  counted : (cache.cachedCoinsUsage : Int) = cache.settled.sum (fun entry => (entry.usage : Int)) + cache.noted

/-- No modifier points to the entry of this transaction. -/
def Free (cache : Cache) (txid : Uint256) : Prop := ∀ opened, cache.modifier = some opened → opened.txid ≠ txid

theorem settled_find {cache : Cache} {txid : Uint256} (free : cache.Free txid) :
    cache.settled.find txid = cache.cacheCoins.find txid := by
  unfold settled
  cases present : cache.modifier with
  | none => rfl
  | some opened => exact find_erase_ne (Ne.symm (free opened present))

theorem settled_put {cache : Cache} {txid : Uint256} (free : cache.Free txid) (entry : Entry) (counter : Nat) :
    settled { cache with cacheCoins := cache.cacheCoins.put txid entry, cachedCoinsUsage := counter } =
      cache.settled.put txid entry := by
  unfold settled
  cases present : cache.modifier with
  | none => rfl
  | some opened =>
    ext1 other
    simp only [find_erase, find_put]
    by_cases same : other = txid
    · rw [if_pos same, if_pos same, if_neg (same ▸ Ne.symm (free opened present))]
    · rw [if_neg same, if_neg same]

theorem settled_erase {cache : Cache} (txid : Uint256) (counter : Nat) :
    settled { cache with cacheCoins := cache.cacheCoins.erase txid, cachedCoinsUsage := counter } =
      cache.settled.erase txid := by
  unfold settled
  cases cache.modifier with
  | none => rfl
  | some opened =>
    ext1 other
    simp only [find_erase]
    by_cases same : other = txid
    · rw [if_pos same, if_pos same, ite_self]
    · rw [if_neg same, if_neg same]

end Cache

open Cache

theorem subUsage_of_le {counter usage : Nat} (fits : usage ≤ counter) : subUsage counter usage = some (counter - usage) :=
  if_pos fits

theorem sum_usage_nonneg (entries : FiniteMap Uint256 Entry) : 0 ≤ entries.sum fun entry => (entry.usage : Int) := by
  apply Finset.sum_nonneg
  intro txid member
  obtain ⟨entry, found⟩ := find_of_mem member
  rw [found]
  exact Int.natCast_nonneg _

theorem free_of_closed {cache : Cache} (closed : cache.modifier = none) (txid : Uint256) : cache.Free txid := by
  intro opened present
  rw [closed] at present
  cases present

theorem accounted_empty : Accounted {} where
  tidy txid entry found := by cases found
  opened opened none_ := by cases none_
  counted := (sum_empty (K := Uint256) fun entry : Entry => (entry.usage : Int)).symm

theorem accounted_flush {cache : Cache} (closed : cache.modifier = none) : Accounted cache.flush := by
  have same : cache.flush = {} := by rw [Cache.flush, closed]
  rw [same]
  exact accounted_empty

section Steps

variable {cache : Cache} (accounted : Accounted cache)
include accounted

variable {txid : Uint256}

theorem free_of_absent (absent : cache.cacheCoins.find txid = none) : cache.Free txid := by
  intro opened present same
  obtain ⟨entry, found, -⟩ := accounted.opened opened present
  rw [same, absent] at found
  cases found

theorem free_of_clean {entry : Entry} (found : cache.cacheCoins.find txid = some entry) (clean : entry.dirty = false) :
    cache.Free txid := by
  intro opened present same
  obtain ⟨value, found', dirty⟩ := accounted.opened opened present
  rw [same, found] at found'
  obtain rfl := some.inj found'
  rw [clean] at dirty
  cases dirty

/-- An entry comes in under a key that has none. -/
theorem accounted_add (absent : cache.cacheCoins.find txid = none) (entry : Entry) (tidy : entry.object.Tidy) :
    Accounted { cache with
      cacheCoins := cache.cacheCoins.put txid entry, cachedCoinsUsage := cache.cachedCoinsUsage + entry.usage } where
  tidy other value found := by
    rw [settled_put (free_of_absent accounted absent), find_put] at found
    split at found
    · obtain rfl := some.inj found
      exact tidy
    · exact accounted.tidy other value found
  opened opened present := by
    obtain ⟨value, found, dirty⟩ := accounted.opened opened present
    exact ⟨value, (find_put_ne (free_of_absent accounted absent opened present)).trans found, dirty⟩
  counted := by
    have free := free_of_absent accounted absent
    rw [settled_put free, sum_put ((settled_find free).trans absent), Nat.cast_add, accounted.counted]
    exact add_right_comm _ _ _

/-- An entry that no modifier points to leaves with its usage. -/
theorem accounted_erase {entry : Entry} (found : cache.cacheCoins.find txid = some entry) (free : cache.Free txid) :
    ∃ counter, subUsage cache.cachedCoinsUsage entry.usage = some counter ∧
      Accounted { cache with cacheCoins := cache.cacheCoins.erase txid, cachedCoinsUsage := counter } := by
  have rest := sum_usage_nonneg (cache.settled.erase txid)
  have less := sum_erase ((settled_find free).trans found) fun entry => (entry.usage : Int)
  have counted := accounted.counted
  have fits : entry.usage ≤ cache.cachedCoinsUsage := by omega
  refine ⟨_, subUsage_of_le fits, ⟨fun other value present => ?_, fun opened present => ?_, ?_⟩⟩
  · rw [settled_erase, find_erase] at present
    split at present
    · cases present
    · exact accounted.tidy other value present
  · obtain ⟨value, found', dirty⟩ := accounted.opened opened present
    exact ⟨value, (find_erase_ne (free opened present)).trans found', dirty⟩
  · rw [settled_erase, less, Nat.cast_sub fits, counted]
    exact (sub_add_eq_add_sub _ _ _).symm

theorem accounted_fetch (txid : Uint256) (below : Option StoredObject) : Accounted (cache.fetchCoins txid below) := by
  unfold fetchCoins
  split
  · exact accounted
  · exact accounted
  · next tmp absent => exact accounted_add accounted absent _ tmp.property

theorem accounted_uncache (txid : Uint256) : ∃ next, cache.uncache txid = some next ∧ Accounted next := by
  unfold Cache.uncache
  split
  · exact ⟨cache, rfl, accounted⟩
  · next entry found =>
    split
    · exact ⟨cache, rfl, accounted⟩
    · next flags =>
      have clean : entry.dirty = false := by
        rw [Bool.or_eq_true, not_or, Bool.not_eq_true] at flags
        exact flags.1
      obtain ⟨counter, runs, kept⟩ := accounted_erase accounted found (free_of_clean accounted found clean)
      rw [runs]
      exact ⟨_, rfl, kept⟩

section

variable (closed : cache.modifier = none)
include closed

theorem accounted_batchWriteEntry (txid : Uint256) {theirs : Entry} (tidy : theirs.object.Tidy) :
    ∃ next, cache.batchWriteEntry txid theirs = some next ∧ next.modifier = none ∧ Accounted next := by
  unfold Cache.batchWriteEntry
  split
  · split
    · next absent =>
      split
      · exact ⟨cache, rfl, closed, accounted⟩
      · exact ⟨_, rfl, closed, accounted_add accounted absent _ tidy⟩
    · next our found =>
      obtain ⟨counter, runs, kept⟩ := accounted_erase accounted found (free_of_closed closed txid)
      rw [runs]
      simp only [bind_eq_bind, bind_some]
      split
      · exact ⟨_, rfl, closed, kept⟩
      · let merged : Entry := { our with object := theirs.object, dirty := true }
        have again := accounted_add kept (find_erase_self _ _) merged tidy
        simp only [put_erase] at again
        exact ⟨_, rfl, closed, again⟩
  · exact ⟨cache, rfl, closed, accounted⟩

theorem accounted_batchWrite {mapCoins : List (Uint256 × Entry)}
    (tidy : ∀ entry ∈ mapCoins, entry.2.object.Tidy) : ∃ next, cache.batchWrite mapCoins = some next ∧ Accounted next := by
  unfold Cache.batchWrite
  induction mapCoins generalizing cache with
  | nil => exact ⟨cache, rfl, accounted⟩
  | cons entry rest ih =>
    obtain ⟨middle, runs, closed', kept⟩ := accounted_batchWriteEntry accounted closed entry.1 (tidy entry List.mem_cons_self)
    rw [List.foldlM_cons, runs]
    exact ih kept closed' (List.forall_mem_cons.mp tidy).2

theorem counter_of_closed : (cache.cachedCoinsUsage : Int) = cache.held := by
  have counted := accounted.counted
  rw [settled, noted, closed] at counted
  exact counted.trans (add_zero _)

/-- A modifier takes an entry out of what is settled, with the usage it notes. -/
theorem accounted_open (txid : Uint256) {entry : Entry} (dirty : entry.dirty = true)
    {noted : Nat} (balance : cache.held = (cache.cacheCoins.erase txid).sum (fun entry => (entry.usage : Int)) + noted) :
    Accounted (cache.openModifier txid entry noted) where
  tidy other value found := by
    have others : settled (cache.openModifier txid entry noted) = cache.cacheCoins.erase txid := erase_put _ _ _
    rw [others, find_erase] at found
    split at found
    · cases found
    · refine accounted.tidy other value ?_
      rwa [settled_find (free_of_closed closed other)]
  opened opened present := by
    obtain rfl := some.inj present
    exact ⟨entry, find_put_self _ _ _, dirty⟩
  counted := by
    have others : settled (cache.openModifier txid entry noted) = cache.cacheCoins.erase txid := erase_put _ _ _
    rw [others]
    exact (counter_of_closed accounted closed).trans balance

theorem accounted_modifyCoins (txid : Uint256) (below : Option StoredObject) : Accounted (cache.modifyCoins txid below) := by
  unfold Cache.modifyCoins openedEntry
  split
  · next entry found =>
    apply accounted_open accounted closed txid rfl
    rw [sum_erase found, sub_add_cancel]
    rfl
  · next absent =>
    apply accounted_open accounted closed txid rfl
    rw [erase_absent absent]
    exact (add_zero _).symm
  · next coins absent =>
    apply accounted_open accounted closed txid rfl
    rw [erase_absent absent]
    exact (add_zero _).symm

/-- What is emptied without being subtracted used nothing. -/
theorem accounted_modifyNewCoins {txid : Uint256}
    (spent : ∀ entry, cache.cacheCoins.find txid = some entry → entry.object.coins.isPruned = true) :
    Accounted (cache.modifyNewCoins txid) := by
  apply accounted_open accounted closed txid rfl
  cases found : cache.cacheCoins.find txid with
  | none =>
    rw [erase_absent found]
    exact (add_zero _).symm
  | some entry =>
    have tidy := accounted.tidy txid entry ((settled_find (free_of_closed closed txid)).trans found)
    have nothing : entry.usage = 0 := CCoinsObject.usage_of_pruned tidy (spent entry found)
    rw [sum_erase found, nothing]
    exact (sub_add_cancel _ _).symm

end

theorem accounted_edit (object : CCoinsObject) : Accounted (cache.edit object) := by
  cases present : cache.modifier with
  | none =>
    rw [edit, present]
    exact accounted
  | some opened =>
    obtain ⟨entry, found, dirty⟩ := accounted.opened opened present
    let change (entry : Entry) : Entry := { entry with object }
    have same : cache.edit object = { cache with cacheCoins := cache.cacheCoins.modify opened.txid change } := by
      rw [edit, present]
    rw [same]
    have others : settled { cache with cacheCoins := cache.cacheCoins.modify opened.txid change } = cache.settled := by
      simp only [settled, present]
      rw [← put_eq_modify found, erase_put]
    refine ⟨fun other value found' => accounted.tidy other value (others ▸ found'), fun opened' present' => ?_, ?_⟩
    · obtain rfl := some.inj (present.symm.trans present')
      refine ⟨change entry, ?_, dirty⟩
      exact (find_modify_self _ _ _).trans (congrArg (Option.map change) found)
    · rw [others]
      exact accounted.counted

theorem accounted_closeModifier (open_ : cache.modifier.isSome = true) :
    ∃ next, cache.closeModifier = some next ∧ Accounted next := by
  obtain ⟨opened, present⟩ := isSome_iff_exists.mp open_
  obtain ⟨entry, found, -⟩ := accounted.opened opened present
  have others : cache.settled = cache.cacheCoins.erase opened.txid := by rw [settled, present]
  have usage : cache.noted = opened.cachedCoinUsage := by rw [noted, present]
  have counted := accounted.counted
  rw [usage, others] at counted
  have rest := sum_usage_nonneg (cache.cacheCoins.erase opened.txid)
  have fits : opened.cachedCoinUsage ≤ cache.cachedCoinsUsage := by omega
  have erased : Accounted { cacheCoins := cache.cacheCoins.erase opened.txid
                            cachedCoinsUsage := cache.cachedCoinsUsage - opened.cachedCoinUsage } := by
    refine ⟨fun other value found' => accounted.tidy other value (others ▸ found'), fun opened' present' => ?_, ?_⟩
    · cases present'
    · rw [Nat.cast_sub fits, counted, add_sub_cancel_right]
      exact (add_zero _).symm
  have stored := accounted_add erased (find_erase_self _ _)
    { entry with object := entry.object.cleanup } (CCoinsObject.tidy_cleanup _)
  simp only [put_erase] at stored
  rw [Cache.closeModifier, present]
  simp only [bind_eq_bind, bind_some, found, subUsage_of_le fits]
  split
  · exact ⟨_, rfl, erased⟩
  · exact ⟨_, rfl, stored⟩

theorem accounted_step {event : Event} (allowed : Allowed cache event) :
    ∃ next, step cache event = some next ∧ Accounted next := by
  cases event with
  | fetchCoins txid below => exact ⟨_, rfl, accounted_fetch accounted txid below⟩
  | modifyCoins txid below => exact ⟨_, rfl, accounted_modifyCoins accounted allowed txid below⟩
  | modifyNewCoins txid => exact ⟨_, rfl, accounted_modifyNewCoins accounted allowed.1 allowed.2⟩
  | edit object => exact ⟨_, rfl, accounted_edit accounted object⟩
  | closeModifier => exact accounted_closeModifier accounted allowed
  | uncache txid => exact accounted_uncache accounted txid
  | batchWrite mapCoins => exact accounted_batchWrite accounted allowed.1 allowed.2
  | flush => exact ⟨_, rfl, accounted_flush allowed⟩

end Steps

/-- Whatever is done to a new cache, whenever no modifier is open the counter is what the entries use, and no
subtraction of the next operation wraps. -/
theorem cachedCoinsUsage_exact {events : List Event} {cache : Cache} (run : Steps AllowedStep {} events cache) :
    (cache.modifier = none → (cache.cachedCoinsUsage : Int) = cache.held) ∧
    ∀ event, Allowed cache event → ∃ next, step cache event = some next := by
  have accounted : Accounted cache := by
    refine Steps.invariant Accounted (fun cache event next accounted taken => ?_) run accounted_empty
    obtain ⟨after, runs, kept⟩ := accounted_step accounted taken.1
    obtain rfl := some.inj (runs.symm.trans taken.2)
    exact kept
  refine ⟨counter_of_closed accounted, fun event allowed => ?_⟩
  obtain ⟨next, runs, -⟩ := accounted_step accounted allowed
  exact ⟨next, runs⟩

def oneOutput : CCoinsObject := { coins := { vout := [{ nValue := 7, scriptPubKey := [] }] }, voutBytes := 40 }

/-- Two entries, then the first one spent. -/
def entries : List Event := [.modifyNewCoins 1, .edit oneOutput, .closeModifier, .modifyNewCoins 2, .edit oneOutput,
  .closeModifier, .modifyCoins 1 none, .edit {}, .closeModifier]

theorem oneOutput_counted : ∃ cache, Steps AllowedStep {} entries cache ∧ cache.cachedCoinsUsage = 64 ∧ cache.held = 64 := by
  have run : Steps AllowedStep {} entries _ :=
    .more ⟨⟨rfl, nofun⟩, rfl⟩ (.more ⟨trivial, rfl⟩ (.more ⟨rfl, rfl⟩ (.more ⟨⟨rfl, nofun⟩, rfl⟩ (.more ⟨trivial, rfl⟩
      (.more ⟨rfl, rfl⟩ (.more ⟨rfl, rfl⟩ (.more ⟨trivial, rfl⟩ (.more ⟨rfl, rfl⟩ (.done _)))))))))
  exact ⟨_, run, rfl, ((cachedCoinsUsage_exact run).1 rfl).symm⟩

end Longcoin.CoinsUsage

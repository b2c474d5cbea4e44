import Longcoin.KeyPool
import Longcoin.Library.Steps

/-! No key of the pool is handed out twice as long as no key is written where a reservation holds one
(`wallet/wallet.cpp`). -/

namespace Longcoin.KeyPool
open Library FiniteMap List Option Finset Bool Function

variable {PubKey KeyID : Type}

/-- The records of the pool are of different keys of the wallet, none of them handed out, and each index has one. -/
structure Stocked (env : Env PubKey KeyID) (wallet : CWallet PubKey KeyID) (kept : List PubKey) : Prop where
  recorded : ∀ nIndex ∈ wallet.setKeyPool, ∃ entry, wallet.pool.find nIndex = some entry
  positive : ∀ nIndex ∈ wallet.setKeyPool, 0 < nIndex
  made : ∀ nIndex entry, wallet.pool.find nIndex = some entry → ∃ n < wallet.nMade, env.makeNewKey n = entry.vchPubKey
  known : ∀ nIndex entry, wallet.pool.find nIndex = some entry → env.getID entry.vchPubKey ∈ wallet.mapKeys
  distinct : ∀ nIndex other entry entry', wallet.pool.find nIndex = some entry → wallet.pool.find other = some entry' →
    entry.vchPubKey = entry'.vchPubKey → nIndex = other
  keptMade : ∀ key ∈ kept, ∃ n < wallet.nMade, env.makeNewKey n = key
  unkept : ∀ nIndex entry, wallet.pool.find nIndex = some entry → entry.vchPubKey ∉ kept
  keptOnce : kept.Nodup

variable {env : Env PubKey KeyID} {wallet : CWallet PubKey KeyID} {kept : List PubKey}

theorem fresh_of_made (injective : Injective env.makeNewKey) {key : PubKey} {nMade : Nat}
    (made : ∃ n < nMade, env.makeNewKey n = key) : key ≠ env.makeNewKey nMade := by
  obtain ⟨n, before, rfl⟩ := made
  exact fun same => before.ne (injective same)

theorem nEnd_pos (positive : ∀ nIndex ∈ wallet.setKeyPool, 0 < nIndex) : 0 < nEnd wallet := by
  rw [nEnd]
  split
  · next nonempty => exact (positive _ (max'_mem _ nonempty)).trans (Int.lt_succ _)
  · exact Int.one_pos

/-- A reservation holds the key that the record at its index is of. The index is not in the pool. -/
structure HeldApart (wallet : CWallet PubKey KeyID) (reservations : Nat → Option (CReserveKey PubKey)) : Prop where
  recorded : ∀ id held, reservations id = some held → ∃ entry, wallet.pool.find held.nIndex = some entry ∧ entry.vchPubKey = held.vchPubKey
  apart : ∀ id held, reservations id = some held → held.nIndex ∉ wallet.setKeyPool
  positive : ∀ id held, reservations id = some held → 0 < held.nIndex
  unshared : ∀ id other held held', reservations id = some held → reservations other = some held' → held.nIndex = held'.nIndex → id = other

variable {reservations : Nat → Option (CReserveKey PubKey)}

def taken (wallet : CWallet PubKey KeyID) (nIndex : Int) : CWallet PubKey KeyID :=
  { wallet with setKeyPool := wallet.setKeyPool.erase nIndex }

theorem Stocked.taken (stocked : Stocked env wallet kept) (nIndex : Int) : Stocked env (taken wallet nIndex) kept :=
  { stocked with
    recorded := fun other member => stocked.recorded other (mem_of_mem_erase member)
    positive := fun other member => stocked.positive other (mem_of_mem_erase member) }

theorem HeldApart.taken (apart : HeldApart wallet reservations) (nIndex : Int) : HeldApart (taken wallet nIndex) reservations :=
  { apart with apart := fun id held holds member => apart.apart id held holds (mem_of_mem_erase member) }

variable {nIndex : Int}

theorem Stocked.keepKey (stocked : Stocked env wallet kept) (out : nIndex ∉ wallet.setKeyPool) {entry : CKeyPool PubKey}
    (found : wallet.pool.find nIndex = some entry) : Stocked env (keepKey wallet nIndex) (entry.vchPubKey :: kept) := by
  have before : ∀ {other entry'}, (KeyPool.keepKey wallet nIndex).pool.find other = some entry' →
      other ≠ nIndex ∧ wallet.pool.find other = some entry' := by
    intro other entry' found'
    change (wallet.pool.erase nIndex).find other = some entry' at found'
    rw [find_erase] at found'
    split at found'
    · cases found'
    · next elsewhere => exact ⟨elsewhere, found'⟩
  refine ⟨fun other member => ?_, stocked.positive, fun other entry' found' => stocked.made other entry' (before found').2,
    fun other entry' found' => stocked.known other entry' (before found').2, fun first second entry' entry'' found' found'' =>
    stocked.distinct first second entry' entry'' (before found').2 (before found'').2, fun key member => ?_,
    fun other entry' found' member => ?_, nodup_cons.mpr ⟨stocked.unkept nIndex entry found, stocked.keptOnce⟩⟩
  · have elsewhere : other ≠ nIndex := fun here => out (here ▸ member)
    obtain ⟨entry', found'⟩ := stocked.recorded other member
    exact ⟨entry', (find_erase_ne elsewhere).trans found'⟩
  · rcases mem_cons.mp member with rfl | earlier
    · exact stocked.made nIndex entry found
    · exact stocked.keptMade key earlier
  · obtain ⟨elsewhere, found'⟩ := before found'
    rcases mem_cons.mp member with same | earlier
    · exact elsewhere (stocked.distinct other nIndex entry' entry found' found same)
    · exact stocked.unkept other entry' found' earlier

theorem HeldApart.keepKey (apart : HeldApart wallet reservations)
    (free : ∀ id held, reservations id = some held → held.nIndex ≠ nIndex) : HeldApart (keepKey wallet nIndex) reservations where
  recorded id held holds := by
    obtain ⟨entry, found, same⟩ := apart.recorded id held holds
    exact ⟨entry, (find_erase_ne (free id held holds)).trans found, same⟩
  apart := apart.apart
  positive := apart.positive
  unshared := apart.unshared

theorem Stocked.returnKey (stocked : Stocked env wallet kept) (positive : 0 < nIndex)
    (found : ∃ entry, wallet.pool.find nIndex = some entry) : Stocked env (returnKey wallet nIndex) kept :=
  { stocked with
    recorded := fun other member => by
      rcases mem_insert.mp member with rfl | before
      · exact found
      · exact stocked.recorded other before
    positive := fun other member => by
      rcases mem_insert.mp member with rfl | before
      · exact positive
      · exact stocked.positive other before }

theorem HeldApart.returnKey (apart : HeldApart wallet reservations)
    (free : ∀ id held, reservations id = some held → held.nIndex ≠ nIndex) : HeldApart (returnKey wallet nIndex) reservations :=
  { apart with
    apart := fun id held holds member => by
      rcases mem_insert.mp member with here | before
      · exact free id held holds here
      · exact apart.apart id held holds before }

theorem HeldApart.hold (apart : HeldApart wallet reservations) (id : Nat) {entry : CKeyPool PubKey}
    (found : wallet.pool.find nIndex = some entry) (out : nIndex ∉ wallet.setKeyPool) (positive : 0 < nIndex)
    (free : ∀ id held, reservations id = some held → held.nIndex ≠ nIndex) :
    HeldApart wallet (update reservations id (some ⟨nIndex, entry.vchPubKey⟩)) := by
  have cases_ : ∀ {other held}, update reservations id (some ⟨nIndex, entry.vchPubKey⟩) other = some held →
      (other = id ∧ held = ⟨nIndex, entry.vchPubKey⟩) ∨ (other ≠ id ∧ reservations other = some held) := by
    intro other held holds
    rw [update_apply] at holds
    split at holds
    · next here => exact .inl ⟨here, (some.inj holds).symm⟩
    · next elsewhere => exact .inr ⟨elsewhere, holds⟩
  refine ⟨fun other held holds => ?_, fun other held holds => ?_, fun other held holds => ?_,
    fun first second held held' holds holds' same => ?_⟩
  · rcases cases_ holds with ⟨-, rfl⟩ | ⟨-, before⟩
    · exact ⟨entry, found, rfl⟩
    · exact apart.recorded other held before
  · rcases cases_ holds with ⟨-, rfl⟩ | ⟨-, before⟩
    · exact out
    · exact apart.apart other held before
  · rcases cases_ holds with ⟨-, rfl⟩ | ⟨-, before⟩
    · exact positive
    · exact apart.positive other held before
  · rcases cases_ holds with ⟨rfl, rfl⟩ | ⟨-, before⟩ <;> rcases cases_ holds' with ⟨rfl, rfl⟩ | ⟨-, before'⟩
    · rfl
    · exact absurd same.symm (free second held' before')
    · exact absurd same (free first held before)
    · exact apart.unshared first second held held' before before' same

theorem update_none {id other : Nat} {held : CReserveKey PubKey} (holds : update reservations id none other = some held) :
    other ≠ id ∧ reservations other = some held := by
  rw [update_apply] at holds
  split at holds
  · cases holds
  · next elsewhere => exact ⟨elsewhere, holds⟩

theorem HeldApart.release (apart : HeldApart wallet reservations) (id : Nat) :
    HeldApart wallet (update reservations id none) where
  recorded other held holds := apart.recorded other held (update_none holds).2
  apart other held holds := apart.apart other held (update_none holds).2
  positive other held holds := apart.positive other held (update_none holds).2
  unshared first second held held' holds holds' :=
    apart.unshared first second held held' (update_none holds).2 (update_none holds').2

theorem HeldApart.others (apart : HeldApart wallet reservations) {id : Nat} {held : CReserveKey PubKey} (holds : reservations id = some held) :
    ∀ other held', update reservations id none other = some held' → held'.nIndex ≠ held.nIndex := by
  intro other held' holds' same
  obtain ⟨elsewhere, before⟩ := update_none holds'
  exact elsewhere (apart.unshared other id held' held before holds same)

theorem find_clearKeyPool {entry : CKeyPool PubKey} (found : (clearKeyPool wallet).pool.find nIndex = some entry) :
    wallet.pool.find nIndex = some entry := by
  change (wallet.pool.eraseAll wallet.setKeyPool).find nIndex = some entry at found
  rw [find_eraseAll] at found
  split at found
  · cases found
  · exact found

theorem Stocked.clearKeyPool (stocked : Stocked env wallet kept) : Stocked env (clearKeyPool wallet) kept where
  recorded nIndex member := absurd member (notMem_empty nIndex)
  positive nIndex member := absurd member (notMem_empty nIndex)
  made nIndex entry found := stocked.made nIndex entry (find_clearKeyPool found)
  known nIndex entry found := stocked.known nIndex entry (find_clearKeyPool found)
  distinct nIndex other entry entry' found found' :=
    stocked.distinct nIndex other entry entry' (find_clearKeyPool found) (find_clearKeyPool found')
  keptMade := stocked.keptMade
  unkept nIndex entry found := stocked.unkept nIndex entry (find_clearKeyPool found)
  keptOnce := stocked.keptOnce

theorem HeldApart.clearKeyPool (apart : HeldApart wallet reservations) : HeldApart (clearKeyPool wallet) reservations where
  recorded id held holds := by
    obtain ⟨entry, found, same⟩ := apart.recorded id held holds
    refine ⟨entry, ?_, same⟩
    change (wallet.pool.eraseAll wallet.setKeyPool).find held.nIndex = some entry
    rw [find_eraseAll, if_neg (apart.apart id held holds), found]
  apart id held _ := notMem_empty held.nIndex
  positive := apart.positive
  unshared := apart.unshared

variable [DecidableEq KeyID]

theorem Stocked.writeNewKey (stocked : Stocked env wallet kept) (injective : Injective env.makeNewKey)
    (positive : 0 < nIndex) : Stocked env (writeNewKey env wallet nIndex) kept := by
  have cases_ : ∀ {other : Int} {entry : CKeyPool PubKey}, (KeyPool.writeNewKey env wallet nIndex).pool.find other = some entry →
      (other = nIndex ∧ entry.vchPubKey = env.makeNewKey wallet.nMade) ∨ (other ≠ nIndex ∧ wallet.pool.find other = some entry) := by
    intro other entry found
    change (wallet.pool.put nIndex _).find other = some entry at found
    rw [find_put] at found
    split at found
    · next here => exact .inl ⟨here, by rw [← some.inj found]; rfl⟩
    · next elsewhere => exact .inr ⟨elsewhere, found⟩
  refine ⟨fun other member => ?_, fun other member => ?_, fun other entry found => ?_, fun other entry found => ?_,
    fun first second entry entry' found found' same => ?_, fun key member => ?_, fun other entry found member => ?_, stocked.keptOnce⟩
  · change ∃ entry, (wallet.pool.put nIndex _).find other = some entry
    rw [find_put]
    split
    · exact ⟨_, rfl⟩
    · next elsewhere => exact stocked.recorded other ((mem_insert.mp member).resolve_left elsewhere)
  · rcases mem_insert.mp member with rfl | before
    · exact positive
    · exact stocked.positive other before
  · rcases cases_ found with ⟨-, new⟩ | ⟨-, before⟩
    · exact ⟨wallet.nMade, Nat.lt_succ_self _, new.symm⟩
    · obtain ⟨n, earlier, same⟩ := stocked.made other entry before
      exact ⟨n, Nat.lt_succ_of_lt earlier, same⟩
  · rcases cases_ found with ⟨-, new⟩ | ⟨-, before⟩
    · rw [new]
      exact mem_insert_self _ _
    · exact mem_insert_of_mem (stocked.known other entry before)
  · rcases cases_ found with ⟨rfl, new⟩ | ⟨-, before⟩ <;> rcases cases_ found' with ⟨rfl, new'⟩ | ⟨-, before'⟩
    · rfl
    · exact absurd (same.symm.trans new) (fresh_of_made injective (stocked.made second entry' before'))
    · exact absurd (same.trans new') (fresh_of_made injective (stocked.made first entry before))
    · exact stocked.distinct first second entry entry' before before' same
  · obtain ⟨n, earlier, same⟩ := stocked.keptMade key member
    exact ⟨n, Nat.lt_succ_of_lt earlier, same⟩
  · rcases cases_ found with ⟨-, new⟩ | ⟨-, before⟩
    · exact fresh_of_made injective (stocked.keptMade _ member) new
    · exact stocked.unkept other entry before member

theorem HeldApart.writeNewKey (apart : HeldApart wallet reservations)
    (free : ∀ id held, reservations id = some held → held.nIndex ≠ nIndex) :
    HeldApart (writeNewKey env wallet nIndex) reservations where
  recorded id held holds := by
    obtain ⟨entry, found, same⟩ := apart.recorded id held holds
    exact ⟨entry, (find_put_ne (free id held holds)).trans found, same⟩
  apart id held holds member := by
    rcases mem_insert.mp member with here | before
    · exact free id held holds here
    · exact apart.apart id held holds before
  positive := apart.positive
  unshared := apart.unshared

theorem Stocked.topUpLoop (stocked : Stocked env wallet kept) (injective : Injective env.makeNewKey) (size : Nat) :
    Stocked env (topUpLoop env size wallet) kept := by
  fun_induction KeyPool.topUpLoop env size wallet with
  | case1 wallet less ih => exact ih (stocked.writeNewKey injective (nEnd_pos stocked.positive))
  | case2 wallet enough => exact stocked

theorem HeldApart.topUpLoop (apart : HeldApart wallet reservations) (size : Nat) (free : ∀ id held, reservations id = some held →
    ¬(nEnd wallet ≤ held.nIndex ∧ held.nIndex < nEnd wallet + (size - wallet.setKeyPool.card : Nat))) :
    HeldApart (topUpLoop env size wallet) reservations := by
  fun_induction KeyPool.topUpLoop env size wallet with
  | case1 wallet less ih =>
    have free' : ∀ id held, reservations id = some held → held.nIndex ≠ nEnd wallet := by
      intro id held holds here
      refine free id held holds ?_
      omega
    refine ih (apart.writeNewKey free') fun id held holds inside => free id held holds ?_
    rw [nEnd_writeNewKey, card_writeNewKey] at inside
    omega
  | case2 wallet enough => exact apart

def topUpRange (env : Env PubKey KeyID) (kpSize : Nat) (wallet : CWallet PubKey KeyID) : Set Int :=
  {index | wallet.fLocked = false ∧ nEnd wallet ≤ index ∧
    index < nEnd wallet + (topUpSize env kpSize - wallet.setKeyPool.card : Nat)}

theorem Stocked.topUpKeyPool (stocked : Stocked env wallet kept) (injective : Injective env.makeNewKey) (kpSize : Nat) :
    Stocked env (topUpKeyPool env kpSize wallet).1 kept := by
  rw [KeyPool.topUpKeyPool]
  split
  · exact stocked
  · exact stocked.topUpLoop injective _

theorem HeldApart.topUpKeyPool (apart : HeldApart wallet reservations) {kpSize : Nat}
    (free : ∀ id held, reservations id = some held → held.nIndex ∉ topUpRange env kpSize wallet) :
    HeldApart (topUpKeyPool env kpSize wallet).1 reservations := by
  rw [KeyPool.topUpKeyPool]
  split
  · exact apart
  · next unlocked =>
    exact apart.topUpLoop _ fun id held holds inside => free id held holds ⟨eq_false_iff.mpr unlocked, inside⟩

theorem Stocked.foldl_writeNewKey (stocked : Stocked env wallet kept) (injective : Injective env.makeNewKey) (indices : List Nat) :
    Stocked env (indices.foldl (fun wallet (i : Nat) => KeyPool.writeNewKey env wallet (i + 1)) wallet) kept := by
  induction indices generalizing wallet with
  | nil => exact stocked
  | cons i indices ih => exact ih (stocked.writeNewKey injective (by omega))

theorem HeldApart.foldl_writeNewKey (apart : HeldApart wallet reservations) {indices : List Nat}
    (free : ∀ id held, reservations id = some held → ∀ i ∈ indices, held.nIndex ≠ (i : Int) + 1) :
    HeldApart (indices.foldl (fun wallet (i : Nat) => KeyPool.writeNewKey env wallet (i + 1)) wallet) reservations := by
  induction indices generalizing wallet with
  | nil => exact apart
  | cons i indices ih =>
    refine ih (apart.writeNewKey fun id held holds => free id held holds i mem_cons_self) ?_
    exact fun id held holds j member => free id held holds j (mem_cons_of_mem _ member)

/-- The indices that `NewKeyPool` writes keys at. -/
def newRange (env : Env PubKey KeyID) (wallet : CWallet PubKey KeyID) : Set Int :=
  {index | wallet.fLocked = false ∧ 1 ≤ index ∧ index ≤ (nKeys env : Int)}

theorem Stocked.newKeyPool (stocked : Stocked env wallet kept) (injective : Injective env.makeNewKey) :
    Stocked env (newKeyPool env wallet).1 kept := by
  rw [KeyPool.newKeyPool]
  split
  · exact stocked.clearKeyPool
  · exact stocked.clearKeyPool.foldl_writeNewKey injective _

theorem HeldApart.newKeyPool (apart : HeldApart wallet reservations)
    (free : ∀ id held, reservations id = some held → held.nIndex ∉ newRange env wallet) :
    HeldApart (newKeyPool env wallet).1 reservations := by
  rw [KeyPool.newKeyPool]
  split
  · exact apart.clearKeyPool
  · next unlocked =>
    refine apart.clearKeyPool.foldl_writeNewKey fun id held holds i member here => free id held holds ?_
    have below := List.mem_range.mp member
    exact ⟨eq_false_iff.mpr unlocked, by omega, by omega⟩

theorem Stocked.takeOldest_cases (stocked : Stocked env wallet kept) :
    takeOldest env wallet = some (wallet, none) ∨ ∃ nIndex entry, nIndex ∈ wallet.setKeyPool ∧ wallet.pool.find nIndex = some entry ∧
      takeOldest env wallet = some (KeyPool.taken wallet nIndex, some (nIndex, entry)) := by
  by_cases nonempty : wallet.setKeyPool.Nonempty
  · obtain ⟨entry, found⟩ := stocked.recorded _ (min'_mem _ nonempty)
    refine .inr ⟨_, entry, min'_mem _ nonempty, found, ?_⟩
    rw [takeOldest, dif_pos nonempty]
    change (wallet.pool.find (wallet.setKeyPool.min' nonempty)).bind _ = _
    rw [found, bind_some, if_pos (stocked.known _ entry found)]
    rfl
  · exact .inl (dif_neg nonempty)

def writtenBy (env : Env PubKey KeyID) (sys : System PubKey KeyID) : KeyPoolEvent → Set Int
  | .getReservedKey id => if (sys.reservations id).isSome then ∅ else topUpRange env 0 sys.wallet
  | .getKeyFromPool | .getOldestKeyPoolTime => topUpRange env 0 sys.wallet
  | .topUpKeyPool kpSize => topUpRange env kpSize sys.wallet
  | .newKeyPool => newRange env sys.wallet
  | .keepKey _ | .returnKey _ | .lock | .unlock | .setTime _ => ∅

def Clear (env : Env PubKey KeyID) (sys : System PubKey KeyID) (event : KeyPoolEvent) : Prop :=
  ∀ id held, sys.reservations id = some held → held.nIndex ∉ writtenBy env sys event

structure Good (env : Env PubKey KeyID) (sys : System PubKey KeyID) : Prop where
  stocked : Stocked env sys.wallet sys.kept
  apart : HeldApart sys.wallet sys.reservations

theorem Stocked.filled (stocked : Stocked env wallet kept) (injective : Injective env.makeNewKey) :
    Stocked env (if wallet.fLocked then wallet else (KeyPool.topUpKeyPool env 0 wallet).1) kept := by
  split
  · exact stocked
  · exact stocked.topUpKeyPool injective 0

theorem Stocked.reserve_isSome (stocked : Stocked env wallet kept) (injective : Injective env.makeNewKey) :
    (reserveKeyFromKeyPool env wallet).isSome = true := by
  rw [reserveKeyFromKeyPool]
  rcases (stocked.filled injective).takeOldest_cases with none | ⟨nIndex, entry, -, -, some⟩
  · rw [none]
    rfl
  · rw [some]
    rfl

/-- What is reserved: nothing, or the record at an index that no reservation holds. -/
inductive Fetched (env : Env PubKey KeyID) (kept : List PubKey) (reservations : Nat → Option (CReserveKey PubKey)) :
    Reserved PubKey KeyID → Prop where
  | none {wallet : CWallet PubKey KeyID} (stocked : Stocked env wallet kept) (apart : HeldApart wallet reservations) :
    Fetched env kept reservations (wallet, none)
  | some {wallet : CWallet PubKey KeyID} {nIndex : Int} {entry : CKeyPool PubKey} (stocked : Stocked env wallet kept)
    (apart : HeldApart wallet reservations) (found : wallet.pool.find nIndex = some entry) (out : nIndex ∉ wallet.setKeyPool)
    (positive : 0 < nIndex) (free : ∀ id held, reservations id = some held → held.nIndex ≠ nIndex) :
    Fetched env kept reservations (wallet, some (nIndex, entry))

theorem Good.reserve {sys : System PubKey KeyID} (good : Good env sys) (injective : Injective env.makeNewKey)
    (free : ∀ id held, sys.reservations id = some held → held.nIndex ∉ topUpRange env 0 sys.wallet) :
    ∃ reserved, reserveKeyFromKeyPool env sys.wallet = some reserved ∧ Fetched env sys.kept sys.reservations reserved := by
  have stocked := good.stocked.filled injective
  have apart : HeldApart (if sys.wallet.fLocked then sys.wallet else (KeyPool.topUpKeyPool env 0 sys.wallet).1) sys.reservations := by
    split
    · exact good.apart
    · exact good.apart.topUpKeyPool free
  rcases stocked.takeOldest_cases with none | ⟨nIndex, entry, member, found, some⟩
  · exact ⟨_, none, .none stocked apart⟩
  · exact ⟨_, some, .some (stocked.taken nIndex) (apart.taken nIndex) found (notMem_erase _ _) (stocked.positive nIndex member)
      fun id held holds here => apart.apart id held holds (here ▸ member)⟩

theorem Stocked.generateNewKey (stocked : Stocked env wallet kept) (injective : Injective env.makeNewKey) :
    Stocked env (generateNewKey env wallet).1 ((generateNewKey env wallet).2 :: kept) where
  recorded := stocked.recorded
  positive := stocked.positive
  made nIndex entry found := by
    obtain ⟨n, before, same⟩ := stocked.made nIndex entry found
    exact ⟨n, Nat.lt_succ_of_lt before, same⟩
  known nIndex entry found := mem_insert_of_mem (stocked.known nIndex entry found)
  distinct := stocked.distinct
  keptMade key member := by
    rcases mem_cons.mp member with rfl | earlier
    · exact ⟨wallet.nMade, Nat.lt_succ_self _, rfl⟩
    · obtain ⟨n, before, same⟩ := stocked.keptMade key earlier
      exact ⟨n, Nat.lt_succ_of_lt before, same⟩
  unkept nIndex entry found member := by
    rcases mem_cons.mp member with same | earlier
    · exact fresh_of_made injective (stocked.made nIndex entry found) same
    · exact stocked.unkept nIndex entry found earlier
  keptOnce := nodup_cons.mpr ⟨fun member => fresh_of_made injective (stocked.keptMade _ member) rfl, stocked.keptOnce⟩

theorem HeldApart.generateNewKey (apart : HeldApart wallet reservations) : HeldApart (generateNewKey env wallet).1 reservations :=
  { apart with }

section Events

variable {sys last : System PubKey KeyID} (good : Good env sys)

include good

theorem Good.getReservedKey (injective : Injective env.makeNewKey) {id : Nat} (clear : Clear env sys (.getReservedKey id))
    (runs : sys.getReservedKey env id = some last) : Good env last := by
  rw [System.getReservedKey] at runs
  cases holds : sys.reservations id with
  | some held =>
    rw [holds] at runs
    exact some.inj runs ▸ good
  | none =>
    simp only [Clear, writtenBy, holds, isSome_none, false_eq_true, if_false] at clear
    rw [holds] at runs
    obtain ⟨reserved, fetched, same⟩ := map_eq_some_iff.mp runs
    obtain ⟨reserved', fetched', result⟩ := good.reserve injective clear
    obtain rfl := some.inj (fetched.symm.trans fetched')
    obtain rfl := same
    cases result with
    | none stocked apart => exact ⟨stocked, apart.release id⟩
    | some stocked apart found out positive free => exact ⟨stocked, apart.hold id found out positive free⟩

omit [DecidableEq KeyID] in
theorem Good.keepKey (id : Nat) : Good env (sys.keepKey id) := by
  rw [System.keepKey]
  cases holds : sys.reservations id with
  | none => exact good
  | some held =>
    obtain ⟨entry, found, same⟩ := good.apart.recorded id held holds
    have stocked := good.stocked.keepKey (good.apart.apart id held holds) found
    rw [same] at stocked
    exact ⟨stocked, (good.apart.release id).keepKey (good.apart.others holds)⟩

omit [DecidableEq KeyID] in
theorem Good.returnKey (id : Nat) : Good env (sys.returnKey id) := by
  rw [System.returnKey]
  cases holds : sys.reservations id with
  | none => exact good
  | some held =>
    obtain ⟨entry, found, -⟩ := good.apart.recorded id held holds
    exact ⟨good.stocked.returnKey (good.apart.positive id held holds) ⟨entry, found⟩,
      (good.apart.release id).returnKey (good.apart.others holds)⟩

section

variable (injective : Function.Injective env.makeNewKey)
include injective

theorem Good.getKeyFromPool (clear : Clear env sys .getKeyFromPool)
    (runs : sys.next env .getKeyFromPool = some last) : Good env last := by
  obtain ⟨got, gets, rfl⟩ := map_eq_some_iff.mp runs
  obtain ⟨reserved, fetched, rfl⟩ := map_eq_some_iff.mp gets
  obtain ⟨reserved', fetched', result⟩ := good.reserve injective clear
  obtain rfl := some.inj (fetched.symm.trans fetched')
  cases result with
  | some stocked apart found out positive free => exact ⟨stocked.keepKey out found, apart.keepKey free⟩
  | @none wallet stocked apart =>
    cases locked : wallet.fLocked with
    | true =>
      simp only [if_true, toList_none, nil_append]
      exact ⟨stocked, apart⟩
    | false =>
      simp only [false_eq_true, if_false, toList_some]
      exact ⟨stocked.generateNewKey injective, apart.generateNewKey⟩

theorem Good.getOldestKeyPoolTime (clear : Clear env sys .getOldestKeyPoolTime)
    (runs : sys.next env .getOldestKeyPoolTime = some last) : Good env last := by
  obtain ⟨got, gets, rfl⟩ := map_eq_some_iff.mp runs
  obtain ⟨reserved, fetched, rfl⟩ := map_eq_some_iff.mp gets
  obtain ⟨reserved', fetched', result⟩ := good.reserve injective clear
  obtain rfl := some.inj (fetched.symm.trans fetched')
  cases result with
  | some stocked apart found out positive free => exact ⟨stocked.returnKey positive ⟨_, found⟩, apart.returnKey free⟩
  | none stocked apart => exact ⟨stocked, apart⟩

theorem Good.next {event : KeyPoolEvent} (clear : Clear env sys event)
    (runs : sys.next env event = some last) : Good env last := by
  cases event with
  | getReservedKey id => exact good.getReservedKey injective clear runs
  | keepKey id => exact some.inj runs ▸ good.keepKey id
  | returnKey id => exact some.inj runs ▸ good.returnKey id
  | getKeyFromPool => exact good.getKeyFromPool injective clear runs
  | getOldestKeyPoolTime => exact good.getOldestKeyPoolTime injective clear runs
  | topUpKeyPool kpSize =>
    exact some.inj runs ▸ ⟨good.stocked.topUpKeyPool injective kpSize, good.apart.topUpKeyPool clear⟩
  | newKeyPool => exact some.inj runs ▸ ⟨good.stocked.newKeyPool injective, good.apart.newKeyPool clear⟩
  | lock => exact some.inj runs ▸ ⟨{ good.stocked with }, { good.apart with }⟩
  | unlock => exact some.inj runs ▸ ⟨{ good.stocked with }, { good.apart with }⟩
  | setTime time => exact some.inj runs ▸ ⟨{ good.stocked with }, { good.apart with }⟩

theorem Good.next_isSome (event : KeyPoolEvent) : (sys.next env event).isSome = true := by
  have reserved := good.stocked.reserve_isSome injective
  cases event with
  | getReservedKey id =>
    rw [System.next, System.getReservedKey]
    cases sys.reservations id with
    | some held => rfl
    | none => exact isSome_map.trans reserved
  | getKeyFromPool => exact isSome_map.trans (isSome_map.trans reserved)
  | getOldestKeyPoolTime => exact isSome_map.trans (isSome_map.trans reserved)
  | _ => rfl

end

end Events

/-- No key is held by two reservations, or held and kept, or kept twice; each index in the pool has a record of a key of the wallet,
and no event throws. -/
structure Sound (env : Env PubKey KeyID) (sys : System PubKey KeyID) : Prop where
  heldOnce : ∀ id other held held', sys.reservations id = some held → sys.reservations other = some held' →
    held.vchPubKey = held'.vchPubKey → id = other
  unkept : ∀ id held, sys.reservations id = some held → held.vchPubKey ∉ sys.kept
  keptOnce : sys.kept.Nodup
  recorded : ∀ nIndex ∈ sys.wallet.setKeyPool, ∃ entry, sys.wallet.pool.find nIndex = some entry ∧
    env.getID entry.vchPubKey ∈ sys.wallet.mapKeys
  serves : ∀ event, (sys.next env event).isSome = true

theorem Good.sound {sys : System PubKey KeyID} (good : Good env sys) (injective : Injective env.makeNewKey) : Sound env sys where
  heldOnce id other held held' holds holds' same := by
    obtain ⟨entry, found, key⟩ := good.apart.recorded id held holds
    obtain ⟨entry', found', key'⟩ := good.apart.recorded other held' holds'
    exact good.apart.unshared id other held held' holds holds'
      (good.stocked.distinct _ _ entry entry' found found' (key.trans (same.trans key'.symm)))
  unkept id held holds := by
    obtain ⟨entry, found, key⟩ := good.apart.recorded id held holds
    exact key ▸ good.stocked.unkept held.nIndex entry found
  keptOnce := good.stocked.keptOnce
  recorded nIndex member := by
    obtain ⟨entry, found⟩ := good.stocked.recorded nIndex member
    exact ⟨entry, found, good.stocked.known nIndex entry found⟩
  serves := good.next_isSome injective

/-- The wallet as it is loaded: no reservation holds a key and none has been kept. -/
def loaded (wallet : CWallet PubKey KeyID) : System PubKey KeyID := ⟨wallet, fun _ => none, []⟩

/-- In a run in which no key is written where a reservation holds one, no key is handed out twice and none of the records is
missing. -/
theorem handed_out_once (injective : Injective env.makeNewKey) {wallet : CWallet PubKey KeyID} (stocked : Stocked env wallet [])
    {events : List KeyPoolEvent} {sys : System PubKey KeyID}
    (run : Steps (fun sys event next => Clear env sys event ∧ sys.next env event = some next) (loaded wallet) events sys) :
    Sound env sys := by
  have start : Good env (loaded wallet) :=
    ⟨stocked, nofun, nofun,
      nofun, nofun⟩
  exact (run.invariant (Good env) (fun _ _ _ good step => good.next injective step.1 step.2) start).sound injective

def noSpareKeys : Env Nat Nat := ⟨0, id, id⟩

def emptyWallet : CWallet Nat Nat := ⟨∅, .empty, ∅, 0, false, 0⟩

theorem emptyWallet_stocked (env : Env Nat Nat) : Stocked env emptyWallet [] where
  recorded _ none := absurd none (notMem_empty _)
  positive _ none := absurd none (notMem_empty _)
  made _ _ none := absurd none.symm (some_ne_none _)
  known _ _ none := absurd none.symm (some_ne_none _)
  distinct _ _ _ _ none := absurd none.symm (some_ne_none _)
  keptMade _ none := absurd none not_mem_nil
  unkept _ _ none := absurd none.symm (some_ne_none _)
  keptOnce := .nil

/-- Two reservations take out the only key, each one made for it. The first is kept, the second comes back. -/
def keptAndReturned : List KeyPoolEvent := [.getReservedKey 0, .getReservedKey 1, .keepKey 0, .returnKey 1]

theorem keptAndReturned_runs : ∃ sys, Steps (fun sys event next => sys.next noSpareKeys event = some next) (loaded emptyWallet)
    keptAndReturned sys ∧ 1 ∈ sys.wallet.setKeyPool ∧ sys.wallet.pool.find 1 = none := by
  refine ⟨_, .more (by with_unfolding_all rfl) (.more (by with_unfolding_all rfl)
    (.more (by with_unfolding_all rfl) (.more (by with_unfolding_all rfl) (.done _)))), ?_, ?_⟩
  · decide +kernel
  · with_unfolding_all rfl

def spareKeys : Env Nat Nat := ⟨2, id, id⟩

/-- With keys to spare the second reservation takes another key, and the pool is filled again past the first. -/
theorem handed_out_once_returned : ∃ sys, Steps (fun sys event next => Clear spareKeys sys event ∧
    sys.next spareKeys event = some next) (loaded emptyWallet) keptAndReturned sys ∧ Sound spareKeys sys := by
  have run : ∃ sys, Steps (fun sys event next => Clear spareKeys sys event ∧ sys.next spareKeys event = some next)
      (loaded emptyWallet) keptAndReturned sys := by
    refine ⟨_, .more ⟨nofun, by with_unfolding_all rfl⟩ (.more ⟨fun id held holds within => ?_, by with_unfolding_all rfl⟩
      (.more ⟨fun _ _ _ => Set.notMem_empty _, by with_unfolding_all rfl⟩
      (.more ⟨fun _ _ _ => Set.notMem_empty _, by with_unfolding_all rfl⟩ (.done _))))⟩
    obtain ⟨-, above, -⟩ : held.nIndex ∈ topUpRange spareKeys 0 _ := within
    cases id with
    | zero =>
      cases holds
      revert above
      decide +kernel
    | succ id => cases holds
  obtain ⟨sys, run⟩ := run
  exact ⟨sys, run, handed_out_once (fun _ _ same => same) (emptyWallet_stocked _) run⟩

/-- The record of the key that came back is gone. -/
theorem returned_without_record : ¬ ∀ (env : Env Nat Nat) (wallet : CWallet Nat Nat) (events : List KeyPoolEvent)
    (sys : System Nat Nat), Injective env.makeNewKey → Stocked env wallet [] →
    Steps (fun sys event next => sys.next env event = some next) (loaded wallet) events sys → Sound env sys := by
  intro every
  obtain ⟨sys, run, member, missing⟩ := keptAndReturned_runs
  have sound := every noSpareKeys emptyWallet keptAndReturned sys (fun _ _ same => same) (emptyWallet_stocked _) run
  obtain ⟨entry, found, -⟩ := sound.recorded 1 member
  cases missing.symm.trans found

end Longcoin.KeyPool

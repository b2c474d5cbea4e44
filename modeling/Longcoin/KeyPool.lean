import Longcoin.Library.FiniteMap
import Mathlib.Order.Interval.Finset.Nat
import Mathlib.Data.Int.Interval

/-! The pool of keys that a wallet has ready (`wallet/wallet.cpp`): `NewKeyPool`, `TopUpKeyPool`,
`ReserveKeyFromKeyPool` and the reservations. Writing to the database succeeds. -/

namespace Longcoin.KeyPool
open Library Finset

variable {PubKey KeyID : Type} [DecidableEq KeyID]

structure CKeyPool (PubKey : Type) where
  nTime : Int
  vchPubKey : PubKey

/-- The option `-keypool`, the keys that `MakeNewKey` makes one after another, and their hashes. -/
structure Env (PubKey KeyID : Type) where
  keypoolArg : Int
  makeNewKey : Nat → PubKey
  getID : PubKey → KeyID

/-- The indices in the pool, the `pool` records on disk, the keys of the wallet, of which `nMade` have been made, and the
clock. -/
structure CWallet (PubKey KeyID : Type) where
  setKeyPool : Finset Int
  pool : FiniteMap Int (CKeyPool PubKey)
  mapKeys : Finset KeyID
  nMade : Nat
  fLocked : Bool
  getTime : Int

def generateNewKey (env : Env PubKey KeyID) (wallet : CWallet PubKey KeyID) : CWallet PubKey KeyID × PubKey :=
  ({ wallet with
     mapKeys := insert (env.getID (env.makeNewKey wallet.nMade)) wallet.mapKeys
     nMade := wallet.nMade + 1 }, env.makeNewKey wallet.nMade)

def writeNewKey (env : Env PubKey KeyID) (wallet : CWallet PubKey KeyID) (nIndex : Int) : CWallet PubKey KeyID :=
  let made := generateNewKey env wallet
  { made.1 with
    pool := made.1.pool.put nIndex ⟨made.1.getTime, made.2⟩
    setKeyPool := insert nIndex made.1.setKeyPool }

def nEnd (wallet : CWallet PubKey KeyID) : Int :=
  if nonempty : wallet.setKeyPool.Nonempty then wallet.setKeyPool.max' nonempty + 1 else 1

omit [DecidableEq KeyID] in
theorem lt_nEnd {wallet : CWallet PubKey KeyID} {nIndex : Int} (member : nIndex ∈ wallet.setKeyPool) : nIndex < nEnd wallet := by
  rw [nEnd, dif_pos ⟨nIndex, member⟩]
  exact Int.lt_add_one_of_le (le_max' _ _ member)

theorem nEnd_writeNewKey (env : Env PubKey KeyID) (wallet : CWallet PubKey KeyID) :
    nEnd (writeNewKey env wallet (nEnd wallet)) = nEnd wallet + 1 := by
  have nonempty : (writeNewKey env wallet (nEnd wallet)).setKeyPool.Nonempty := ⟨_, mem_insert_self _ _⟩
  rw [nEnd, dif_pos nonempty]
  congr 1
  refine le_antisymm (max'_le _ _ _ fun nIndex member => ?_) (le_max' _ _ (mem_insert_self _ _))
  rcases mem_insert.mp member with rfl | before
  · exact le_rfl
  · exact (lt_nEnd before).le

theorem card_writeNewKey (env : Env PubKey KeyID) (wallet : CWallet PubKey KeyID) :
    (writeNewKey env wallet (nEnd wallet)).setKeyPool.card = wallet.setKeyPool.card + 1 :=
  card_insert_of_notMem fun member => lt_irrefl _ (lt_nEnd member)

def topUpLoop (env : Env PubKey KeyID) (size : Nat) (wallet : CWallet PubKey KeyID) : CWallet PubKey KeyID :=
  if wallet.setKeyPool.card < size then topUpLoop env size (writeNewKey env wallet (nEnd wallet)) else wallet
termination_by size - wallet.setKeyPool.card
decreasing_by
  rw [card_writeNewKey]
  omega

/-- `nTargetSize + 1` as an `unsigned int`. -/
def topUpSize (env : Env PubKey KeyID) (kpSize : Nat) : Nat :=
  ((if 0 < kpSize then kpSize else (max env.keypoolArg 0).toNat) + 1) % 2 ^ 32

def topUpKeyPool (env : Env PubKey KeyID) (kpSize : Nat) (wallet : CWallet PubKey KeyID) : CWallet PubKey KeyID × Bool :=
  if wallet.fLocked then (wallet, false) else (topUpLoop env (topUpSize env kpSize) wallet, true)

def clearKeyPool (wallet : CWallet PubKey KeyID) : CWallet PubKey KeyID :=
  { wallet with pool := wallet.pool.eraseAll wallet.setKeyPool, setKeyPool := ∅ }

def nKeys (env : Env PubKey KeyID) : Nat := (max env.keypoolArg 0).toNat

def newKeyPool (env : Env PubKey KeyID) (wallet : CWallet PubKey KeyID) : CWallet PubKey KeyID × Bool :=
  if wallet.fLocked then (clearKeyPool wallet, false)
  else ((List.range (nKeys env)).foldl (fun wallet (i : Nat) => writeNewKey env wallet (i + 1)) (clearKeyPool wallet), true)

/-- What `ReserveKeyFromKeyPool` finds: the wallet after it and, unless `nIndex` is -1, the index and the key. -/
abbrev Reserved (PubKey KeyID : Type) := CWallet PubKey KeyID × Option (Int × CKeyPool PubKey)

/-- The oldest key is taken out. Nothing where an exception is thrown. -/
def takeOldest (env : Env PubKey KeyID) (wallet : CWallet PubKey KeyID) : Option (Reserved PubKey KeyID) :=
  if nonempty : wallet.setKeyPool.Nonempty then
    let nIndex := wallet.setKeyPool.min' nonempty
    (wallet.pool.find nIndex).bind fun keypool =>
      if env.getID keypool.vchPubKey ∈ wallet.mapKeys then
        some ({ wallet with setKeyPool := wallet.setKeyPool.erase nIndex }, some (nIndex, keypool))
      else none
  else some (wallet, none)

def reserveKeyFromKeyPool (env : Env PubKey KeyID) (wallet : CWallet PubKey KeyID) : Option (Reserved PubKey KeyID) :=
  takeOldest env (if wallet.fLocked then wallet else (topUpKeyPool env 0 wallet).1)

def keepKey (wallet : CWallet PubKey KeyID) (nIndex : Int) : CWallet PubKey KeyID :=
  { wallet with pool := wallet.pool.erase nIndex }

def returnKey (wallet : CWallet PubKey KeyID) (nIndex : Int) : CWallet PubKey KeyID :=
  { wallet with setKeyPool := insert nIndex wallet.setKeyPool }

def getKeyFromPool (env : Env PubKey KeyID) (wallet : CWallet PubKey KeyID) : Option (CWallet PubKey KeyID × Option PubKey) :=
  (reserveKeyFromKeyPool env wallet).map fun reserved =>
    match reserved.2 with
    | some taken => (keepKey reserved.1 taken.1, some taken.2.vchPubKey)
    | none =>
      if reserved.1.fLocked then (reserved.1, none)
      else ((generateNewKey env reserved.1).1, some (generateNewKey env reserved.1).2)

def getOldestKeyPoolTime (env : Env PubKey KeyID) (wallet : CWallet PubKey KeyID) : Option (CWallet PubKey KeyID × Int) :=
  (reserveKeyFromKeyPool env wallet).map fun reserved =>
    match reserved.2 with
    | some taken => (returnKey reserved.1 taken.1, taken.2.nTime)
    | none => (reserved.1, reserved.1.getTime)

/-- A key that a reservation holds. One whose `nIndex` is -1 holds none. -/
structure CReserveKey (PubKey : Type) where
  nIndex : Int
  vchPubKey : PubKey

/-- The wallet, what the reservations hold and the keys that have been kept. -/
structure System (PubKey KeyID : Type) where
  wallet : CWallet PubKey KeyID
  reservations : Nat → Option (CReserveKey PubKey)
  kept : List PubKey

inductive KeyPoolEvent where
  | getReservedKey (id : Nat)
  | keepKey (id : Nat)
  | returnKey (id : Nat)
  | getKeyFromPool
  | getOldestKeyPoolTime
  | topUpKeyPool (kpSize : Nat)
  | newKeyPool
  | lock
  | unlock
  | setTime (time : Int)

def System.getReservedKey (env : Env PubKey KeyID) (sys : System PubKey KeyID) (id : Nat) : Option (System PubKey KeyID) :=
  match sys.reservations id with
  | some _ => some sys
  | none =>
    (reserveKeyFromKeyPool env sys.wallet).map fun reserved =>
      { sys with
        wallet := reserved.1
        reservations := Function.update sys.reservations id (reserved.2.map fun taken => ⟨taken.1, taken.2.vchPubKey⟩) }

def System.keepKey (sys : System PubKey KeyID) (id : Nat) : System PubKey KeyID :=
  match sys.reservations id with
  | none => sys
  | some held =>
    { wallet := KeyPool.keepKey sys.wallet held.nIndex
      reservations := Function.update sys.reservations id none
      kept := held.vchPubKey :: sys.kept }

def System.returnKey (sys : System PubKey KeyID) (id : Nat) : System PubKey KeyID :=
  match sys.reservations id with
  | none => sys
  | some held =>
    { sys with
      wallet := KeyPool.returnKey sys.wallet held.nIndex
      reservations := Function.update sys.reservations id none }

/-- The system after an event. Nothing where an exception is thrown. -/
def System.next (env : Env PubKey KeyID) (sys : System PubKey KeyID) : KeyPoolEvent → Option (System PubKey KeyID)
  | .getReservedKey id => sys.getReservedKey env id
  | .keepKey id => some (sys.keepKey id)
  | .returnKey id => some (sys.returnKey id)
  | .getKeyFromPool =>
    (KeyPool.getKeyFromPool env sys.wallet).map fun got => { sys with wallet := got.1, kept := got.2.toList ++ sys.kept }
  | .getOldestKeyPoolTime => (KeyPool.getOldestKeyPoolTime env sys.wallet).map fun got => { sys with wallet := got.1 }
  | .topUpKeyPool kpSize => some { sys with wallet := (KeyPool.topUpKeyPool env kpSize sys.wallet).1 }
  | .newKeyPool => some { sys with wallet := (KeyPool.newKeyPool env sys.wallet).1 }
  | .lock => some { sys with wallet := { sys.wallet with fLocked := true } }
  | .unlock => some { sys with wallet := { sys.wallet with fLocked := false } }
  | .setTime time => some { sys with wallet := { sys.wallet with getTime := time } }

end Longcoin.KeyPool

import Longcoin.Primitives

/-! The address, address-unspent and spent indexes of `CBlockTreeDB` (`txdb.cpp`, `main.h`,
`spentindex.h`). A batch is applied in order, so the last entry for a key decides. -/

namespace Longcoin.BlockTreeDB
open Primitives List Function

structure CAddressIndexKey where
  type : Nat
  hashBytes : Uint160
  blockHeight : Nat
  txindex : Nat
  txhash : Uint256
  index : Nat
  spending : Bool
deriving DecidableEq, Repr

structure CAddressUnspentKey where
  type : Nat
  hashBytes : Uint160
  txhash : Uint256
  index : Nat
deriving DecidableEq, Repr

structure CAddressUnspentValue where
  satoshis : CAmount := -1
  script : CScript := []
  blockHeight : Nat := 0
deriving DecidableEq, Repr

def CAddressUnspentValue.isNull (value : CAddressUnspentValue) : Bool := value.satoshis == -1

structure CSpentIndexKey where
  txid : Uint256
  outputIndex : Nat
deriving DecidableEq, Repr

structure CBlockTreeDB where
  addressIndex : CAddressIndexKey → Option CAmount := fun _ => none
  addressUnspentIndex : CAddressUnspentKey → Option CAddressUnspentValue := fun _ => none
  spentIndex : CSpentIndexKey → Option CSpentIndexValue := fun _ => none

abbrev AddressIndex := List (CAddressIndexKey × CAmount)
abbrev AddressUnspentIndex := List (CAddressUnspentKey × CAddressUnspentValue)
abbrev SpentIndex := List (CSpentIndexKey × CSpentIndexValue)

section Batch
variable {K V : Type} [DecidableEq K]

/-- A batch of writes and, where `erases` says so, erasures. -/
def writeBatch (erases : K × V → Bool) (batch : List (K × V)) (db : K → Option V) : K → Option V :=
  batch.foldl (fun db entry => Function.update db entry.1 (if erases entry then none else some entry.2)) db

@[simp] theorem writeBatch_nil (erases : K × V → Bool) (db : K → Option V) : writeBatch erases [] db = db := rfl

theorem writeBatch_append (erases : K × V → Bool) (first second : List (K × V)) (db : K → Option V) :
    writeBatch erases (first ++ second) db = writeBatch erases second (writeBatch erases first db) := by
  simp [writeBatch]

theorem writeBatch_cons (erases : K × V → Bool) (entry : K × V) (batch : List (K × V)) (db : K → Option V) :
    writeBatch erases (entry :: batch) db =
      writeBatch erases batch (update db entry.1 (if erases entry then none else some entry.2)) := rfl

section

variable (erases : K × V → Bool) (batch : List (K × V)) (db : K → Option V)

theorem writeBatch_absent {key : K} (absent : ∀ entry ∈ batch, entry.1 ≠ key) : writeBatch erases batch db key = db key := by
  induction batch generalizing db with
  | nil => rfl
  | cons entry batch ih =>
    rw [writeBatch_cons, ih _ (forall_mem_cons.mp absent).2,
      update_of_ne (absent entry mem_cons_self).symm]

theorem writeBatch_agreed {key : K}
    {decided : Option V} (agreed : ∀ entry ∈ batch, entry.1 = key → (if erases entry then none else some entry.2) = decided)
    (mentioned : ∃ entry ∈ batch, entry.1 = key) : writeBatch erases batch db key = decided := by
  induction batch generalizing db with
  | nil => simp at mentioned
  | cons entry batch ih =>
    rw [writeBatch_cons]
    by_cases later : ∃ other ∈ batch, other.1 = key
    · exact ih _ (forall_mem_cons.mp agreed).2 later
    · have here : entry.1 = key := by
        obtain ⟨other, member, same⟩ := mentioned
        rcases mem_cons.mp member with rfl | member
        · exact same
        · exact absurd ⟨other, member, same⟩ later
      rw [writeBatch_absent _ _ _ fun other member same => later ⟨other, member, same⟩, here,
        update_self, agreed entry mem_cons_self here]

theorem writeBatch_cases (key : K) :
    (∃ entry ∈ batch, entry.1 = key ∧
        writeBatch erases batch db key = if erases entry then none else some entry.2) ∨
      (∀ entry ∈ batch, entry.1 ≠ key) ∧ writeBatch erases batch db key = db key := by
  induction batch generalizing db with
  | nil => exact .inr ⟨by simp, rfl⟩
  | cons entry batch ih =>
    rw [writeBatch_cons]
    rcases ih (update db entry.1 (if erases entry then none else some entry.2)) with
      ⟨other, member, same, decided⟩ | ⟨absent, kept⟩
    · exact .inl ⟨other, mem_cons_of_mem _ member, same, decided⟩
    · by_cases here : entry.1 = key
      · left
        refine ⟨entry, mem_cons_self, here, ?_⟩
        rw [kept, ← here, update_self]
      · right
        refine ⟨?_, by rw [kept, update_of_ne (Ne.symm here)]⟩
        intro other member
        rcases mem_cons.mp member with rfl | member
        · exact here
        · exact absent other member

end

end Batch

namespace CBlockTreeDB

def readSpentIndex (db : CBlockTreeDB) (key : CSpentIndexKey) : Option CSpentIndexValue := db.spentIndex key

def updateSpentIndex (db : CBlockTreeDB) (vect : SpentIndex) : CBlockTreeDB :=
  { db with spentIndex := writeBatch (fun entry => entry.2.isNull) vect db.spentIndex }

def updateAddressUnspentIndex (db : CBlockTreeDB) (vect : AddressUnspentIndex) : CBlockTreeDB :=
  { db with addressUnspentIndex := writeBatch (fun entry => entry.2.isNull) vect db.addressUnspentIndex }

def writeAddressIndex (db : CBlockTreeDB) (vect : AddressIndex) : CBlockTreeDB :=
  { db with addressIndex := writeBatch (fun _ => false) vect db.addressIndex }

def eraseAddressIndex (db : CBlockTreeDB) (vect : AddressIndex) : CBlockTreeDB :=
  { db with addressIndex := writeBatch (fun _ => true) vect db.addressIndex }

end CBlockTreeDB

end Longcoin.BlockTreeDB

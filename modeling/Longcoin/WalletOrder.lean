import Longcoin.Library.SortedRows
import Longcoin.VectorCodec
import Mathlib.Data.List.Lex

/-! The order of a wallet's history (`wallet/walletdb.cpp`): `ListAccountCreditDebit` and `ReorderTransactions`. -/

namespace Longcoin.WalletOrder
open Primitives Serialize Library.Bytes

structure CWalletTx where
  hash : Uint256
  nTimeReceived : Int
  nOrderPos : Int
deriving DecidableEq

structure CAccountingEntry where
  strAccount : List UInt8
  nEntryNo : Nat
  nTime : Int
  nOrderPos : Int
deriving DecidableEq

def acentryKey (strAccount : List UInt8) (nEntryNo : Nat) : List Nat :=
  (writeByteVector strAccount ++ littleBytes 8 nEntryNo).map UInt8.toNat

def CAccountingEntry.key (acentry : CAccountingEntry) : List Nat := acentryKey acentry.strAccount acentry.nEntryNo

/-- A transaction of the wallet or an accounting entry. -/
inductive TxPair where
  | wtx (pwtx : CWalletTx)
  | acentry (pacentry : CAccountingEntry)
deriving DecidableEq

def TxPair.time : TxPair → Int
  | .wtx pwtx => pwtx.nTimeReceived
  | .acentry pacentry => pacentry.nTime

def TxPair.nOrderPos : TxPair → Int
  | .wtx pwtx => pwtx.nOrderPos
  | .acentry pacentry => pacentry.nOrderPos

def TxPair.setOrderPos (nOrderPos : Int) : TxPair → TxPair
  | .wtx pwtx => .wtx { pwtx with nOrderPos }
  | .acentry pacentry => .acentry { pacentry with nOrderPos }

def TxPair.key : TxPair → Uint256 ⊕ List Nat
  | .wtx pwtx => .inl pwtx.hash
  | .acentry pacentry => .inr pacentry.key

@[simp] theorem TxPair.nOrderPos_setOrderPos (nOrderPos : Int) (item : TxPair) : (item.setOrderPos nOrderPos).nOrderPos = nOrderPos := by
  cases item <;> rfl

@[simp] theorem TxPair.key_setOrderPos (nOrderPos : Int) (item : TxPair) : (item.setOrderPos nOrderPos).key = item.key := by
  cases item <;> rfl

/-- The transactions of `mapWallet` and the records of the accounting entries in the order of their keys. -/
structure History where
  mapWallet : List CWalletTx
  acentries : List CAccountingEntry
  distinct : (mapWallet.map CWalletTx.hash).Nodup
  sorted : (acentries.map CAccountingEntry.key).Pairwise (· < ·)

def History.items (history : History) : List TxPair := history.mapWallet.map .wtx ++ history.acentries.map .acentry

/-- `strAccount == "*"` means all accounts. -/
def ALL_ACCOUNTS : List UInt8 := [42]

def listAccountCreditDebit (history : History) (strAccount : List UInt8) : List CAccountingEntry :=
  let fAllAccounts := decide (strAccount = ALL_ACCOUNTS)
  let start := acentryKey (if fAllAccounts then [] else strAccount) 0
  (history.acentries.dropWhile fun acentry => decide (acentry.key < start)).takeWhile fun acentry =>
    fAllAccounts || decide (acentry.strAccount = strAccount)

/-- The position of a transaction, in memory and on disk, or of an entry, which is on disk only. -/
def History.write (history : History) (key : Uint256 ⊕ List Nat) (nOrderPos : Int) : History where
  mapWallet := history.mapWallet.map fun wtx => if .inl wtx.hash = key then { wtx with nOrderPos } else wtx
  acentries := history.acentries.map fun acentry => if .inr acentry.key = key then { acentry with nOrderPos } else acentry
  distinct := by
    have same : (CWalletTx.hash ∘ fun wtx => if .inl wtx.hash = key then { wtx with nOrderPos } else wtx) = CWalletTx.hash := by
      funext wtx
      rw [Function.comp_apply]
      split <;> rfl
    rw [List.map_map, same]
    exact history.distinct
  sorted := by
    have same : (CAccountingEntry.key ∘ fun acentry => if .inr acentry.key = key then { acentry with nOrderPos } else acentry) =
        CAccountingEntry.key := by
      funext acentry
      rw [Function.comp_apply]
      split <;> rfl
    rw [List.map_map, same]
    exact history.sorted

/-- The items by time. Of the same time, those inserted first come first. -/
def txByTime (history : History) : List TxPair :=
  (history.mapWallet.map TxPair.wtx ++ (listAccountCreditDebit history []).map TxPair.acentry).insertionSort fun item later =>
    item.time ≤ later.time

structure Reordering where
  history : History
  nOrderPosNext : Int := 0
  nOrderPosOffsets : List Int := []

/-- `WriteTx` or `WriteAccountingEntry`. Nothing where it fails. -/
def Reordering.writeBack (writes : TxPair → Bool) (state : Reordering) (item : TxPair) : Option Reordering :=
  if writes item then some { state with history := state.history.write item.key item.nOrderPos } else none

def reorderItem (writes : TxPair → Bool) (state : Reordering) (item : TxPair) : Option Reordering :=
  if item.nOrderPos = -1 then
    { state with
      nOrderPosNext := state.nOrderPosNext + 1
      nOrderPosOffsets := state.nOrderPosOffsets ++ [state.nOrderPosNext] : Reordering }.writeBack writes
        (item.setOrderPos state.nOrderPosNext)
  else
    let nOrderPosOff := state.nOrderPosOffsets.countP fun nOffsetStart => decide (nOffsetStart ≤ item.nOrderPos)
    let nOrderPos := item.nOrderPos + nOrderPosOff
    let moved : Reordering := { state with nOrderPosNext := max state.nOrderPosNext (nOrderPos + 1) }
    if nOrderPosOff = 0 then some moved else moved.writeBack writes (item.setOrderPos nOrderPos)

/-- `ReorderTransactions`, the wallet's transactions and the database apart. Nothing where a record is not written. -/
def reorderTransactions (writes : TxPair → Bool) (history : History) : Option Reordering :=
  (txByTime history).foldlM (reorderItem writes) { history }

end Longcoin.WalletOrder

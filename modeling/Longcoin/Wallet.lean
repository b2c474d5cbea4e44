import Longcoin.ConnectBlock

/-! The wallet's transactions and the amounts it computes from them (`wallet/wallet.cpp`), from scratch:
without the amounts that a `CWalletTx` caches. An amount is nothing where the code throws. -/

namespace Longcoin.Wallet
open Primitives Validation ConnectBlock

/-- `isminetype`; solvable and unsolvable watch-only scripts count alike. -/
inductive IsMineType where
  | no
  | watchOnly
  | spendable
deriving DecidableEq, Repr

/-- `isminefilter`. -/
structure IsMineFilter where
  spendable : Bool
  watchOnly : Bool

def ISMINE_SPENDABLE : IsMineFilter := ⟨true, false⟩
def ISMINE_WATCH_ONLY : IsMineFilter := ⟨false, true⟩
def ISMINE_ALL : IsMineFilter := ⟨true, true⟩

/-- `mine & filter`. -/
def IsMineType.passes (filter : IsMineFilter) : IsMineType → Bool
  | .no => false
  | .watchOnly => filter.watchOnly
  | .spendable => filter.spendable

/-- What the key store, `ExtractDestination` and the address book say of scripts. The destination that
is nothing stands for `CNoDestination`. -/
structure KeyStore (Dest : Type) where
  isMine : CScript → IsMineType
  destination : CScript → Option Dest
  mapAddressBook : List (Option Dest × String)

/-- A `CWalletTx`: the transaction, the block it is in (or, with `nIndex = -1`, in conflict with) and the
account it was sent from. -/
structure CWalletTx where
  tx : CTransaction
  hashBlock : Uint256
  nIndex : Int
  strFromAccount : String

/-- What of the node the wallet reads: the active chain, the clock, the pool and an option. -/
structure NodeView where
  nHeight : Int
  heightOf : Uint256 → Option Int
  adjustedTime : Int
  inMempool : Uint256 → Bool
  bSpendZeroConfChange : Bool

variable {Dest : Type} [DecidableEq Dest]

def ABANDON_HASH : Uint256 := 1

def CWalletTx.hashUnset (wtx : CWalletTx) : Bool := wtx.hashBlock == 0 || wtx.hashBlock == ABANDON_HASH

def CWalletTx.isAbandoned (wtx : CWalletTx) : Bool := wtx.hashBlock == ABANDON_HASH

def getDepthInMainChain (node : NodeView) (wtx : CWalletTx) : Int :=
  if wtx.hashUnset then 0
  else (node.heightOf wtx.hashBlock).elim 0 fun nHeight =>
    (if wtx.nIndex = -1 then -1 else 1) * (node.nHeight - nHeight + 1)

def getBlocksToMaturity (node : NodeView) (wtx : CWalletTx) : Int :=
  if wtx.tx.isCoinBase then max 0 (COINBASE_MATURITY + 1 - getDepthInMainChain node wtx) else 0

def LOCKTIME_THRESHOLD : Nat := 500000000

def isFinalTx (tx : CTransaction) (nBlockHeight nBlockTime : Int) : Bool :=
  tx.nLockTime == 0 ||
    decide ((tx.nLockTime : Int) < if tx.nLockTime < LOCKTIME_THRESHOLD then nBlockHeight else nBlockTime) ||
    tx.vin.all fun txin => txin.nSequence == 4294967295

/-- Against the next block and the adjusted time of this node. -/
def checkFinalTx (node : NodeView) (tx : CTransaction) : Bool := isFinalTx tx (node.nHeight + 1) node.adjustedTime

/-- A running total that throws when it leaves the money range. -/
def sumInRange (amounts : List CAmount) : Option CAmount :=
  amounts.foldlM (fun total amount => if moneyRange (total + amount) then some (total + amount) else none) 0

def findTx (wallet : List CWalletTx) (hash : Uint256) : Option CWalletTx := wallet.find? fun wtx => wtx.tx.hash == hash

/-- `GetDebit` of an input: the value of the wallet's output that it spends. -/
def debitOfInput (keys : KeyStore Dest) (wallet : List CWalletTx) (filter : IsMineFilter) (prevout : COutPoint) : CAmount :=
  ((findTx wallet prevout.hash).bind fun prev => prev.tx.vout[prevout.n]?).elim 0 fun txout =>
    if (keys.isMine txout.scriptPubKey).passes filter then txout.nValue else 0

/-- `CWallet::GetDebit` of a transaction. -/
def debitOfTx (keys : KeyStore Dest) (wallet : List CWalletTx) (filter : IsMineFilter) (tx : CTransaction) : Option CAmount :=
  sumInRange (tx.vin.map fun txin => debitOfInput keys wallet filter txin.prevout)

/-- `CWalletTx::GetDebit`: the parts of a filter one by one. -/
def getDebit (keys : KeyStore Dest) (wallet : List CWalletTx) (filter : IsMineFilter) (wtx : CWalletTx) : Option CAmount :=
  (if filter.spendable then debitOfTx keys wallet ISMINE_SPENDABLE wtx.tx else some 0).bind fun debit =>
    (if filter.watchOnly then debitOfTx keys wallet ISMINE_WATCH_ONLY wtx.tx else some 0).map (debit + ·)

def creditOfOutput (keys : KeyStore Dest) (filter : IsMineFilter) (txout : CTxOut) : Option CAmount :=
  if moneyRange txout.nValue then some (if (keys.isMine txout.scriptPubKey).passes filter then txout.nValue else 0)
  else none

/-- `CWallet::GetCredit` of a transaction. -/
def creditOfTx (keys : KeyStore Dest) (filter : IsMineFilter) (tx : CTransaction) : Option CAmount :=
  (tx.vout.mapM (creditOfOutput keys filter)).bind sumInRange

/-- Payments to the wallet's own scripts that are not in the address book. -/
def isChange (keys : KeyStore Dest) (txout : CTxOut) : Bool :=
  keys.isMine txout.scriptPubKey != .no &&
    (keys.destination txout.scriptPubKey).elim true fun address =>
      !keys.mapAddressBook.any fun entry => entry.1 == some address

/-- `IsSpent`: by a transaction of the wallet that is in the chain, or neither in conflict with it nor
abandoned. `mapTxSpends` holds the inputs of all but coinbase transactions. -/
def isSpent (node : NodeView) (wallet : List CWalletTx) (outpoint : COutPoint) : Bool :=
  wallet.any fun wtx => !wtx.tx.isCoinBase && wtx.tx.vin.any (fun txin => txin.prevout == outpoint) &&
    (decide (0 < getDepthInMainChain node wtx) || (getDepthInMainChain node wtx == 0 && !wtx.isAbandoned))

def availableCredit (node : NodeView) (keys : KeyStore Dest) (wallet : List CWalletTx) (filter : IsMineFilter)
    (wtx : CWalletTx) : Option CAmount :=
  ((wtx.tx.vout.zipIdx.filter fun out => !isSpent node wallet ⟨wtx.tx.hash, out.2⟩).mapM
    fun out => creditOfOutput keys filter out.1).bind sumInRange

def getAvailableCredit (node : NodeView) (keys : KeyStore Dest) (wallet : List CWalletTx) (wtx : CWalletTx) : Option CAmount :=
  if wtx.tx.isCoinBase && decide (0 < getBlocksToMaturity node wtx) then some 0
  else availableCredit node keys wallet ISMINE_SPENDABLE wtx

/-- An unconfirmed transaction is trusted when it is the wallet's own, in the pool, and all that it spends
is the wallet's. -/
def isTrusted (node : NodeView) (keys : KeyStore Dest) (wallet : List CWalletTx) (wtx : CWalletTx) : Bool :=
  checkFinalTx node wtx.tx &&
    (decide (1 ≤ getDepthInMainChain node wtx) ||
      (getDepthInMainChain node wtx == 0 && node.bSpendZeroConfChange &&
        ((getDebit keys wallet ISMINE_ALL wtx).any fun debit => decide (0 < debit)) && node.inMempool wtx.tx.hash &&
        wtx.tx.vin.all fun txin =>
          ((findTx wallet txin.prevout.hash).bind fun parent => parent.tx.vout[txin.prevout.n]?).any fun parentOut =>
            keys.isMine parentOut.scriptPubKey == .spendable))

def getBalance (node : NodeView) (keys : KeyStore Dest) (wallet : List CWalletTx) : Option CAmount :=
  ((wallet.filter (isTrusted node keys wallet)).mapM (getAvailableCredit node keys wallet)).map List.sum

structure COutputEntry (Dest : Type) where
  destination : Option Dest
  amount : CAmount
  vout : Nat

structure Amounts (Dest : Type) where
  listReceived : List (COutputEntry Dest)
  listSent : List (COutputEntry Dest)
  nFee : CAmount

def outputEntry (keys : KeyStore Dest) (out : CTxOut × Nat) : COutputEntry Dest :=
  ⟨keys.destination out.1.scriptPubKey, out.1.nValue, out.2⟩

/-- `GetAmounts`: of a transaction that the wallet paid for, every output but the change was sent. -/
def getAmounts (keys : KeyStore Dest) (wallet : List CWalletTx) (filter : IsMineFilter) (wtx : CWalletTx) :
    Option (Amounts Dest) :=
  (getDebit keys wallet filter wtx).bind fun nDebit =>
    (if 0 < nDebit then (getValueOut wtx.tx).toOption.map (nDebit - ·) else some 0).map fun nFee =>
      let listed := wtx.tx.vout.zipIdx.filter fun out => !(decide (0 < nDebit) && isChange keys out.1)
      { listReceived := (listed.filter fun out => (keys.isMine out.1.scriptPubKey).passes filter).map (outputEntry keys)
        listSent := if 0 < nDebit then listed.map (outputEntry keys) else []
        nFee := nFee }

/-- What one transaction adds to `getbalance "*"`. -/
def starTurn (node : NodeView) (keys : KeyStore Dest) (wallet : List CWalletTx) (nMinDepth : Int) (nBalance : CAmount)
    (wtx : CWalletTx) : Option CAmount :=
  if !checkFinalTx node wtx.tx || decide (0 < getBlocksToMaturity node wtx) || decide (getDepthInMainChain node wtx < 0) then
    some nBalance
  else
    (getAmounts keys wallet ISMINE_SPENDABLE wtx).map fun amounts =>
      nBalance + (if nMinDepth ≤ getDepthInMainChain node wtx then (amounts.listReceived.map COutputEntry.amount).sum else 0) -
        (amounts.listSent.map COutputEntry.amount).sum - amounts.nFee

/-- `getbalance "*" nMinDepth`. -/
def getBalanceStar (node : NodeView) (keys : KeyStore Dest) (wallet : List CWalletTx) (nMinDepth : Int) : Option CAmount :=
  wallet.foldlM (starTurn node keys wallet nMinDepth) 0

/-- `mapAccountBalances[name]`, changed. -/
def change (f : CAmount → CAmount) (name : String) : List (String × CAmount) → List (String × CAmount)
  | [] => [(name, f 0)]
  | entry :: rest => if entry.1 = name then (name, f entry.2) :: rest else entry :: change f name rest

structure CAccountingEntry where
  strAccount : String
  nCreditDebit : CAmount

def movecmd (laccentries : List CAccountingEntry) (strFrom strTo : String) (nAmount : CAmount) : List CAccountingEntry :=
  laccentries ++ [⟨strFrom, -nAmount⟩, ⟨strTo, nAmount⟩]

def accountOf (keys : KeyStore Dest) (destination : Option Dest) : String :=
  ((keys.mapAddressBook.find? fun entry => entry.1 == destination).map Prod.snd).getD ""

def accountsTurn (node : NodeView) (keys : KeyStore Dest) (wallet : List CWalletTx) (nMinDepth : Int)
    (mapAccountBalances : List (String × CAmount)) (wtx : CWalletTx) : Option (List (String × CAmount)) :=
  if decide (0 < getBlocksToMaturity node wtx) || decide (getDepthInMainChain node wtx < 0) then some mapAccountBalances
  else
    (getAmounts keys wallet ISMINE_SPENDABLE wtx).map fun amounts =>
      let charged := amounts.listSent.foldl (fun balances s => change (· - s.amount) wtx.strFromAccount balances)
        (change (· - amounts.nFee) wtx.strFromAccount mapAccountBalances)
      if nMinDepth ≤ getDepthInMainChain node wtx then
        amounts.listReceived.foldl (fun balances r => change (· + r.amount) (accountOf keys r.destination) balances) charged
      else charged

/-- `listaccounts nMinDepth`. The accounts of own addresses are there from the start; `mine` tells
whether a destination is one. -/
def listAccounts (node : NodeView) (keys : KeyStore Dest) (mine : Option Dest → Bool) (wallet : List CWalletTx)
    (laccentries : List CAccountingEntry) (nMinDepth : Int) : Option (List (String × CAmount)) :=
  let named := (keys.mapAddressBook.filter fun entry => mine entry.1).foldl
    (fun balances entry => change (fun _ => 0) entry.2 balances) []
  (wallet.foldlM (accountsTurn node keys wallet nMinDepth) named).map fun balances =>
    laccentries.foldl (fun balances entry => change (· + entry.nCreditDebit) entry.strAccount balances) balances

end Longcoin.Wallet

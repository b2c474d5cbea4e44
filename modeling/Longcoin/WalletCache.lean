import Longcoin.Library.Memo
import Longcoin.Library.Worklist
import Longcoin.Wallet

/-! The amounts that a `CWalletTx` caches, what breaks the caches (`wallet/wallet.cpp`) and what the node
tells the wallet as blocks come and go (`main.cpp`). -/

namespace Longcoin.WalletCache
open Library Primitives Validation Wallet

/-- The nine amounts of a `CWalletTx` with a cache of their own. -/
inductive Field where
  | debit
  | credit
  | immatureCredit
  | availableCredit
  | watchDebit
  | watchCredit
  | immatureWatchCredit
  | availableWatchCredit
  | change
deriving DecidableEq, Repr

/-- The wallet, what it has cached of its transactions, and what of the node it reads. The active chain is
listed from its tip. -/
structure State (Dest : Type) where
  chainActive : List Uint256
  adjustedTime : Int
  inMempool : Uint256 → Bool
  bSpendZeroConfChange : Bool
  keys : KeyStore Dest
  mapWallet : List CWalletTx
  cached : Uint256 × Field → Option CAmount

variable {Dest : Type} [DecidableEq Dest]

def State.node (s : State Dest) : NodeView where
  nHeight := s.chainActive.length - 1
  heightOf hash := (s.chainActive.idxOf? hash).map fun above => s.chainActive.length - 1 - above
  adjustedTime := s.adjustedTime
  inMempool := s.inMempool
  bSpendZeroConfChange := s.bSpendZeroConfChange

def changeOfOutput (keys : KeyStore Dest) (txout : CTxOut) : Option CAmount :=
  if moneyRange txout.nValue then some (if isChange keys txout then txout.nValue else 0) else none

/-- `CWallet::GetChange` of a transaction. -/
def changeOfTx (keys : KeyStore Dest) (tx : CTransaction) : Option CAmount :=
  (tx.vout.mapM (changeOfOutput keys)).bind sumInRange

def recompute (node : NodeView) (keys : KeyStore Dest) (wallet : List CWalletTx) (wtx : CWalletTx) :
    Field → Option CAmount
  | .debit => debitOfTx keys wallet ISMINE_SPENDABLE wtx.tx
  | .watchDebit => debitOfTx keys wallet ISMINE_WATCH_ONLY wtx.tx
  | .credit | .immatureCredit => creditOfTx keys ISMINE_SPENDABLE wtx.tx
  | .watchCredit | .immatureWatchCredit => creditOfTx keys ISMINE_WATCH_ONLY wtx.tx
  | .availableCredit => availableCredit node keys wallet ISMINE_SPENDABLE wtx
  | .availableWatchCredit => availableCredit node keys wallet ISMINE_WATCH_ONLY wtx
  | .change => changeOfTx keys wtx.tx

def isImmature (node : NodeView) (wtx : CWalletTx) : Bool :=
  wtx.tx.isCoinBase && decide (0 < getBlocksToMaturity node wtx)

/-- When the amount is asked for at all: the others are zero. -/
def consults (node : NodeView) (wtx : CWalletTx) : Field → Bool
  | .debit | .watchDebit => !wtx.tx.vin.isEmpty
  | .credit | .watchCredit | .availableCredit | .availableWatchCredit => !isImmature node wtx
  | .immatureCredit | .immatureWatchCredit => isImmature node wtx && decide (0 < getDepthInMainChain node wtx)
  | .change => true

def State.recompute (s : State Dest) (wtx : CWalletTx) (field : Field) : Option CAmount :=
  WalletCache.recompute s.node s.keys s.mapWallet wtx field

/-- An amount as `GetDebit`, `GetCredit`, `GetAvailableCredit`, `GetImmatureCredit` and `GetChange` answer
it, from the cache where they may. -/
def amount (s : State Dest) (fUseCache : Bool) (wtx : CWalletTx) (field : Field) : Option CAmount :=
  if consults s.node wtx field then
    (if fUseCache then s.cached (wtx.tx.hash, field) else none).or (s.recompute wtx field)
  else some 0

def getDebit (s : State Dest) (fUseCache : Bool) (filter : IsMineFilter) (wtx : CWalletTx) : Option CAmount :=
  (if filter.spendable then amount s fUseCache wtx .debit else some 0).bind fun debit =>
    (if filter.watchOnly then amount s fUseCache wtx .watchDebit else some 0).map (debit + ·)

def isTrusted (s : State Dest) (fUseCache : Bool) (wtx : CWalletTx) : Bool :=
  checkFinalTx s.node wtx.tx &&
    (decide (1 ≤ getDepthInMainChain s.node wtx) ||
      (getDepthInMainChain s.node wtx == 0 && s.bSpendZeroConfChange &&
        ((getDebit s fUseCache ISMINE_ALL wtx).any fun debit => decide (0 < debit)) && s.inMempool wtx.tx.hash &&
        wtx.tx.vin.all fun txin =>
          ((findTx s.mapWallet txin.prevout.hash).bind fun parent => parent.tx.vout[txin.prevout.n]?).any fun parentOut =>
            s.keys.isMine parentOut.scriptPubKey == .spendable))

/-- The sum of an amount over the wallet's transactions with a property. -/
def total (s : State Dest) (fUseCache : Bool) (field : Field) (counted : CWalletTx → Bool) : Option CAmount :=
  ((s.mapWallet.filter counted).mapM fun wtx => amount s fUseCache wtx field).map List.sum

def isPending (s : State Dest) (fUseCache : Bool) (wtx : CWalletTx) : Bool :=
  !isTrusted s fUseCache wtx && getDepthInMainChain s.node wtx == 0 && s.inMempool wtx.tx.hash

def getBalance (s : State Dest) (fUseCache : Bool) : Option CAmount :=
  total s fUseCache .availableCredit (isTrusted s fUseCache)

def getUnconfirmedBalance (s : State Dest) (fUseCache : Bool) : Option CAmount :=
  total s fUseCache .availableCredit (isPending s fUseCache)

def getImmatureBalance (s : State Dest) (fUseCache : Bool) : Option CAmount :=
  total s fUseCache .immatureCredit fun _ => true

def getWatchOnlyBalance (s : State Dest) (fUseCache : Bool) : Option CAmount :=
  total s fUseCache .availableWatchCredit (isTrusted s fUseCache)

def getUnconfirmedWatchOnlyBalance (s : State Dest) (fUseCache : Bool) : Option CAmount :=
  total s fUseCache .availableWatchCredit (isPending s fUseCache)

def getImmatureWatchOnlyBalance (s : State Dest) (fUseCache : Bool) : Option CAmount :=
  total s fUseCache .immatureWatchCredit fun _ => true

/-- An amount is asked for, and cached. One that cannot be computed is not. -/
def ask (s : State Dest) (hash : Uint256) (field : Field) : State Dest :=
  match findTx s.mapWallet hash with
  | none => s
  | some wtx =>
    if consults s.node wtx field then
      { s with cached := fun key =>
          if key = (hash, field) then (s.cached (hash, field)).or (s.recompute wtx field) else s.cached key }
    else s

/-- `CWalletTx::MarkDirty`: all of its flags but `fImmatureCreditCached`. -/
def breaks (hash : Uint256) (key : Uint256 × Field) : Bool := key.1 == hash && key.2 != .immatureCredit

def markDirty (s : State Dest) (hash : Uint256) : State Dest :=
  { s with cached := fun key => if breaks hash key then none else s.cached key }

/-- The transactions whose outputs are spent, where the wallet has them. -/
def markSpent (s : State Dest) (vin : List CTxIn) : State Dest :=
  vin.foldl (fun s txin => markDirty s txin.prevout.hash) s

def update (s : State Dest) (hash : Uint256) (f : CWalletTx → CWalletTx) : State Dest :=
  { s with mapWallet := s.mapWallet.map fun wtx => if wtx.tx.hash = hash then f wtx else wtx }

/-- The wallet transactions that `mapTxSpends` has for the outputs of a transaction. -/
def spendersOf (wallet : List CWalletTx) (hash : Uint256) : List Uint256 :=
  (wallet.filter fun wtx => !wtx.tx.isCoinBase && wtx.tx.vin.any fun txin => txin.prevout.hash == hash).map (·.tx.hash)

/-- `mapTxSpends.equal_range`. -/
def spendersOfOutpoint (wallet : List CWalletTx) (outpoint : COutPoint) : List Uint256 :=
  (wallet.filter fun wtx => !wtx.tx.isCoinBase && wtx.tx.vin.any fun txin => txin.prevout == outpoint).map (·.tx.hash)

/-- What `AddToWallet` takes from a transaction that it already has. -/
def merge (wtxIn wtx : CWalletTx) : CWalletTx :=
  let hashBlock := if !wtxIn.hashUnset && wtxIn.hashBlock != wtx.hashBlock then wtxIn.hashBlock else wtx.hashBlock
  { wtx with
    hashBlock := if wtxIn.hashBlock == 0 && hashBlock == ABANDON_HASH then wtxIn.hashBlock else hashBlock
    nIndex := if wtxIn.nIndex != -1 then wtxIn.nIndex else wtx.nIndex }

def addToWallet (s : State Dest) (wtxIn : CWalletTx) : State Dest :=
  if (findTx s.mapWallet wtxIn.tx.hash).isSome then
    markDirty (update s wtxIn.tx.hash (merge wtxIn)) wtxIn.tx.hash
  else
    { s with
      mapWallet := s.mapWallet ++ [wtxIn]
      cached := fun key => if key.1 == wtxIn.tx.hash then none else s.cached key }

def conflictTurn (hashBlock : Uint256) (conflictconfirms : Int) (s : State Dest) (now : Uint256) :
    State Dest × List Uint256 :=
  match findTx s.mapWallet now with
  | none => (s, [])
  | some wtx =>
    if conflictconfirms < getDepthInMainChain s.node wtx then
      (markSpent (markDirty (update s now fun wtx => { wtx with nIndex := -1, hashBlock := hashBlock }) now) wtx.tx.vin,
        spendersOf s.mapWallet now)
    else (s, [])

/-- `MarkConflicted`. The order in which the set `todo` is worked off makes no difference. -/
def markConflicted (s : State Dest) (hashBlock hashTx : Uint256) : State Dest :=
  let conflictconfirms := (s.node.heightOf hashBlock).elim 0 fun nHeight => -(s.node.nHeight - nHeight + 1)
  if 0 ≤ conflictconfirms then s
  else Worklist.run (conflictTurn hashBlock conflictconfirms) s.mapWallet.length [hashTx] [] s

/-- One turn of the loop of `AbandonTransaction`. The search for spenders starts at the outputs of the first
transaction, so it ends at once for any other. -/
def abandonTurn (hashTx : Uint256) (s : State Dest) (now : Uint256) : State Dest × List Uint256 :=
  match findTx s.mapWallet now with
  | none => (s, [])
  | some wtx =>
    if getDepthInMainChain s.node wtx = 0 && !wtx.isAbandoned then
      (markSpent (markDirty (update s now fun wtx => { wtx with nIndex := -1, hashBlock := ABANDON_HASH }) now) wtx.tx.vin,
        if now = hashTx then spendersOf s.mapWallet now else [])
    else (s, [])

def abandonTransaction (s : State Dest) (hashTx : Uint256) : State Dest :=
  match findTx s.mapWallet hashTx with
  | none => s
  | some origtx =>
    if decide (0 < getDepthInMainChain s.node origtx) || s.inMempool hashTx then s
    else Worklist.run (abandonTurn hashTx) s.mapWallet.length [hashTx] [] s

/-- Whether `AddToWalletIfInvolvingMe` adds or updates it: the wallet has it, or it pays the wallet, or it
spends from it. -/
def involvesMe (s : State Dest) (tx : CTransaction) : Bool :=
  (findTx s.mapWallet tx.hash).isSome || tx.vout.any (fun txout => s.keys.isMine txout.scriptPubKey != .no) ||
    (debitOfTx s.keys s.mapWallet ISMINE_ALL tx).any fun debit => decide (0 < debit)

/-- `SetMerkleBranch`. -/
def setMerkleBranch (tx : CTransaction) : Option CBlock → CWalletTx
  | none => { tx := tx, hashBlock := 0, nIndex := -1, strFromAccount := "" }
  | some block =>
    { tx := tx, hashBlock := block.hash, nIndex := (block.vtx.findIdx? (· == tx)).elim (-1) (↑), strFromAccount := "" }

/-- What a transaction in a block rules out: the wallet's other spenders of its inputs. -/
def rivals (wallet : List CWalletTx) (tx : CTransaction) : List Uint256 :=
  tx.vin.flatMap fun txin => (spendersOfOutpoint wallet txin.prevout).filter (· != tx.hash)

def markRivals (s : State Dest) (tx : CTransaction) : Option CBlock → State Dest
  | none => s
  | some block => (rivals s.mapWallet tx).foldl (fun s hash => markConflicted s block.hash hash) s

def syncTransaction (s : State Dest) (tx : CTransaction) (pblock : Option CBlock) : State Dest :=
  if involvesMe (markRivals s tx pblock) tx then
    markSpent (addToWallet (markRivals s tx pblock) (setMerkleBranch tx pblock)) tx.vin
  else markRivals s tx pblock

def deliver (s : State Dest) (deliveries : List (CTransaction × Option CBlock)) : State Dest :=
  deliveries.foldl (fun s delivery => syncTransaction s delivery.1 delivery.2) s

def setTip (s : State Dest) (chainActive : List Uint256) : State Dest := { s with chainActive := chainActive }

/-- What `ConnectTip` tells the wallet after `UpdateTip`. -/
def connectDeliveries (block : CBlock) (txConflicted : List CTransaction) : List (CTransaction × Option CBlock) :=
  (txConflicted.map fun tx => (tx, none)) ++ block.vtx.map fun tx => (tx, some block)

/-- What `DisconnectTip` tells the wallet after `UpdateTip`. -/
def disconnectDeliveries (block : CBlock) : List (CTransaction × Option CBlock) :=
  block.vtx.map fun tx => (tx, none)

/-- The part of `CommitTransaction` before the transaction goes to the pool. -/
def commitTransaction (s : State Dest) (tx : CTransaction) (strFromAccount : String) : State Dest :=
  markSpent (addToWallet s { tx := tx, hashBlock := 0, nIndex := -1, strFromAccount := strFromAccount }) tx.vin

/-- New keys or scripts, followed by `CWallet::MarkDirty`. -/
def importKeys (s : State Dest) (keys : KeyStore Dest) : State Dest :=
  { s with
    keys := keys
    cached := fun key => if key.2 != .immatureCredit then none else s.cached key }

end Longcoin.WalletCache

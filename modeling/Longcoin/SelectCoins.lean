import Longcoin.CoinOutcome
import Longcoin.WalletCacheInvariant

/-! The coins that the wallet can spend (`AvailableCoins`) and those that it takes for an amount (`SelectCoins`,
`wallet/wallet.cpp`). -/

namespace Longcoin.SelectCoins
open Primitives Wallet CoinSelection COutput List Option
open WalletCache (findTx_some)

variable {Dest : Type}

/-- What a wallet and its node know. The map has one transaction for each hash, and `CheckTransaction` has let them all pass. -/
structure WalletState (Dest : Type) where
  node : NodeView
  keys : KeyStore Dest
  mapWallet : List CWalletTx
  setLockedCoins : Finset COutPoint
  solvable : CScript → Bool
  keyed : (mapWallet.map fun wtx => wtx.tx.hash).Nodup
  money : ∀ wtx ∈ mapWallet, ∀ txout ∈ wtx.tx.vout, moneyRange txout.nValue = true

/-- `destChange` is nothing for `CNoDestination`, and else the script that pays to it. The set is listed in some order. -/
structure CCoinControl where
  destChange : Option CScript := none
  fAllowOtherInputs : Bool := false
  fAllowWatchOnly : Bool := false
  nMinimumTotalFee : CAmount := 1
  setSelected : List COutPoint := []
  distinct : setSelected.Nodup := by exact List.nodup_nil

def CCoinControl.hasSelected (coinControl : CCoinControl) : Bool := !coinControl.setSelected.isEmpty

/-- What makes an output of a wallet transaction available, once the transaction is. -/
def outputAvailable (w : WalletState Dest) (coinControl : Option CCoinControl) (fIncludeZeroValue : Bool) (outpoint : COutPoint)
    (txout : CTxOut) : Bool :=
  !isSpent w.node w.mapWallet outpoint && w.keys.isMine txout.scriptPubKey != .no && !decide (outpoint ∈ w.setLockedCoins) &&
    (decide (0 < txout.nValue) || fIncludeZeroValue) &&
    coinControl.all fun control => !control.hasSelected || control.fAllowOtherInputs || control.setSelected.contains outpoint

def outputSpendable (w : WalletState Dest) (coinControl : Option CCoinControl) (txout : CTxOut) : Bool :=
  w.keys.isMine txout.scriptPubKey == .spendable ||
    coinControl.any fun control =>
      control.fAllowWatchOnly && w.keys.isMine txout.scriptPubKey == .watchOnly && w.solvable txout.scriptPubKey

def txAvailable (w : WalletState Dest) (fOnlyConfirmed : Bool) (pcoin : CWalletTx) : Bool :=
  checkFinalTx w.node pcoin.tx && (!fOnlyConfirmed || isTrusted w.node w.keys w.mapWallet pcoin) &&
    !(pcoin.tx.isCoinBase && decide (0 < getBlocksToMaturity w.node pcoin)) &&
    !decide (getDepthInMainChain w.node pcoin < 0) &&
    !(getDepthInMainChain w.node pcoin == 0 && !w.node.inMempool pcoin.tx.hash)

def outputsOf (w : WalletState Dest) (coinControl : Option CCoinControl) (fIncludeZeroValue : Bool) (pcoin : CWalletTx) :
    List COutput :=
  ((List.finRange pcoin.tx.vout.length).filter fun i =>
    outputAvailable w coinControl fIncludeZeroValue ⟨pcoin.tx.hash, i.val⟩ (pcoin.tx.vout.get i)).map fun i =>
      { tx := pcoin, i := i.val, nDepth := getDepthInMainChain w.node pcoin
        fSpendable := outputSpendable w coinControl (pcoin.tx.vout.get i), inside := i.isLt }

def availableCoins (w : WalletState Dest) (fOnlyConfirmed : Bool) (coinControl : Option CCoinControl) (fIncludeZeroValue : Bool) :
    List COutput :=
  (w.mapWallet.filter (txAvailable w fOnlyConfirmed)).flatMap (outputsOf w coinControl fIncludeZeroValue)

/-- `pcoin->vout[outpoint.n]` of the wallet's transaction, if there is one. -/
def findOutput (wallet : List CWalletTx) (outpoint : COutPoint) : Option CTxOut :=
  (findTx wallet outpoint.hash).bind fun pcoin => pcoin.tx.vout[outpoint.n]?

def isFromMe (w : WalletState Dest) (wtx : CWalletTx) : Bool :=
  (getDebit w.keys w.mapWallet ISMINE_ALL wtx).any fun debit => decide (0 < debit)

/-- The three calls of `SelectCoinsMinConf`, each one with its random choices. -/
def selectAny (w : WalletState Dest) (choices : ℕ → Choices) (nTargetValue : CAmount) (vCoins : List COutput) : Option (List COutput) :=
  (outcome (choices 0) (isFromMe w) nTargetValue 1 6 vCoins).coins.or
    ((outcome (choices 1) (isFromMe w) nTargetValue 1 1 vCoins).coins.or
      (if w.node.bSpendZeroConfChange then (outcome (choices 2) (isFromMe w) nTargetValue 0 1 vCoins).coins else none))

/-- The coins for what the outputs that are set leave of the amount. -/
def selectRest (w : WalletState Dest) (choices : ℕ → Choices) (nTargetValue nValueFromPresetInputs : CAmount) (vCoins : List COutput) :
    Option (List COutput) :=
  if nTargetValue ≤ nValueFromPresetInputs then some [] else selectAny w choices (nTargetValue - nValueFromPresetInputs) vCoins

/-- The available coins without the outputs that are set. -/
def otherCoins (w : WalletState Dest) (coinControl : Option CCoinControl) (vPresetInputs : List COutPoint) : List COutput :=
  (availableCoins w true coinControl false).filter fun coin => !vPresetInputs.contains coin.outpoint

/-- With other inputs allowed: the outputs that are set, which the wallet has to have, and other coins. -/
def selectWithPresets (w : WalletState Dest) (choices : ℕ → Choices) (nTargetValue : CAmount) (coinControl : Option CCoinControl) :
    Option (List COutPoint × CAmount) :=
  let vPresetInputs := coinControl.elim [] CCoinControl.setSelected
  (vPresetInputs.mapM (findOutput w.mapWallet)).bind fun presets =>
    (selectRest w choices nTargetValue (presets.map CTxOut.nValue).sum
      (otherCoins w coinControl vPresetInputs)).map fun coins =>
        (coins.map COutput.outpoint ∪ vPresetInputs, (coins.map COutput.nValue).sum + (presets.map CTxOut.nValue).sum)

def selectCoins (w : WalletState Dest) (choices : ℕ → Choices) (nTargetValue : CAmount) (coinControl : Option CCoinControl) :
    Option (List COutPoint × CAmount) :=
  if coinControl.any fun control => control.hasSelected && !control.fAllowOtherInputs then
    let vCoins := (availableCoins w true coinControl false).filter COutput.fSpendable
    let nValueRet := (vCoins.map COutput.nValue).sum
    if nTargetValue ≤ nValueRet then some (vCoins.map COutput.outpoint, nValueRet) else none
  else selectWithPresets w choices nTargetValue coinControl

theorem findTx_of_mem {w : WalletState Dest} {wtx : CWalletTx} (member : wtx ∈ w.mapWallet) :
    findTx w.mapWallet wtx.tx.hash = some wtx := by
  obtain ⟨other, found⟩ := isSome_iff_exists.mp (WalletCache.findTx_isSome.mpr ⟨wtx, member, rfl⟩)
  obtain ⟨inside, same⟩ := findTx_some found
  rw [found, inj_on_of_nodup_map w.keyed inside member same]

variable {coin : COutput}

theorem mem_outputsOf {w : WalletState Dest} {coinControl : Option CCoinControl} {fIncludeZeroValue : Bool}
    {pcoin : CWalletTx} (member : coin ∈ outputsOf w coinControl fIncludeZeroValue pcoin) : coin.tx = pcoin := by
  obtain ⟨i, -, rfl⟩ := mem_map.mp member
  rfl

theorem mem_availableCoins {w : WalletState Dest} {fOnlyConfirmed : Bool} {coinControl : Option CCoinControl}
    {fIncludeZeroValue : Bool} (member : coin ∈ availableCoins w fOnlyConfirmed coinControl fIncludeZeroValue) :
    coin.tx ∈ w.mapWallet := by
  obtain ⟨pcoin, inside, listed⟩ := mem_flatMap.mp member
  rw [mem_outputsOf listed]
  exact mem_of_mem_filter inside

theorem findOutput_coin {w : WalletState Dest} (member : coin.tx ∈ w.mapWallet) :
    findOutput w.mapWallet coin.outpoint = some (coin.tx.tx.vout.get ⟨coin.i, coin.inside⟩) := by
  have found : findTx w.mapWallet coin.outpoint.hash = some coin.tx := findTx_of_mem member
  rw [findOutput, found, bind_some]
  exact getElem?_eq_getElem coin.inside

theorem money_coin {w : WalletState Dest} (member : coin.tx ∈ w.mapWallet) : moneyRange coin.nValue = true :=
  w.money coin.tx member _ (get_mem _ _)

theorem availableCoins_distinct (w : WalletState Dest) (fOnlyConfirmed : Bool) (coinControl : Option CCoinControl)
    (fIncludeZeroValue : Bool) : ((availableCoins w fOnlyConfirmed coinControl fIncludeZeroValue).map outpoint).Nodup := by
  rw [availableCoins, map_flatMap]
  refine nodup_flatMap.mpr ⟨fun pcoin _ => ?_, ?_⟩
  · rw [outputsOf, List.map_map]
    refine ((nodup_finRange _).filter _).map fun i j same => ?_
    exact Fin.ext (congrArg COutPoint.n same)
  · have apart : (w.mapWallet.filter (txAvailable w fOnlyConfirmed)).Pairwise fun first second => first.tx.hash ≠ second.tx.hash :=
      (pairwise_map.mp w.keyed).sublist filter_sublist
    refine apart.imp fun {first second} different outpoint here there => ?_
    obtain ⟨coin, inFirst, rfl⟩ := mem_map.mp here
    obtain ⟨other, inSecond, same⟩ := mem_map.mp there
    refine different ?_
    rw [← mem_outputsOf inFirst, ← mem_outputsOf inSecond]
    exact (congrArg COutPoint.hash same).symm

/-- The value of an output of the wallet, for an input that spends it. -/
def valueOf (wallet : List CWalletTx) (outpoint : COutPoint) : CAmount := (findOutput wallet outpoint).elim 0 CTxOut.nValue

theorem valueOf_coin {w : WalletState Dest} (member : coin.tx ∈ w.mapWallet) :
    valueOf w.mapWallet coin.outpoint = coin.nValue := by
  rw [valueOf, findOutput_coin member]
  rfl

theorem sum_valueOf_coins {w : WalletState Dest} {coins : List COutput} (members : ∀ coin ∈ coins, coin.tx ∈ w.mapWallet) :
    ((coins.map outpoint).map (valueOf w.mapWallet)).sum = (coins.map nValue).sum := by
  rw [List.map_map]
  exact congrArg List.sum (List.map_congr_left fun coin member => valueOf_coin (members coin member))

theorem sum_valueOf_presets {wallet : List CWalletTx} {outpoints : List COutPoint} {presets : List CTxOut}
    (found : outpoints.mapM (findOutput wallet) = some presets) :
    (outpoints.map (valueOf wallet)).sum = (presets.map CTxOut.nValue).sum := by
  induction outpoints generalizing presets with
  | nil =>
    rw [mapM_nil] at found
    obtain rfl := some.inj found
    rfl
  | cons outpoint outpoints ih =>
    rw [mapM_cons] at found
    obtain ⟨txout, first, found⟩ := bind_eq_some_iff.mp found
    obtain ⟨txouts, others, found⟩ := bind_eq_some_iff.mp found
    obtain rfl := some.inj found
    rw [map_cons, map_cons, sum_cons, sum_cons, ih others, valueOf, first]
    rfl

/-- Distinct outputs that reach an amount, with their sum. -/
structure Takes (w : WalletState Dest) (nTargetValue : CAmount) (taken : List COutPoint × CAmount) : Prop where
  distinct : taken.1.Nodup
  sum : taken.2 = (taken.1.map (valueOf w.mapWallet)).sum
  reaches : nTargetValue ≤ taken.2

section

variable {w : WalletState Dest} {choices : ℕ → Choices} {nTargetValue : CAmount}

theorem selectAny_sound {vCoins coins : List COutput}
    (members : ∀ coin ∈ vCoins, coin.tx ∈ w.mapWallet)
    (selected : selectAny w choices nTargetValue vCoins = some coins) :
    coins.Subperm vCoins ∧ nTargetValue ≤ (coins.map nValue).sum := by
  have money : ∀ coin ∈ vCoins, moneyRange coin.nValue = true := fun coin member => money_coin (members coin member)
  have one : ∀ call nConfMine nConfTheirs,
      (outcome (choices call) (isFromMe w) nTargetValue nConfMine nConfTheirs vCoins).coins = some coins →
        coins.Subperm vCoins ∧ nTargetValue ≤ (coins.map nValue).sum := by
    intro call nConfMine nConfTheirs some
    have sound := outcome_sound (choices call) (isFromMe w) nTargetValue nConfMine nConfTheirs money
    obtain ⟨among, reaches⟩ := sound.coins some
    exact ⟨among.trans filter_sublist.subperm, reaches⟩
  rw [selectAny, or_eq_some_iff] at selected
  rcases selected with first | ⟨-, selected⟩
  · exact one _ _ _ first
  rw [or_eq_some_iff] at selected
  rcases selected with second | ⟨-, third⟩
  · exact one _ _ _ second
  · split at third
    · exact one _ _ _ third
    · cases third

variable {taken : List COutPoint × CAmount}

theorem selectWithPresets_takes {coinControl : Option CCoinControl}
    (selected : selectWithPresets w choices nTargetValue coinControl = some taken) :
    Takes w nTargetValue taken ∧ coinControl.elim [] CCoinControl.setSelected ⊆ taken.1 := by
  have distinct : (coinControl.elim [] CCoinControl.setSelected).Nodup := by
    cases coinControl with
    | none => exact nodup_nil
    | some control => exact control.distinct
  rw [selectWithPresets] at selected
  generalize coinControl.elim [] CCoinControl.setSelected = outpoints at distinct selected ⊢
  obtain ⟨presets, found, selected⟩ := bind_eq_some_iff.mp selected
  obtain ⟨coins, chosen, rfl⟩ := map_eq_some_iff.mp selected
  have apart : ∀ coin ∈ otherCoins w coinControl outpoints, coin.outpoint ∉ outpoints := fun coin member inside => by
    have outside := (mem_filter.mp member).2
    rw [contains_iff_mem.mpr inside] at outside
    exact Bool.false_ne_true outside
  have members : ∀ coin ∈ otherCoins w coinControl outpoints, coin.tx ∈ w.mapWallet := fun coin member => mem_availableCoins (mem_of_mem_filter member)
  have both : coins.Subperm (otherCoins w coinControl outpoints) ∧
      nTargetValue ≤ (coins.map nValue).sum + (presets.map CTxOut.nValue).sum := by
    rw [selectRest] at chosen
    by_cases enough : nTargetValue ≤ (presets.map CTxOut.nValue).sum
    · rw [if_pos enough] at chosen
      obtain rfl := some.inj chosen
      exact ⟨nil_subperm, by rwa [map_nil, sum_nil, zero_add]⟩
    · rw [if_neg enough] at chosen
      obtain ⟨among, reaches⟩ := selectAny_sound members chosen
      exact ⟨among, sub_le_iff_le_add.mp reaches⟩
  obtain ⟨among, reaches⟩ := both
  have coinsDistinct : (coins.map outpoint).Nodup := by
    obtain ⟨some, same, sublist⟩ := among
    have whole : ((otherCoins w coinControl outpoints).map outpoint).Nodup :=
      (availableCoins_distinct w true coinControl false).sublist (filter_sublist.map outpoint)
    exact (same.map outpoint).nodup_iff.mp (whole.sublist (sublist.map outpoint))
  have disjoint : (coins.map outpoint).Disjoint outpoints := by
    intro outpoint here there
    obtain ⟨coin, member, rfl⟩ := mem_map.mp here
    exact apart coin (among.subset member) there
  have union : coins.map outpoint ∪ outpoints = coins.map outpoint ++ outpoints := by
    rw [disjoint.union_eq, coinsDistinct.dedup]
  refine ⟨⟨?_, ?_, reaches⟩, fun _ member => mem_union_iff.mpr (.inr member)⟩
  · rw [union]
    exact coinsDistinct.append distinct disjoint
  · rw [union, map_append, sum_append, sum_valueOf_presets found,
      sum_valueOf_coins fun coin member => members coin (among.subset member)]

theorem selectCoins_takes {coinControl : Option CCoinControl}
    (selected : selectCoins w choices nTargetValue coinControl = some taken) : Takes w nTargetValue taken := by
  rw [selectCoins] at selected
  split at selected
  · dsimp only at selected
    split at selected
    · next reaches =>
      obtain rfl := some.inj selected
      refine ⟨(availableCoins_distinct w true coinControl false).sublist (filter_sublist.map _), ?_, reaches⟩
      exact (sum_valueOf_coins fun coin member => mem_availableCoins (mem_of_mem_filter member)).symm
    · cases selected
  · exact (selectWithPresets_takes selected).1

theorem selectCoins_presets {control : CCoinControl}
    (selected : selectCoins w choices nTargetValue (some control) = some taken) (others : control.fAllowOtherInputs = true) :
    control.setSelected ⊆ taken.1 := by
  rw [selectCoins, if_neg (by rw [any_some, others, Bool.not_true, Bool.and_false]; exact Bool.false_ne_true)] at selected
  exact (selectWithPresets_takes selected).2

end

end Longcoin.SelectCoins

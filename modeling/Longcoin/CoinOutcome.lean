import Longcoin.CoinSelection
import Mathlib.Algebra.Order.BigOperators.Group.List

/-! When `SelectCoinsMinConf` finds coins for an amount, and what it returns. -/

namespace Longcoin.CoinSelection
open Primitives Wallet COutput List Option

/-- The coins that are small enough to be put together. -/
def small (nTargetValue : CAmount) (coins : List COutput) : List COutput :=
  coins.filter fun coin => decide (coin.nValue < nTargetValue + MIN_CHANGE)

/-- What the first loop knows after some coins that meet the limits. -/
structure SiftedBy (nTargetValue : CAmount) (coins : List COutput) (sifted : Sifted) : Prop where
  other : ∀ coin ∈ coins, coin.nValue ≠ nTargetValue
  vValue : sifted.vValue = small nTargetValue coins
  total : sifted.nTotalLower = (sifted.vValue.map COutput.nValue).sum
  larger : ∀ coin ∈ sifted.coinLowestLarger, coin ∈ coins ∧ nTargetValue + MIN_CHANGE ≤ coin.nValue
  empty : sifted.coinLowestLarger = none → ∀ coin ∈ coins, coin.nValue < nTargetValue + MIN_CHANGE

theorem siftedBy_nil (nTargetValue : CAmount) : SiftedBy nTargetValue [] {} where
  other _ member := absurd member not_mem_nil
  vValue := rfl
  total := rfl
  larger _ member := absurd member (not_mem_none _)
  empty _ _ member := absurd member not_mem_nil

section Sift

variable {nTargetValue : CAmount} {coins : List COutput} {sifted : Sifted} {coin : COutput}

theorem SiftedBy.addSmall (by' : SiftedBy nTargetValue coins sifted) (other : coin.nValue ≠ nTargetValue)
    (less : coin.nValue < nTargetValue + MIN_CHANGE) :
    SiftedBy nTargetValue (coins ++ [coin])
      { sifted with vValue := sifted.vValue ++ [coin], nTotalLower := sifted.nTotalLower + coin.nValue } where
  other := forall_mem_append.mpr ⟨by'.other, forall_mem_singleton.mpr other⟩
  vValue := by
    have one : small nTargetValue [coin] = [coin] := filter_cons_of_pos (decide_eq_true less)
    rw [by'.vValue, small, small, filter_append, ← small, ← small, one]
  total := by
    rw [map_append, sum_append, by'.total, map_singleton, sum_singleton]
  larger later member := ⟨mem_append_left _ (by'.larger later member).1, (by'.larger later member).2⟩
  empty none := forall_mem_append.mpr ⟨by'.empty none, forall_mem_singleton.mpr less⟩

theorem SiftedBy.addLarge (by' : SiftedBy nTargetValue coins sifted) (other : coin.nValue ≠ nTargetValue)
    (more : nTargetValue + MIN_CHANGE ≤ coin.nValue) {coinLowestLarger : Option COutput}
    (among : ∀ larger ∈ coinLowestLarger, larger = coin ∨ larger ∈ sifted.coinLowestLarger) (full : coinLowestLarger ≠ none) :
    SiftedBy nTargetValue (coins ++ [coin]) { sifted with coinLowestLarger := coinLowestLarger } where
  other := forall_mem_append.mpr ⟨by'.other, forall_mem_singleton.mpr other⟩
  vValue := by
    have nothing : small nTargetValue [coin] = [] := filter_cons_of_neg (by rw [decide_eq_true_eq]; exact not_lt.mpr more)
    rw [small, filter_append, ← small, ← small, nothing, append_nil]
    exact by'.vValue
  total := by'.total
  larger later member := by
    rcases among later member with rfl | before
    · exact ⟨mem_append_right _ (mem_singleton_self _), more⟩
    · exact ⟨mem_append_left _ (by'.larger later before).1, (by'.larger later before).2⟩
  empty none := absurd none full

theorem sift_cases (meets : COutput → Bool) {vCoins : List COutput}
    (money : ∀ coin ∈ vCoins, moneyRange coin.nValue = true) (by' : SiftedBy nTargetValue coins sifted) :
    (∃ coin ∈ vCoins.filter meets, coin.nValue = nTargetValue ∧ sift meets nTargetValue vCoins sifted = .inl coin) ∨
      ∃ last, SiftedBy nTargetValue (coins ++ vCoins.filter meets) last ∧ sift meets nTargetValue vCoins sifted = .inr last := by
  induction vCoins generalizing coins sifted with
  | nil => exact .inr ⟨sifted, by rwa [filter_nil, append_nil], rfl⟩
  | cons coin vCoins ih =>
    obtain ⟨inRange, money⟩ := forall_mem_cons.mp money
    rw [sift]
    by_cases met : meets coin = true
    case neg =>
      rw [if_pos (by rw [Bool.not_eq_true']; exact Bool.eq_false_iff.mpr met), filter_cons_of_neg met]
      exact ih money by'
    rw [if_neg (by rw [met]; exact Bool.false_ne_true), filter_cons_of_pos met]
    by_cases exact' : coin.nValue = nTargetValue
    · rw [if_pos exact']
      exact .inl ⟨coin, mem_cons_self, exact', rfl⟩
    rw [if_neg exact', append_cons coins]
    have later : ∀ {next : Sifted}, SiftedBy nTargetValue (coins ++ [coin]) next →
        (∃ other ∈ coin :: vCoins.filter meets, other.nValue = nTargetValue ∧ sift meets nTargetValue vCoins next = .inl other) ∨
          ∃ last, SiftedBy nTargetValue (coins ++ [coin] ++ vCoins.filter meets) last ∧
            sift meets nTargetValue vCoins next = .inr last := by
      intro next by''
      refine (ih money by'').imp_left ?_
      rintro ⟨other, member, found⟩
      exact ⟨other, mem_cons_of_mem _ member, found⟩
    by_cases less : coin.nValue < nTargetValue + MIN_CHANGE
    · rw [if_pos less]
      exact later (by'.addSmall exact' less)
    rw [if_neg less]
    by_cases closer : coin.nValue < lowestLarger sifted.coinLowestLarger
    · rw [if_pos closer]
      refine later (by'.addLarge exact' (not_lt.mp less) (fun larger member => .inl ?_) (some_ne_none coin))
      exact (some.inj member).symm
    · rw [if_neg closer]
      refine later (by'.addLarge exact' (not_lt.mp less) (fun larger member => .inr member) fun none => closer ?_)
      have top : (MAX_MONEY : Int) < 2 ^ 63 - 1 := by decide
      rw [none]
      exact lt_of_le_of_lt ((moneyRange_iff _).mp inRange).2 top

end Sift

section Picked

variable {vValue : List COutput} {vfBest : Finset (Fin vValue.length)}

theorem mem_picked {coin : COutput} : coin ∈ picked vValue vfBest ↔ ∃ i ∈ vfBest, vValue.get i = coin := by
  simp only [picked, List.mem_map, List.mem_filter, List.mem_finRange, true_and, decide_eq_true_eq]

theorem picked_sublist : (picked vValue vfBest).Sublist vValue := by
  have some : (picked vValue vfBest).Sublist ((finRange vValue.length).map vValue.get) := filter_sublist.map _
  rwa [← ofFn_eq_map, ofFn_get] at some

theorem sum_picked : ((picked vValue vfBest).map nValue).sum = ∑ i ∈ vfBest, (vValue.get i).nValue := by
  have positions : ((List.finRange vValue.length).filter fun i => decide (i ∈ vfBest)).toFinset = vfBest := by
    rw [List.toFinset_filter, List.toFinset_finRange]
    simp only [decide_eq_true_eq, Finset.filter_univ_mem]
  rw [picked, List.map_map, ← List.sum_toFinset _ ((List.nodup_finRange _).filter _), positions]
  rfl

theorem sum_values (vValue : List COutput) : (vValue.map nValue).sum = ∑ i, (vValue.get i).nValue := by
  have positions : (List.finRange vValue.length).map vValue.get = vValue := by rw [← List.ofFn_eq_map, List.ofFn_get]
  calc (vValue.map nValue).sum = (((List.finRange vValue.length).map vValue.get).map nValue).sum := by rw [positions]
    _ = ∑ i, (vValue.get i).nValue := by
      rw [List.map_map, ← List.sum_toFinset _ (List.nodup_finRange _), List.toFinset_finRange]
      rfl

theorem search_spec {nTargetValue nTotalLower : CAmount} (bits : ℕ → ℕ → ℕ → Bool) (nonneg : ∀ coin ∈ vValue, 0 ≤ coin.nValue)
    (all : nTotalLower = (vValue.map nValue).sum) (enough : nTargetValue ≤ nTotalLower) : nTargetValue ≤ (search bits vValue nTotalLower nTargetValue).2 ∧
      (search bits vValue nTotalLower nTargetValue).1.Sound (fun i => (vValue.get i).nValue)
        (search bits vValue nTotalLower nTargetValue).2 ∧
      Tight (fun i => (vValue.get i).nValue) (search bits vValue nTotalLower nTargetValue).2 []
        (search bits vValue nTotalLower nTargetValue).1 := by
  have nonneg' : ∀ i, 0 ≤ (vValue.get i).nValue := fun i => nonneg _ (get_mem vValue i)
  have all' := all.trans (sum_values vValue)
  have more : nTargetValue ≤ nTargetValue + MIN_CHANGE := le_add_of_nonneg_right Int.one_nonneg
  rw [search]
  split
  · next again => exact ⟨more, approximateBestSubset_spec nonneg' (bits 1) all' again.2⟩
  · exact ⟨le_refl _, approximateBestSubset_spec nonneg' (bits 0) all' enough⟩

end Picked

/-- The coins are too few, or some of them that reach the amount. Of those of the search none can be left out. -/
inductive Outcome.Sound (nTargetValue : CAmount) (coins : List COutput) : Outcome → Prop where
  | insufficient (less : (coins.map COutput.nValue).sum < nTargetValue) : Sound nTargetValue coins .insufficient
  | direct {selected : List COutput} (among : selected.Subperm coins) (reaches : nTargetValue ≤ (selected.map COutput.nValue).sum) :
      Sound nTargetValue coins (.direct selected)
  | searched {selected : List COutput} {lastTarget : CAmount} (among : selected.Subperm coins)
      (reaches : nTargetValue ≤ (selected.map COutput.nValue).sum)
      (tight : ∀ coin ∈ selected, (selected.map COutput.nValue).sum - coin.nValue < lastTarget) :
      Sound nTargetValue coins (.searched selected lastTarget)

theorem Outcome.Sound.coins {nTargetValue : CAmount} {vCoins selected : List COutput} {outcome : Outcome}
    (sound : outcome.Sound nTargetValue vCoins) (some : outcome.coins = some selected) :
    selected.Subperm vCoins ∧ nTargetValue ≤ (selected.map nValue).sum := by
  cases sound with
  | insufficient _ => cases some
  | direct among reaches =>
    obtain rfl := Option.some.inj some
    exact ⟨among, reaches⟩
  | searched among reaches _ =>
    obtain rfl := Option.some.inj some
    exact ⟨among, reaches⟩

section Choose

variable {nTargetValue : CAmount} {coins : List COutput} {sifted : Sifted}

theorem direct_larger {larger : COutput} (by' : SiftedBy nTargetValue coins sifted) (is : sifted.coinLowestLarger = some larger) :
    Outcome.Sound nTargetValue coins (.direct [larger]) := by
  obtain ⟨member, more⟩ := by'.larger larger is
  refine .direct (singleton_subperm_iff.mpr member) ?_
  rw [map_singleton, sum_singleton]
  exact le_trans (le_add_of_nonneg_right Int.one_nonneg) more

theorem small_sublist : (small nTargetValue coins).Sublist coins := filter_sublist

theorem choose_sound (nonneg : ∀ coin ∈ coins, 0 ≤ coin.nValue)
    (choices : Choices) (by' : SiftedBy nTargetValue coins sifted) :
    (choose choices nTargetValue sifted).Sound nTargetValue coins := by
  have among : sifted.vValue.Sublist coins := by'.vValue ▸ small_sublist
  rw [choose]
  by_cases equal : sifted.nTotalLower = nTargetValue
  · rw [if_pos equal]
    exact .direct among.subperm (by rw [← by'.total, equal])
  rw [if_neg equal]
  by_cases less : sifted.nTotalLower < nTargetValue
  · rw [if_pos less]
    cases larger : sifted.coinLowestLarger with
    | some coin => exact direct_larger by' larger
    | none =>
      refine .insufficient ?_
      have all : small nTargetValue coins = coins :=
        filter_eq_self.mpr fun coin member => decide_eq_true (by'.empty larger coin member)
      rwa [← all, ← by'.vValue, ← by'.total]
  rw [if_neg less]
  dsimp only
  split
  · next preferred =>
    obtain ⟨larger, is, -⟩ := (any_eq_true _ _).mp preferred
    rw [is]
    exact direct_larger by' is
  · have sorted := choices.sort_perm sifted.vValue
    have nonneg' : ∀ coin ∈ choices.sort sifted.vValue, 0 ≤ coin.nValue := fun coin member =>
      nonneg coin (among.subset (sorted.mem_iff.mp member))
    have total : sifted.nTotalLower = ((choices.sort sifted.vValue).map nValue).sum := by
      rw [by'.total, (sorted.map nValue).sum_eq]
    obtain ⟨more, sound, tight⟩ := search_spec choices.bits nonneg' total (not_lt.mp less)
    refine .searched (picked_sublist.subperm.trans (sorted.subperm.trans among.subperm)) ?_ fun coin member => ?_
    · rw [sum_picked, ← sound.sum]
      exact more.trans sound.reaches
    · obtain ⟨i, flagged, rfl⟩ := mem_picked.mp member
      rw [sum_picked, ← sound.sum]
      exact tight i flagged not_mem_nil

end Choose

/-- The spendable coins that meet the confirmation limits. -/
def eligible (isFromMe : CWalletTx → Bool) (nConfMine nConfTheirs : Int) (vCoins : List COutput) : List COutput :=
  vCoins.filter (meetsLimits isFromMe nConfMine nConfTheirs)

theorem Outcome.Sound.perm {nTargetValue : CAmount} {coins coins' : List COutput} {outcome : Outcome} (perm : coins.Perm coins')
    (sound : outcome.Sound nTargetValue coins) : outcome.Sound nTargetValue coins' := by
  cases sound with
  | insufficient less => exact .insufficient ((perm.map nValue).sum_eq ▸ less)
  | direct among reaches => exact .direct (among.trans perm.subperm) reaches
  | searched among reaches tight => exact .searched (among.trans perm.subperm) reaches tight

theorem outcome_sound (choices : Choices) (isFromMe : CWalletTx → Bool) (nTargetValue : CAmount) (nConfMine nConfTheirs : Int)
    {vCoins : List COutput} (money : ∀ coin ∈ vCoins, moneyRange coin.nValue = true) :
    (outcome choices isFromMe nTargetValue nConfMine nConfTheirs vCoins).Sound nTargetValue
      (eligible isFromMe nConfMine nConfTheirs vCoins) := by
  have shuffled := choices.shuffle_perm vCoins
  have money' : ∀ coin ∈ choices.shuffle vCoins, moneyRange coin.nValue = true := fun coin member =>
    money coin (shuffled.mem_iff.mp member)
  refine Outcome.Sound.perm (shuffled.filter (meetsLimits isFromMe nConfMine nConfTheirs)) ?_
  rw [outcome]
  rcases sift_cases (meetsLimits isFromMe nConfMine nConfTheirs) money' (siftedBy_nil nTargetValue) with
    ⟨coin, member, value, found⟩ | ⟨last, by', result⟩
  · rw [found]
    refine .direct (singleton_subperm_iff.mpr member) ?_
    rw [map_singleton, sum_singleton, value]
  · rw [result]
    refine choose_sound (fun coin member => ?_) choices by'
    exact ((moneyRange_iff _).mp (money' coin (mem_of_mem_filter member))).1

theorem filter_outpoint_perm {selected coins : List COutput} (distinct : (coins.map outpoint).Nodup)
    (among : selected.Subperm coins) :
    (coins.filter fun coin => decide (coin.outpoint ∈ (selected.map outpoint).toFinset)).Perm selected := by
  have nodup := distinct.of_map outpoint
  have nodup' : selected.Nodup := by
    obtain ⟨some, same, sublist⟩ := among
    exact same.nodup_iff.mp (nodup.sublist sublist)
  refine (perm_ext_iff_of_nodup (nodup.filter _) nodup').mpr fun coin => ?_
  rw [List.mem_filter, decide_eq_true_eq, List.mem_toFinset, List.mem_map]
  constructor
  · rintro ⟨member, other, chosen, same⟩
    rwa [← inj_on_of_nodup_map distinct (among.subset chosen) member same]
  · exact fun chosen => ⟨among.subset chosen, coin, chosen, rfl⟩

theorem sum_le_of_subperm {selected coins : List COutput} (nonneg : ∀ coin ∈ coins, 0 ≤ coin.nValue) (among : selected.Subperm coins) :
    (selected.map nValue).sum ≤ (coins.map nValue).sum := by
  obtain ⟨some, same, sublist⟩ := among
  rw [← (same.map nValue).sum_eq]
  exact (sublist.map nValue).sum_le_sum (forall_mem_map.mpr nonneg)

/-- Coins are found exactly when those that meet the limits reach the amount. No sum of them overflows. -/
theorem selects_iff (choices : Choices) (isFromMe : CWalletTx → Bool) (nTargetValue : CAmount) (nConfMine nConfTheirs : Int)
    {vCoins : List COutput} (distinct : (vCoins.map outpoint).Nodup) (money : ∀ coin ∈ vCoins, moneyRange coin.nValue = true)
    (modest : (vCoins.map nValue).sum < 2 ^ 62) :
    ((selectCoinsMinConf choices isFromMe nTargetValue nConfMine nConfTheirs vCoins).isSome = true ↔
        nTargetValue ≤ ((eligible isFromMe nConfMine nConfTheirs vCoins).map nValue).sum) ∧
      ∀ setCoinsRet nValueRet, selectCoinsMinConf choices isFromMe nTargetValue nConfMine nConfTheirs vCoins = some (setCoinsRet, nValueRet) →
        setCoinsRet ⊆ ((eligible isFromMe nConfMine nConfTheirs vCoins).map outpoint).toFinset ∧
        nValueRet = (((eligible isFromMe nConfMine nConfTheirs vCoins).filter fun coin =>
          decide (coin.outpoint ∈ setCoinsRet)).map nValue).sum ∧ nTargetValue ≤ nValueRet ∧ nValueRet < 2 ^ 62 ∧
        ∀ coins lastTarget, outcome choices isFromMe nTargetValue nConfMine nConfTheirs vCoins = .searched coins lastTarget →
          ∀ coin ∈ eligible isFromMe nConfMine nConfTheirs vCoins, coin.outpoint ∈ setCoinsRet → nValueRet - coin.nValue < lastTarget := by
  have nonneg : ∀ coin ∈ eligible isFromMe nConfMine nConfTheirs vCoins, 0 ≤ coin.nValue := fun coin member =>
    ((moneyRange_iff _).mp (money coin (mem_of_mem_filter member))).1
  have distinct' : ((eligible isFromMe nConfMine nConfTheirs vCoins).map outpoint).Nodup :=
    distinct.sublist (filter_sublist.map _)
  have fits : ∀ selected : List COutput, selected.Subperm (eligible isFromMe nConfMine nConfTheirs vCoins) →
      (selected.map nValue).sum < 2 ^ 62 := by
    intro selected among
    have least := sum_le_of_subperm (fun coin member => ((moneyRange_iff _).mp (money coin member)).1)
      (among.trans filter_sublist.subperm)
    exact lt_of_le_of_lt least modest
  have sound := outcome_sound choices isFromMe nTargetValue nConfMine nConfTheirs money
  rw [selectCoinsMinConf]
  generalize outcome choices isFromMe nTargetValue nConfMine nConfTheirs vCoins = result at sound ⊢
  have returned : ∀ selected : List COutput, selected.Subperm (eligible isFromMe nConfMine nConfTheirs vCoins) →
      (selected.map outpoint).toFinset ⊆ ((eligible isFromMe nConfMine nConfTheirs vCoins).map outpoint).toFinset ∧
        (selected.map nValue).sum = (((eligible isFromMe nConfMine nConfTheirs vCoins).filter fun coin =>
          decide (coin.outpoint ∈ (selected.map outpoint).toFinset)).map nValue).sum := by
    intro selected among
    refine ⟨fun outpoint member => ?_, ((filter_outpoint_perm distinct' among).map nValue).sum_eq.symm⟩
    exact mem_toFinset.mpr (map_subset _ among.subset (mem_toFinset.mp member))
  cases sound with
  | insufficient less =>
    refine ⟨iff_of_false Bool.false_ne_true (not_le.mpr less), fun _ _ none => ?_⟩
    cases none
  | direct among reaches =>
    refine ⟨iff_of_true rfl (reaches.trans (sum_le_of_subperm nonneg among)), fun setCoinsRet nValueRet is => ?_⟩
    obtain ⟨rfl, rfl⟩ := Prod.mk.inj (some.inj is)
    exact ⟨(returned _ among).1, (returned _ among).2, reaches, fits _ among, nofun⟩
  | @searched selected lastTarget among reaches tight =>
    refine ⟨iff_of_true rfl (reaches.trans (sum_le_of_subperm nonneg among)), fun setCoinsRet nValueRet is => ?_⟩
    obtain ⟨rfl, rfl⟩ := Prod.mk.inj (some.inj is)
    refine ⟨(returned _ among).1, (returned _ among).2, reaches, fits _ among, fun coins last searched coin member inside => ?_⟩
    obtain ⟨-, rfl⟩ := Outcome.searched.inj searched
    refine tight coin ((filter_outpoint_perm distinct' among).mem_iff.mp (mem_filter.mpr ⟨member, decide_eq_true inside⟩))

def plainChoices : Choices where
  shuffle := id
  sort coins := coins.insertionSort fun coin later => later.nValue ≤ coin.nValue
  bits _ _ _ := false
  shuffle_perm _ := .refl _
  sort_perm _ := List.perm_insertionSort _ _
  sort_sorted coins := by
    have : Std.Total fun coin later : COutput => later.nValue ≤ coin.nValue := ⟨fun _ _ => le_total _ _⟩
    have : IsTrans COutput fun coin later => later.nValue ≤ coin.nValue := ⟨fun _ _ _ first second => le_trans second first⟩
    exact List.pairwise_insertionSort _ _

def coinOf (hash : Uint256) (nValue : CAmount) : COutput where
  tx := { tx := { hash := hash, vin := [], vout := [⟨nValue, []⟩] }, hashBlock := 9, nIndex := 0, strFromAccount := "" }
  i := 0
  nDepth := 10
  fSpendable := true
  inside := Nat.one_pos

theorem selects_iff_five : (selectCoinsMinConf plainChoices (fun _ => false) 5 1 6 [coinOf 1 3, coinOf 2 4]).isSome = true :=
  (selects_iff plainChoices (fun _ => false) 5 1 6 (by decide) (by decide) (by decide)).1.mpr (by decide)

end Longcoin.CoinSelection

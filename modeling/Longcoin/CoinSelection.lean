import Mathlib.Data.Finset.Sort
import Mathlib.Data.Fintype.BigOperators
import Longcoin.Wallet

/-! Which coins the wallet spends for an amount (`ApproximateBestSubset` and `CWallet::SelectCoinsMinConf`, `wallet/wallet.cpp`). -/

namespace Longcoin.CoinSelection
open Primitives Wallet List Finset

def MIN_CHANGE : CAmount := 1

/-- `vfBest`, as the set of its positions, and `nBest`. -/
structure Best (n : ℕ) where
  nBest : CAmount
  vfBest : Finset (Fin n)

structure Search (n : ℕ) extends Best n where
  nTotal : CAmount
  vfIncluded : Finset (Fin n)
  fReachedTarget : Bool

section Subset

variable {n : ℕ} (value : Fin n → CAmount) (nTargetValue : CAmount)

/-- A value is included, and left out again when it reaches the target. -/
def includeValue (search : Search n) (i : Fin n) : Search n :=
  let nTotal := search.nTotal + value i
  let vfIncluded := insert i search.vfIncluded
  if nTargetValue ≤ nTotal then
    { nBest := if nTotal < search.nBest then nTotal else search.nBest
      vfBest := if nTotal < search.nBest then vfIncluded else search.vfBest
      nTotal := nTotal - value i
      vfIncluded := vfIncluded.erase i
      fReachedTarget := true }
  else { search with nTotal := nTotal, vfIncluded := vfIncluded }

def pass (picks : Search n → Fin n → Bool) (positions : List (Fin n)) (search : Search n) : Search n :=
  positions.foldl (fun search i => if picks search i then includeValue value nTargetValue search i else search) search

/-- One repetition: values are included by chance first, then those that were not. -/
def repetition (bits : ℕ → Bool) (best : Best n) : Best n :=
  let first := pass value nTargetValue (fun _ i => bits i) (List.finRange n)
    { best with nTotal := 0, vfIncluded := ∅, fReachedTarget := false }
  if first.fReachedTarget then first.toBest
  else (pass value nTargetValue (fun search i => decide (i ∉ search.vfIncluded)) (List.finRange n) first).toBest

def repetitions (bits : ℕ → ℕ → Bool) : ℕ → ℕ → Best n → Best n
  | 0, _, best => best
  | left + 1, nRep, best =>
    if best.nBest = nTargetValue then best
    else repetitions bits left (nRep + 1) (repetition value nTargetValue (bits nRep) best)

def reduceTurn (best : Best n) (i : Fin n) : Best n :=
  if i ∈ best.vfBest ∧ nTargetValue ≤ best.nBest - value i then
    { nBest := best.nBest - value i, vfBest := best.vfBest.erase i }
  else best

def approximateBestSubset (bits : ℕ → ℕ → Bool) (nTotalLower : CAmount) : Best n :=
  (List.finRange n).foldl (reduceTurn value nTargetValue)
    (repetitions value nTargetValue bits 1000 0 { nBest := nTotalLower, vfBest := Finset.univ })

end Subset

structure COutput where
  tx : CWalletTx
  i : ℕ
  nDepth : Int
  fSpendable : Bool
  inside : i < tx.tx.vout.length

def COutput.nValue (output : COutput) : CAmount := (output.tx.tx.vout.get ⟨output.i, output.inside⟩).nValue

/-- What `setCoinsRet` has of a coin. -/
def COutput.outpoint (output : COutput) : COutPoint := ⟨output.tx.tx.hash, output.i⟩

/-- The random choices of a call, and the order in which the sort leaves equal values. -/
structure Choices where
  shuffle : List COutput → List COutput
  sort : List COutput → List COutput
  bits : ℕ → ℕ → ℕ → Bool
  shuffle_perm : ∀ coins, (shuffle coins).Perm coins
  sort_perm : ∀ coins, (sort coins).Perm coins
  sort_sorted : ∀ coins, (sort coins).Pairwise fun coin later => later.nValue ≤ coin.nValue

structure Sifted where
  coinLowestLarger : Option COutput := none
  vValue : List COutput := []
  nTotalLower : CAmount := 0

/-- A spendable coin that is confirmed as often as it has to be. -/
def meetsLimits (isFromMe : CWalletTx → Bool) (nConfMine nConfTheirs : Int) (output : COutput) : Bool :=
  output.fSpendable && !decide (output.nDepth < if isFromMe output.tx then nConfMine else nConfTheirs)

/-- `coinLowestLarger.first`. -/
def lowestLarger (coinLowestLarger : Option COutput) : CAmount := coinLowestLarger.elim (2 ^ 63 - 1) COutput.nValue

/-- The first loop: a coin of the very amount, or all coins by their size. -/
def sift (meets : COutput → Bool) (nTargetValue : CAmount) : List COutput → Sifted → COutput ⊕ Sifted
  | [], sifted => .inr sifted
  | coin :: vCoins, sifted =>
    if !meets coin then sift meets nTargetValue vCoins sifted
    else if coin.nValue = nTargetValue then .inl coin
    else if coin.nValue < nTargetValue + MIN_CHANGE then
      sift meets nTargetValue vCoins
        { sifted with vValue := sifted.vValue ++ [coin], nTotalLower := sifted.nTotalLower + coin.nValue }
    else if coin.nValue < lowestLarger sifted.coinLowestLarger then
      sift meets nTargetValue vCoins { sifted with coinLowestLarger := some coin }
    else sift meets nTargetValue vCoins sifted

/-- Where a call ends: without coins, with coins that need no search, or with those of the search and the last target that it had. -/
inductive Outcome where
  | insufficient
  | direct (coins : List COutput)
  | searched (coins : List COutput) (lastTarget : CAmount)

/-- `vValue` with the flags of `vfBest`. -/
def picked (vValue : List COutput) (vfBest : Finset (Fin vValue.length)) : List COutput :=
  ((List.finRange vValue.length).filter fun i => decide (i ∈ vfBest)).map vValue.get

/-- The search, which is made again with room for change unless it meets the target. -/
def search (bits : ℕ → ℕ → ℕ → Bool) (vValue : List COutput) (nTotalLower nTargetValue : CAmount) :
    Best vValue.length × CAmount :=
  let best := approximateBestSubset (fun i => (vValue.get i).nValue) nTargetValue (bits 0) nTotalLower
  if best.nBest ≠ nTargetValue ∧ nTargetValue + MIN_CHANGE ≤ nTotalLower then
    (approximateBestSubset (fun i => (vValue.get i).nValue) (nTargetValue + MIN_CHANGE) (bits 1) nTotalLower,
      nTargetValue + MIN_CHANGE)
  else (best, nTargetValue)

def prefersLarger (nBest nTargetValue : CAmount) (larger : COutput) : Bool :=
  decide (nBest ≠ nTargetValue ∧ nBest < nTargetValue + MIN_CHANGE ∨ larger.nValue ≤ nBest)

def choose (choices : Choices) (nTargetValue : CAmount) (sifted : Sifted) : Outcome :=
  if sifted.nTotalLower = nTargetValue then .direct sifted.vValue
  else if sifted.nTotalLower < nTargetValue then
    sifted.coinLowestLarger.elim .insufficient fun larger => .direct [larger]
  else
    let vValue := choices.sort sifted.vValue
    let found := search choices.bits vValue sifted.nTotalLower nTargetValue
    if sifted.coinLowestLarger.any (prefersLarger found.1.nBest nTargetValue) then .direct sifted.coinLowestLarger.toList
    else .searched (picked vValue found.1.vfBest) found.2

def outcome (choices : Choices) (isFromMe : CWalletTx → Bool) (nTargetValue : CAmount) (nConfMine nConfTheirs : Int)
    (vCoins : List COutput) : Outcome :=
  (sift (meetsLimits isFromMe nConfMine nConfTheirs) nTargetValue (choices.shuffle vCoins) {}).elim (fun coin => .direct [coin])
    (choose choices nTargetValue)

def Outcome.coins : Outcome → Option (List COutput)
  | .insufficient => none
  | .direct coins | .searched coins _ => some coins

/-- `setCoinsRet` and `nValueRet`, where the call returns true. Amounts are added as integers: coins come to less than
`2 ^ 62`, and the target with `MIN_CHANGE` is only compared. -/
def selectCoinsMinConf (choices : Choices) (isFromMe : CWalletTx → Bool) (nTargetValue : CAmount) (nConfMine nConfTheirs : Int)
    (vCoins : List COutput) : Option (Finset COutPoint × CAmount) :=
  (outcome choices isFromMe nTargetValue nConfMine nConfTheirs vCoins).coins.map fun coins =>
    ((coins.map COutput.outpoint).toFinset, (coins.map COutput.nValue).sum)

section Subset

variable {n : ℕ} {value : Fin n → CAmount} {nTargetValue : CAmount}

/-- The sum that goes with the flags, and reaches the target. -/
structure Best.Sound (value : Fin n → CAmount) (nTargetValue : CAmount) (best : Best n) : Prop where
  sum : best.nBest = ∑ i ∈ best.vfBest, value i
  reaches : nTargetValue ≤ best.nBest

structure Search.Sound (value : Fin n → CAmount) (nTargetValue : CAmount) (search : Search n) : Prop where
  best : search.toBest.Sound value nTargetValue
  total : search.nTotal = ∑ i ∈ search.vfIncluded, value i

theorem includeValue_sound {search : Search n} {i : Fin n} (sound : search.Sound value nTargetValue) (fresh : i ∉ search.vfIncluded) :
    (includeValue value nTargetValue search i).Sound value nTargetValue := by
  have more : ∑ j ∈ insert i search.vfIncluded, value j = search.nTotal + value i := by
    rw [sum_insert fresh, sound.total, add_comm]
  rw [includeValue]
  split
  · next reached =>
    refine ⟨?_, ?_⟩
    · split
      · exact ⟨more.symm, reached⟩
      · exact sound.best
    · dsimp only
      rw [erase_insert fresh, add_sub_cancel_right]
      exact sound.total
  · exact ⟨sound.best, more.symm⟩

theorem includeValue_subset (search : Search n) (i : Fin n) :
    (includeValue value nTargetValue search i).vfIncluded ⊆ insert i search.vfIncluded := by
  rw [includeValue]
  split
  · exact erase_subset _ _
  · exact Subset.refl _

theorem pass_sound {picks : Search n → Fin n → Bool} {positions : List (Fin n)} {search : Search n} (distinct : positions.Nodup)
    (sound : search.Sound value nTargetValue) (apart : ∀ i ∈ positions, i ∉ search.vfIncluded) :
    (pass value nTargetValue picks positions search).Sound value nTargetValue := by
  induction positions generalizing search with
  | nil => exact sound
  | cons i positions ih =>
    obtain ⟨first, later⟩ := nodup_cons.mp distinct
    rw [pass, foldl_cons]
    split
    · refine ih later (includeValue_sound sound (apart i mem_cons_self)) fun j member included => ?_
      rcases mem_insert.mp (includeValue_subset search i included) with rfl | before
      · exact first member
      · exact apart j (mem_cons_of_mem _ member) before
    · exact ih later sound (forall_mem_cons.mp apart).2

theorem pass_rest_sound {positions : List (Fin n)} {search : Search n} (sound : search.Sound value nTargetValue) :
    (pass value nTargetValue (fun search i => decide (i ∉ search.vfIncluded)) positions search).Sound value nTargetValue := by
  induction positions generalizing search with
  | nil => exact sound
  | cons i positions ih =>
    rw [pass, foldl_cons]
    split
    · next fresh => exact ih (includeValue_sound sound (of_decide_eq_true fresh))
    · exact ih sound

variable {best : Best n}

theorem repetition_sound (bits : ℕ → Bool) (sound : best.Sound value nTargetValue) :
    (repetition value nTargetValue bits best).Sound value nTargetValue := by
  have first : (pass value nTargetValue (fun _ i => bits i) (finRange n)
      { best with nTotal := 0, vfIncluded := ∅, fReachedTarget := false }).Sound value nTargetValue :=
    pass_sound (nodup_finRange n) ⟨sound, sum_empty.symm⟩ fun _ _ => notMem_empty _
  rw [repetition]
  split
  · exact first.best
  · exact (pass_rest_sound first).best

theorem repetitions_sound (bits : ℕ → ℕ → Bool) (left nRep : ℕ) (sound : best.Sound value nTargetValue) :
    (repetitions value nTargetValue bits left nRep best).Sound value nTargetValue := by
  induction left generalizing nRep best with
  | zero => exact sound
  | succ left ih =>
    rw [repetitions]
    split
    · exact sound
    · exact ih _ (repetition_sound _ sound)

/-- No flagged value outside a set of positions can be done without. -/
def Tight (value : Fin n → CAmount) (nTargetValue : CAmount) (left : List (Fin n)) (best : Best n) : Prop :=
  ∀ i ∈ best.vfBest, i ∉ left → best.nBest - value i < nTargetValue

theorem reduceTurn_sound (sound : best.Sound value nTargetValue) (i : Fin n) :
    (reduceTurn value nTargetValue best i).Sound value nTargetValue := by
  rw [reduceTurn]
  split
  · next taken =>
    refine ⟨?_, taken.2⟩
    dsimp only
    rw [sound.sum, ← sum_erase_add _ _ taken.1, add_sub_cancel_right]
  · exact sound

theorem reduceTurn_tight (nonneg : ∀ i, 0 ≤ value i) {i : Fin n} {left : List (Fin n)}
    (tight : Tight value nTargetValue (i :: left) best) :
    Tight value nTargetValue left (reduceTurn value nTargetValue best i) := by
  intro j flagged outside
  rw [reduceTurn] at flagged ⊢
  split at flagged
  · next taken =>
    rw [if_pos taken]
    have other : j ∉ i :: left := not_mem_cons_of_ne_of_not_mem (ne_of_mem_erase flagged) outside
    calc best.nBest - value i - value j ≤ best.nBest - value j := sub_le_sub_right (sub_le_self _ (nonneg i)) _
      _ < nTargetValue := tight j (mem_of_mem_erase flagged) other
  · next kept =>
    rw [if_neg kept]
    by_cases here : j = i
    · subst here
      exact not_le.mp fun spare => kept ⟨flagged, spare⟩
    · exact tight j flagged (not_mem_cons_of_ne_of_not_mem here outside)

theorem reduce_spec (nonneg : ∀ i, 0 ≤ value i) (left : List (Fin n)) (sound : best.Sound value nTargetValue)
    (tight : Tight value nTargetValue left best) :
    (left.foldl (reduceTurn value nTargetValue) best).Sound value nTargetValue ∧
      Tight value nTargetValue [] (left.foldl (reduceTurn value nTargetValue) best) := by
  induction left generalizing best with
  | nil => exact ⟨sound, tight⟩
  | cons i left ih => exact ih (reduceTurn_sound sound i) (reduceTurn_tight nonneg tight)

theorem approximateBestSubset_spec (nonneg : ∀ i, 0 ≤ value i) (bits : ℕ → ℕ → Bool) {nTotalLower : CAmount}
    (all : nTotalLower = ∑ i, value i) (enough : nTargetValue ≤ nTotalLower) :
    (approximateBestSubset value nTargetValue bits nTotalLower).Sound value nTargetValue ∧
      Tight value nTargetValue [] (approximateBestSubset value nTargetValue bits nTotalLower) := by
  refine reduce_spec nonneg _ (repetitions_sound bits 1000 0 ⟨all, enough⟩) fun i _ outside => ?_
  exact absurd (mem_finRange i) outside

end Subset

end Longcoin.CoinSelection

import Longcoin.CreateTransactionPass

/-! The books of `CreateTransaction`: its fee loop ends, and what goes into the transaction comes out again, but for the fee. -/

namespace Longcoin.CreateTransaction
open Primitives Wallet CoinSelection SelectCoins FeeRate Library.Outcome Library.Bytes List Option

variable {Dest : Type}

theorem getFee_mono {rate : CFeeRate} (modest : rate.nSatoshisPerK ≤ 10 ^ 10) {nSize more : ℕ} (le : nSize ≤ more)
    (fits : more < MAX_STANDARD_TX_SIZE) : rate.getFee nSize ≤ rate.getFee more := by
  have positive := rate.positive
  have bound : ∀ size : ℕ, size < MAX_STANDARD_TX_SIZE → rate.nSatoshisPerK * size < 2 ^ 64 := fun size below => by
    rw [MAX_STANDARD_TX_SIZE] at below
    calc rate.nSatoshisPerK * size ≤ 10 ^ 10 * 100000 := Int.mul_le_mul modest (by omega) (by omega) (by omega)
      _ < 2 ^ 64 := by decide
  rw [CFeeRate.getFee_value (bound nSize (lt_of_le_of_lt le fits)), CFeeRate.getFee_value (bound more fits)]
  have product : rate.nSatoshisPerK * nSize ≤ rate.nSatoshisPerK * more := Int.mul_le_mul_of_nonneg_left (by exact_mod_cast le) (by omega)
  omega

theorem feeByRate_eq (policy : Policy) (nTxBytes : ℕ) : feeByRate policy nTxBytes = policy.payTxFee.getFee nTxBytes := by
  have positive := CFeeRate.getFee_positive policy.payTxFee nTxBytes
  rw [feeByRate, if_pos (by omega)]

theorem getMinimumFee_mono (policy : Policy) {nSize more : ℕ} (le : nSize ≤ more) (fits : more < MAX_STANDARD_TX_SIZE) :
    getMinimumFee policy nSize ≤ getMinimumFee policy more := by
  have pay := getFee_mono policy.payTxFee_le le fits
  have least := getFee_mono policy.minTxFee_le le fits
  have relay := getFee_mono policy.minRelayTxFee_le le fits
  rw [getMinimumFee, getMinimumFee, feeByRate_eq, feeByRate_eq, getRequiredFee, getRequiredFee]
  exact min_le_min_right _ (max_le_max pay (max_le_max least relay))

theorem getMinimumFee_le_feeNeeded (policy : Policy) (coinControl : Option CCoinControl) (nBytes : ℕ) :
    getMinimumFee policy nBytes ≤ feeNeeded policy coinControl nBytes := by
  rw [feeNeeded]
  cases coinControl with
  | none => exact le_refl _
  | some control =>
    rw [elim_some]
    split
    · next more => exact more.2.le
    · exact le_refl _

theorem feeNeeded_le_largestFee (policy : Policy) (coinControl : Option CCoinControl) (nBytes : ℕ) :
    feeNeeded policy coinControl nBytes ≤ largestFee policy coinControl := by
  have limit : getMinimumFee policy nBytes ≤ policy.maxTxFee := min_le_right _ _
  rw [feeNeeded, largestFee]
  refine le_trans ?_ (le_max_right _ _)
  cases coinControl with
  | none => exact le_trans limit (le_max_left _ _)
  | some control =>
    rw [elim_some, elim_some]
    split
    · exact le_max_right _ _
    · exact le_trans limit (le_max_left _ _)

theorem compactSize_pos (nSize : ℕ) : 1 ≤ compactSize nSize := by
  rw [compactSize, Serialize.writeCompactSize]
  split
  · rw [length_littleBytes]
  · split
    · rw [length_append, length_littleBytes]
      omega
    · split <;> · rw [length_append, length_littleBytes]; omega

theorem size_le_measured {w : WalletState Dest} {request : Request} {nValue nFeeRet : CAmount} {created : Created}
    (built : Built w request nValue nFeeRet created) : getSerializeSize created.txNew ≤ getSerializeSize created.measured := by
  cases sign : request.sign with
  | true => rw [built.signed sign]
  | false =>
    obtain ⟨bare, lengths⟩ := built.unsigned sign
    have small : (created.txNew.vin.map sizeOfTxIn).sum = created.txNew.vin.length * 41 := by
      have each : created.txNew.vin.map sizeOfTxIn = created.txNew.vin.map fun _ => 41 := by
        refine map_congr_left fun txin member => ?_
        rw [sizeOfTxIn, bare txin member]
        rfl
      rw [each, map_const', sum_replicate, nsmul_eq_mul, Nat.cast_id]
    have large : created.measured.vin.length * 41 ≤ (created.measured.vin.map sizeOfTxIn).sum := by
      have sum := card_nsmul_le_sum (created.measured.vin.map sizeOfTxIn) 41 fun size member => by
        obtain ⟨txin, -, rfl⟩ := mem_map.mp member
        have positive := compactSize_pos txin.scriptSig.length
        rw [sizeOfTxIn]
        omega
      rwa [length_map, nsmul_eq_mul, Nat.cast_id] at sum
    rw [getSerializeSize, getSerializeSize, built.measured, small, lengths]
    omega

theorem feePass_ok {w : WalletState Dest} {policy : Policy} {request : Request} {draws : Draws} {nLockTime : ℕ} {nValue nFeeRet : CAmount}
    {next : Created ⊕ CAmount} (passed : feePass w policy request draws nLockTime nValue nFeeRet = .ok next) :
    ∃ created, build w policy request draws nLockTime nValue nFeeRet = .ok created ∧
      getSerializeSize created.measured < MAX_STANDARD_TX_SIZE ∧
      (next = .inl created ∧ feeNeeded policy request.coinControl (getSerializeSize created.measured) ≤ created.nFeeRet ∨
        ∃ nFeeNeeded, next = .inr nFeeNeeded ∧ created.nFeeRet < nFeeNeeded ∧ nFeeNeeded ≤ largestFee policy request.coinControl) := by
  rw [feePass, bind_ok] at passed
  obtain ⟨created, built, passed⟩ := passed
  obtain ⟨small, passed⟩ := require_bind_ok.mp passed
  obtain ⟨-, passed⟩ := require_bind_ok.mp passed
  obtain rfl := pure_ok.mp passed
  refine ⟨created, built, of_decide_eq_true small, ?_⟩
  split
  · next enough => exact .inl ⟨rfl, enough⟩
  · next more => exact .inr ⟨_, rfl, not_le.mp more, feeNeeded_le_largestFee _ _ _⟩

section Loop

variable {w : WalletState Dest} {policy : Policy} {request : Request}

theorem nValueToSelect_eq (request : Request) (nValue nFeeRet : CAmount) :
    request.nValueToSelect nValue nFeeRet = nValue + (if subtractors request.vecSend = 0 then nFeeRet else 0) := by
  rw [Request.nValueToSelect]
  change (if subtractors request.vecSend = 0 then _ else _) = _
  split
  · rfl
  · exact (add_zero _).symm

theorem feeLoop_ok {draws : ℕ → Draws} {nLockTime : ℕ} {nValue : CAmount} {fuel nPass : ℕ} {nFeeRet : CAmount} {created : Created}
    (loops : feeLoop w policy request draws nLockTime nValue fuel nPass nFeeRet = .ok created) :
    ∃ nFee, Built w request nValue nFee created ∧ getMinimumFee policy (getSerializeSize created.txNew) ≤ nFee := by
  induction fuel generalizing nPass nFeeRet with
  | zero => exact absurd loops (by rw [feeLoop]; simp only [reduceCtorEq, not_false_eq_true])
  | succ fuel ih =>
    rw [feeLoop, bind_ok] at loops
    obtain ⟨next, passed, loops⟩ := loops
    obtain ⟨made, built, small, ends | ⟨nFeeNeeded, again, -⟩⟩ := feePass_ok passed
    · obtain ⟨rfl, enough⟩ := ends
      obtain rfl := pure_ok.mp loops
      have sound := build_ok built
      refine ⟨nFeeRet, sound, ?_⟩
      calc getMinimumFee policy (getSerializeSize made.txNew)
          ≤ getMinimumFee policy (getSerializeSize made.measured) := getMinimumFee_mono policy (size_le_measured sound) small
        _ ≤ feeNeeded policy request.coinControl (getSerializeSize made.measured) := getMinimumFee_le_feeNeeded _ _ _
        _ ≤ made.nFeeRet := enough
        _ = nFeeRet := sound.fee
    · subst again
      exact ih loops

theorem avoids_payees (policy : Policy) (nFeeRet : CAmount) (nSubtractFeeFromAmount : ℕ) (fFirst : Bool) (vecSend : List CRecipient) :
    Avoids (· = .fuel) (payees policy nFeeRet nSubtractFeeFromAmount fFirst vecSend) := by
  induction vecSend generalizing fFirst with
  | nil => exact avoids_ok _
  | cons recipient vecSend ih =>
    rw [payees]
    refine avoids_bind (avoids_require fun _ => by simp) fun _ _ => ?_
    exact avoids_bind (ih _) fun vout _ => avoids_pure _

theorem avoids_changeOutputs (request : Request) (draws : Draws) (nFeeRet nChange : CAmount) (vout : List CTxOut) :
    Avoids (· = .fuel) (changeOutputs policy request draws nFeeRet nChange vout) := by
  rw [changeOutputs]
  split
  · refine avoids_bind ?_ fun script _ => ?_
    · cases scriptChange request draws with
      | none => exact avoids_error (by simp)
      | some script => exact avoids_ok _
    · rw [addChange, if_neg fun both => Bool.false_ne_true both.2]
      exact avoids_ok _
  · exact avoids_ok _

theorem avoids_signInput (draws : Draws) (txNew : CMutableTransaction) (input : CTxIn × ℕ) :
    Avoids (· = .fuel) (signInput w request draws txNew input) := by
  rw [signInput]
  dsimp only
  generalize (if request.sign = true then _ else _ : Option CScript) = signature
  cases signature with
  | none => exact avoids_error (by simp)
  | some scriptSig => exact avoids_ok _

theorem avoids_build (draws : Draws) (nLockTime : ℕ) (nValue nFeeRet : CAmount) :
    Avoids (· = .fuel) (build w policy request draws nLockTime nValue nFeeRet) := by
  rw [build]
  refine avoids_bind (avoids_payees _ _ _ _ _) fun vout _ => ?_
  refine avoids_bind (avoids_require fun _ => by simp) fun _ _ => ?_
  refine avoids_bind ?_ fun taken _ => ?_
  · cases selectCoins w draws.choices (request.nValueToSelect nValue nFeeRet) request.coinControl with
    | none => exact avoids_error (by simp)
    | some taken => exact avoids_ok _
  refine avoids_bind (avoids_require fun _ => by simp) fun _ _ => ?_
  refine avoids_bind (avoids_changeOutputs _ _ _ _ _) fun outputs _ => ?_
  exact avoids_bind (avoids_mapM fun input _ => avoids_signInput _ _ _) fun signed _ => avoids_pure _

theorem avoids_feePass (draws : Draws) (nLockTime : ℕ) (nValue nFeeRet : CAmount) :
    Avoids (· = .fuel) (feePass w policy request draws nLockTime nValue nFeeRet) := by
  rw [feePass]
  refine avoids_bind (avoids_build _ _ _ _) fun created _ => ?_
  refine avoids_bind (avoids_require fun _ => by simp) fun _ _ => ?_
  exact avoids_bind (avoids_require fun _ => by simp) fun _ _ => avoids_pure _

theorem build_fee {draws : Draws} {nLockTime : ℕ} {nValue nFeeRet : CAmount} {created : Created}
    (built : build w policy request draws nLockTime nValue nFeeRet = .ok created) : created.nFeeRet = nFeeRet := by
  rw [build, bind_ok] at built
  obtain ⟨vout, -, built⟩ := built
  obtain ⟨-, built⟩ := require_bind_ok.mp built
  obtain ⟨taken, -, built⟩ := bind_ok.mp built
  obtain ⟨-, built⟩ := require_bind_ok.mp built
  obtain ⟨outputs, changed, built⟩ := bind_ok.mp built
  obtain ⟨signed, -, built⟩ := bind_ok.mp built
  obtain rfl := pure_ok.mp built
  exact (changeOutputs_ok changed).fee

theorem avoids_feeLoop (draws : ℕ → Draws) (nLockTime : ℕ) (nValue : CAmount) {fuel nPass : ℕ} {nFeeRet : CAmount}
    (least : nFeeRet ≤ largestFee policy request.coinControl) (enough : (largestFee policy request.coinControl - nFeeRet).toNat < fuel) :
    Avoids (· = .fuel) (feeLoop w policy request draws nLockTime nValue fuel nPass nFeeRet) := by
  induction fuel generalizing nPass nFeeRet with
  | zero => cases enough
  | succ fuel ih =>
    rw [feeLoop]
    refine avoids_bind (avoids_feePass _ _ _ _) fun next passed => ?_
    obtain ⟨made, built, -, ends | ⟨nFeeNeeded, again, more, bound⟩⟩ := feePass_ok passed
    · obtain ⟨rfl, -⟩ := ends
      exact avoids_ok _
    · subst again
      rw [build_fee built] at more
      have fewer : (largestFee policy request.coinControl - nFeeNeeded).toNat < (largestFee policy request.coinControl - nFeeRet).toNat :=
        (Int.toNat_lt_toNat (sub_pos.mpr (lt_of_lt_of_le more bound))).mpr (sub_lt_sub_left more _)
      exact ih bound (by omega)

theorem avoids_sumAmounts (vecSend : List CRecipient) (nValue : CAmount) : Avoids (· = .fuel) (sumAmounts vecSend nValue) := by
  induction vecSend generalizing nValue with
  | nil =>
    rw [sumAmounts]
    exact avoids_bind (avoids_require fun _ => by simp) fun _ _ => avoids_pure _
  | cons recipient vecSend ih =>
    rw [sumAmounts]
    refine avoids_bind (avoids_require fun _ => by simp) fun _ _ => ?_
    exact avoids_bind (avoids_require fun _ => by simp) fun _ _ => ih _

theorem createTransaction_ends (w : WalletState Dest) (policy : Policy) (request : Request) (draws : ℕ → Draws) (back : Option ℕ) :
    createTransaction w policy request draws back ≠ .error .fuel := by
  have avoids : Avoids (· = .fuel) (createTransaction w policy request draws back) := by
    rw [createTransaction]
    refine avoids_bind (avoids_sumAmounts _ _) fun nValue _ => ?_
    refine avoids_bind (avoids_require fun _ => by simp) fun _ _ => ?_
    refine avoids_bind ?_ fun nLockTime _ => ?_
    · rw [chooseLockTime]
      exact avoids_bind (avoids_require fun _ => by simp) fun _ _ => avoids_pure _
    · refine avoids_feeLoop draws nLockTime nValue (le_max_left _ _) ?_
      rw [sub_zero]
      omega
  exact fun stops => avoids .fuel stops rfl

end Loop

/-- The books of a created transaction. The coins that are selected are its inputs. -/
structure Balanced (w : WalletState Dest) (policy : Policy) (request : Request) (created : Created) : Prop where
  books : inputsTotal w created.txNew - outputsTotal created.txNew = created.nFeeRet
  fee : getMinimumFee policy (getSerializeSize created.txNew) ≤ created.nFeeRet
  paid : List.Forall₂ PaidTo request.vecSend created.payments
  short : subtractors request.vecSend ≠ 0 → shortfall request.vecSend created.payments = created.nFeeRet
  change : ∀ position ∈ created.nChangePosRet, ∀ txout ∈ created.txNew.vout[position]?,
    txout.nValue = inputsTotal w created.txNew - totalOf request.vecSend -
      if subtractors request.vecSend = 0 then created.nFeeRet else 0

section Balance

variable {w : WalletState Dest} {policy : Policy} {request : Request} {draws : ℕ → Draws} {back : Option ℕ} {created : Created}

theorem createTransaction_built (creates : createTransaction w policy request draws back = .ok created) :
    ∃ nFee, Built w request (totalOf request.vecSend) nFee created ∧ getMinimumFee policy (getSerializeSize created.txNew) ≤ nFee := by
  rw [createTransaction, bind_ok] at creates
  obtain ⟨nValue, summed, creates⟩ := creates
  obtain ⟨-, creates⟩ := require_bind_ok.mp creates
  obtain ⟨nLockTime, -, loops⟩ := bind_ok.mp creates
  have sum := sumAmounts_ok summed
  rw [zero_add] at sum
  exact feeLoop_ok (sum ▸ loops)

theorem createTransaction_balanced (creates : createTransaction w policy request draws back = .ok created) :
    Balanced w policy request created := by
  obtain ⟨nFee, built, fee⟩ := createTransaction_built creates
  have target := nValueToSelect_eq request (totalOf request.vecSend) nFee
  have outputs := built.outputs
  rw [sum_payments built.paid, built.short, target] at outputs
  refine ⟨?_, built.fee ▸ fee, built.paid, fun pays => ?_, fun position at' txout here => ?_⟩
  · rw [outputs, built.fee]
    split <;> ring
  · rw [built.short, if_neg pays, built.fee]
  · rw [built.change position at' txout here, target, built.fee, sub_add_eq_sub_sub]

end Balance

end Longcoin.CreateTransaction

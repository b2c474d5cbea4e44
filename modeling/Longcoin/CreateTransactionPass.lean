import Longcoin.CreateTransaction

/-! What one pass of the fee loop of `CreateTransaction` makes: who is paid, what the change is and which coins go in. -/

namespace Longcoin.CreateTransaction
open Primitives Wallet SelectCoins Library.Outcome CTxIn List Option Bool Except

variable {Dest : Type}

def totalOf (vecSend : List CRecipient) : CAmount := (vecSend.map CRecipient.nAmount).sum

/-- What a recipient gets: its script, and its amount unless the fee is taken from it. -/
def PaidTo (recipient : CRecipient) (txout : CTxOut) : Prop :=
  txout.scriptPubKey = recipient.scriptPubKey ∧ (recipient.fSubtractFeeFromAmount = false → txout.nValue = recipient.nAmount)

/-- What the recipients that pay for the fee are short of, all together. -/
def shortfall (vecSend : List CRecipient) (payments : List CTxOut) : CAmount :=
  ((vecSend.zip payments).map fun pair => if pair.1.fSubtractFeeFromAmount then pair.1.nAmount - pair.2.nValue else 0).sum

variable {vecSend : List CRecipient}

theorem sum_payments {payments : List CTxOut} (paid : Forall₂ PaidTo vecSend payments) :
    (payments.map CTxOut.nValue).sum = totalOf vecSend - shortfall vecSend payments := by
  induction paid with
  | nil => rfl
  | @cons recipient txout vecSend payments one _ ih =>
    rw [totalOf] at ih
    rw [totalOf, shortfall, zip_cons_cons, map_cons, map_cons, map_cons, sum_cons, sum_cons, sum_cons,
      ih, shortfall]
    cases pays : recipient.fSubtractFeeFromAmount with
    | true =>
      rw [if_pos rfl]
      ring
    | false =>
      rw [if_neg Bool.false_ne_true, one.2 pays]
      ring

theorem sumAmounts_ok {nValue sum : CAmount} (summed : sumAmounts vecSend nValue = .ok sum) :
    sum = nValue + totalOf vecSend := by
  induction vecSend generalizing nValue with
  | nil =>
    rw [sumAmounts, require_bind_ok, pure_ok] at summed
    rw [← summed.2, totalOf, map_nil, sum_nil, add_zero]
  | cons recipient vecSend ih =>
    rw [sumAmounts, require_bind_ok, require_bind_ok] at summed
    rw [ih summed.2.2, totalOf, totalOf, map_cons, sum_cons, add_assoc]

def subtractors (vecSend : List CRecipient) : ℕ := vecSend.countP fun recipient => recipient.fSubtractFeeFromAmount

variable {policy : Policy} {nFeeRet : CAmount} {vout : List CTxOut}

theorem payees_ok {nSubtractFeeFromAmount : ℕ} {fFirst : Bool}
    (paid : payees policy nFeeRet nSubtractFeeFromAmount fFirst vecSend = .ok vout) :
    List.Forall₂ PaidTo vecSend vout ∧ shortfall vecSend vout = subtractors vecSend * (nFeeRet / nSubtractFeeFromAmount) +
      if fFirst ∧ 0 < subtractors vecSend then nFeeRet % nSubtractFeeFromAmount else 0 := by
  induction vecSend generalizing fFirst vout with
  | nil =>
    obtain rfl := Except.ok.inj paid
    refine ⟨.nil, ?_⟩
    rw [subtractors, List.countP_nil, if_neg fun both => absurd both.2 (lt_irrefl 0), Nat.cast_zero, zero_mul, add_zero]
    rfl
  | cons recipient vecSend ih =>
    rw [payees] at paid
    rw [require_bind_ok, bind_ok] at paid
    obtain ⟨-, others, later, result⟩ := paid
    obtain rfl := pure_ok.mp result
    obtain ⟨rest, short⟩ := ih later
    have split' : ∀ txout, shortfall (recipient :: vecSend) (txout :: others) =
        (if recipient.fSubtractFeeFromAmount then recipient.nAmount - txout.nValue else 0) + shortfall vecSend others := fun txout => by
      rw [shortfall, List.zip_cons_cons, List.map_cons, List.sum_cons, shortfall]
    cases pays : recipient.fSubtractFeeFromAmount with
    | false =>
      rw [pays] at short split'
      have same : subtractors (recipient :: vecSend) = subtractors vecSend :=
        List.countP_cons_of_neg (by rw [pays]; exact Bool.false_ne_true)
      refine ⟨.cons ⟨rfl, fun _ => ?_⟩ rest, ?_⟩
      · rw [if_neg Bool.false_ne_true, sub_zero]
      · rw [split', if_neg Bool.false_ne_true, zero_add, same, short, Bool.not_false, Bool.and_true]
    | true =>
      rw [pays] at short split'
      have more : subtractors (recipient :: vecSend) = subtractors vecSend + 1 := List.countP_cons_of_pos pays
      refine ⟨.cons ⟨rfl, fun no => Bool.noConfusion (pays.symm.trans no)⟩ rest, ?_⟩
      rw [split', if_pos rfl, if_pos rfl, short, more, Bool.not_true, Bool.and_false, if_neg fun both => Bool.false_ne_true both.1]
      have positive : 0 < subtractors vecSend + 1 := Nat.succ_pos _
      rw [shareOf]
      cases fFirst with
      | true =>
        rw [if_pos rfl, if_pos ⟨rfl, positive⟩]
        push_cast
        ring
      | false =>
        rw [if_neg Bool.false_ne_true, if_neg fun both => Bool.false_ne_true both.1]
        push_cast
        ring

theorem payees_shortfall (paid : payees policy nFeeRet (subtractors vecSend) true vecSend = .ok vout) :
    shortfall vecSend vout = if subtractors vecSend = 0 then 0 else nFeeRet := by
  rw [(payees_ok paid).2]
  by_cases none : subtractors vecSend = 0
  · rw [if_pos none, none, if_neg fun both => absurd both.2 (lt_irrefl 0), Nat.cast_zero, zero_mul, add_zero]
  · rw [if_neg none, if_pos ⟨rfl, Nat.pos_of_ne_zero none⟩]
    exact Int.mul_ediv_add_emod nFeeRet _

/-- The outputs of the recipients with the change among them. -/
structure Changed (nFeeRet nChange : CAmount) (vout : List CTxOut) (outputs : Outputs) : Prop where
  fee : outputs.nFeeRet = nFeeRet
  sum : (outputs.vout.map CTxOut.nValue).sum = (vout.map CTxOut.nValue).sum + max 0 nChange
  payments : outputs.nChangePosRet.elim outputs.vout outputs.vout.eraseIdx = vout
  change : ∀ position ∈ outputs.nChangePosRet, ∀ txout ∈ outputs.vout[position]?, txout.nValue = nChange
  inside : ∀ position ∈ outputs.nChangePosRet, position < outputs.vout.length

theorem sum_insertIdx {position : ℕ} (inside : position ≤ vout.length) (txout : CTxOut) :
    ((vout.insertIdx position txout).map CTxOut.nValue).sum = (vout.map CTxOut.nValue).sum + txout.nValue := by
  rw [((perm_insertIdx txout vout inside).map CTxOut.nValue).sum_eq, map_cons, sum_cons, add_comm]

variable {request : Request} {draws : Draws}

theorem changeOutputs_ok {nChange : CAmount} {outputs : Outputs}
    (changed : changeOutputs policy request draws nFeeRet nChange vout = .ok outputs) :
    Changed nFeeRet nChange vout outputs := by
  rw [changeOutputs] at changed
  by_cases positive : 0 < nChange
  · rw [if_pos positive, bind_ok] at changed
    obtain ⟨script, -, added⟩ := changed
    rw [addChange, if_neg fun both => Bool.false_ne_true both.2] at added
    obtain rfl := Except.ok.inj added
    rw [placeChange, if_neg (by rw [isDust]; exact Bool.false_ne_true)]
    have inside : draws.changeDraw % (vout.length + 1) ≤ vout.length := Nat.le_of_lt_succ (Nat.mod_lt _ (Nat.succ_pos _))
    refine ⟨rfl, ?_, ?_, ?_, ?_⟩
    · rw [sum_insertIdx inside, max_eq_right positive.le]
    · exact List.eraseIdx_insertIdx_self _
    · intro position at' txout here
      obtain rfl := Option.some.inj at'
      rw [List.getElem?_insertIdx_self, if_pos inside] at here
      rw [← Option.some.inj here]
    · intro position at'
      obtain rfl := Option.some.inj at'
      rw [List.length_insertIdx_of_le_length inside]
      exact Nat.lt_succ_of_le inside
  · rw [if_neg positive] at changed
    obtain rfl := Except.ok.inj changed
    refine ⟨rfl, ?_, rfl, fun position none => absurd none (Option.not_mem_none _), fun position none => absurd none (Option.not_mem_none _)⟩
    rw [max_eq_left (not_lt.mp positive), add_zero]

def inputsTotal (w : WalletState Dest) (tx : CMutableTransaction) : CAmount :=
  (tx.vin.map fun txin => valueOf w.mapWallet txin.prevout).sum

def outputsTotal (tx : CMutableTransaction) : CAmount := (tx.vout.map CTxOut.nValue).sum

def Created.payments (created : Created) : List CTxOut := created.nChangePosRet.elim created.txNew.vout created.txNew.vout.eraseIdx

/-- What a pass that makes a transaction makes sure of. -/
structure Built (w : WalletState Dest) (request : Request) (nValue nFeeRet : CAmount) (created : Created) : Prop where
  fee : created.nFeeRet = nFeeRet
  distinct : (created.txNew.vin.map CTxIn.prevout).Nodup
  reaches : request.nValueToSelect nValue nFeeRet ≤ inputsTotal w created.txNew
  outputs : outputsTotal created.txNew =
    (created.payments.map CTxOut.nValue).sum + (inputsTotal w created.txNew - request.nValueToSelect nValue nFeeRet)
  paid : List.Forall₂ PaidTo request.vecSend created.payments
  short : shortfall request.vecSend created.payments = if subtractors request.vecSend = 0 then 0 else nFeeRet
  change : ∀ position ∈ created.nChangePosRet, ∀ txout ∈ created.txNew.vout[position]?,
    txout.nValue = inputsTotal w created.txNew - request.nValueToSelect nValue nFeeRet
  inside : ∀ position ∈ created.nChangePosRet, position < created.txNew.vout.length
  presets : ∀ control, request.coinControl = some control → control.fAllowOtherInputs = true →
    control.setSelected ⊆ created.txNew.vin.map CTxIn.prevout
  measured : created.measured.vout = created.txNew.vout
  signed : request.sign = true → created.txNew = created.measured
  unsigned : request.sign = false → (∀ txin ∈ created.txNew.vin, txin.scriptSig = []) ∧
    created.txNew.vin.length = created.measured.vin.length

theorem map_prevout_inputsOf (draws : Draws) (setCoins : List COutPoint) :
    (inputsOf draws setCoins).map prevout = draws.arrange setCoins := by
  rw [inputsOf, List.map_map]
  exact List.map_id _

theorem signInput_prevout {w : WalletState Dest} {txNew : CMutableTransaction} {input : CTxIn × ℕ} {txin : CTxIn}
    (signed : signInput w request draws txNew input = .ok txin) : txin.prevout = input.1.prevout := by
  rw [signInput] at signed
  dsimp only at signed
  generalize (if request.sign = true then _ else _ : Option CScript) = signature at signed
  cases signature with
  | none => exact absurd signed (by simp only [elim_none, reduceCtorEq, not_false_eq_true])
  | some scriptSig =>
    obtain rfl := ok.inj signed
    rfl

theorem signInputs_prevouts {w : WalletState Dest} {txNew : CMutableTransaction} {vin : List CTxIn} {start : ℕ}
    {signed : List CTxIn} (all : (vin.zipIdx start).mapM (signInput w request draws txNew) = .ok signed) :
    signed.map prevout = vin.map prevout := by
  induction vin generalizing start signed with
  | nil =>
    obtain rfl := pure_ok.mp all
    rfl
  | cons txin vin ih =>
    rw [zipIdx_cons, mapM_cons, bind_ok] at all
    obtain ⟨first, one, all⟩ := all
    obtain ⟨others, later, result⟩ := bind_ok.mp all
    obtain rfl := pure_ok.mp result
    rw [map_cons, map_cons, ih later, signInput_prevout one]

theorem inputsTotal_eq (w : WalletState Dest) (tx : CMutableTransaction) :
    inputsTotal w tx = ((tx.vin.map prevout).map (valueOf w.mapWallet)).sum := by
  rw [inputsTotal, List.map_map]
  rfl

theorem build_ok {w : WalletState Dest} {nLockTime : ℕ} {nValue : CAmount} {created : Created}
    (built : build w policy request draws nLockTime nValue nFeeRet = .ok created) : Built w request nValue nFeeRet created := by
  rw [build, bind_ok] at built
  obtain ⟨vout, pays, built⟩ := built
  obtain ⟨-, built⟩ := require_bind_ok.mp built
  obtain ⟨taken, selected, built⟩ := bind_ok.mp built
  obtain ⟨-, built⟩ := require_bind_ok.mp built
  obtain ⟨outputs, changed, built⟩ := bind_ok.mp built
  obtain ⟨signed, signs, built⟩ := bind_ok.mp built
  obtain rfl := pure_ok.mp built
  have takes : Takes w (request.nValueToSelect nValue nFeeRet) taken ∧ ∀ control, request.coinControl = some control →
      control.fAllowOtherInputs = true → control.setSelected ⊆ taken.1 := by
    cases found : selectCoins w draws.choices (request.nValueToSelect nValue nFeeRet) request.coinControl with
    | none => exact absurd (found ▸ selected) (by simp only [elim_none, reduceCtorEq, not_false_eq_true])
    | some chosen =>
      rw [found] at selected
      obtain rfl := ok.inj selected
      exact ⟨selectCoins_takes found, fun control is others => selectCoins_presets (is ▸ found) others⟩
  obtain ⟨takes, presets⟩ := takes
  have change := changeOutputs_ok changed
  have same := signInputs_prevouts signs
  have listed := draws.arrange_perm taken.1
  have prevouts : (inputsOf draws taken.1).map prevout = draws.arrange taken.1 := map_prevout_inputsOf draws taken.1
  generalize isSigned : (if request.sign = true then
    ({ vin := signed, vout := outputs.vout, nLockTime := nLockTime } : CMutableTransaction) else
      ⟨inputsOf draws taken.1, outputs.vout, nLockTime⟩) = txNew
  have parts : txNew.vin.map prevout = draws.arrange taken.1 ∧ txNew.vout = outputs.vout := by
    rw [← isSigned]
    split
    · exact ⟨same.trans prevouts, rfl⟩
    · exact ⟨prevouts, rfl⟩
  have total : inputsTotal w txNew = taken.2 := by
    rw [inputsTotal_eq, parts.1, (listed.map _).sum_eq, takes.sum]
  have payments : Created.payments ⟨txNew, ⟨signed, outputs.vout, nLockTime⟩, outputs.nFeeRet, outputs.nChangePosRet⟩ = vout := by
    rw [Created.payments]
    dsimp only
    rw [parts.2]
    exact change.payments
  refine ⟨change.fee, ?_, ?_, ?_, ?_, ?_, ?_, ?_, ?_, ?_, ?_, ?_⟩
  · rw [parts.1]
    exact listed.nodup_iff.mpr takes.distinct
  · rw [total]
    exact takes.reaches
  · rw [payments, total, outputsTotal, parts.2, change.sum, max_eq_right (sub_nonneg.mpr takes.reaches)]
  · rw [payments]
    exact (payees_ok pays).1
  · rw [payments]
    exact payees_shortfall pays
  · rw [total, parts.2]
    exact change.change
  · rw [parts.2]
    exact change.inside
  · rw [parts.1]
    exact fun control is others outpoint member => listed.mem_iff.mpr (presets control is others member)
  · exact parts.2.symm
  · intro signing
    rw [← isSigned, if_pos signing]
  · intro unsigned
    rw [← isSigned, if_neg (by rw [unsigned]; exact false_ne_true)]
    refine ⟨fun txin member => ?_, ?_⟩
    · obtain ⟨outpoint, -, rfl⟩ := mem_map.mp member
      rfl
    · have lengths := congrArg length same
      rwa [length_map, length_map, eq_comm] at lengths

end Longcoin.CreateTransaction

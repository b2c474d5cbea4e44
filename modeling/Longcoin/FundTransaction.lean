import Longcoin.CreateTransactionBooks

/-! `FundTransaction` keeps what it is given and balances it. -/

namespace Longcoin.CreateTransaction
open Primitives Wallet CoinSelection SelectCoins Library.Outcome CTxIn List Option Bool

variable {Dest : Type}

/-- The inputs of a transaction that others do not have yet. -/
def newInputs (vin created : List CTxIn) : List CTxIn :=
  created.filter fun txin => !(vin.map CTxIn.prevout).contains txin.prevout

theorem any_prevout (vin : List CTxIn) (txin : CTxIn) :
    (vin.any fun origTxIn => txin.prevout == origTxIn.prevout) = (vin.map prevout).contains txin.prevout := by
  rw [List.contains_eq_any_beq, List.any_map]
  rfl

theorem foldl_addFundedInput {created : List CTxIn} (distinct : (created.map prevout).Nodup) (vin : List CTxIn) :
    created.foldl addFundedInput vin = vin ++ newInputs vin created := by
  induction created generalizing vin with
  | nil => exact (List.append_nil vin).symm
  | cons txin created ih =>
    obtain ⟨fresh, later⟩ := List.nodup_cons.mp distinct
    rw [List.foldl_cons, ih later, addFundedInput, any_prevout, newInputs, newInputs]
    cases known : (vin.map prevout).contains txin.prevout with
    | true =>
      rw [if_pos rfl, List.filter_cons_of_neg (by rw [known]; exact Bool.false_ne_true)]
    | false =>
      rw [if_neg Bool.false_ne_true, List.filter_cons_of_pos (by rw [known]; rfl), List.append_assoc, List.singleton_append]
      refine congrArg (fun rest => vin ++ txin :: rest) (List.filter_congr fun other member => ?_)
      have apart : other.prevout ≠ txin.prevout := fun same => fresh (same ▸ List.mem_map_of_mem member)
      rw [List.map_append, List.map_singleton, List.contains_append, List.contains_cons, List.contains_nil, Bool.or_false,
        beq_eq_false_iff_ne.mpr apart, Bool.or_false]

theorem inputs_perm {vin created : List CTxIn} (distinct : (vin.map prevout).Nodup)
    (distinct' : (created.map prevout).Nodup) (among : vin.map prevout ⊆ created.map prevout) :
    ((vin ++ newInputs vin created).map prevout).Perm (created.map prevout) := by
  have fresh : ((newInputs vin created).map prevout).Nodup := distinct'.sublist (filter_sublist.map _)
  have apart : (vin.map prevout).Disjoint ((newInputs vin created).map prevout) := by
    intro outpoint here there
    obtain ⟨txin, member, rfl⟩ := mem_map.mp there
    have outside := (mem_filter.mp member).2
    rw [contains_iff_mem.mpr here] at outside
    exact false_ne_true outside
  rw [map_append]
  refine (perm_ext_iff_of_nodup (distinct.append fresh apart) distinct').mpr fun outpoint => ?_
  rw [mem_append]
  constructor
  · rintro (here | there)
    · exact among here
    · exact map_subset _ filter_sublist.subset there
  · intro member
    by_cases here : outpoint ∈ vin.map prevout
    · exact .inl here
    · obtain ⟨txin, listed, rfl⟩ := mem_map.mp member
      refine .inr (mem_map_of_mem (mem_filter.mpr ⟨listed, ?_⟩))
      rw [not_eq_true', eq_false_iff]
      exact fun known => here (contains_iff_mem.mp known)

theorem payments_eq {vout payments : List CTxOut}
    (paid : Forall₂ PaidTo (vout.map fun txOut => ⟨txOut.scriptPubKey, txOut.nValue, false⟩) payments) : payments = vout := by
  induction vout generalizing payments with
  | nil =>
    cases paid
    rfl
  | cons txOut vout ih =>
    cases paid with
    | @cons _ txout _ rest one others =>
      rw [ih others]
      obtain ⟨script, amount⟩ := one
      have value := amount rfl
      cases txout
      cases txOut
      exact congrArg (· :: vout) (congrArg₂ CTxOut.mk value script)

theorem addFundedChange_eq {created : Created} {vout : List CTxOut} (payments : created.payments = vout)
    (inside : ∀ position ∈ created.nChangePosRet, position < created.txNew.vout.length) :
    addFundedChange created vout = created.txNew.vout := by
  subst payments
  rw [addFundedChange, Created.payments]
  cases is : created.nChangePosRet with
  | none => rfl
  | some position =>
    have below := inside position is
    rw [elim_some, elim_some, getElem?_eq_getElem below, elim_some]
    exact insertIdx_eraseIdx_getElem below

/-- The inputs and outputs that were there, in their order, the new inputs and the change. -/
structure Funded (w : WalletState Dest) (tx : CMutableTransaction) (funded : CMutableTransaction × CAmount × Option ℕ) : Prop where
  inputs : ∃ added, funded.1.vin = tx.vin ++ added ∧ (funded.1.vin.map CTxIn.prevout).Nodup
  outputs : funded.2.2.elim funded.1.vout funded.1.vout.eraseIdx = tx.vout
  books : inputsTotal w funded.1 - outputsTotal funded.1 = funded.2.1

theorem fundTransaction_funded {w : WalletState Dest} {policy : Policy} {draws : ℕ → Draws} {back : Option ℕ} {tx : CMutableTransaction}
    {includeWatching : Bool} {funded : CMutableTransaction × CAmount × Option ℕ}
    (distinct : (tx.vin.map prevout).Nodup) (funds : fundTransaction w policy draws back tx includeWatching = .ok funded) :
    Funded w tx funded := by
  rw [fundTransaction, bind_ok] at funds
  obtain ⟨created, creates, result⟩ := funds
  obtain rfl := pure_ok.mp result
  obtain ⟨nFee, built, -⟩ := createTransaction_built creates
  have balanced := createTransaction_balanced creates
  have payments : created.payments = tx.vout := payments_eq built.paid
  have among : tx.vin.map prevout ⊆ created.txNew.vin.map prevout := fun outpoint member =>
    built.presets _ rfl rfl (mem_dedup.mpr member)
  have vin := foldl_addFundedInput built.distinct tx.vin
  have vout := addFundedChange_eq payments built.inside
  have same := inputs_perm distinct built.distinct among
  refine ⟨⟨_, vin, ?_⟩, ?_, ?_⟩
  · rw [vin]
    exact same.nodup_iff.mpr built.distinct
  · rw [vout]
    exact payments
  · rw [← balanced.books, inputsTotal_eq, inputsTotal_eq, outputsTotal, outputsTotal]
    dsimp only
    rw [vin, vout, (same.map _).sum_eq]

/-- Both calls end. The books of what is created balance, and of what is funded if no input came twice. -/
theorem books_balance (w : WalletState Dest) (policy : Policy) (draws : ℕ → Draws) (back : Option ℕ) :
    (∀ request, createTransaction w policy request draws back ≠ .error .fuel ∧
      ∀ created, createTransaction w policy request draws back = .ok created → Balanced w policy request created) ∧
    ∀ tx includeWatching, (tx.vin.map prevout).Nodup →
      ∀ funded, fundTransaction w policy draws back tx includeWatching = .ok funded → Funded w tx funded := by
  refine ⟨fun request => ⟨createTransaction_ends w policy request draws back, fun created => ?_⟩, ?_⟩
  · exact createTransaction_balanced
  · exact fun tx includeWatching distinct funded => fundTransaction_funded distinct

def payment (hash : Uint256) (nValue : CAmount) : CWalletTx where
  tx := { hash := hash, vin := [{ prevout := ⟨5, 0⟩ }], vout := [⟨nValue, [0x51]⟩] }
  hashBlock := 9
  nIndex := 0
  strFromAccount := ""

def twoCoins : WalletState ℕ where
  node :=
    { nHeight := 10
      heightOf := fun hash => if hash = 9 then some 4 else none
      adjustedTime := 0
      inMempool := fun _ => false
      bSpendZeroConfChange := true }
  keys := { isMine := fun _ => .spendable, destination := fun _ => none, mapAddressBook := [] }
  mapWallet := [payment 1 1, payment 2 50]
  setLockedCoins := ∅
  solvable _ := false
  keyed := by decide
  money := by decide

def cheapPolicy : Policy where
  payTxFee := .ofPerK 1
  minTxFee := .ofPerK 1
  fallbackFee := .ofPerK 1
  minRelayTxFee := .ofPerK 1
  estimateSmartFee := .ofPerK 1
  maxTxFee := 1000000
  payTxFee_le := by decide
  minTxFee_le := by decide
  minRelayTxFee_le := by decide

def plainDraws : Draws where
  choices _ := plainChoices
  arrange := id
  arrange_perm _ := .refl _
  reservedScript := some []
  changeDraw := 0
  produceSignature _ _ _ := some []
  dummySignature _ := some []

theorem exists_of_map {ε α β : Type} {result : Except ε α} {f : α → β} {value : β} (maps : result.toOption.map f = some value) :
    ∃ inner, result = .ok inner ∧ f inner = value := by
  cases result with
  | error _ => cases maps
  | ok inner => exact ⟨inner, rfl, some.inj maps⟩

/-- One recipient gets its amount and the other one pays the fee. -/
def twoRecipients : Request where
  vecSend := [⟨[0x52], 20, false⟩, ⟨[0x53], 10, true⟩]
  coinControl := none
  sign := true

def once : CMutableTransaction := ⟨[{ prevout := ⟨2, 0⟩ }], [⟨20, []⟩], 0⟩

theorem books_balance_twoCoins :
    (∃ created, createTransaction twoCoins cheapPolicy twoRecipients (fun _ => plainDraws) none = .ok created ∧
      outputsTotal created.txNew = 49 ∧ Balanced twoCoins cheapPolicy twoRecipients created) ∧
    ∃ funded, fundTransaction twoCoins cheapPolicy (fun _ => plainDraws) none once false = .ok funded ∧
      outputsTotal funded.1 = 49 ∧ Funded twoCoins once funded := by
  have creates : (createTransaction twoCoins cheapPolicy twoRecipients (fun _ => plainDraws) none).toOption.map
      (fun created => outputsTotal created.txNew) = some 49 := by decide +kernel
  have funds : (fundTransaction twoCoins cheapPolicy (fun _ => plainDraws) none once false).toOption.map
      (fun funded => outputsTotal funded.1) = some 49 := by decide +kernel
  obtain ⟨created, made, sum⟩ := exists_of_map creates
  obtain ⟨funded, done, sum'⟩ := exists_of_map funds
  obtain ⟨both, fund⟩ := books_balance twoCoins cheapPolicy (fun _ => plainDraws) none
  exact ⟨⟨created, made, sum, (both twoRecipients).2 created made⟩, funded, done, sum', fund once false (by decide) funded done⟩

def twice : CMutableTransaction := ⟨[{ prevout := ⟨2, 0⟩ }, { prevout := ⟨2, 0⟩ }], [⟨20, []⟩], 0⟩

theorem twice_books : (fundTransaction twoCoins cheapPolicy (fun _ => plainDraws) none twice false).toOption.map
    (fun funded => (inputsTotal twoCoins funded.1, outputsTotal funded.1, funded.2.1)) = some (100, 49, 1) := by
  decide +kernel

/-- A repeated input is not balanced. -/
theorem books_unbalanced : ∃ funded,
    fundTransaction twoCoins cheapPolicy (fun _ => plainDraws) none twice false = .ok funded ∧ ¬Funded twoCoins twice funded := by
  obtain ⟨funded, funds, books⟩ := exists_of_map twice_books
  refine ⟨funded, funds, fun balanced => ?_⟩
  have balance := balanced.books
  obtain ⟨inputs, rest⟩ := Prod.mk.inj books
  obtain ⟨outputs, fee⟩ := Prod.mk.inj rest
  rw [inputs, outputs, fee] at balance
  cases balance

end Longcoin.CreateTransaction

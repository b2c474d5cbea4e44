import Longcoin.Wallet
import Longcoin.Library.DoubleCount
import Mathlib.Data.List.Flatten
import Mathlib.Tactic.Linarith

/-! Three computations of the balance of a wallet whose transactions are all confirmed: unspent outputs
(`GetBalance`), amounts received and sent (`getbalance "*"`) and the balances of the accounts
(`listaccounts`). -/

namespace Longcoin.WalletBalance
open Primitives Validation ConnectBlock Wallet Library.DoubleCount COutPoint CAccountingEntry COutputEntry List Option Bool

variable {Dest : Type}

def spentOutpoints (wallet : List CWalletTx) : List COutPoint :=
  (wallet.filter fun wtx => !wtx.tx.isCoinBase).flatMap fun wtx => wtx.tx.vin.map CTxIn.prevout

/-- A wallet without watch-only scripts whose transactions are all in the active chain, with what the
chain accepts: checked transactions that have different ids, spend no output twice and no coinbase
before it is mature, and whose inputs are in the money range. The null inputs of coinbases spend nothing. -/
structure Confirmed (node : NodeView) (keys : KeyStore Dest) (wallet : List CWalletTx) : Prop where
  noWatchOnly : ∀ script, keys.isMine script ≠ .watchOnly
  depth : ∀ wtx ∈ wallet, 1 ≤ getDepthInMainChain node wtx
  hashes : (wallet.map fun wtx => wtx.tx.hash).Nodup
  nonzero : ∀ wtx ∈ wallet, wtx.tx.hash ≠ 0
  checked : ∀ wtx ∈ wallet, Checked wtx.tx
  spentOnce : (spentOutpoints wallet).Nodup
  paid : ∀ wtx ∈ wallet, (wtx.tx.vin.map fun txin => debitOfInput keys wallet ISMINE_SPENDABLE txin.prevout).sum ≤ MAX_MONEY
  matured : ∀ wtx ∈ wallet, ∀ txin ∈ wtx.tx.vin, ∀ prev ∈ wallet, prev.tx.hash = txin.prevout.hash →
    prev.tx.isCoinBase = true → COINBASE_MATURITY ≤ getDepthInMainChain node prev - getDepthInMainChain node wtx

def own (keys : KeyStore Dest) (txout : CTxOut) : CAmount :=
  if (keys.isMine txout.scriptPubKey).passes ISMINE_SPENDABLE then txout.nValue else 0

/-- What a transaction pays to the wallet, what it spends of the wallet's outputs, and what of its own
outputs is still unspent. -/
def credit (keys : KeyStore Dest) (wtx : CWalletTx) : CAmount := (wtx.tx.vout.map (own keys)).sum

def debit (keys : KeyStore Dest) (wallet : List CWalletTx) (wtx : CWalletTx) : CAmount :=
  (wtx.tx.vin.map fun txin => debitOfInput keys wallet ISMINE_SPENDABLE txin.prevout).sum

def unspent (node : NodeView) (keys : KeyStore Dest) (wallet : List CWalletTx) (wtx : CWalletTx) : CAmount :=
  ((wtx.tx.vout.zipIdx.filter fun out => !isSpent node wallet ⟨wtx.tx.hash, out.2⟩).map fun out => own keys out.1).sum

variable {node : NodeView} {keys : KeyStore Dest} {wallet : List CWalletTx} {wtx : CWalletTx}

theorem foldlM_sumInRange (amounts : List CAmount) (start : CAmount) (nonneg : ∀ amount ∈ amounts, 0 ≤ amount)
    (started : 0 ≤ start) (small : start + amounts.sum ≤ MAX_MONEY) :
    amounts.foldlM (fun total amount => if moneyRange (total + amount) then some (total + amount) else none) start =
      some (start + amounts.sum) := by
  induction amounts generalizing start with
  | nil => rw [sum_nil, Int.add_zero]; rfl
  | cons amount rest ih =>
    have first := nonneg amount mem_cons_self
    have others : ∀ other ∈ rest, 0 ≤ other := (forall_mem_cons.mp nonneg).2
    have tail : 0 ≤ rest.sum := sum_nonneg others
    rw [sum_cons] at small ⊢
    have inRange : moneyRange (start + amount) = true := (moneyRange_iff _).mpr ⟨by linarith, by linarith⟩
    rw [foldlM_cons, if_pos inRange]
    change rest.foldlM _ (start + amount) = _
    rw [ih (start + amount) others (by linarith) (by linarith), add_assoc]

theorem sumInRange_eq {amounts : List CAmount} (nonneg : ∀ amount ∈ amounts, 0 ≤ amount) (small : amounts.sum ≤ MAX_MONEY) :
    sumInRange amounts = some amounts.sum := by
  rw [sumInRange, foldlM_sumInRange amounts 0 nonneg (le_refl 0) (by rw [zero_add]; exact small), zero_add]

theorem mapM_some {α β : Type} (entries : List α) (f : α → Option β) (g : α → β)
    (each : ∀ entry ∈ entries, f entry = some (g entry)) : entries.mapM f = some (entries.map g) := by
  induction entries with
  | nil => rfl
  | cons entry rest ih =>
    rw [mapM_cons, each entry mem_cons_self, ih (forall_mem_cons.mp each).2]
    rfl

variable {txout : CTxOut}

theorem own_nonneg (amount : 0 ≤ txout.nValue) : 0 ≤ own keys txout := by
  rw [own]
  split
  · exact amount
  · exact le_refl 0

theorem own_le (amount : 0 ≤ txout.nValue) : own keys txout ≤ txout.nValue := by
  rw [own]
  split
  · exact le_refl _
  · exact amount

theorem map_zipIdx {β : Type} (vout : List CTxOut) (f : CTxOut → β) : (vout.zipIdx.map fun out => f out.1) = vout.map f := by
  have same := congrArg (List.map f) (List.zipIdx_map_fst 0 vout)
  rw [List.map_map] at same
  exact same

theorem mem_of_mem_zipIdx {vout : List CTxOut} {out : CTxOut × Nat} (member : out ∈ vout.zipIdx) : out.1 ∈ vout := by
  have inside := mem_map_of_mem (f := Prod.fst) member
  rw [zipIdx_map_fst] at inside
  exact inside

theorem sum_own_le (checked : Checked wtx.tx) {outs : List (CTxOut × Nat)} (part : outs.Sublist wtx.tx.vout.zipIdx) :
    (outs.map fun out => own keys out.1).sum ≤ MAX_MONEY := by
  have nonneg : ∀ value ∈ wtx.tx.vout.zipIdx.map (fun out => own keys out.1), 0 ≤ value := by
    intro value member
    obtain ⟨out, inside, rfl⟩ := mem_map.mp member
    exact own_nonneg (checked.amounts out.1 (mem_of_mem_zipIdx inside)).1
  calc (outs.map fun out => own keys out.1).sum
      ≤ (wtx.tx.vout.zipIdx.map fun out => own keys out.1).sum := (part.map _).sum_le_sum nonneg
    _ = (wtx.tx.vout.map (own keys)).sum := by rw [map_zipIdx]
    _ ≤ (wtx.tx.vout.map CTxOut.nValue).sum := sum_le_sum fun out member => own_le (checked.amounts out member).1
    _ ≤ MAX_MONEY := checked.total

theorem debitOfInput_nonneg (confirmed : Confirmed node keys wallet) (prevout : COutPoint) :
    0 ≤ debitOfInput keys wallet ISMINE_SPENDABLE prevout := by
  rw [debitOfInput]
  cases found : (findTx wallet prevout.hash).bind fun prev => prev.tx.vout[prevout.n]? with
  | none => exact le_refl 0
  | some txout =>
    obtain ⟨prev, there, output⟩ := bind_eq_some_iff.mp found
    exact own_nonneg ((confirmed.checked prev (mem_of_find?_eq_some there)).amounts txout (mem_of_getElem? output)).1

theorem getDebit_eq (confirmed : Confirmed node keys wallet) (member : wtx ∈ wallet) :
    getDebit keys wallet ISMINE_SPENDABLE wtx = some (debit keys wallet wtx) := by
  have sum : debitOfTx keys wallet ISMINE_SPENDABLE wtx.tx = some (debit keys wallet wtx) := by
    refine sumInRange_eq ?_ (confirmed.paid wtx member)
    intro amount inside
    obtain ⟨txin, -, rfl⟩ := mem_map.mp inside
    exact debitOfInput_nonneg confirmed _
  change (debitOfTx keys wallet ISMINE_SPENDABLE wtx.tx).bind (fun debit => Option.map (debit + ·) (some 0)) = _
  rw [sum, bind_some, map_some, add_zero]

theorem debit_nonneg (confirmed : Confirmed node keys wallet) : 0 ≤ debit keys wallet wtx := by
  refine sum_nonneg fun amount inside => ?_
  obtain ⟨txin, -, rfl⟩ := mem_map.mp inside
  exact debitOfInput_nonneg confirmed _

theorem creditOfOutput_eq (checked : Checked wtx.tx) (member : txout ∈ wtx.tx.vout) :
    creditOfOutput keys ISMINE_SPENDABLE txout = some (own keys txout) :=
  if_pos ((moneyRange_iff _).mpr (checked.amounts txout member))

theorem availableCredit_eq (checked : Checked wtx.tx) :
    availableCredit node keys wallet ISMINE_SPENDABLE wtx = some (unspent node keys wallet wtx) := by
  have part := filter_sublist (p := fun out : CTxOut × Nat => !isSpent node wallet ⟨wtx.tx.hash, out.2⟩) (l := wtx.tx.vout.zipIdx)
  rw [availableCredit, mapM_some _ _ (fun out => own keys out.1) fun out inside =>
    creditOfOutput_eq checked (mem_of_mem_zipIdx (part.subset inside)), bind_some]
  refine sumInRange_eq ?_ (sum_own_le checked part)
  intro amount inside
  obtain ⟨out, there, rfl⟩ := mem_map.mp inside
  exact own_nonneg (checked.amounts out.1 (mem_of_mem_zipIdx (part.subset there))).1

theorem passes_of_isChange [DecidableEq Dest] (confirmed : Confirmed node keys wallet) (changed : isChange keys txout = true) :
    (keys.isMine txout.scriptPubKey).passes ISMINE_SPENDABLE = true := by
  rw [isChange, and_eq_true, bne_iff_ne] at changed
  cases mine : keys.isMine txout.scriptPubKey with
  | no => exact absurd mine changed.1
  | watchOnly => exact absurd mine (confirmed.noWatchOnly _)
  | spendable => rfl

theorem sum_entries (outs : List (CTxOut × Nat)) :
    ((outs.map (outputEntry keys)).map amount).sum = (outs.map fun out => out.1.nValue).sum := by
  rw [List.map_map]
  rfl

theorem sum_own (outs : List (CTxOut × Nat)) : (outs.map fun out => own keys out.1).sum =
      ((outs.filter fun out => (keys.isMine out.1.scriptPubKey).passes ISMINE_SPENDABLE).map fun out => out.1.nValue).sum := by
  rw [← sum_filter_of_zero outs (fun out => (keys.isMine out.1.scriptPubKey).passes ISMINE_SPENDABLE)]
  · refine congrArg sum (map_congr_left fun out member => ?_)
    exact if_pos (mem_filter.mp member).2
  · intro out _ foreign
    rw [own, foreign]
    rfl

theorem sum_change [DecidableEq Dest] (confirmed : Confirmed node keys wallet) (outs : List (CTxOut × Nat)) :
    ((outs.filter fun out => isChange keys out.1).map fun out => own keys out.1).sum =
      ((outs.filter fun out => isChange keys out.1).map fun out => out.1.nValue).sum := by
  refine congrArg sum (map_congr_left fun out member => ?_)
  exact if_pos (passes_of_isChange confirmed (mem_filter.mp member).2)

theorem getAmounts_net [DecidableEq Dest] (confirmed : Confirmed node keys wallet) (member : wtx ∈ wallet) :
    ∃ amounts, getAmounts keys wallet ISMINE_SPENDABLE wtx = some amounts ∧
      (amounts.listReceived.map amount).sum - (amounts.listSent.map amount).sum - amounts.nFee =
        credit keys wtx - debit keys wallet wtx := by
  have creditEq : credit keys wtx = (wtx.tx.vout.zipIdx.map fun out => own keys out.1).sum := by
    rw [credit, map_zipIdx]
  rw [getAmounts, getDebit_eq confirmed member, Option.bind_some]
  by_cases paid : 0 < debit keys wallet wtx
  · have valueOut : (getValueOut wtx.tx).toOption = some (wtx.tx.vout.map CTxOut.nValue).sum := by
      rw [(confirmed.checked wtx member).valueOut]
      rfl
    rw [if_pos paid, valueOut, Option.map_some, Option.map_some]
    refine ⟨_, rfl, ?_⟩
    simp only [paid, decide_true, Bool.true_and, if_true, sum_entries]
    have all := sum_filter_add wtx.tx.vout.zipIdx (fun out => isChange keys out.1) fun out => out.1.nValue
    have owned := sum_filter_add wtx.tx.vout.zipIdx (fun out => isChange keys out.1) fun out => own keys out.1
    rw [sum_change confirmed, sum_own (wtx.tx.vout.zipIdx.filter fun out => !isChange keys out.1), ← creditEq] at owned
    rw [map_zipIdx] at all
    linarith
  · have nothing : debit keys wallet wtx = 0 := le_antisymm (not_lt.mp paid) (debit_nonneg confirmed)
    rw [if_neg paid, Option.map_some]
    refine ⟨_, rfl, ?_⟩
    simp only [paid, decide_false, Bool.false_and, Bool.not_false, if_false, List.filter_true, sum_entries, List.map_nil,
      List.sum_nil]
    rw [creditEq, sum_own, nothing, sub_zero, sub_zero]

/-- Coinbase transactions that are mature, and all others. -/
def mature (node : NodeView) (wtx : CWalletTx) : Bool := !decide (0 < getBlocksToMaturity node wtx)

theorem depth_nonneg (confirmed : Confirmed node keys wallet) (member : wtx ∈ wallet) :
    ¬ getDepthInMainChain node wtx < 0 := by
  have depth := confirmed.depth wtx member
  omega

theorem starTurn_eq [DecidableEq Dest] (confirmed : Confirmed node keys wallet) (member : wtx ∈ wallet) (nBalance : CAmount) :
    starTurn node keys wallet 1 nBalance wtx =
      some (nBalance + if checkFinalTx node wtx.tx && mature node wtx then credit keys wtx - debit keys wallet wtx else 0) := by
  obtain ⟨amounts, listed, net⟩ := getAmounts_net confirmed member
  rw [starTurn, decide_eq_false (depth_nonneg confirmed member), Bool.or_false, mature]
  cases checkFinalTx node wtx.tx with
  | false => simp only [Bool.not_false, Bool.true_or, if_true, Bool.false_and, Bool.false_eq_true, if_false, add_zero]
  | true =>
    cases decide (0 < getBlocksToMaturity node wtx) with
    | true => simp only [Bool.or_true, if_true, Bool.not_true, Bool.and_false, Bool.false_eq_true, if_false, add_zero]
    | false =>
      simp only [Bool.not_true, Bool.or_false, Bool.false_eq_true, if_false, Bool.not_false, Bool.and_true, if_true]
      rw [listed, Option.map_some, if_pos (confirmed.depth wtx member), ← net]
      congr 1
      linarith

theorem foldlM_add {α : Type} (entries : List α) (f : CAmount → α → Option CAmount) (g : α → CAmount) (start : CAmount)
    (each : ∀ entry ∈ entries, ∀ total, f total entry = some (total + g entry)) :
    entries.foldlM f start = some (start + (entries.map g).sum) := by
  induction entries generalizing start with
  | nil => rw [map_nil, sum_nil, add_zero]; rfl
  | cons entry rest ih =>
    rw [foldlM_cons, each entry mem_cons_self, map_cons, sum_cons, ← add_assoc]
    exact ih (start + g entry) (forall_mem_cons.mp each).2

theorem sum_ite_eq_filter {α : Type} (entries : List α) (p : α → Bool) (g : α → CAmount) :
    (entries.map fun entry => if p entry then g entry else 0).sum = ((entries.filter p).map g).sum := by
  rw [← sum_filter_of_zero entries p]
  · refine congrArg sum (map_congr_left fun entry member => ?_)
    exact if_pos (mem_filter.mp member).2
  · intro entry _ out
    rw [out]
    rfl

section

variable (confirmed : Confirmed node keys wallet)
include confirmed

theorem getBalanceStar_eq [DecidableEq Dest] :
    getBalanceStar node keys wallet 1 = some ((wallet.filter fun wtx => checkFinalTx node wtx.tx && mature node wtx).map
      fun wtx => credit keys wtx - debit keys wallet wtx).sum := by
  rw [getBalanceStar, foldlM_add wallet _ _ 0 fun wtx member nBalance => starTurn_eq confirmed member nBalance, zero_add,
    sum_ite_eq_filter]

theorem getAvailableCredit_eq (member : wtx ∈ wallet) :
    getAvailableCredit node keys wallet wtx = some (if mature node wtx then unspent node keys wallet wtx else 0) := by
  rw [getAvailableCredit, availableCredit_eq (confirmed.checked wtx member), mature]
  by_cases immature : 0 < getBlocksToMaturity node wtx
  · have coinBase : wtx.tx.isCoinBase = true := by
      by_contra other
      rw [getBlocksToMaturity, if_neg other] at immature
      exact absurd immature (lt_irrefl 0)
    simp only [coinBase, immature, decide_true, Bool.and_self, if_true, Bool.not_true, Bool.false_eq_true, if_false]
  · simp only [immature, decide_false, Bool.and_false, Bool.false_eq_true, if_false, Bool.not_false, if_true]

theorem isTrusted_eq (member : wtx ∈ wallet) : isTrusted node keys wallet wtx = checkFinalTx node wtx.tx := by
  rw [isTrusted, decide_eq_true (confirmed.depth wtx member), Bool.true_or, Bool.and_true]

theorem getBalance_eq :
    getBalance node keys wallet = some ((wallet.filter fun wtx => checkFinalTx node wtx.tx && mature node wtx).map
      (unspent node keys wallet)).sum := by
  have trusted : wallet.filter (isTrusted node keys wallet) = wallet.filter fun wtx => checkFinalTx node wtx.tx :=
    List.filter_congr fun wtx member => isTrusted_eq confirmed member
  rw [getBalance, trusted, mapM_some _ _ (fun wtx => if mature node wtx then unspent node keys wallet wtx else 0) fun wtx inside =>
    getAvailableCredit_eq confirmed (List.mem_filter.mp inside).1, Option.map_some, sum_ite_eq_filter, List.filter_filter]
  exact congrArg (fun part => some (List.map _ part).sum) (List.filter_congr fun wtx _ => Bool.and_comm _ _)

end

def balances (mapAccountBalances : List (String × CAmount)) : CAmount := (mapAccountBalances.map Prod.snd).sum

theorem balances_change_add (amount : CAmount) (name : String) (entries : List (String × CAmount)) :
    balances (change (· + amount) name entries) = balances entries + amount := by
  rw [balances, balances]
  induction entries with
  | nil => simp [change]
  | cons entry rest ih =>
    rw [change]
    split
    · rw [map_cons, sum_cons, map_cons, sum_cons]
      linarith
    · rw [map_cons, sum_cons, map_cons, sum_cons, ih]
      linarith

theorem balances_change_sub (amount : CAmount) (name : String) (entries : List (String × CAmount)) :
    balances (change (· - amount) name entries) = balances entries - amount := by
  have added := balances_change_add (-amount) name entries
  simp only [← sub_eq_add_neg] at added
  exact added

theorem balances_foldl {α : Type} (items : List α) (name : α → String) (amount : α → CAmount)
    (entries : List (String × CAmount)) :
    balances (items.foldl (fun entries item => change (· + amount item) (name item) entries) entries) =
      balances entries + (items.map amount).sum := by
  induction items generalizing entries with
  | nil => rw [foldl_nil, map_nil, sum_nil, add_zero]
  | cons item rest ih => rw [foldl_cons, ih, balances_change_add, map_cons, sum_cons, add_assoc]

theorem balances_foldl_sub {α : Type} (items : List α) (name : String) (amount : α → CAmount)
    (entries : List (String × CAmount)) :
    balances (items.foldl (fun entries item => change (· - amount item) name entries) entries) =
      balances entries - (items.map amount).sum := by
  induction items generalizing entries with
  | nil => rw [foldl_nil, map_nil, sum_nil, sub_zero]
  | cons item rest ih => rw [foldl_cons, ih, balances_change_sub, map_cons, sum_cons, sub_sub]

theorem balances_named {α : Type} (items : List α) (name : α → String) (entries : List (String × CAmount))
    (zero : ∀ entry ∈ entries, entry.2 = 0) :
    ∀ entry ∈ items.foldl (fun entries item => change (fun _ => 0) (name item) entries) entries, entry.2 = 0 := by
  have one (entries : List (String × CAmount)) (zero : ∀ entry ∈ entries, entry.2 = 0) (account : String) :
      ∀ entry ∈ change (fun _ => 0) account entries, entry.2 = 0 := by
    induction entries with
    | nil =>
      intro entry member
      rw [change, mem_singleton] at member
      rw [member]
    | cons first rest ih =>
      intro entry member
      rw [change] at member
      split at member
      · rcases mem_cons.mp member with rfl | later
        · rfl
        · exact zero entry (mem_cons_of_mem _ later)
      · rcases mem_cons.mp member with rfl | later
        · exact zero _ mem_cons_self
        · exact ih (forall_mem_cons.mp zero).2 entry later
  induction items generalizing entries with
  | nil => exact zero
  | cons item rest ih => exact ih _ (one entries zero (name item))

theorem balances_eq_zero {entries : List (String × CAmount)} (zero : ∀ entry ∈ entries, entry.2 = 0) : balances entries = 0 := by
  refine sum_eq_zero fun value member => ?_
  obtain ⟨entry, inside, rfl⟩ := mem_map.mp member
  exact zero entry inside

theorem accountsTurn_eq [DecidableEq Dest] (confirmed : Confirmed node keys wallet) (member : wtx ∈ wallet) (entries : List (String × CAmount)) :
    ∃ entries', accountsTurn node keys wallet 1 entries wtx = some entries' ∧
      balances entries' = balances entries + if mature node wtx then credit keys wtx - debit keys wallet wtx else 0 := by
  obtain ⟨amounts, listed, net⟩ := getAmounts_net confirmed member
  rw [accountsTurn, decide_eq_false (depth_nonneg confirmed member), Bool.or_false, mature]
  cases decide (0 < getBlocksToMaturity node wtx) with
  | true => exact ⟨entries, if_pos rfl, by simp⟩
  | false =>
    simp only [Bool.false_eq_true, if_false, Bool.not_false, if_true]
    rw [listed, Option.map_some]
    refine ⟨_, rfl, ?_⟩
    simp only [confirmed.depth wtx member, if_true]
    rw [balances_foldl, balances_foldl_sub, balances_change_sub]
    linarith

theorem accounts_fold [DecidableEq Dest] (confirmed : Confirmed node keys wallet) (part : List CWalletTx) (inside : ∀ wtx ∈ part, wtx ∈ wallet)
    (entries : List (String × CAmount)) : ∃ entries', part.foldlM (accountsTurn node keys wallet 1) entries = some entries' ∧
      balances entries' = balances entries +
        ((part.filter (mature node)).map fun wtx => credit keys wtx - debit keys wallet wtx).sum := by
  induction part generalizing entries with
  | nil => exact ⟨entries, rfl, by simp⟩
  | cons wtx rest ih =>
    obtain ⟨next, turned, first⟩ := accountsTurn_eq confirmed (inside wtx mem_cons_self) entries
    obtain ⟨last, folded, others⟩ := ih (forall_mem_cons.mp inside).2 next
    refine ⟨last, ?_, ?_⟩
    · rw [foldlM_cons, turned]
      exact folded
    · rw [others, first, filter_cons]
      split
      · rw [map_cons, sum_cons]
        linarith
      · linarith

/-- The accounting entries of complete calls of `movecmd`, each from one account to another. -/
def runMoves (moves : List (String × String × CAmount)) : List CAccountingEntry :=
  moves.foldl (fun laccentries move => movecmd laccentries move.1 move.2.1 move.2.2) []

theorem sum_moves (moves : List (String × String × CAmount)) : ((runMoves moves).map nCreditDebit).sum = 0 := by
  have whole : ∀ laccentries : List CAccountingEntry, (laccentries.map nCreditDebit).sum = 0 →
      ((moves.foldl (fun laccentries move => movecmd laccentries move.1 move.2.1 move.2.2) laccentries).map
        nCreditDebit).sum = 0 := by
    induction moves with
    | nil => exact fun _ zero => zero
    | cons move rest ih =>
      intro laccentries zero
      refine ih _ ?_
      simp [movecmd, zero]
  exact whole [] rfl

theorem listAccounts_eq [DecidableEq Dest] (confirmed : Confirmed node keys wallet) (mine : Option Dest → Bool)
    (moves : List (String × String × CAmount)) : (listAccounts node keys mine wallet (runMoves moves) 1).map balances =
      some ((wallet.filter (mature node)).map fun wtx => credit keys wtx - debit keys wallet wtx).sum := by
  have start := balances_eq_zero (balances_named (keys.mapAddressBook.filter fun entry => mine entry.1) Prod.snd []
    fun entry member => absurd member not_mem_nil)
  obtain ⟨last, folded, total⟩ := accounts_fold confirmed wallet (fun _ member => member) _
  rw [start, zero_add] at total
  rw [listAccounts]
  change ((wallet.foldlM (accountsTurn node keys wallet 1) _).map _).map balances = _
  rw [folded, map_some, map_some, balances_foldl, sum_moves, add_zero, total]

def outpoints (wallet : List CWalletTx) : List COutPoint :=
  wallet.flatMap fun wtx => wtx.tx.vout.zipIdx.map fun out => ⟨wtx.tx.hash, out.2⟩

section

variable (confirmed : Confirmed node keys wallet)
include confirmed

theorem isSpent_eq (outpoint : COutPoint) : isSpent node wallet outpoint = decide (outpoint ∈ spentOutpoints wallet) := by
  rw [Bool.eq_iff_iff, decide_eq_true_eq, isSpent, spentOutpoints, List.any_eq_true, List.mem_flatMap]
  constructor
  · rintro ⟨wtx, member, spends⟩
    simp only [Bool.and_eq_true, Bool.not_eq_true', List.any_eq_true, beq_iff_eq] at spends
    obtain ⟨⟨other, txin, inside, same⟩, -⟩ := spends
    exact ⟨wtx, List.mem_filter.mpr ⟨member, by rw [other]; rfl⟩, List.mem_map.mpr ⟨txin, inside, same⟩⟩
  · rintro ⟨wtx, member, inside⟩
    obtain ⟨there, other⟩ := List.mem_filter.mp member
    obtain ⟨txin, input, same⟩ := List.mem_map.mp inside
    have depth := confirmed.depth wtx there
    refine ⟨wtx, there, ?_⟩
    rw [other, Bool.true_and, Bool.and_eq_true, List.any_eq_true]
    refine ⟨⟨txin, input, beq_iff_eq.mpr same⟩, ?_⟩
    rw [decide_eq_true (show 0 < getDepthInMainChain node wtx by omega), Bool.true_or]

theorem findTx_of_mem (member : wtx ∈ wallet) : findTx wallet wtx.tx.hash = some wtx := by
  have hashes := confirmed.hashes
  clear confirmed
  rw [findTx]
  induction wallet with
  | nil => cases member
  | cons first rest ih =>
    rw [map_cons, nodup_cons] at hashes
    rw [find?_cons]
    rcases mem_cons.mp member with rfl | later
    · rw [beq_self_eq_true]
    · have different : (first.tx.hash == wtx.tx.hash) = false := by
        rw [beq_eq_false_iff_ne]
        intro same
        exact hashes.1 (mem_map.mpr ⟨wtx, later, same.symm⟩)
      rw [different]
      exact ih later hashes.2

theorem debitOfInput_own (member : wtx ∈ wallet) {out : CTxOut × Nat} (inside : out ∈ wtx.tx.vout.zipIdx) :
    debitOfInput keys wallet ISMINE_SPENDABLE ⟨wtx.tx.hash, out.2⟩ = own keys out.1 := by
  have there : wtx.tx.vout[out.2]? = some out.1 := mem_zipIdx_iff_getElem?.mp inside
  rw [debitOfInput, findTx_of_mem confirmed member, bind_some, there, elim_some, own]

theorem outpoints_nodup : (outpoints wallet).Nodup := by
  have hashes := confirmed.hashes
  clear confirmed
  induction wallet with
  | nil => exact nodup_nil
  | cons first rest ih =>
    rw [map_cons, nodup_cons] at hashes
    rw [outpoints, flatMap_cons, nodup_append]
    refine ⟨?_, ih hashes.2, ?_⟩
    · have positions : (first.tx.vout.zipIdx.map Prod.snd).Nodup := by
        rw [zipIdx_map_snd]
        exact nodup_range'
      have mapped := positions.map (f := fun n => (⟨first.tx.hash, n⟩ : COutPoint)) fun one two same => congrArg n same
      rw [List.map_map] at mapped
      exact mapped
    · intro one inFirst two inRest same
      obtain ⟨out, -, rfl⟩ := mem_map.mp inFirst
      obtain ⟨other, member, inside⟩ := mem_flatMap.mp inRest
      obtain ⟨out', -, rfl⟩ := mem_map.mp inside
      exact hashes.1 (List.mem_map.mpr ⟨other, member, (congrArg hash same).symm⟩)

end

theorem debitOfInput_foreign {prevout : COutPoint} (foreign : prevout ∉ outpoints wallet) :
    debitOfInput keys wallet ISMINE_SPENDABLE prevout = 0 := by
  rw [debitOfInput]
  cases found : (findTx wallet prevout.hash).bind fun prev => prev.tx.vout[prevout.n]? with
  | none => rfl
  | some txout =>
    obtain ⟨prev, there, output⟩ := bind_eq_some_iff.mp found
    have hash : prev.tx.hash = prevout.hash := by
      have same := find?_some there
      exact beq_iff_eq.mp same
    refine absurd (List.mem_flatMap.mpr ⟨prev, List.mem_of_find?_eq_some there, List.mem_map.mpr ⟨(txout, prevout.n), ?_, ?_⟩⟩) foreign
    · exact List.mem_zipIdx_iff_getElem?.mpr output
    · rw [hash]

def spentValue (node : NodeView) (keys : KeyStore Dest) (wallet : List CWalletTx) (wtx : CWalletTx) : CAmount :=
  ((wtx.tx.vout.zipIdx.filter fun out => isSpent node wallet ⟨wtx.tx.hash, out.2⟩).map fun out => own keys out.1).sum

theorem credit_split : credit keys wtx = spentValue node keys wallet wtx + unspent node keys wallet wtx := by
  rw [credit, ← map_zipIdx]
  exact sum_filter_add _ _ _

theorem sum_spentValue (confirmed : Confirmed node keys wallet) : (wallet.map (spentValue node keys wallet)).sum =
      ((spentOutpoints wallet).map (debitOfInput keys wallet ISMINE_SPENDABLE)).sum := by
  have used := sum_used (outpoints_nodup confirmed) confirmed.spentOnce
    (debitOfInput keys wallet ISMINE_SPENDABLE) fun key _ absent => debitOfInput_foreign absent
  rw [← used, outpoints, List.filter_flatMap, sum_flatMap]
  refine congrArg List.sum (List.map_congr_left fun wtx member => ?_)
  rw [spentValue, List.filter_map, List.map_map]
  have same : (wtx.tx.vout.zipIdx.filter fun out => isSpent node wallet ⟨wtx.tx.hash, out.2⟩) =
      wtx.tx.vout.zipIdx.filter ((fun key => decide (key ∈ spentOutpoints wallet)) ∘ fun out => ⟨wtx.tx.hash, out.2⟩) :=
    List.filter_congr fun out _ => isSpent_eq confirmed _
  rw [same]
  refine congrArg List.sum (List.map_congr_left fun out inside => ?_)
  exact (debitOfInput_own confirmed member (List.mem_filter.mp inside).1).symm

theorem debit_coinBase (confirmed : Confirmed node keys wallet) (coinBase : wtx.tx.isCoinBase = true) :
    debit keys wallet wtx = 0 := by
  refine sum_eq_zero fun value member => ?_
  obtain ⟨txin, inside, rfl⟩ := mem_map.mp member
  have null : txin.prevout.isNull = true := by
    rw [CTransaction.isCoinBase] at coinBase
    split at coinBase
    · next input single =>
      rw [single, mem_singleton] at inside
      rw [inside]
      exact coinBase
    · cases coinBase
  rw [isNull, and_eq_true, beq_iff_eq] at null
  refine debitOfInput_foreign fun there => ?_
  obtain ⟨prev, known, output⟩ := mem_flatMap.mp there
  obtain ⟨out, -, same⟩ := mem_map.mp output
  exact confirmed.nonzero prev known ((congrArg hash same).trans null.1)

theorem sum_debit (confirmed : Confirmed node keys wallet) :
    (wallet.map (debit keys wallet)).sum = ((spentOutpoints wallet).map (debitOfInput keys wallet ISMINE_SPENDABLE)).sum := by
  rw [← sum_filter_of_zero wallet (fun wtx => !wtx.tx.isCoinBase), spentOutpoints, sum_flatMap]
  · refine congrArg sum (map_congr_left fun wtx _ => ?_)
    rw [debit, List.map_map]
    rfl
  · intro wtx _ coinBase
    exact debit_coinBase confirmed (by simpa using coinBase)

theorem coinBase_of_immature (immature : mature node wtx = false) : wtx.tx.isCoinBase = true := by
  by_contra other
  rw [mature, getBlocksToMaturity, if_neg other] at immature
  cases immature

theorem spentValue_immature (confirmed : Confirmed node keys wallet) (member : wtx ∈ wallet)
    (immature : mature node wtx = false) : spentValue node keys wallet wtx = 0 := by
  have coinBase := coinBase_of_immature immature
  have nothing : (wtx.tx.vout.zipIdx.filter fun out => isSpent node wallet ⟨wtx.tx.hash, out.2⟩) = [] := by
    rw [filter_eq_nil_iff]
    intro out _ spent
    rw [isSpent_eq confirmed, decide_eq_true_eq] at spent
    obtain ⟨spender, inside, input⟩ := mem_flatMap.mp spent
    obtain ⟨txin, member', same⟩ := mem_map.mp input
    have known := (mem_filter.mp inside).1
    have matured := confirmed.matured spender known txin member' wtx member (congrArg hash same).symm coinBase
    have depth := confirmed.depth spender known
    rw [mature, getBlocksToMaturity, if_pos coinBase, not_eq_false', decide_eq_true_eq] at immature
    omega
  rw [spentValue, nothing]
  rfl

theorem sum_sub {α : Type} (entries : List α) (f g : α → CAmount) :
    (entries.map fun entry => f entry - g entry).sum = (entries.map f).sum - (entries.map g).sum := by
  induction entries with
  | nil => rfl
  | cons entry rest ih =>
    rw [map_cons, sum_cons, ih, map_cons, sum_cons, map_cons, sum_cons]
    linarith

theorem sum_unspent (confirmed : Confirmed node keys wallet) :
    ((wallet.filter (mature node)).map fun wtx => credit keys wtx - debit keys wallet wtx).sum =
      ((wallet.filter (mature node)).map (unspent node keys wallet)).sum := by
  have spent : ((wallet.filter (mature node)).map (spentValue node keys wallet)).sum =
      ((wallet.filter (mature node)).map (debit keys wallet)).sum := by
    rw [sum_filter_of_zero wallet _ _ fun wtx member immature => spentValue_immature confirmed member immature,
      sum_filter_of_zero wallet _ _ fun wtx _ immature => debit_coinBase confirmed (coinBase_of_immature immature),
      sum_spentValue confirmed, sum_debit confirmed]
  have split : (wallet.filter (mature node)).map (unspent node keys wallet) =
      (wallet.filter (mature node)).map fun wtx => credit keys wtx - spentValue node keys wallet wtx := by
    refine map_congr_left fun wtx _ => ?_
    rw [@credit_split _ node keys wallet wtx]
    linarith
  rw [split, sum_sub, sum_sub, spent]

/-- Confirmed, mature transactions that the wallet does not take for final: their lock time is not past
by its clock. -/
def late (node : NodeView) (wallet : List CWalletTx) : List CWalletTx :=
  wallet.filter fun wtx => !checkFinalTx node wtx.tx && mature node wtx

theorem sum_mature (f : CWalletTx → CAmount) : ((wallet.filter (mature node)).map f).sum =
      ((wallet.filter fun wtx => checkFinalTx node wtx.tx && mature node wtx).map f).sum + ((late node wallet).map f).sum := by
  rw [sum_filter_add (wallet.filter (mature node)) (fun wtx => checkFinalTx node wtx.tx) f, List.filter_filter, List.filter_filter]
  rfl

/-- The three balances agree if and only if the transactions that are not taken for final have no
unspent output of the wallet with a value, and paid as much to it as they spent of it. -/
theorem balances_agree [DecidableEq Dest] (confirmed : Confirmed node keys wallet) (mine : Option Dest → Bool)
    (moves : List (String × String × CAmount)) :
    (∃ nBalance, getBalance node keys wallet = some nBalance ∧ getBalanceStar node keys wallet 1 = some nBalance ∧
        (listAccounts node keys mine wallet (runMoves moves) 1).map balances = some nBalance) ↔
      ((late node wallet).map (unspent node keys wallet)).sum = 0 ∧
        ((late node wallet).map (credit keys)).sum = ((late node wallet).map (debit keys wallet)).sum := by
  have whole := sum_unspent confirmed
  rw [getBalance_eq confirmed, getBalanceStar_eq confirmed, listAccounts_eq confirmed, whole, sum_mature]
  rw [sum_mature, sum_mature, sum_sub (late node wallet)] at whole
  simp only [some.injEq]
  constructor
  · rintro ⟨nBalance, unspent, star, accounts⟩
    exact ⟨by linarith, by linarith⟩
  · rintro ⟨nothing, even⟩
    exact ⟨_, rfl, by linarith, by linarith⟩

/-- Every script but `OP_1` is someone else's; no address is in the book. -/
def sampleKeys : KeyStore Nat where
  isMine script := if script = [0x51] then .spendable else .no
  destination _ := none
  mapAddressBook := []

/-- The active chain has block 100 at height 100 and block 190 at height 190. -/
def sampleNode (adjustedTime : Int) : NodeView where
  nHeight := 200
  heightOf hash := if hash = 100 then some 100 else if hash = 190 then some 190 else none
  adjustedTime := adjustedTime
  inMempool _ := false
  bSpendZeroConfChange := true

def received : CWalletTx where
  tx := { hash := 7, vin := [{ prevout := ⟨3, 0⟩ }], vout := [⟨10, [0x51]⟩] }
  hashBlock := 100
  nIndex := 1
  strFromAccount := ""

/-- It is spent with a fee of 1 back to the wallet, under a lock time. -/
def locked : CWalletTx where
  tx := { hash := 8, vin := [{ prevout := ⟨7, 0⟩, nSequence := 0 }], vout := [⟨9, [0x51]⟩], nLockTime := 1600000000 }
  hashBlock := 190
  nIndex := 1
  strFromAccount := ""

/-- A coinbase in the block of its hash. -/
def mined (hash hashBlock : Uint256) : CWalletTx where
  tx := { hash := hash, vin := [{ prevout := ⟨0, 4294967295⟩, scriptSig := [1, 2] }], vout := [⟨5, [0x51]⟩] }
  hashBlock := hashBlock
  nIndex := 0
  strFromAccount := ""

/-- The coinbase of block 100 is mature and that of block 190 is not. -/
def sampleWallet : List CWalletTx := [received, locked, mined 9 100, mined 10 190]

theorem sample_confirmed (adjustedTime : Int) : Confirmed (sampleNode adjustedTime) sampleKeys sampleWallet where
  noWatchOnly script := by
    change (if script = [0x51] then IsMineType.spendable else .no) ≠ .watchOnly
    split <;> decide
  depth := by
    change ∀ wtx ∈ sampleWallet, 1 ≤ getDepthInMainChain (sampleNode 0) wtx
    decide
  hashes := by decide
  nonzero := by decide
  checked := by
    refine forall_mem_cons.mpr ⟨?_, forall_mem_cons.mpr ⟨?_, forall_mem_cons.mpr ⟨?_, forall_mem_singleton.mpr ?_⟩⟩⟩ <;>
      exact ⟨by decide, by decide, rfl, by decide, by decide, by decide⟩
  spentOnce := by decide
  paid := by decide
  matured := by
    change ∀ wtx ∈ sampleWallet, ∀ txin ∈ wtx.tx.vin, ∀ prev ∈ sampleWallet, prev.tx.hash = txin.prevout.hash →
      prev.tx.isCoinBase = true → COINBASE_MATURITY ≤ getDepthInMainChain (sampleNode 0) prev - getDepthInMainChain (sampleNode 0) wtx
    decide

/-- With the clock past the lock time the balances agree. -/
theorem balances_agree_sample : ∃ nBalance, getBalance (sampleNode 1600000001) sampleKeys sampleWallet = some nBalance ∧
      getBalanceStar (sampleNode 1600000001) sampleKeys sampleWallet 1 = some nBalance ∧
      (listAccounts (sampleNode 1600000001) sampleKeys (fun _ => false) sampleWallet
        (runMoves [("", "savings", 4)]) 1).map balances = some nBalance :=
  (balances_agree (sample_confirmed 1600000001) (fun _ => false) [("", "savings", 4)]).mpr
    ⟨by decide, by decide⟩

/-- With a clock behind the lock time there are three different balances of the same wallet. -/
theorem lock_time_splits_balances : Confirmed (sampleNode 1599999000) sampleKeys sampleWallet ∧
      getBalance (sampleNode 1599999000) sampleKeys sampleWallet = some 5 ∧
      getBalanceStar (sampleNode 1599999000) sampleKeys sampleWallet 1 = some 15 ∧
      (listAccounts (sampleNode 1599999000) sampleKeys (fun _ => false) sampleWallet [] 1).map balances = some 14 :=
  ⟨sample_confirmed _, by decide, by decide, by decide⟩

end Longcoin.WalletBalance

import Longcoin.AddressUnspentIndex
import Longcoin.CoinsValue
import Longcoin.Library.SortedRows

/-! The address index as a ledger. Its entries are the credits and debits of the active chain, one
for each output and one for each spend, and they add up to the coins each address holds. -/

namespace Longcoin.AddressIndex
open Primitives Coins UtxoSet Validation BlockTreeDB ConnectBlock DisconnectBlock BlockEffect DisconnectEffect CAddressIndexKey List
open ActiveChain AddressUnspentIndex CoinsValue Library

abbrev Ledger := BlockTreeDB.AddressIndex

abbrev Address := Nat × Uint160

def addressOf (key : CAddressIndexKey) : Address := (key.type, key.hashBytes)

def paysTo (address : Address) (out : CTxOut) : Bool := out.scriptPubKey.address == some address

def balance (address : Address) (entries : Ledger) : CAmount :=
  ((entries.filter fun entry => addressOf entry.1 = address).map Prod.snd).sum

@[simp] theorem balance_nil (address : Address) : balance address [] = 0 := rfl

theorem balance_append (address : Address) (first second : Ledger) :
    balance address (first ++ second) = balance address first + balance address second := by
  simp [balance]

theorem balance_perm (address : Address) {first second : Ledger} (perm : first.Perm second) :
    balance address first = balance address second :=
  ((perm.filter _).map _).sum_eq

theorem balance_filterMap_cons {α : Type} (address : Address) (entry : α → Option (CAddressIndexKey × CAmount))
    (item : α) (items : List α) : balance address ((item :: items).filterMap entry) =
      balance address (entry item).toList + balance address (items.filterMap entry) := by
  rw [filterMap_cons]
  cases entry item with
  | none => simp
  | some found => exact balance_append address [found] _

theorem paysTo_spendable {address : Address} {out : CTxOut} (pays : paysTo address out = true) :
    out.scriptPubKey.isUnspendable = false :=
  spendable_of_address (beq_iff_eq.mp pays)

theorem balance_single (address : Address) (out : CTxOut) (delta : CAmount) (key : Nat × Uint160 → CAddressIndexKey)
    (keyed : ∀ pays, addressOf (key pays) = pays) :
    balance address (out.scriptPubKey.address.map fun pays => (key pays, delta)).toList =
      if paysTo address out then delta else 0 := by
  cases found : out.scriptPubKey.address with
  | none => simp [paysTo, found]
  | some pays => by_cases same : pays = address <;> simp [balance, paysTo, found, keyed, same]

section

variable (address : Address) (nHeight i : Nat)

theorem balance_receiving {tx : CTransaction} (checked : Checked tx) :
    balance address (receivingEntries nHeight i tx) = createdValue (paysTo address) tx := by
  have main (vout : List CTxOut) (k : Nat) (live : ∀ out ∈ vout, out.isNull = false) :
      balance address ((vout.zipIdx k).filterMap fun item => item.1.scriptPubKey.address.map fun pays =>
        (mk pays.1 pays.2 nHeight i tx.hash item.2 false, item.1.nValue)) =
        (vout.map fun out => if out.scriptPubKey.isUnspendable then 0 else slotValue (paysTo address) out).sum := by
    induction vout generalizing k with
    | nil => rfl
    | cons out vout ih =>
      rw [zipIdx_cons, balance_filterMap_cons, ih _ (forall_mem_cons.mp live).2,
        map_cons, sum_cons]
      congr 1
      refine (balance_single address out out.nValue
        (fun pays => mk pays.1 pays.2 nHeight i tx.hash k false) fun pays => rfl).trans ?_
      rw [slotValue, live out mem_cons_self]
      by_cases pays : paysTo address out = true
      · simp [pays, paysTo_spendable pays]
      · simp [pays]
  refine main tx.vout 0 fun out member => ?_
  obtain ⟨n, found⟩ := mem_iff_getElem?.mp member
  exact live_of_checked checked found

theorem balance_spending (tx : CTransaction) (prevouts : List CTxOut) (live : ∀ out ∈ prevouts, out.isNull = false) :
    balance address (spendingEntries nHeight i tx prevouts) = -(prevouts.map (slotValue (paysTo address))).sum := by
  have main (j : Nat) :
      balance address ((prevouts.zipIdx j).filterMap fun item => item.1.scriptPubKey.address.map fun pays =>
        (mk pays.1 pays.2 nHeight i tx.hash item.2 true, item.1.nValue * -1)) =
          -(prevouts.map (slotValue (paysTo address))).sum := by
    induction prevouts generalizing j with
    | nil => rfl
    | cons prevout prevouts ih =>
      rw [zipIdx_cons, balance_filterMap_cons, ih (forall_mem_cons.mp live).2,
        map_cons, sum_cons, neg_add]
      congr 1
      refine (balance_single address prevout (prevout.nValue * -1)
        (fun pays => mk pays.1 pays.2 nHeight i tx.hash j true) fun pays => rfl).trans ?_
      rw [slotValue, live prevout mem_cons_self]
      by_cases pays : paysTo address prevout = true <;> simp [pays]
  exact main 0

theorem balance_undoReceiving (tx : CTransaction) :
    balance address (undoReceivingEntries nHeight i tx) = balance address (receivingEntries nHeight i tx) := by
  unfold undoReceivingEntries receivingEntries
  rw [filterMap_reverse]
  exact balance_perm address (reverse_perm _)

theorem balance_undoneSpending (tx : CTransaction)
    (entries : List ((CTxIn × CTxInUndo) × Nat)) (live : ∀ entry ∈ entries, entry.1.2.txout.isNull = false) :
    balance address (undoneSpending nHeight i tx entries) =
      -(entries.map fun entry => slotValue (paysTo address) entry.1.2.txout).sum := by
  induction entries with
  | nil => rfl
  | cons entry entries ih =>
    rw [undoneSpending, balance_filterMap_cons]
    change _ + balance address (undoneSpending nHeight i tx entries) = _
    rw [ih (forall_mem_cons.mp live).2, map_cons, sum_cons, neg_add]
    congr 1
    refine (balance_single address entry.1.2.txout (entry.1.2.txout.nValue * -1)
      (fun pays => mk pays.1 pays.2 nHeight i tx.hash entry.2 true) fun pays => rfl).trans ?_
    rw [slotValue, live entry mem_cons_self]
    by_cases pays : paysTo address entry.1.2.txout = true <;> simp [pays]

end

variable {utxo utxo' : UtxoSet}

theorem spends_live {vin : List CTxIn} {txundo : CTxUndo} (spends : Spends utxo vin txundo utxo') :
    ∀ out ∈ txundo.map CTxInUndo.txout, out.isNull = false := by
  induction spends with
  | done => simp
  | more found rest ih =>
    intro out member
    rw [map_cons, undoOf_txout] at member
    rcases mem_cons.mp member with rfl | later
    · exact (CCoins.unspentOut_eq_some.mp found).2
    · exact ih out later

theorem balance_connects (address : Address) {nHeight : Nat} {vtx : List CTransaction} {vtxundo : List CTxUndo}
    (connects : Connects Fresh nHeight utxo vtx vtxundo utxo') (checked : ∀ tx ∈ vtx, Checked tx) (k : Nat) :
    totalValue (paysTo address) utxo' =
      totalValue (paysTo address) utxo + balance address (connectedAddress nHeight ((vtx.zip vtxundo).zipIdx k)) := by
  induction connects generalizing k with
  | done => simp [connectedAddress]
  | @more utxo middle utxo' tx vtx txundo vtxundo spends fresh rest ih =>
    rw [ih (forall_mem_cons.mp checked).2 (k + 1), totalValue_created,
      coinsValue_of_pruned _ fresh, totalValue_spends _ spends, zip_cons_cons, zipIdx_cons]
    simp only [connectedAddress, flatMap_cons, balance_append]
    rw [balance_spending address nHeight k tx _ (spends_live spends),
      balance_receiving address nHeight k (checked tx mem_cons_self), map_map]
    simp only [Function.comp_def]
    abel

theorem coinsValue_restore (pays : CTxOut → Bool) {coins : CCoins} {undo : CTxInUndo} {n : Nat}
    (clean : Restorable coins undo n) :
    coinsValue pays (restore undo n coins) = coinsValue pays coins + slotValue pays undo.txout := by
  have main (vout : List CTxOut) (absent : vout[n]?.filter (fun out => !out.isNull) = none) :
      (((vout ++ replicate (n + 1 - vout.length) CTxOut.setNull).set n undo.txout).map (slotValue pays)).sum =
        (vout.map (slotValue pays)).sum + slotValue pays undo.txout := by
    have inRange : n < (vout ++ replicate (n + 1 - vout.length) CTxOut.setNull).length := by
      simp only [length_append, length_replicate]
      omega
    obtain ⟨old, found⟩ : ∃ old, (vout ++ replicate (n + 1 - vout.length) CTxOut.setNull)[n]? = some old :=
      ⟨_, getElem?_eq_getElem inRange⟩
    have null : old.isNull = true := by
      have padded := padded_unspent vout n n
      rw [absent, found] at padded
      by_contra live
      simp [Option.filter, live] at padded
    rw [slots_set pays _ undo.txout found, slotValue_of_null pays null, sub_zero, map_append, sum_append,
      map_replicate, slotValue_setNull, sum_replicate, smul_zero, add_zero]
  unfold Restorable at clean
  unfold restore coinsValue
  split_ifs at clean ⊢
  · have worthless := coinsValue_of_pruned pays clean
    unfold coinsValue at worthless
    rw [worthless]
    exact main [] rfl
  · exact main coins.vout clean.2

theorem totalValue_restores (pays : CTxOut → Bool) {entries : List ((CTxIn × CTxInUndo) × Nat)}
    (restores : Restores utxo entries utxo') :
    totalValue pays utxo' = totalValue pays utxo + (entries.map fun entry => slotValue pays entry.1.2.txout).sum := by
  induction restores with
  | done => simp
  | more clean live rest ih =>
    rw [ih, restored, totalValue_modify, coinsValue_restore pays clean, map_cons, sum_cons]
    abel

theorem coinsValue_matches (pays : CTxOut → Bool)
    (spendable : ∀ out, pays out = true → out.scriptPubKey.isUnspendable = false) {coins : CCoins} {tx : CTransaction}
    {nHeight : Nat} (same : Matches coins tx nHeight) : coinsValue pays coins = createdValue pays tx := by
  obtain ⟨nVersion, equal⟩ := same
  have kept : coinsValue pays coins.clearUnspendable = coinsValue pays coins := by
    rw [CCoins.clearUnspendable, coinsValue_cleanup]
    simp only [coinsValue, map_map]
    congr 1
    apply map_congr_left
    intro out member
    simp only [Function.comp_apply]
    split_ifs with unspendable
    · rw [slotValue_setNull, slotValue]
      split_ifs with counted
      · rw [Bool.and_eq_true] at counted
        rw [spendable out counted.2] at unspendable
        simp at unspendable
      · rfl
    · rfl
  rw [← kept, ← coinsValue_fromTx pays tx nHeight]
  change coinsValue pays { coins.clearUnspendable with nVersion } = _
  rcases equal with ⟨first, second⟩ | equal
  · rw [coinsValue_of_pruned pays first, coinsValue_of_pruned pays second]
  · rw [equal]

theorem balance_disconnects (address : Address) {nHeight : Nat} {entries : List ((CTransaction × CTxUndo) × Nat)}
    (disconnects : Disconnects nHeight utxo entries utxo') (checked : ∀ entry ∈ entries, Checked entry.1.1)
    (live : ∀ entry ∈ entries, ∀ input ∈ entry.1.1.vin.zip entry.1.2, input.2.txout.isNull = false) :
    totalValue (paysTo address) utxo' =
      totalValue (paysTo address) utxo - balance address (undoneAddress nHeight entries) := by
  induction disconnects with
  | done => simp [undoneAddress]
  | @more utxo middle utxo' tx txundo i entries same restores rest ih =>
    have liveHere : ∀ entry ∈ (tx.vin.zip txundo).zipIdx.reverse, entry.1.2.txout.isNull = false := by
      intro entry member
      rw [mem_reverse] at member
      exact live ((tx, txundo), i) mem_cons_self entry.1 (fst_mem_of_mem_zipIdx member)
    rw [ih (forall_mem_cons.mp checked).2
      (forall_mem_cons.mp live).2, totalValue_restores _ restores, removed,
      totalValue_modify, coinsValue_matches _ (fun out pays => paysTo_spendable pays) same]
    change _ + coinsValue _ {} + _ - _ = _
    simp only [undoneAddress, flatMap_cons, balance_append, coinsValue_empty]
    rw [balance_undoReceiving, balance_receiving address nHeight i (checked ((tx, txundo), i) mem_cons_self),
      balance_undoneSpending address nHeight i tx _ liveHere]
    abel

/-- The entries a block stands for: a credit for each output with an address and a debit for each
spend of such an output. -/
inductive BlockEntry (store : BlockStore) (hash : Uint256) : CAddressIndexKey → CAmount → Prop where
  | credit {i : Nat} {tx : CTransaction} {k : Nat} {out : CTxOut} {type : Nat} {hashBytes : Uint160}
      (placed : (store.readBlockFromDisk hash).vtx[i]? = some tx) (output : tx.vout[k]? = some out)
      (pays : out.scriptPubKey.address = some (type, hashBytes)) :
      BlockEntry store hash (CAddressIndexKey.mk type hashBytes (store.mapBlockIndex hash).nHeight i tx.hash k false) out.nValue
  | debit {i : Nat} {tx : CTransaction} {j : Nat} {input : CTxIn} {out : CTxOut} {type : Nat} {hashBytes : Uint160}
      (placed : (store.readBlockFromDisk hash).vtx[i]? = some tx) (spends : (spentInputs tx)[j]? = some input)
      (output : TxOutput store input.prevout.hash input.prevout.n out)
      (pays : out.scriptPubKey.address = some (type, hashBytes)) :
      BlockEntry store hash (CAddressIndexKey.mk type hashBytes (store.mapBlockIndex hash).nHeight i tx.hash j true) (out.nValue * -1)

theorem blockEntry_height {store : BlockStore} {hash : Uint256} {key : CAddressIndexKey} {delta : CAmount}
    (entry : BlockEntry store hash key delta) : key.blockHeight = (store.mapBlockIndex hash).nHeight := by
  cases entry <;> rfl

/-- Undo data that belongs to a block: a record for each spent input, with the output it spends. -/
structure UndoFits (store : BlockStore) (hash : Uint256) (vtxundo : List CTxUndo) : Prop where
  length : vtxundo.length = (store.readBlockFromDisk hash).vtx.length
  sizes : ∀ entry ∈ (store.readBlockFromDisk hash).vtx.zip vtxundo, entry.2.length = (spentInputs entry.1).length
  known : KnownUndo store (store.readBlockFromDisk hash).vtx vtxundo

variable {store : BlockStore} {hash : Uint256} {vtxundo : List CTxUndo}

section

variable {nHeight i : Nat} {tx : CTransaction}

variable {entry : CAddressIndexKey × CAmount}

theorem mem_receivingEntries :
    entry ∈ receivingEntries nHeight i tx ↔ ∃ (k : Nat) (out : CTxOut) (type : Nat) (hashBytes : Uint160),
      tx.vout[k]? = some out ∧ out.scriptPubKey.address = some (type, hashBytes) ∧
      entry = (mk type hashBytes nHeight i tx.hash k false, out.nValue) := by
  simp only [receivingEntries, mem_filterMap, Prod.exists, mem_zipIdx_iff_getElem?, Option.map_eq_some_iff]
  constructor
  · rintro ⟨out, k, found, type, hashBytes, pays, rfl⟩
    exact ⟨k, out, type, hashBytes, found, pays, rfl⟩
  · rintro ⟨k, out, type, hashBytes, found, pays, rfl⟩
    exact ⟨out, k, found, type, hashBytes, pays, rfl⟩

theorem mem_undoReceivingEntries : entry ∈ undoReceivingEntries nHeight i tx ↔ entry ∈ receivingEntries nHeight i tx := by
  unfold undoReceivingEntries receivingEntries
  rw [filterMap_reverse, mem_reverse]

theorem mem_spendingEntries {txundo : CTxUndo} : entry ∈ spendingEntries nHeight i tx (txundo.map CTxInUndo.txout) ↔
      ∃ (j : Nat) (undo : CTxInUndo) (type : Nat) (hashBytes : Uint160), txundo[j]? = some undo ∧
      undo.txout.scriptPubKey.address = some (type, hashBytes) ∧
      entry = (mk type hashBytes nHeight i tx.hash j true, undo.txout.nValue * -1) := by
  simp only [spendingEntries, mem_filterMap, Prod.exists, mem_zipIdx_iff_getElem?, getElem?_map,
    Option.map_eq_some_iff]
  constructor
  · rintro ⟨prevout, j, ⟨undo, found, rfl⟩, type, hashBytes, pays, rfl⟩
    exact ⟨j, undo, type, hashBytes, found, pays, rfl⟩
  · rintro ⟨j, undo, type, hashBytes, found, pays, rfl⟩
    exact ⟨undo.txout, j, ⟨undo, found, rfl⟩, type, hashBytes, pays, rfl⟩

theorem mem_undoneSpending {txundo : CTxUndo} (size : txundo.length = (spentInputs tx).length) :
    entry ∈ undoneSpending nHeight i tx (tx.vin.zip txundo).zipIdx.reverse ↔
      entry ∈ spendingEntries nHeight i tx (txundo.map CTxInUndo.txout) := by
  rw [mem_spendingEntries]
  simp only [undoneSpending, undoSpendingEntry, mem_filterMap, mem_reverse, Prod.exists,
    mem_zipIdx_iff_getElem?, getElem?_zip_eq_some, Option.map_eq_some_iff]
  constructor
  · rintro ⟨input, undo, j, ⟨-, found⟩, type, hashBytes, pays, rfl⟩
    exact ⟨j, undo, type, hashBytes, found, pays, rfl⟩
  · rintro ⟨j, undo, type, hashBytes, found, pays, rfl⟩
    have inRange := (List.getElem?_eq_some_iff.mp found).1
    have inVin : j < tx.vin.length := by
      rw [size, spentInputs] at inRange
      split_ifs at inRange
      · simp at inRange
      · exact inRange
    exact ⟨tx.vin[j], undo, j, ⟨getElem?_eq_getElem inVin, found⟩, type, hashBytes, pays, rfl⟩

end

section

variable (fits : UndoFits store hash vtxundo)
include fits

theorem mem_zip_block {i : Nat} {tx : CTransaction} (placed : (store.readBlockFromDisk hash).vtx[i]? = some tx) :
    ∃ txundo, ((tx, txundo), i) ∈ ((store.readBlockFromDisk hash).vtx.zip vtxundo).zipIdx := by
  obtain ⟨inRange, -⟩ := List.getElem?_eq_some_iff.mp placed
  have undoRange : i < vtxundo.length := by rwa [fits.length]
  refine ⟨vtxundo[i], mem_zipIdx_iff_getElem?.mpr (List.getElem?_zip_eq_some.mpr ⟨placed, ?_⟩)⟩
  exact List.getElem?_eq_getElem undoRange

theorem undo_input {tx : CTransaction} {txundo : CTxUndo}
    (paired : (tx, txundo) ∈ (store.readBlockFromDisk hash).vtx.zip vtxundo) {j : Nat} {undo : CTxInUndo}
    (found : txundo[j]? = some undo) : ∃ input, (spentInputs tx)[j]? = some input ∧
      TxOutput store input.prevout.hash input.prevout.n undo.txout := by
  have inRange := (List.getElem?_eq_some_iff.mp found).1
  have size := fits.sizes _ paired
  simp only at size
  rw [size] at inRange
  refine ⟨(spentInputs tx)[j], List.getElem?_eq_getElem inRange, ?_⟩
  have ordinary : spentInputs tx = tx.vin := by
    rw [spentInputs] at inRange ⊢
    split_ifs at inRange ⊢
    · simp at inRange
    · rfl
  have together : (tx.vin.zip txundo)[j]? = some ((spentInputs tx)[j], undo) :=
    List.getElem?_zip_eq_some.mpr ⟨by rw [← ordinary]; exact List.getElem?_eq_getElem inRange, found⟩
  exact (fits.known _ paired _ (mem_of_getElem? together)).1

theorem undo_of_input (distinct : TxidsDistinct store) {tx : CTransaction}
    {txundo : CTxUndo} (paired : (tx, txundo) ∈ (store.readBlockFromDisk hash).vtx.zip vtxundo) {j : Nat} {input : CTxIn}
    (spends : (spentInputs tx)[j]? = some input) {out : CTxOut}
    (output : TxOutput store input.prevout.hash input.prevout.n out) : ∃ undo, txundo[j]? = some undo ∧ undo.txout = out := by
  have inRange := (List.getElem?_eq_some_iff.mp spends).1
  have size := fits.sizes _ paired
  simp only at size
  rw [← size] at inRange
  refine ⟨txundo[j], List.getElem?_eq_getElem inRange, ?_⟩
  obtain ⟨input', spends', known⟩ := undo_input fits paired (List.getElem?_eq_getElem inRange)
  rw [spends, Option.some.injEq] at spends'
  subst spends'
  exact txOutput_unique distinct known output

theorem mem_connectedAddress (distinct : TxidsDistinct store) {entry : CAddressIndexKey × CAmount} :
    entry ∈ connectedAddress (store.mapBlockIndex hash).nHeight
        ((store.readBlockFromDisk hash).vtx.zip vtxundo).zipIdx ↔ BlockEntry store hash entry.1 entry.2 := by
  simp only [connectedAddress, mem_flatMap, mem_append]
  constructor
  · rintro ⟨⟨⟨tx, txundo⟩, i⟩, member, debit | credit⟩
    · obtain ⟨j, undo, type, hashBytes, found, pays, rfl⟩ := mem_spendingEntries.mp debit
      obtain ⟨input, spends, output⟩ := undo_input fits (fst_mem_of_mem_zipIdx member) found
      exact .debit (getElem?_zip_eq_some.mp (mem_zipIdx_iff_getElem?.mp member)).1 spends output pays
    · obtain ⟨k, out, type, hashBytes, found, pays, rfl⟩ := mem_receivingEntries.mp credit
      exact .credit (getElem?_zip_eq_some.mp (mem_zipIdx_iff_getElem?.mp member)).1 found pays
  · obtain ⟨key, delta⟩ := entry
    rintro (⟨placed, output, pays⟩ | ⟨placed, spends, output, pays⟩)
    · obtain ⟨txundo, member⟩ := mem_zip_block fits placed
      exact ⟨_, member, .inr (mem_receivingEntries.mpr ⟨_, _, _, _, output, pays, rfl⟩)⟩
    · obtain ⟨txundo, member⟩ := mem_zip_block fits placed
      obtain ⟨undo, found, rfl⟩ := undo_of_input fits distinct (fst_mem_of_mem_zipIdx member) spends output
      exact ⟨_, member, .inl (mem_spendingEntries.mpr ⟨_, _, _, _, found, pays, rfl⟩)⟩

theorem mem_undoneAddress {nHeight : Nat} {entry : CAddressIndexKey × CAmount} :
    entry ∈ undoneAddress nHeight ((store.readBlockFromDisk hash).vtx.zip vtxundo).zipIdx.reverse ↔
      entry ∈ connectedAddress nHeight ((store.readBlockFromDisk hash).vtx.zip vtxundo).zipIdx := by
  simp only [undoneAddress, connectedAddress, mem_flatMap, mem_reverse, mem_append,
    mem_undoReceivingEntries]
  refine exists_congr fun pair => and_congr_right fun member => ?_
  rw [mem_undoneSpending (fits.sizes _ (fst_mem_of_mem_zipIdx member)), or_comm]

end

theorem nodup_numbered {α : Type} {entry : α × Nat → Option (CAddressIndexKey × CAmount)}
    (placed : ∀ item found, entry item = some found → found.1.index = item.2) {items : List (α × Nat)}
    (numbers : (items.map Prod.snd).Nodup) : ((items.filterMap entry).map Prod.fst).Nodup := by
  have positions := (filterMap_map_sublist placed items).nodup numbers
  refine Nodup.of_map index ?_
  rwa [map_map]

theorem nodup_reverse_zipIdx {α : Type} (items : List α) : (items.zipIdx.reverse.map Prod.snd).Nodup := by
  rw [map_reverse, nodup_reverse]
  exact nodup_zipIdx_map_snd items

theorem nodup_append_flags {first second : Ledger} (left : (first.map Prod.fst).Nodup) (right : (second.map Prod.fst).Nodup)
    (flag : Bool) (flagged : ∀ entry ∈ first, entry.1.spending = flag)
    (unflagged : ∀ entry ∈ second, entry.1.spending = !flag) : ((first ++ second).map Prod.fst).Nodup := by
  rw [map_append, nodup_append]
  refine ⟨left, right, ?_⟩
  rintro _ inFirst _ inSecond rfl
  obtain ⟨entry, member, same⟩ := mem_map.mp inFirst
  obtain ⟨other, member', same'⟩ := mem_map.mp inSecond
  have one := flagged entry member
  have two := unflagged other member'
  rw [same] at one
  rw [same', one] at two
  simp at two

theorem nodup_flatMap_txindex {α : Type} (part : α × Nat → Ledger) (items : List (α × Nat))
    (numbers : (items.map Prod.snd).Nodup) (distinct : ∀ item ∈ items, ((part item).map Prod.fst).Nodup)
    (placed : ∀ item ∈ items, ∀ entry ∈ part item, entry.1.txindex = item.2) : ((items.flatMap part).map Prod.fst).Nodup := by
  induction items with
  | nil => simp
  | cons item items ih =>
    rw [map_cons, nodup_cons] at numbers
    rw [flatMap_cons, map_append, nodup_append]
    refine ⟨distinct item mem_cons_self,
      ih numbers.2 (forall_mem_cons.mp distinct).2
        (forall_mem_cons.mp placed).2, ?_⟩
    rintro _ inFirst _ inRest rfl
    obtain ⟨entry, member, same⟩ := mem_map.mp inFirst
    obtain ⟨other, member', same'⟩ := mem_map.mp inRest
    obtain ⟨later, inside, part'⟩ := mem_flatMap.mp member'
    have one := placed item mem_cons_self entry member
    have two := placed later (mem_cons_of_mem _ inside) other part'
    rw [same] at one
    rw [same', one] at two
    exact numbers.1 (mem_map.mpr ⟨later, inside, two.symm⟩)

theorem nodup_connectedAddress (nHeight : Nat) (entries : List (CTransaction × CTxUndo)) :
    ((connectedAddress nHeight entries.zipIdx).map Prod.fst).Nodup := by
  refine nodup_flatMap_txindex _ _ (nodup_zipIdx_map_snd entries) (fun item _ => ?_) fun item _ entry member => ?_
  · refine nodup_append_flags (nodup_numbered (fun pair found same => ?_) (nodup_zipIdx_map_snd _))
      (nodup_numbered (fun pair found same => ?_) (nodup_zipIdx_map_snd _)) true (fun entry member => ?_) fun entry member => ?_
    · obtain ⟨pays, -, rfl⟩ := Option.map_eq_some_iff.mp same
      rfl
    · obtain ⟨pays, -, rfl⟩ := Option.map_eq_some_iff.mp same
      rfl
    · obtain ⟨j, undo, type, hashBytes, -, -, rfl⟩ := mem_spendingEntries.mp member
      rfl
    · obtain ⟨k, out, type, hashBytes, -, -, rfl⟩ := mem_receivingEntries.mp member
      rfl
  · rcases mem_append.mp member with debit | credit
    · obtain ⟨j, undo, type, hashBytes, -, -, rfl⟩ := mem_spendingEntries.mp debit
      rfl
    · obtain ⟨k, out, type, hashBytes, -, -, rfl⟩ := mem_receivingEntries.mp credit
      rfl

theorem mem_undoneSpending_flags {nHeight i : Nat} {tx : CTransaction} {entries : List ((CTxIn × CTxInUndo) × Nat)}
    {entry : CAddressIndexKey × CAmount} (member : entry ∈ undoneSpending nHeight i tx entries) :
    entry.1.spending = true ∧ entry.1.txindex = i := by
  simp only [undoneSpending, undoSpendingEntry, mem_filterMap, Option.map_eq_some_iff] at member
  obtain ⟨pair, -, pays, -, rfl⟩ := member
  exact ⟨rfl, rfl⟩

theorem nodup_undoneAddress (nHeight : Nat) (entries : List (CTransaction × CTxUndo)) :
    ((undoneAddress nHeight entries.zipIdx.reverse).map Prod.fst).Nodup := by
  refine nodup_flatMap_txindex _ _ (nodup_reverse_zipIdx entries) (fun item _ => ?_) fun item _ entry member => ?_
  · refine nodup_append_flags (nodup_numbered (fun pair found same => ?_) (nodup_reverse_zipIdx _))
      (nodup_numbered (fun pair found same => ?_) (nodup_reverse_zipIdx _)) false (fun entry member => ?_)
      fun entry member => ?_
    · obtain ⟨pays, -, rfl⟩ := Option.map_eq_some_iff.mp same
      rfl
    · obtain ⟨pays, -, rfl⟩ := Option.map_eq_some_iff.mp same
      rfl
    · obtain ⟨k, out, type, hashBytes, -, -, rfl⟩ := mem_receivingEntries.mp (mem_undoReceivingEntries.mp member)
      rfl
    · exact (mem_undoneSpending_flags member).1
  · rcases mem_append.mp member with credit | debit
    · obtain ⟨k, out, type, hashBytes, -, -, rfl⟩ := mem_receivingEntries.mp (mem_undoReceivingEntries.mp credit)
      rfl
    · exact (mem_undoneSpending_flags debit).2

theorem fits_connected {allowed : UtxoSet → CTransaction → Prop} {nHeight : Nat}
    (connects : Connects allowed nHeight utxo (store.readBlockFromDisk hash).vtx vtxundo utxo')
    (known : KnownUndo store (store.readBlockFromDisk hash).vtx vtxundo) : UndoFits store hash vtxundo where
  length := connects_length connects
  sizes entry member := by
    obtain ⟨before, after, spends⟩ := connects_spends connects entry member
    exact spends_length spends
  known := known

theorem fits_disconnected {blockUndo : CBlockUndo} (checked : CheckedBlock (store.readBlockFromDisk hash))
    (sizes : blockUndo.length + 1 = (store.readBlockFromDisk hash).vtx.length)
    (shape : UndoShape ((store.readBlockFromDisk hash).vtx.zip ([] :: blockUndo)).zipIdx.reverse)
    (known : KnownUndo store (store.readBlockFromDisk hash).vtx ([] :: blockUndo)) :
    UndoFits store hash ([] :: blockUndo) where
  length := sizes
  sizes entry member := by
    obtain ⟨i, found⟩ := mem_iff_getElem?.mp member
    have placed := getElem?_zip_eq_some.mp found
    have first := coinbase_first checked (entry.1, i) (mem_zipIdx_iff_getElem?.mpr placed.1)
    have sized := shape (entry, i) (mem_reverse.mpr (mem_zipIdx_iff_getElem?.mpr found))
    simp only at first sized
    cases isCoinBase : entry.1.isCoinBase with
    | true =>
      rw [if_pos (first.mp isCoinBase)] at sized
      rw [sized, spentInputs, isCoinBase, if_pos rfl]
      rfl
    | false =>
      rw [if_neg fun zero => Bool.false_ne_true (isCoinBase.symm.trans (first.mpr zero))] at sized
      rw [sized, spentInputs, isCoinBase, if_neg Bool.false_ne_true]
  known := known

/-- The entries are those of the blocks of the chain, each under a key of its own. -/
structure Recorded (store : BlockStore) (chain : List Uint256) (entries : Ledger) : Prop where
  distinct : (entries.map Prod.fst).Nodup
  complete : ∀ entry, entry ∈ entries ↔ ∃ hash ∈ chain, BlockEntry store hash entry.1 entry.2

def Stored (index : CAddressIndexKey → Option CAmount) (entries : Ledger) : Prop :=
  ∀ key delta, index key = some delta ↔ (key, delta) ∈ entries

theorem recorded_perm {chain : List Uint256} {first second : Ledger} (one : Recorded store chain first)
    (two : Recorded store chain second) : first.Perm second := by
  rw [perm_ext_iff_of_nodup one.distinct.of_map two.distinct.of_map]
  intro entry
  rw [one.complete, two.complete]

theorem eq_of_distinct {entries : Ledger} (distinct : (entries.map Prod.fst).Nodup) {first second : CAddressIndexKey × CAmount}
    (one : first ∈ entries) (two : second ∈ entries) (same : first.1 = second.1) : first = second :=
  inj_on_of_nodup_map distinct one two same

theorem stored_write {index : CAddressIndexKey → Option CAmount} {entries batch : Ledger} (stored : Stored index entries)
    (distinct : ((batch ++ entries).map Prod.fst).Nodup) :
    Stored (writeBatch (fun _ => false) batch index) (batch ++ entries) := by
  intro key delta
  rcases writeBatch_cases (fun _ => false) batch index key with ⟨entry, member, rfl, decided⟩ | ⟨absent, kept⟩
  · rw [decided, if_neg Bool.false_ne_true, Option.some.injEq]
    have inside : entry ∈ batch ++ entries := mem_append_left _ member
    constructor
    · rintro rfl
      exact inside
    · intro found
      rw [← eq_of_distinct distinct found inside rfl]
  · rw [kept, stored, mem_append, or_iff_right fun member => absent _ member rfl]

theorem stored_erase {index : CAddressIndexKey → Option CAmount} {entries batch kept : Ledger} (stored : Stored index entries)
    (distinct : (entries.map Prod.fst).Nodup) (split : entries.Perm (batch ++ kept)) :
    Stored (writeBatch (fun _ => true) batch index) kept := by
  intro key delta
  have apart := (split.map Prod.fst).nodup_iff.mp distinct
  rcases writeBatch_cases (fun _ => true) batch index key with ⟨entry, member, rfl, decided⟩ | ⟨absent, same⟩
  · rw [decided, if_pos rfl]
    refine iff_of_false (by simp) fun inside => ?_
    rw [map_append, nodup_append] at apart
    exact apart.2.2 _ (mem_map_of_mem member) _ (mem_map_of_mem inside) rfl
  · rw [same, stored, split.mem_iff, mem_append, or_iff_right fun member => absent _ member rfl]

variable {env : Env}

section

variable {s : ChainState} (sound : Sound env store s) {hash : Uint256}
include sound

theorem nHeight_le_of_mem (member : hash ∈ s.chain) : (store.mapBlockIndex hash).nHeight ≤ s.chain.length := by
  obtain ⟨above, below, split⟩ := append_of_mem member
  rw [nHeight_of_linked (sound.linked hash below ⟨above, split.symm⟩), split, length_append, length_cons]
  omega

theorem recorded_connect (extends' : (store.mapBlockIndex hash).ancestors = s.chain ++ [env.hashGenesisBlock])
    (fits : UndoFits store hash vtxundo) (distinct : TxidsDistinct store) {entries : Ledger}
    (recorded : Recorded store s.chain entries) : Recorded store (hash :: s.chain)
      (connectedAddress (store.mapBlockIndex hash).nHeight
        ((store.readBlockFromDisk hash).vtx.zip vtxundo).zipIdx ++ entries) := by
  constructor
  · rw [map_append, nodup_append]
    refine ⟨nodup_connectedAddress _ _, recorded.distinct, ?_⟩
    rintro _ inFirst _ inSecond rfl
    obtain ⟨entry, member, same⟩ := mem_map.mp inFirst
    obtain ⟨other, member', same'⟩ := mem_map.mp inSecond
    obtain ⟨hash', inChain, old⟩ := (recorded.complete other).mp member'
    have here := blockEntry_height ((mem_connectedAddress fits distinct).mp member)
    have there := blockEntry_height old
    have below := nHeight_le_of_mem sound inChain
    rw [same, nHeight_of_linked extends'] at here
    rw [same', here] at there
    omega
  · intro entry
    rw [mem_append, mem_connectedAddress fits distinct, recorded.complete]
    simp only [mem_cons, exists_eq_or_imp]

theorem recorded_disconnect {rest : List Uint256}
    (tip : s.chain = hash :: rest) (fits : UndoFits store hash vtxundo) (distinct : TxidsDistinct store) {entries : Ledger}
    (recorded : Recorded store s.chain entries) : ∃ kept, Recorded store rest kept ∧ entries.Perm
      (undoneAddress (store.mapBlockIndex hash).nHeight
        ((store.readBlockFromDisk hash).vtx.zip vtxundo).zipIdx.reverse ++ kept) := by
  have height := nHeight_of_linked (sound.linked hash rest (tip ▸ suffix_refl _))
  have below (hash' : Uint256) (member : hash' ∈ rest) :
      (store.mapBlockIndex hash').nHeight < (store.mapBlockIndex hash).nHeight := by
    obtain ⟨first, last, split⟩ := append_of_mem member
    have linked := sound.linked hash' last ⟨hash :: first, by rw [tip, split]; rfl⟩
    rw [nHeight_of_linked linked, height, split, length_append, length_cons]
    omega
  have undone (entry : CAddressIndexKey × CAmount) :
      entry ∈ undoneAddress (store.mapBlockIndex hash).nHeight
        ((store.readBlockFromDisk hash).vtx.zip vtxundo).zipIdx.reverse ↔ BlockEntry store hash entry.1 entry.2 := by
    rw [mem_undoneAddress fits, mem_connectedAddress fits distinct]
  have keptRecorded : Recorded store rest
      (entries.filter fun entry => entry.1.blockHeight ≠ (store.mapBlockIndex hash).nHeight) := by
    refine ⟨recorded.distinct.sublist (filter_sublist.map _), fun entry => ?_⟩
    rw [mem_filter, recorded.complete, tip, decide_eq_true_iff]
    constructor
    · rintro ⟨⟨hash', member, present⟩, other⟩
      rcases mem_cons.mp member with rfl | member
      · exact absurd (blockEntry_height present) other
      · exact ⟨hash', member, present⟩
    · rintro ⟨hash', member, present⟩
      refine ⟨⟨hash', mem_cons_of_mem _ member, present⟩, fun same => ?_⟩
      have lower := below hash' member
      rw [← blockEntry_height present, same] at lower
      exact lt_irrefl _ lower
  refine ⟨_, keptRecorded, (perm_ext_iff_of_nodup recorded.distinct.of_map ?_).mpr fun entry => ?_⟩
  · refine nodup_append.mpr ⟨(nodup_undoneAddress _ _).of_map, keptRecorded.distinct.of_map, ?_⟩
    rintro entry inFirst _ inSecond rfl
    have other := (mem_filter.mp inSecond).2
    rw [blockEntry_height ((undone entry).mp inFirst)] at other
    simp at other
  · rw [mem_append, undone, recorded.complete, keptRecorded.complete, tip]
    simp only [mem_cons, exists_eq_or_imp]

end

/-- The block replaces no unspent coins, or the BIP30 test sees to it. -/
def overwritesNothing (env : Env) (store : BlockStore) (s : ChainState) : ChainOp → Bool
  | .connect hash => enforceBIP30 env (store.mapBlockIndex hash) || !overwrites s.view (store.readBlockFromDisk hash)
  | .disconnect => true

def Indexed (store : BlockStore) (s : ChainState) : Prop :=
  ∃ entries, Recorded store s.chain entries ∧ Stored s.pblocktree.addressIndex entries

/-- The entries of every address add up to its unspent outputs. -/
def Balanced (store : BlockStore) (s : ChainState) : Prop :=
  ∀ entries, Recorded store s.chain entries → ∀ address,
    balance address entries = totalValue (paysTo address) s.view.utxo

theorem indexed_step (indexed : env.fAddressIndex = true) (distinct : TxidsDistinct store) {s s' : ChainState}
    {op : ChainOp} (sound : Sound env store s) (step : ChainStep env store s op s') (before : Indexed store s) :
    Indexed store s' := by
  obtain ⟨entries, recorded, stored⟩ := before
  cases step with
  | @connect hash st extends' found ordinary connected =>
    have accepted := step_accepted found ordinary connected
    obtain ⟨-, undos⟩ := connects_known accepted.connects sound.known fun tx member => member
    have batch := accepted.addressIndex
    rw [indexed, if_pos rfl] at batch
    have after := recorded_connect sound extends' (fits_connected accepted.connects undos) distinct recorded
    refine ⟨_, after, ?_⟩
    have written := stored_write stored after.distinct
    rw [← batch] at written
    simp only [writeConnected, indexed, if_true]
    rw [← batch]
    split_ifs <;> exact written
  | @disconnect hash rest blockUndo st tip kept disconnected clean =>
    have undos := sound.undo hash blockUndo kept
    obtain ⟨sizes, -, shape, -, batch, -⟩ := disconnectBlock_ok (knownUndo_live undos) disconnected clean
    rw [indexed, if_pos rfl] at batch
    have checked := sound.shaped hash (by simp [tip])
    obtain ⟨left, leftRecorded, split⟩ :=
      recorded_disconnect sound tip (fits_disconnected checked sizes shape undos) distinct recorded
    refine ⟨left, leftRecorded, ?_⟩
    have erased := stored_erase stored recorded.distinct split
    rw [← batch] at erased
    simp only [writeDisconnected, indexed, if_true]
    exact erased

theorem balanced_step (distinct : TxidsDistinct store) {s s' : ChainState} {op : ChainOp} (sound : Sound env store s)
    (indexed : Indexed store s) (step : Guarded env store (fun s op => overwritesNothing env store s op = true) s op s')
    (before : Balanced store s) : Balanced store s' := by
  obtain ⟨step, guard⟩ := step
  obtain ⟨entries, recorded, -⟩ := indexed
  intro entries' recorded' address
  cases step with
  | @connect hash st extends' found ordinary connected =>
    have accepted := step_accepted found ordinary connected
    obtain ⟨-, undos⟩ := connects_known accepted.connects sound.known fun tx member => member
    have after := recorded_connect sound extends' (fits_connected accepted.connects undos) distinct recorded
    have unused : ∀ tx ∈ (store.readBlockFromDisk hash).vtx, (s.view.utxo.coins tx.hash).isPruned = true := by
      rcases Bool.or_eq_true_iff.mp guard with enforced | none
      · exact accepted.free enforced
      · intro tx member
        simp only [overwrites, Bool.not_eq_true', any_eq_false] at none
        simpa using none tx member
    have fresh := accepted_fresh accepted (fun tx member other member' => distinct hash hash tx member other member') unused
    have moved := balance_connects address fresh accepted.shape.transactions 0
    change _ = totalValue (paysTo address) st.view.utxo
    rw [balance_perm address (recorded_perm recorded' after), balance_append, moved, before entries recorded address,
      add_comm]
  | @disconnect hash rest blockUndo st tip kept disconnected clean =>
    have undos := sound.undo hash blockUndo kept
    obtain ⟨sizes, disconnects, shape, -⟩ := disconnectBlock_ok (knownUndo_live undos) disconnected clean
    have checked := sound.shaped hash (by simp [tip])
    obtain ⟨left, leftRecorded, split⟩ :=
      recorded_disconnect sound tip (fits_disconnected checked sizes shape undos) distinct recorded
    have moved := balance_disconnects address disconnects
      (fun entry member => checked.transactions _
        (of_mem_zip (fst_mem_of_mem_zipIdx (mem_reverse.mp member))).1)
      fun entry member => knownUndo_live undos _ (fst_mem_of_mem_zipIdx (mem_reverse.mp member))
    have whole := before entries recorded address
    rw [balance_perm address split, balance_append] at whole
    change _ = totalValue (paysTo address) st.view.utxo
    rw [balance_perm address (recorded_perm recorded' leftRecorded), moved, ← whole]
    abel

theorem guarded_of_own {ops : List ChainOp} {s s' : ChainState} (run : Steps (ChainStep env store) s ops s')
    (own : ∀ hash, .connect hash ∈ ops → OwnHashes env (store.mapBlockIndex hash)) :
    Steps (Guarded env store fun s op => overwritesNothing env store s op = true) s ops s' := by
  induction run with
  | done s => exact .done s
  | @more _ _ _ op _ first rest ih =>
    refine .more ⟨first, ?_⟩ (ih fun hash member => own hash (mem_cons_of_mem _ member))
    cases op with
    | connect hash => simp [overwritesNothing, (own hash mem_cons_self).enforced]
    | disconnect => rfl

/-- The index is the ledger of the active chain, with one entry for each credit and each debit,
and the entries of each address add up to the unspent outputs that pay it. -/
theorem addressIndex_balances (indexed : env.fAddressIndex = true) (distinct : TxidsDistinct store) {ops : List ChainOp}
    (own : ∀ hash, .connect hash ∈ ops → OwnHashes env (store.mapBlockIndex hash)) {s : ChainState}
    (run : Steps (ChainStep env store) (genesisState env) ops s) :
    ∃ entries, Recorded store s.chain entries ∧ Stored s.pblocktree.addressIndex entries ∧
      ∀ address, balance address entries = totalValue (paysTo address) s.view.utxo := by
  have genesis : Indexed store (genesisState env) :=
    ⟨[], ⟨by simp, by simp [genesisState]⟩, by simp [Stored, genesisState]⟩
  have all : (Sound env store s ∧ Indexed store s) ∧ Balanced store s := by
    refine (guarded_of_own run own).invariant (fun s => (Sound env store s ∧ Indexed store s) ∧ Balanced store s)
      (fun before op after all step => ?_) ⟨⟨sound_genesis env store, genesis⟩, ?_⟩
    · exact ⟨⟨sound_step all.1.1 step.1, indexed_step indexed distinct all.1.1 step.1 all.1.2⟩,
        balanced_step distinct all.1.1 all.1.2 step all.2⟩
    · intro none recorded address
      have empty : none = [] := eq_nil_iff_forall_not_mem.mpr fun entry member => by
        simpa [genesisState] using (recorded.complete entry).mp member
      rw [empty]
      exact (totalValue_empty (paysTo address)).symm
  obtain ⟨entries, recorded, stored⟩ := all.1.2
  exact ⟨entries, recorded, stored, all.2 entries recorded⟩

def sampleCredit : CAddressIndexKey where
  type := 1
  hashBytes := uint160 (List.replicate 20 7)
  blockHeight := 1
  txindex := 0
  txhash := 1001
  index := 0
  spending := false

/-- The sample chain with its last block taken back. -/
theorem addressIndex_balances_sample : ∃ (s : ChainState) (entries : Ledger),
    Recorded sampleStore s.chain entries ∧ Stored s.pblocktree.addressIndex entries ∧
      (∀ address, balance address entries = totalValue (paysTo address) s.view.utxo) ∧
      s.pblocktree.addressIndex sampleCredit = some 5 := by
  have ran : (runGuarded permissiveEnv sampleStore
      (fun s op => overwritesNothing permissiveEnv sampleStore s op = true) (sampleConnects 31 ++ [.disconnect])).map
      (fun s => s.pblocktree.addressIndex sampleCredit) = some (some 5) := by decide +kernel
  have own : ∀ hash, .connect hash ∈ sampleConnects 31 ++ [.disconnect] →
      OwnHashes permissiveEnv (sampleStore.mapBlockIndex hash) := by
    intro hash member
    simp only [sampleConnects, mem_append, mem_map, mem_range, ChainOp.connect.injEq, mem_singleton, reduceCtorEq,
      or_false] at member
    obtain ⟨k, small, rfl⟩ := member
    have each : ∀ k < 31, (sampleStore.mapBlockIndex (BitVec.ofNat 256 (k + 1))).prevAncestor 1 ≠ some 0 ∧
        isDuplicateCoinbaseBlock (sampleStore.mapBlockIndex (BitVec.ofNat 256 (k + 1))) = false := by decide +kernel
    exact ⟨(each k small).1, (each k small).2⟩
  obtain ⟨s, run, shown⟩ := Option.map_eq_some_iff.mp ran
  obtain ⟨entries, recorded, stored, sums⟩ :=
    addressIndex_balances rfl sample_distinct own (steps_of_guarded (guardedStep_run run))
  exact ⟨s, entries, recorded, stored, sums, shown⟩

end Longcoin.AddressIndex

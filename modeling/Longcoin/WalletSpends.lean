import Longcoin.MempoolUpdate
import Longcoin.WalletCache

/-! The wallet's index of what its transactions spend (`wallet/wallet.cpp`): `mapTxSpends` and the walks through it. -/

namespace Longcoin.WalletSpends
open Primitives Library Wallet List
open Mempool (memory memory_injective)

/-- What `operator<` of `COutPoint` compares, in its order. -/
def rank (outpoint : COutPoint) : List Nat ×ₗ Nat := toLex (memory 32 outpoint.hash.toNat, outpoint.n)

/-- What `AddToSpends` adds for a transaction. -/
def spendsOf (wtx : CWalletTx) : List (COutPoint × Uint256) :=
  if wtx.tx.isCoinBase then [] else wtx.tx.vin.map fun txin => (txin.prevout, wtx.tx.hash)

def mapTxSpends (wallet : List CWalletTx) : List (COutPoint × Uint256) :=
  (wallet.flatMap spendsOf).insertionSort fun first second => rank first.1 ≤ rank second.1

/-- From `lower_bound(COutPoint(start, 0))` on as long as the outpoint is of the transaction `now`. -/
def spendsFrom (wallet : List CWalletTx) (start now : Uint256) : List Uint256 :=
  (((mapTxSpends wallet).dropWhile fun entry => decide (rank entry.1 < rank ⟨start, 0⟩)).takeWhile
    fun entry => entry.1.hash == now).map Prod.snd

/-- A transaction of the wallet spends an output of another one. -/
def Spends (wallet : List CWalletTx) (spent spender : Uint256) : Prop :=
  ∃ wtx ∈ wallet, wtx.tx.hash = spender ∧ wtx.tx.isCoinBase = false ∧ ∃ txin ∈ wtx.tx.vin, txin.prevout.hash = spent

instance : IsTrans (COutPoint × Uint256) fun first second => rank first.1 ≤ rank second.1 := ⟨fun _ _ _ => le_trans⟩

instance : Std.Total fun first second : COutPoint × Uint256 => rank first.1 ≤ rank second.1 := ⟨fun _ _ => le_total _ _⟩

theorem sorted_mapTxSpends (wallet : List CWalletTx) :
    (mapTxSpends wallet).Pairwise fun first second => rank first.1 ≤ rank second.1 := pairwise_insertionSort _ _

variable {wallet : List CWalletTx} {spender : Uint256}

theorem mem_mapTxSpends {outpoint : COutPoint} : (outpoint, spender) ∈ mapTxSpends wallet ↔
      ∃ wtx ∈ wallet, wtx.tx.hash = spender ∧ wtx.tx.isCoinBase = false ∧ ∃ txin ∈ wtx.tx.vin, txin.prevout = outpoint := by
  rw [mapTxSpends, mem_insertionSort, mem_flatMap]
  refine exists_congr fun wtx => and_congr_right fun _ => ?_
  rw [spendsOf]
  cases wtx.tx.isCoinBase with
  | true => simp
  | false =>
    simp only [Bool.false_eq_true, if_false, mem_map, Prod.mk.injEq, true_and]
    constructor
    · rintro ⟨txin, member, same, rfl⟩
      exact ⟨rfl, txin, member, same⟩
    · rintro ⟨rfl, txin, member, same⟩
      exact ⟨txin, member, same, rfl⟩

theorem spends_iff {spent : Uint256} :
    Spends wallet spent spender ↔ ∃ outpoint, outpoint.hash = spent ∧ (outpoint, spender) ∈ mapTxSpends wallet := by
  simp only [mem_mapTxSpends]
  constructor
  · rintro ⟨wtx, member, same, notCoinBase, txin, listed, rfl⟩
    exact ⟨txin.prevout, rfl, wtx, member, same, notCoinBase, txin, listed, rfl⟩
  · rintro ⟨outpoint, rfl, wtx, member, same, notCoinBase, txin, listed, rfl⟩
    exact ⟨wtx, member, same, notCoinBase, txin, listed, rfl⟩

theorem hash_between {start : Uint256} {n : Nat} {outpoint later : COutPoint} (least : rank ⟨start, n⟩ ≤ rank outpoint)
    (le : rank outpoint ≤ rank later) (same : later.hash = start) : outpoint.hash = start := by
  rw [rank, rank, Prod.Lex.toLex_le_toLex] at least le
  rw [same] at le
  have below : memory 32 start.toNat ≤ memory 32 outpoint.hash.toNat := least.elim le_of_lt fun both => both.1.le
  have above : memory 32 outpoint.hash.toNat ≤ memory 32 start.toNat := le.elim le_of_lt fun both => both.1.le
  exact BitVec.toNat_inj.mp (memory_injective outpoint.hash.isLt start.isLt (le_antisymm above below))

theorem rank_start (outpoint : COutPoint) : rank ⟨outpoint.hash, 0⟩ ≤ rank outpoint := by
  rw [rank, rank, Prod.Lex.toLex_le_toLex]
  exact .inr ⟨rfl, Nat.zero_le _⟩

theorem dropWhile_eq (wallet : List CWalletTx) (start : Uint256) :
    (mapTxSpends wallet).dropWhile (fun entry => decide (rank entry.1 < rank ⟨start, 0⟩)) =
      (mapTxSpends wallet).filter fun entry => !decide (rank entry.1 < rank ⟨start, 0⟩) := by
  refine dropWhile_pairwise ((sorted_mapTxSpends wallet).imp fun {first second} le below => ?_)
  exact decide_eq_true (le.trans_lt (of_decide_eq_true below))

theorem mem_dropped {start : Uint256} {entry : COutPoint × Uint256} :
    entry ∈ (mapTxSpends wallet).filter (fun entry => !decide (rank entry.1 < rank ⟨start, 0⟩)) ↔
      entry ∈ mapTxSpends wallet ∧ rank ⟨start, 0⟩ ≤ rank entry.1 := by
  rw [mem_filter, Bool.not_eq_true', decide_eq_false_iff_not, not_lt]

theorem mem_spendsFrom_self {now : Uint256} : spender ∈ spendsFrom wallet now now ↔ Spends wallet now spender := by
  have taken : ((mapTxSpends wallet).filter fun entry => !decide (rank entry.1 < rank ⟨now, 0⟩)).takeWhile
      (fun entry => entry.1.hash == now) = ((mapTxSpends wallet).filter fun entry => !decide (rank entry.1 < rank ⟨now, 0⟩)).filter
        fun entry => entry.1.hash == now := by
    refine takeWhile_pairwise (((sorted_mapTxSpends wallet).filter _).imp_of_mem fun {entry later} member _ le same => ?_)
    exact beq_iff_eq.mpr (hash_between (mem_dropped.mp member).2 le (beq_iff_eq.mp same))
  rw [spendsFrom, dropWhile_eq, taken, spends_iff]
  simp only [mem_map, Prod.exists, exists_eq_right, mem_filter, beq_iff_eq, Bool.not_eq_true', decide_eq_false_iff_not, not_lt]
  constructor
  · rintro ⟨outpoint, ⟨member, -⟩, same⟩
    exact ⟨outpoint, same, member⟩
  · rintro ⟨outpoint, rfl, member⟩
    exact ⟨outpoint, ⟨member, rank_start outpoint⟩, rfl⟩

theorem spendsFrom_other {start now : Uint256} (spent : Spends wallet start spender) (different : now ≠ start) :
    spendsFrom wallet start now = [] := by
  obtain ⟨outpoint, rfl, member⟩ := spends_iff.mp spent
  have listed := mem_dropped.mpr ⟨member, rank_start outpoint⟩
  have sorted := (sorted_mapTxSpends wallet).filter fun entry => !decide (rank entry.1 < rank ⟨outpoint.hash, 0⟩)
  rw [spendsFrom, dropWhile_eq]
  cases walk : (mapTxSpends wallet).filter fun entry => !decide (rank entry.1 < rank ⟨outpoint.hash, 0⟩) with
  | nil => rfl
  | cons first rest =>
    rw [walk] at listed sorted
    have least := (mem_dropped.mp (walk ▸ mem_cons_self : first ∈ _)).2
    have le : rank first.1 ≤ rank outpoint := by
      rcases mem_cons.mp listed with same | later
      · rw [← same]
      · exact (pairwise_cons.mp sorted).1 _ later
    have here := hash_between least le rfl
    rw [takeWhile_cons_of_neg, map_nil]
    rw [beq_iff_eq, here]
    exact different.symm

end Longcoin.WalletSpends

import Longcoin.MinerTemplate
import Mathlib.Algebra.Order.Field.Basic
import Mathlib.Data.Prod.Lex
import Mathlib.Tactic.Linarith
import Mathlib.Tactic.Ring

/-! Where the whole pool fits into the block, the loop of `CreateNewBlock` forgets no transaction that pays the
relay fee: the queues cover the pool at every turn, and the early break finds only cheap entries left. -/

namespace Longcoin.Miner
open Validation Library.Selection List

variable {π : Type} {call : Call π}

def scoreKey (entry : CTxMemPoolEntry) : ℚ ×ₗ ℕ :=
  toLex ((entry.getModifiedFee : ℚ) / entry.nTxSize, hashKey entry.tx.hash)

theorem ratio_lt {a b : CTxMemPoolEntry} (sizeA : 0 < a.nTxSize) (sizeB : 0 < b.nTxSize) :
    (a.getModifiedFee : ℚ) / a.nTxSize < b.getModifiedFee / b.nTxSize ↔
      a.getModifiedFee * b.nTxSize < b.getModifiedFee * a.nTxSize := by
  have positiveA : (0 : ℚ) < a.nTxSize := by exact_mod_cast sizeA
  have positiveB : (0 : ℚ) < b.nTxSize := by exact_mod_cast sizeB
  rw [div_lt_div_iff₀ positiveA positiveB]
  exact_mod_cast Iff.rfl

theorem scoreCompare_iff {a b : CTxMemPoolEntry} (sizeA : 0 < a.nTxSize) (sizeB : 0 < b.nTxSize) :
    scoreCompare a b = true ↔ scoreKey a < scoreKey b := by
  have below := ratio_lt sizeA sizeB
  have above := ratio_lt sizeB sizeA
  have equal : (a.getModifiedFee : ℚ) / a.nTxSize = b.getModifiedFee / b.nTxSize ↔
      b.getModifiedFee * a.nTxSize = a.getModifiedFee * b.nTxSize := by
    constructor
    · intro same
      have noLess := mt below.mpr (not_lt.mpr (ge_of_eq same))
      have noMore := mt above.mpr (not_lt.mpr (le_of_eq same))
      linarith
    · intro same
      have noLess := mt below.mp (by linarith)
      have noMore := mt above.mp (by linarith)
      exact le_antisymm (not_lt.mp noMore) (not_lt.mp noLess)
  rw [scoreKey, scoreKey, Prod.Lex.toLex_lt_toLex, below, equal, scoreCompare, compareByScore]
  by_cases same : b.getModifiedFee * a.nTxSize = a.getModifiedFee * b.nTxSize
  · simp only [same, if_true, decide_eq_true_eq, true_and]
    exact ⟨.inr, fun either => either.resolve_left (by linarith)⟩
  · simp only [same, if_false, decide_eq_true_eq, false_and, or_false]

theorem low_iff (entry : CTxMemPoolEntry) : entry.getModifiedFee < call.getFee entry.nTxSize ↔
    1001 * entry.getModifiedFee ≤ ((call.nSatoshisPerK * entry.nTxSize : Nat) : Int) := by
  have lower := Nat.div_mul_le_self (call.nSatoshisPerK * entry.nTxSize) 1001
  have upper : call.nSatoshisPerK * entry.nTxSize < call.nSatoshisPerK * entry.nTxSize / 1001 * 1001 + 1001 :=
    Nat.lt_div_mul_add (by decide)
  rw [Call.getFee]
  generalize call.nSatoshisPerK * entry.nTxSize = product at lower upper ⊢
  generalize product / 1001 = quotient at lower upper ⊢
  have lowerInt : (quotient : Int) * 1001 ≤ product := by exact_mod_cast lower
  have upperInt : (product : Int) < quotient * 1001 + 1001 := by exact_mod_cast upper
  push_cast
  constructor
  · intro less
    have step := Int.lt_add_one_iff.mp less
    linarith
  · intro bounded
    by_contra more
    have least := not_lt.mp more
    linarith

theorem low_of_le {a b : CTxMemPoolEntry} (sizeA : 0 < a.nTxSize) (sizeB : 0 < b.nTxSize)
    (low : a.getModifiedFee < call.getFee a.nTxSize) (below : scoreKey b ≤ scoreKey a) :
    b.getModifiedFee < call.getFee b.nTxSize := by
  have ratio : (b.getModifiedFee : ℚ) / b.nTxSize ≤ a.getModifiedFee / a.nTxSize := by
    rcases Prod.Lex.toLex_le_toLex.mp below with less | ⟨same, -⟩
    · exact le_of_lt less
    · exact le_of_eq same
  have cross : b.getModifiedFee * (a.nTxSize : Int) ≤ a.getModifiedFee * (b.nTxSize : Int) := by
    by_contra more
    exact absurd ((ratio_lt sizeA sizeB).mpr (not_le.mp more)) (not_lt.mpr ratio)
  rw [low_iff] at low ⊢
  push_cast at low ⊢
  have positive : (0 : Int) < a.nTxSize := by exact_mod_cast sizeA
  refine le_of_mul_le_mul_right ?_ positive
  calc 1001 * b.getModifiedFee * (a.nTxSize : Int) = 1001 * (b.getModifiedFee * a.nTxSize) := by ring
    _ ≤ 1001 * (a.getModifiedFee * b.nTxSize) := by linarith
    _ = 1001 * a.getModifiedFee * b.nTxSize := by ring
    _ ≤ call.nSatoshisPerK * a.nTxSize * b.nTxSize :=
        mul_le_mul_of_nonneg_right low (Int.natCast_nonneg _)
    _ = call.nSatoshisPerK * b.nTxSize * a.nTxSize := by ring

inductive AncestorOrSelf (parents : CTxMemPoolEntry → List CTxMemPoolEntry) : CTxMemPoolEntry → CTxMemPoolEntry → Prop where
  | self (entry : CTxMemPoolEntry) : AncestorOrSelf parents entry entry
  | parent {entry parent ancestor : CTxMemPoolEntry} (isParent : parent ∈ parents entry)
      (above : AncestorOrSelf parents parent ancestor) : AncestorOrSelf parents entry ancestor

/-- With all its ancestors in the pool, the entry is final and pays the relay fee. -/
structure Worthy (call : Call π) (entry : CTxMemPoolEntry) : Prop where
  inside : entry ∈ call.mempool.byScore
  good : ∀ ancestor, AncestorOrSelf call.mempool.getMemPoolParents entry ancestor →
    call.isFinalTx ancestor.tx = true ∧ call.getFee ancestor.nTxSize ≤ ancestor.getModifiedFee

theorem Worthy.final {entry : CTxMemPoolEntry} (worthy : Worthy call entry) : call.isFinalTx entry.tx = true :=
  (worthy.good entry (.self entry)).1

theorem Worthy.parent (pool : Pool call.mempool) {entry parent : CTxMemPoolEntry} (worthy : Worthy call entry)
    (isParent : parent ∈ call.mempool.getMemPoolParents entry) : Worthy call parent where
  inside := ((pool.parents entry worthy.inside parent).mp isParent).1
  good ancestor above := worthy.good ancestor (.parent isParent above)

def Complete (call : Call π) (block : Chosen) : Prop := ∀ entry, Worthy call entry → entry ∈ block.inBlock

theorem complete_of_step (pool : Pool call.mempool) (block : Chosen)
    (step : ∀ entry, Worthy call entry → (∀ parent ∈ call.mempool.getMemPoolParents entry, parent ∈ block.inBlock) →
      entry ∈ block.inBlock) : Complete call block := by
  obtain ⟨place, above⟩ := pool.arrival
  intro entry worthy
  induction at' : place entry using Nat.strong_induction_on generalizing entry with
  | h at' ih =>
    refine step entry worthy fun parent isParent => ?_
    exact ih (place parent) (at' ▸ above entry worthy.inside parent isParent) parent (worthy.parent pool isParent) rfl

structure Fits (call : Call π) : Prop where
  size : 1000 + (call.mempool.byScore.map CTxMemPoolEntry.nTxSize).sum < call.nBlockMaxSize
  sigOps : 100 + (call.mempool.byScore.map CTxMemPoolEntry.sigOpCount).sum < MAX_BLOCK_SIGOPS

theorem sum_le_of_subperm {chosen whole : List CTxMemPoolEntry} (value : CTxMemPoolEntry → Nat)
    (part : chosen.Subperm whole) : (chosen.map value).sum ≤ (whole.map value).sum := by
  obtain ⟨middle, same, sub⟩ := part
  have total : (chosen.map value).sum = (middle.map value).sum := (same.map value).sum_nat.symm
  rw [total]
  clear same total
  induction sub with
  | slnil => exact le_rfl
  | cons entry sub ih =>
    rw [map_cons, sum_cons]
    omega
  | cons_cons entry sub ih =>
    rw [map_cons, sum_cons, map_cons, sum_cons]
    omega

variable {iter : CTxMemPoolEntry}

theorem Fits.room (fits : Fits call) {block : Chosen} (sound : Sound call block) (new : iter ∉ block.inBlock)
    (inside : iter ∈ call.mempool.byScore) :
    block.nBlockSize + iter.nTxSize < call.nBlockMaxSize ∧ block.nBlockSigOps + iter.sigOpCount < MAX_BLOCK_SIGOPS := by
  have part : (iter :: block.inBlock).Subperm call.mempool.byScore := by
    refine (nodup_cons.mpr ⟨new, sound.once⟩).subperm ?_
    rintro entry (_ | ⟨_, member⟩)
    · exact inside
    · exact sound.inside entry member
  have sizes := sum_le_of_subperm CTxMemPoolEntry.nTxSize part
  have sigOps := sum_le_of_subperm CTxMemPoolEntry.sigOpCount part
  rw [map_cons, sum_cons] at sizes sigOps
  have size := sound.sizeSum
  have sigOpSum := sound.sigOpSum
  have fitSize := fits.size
  have fitSigOps := fits.sigOps
  omega

def Waits (call : Call π) (block : Chosen) (entry : CTxMemPoolEntry) : Prop :=
  ∃ parent ∈ call.mempool.getMemPoolParents entry, parent ∉ block.inBlock

/-- While entries of high priority are chosen, the index by score is untouched. `aside` are the entries that no
queue holds. -/
structure PriorityPhase (call : Call π) (aside : CTxMemPoolEntry → Prop) (st : Selecting π) : Prop where
  phase : st.fPriorityBlock = true
  mi : st.mi = call.mempool.byScore
  waitSet : st.queues.waitSet = []
  clearedTxs : st.queues.clearedTxs = []
  covered : ∀ entry ∈ call.mempool.byScore, entry ∈ st.block.inBlock ∨ entry ∈ st.queues.queued ∨
    (entry ∈ st.queues.waiting ∧ Waits call st.block entry) ∨ aside entry

/-- After that the entries come by score; what was postponed has a score at least as high as what is left. -/
structure ScorePhase (call : Call π) (aside : CTxMemPoolEntry → Prop) (st : Selecting π) : Prop where
  past : st.fPriorityBlock = false
  covered : ∀ entry ∈ call.mempool.byScore, entry ∈ st.block.inBlock ∨ entry ∈ st.mi ∨ entry ∈ st.queues.clearedTxs ∨
    (entry ∈ st.queues.waitSet ∧ Waits call st.block entry) ∨ aside entry
  sorted : st.mi.Pairwise fun first second => scoreKey second ≤ scoreKey first
  above : ∀ left ∈ st.mi, ∀ entry, entry ∈ st.queues.clearedTxs ∨ entry ∈ st.queues.waitSet → scoreKey left ≤ scoreKey entry

def NotFinal (call : Call π) (entry : CTxMemPoolEntry) : Prop := call.isFinalTx entry.tx = false

/-- At every turn, one of the phases covers the pool, or the block is complete already. -/
def Covered (call : Call π) (st : Selecting π) : Prop :=
  Complete call st.block ∨ PriorityPhase call (NotFinal call) st ∨ ScorePhase call (NotFinal call) st

theorem Worthy.not_notFinal {entry : CTxMemPoolEntry} (worthy : Worthy call entry) : ¬NotFinal call entry := by
  intro early
  rw [NotFinal, worthy.final] at early
  cases early

section

variable (pool : Pool call.mempool)
include pool

theorem PriorityPhase.complete {st : Selecting π}
    (holds : PriorityPhase call (NotFinal call) st) (empty : st.queues.vecPriority = []) : Complete call st.block := by
  refine complete_of_step pool st.block fun entry worthy parents => ?_
  rcases holds.covered entry worthy.inside with chosen | queued | ⟨-, parent, isParent, missing⟩ | early
  · exact chosen
  · rw [Queues.queued, empty] at queued
    cases queued
  · exact absurd (parents parent isParent) missing
  · exact absurd early worthy.not_notFinal

theorem ScorePhase.complete {st : Selecting π} (holds : ScorePhase call (NotFinal call) st)
    (low : ∀ entry, entry ∈ st.mi ∨ entry ∈ st.queues.clearedTxs → entry.getModifiedFee < call.getFee entry.nTxSize) :
    Complete call st.block := by
  refine complete_of_step pool st.block fun entry worthy parents => ?_
  have pays := (worthy.good entry (.self entry)).2
  rcases holds.covered entry worthy.inside with chosen | left | cleared | ⟨-, parent, isParent, missing⟩ | early
  · exact chosen
  · exact absurd (low entry (.inl left)) (not_lt.mpr pays)
  · exact absurd (low entry (.inr cleared)) (not_lt.mpr pays)
  · exact absurd (parents parent isParent) missing
  · exact absurd early worthy.not_notFinal

theorem pool_sorted : call.mempool.byScore.Pairwise fun first second => scoreKey second ≤ scoreKey first := by
  refine pool.sorted.imp_of_mem fun {first second} one two ordered => ?_
  by_contra more
  have less := (scoreCompare_iff (pool.sizes first one) (pool.sizes second two)).mpr (not_le.mp more)
  rw [scoreCompare, ordered] at less
  cases less

theorem scorePhase_start (aside : CTxMemPoolEntry → Prop) {st : Selecting π}
    (past : st.fPriorityBlock = false) (mi : st.mi = call.mempool.byScore) (waitSet : st.queues.waitSet = [])
    (clearedTxs : st.queues.clearedTxs = []) : ScorePhase call aside st where
  past := past
  covered entry member := .inr (.inl (mi ▸ member))
  sorted := mi ▸ pool_sorted pool
  above left _ entry waits := by
    rw [waitSet, clearedTxs] at waits
    exact absurd waits (by simp)

theorem covered_initial : Covered call call.initial := by
  by_cases priority : 0 < call.nBlockPrioritySize
  · refine .inr (.inl ⟨decide_eq_true priority, rfl, rfl, rfl, fun entry member => .inr (.inl ?_)⟩)
    simp only [Queues.queued, Call.initial, if_pos priority]
    simpa using member
  · exact .inr (.inr (scorePhase_start pool _ (decide_eq_false priority) rfl rfl rfl))

end

def Aside (call : Call π) (iter entry : CTxMemPoolEntry) : Prop := entry = iter ∨ NotFinal call entry

theorem PriorityPhase.picked {st st₁ : Selecting π} (holds : PriorityPhase call (NotFinal call) st)
    (picked : Picked call st true iter st₁) : PriorityPhase call (Aside call iter) st₁ := by
  cases picked with
  | @priority front vecPriority phase taken =>
    refine ⟨phase, holds.mi, holds.waitSet, holds.clearedTxs, fun entry member => ?_⟩
    rcases holds.covered entry member with chosen | queued | waits | early
    · exact .inl chosen
    · obtain ⟨front', inside, rfl⟩ := mem_map.mp queued
      rcases mem_cons.mp (taken.mem_iff.mp inside) with rfl | later
      · exact .inr (.inr (.inr (.inl rfl)))
      · exact .inr (.inl (mem_map_of_mem later))
    · exact .inr (.inr (.inl waits))
    · exact .inr (.inr (.inr (.inr early)))

theorem ScorePhase.highest (pool : Pool call.mempool) {st st₁ : Selecting π} {priorityTx : Bool}
    (holds : ScorePhase call (NotFinal call) st) (inside : Inside call st) (picked : Picked call st priorityTx iter st₁) :
    priorityTx = false ∧ ∀ entry, entry ∈ st.mi ∨ entry ∈ st.queues.clearedTxs → scoreKey entry ≤ scoreKey iter := by
  cases picked with
  | priority phase taken => cases phase.symm.trans holds.past
  | @cleared iter clearedTxs past taken =>
    have member : iter ∈ st.queues.clearedTxs := (takeMax_perm taken).mem_iff.mpr mem_cons_self
    have agrees : ∀ first ∈ st.queues.clearedTxs, ∀ second ∈ st.queues.clearedTxs,
        scoreCompare first second = true ↔ scoreKey first < scoreKey second := fun first one second two =>
      scoreCompare_iff (pool.sizes first (inside.clearedTxs first one)) (pool.sizes second (inside.clearedTxs second two))
    refine ⟨rfl, fun entry waits => ?_⟩
    rcases waits with left | postponed
    · exact holds.above entry left iter (.inl member)
    · exact takeMax_le scoreKey agrees taken entry postponed
  | @index iter mi past empty next =>
    refine ⟨rfl, fun entry waits => ?_⟩
    rcases waits with left | postponed
    · have sorted := holds.sorted
      rw [next] at left sorted
      rcases mem_cons.mp left with rfl | later
      · exact le_rfl
      · exact (pairwise_cons.mp sorted).1 entry later
    · rw [empty] at postponed
      cases postponed

theorem ScorePhase.picked {st st₁ : Selecting π} (holds : ScorePhase call (NotFinal call) st)
    (picked : Picked call st false iter st₁) : ScorePhase call (Aside call iter) st₁ ∧ (∀ left ∈ st₁.mi, left ∈ st.mi) := by
  cases picked with
  | @cleared iter clearedTxs past taken =>
    have split := takeMax_perm taken
    refine ⟨⟨holds.past, fun entry member => ?_, holds.sorted, fun left remains entry waits => ?_⟩, fun _ => id⟩
    · rcases holds.covered entry member with chosen | left | cleared | waits | early
      · exact .inl chosen
      · exact .inr (.inl left)
      · rcases mem_cons.mp (split.mem_iff.mp cleared) with rfl | later
        · exact .inr (.inr (.inr (.inr (.inl rfl))))
        · exact .inr (.inr (.inl later))
      · exact .inr (.inr (.inr (.inl waits)))
      · exact .inr (.inr (.inr (.inr (.inr early))))
    · exact holds.above left remains entry (waits.imp_left fun later => split.mem_iff.mpr (mem_cons_of_mem _ later))
  | @index iter mi past empty next =>
    have sorted := holds.sorted
    rw [next] at sorted
    have remains : ∀ left ∈ mi, left ∈ st.mi := fun left member => next ▸ mem_cons_of_mem _ member
    refine ⟨⟨holds.past, fun entry member => ?_, (pairwise_cons.mp sorted).2, fun left member =>
      holds.above left (remains left member)⟩, remains⟩
    rcases holds.covered entry member with chosen | left | cleared | waits | early
    · exact .inl chosen
    · rw [next] at left
      rcases mem_cons.mp left with rfl | later
      · exact .inr (.inr (.inr (.inr (.inl rfl))))
      · exact .inr (.inl later)
    · exact .inr (.inr (.inl cleared))
    · exact .inr (.inr (.inr (.inl waits)))
    · exact .inr (.inr (.inr (.inr (.inr early))))

end Longcoin.Miner

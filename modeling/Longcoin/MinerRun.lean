import Longcoin.MinerComplete

/-! The turns of the loop of `CreateNewBlock` keep the pool covered, and the block template that comes out. -/

namespace Longcoin.Miner
open Primitives Validation List

variable {π : Type} {call : Call π}

theorem wait_priority (queues : Queues π) (actualPriority : π) (iter : CTxMemPoolEntry) :
    (queues.wait true actualPriority iter).queued = queues.queued ∧
      (queues.wait true actualPriority iter).waitSet = queues.waitSet ∧
      (queues.wait true actualPriority iter).clearedTxs = queues.clearedTxs ∧
      ∀ entry, entry = iter ∨ entry ∈ queues.waiting → entry ∈ (queues.wait true actualPriority iter).waiting := by
  rw [Queues.wait, if_pos rfl]
  by_cases known : (queues.waitPriMap.any fun waiting => waiting.1 == iter) = true
  · rw [if_pos known]
    refine ⟨rfl, rfl, rfl, fun entry either => ?_⟩
    rcases either with rfl | member
    · obtain ⟨waiting, inside, same⟩ := any_eq_true.mp known
      rw [← beq_iff_eq.mp same]
      exact mem_map_of_mem inside
    · exact member
  · rw [if_neg known]
    refine ⟨rfl, rfl, rfl, fun entry either => ?_⟩
    rcases either with rfl | member
    · exact mem_cons_self
    · exact mem_cons_of_mem _ member

theorem wait_score (queues : Queues π) (actualPriority : π) (iter : CTxMemPoolEntry) :
    (queues.wait false actualPriority iter).clearedTxs = queues.clearedTxs ∧
      ∀ entry, entry ∈ (queues.wait false actualPriority iter).waitSet ↔ entry = iter ∨ entry ∈ queues.waitSet := by
  rw [Queues.wait, if_neg (by decide)]
  by_cases known : queues.waitSet.contains iter = true
  · rw [if_pos known]
    refine ⟨rfl, fun entry => ⟨.inr, fun either => ?_⟩⟩
    rcases either with rfl | member
    · exact contains_iff_mem.mp known
    · exact member
  · rw [if_neg known]
    exact ⟨rfl, fun entry => mem_cons⟩

section

variable {st : Selecting π} {iter : CTxMemPoolEntry}

theorem PriorityPhase.wait (holds : PriorityPhase call (Aside call iter) st)
    (waits : Waits call st.block iter) :
    PriorityPhase call (NotFinal call) { st with queues := st.queues.wait true st.actualPriority iter } := by
  obtain ⟨queued, waitSet, clearedTxs, waiting⟩ := wait_priority st.queues st.actualPriority iter
  refine ⟨holds.phase, holds.mi, waitSet.trans holds.waitSet, clearedTxs.trans holds.clearedTxs, fun entry member => ?_⟩
  rcases holds.covered entry member with chosen | still | ⟨member, missing⟩ | same | early
  · exact .inl chosen
  · exact .inr (.inl (queued ▸ still))
  · exact .inr (.inr (.inl ⟨waiting entry (.inr member), missing⟩))
  · exact .inr (.inr (.inl ⟨waiting entry (.inl same), same ▸ waits⟩))
  · exact .inr (.inr (.inr early))

theorem ScorePhase.wait (holds : ScorePhase call (Aside call iter) st)
    (highest : ∀ left ∈ st.mi, scoreKey left ≤ scoreKey iter) (waits : Waits call st.block iter) :
    ScorePhase call (NotFinal call) { st with queues := st.queues.wait false st.actualPriority iter } := by
  obtain ⟨clearedTxs, waitSet⟩ := wait_score st.queues st.actualPriority iter
  refine ⟨holds.past, fun entry member => ?_, holds.sorted, fun left remains entry either => ?_⟩
  · rcases holds.covered entry member with chosen | left | cleared | ⟨member, missing⟩ | same | early
    · exact .inl chosen
    · exact .inr (.inl left)
    · exact .inr (.inr (.inl (clearedTxs ▸ cleared)))
    · exact .inr (.inr (.inr (.inl ⟨(waitSet entry).mpr (.inr member), missing⟩)))
    · exact .inr (.inr (.inr (.inl ⟨(waitSet entry).mpr (.inl same), same ▸ waits⟩)))
    · exact .inr (.inr (.inr (.inr early)))
  · rcases either with cleared | member
    · exact holds.above left remains entry (.inl (clearedTxs ▸ cleared))
    · rcases (waitSet entry).mp member with rfl | before
      · exact highest left remains
      · exact holds.above left remains entry (.inr before)

theorem PriorityPhase.settled (holds : PriorityPhase call (Aside call iter) st)
    (done : iter ∈ st.block.inBlock ∨ NotFinal call iter) : PriorityPhase call (NotFinal call) st := by
  refine ⟨holds.phase, holds.mi, holds.waitSet, holds.clearedTxs, fun entry member => ?_⟩
  rcases holds.covered entry member with chosen | queued | waits | rfl | early
  · exact .inl chosen
  · exact .inr (.inl queued)
  · exact .inr (.inr (.inl waits))
  · exact done.imp id fun early => .inr (.inr early)
  · exact .inr (.inr (.inr early))

theorem ScorePhase.settled (holds : ScorePhase call (Aside call iter) st)
    (done : iter ∈ st.block.inBlock ∨ NotFinal call iter) : ScorePhase call (NotFinal call) st := by
  refine ⟨holds.past, fun entry member => ?_, holds.sorted, holds.above⟩
  rcases holds.covered entry member with chosen | left | cleared | waits | rfl | early
  · exact .inl chosen
  · exact .inr (.inl left)
  · exact .inr (.inr (.inl cleared))
  · exact .inr (.inr (.inr (.inl waits)))
  · exact done.imp id fun early => .inr (.inr (.inr early))
  · exact .inr (.inr (.inr (.inr early)))

end

/-- With the entry of the turn set aside, one of the phases covers the pool. -/
def CoveredBut (call : Call π) (iter : CTxMemPoolEntry) (st : Selecting π) : Prop :=
  PriorityPhase call (Aside call iter) st ∨ ScorePhase call (Aside call iter) st

theorem CoveredBut.settled {st : Selecting π} {iter : CTxMemPoolEntry} (holds : CoveredBut call iter st)
    (done : iter ∈ st.block.inBlock ∨ NotFinal call iter) : Covered call st :=
  .inr (holds.imp (·.settled done) (·.settled done))

section

variable (pool : Pool call.mempool)
include pool

theorem CoveredBut.endPriority {st : Selecting π} {iter : CTxMemPoolEntry}
    (holds : CoveredBut call iter st) : CoveredBut call iter (call.endPriority iter st) := by
  rw [Call.endPriority]
  split
  · rcases holds with priority | score
    · exact .inr (scorePhase_start pool _ rfl priority.mi priority.waitSet priority.clearedTxs)
    next past =>
      rw [score.past, Bool.false_and] at past
      cases past
  · exact holds

theorem waits_add {block : Chosen} {iter entry : CTxMemPoolEntry} (known : iter ∈ call.mempool.byScore)
    (inside : entry ∈ call.mempool.byScore) (waits : Waits call block entry)
    (notChild : entry ∉ call.mempool.getMemPoolChildren iter) : Waits call (block.add iter) entry := by
  obtain ⟨parent, isParent, missing⟩ := waits
  refine ⟨parent, isParent, fun member => ?_⟩
  rcases mem_cons.mp member with rfl | before
  · exact notChild ((pool.children parent known entry).mpr ⟨inside, isParent⟩)
  · exact missing before

theorem PriorityPhase.add {st : Selecting π} {iter : CTxMemPoolEntry}
    (holds : PriorityPhase call (Aside call iter) st) (known : iter ∈ call.mempool.byScore) :
    PriorityPhase call (NotFinal call) (call.addToBlock iter st) := by
  obtain ⟨moved, outside, -⟩ := release_all st.fPriorityBlock (call.mempool.getMemPoolChildren iter) st.queues
  have waitSet := eq_nil_iff_forall_not_mem.mpr fun entry member =>
    absurd (holds.waitSet ▸ moved.waitSetOld entry member) not_mem_nil
  have clearedTxs := eq_nil_iff_forall_not_mem.mpr fun entry member => by
    have before := moved.clearedOld entry member
    rw [holds.waitSet, holds.clearedTxs] at before
    exact absurd before (by simp)
  refine ⟨holds.phase, holds.mi, waitSet, clearedTxs, fun entry member => ?_⟩
  rcases holds.covered entry member with chosen | queued | ⟨waiting, waits⟩ | rfl | early
  · exact .inl (mem_cons_of_mem _ chosen)
  · exact .inr (.inl (moved.queued entry queued))
  · rcases moved.waiting entry waiting with still | again
    · exact .inr (.inr (.inl ⟨still, waits_add pool known member waits fun isChild =>
        outside holds.phase entry isChild still⟩))
    · exact .inr (.inl again)
  · exact .inl mem_cons_self
  · exact .inr (.inr (.inr early))

theorem ScorePhase.add {st : Selecting π} {iter : CTxMemPoolEntry}
    (holds : ScorePhase call (Aside call iter) st) (known : iter ∈ call.mempool.byScore) :
    ScorePhase call (NotFinal call) (call.addToBlock iter st) := by
  obtain ⟨moved, -, outside⟩ := release_all st.fPriorityBlock (call.mempool.getMemPoolChildren iter) st.queues
  refine ⟨holds.past, fun entry member => ?_, holds.sorted, fun left remains entry either => ?_⟩
  · rcases holds.covered entry member with chosen | left | cleared | ⟨waiting, waits⟩ | rfl | early
    · exact .inl (mem_cons_of_mem _ chosen)
    · exact .inr (.inl left)
    · exact .inr (.inr (.inl (moved.cleared entry cleared)))
    · rcases moved.waitSet entry waiting with still | again
      · exact .inr (.inr (.inr (.inl ⟨still, waits_add pool known member waits fun isChild =>
          outside holds.past entry isChild still⟩)))
      · exact .inr (.inr (.inl again))
    · exact .inl mem_cons_self
    · exact .inr (.inr (.inr (.inr early)))
  · rcases either with cleared | waiting
    · exact holds.above left remains entry (moved.clearedOld entry cleared)
    · exact holds.above left remains entry (.inr (moved.waitSetOld entry waiting))

theorem tried_covered (fits : Fits call) {st : Selecting π} {iter : CTxMemPoolEntry}
    {turn : Turn π} (holds : CoveredBut call iter st) (sound : Sound call st.block) (known : iter ∈ call.mempool.byScore)
    (new : iter ∉ st.block.inBlock) (tried : Tried call iter st turn) : ∃ st', turn = .next st' ∧ Covered call st' := by
  obtain ⟨size, sigOps⟩ := fits.room sound new known
  cases tried with
  | tooLarge large result => exact absurd size (not_lt.mpr large)
  | notFinal early => exact ⟨st, rfl, holds.settled (.inr early)⟩
  | sigOps many result => exact absurd sigOps (not_lt.mpr many)
  | added small final few =>
    exact ⟨_, rfl, .inr (holds.imp (fun priority => priority.add pool known) fun score => score.add pool known)⟩

end

theorem tried_grows {st : Selecting π} {iter : CTxMemPoolEntry} {turn : Turn π} (tried : Tried call iter st turn)
    {st' : Selecting π} (ended : turn = .stop st' ∨ turn = .next st') : ∀ entry ∈ st.block.inBlock, entry ∈ st'.block.inBlock := by
  cases tried with
  | tooLarge large result =>
    rcases result with rfl | ⟨lastFewTxs, rfl⟩
    · obtain rfl : st = st' := by simpa using ended
      exact fun _ => id
    · obtain rfl : { st with lastFewTxs } = st' := by simpa using ended
      exact fun _ => id
  | notFinal early =>
    obtain rfl : st = st' := by simpa using ended
    exact fun _ => id
  | sigOps many result =>
    obtain rfl : st = st' := by rcases result with rfl | rfl <;> simpa using ended
    exact fun _ => id
  | added small final few =>
    obtain rfl : call.addToBlock iter st = st' := by simpa using ended
    exact fun entry member => mem_cons_of_mem _ member

theorem consider_grows {priorityTx : Bool} {iter : CTxMemPoolEntry} {st st' : Selecting π}
    (ended : call.consider priorityTx iter st = .stop st' ∨ call.consider priorityTx iter st = .next st') :
    ∀ entry ∈ st.block.inBlock, entry ∈ st'.block.inBlock := by
  have cases : Considered call priorityTx iter st (call.consider priorityTx iter st) := consider_cases priorityTx iter st
  generalize call.consider priorityTx iter st = turn at cases ended
  cases cases with
  | known chosen =>
    obtain rfl : st = st' := by simpa using ended
    exact fun _ => id
  | orphan isParent missing =>
    obtain rfl : { st with queues := st.queues.wait priorityTx st.actualPriority iter } = st' := by simpa using ended
    exact fun _ => id
  | lowFee normal low =>
    obtain rfl : call.endPriority iter st = st' := by simpa using ended
    rw [endPriority_block]
    exact fun _ => id
  | tried new parents result =>
    have grows := tried_grows result ended
    rw [endPriority_block] at grows
    exact grows

section

variable (pool : Pool call.mempool)
include pool

theorem PriorityPhase.turn (fits : Fits call) {st : Selecting π} {iter : CTxMemPoolEntry}
    (holds : PriorityPhase call (Aside call iter) st) (sound : Sound call st.block) (known : iter ∈ call.mempool.byScore) :
    ∃ st', call.consider true iter st = .next st' ∧ Covered call st' := by
  have cases : Considered call true iter st (call.consider true iter st) := consider_cases true iter st
  generalize call.consider true iter st = turn at cases
  cases cases with
  | known chosen => exact ⟨st, rfl, .inr (.inl (holds.settled (.inl chosen)))⟩
  | orphan isParent missing => exact ⟨_, rfl, .inr (.inl (holds.wait ⟨_, isParent, missing⟩))⟩
  | lowFee normal low => cases normal
  | tried new parents result =>
    have block : (call.endPriority iter st).block = st.block := endPriority_block iter st
    exact tried_covered pool fits (CoveredBut.endPriority pool (.inl holds)) (block ▸ sound) known (block ▸ new) result

theorem ScorePhase.turn (fits : Fits call) {st : Selecting π} {iter : CTxMemPoolEntry}
    (holds : ScorePhase call (Aside call iter) st) (sound : Sound call st.block) (known : iter ∈ call.mempool.byScore)
    (highest : ∀ left ∈ st.mi, scoreKey left ≤ scoreKey iter) :
    (∃ st', call.consider false iter st = .next st' ∧ Covered call st') ∨
      iter.getModifiedFee < call.getFee iter.nTxSize ∧ ∃ st', call.consider false iter st = .stop st' ∧ st'.block = st.block := by
  have cases : Considered call false iter st (call.consider false iter st) := consider_cases false iter st
  generalize call.consider false iter st = turn at cases
  cases cases with
  | known chosen => exact .inl ⟨st, rfl, .inr (.inr (holds.settled (.inl chosen)))⟩
  | orphan isParent missing => exact .inl ⟨_, rfl, .inr (.inr (holds.wait highest ⟨_, isParent, missing⟩))⟩
  | lowFee normal low => exact .inr ⟨low, _, rfl, endPriority_block iter st⟩
  | tried new parents result =>
    have block : (call.endPriority iter st).block = st.block := endPriority_block iter st
    exact .inl (tried_covered pool fits (CoveredBut.endPriority pool (.inr holds)) (block ▸ sound) known
      (block ▸ new) result)

theorem turn_covered (fits : Fits call) {st st₁ : Selecting π} {priorityTx : Bool}
    {iter : CTxMemPoolEntry} (inside : Inside call st) (sound : Sound call st.block) (covered : Covered call st)
    (picked : call.pick st = some (priorityTx, iter, st₁)) :
    (∀ st', call.consider priorityTx iter st₁ = .stop st' → Complete call st'.block) ∧
      ∀ st', call.consider priorityTx iter st₁ = .next st' → Covered call st' := by
  have found := pick_some picked
  obtain ⟨known, -, block⟩ := inside.picked found
  have finished (complete : Complete call st.block) : (∀ st', call.consider priorityTx iter st₁ = .stop st' → Complete call st'.block) ∧
      ∀ st', call.consider priorityTx iter st₁ = .next st' → Covered call st' := by
    rw [← block] at complete
    constructor
    · exact fun st' stopped entry worthy => consider_grows (.inl stopped) entry (complete entry worthy)
    · exact fun st' went => .inl fun entry worthy => consider_grows (.inr went) entry (complete entry worthy)
  have sound₁ : Sound call st₁.block := block ▸ sound
  rcases covered with complete | priority | score
  · exact finished complete
  · cases priorityTx with
    | true =>
      obtain ⟨st', went, kept⟩ := (priority.picked found).turn pool fits sound₁ known
      rw [went]
      exact ⟨nofun, fun _ same => Turn.next.inj same ▸ kept⟩
    | false =>
      refine finished (priority.complete pool ?_)
      cases found with
      | cleared past taken => exact past priority.phase
      | index past empty next => exact past priority.phase
  · obtain ⟨rfl, highest⟩ := score.highest pool inside found
    obtain ⟨holds, remains⟩ := score.picked found
    rcases holds.turn pool fits sound₁ known fun left member => highest left (.inl (remains left member)) with
      ⟨st', went, kept⟩ | ⟨low, st', stopped, same⟩
    · rw [went]
      exact ⟨nofun, fun _ same => Turn.next.inj same ▸ kept⟩
    · -- The order by score puts every entry that pays enough before the first one that does not.
      have complete : Complete call st.block := score.complete pool fun entry waits =>
        have member : entry ∈ call.mempool.byScore := waits.elim (inside.mi entry) (inside.clearedTxs entry)
        low_of_le (pool.sizes iter known) (pool.sizes entry member) low (highest entry waits)
      exact finished complete

theorem Covered.ends {st : Selecting π} (covered : Covered call st)
    (nothing : call.pick st = none) : Complete call st.block := by
  obtain ⟨mi, clearedTxs⟩ := pick_none nothing
  rcases covered with complete | priority | score
  · exact complete
  · intro entry worthy
    have member := worthy.inside
    rw [← priority.mi, mi] at member
    cases member
  · refine score.complete pool fun entry waits => ?_
    rw [mi, clearedTxs] at waits
    exact absurd waits (by simp)

theorem loop_complete (fits : Fits call) {fuel : Nat} {last : Selecting π}
    (run : call.loop fuel call.initial = some last) : Complete call last.block := by
  refine loop_post (fun st => Inside call st ∧ Sound call st.block ∧ Covered call st) (Complete call) ?_ ?_ ?_
    ⟨inside_initial call, sound_initial call, covered_initial pool⟩ run
  · exact fun st holds nothing => holds.2.2.ends pool nothing
  · exact fun st priorityTx iter st₁ st' holds picked stopped =>
      (turn_covered pool fits holds.1 holds.2.1 holds.2.2 picked).1 st' stopped
  · intro st priorityTx iter st₁ st' holds picked went
    have on := (turn_goesOn holds.1 holds.2.1 picked).2 st' went
    exact ⟨on.inside, on.sound, (turn_covered pool fits holds.1 holds.2.1 holds.2.2 picked).2 st' went⟩

end

def ParentsFirst (parents : CTxMemPoolEntry → List CTxMemPoolEntry) (chosen : List CTxMemPoolEntry) : Prop :=
  ∀ earlier entry later, chosen = earlier ++ entry :: later → ∀ parent ∈ parents entry, parent ∈ earlier

theorem AfterParents.reverse {parents : CTxMemPoolEntry → List CTxMemPoolEntry} {inBlock : List CTxMemPoolEntry}
    (ordered : AfterParents parents inBlock) : ParentsFirst parents inBlock.reverse := by
  intro earlier entry later split
  have back : inBlock = later.reverse ++ entry :: earlier.reverse := by
    rw [← reverse_reverse inBlock, split]
    simp
  clear split
  generalize later.reverse = latest at back
  induction latest generalizing inBlock with
  | nil =>
    rw [back] at ordered
    obtain ⟨above, -⟩ := ordered
    exact fun parent isParent => mem_reverse.mp (above parent isParent)
  | cons last rest ih =>
    rw [back] at ordered
    obtain ⟨-, before⟩ := ordered
    exact ih before rfl

/-- The rules that the loop is responsible for. `reserved` are the bytes of the header, the count of transactions
and the coinbase. -/
structure ObeysRules (call : Call π) (chosen : List CTxMemPoolEntry) (template : CBlockTemplate) : Prop where
  distinct : chosen.Nodup
  fromPool : ∀ entry ∈ chosen, entry ∈ call.mempool.byScore
  parentsFirst : ParentsFirst call.mempool.getMemPoolParents chosen
  final : ∀ entry ∈ chosen, call.isFinalTx entry.tx = true
  maxSize : call.nBlockMaxSize ≤ MAX_BLOCK_SIZE - 1000
  size : ∀ reserved ≤ 1000, chosen = [] ∧ reserved ≤ call.nBlockMaxSize ∨
    reserved + (chosen.map CTxMemPoolEntry.nTxSize).sum < call.nBlockMaxSize
  sigOps : ∀ coinbase ≤ 100, coinbase + (chosen.map CTxMemPoolEntry.sigOpCount).sum < MAX_BLOCK_SIGOPS
  vtx : template.vtx = call.coinbase (chosen.map CTxMemPoolEntry.nFee).sum :: chosen.map CTxMemPoolEntry.tx
  vTxFees : template.vTxFees = -(chosen.map CTxMemPoolEntry.nFee).sum :: chosen.map CTxMemPoolEntry.nFee
  vTxSigOps : template.vTxSigOps = (call.getLegacySigOpCount (call.coinbase (chosen.map CTxMemPoolEntry.nFee).sum) : Int) ::
    chosen.map fun entry => (entry.sigOpCount : Int)
  paid : (call.coinbase (chosen.map CTxMemPoolEntry.nFee).sum).vout.map CTxOut.nValue =
    [(chosen.map CTxMemPoolEntry.nFee).sum + call.getBlockSubsidy]

theorem nBlockMaxSize_bounds (call : Call π) : 1000 ≤ call.nBlockMaxSize ∧ call.nBlockMaxSize ≤ MAX_BLOCK_SIZE - 1000 := by
  constructor
  · exact le_max_left _ _
  · exact max_le (by decide) (min_le_left _ _)

theorem Sound.obeysRules {block : Chosen} (sound : Sound call block) :
    ObeysRules call block.inBlock.reverse (call.template block) := by
  have fees : (block.inBlock.reverse.map CTxMemPoolEntry.nFee).sum = block.nFees := by
    rw [map_reverse, sum_reverse, sound.feeSum]
  have bounds := nBlockMaxSize_bounds call
  exact {
    distinct := nodup_reverse.mpr sound.once
    fromPool := fun entry member => sound.inside entry (mem_reverse.mp member)
    parentsFirst := sound.ordered.reverse
    final := fun entry member => sound.final entry (mem_reverse.mp member)
    maxSize := bounds.2
    size := by
      intro reserved within
      have total := sound.sizeSum
      rw [map_reverse, sum_reverse]
      rcases sound.small with empty | small
      · exact .inl ⟨by rw [empty]; rfl, within.trans bounds.1⟩
      · exact .inr (by omega)
    sigOps := by
      intro coinbase within
      have total := sound.sigOpSum
      have few := sound.few
      rw [map_reverse, sum_reverse]
      omega
    vtx := by rw [fees, Call.template, sound.vtx, set_cons_zero]
    vTxFees := by rw [fees, Call.template, sound.fees, set_cons_zero]
    vTxSigOps := by rw [fees, Call.template, sound.sigOps, set_cons_zero]
    paid := rfl }

/-- The loop of `CreateNewBlock` ends, with a template that keeps the rules; where the whole pool fits into the
block, no transaction is forgotten that pays the relay fee with all its ancestors. -/
theorem createNewBlock_template (call : Call π) (pool : Pool call.mempool) :
    ∃ enough chosen template, (∀ fuel ≥ enough, createNewBlock call fuel = some (chosen, template)) ∧
      ObeysRules call chosen template ∧ (Fits call → ∀ entry, Worthy call entry → entry ∈ chosen) := by
  obtain ⟨enough, last, run⟩ := loop_ends (inside_initial call) (sound_initial call)
  refine ⟨enough, last.block.inBlock.reverse, call.template last.block, fun fuel more => ?_, ?_, fun fits entry worthy => ?_⟩
  · rw [createNewBlock, loop_mono run more]
    rfl
  · exact (loop_sound run).obeysRules
  · exact mem_reverse.mpr (loop_complete pool fits run entry worthy)

def parentEntry : CTxMemPoolEntry where
  tx := { hash := 1, vin := [{ prevout := { hash := 9, n := 0 }, scriptSig := [] }], vout := [{ nValue := 50, scriptPubKey := [] }] }
  nFee := 2000
  feeDelta := 0
  nTxSize := 200
  sigOpCount := 1

def childEntry : CTxMemPoolEntry where
  tx := { hash := 2, vin := [{ prevout := { hash := 1, n := 0 }, scriptSig := [] }], vout := [{ nValue := 40, scriptPubKey := [] }] }
  nFee := 5000
  feeDelta := 1000
  nTxSize := 200
  sigOpCount := 1

def familyPool : CTxMemPool where
  byScore := [childEntry, parentEntry]
  getMemPoolParents entry := if entry = childEntry then [parentEntry] else []
  getMemPoolChildren entry := if entry = parentEntry then [childEntry] else []

def familyCall (argBlockMaxSize : Nat) (mempool : CTxMemPool) : Call Nat where
  mempool := mempool
  argBlockMaxSize := argBlockMaxSize
  argBlockPrioritySize := 0
  argBlockMinSize := 0
  nSatoshisPerK := 1000
  priority _ := 0
  pricomparer first second := decide (first.1 < second.1)
  allowFree _ := false
  noPriority := 0
  isFinalTx _ := true
  getBlockSubsidy := 50
  scriptSig := []
  scriptPubKeyIn := []
  coinbaseHash _ := 3
  getLegacySigOpCount _ := 0

theorem familyPool_exact : Pool familyPool where
  unique := by
    change [(2 : Uint256), 1].Nodup
    decide
  sorted := by
    refine pairwise_pair.mpr ?_
    decide
  sizes := by
    rintro entry (_ | ⟨_, _ | ⟨_, later⟩⟩)
    · decide
    · decide
    · cases later
  parents := by
    have differs : parentEntry ≠ childEntry := by decide
    rintro entry (_ | ⟨_, _ | ⟨_, later⟩⟩) parent
    · simp only [familyPool, if_true, mem_cons, not_mem_nil, or_false]
      constructor
      · rintro rfl
        exact ⟨.inr rfl, _, mem_singleton.mpr rfl, rfl⟩
      · rintro ⟨rfl | rfl, txin, member, same⟩
        · rw [mem_singleton.mp member] at same
          cases same
        · rfl
    · simp only [familyPool, if_neg differs, mem_cons, not_mem_nil, or_false, false_iff]
      rintro ⟨rfl | rfl, txin, member, same⟩
      · rw [mem_singleton.mp member] at same
        cases same
      · rw [mem_singleton.mp member] at same
        cases same
    · cases later
  children := by
    have differs : childEntry ≠ parentEntry := by decide
    rintro entry (_ | ⟨_, _ | ⟨_, later⟩⟩) child
    · simp only [familyPool, if_neg differs, mem_cons, not_mem_nil, or_false, false_iff]
      rintro ⟨-, isParent⟩
      split_ifs at isParent
      · exact absurd (mem_singleton.mp isParent) differs
      · cases isParent
    · simp only [familyPool, if_true, mem_cons, not_mem_nil, or_false]
      constructor
      · rintro rfl
        exact ⟨.inl rfl, by rw [if_pos rfl]; exact mem_singleton.mpr rfl⟩
      · rintro ⟨rfl | rfl, isParent⟩
        · rfl
        · rw [if_neg differs.symm] at isParent
          cases isParent
    · cases later
  arrival := by
    refine ⟨fun entry => entry.tx.hash.toNat, ?_⟩
    rintro entry (_ | ⟨_, _ | ⟨_, later⟩⟩) parent isParent
    · have only : parent ∈ [parentEntry] := isParent
      rw [mem_singleton.mp only]
      decide
    · have none : parent ∈ ([] : List CTxMemPoolEntry) := isParent
      cases none
    · cases later

theorem createNewBlock_family : ∃ enough chosen template,
    (∀ fuel ≥ enough, createNewBlock (familyCall 5000 familyPool) fuel = some (chosen, template)) ∧
      ObeysRules (familyCall 5000 familyPool) chosen template ∧
      (Fits (familyCall 5000 familyPool) → ∀ entry, Worthy (familyCall 5000 familyPool) entry → entry ∈ chosen) :=
  createNewBlock_template (familyCall 5000 familyPool) familyPool_exact

def noPool : CTxMemPool where
  byScore := []
  getMemPoolParents _ := []
  getMemPoolChildren _ := []

theorem noPool_exact : Pool noPool where
  unique := nodup_nil
  sorted := Pairwise.nil
  sizes _ member := absurd member not_mem_nil
  parents _ member := absurd member not_mem_nil
  children _ member := absurd member not_mem_nil
  arrival := ⟨fun _ => 0, nofun⟩

/-- With the smallest `-blockmaxsize` a coinbase that fills its reserve is the whole block already. -/
theorem reserve_fills_block : Pool noPool ∧ (∃ template, createNewBlock (familyCall 1000 noPool) 1 = some ([], template)) ∧
    ¬(∀ reserved ≤ 1000, reserved + (([] : List CTxMemPoolEntry).map CTxMemPoolEntry.nTxSize).sum <
      (familyCall 1000 noPool).nBlockMaxSize) := by
  refine ⟨noPool_exact, ⟨_, rfl⟩, fun below => ?_⟩
  exact absurd (below 1000 le_rfl) (by decide)

end Longcoin.Miner

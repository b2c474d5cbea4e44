import Longcoin.Miner

/-! A turn of the loop of `CreateNewBlock`: where its entry comes from, what becomes of it, and how the
children of an added transaction are queued again. -/

namespace Longcoin.Miner
open Validation Library.Selection Call Queues List Option Bool

variable {π : Type} {call : Call π}

def Queues.queued (queues : Queues π) : List CTxMemPoolEntry := queues.vecPriority.map Prod.snd

def Queues.waiting (queues : Queues π) : List CTxMemPoolEntry := queues.waitPriMap.map Prod.fst

inductive Picked (call : Call π) (st : Selecting π) : Bool → CTxMemPoolEntry → Selecting π → Prop where
  | priority {front : π × CTxMemPoolEntry} {vecPriority : List (π × CTxMemPoolEntry)} (phase : st.fPriorityBlock = true)
      (taken : st.queues.vecPriority.Perm (front :: vecPriority)) :
      Picked call st true front.2
        { st with queues := { st.queues with vecPriority }, actualPriority := front.1 }
  | cleared {iter : CTxMemPoolEntry} {clearedTxs : List CTxMemPoolEntry}
      (past : st.fPriorityBlock = true → st.queues.vecPriority = [])
      (taken : takeMax scoreCompare st.queues.clearedTxs = some (iter, clearedTxs)) :
      Picked call st false iter { st with queues := { st.queues with clearedTxs } }
  | index {iter : CTxMemPoolEntry} {mi : List CTxMemPoolEntry} (past : st.fPriorityBlock = true → st.queues.vecPriority = [])
      (empty : st.queues.clearedTxs = []) (next : st.mi = iter :: mi) : Picked call st false iter { st with mi }

theorem pickByScore_some {st st' : Selecting π} {iter : CTxMemPoolEntry}
    (past : st.fPriorityBlock = true → st.queues.vecPriority = []) (picked : pickByScore st = some (iter, st')) :
    Picked call st false iter st' := by
  rw [pickByScore] at picked
  split at picked
  next found =>
    obtain ⟨rfl, rfl⟩ := Prod.mk.inj (some.inj picked)
    exact .cleared past found
  next nothing =>
    split at picked
    · cases picked
    next next =>
      obtain ⟨rfl, rfl⟩ := Prod.mk.inj (some.inj picked)
      exact .index past (takeMax_none nothing) next

theorem pickByScore_none {st : Selecting π} (nothing : pickByScore st = none) : st.mi = [] ∧ st.queues.clearedTxs = [] := by
  rw [pickByScore] at nothing
  split at nothing
  · cases nothing
  next empty =>
    split at nothing
    next past => exact ⟨past, takeMax_none empty⟩
    · cases nothing

theorem pickByPriority_some {st st' : Selecting π} {iter : CTxMemPoolEntry}
    (picked : call.pickByPriority st = some (iter, st')) : Picked call st true iter st' := by
  rw [pickByPriority] at picked
  by_cases phase : st.fPriorityBlock = true
  · rw [if_pos phase] at picked
    obtain ⟨⟨front, vecPriority⟩, best, same⟩ := map_eq_some_iff.mp picked
    obtain ⟨rfl, rfl⟩ := Prod.mk.inj same
    exact .priority phase (takeMax_perm best)
  · rw [if_neg phase] at picked
    cases picked

theorem pickByPriority_none {st : Selecting π} (nothing : call.pickByPriority st = none) :
    st.fPriorityBlock = true → st.queues.vecPriority = [] := by
  intro phase
  rw [pickByPriority, if_pos phase, map_eq_none_iff] at nothing
  exact takeMax_none nothing

theorem pick_some {st st' : Selecting π} {priorityTx : Bool} {iter : CTxMemPoolEntry}
    (picked : call.pick st = some (priorityTx, iter, st')) : Picked call st priorityTx iter st' := by
  rw [pick] at picked
  by_cases finished : (st.mi.isEmpty && st.queues.clearedTxs.isEmpty) = true
  · rw [if_pos finished] at picked
    cases picked
  rw [if_neg finished] at picked
  rcases or_eq_some_iff.mp picked with first | ⟨nothing, second⟩
  · obtain ⟨⟨iter', later⟩, found, same⟩ := map_eq_some_iff.mp first
    obtain ⟨rfl, rest⟩ := Prod.mk.inj same
    obtain ⟨rfl, rfl⟩ := Prod.mk.inj rest
    exact pickByPriority_some found
  · obtain ⟨⟨iter', later⟩, found, same⟩ := map_eq_some_iff.mp second
    obtain ⟨rfl, rest⟩ := Prod.mk.inj same
    obtain ⟨rfl, rfl⟩ := Prod.mk.inj rest
    exact pickByScore_some (pickByPriority_none (map_eq_none_iff.mp nothing)) found

theorem pick_none {st : Selecting π} (nothing : call.pick st = none) : st.mi = [] ∧ st.queues.clearedTxs = [] := by
  rw [pick] at nothing
  by_cases finished : (st.mi.isEmpty && st.queues.clearedTxs.isEmpty) = true
  · rw [Bool.and_eq_true, List.isEmpty_iff, List.isEmpty_iff] at finished
    exact finished
  · rw [if_neg finished, or_eq_none_iff] at nothing
    exact pickByScore_none (map_eq_none_iff.mp nothing.2)

/-- What becomes of an entry whose parents are in the block. -/
inductive Tried (call : Call π) (iter : CTxMemPoolEntry) (st : Selecting π) : Turn π → Prop where
  | tooLarge {turn : Turn π} (large : call.nBlockMaxSize ≤ st.block.nBlockSize + iter.nTxSize)
      (result : turn = .stop st ∨ ∃ lastFewTxs, turn = .next { st with lastFewTxs }) : Tried call iter st turn
  | notFinal (early : call.isFinalTx iter.tx = false) : Tried call iter st (.next st)
  | sigOps {turn : Turn π} (many : MAX_BLOCK_SIGOPS ≤ st.block.nBlockSigOps + iter.sigOpCount)
      (result : turn = .stop st ∨ turn = .next st) : Tried call iter st turn
  | added (fits : st.block.nBlockSize + iter.nTxSize < call.nBlockMaxSize) (final : call.isFinalTx iter.tx = true)
      (few : st.block.nBlockSigOps + iter.sigOpCount < MAX_BLOCK_SIGOPS) : Tried call iter st (.next (call.addToBlock iter st))

theorem tryAdd_cases (iter : CTxMemPoolEntry) (st : Selecting π) : Tried call iter st (call.tryAdd iter st) := by
  rw [tryAdd]
  by_cases large : st.block.nBlockSize + iter.nTxSize ≥ call.nBlockMaxSize
  · rw [if_pos large]
    refine .tooLarge large ?_
    split_ifs
    · exact .inl rfl
    · exact .inr ⟨_, rfl⟩
    · exact .inr ⟨st.lastFewTxs, rfl⟩
  rw [if_neg large]
  cases final : call.isFinalTx iter.tx with
  | false => exact .notFinal final
  | true =>
    rw [Bool.not_true, if_neg (by decide)]
    by_cases many : st.block.nBlockSigOps + iter.sigOpCount ≥ MAX_BLOCK_SIGOPS
    · rw [if_pos many]
      refine .sigOps many ?_
      split_ifs
      · exact .inl rfl
      · exact .inr rfl
    · rw [if_neg many]
      exact .added (not_le.mp large) final (not_le.mp many)

inductive Considered (call : Call π) (priorityTx : Bool) (iter : CTxMemPoolEntry) (st : Selecting π) : Turn π → Prop where
  | known (chosen : iter ∈ st.block.inBlock) : Considered call priorityTx iter st (.next st)
  | orphan {parent : CTxMemPoolEntry} (isParent : parent ∈ call.mempool.getMemPoolParents iter)
      (missing : parent ∉ st.block.inBlock) :
      Considered call priorityTx iter st (.next { st with queues := st.queues.wait priorityTx st.actualPriority iter })
  | lowFee (normal : priorityTx = false) (low : iter.getModifiedFee < call.getFee iter.nTxSize) :
      Considered call priorityTx iter st (.stop (call.endPriority iter st))
  | tried {turn : Turn π} (new : iter ∉ st.block.inBlock)
      (parents : ∀ parent ∈ call.mempool.getMemPoolParents iter, parent ∈ st.block.inBlock)
      (result : Tried call iter (call.endPriority iter st) turn) : Considered call priorityTx iter st turn

theorem consider_cases (priorityTx : Bool) (iter : CTxMemPoolEntry) (st : Selecting π) :
    Considered call priorityTx iter st (call.consider priorityTx iter st) := by
  rw [consider]
  by_cases chosen : st.block.inBlock.contains iter = true
  · rw [if_pos chosen]
    exact .known (contains_iff_mem.mp chosen)
  have new : iter ∉ st.block.inBlock := fun member => chosen (contains_iff_mem.mpr member)
  rw [if_neg chosen]
  by_cases orphan : call.isOrphan st.block iter = true
  · rw [if_pos orphan]
    obtain ⟨parent, isParent, missing⟩ := any_eq_true.mp orphan
    rw [not_eq_true', ← not_eq_true, contains_iff_mem] at missing
    exact .orphan isParent missing
  rw [if_neg orphan]
  have parents : ∀ parent ∈ call.mempool.getMemPoolParents iter, parent ∈ st.block.inBlock := by
    intro parent isParent
    by_contra missing
    refine orphan (any_eq_true.mpr ⟨parent, isParent, ?_⟩)
    rw [not_eq_true', ← not_eq_true, contains_iff_mem]
    exact missing
  by_cases low : (!priorityTx && (decide (iter.getModifiedFee < call.getFee iter.nTxSize) &&
      decide ((call.endPriority iter st).block.nBlockSize ≥ call.nBlockMinSize))) = true
  · simp only [if_pos low]
    rw [and_eq_true, and_eq_true, not_eq_true', decide_eq_true_eq] at low
    exact .lowFee low.1 low.2.1
  · simp only [if_neg low]
    exact .tried new parents (tryAdd_cases iter _)

theorem endPriority_block (iter : CTxMemPoolEntry) (st : Selecting π) : (call.endPriority iter st).block = st.block := by
  rw [endPriority]
  split <;> rfl

/-- What is moved between the queues: nothing is lost and nothing is new. -/
structure Requeued (before after : Queues π) : Prop where
  queued : ∀ iter ∈ before.queued, iter ∈ after.queued
  waiting : ∀ iter ∈ before.waiting, iter ∈ after.waiting ∨ iter ∈ after.queued
  cleared : ∀ iter ∈ before.clearedTxs, iter ∈ after.clearedTxs
  waitSet : ∀ iter ∈ before.waitSet, iter ∈ after.waitSet ∨ iter ∈ after.clearedTxs
  queuedOld : ∀ iter ∈ after.queued, iter ∈ before.queued ∨ iter ∈ before.waiting
  waitingOld : ∀ iter ∈ after.waiting, iter ∈ before.waiting
  clearedOld : ∀ iter ∈ after.clearedTxs, iter ∈ before.clearedTxs ∨ iter ∈ before.waitSet
  waitSetOld : ∀ iter ∈ after.waitSet, iter ∈ before.waitSet

theorem Requeued.refl (queues : Queues π) : Requeued queues queues :=
  ⟨fun _ => id, fun _ => .inl, fun _ => id, fun _ => .inl, fun _ => .inl, fun _ => id, fun _ => .inl, fun _ => id⟩

theorem Requeued.trans {first second third : Queues π} (one : Requeued first second) (two : Requeued second third) :
    Requeued first third where
  queued iter member := two.queued iter (one.queued iter member)
  waiting iter member := (one.waiting iter member).elim (two.waiting iter) fun moved => .inr (two.queued iter moved)
  cleared iter member := two.cleared iter (one.cleared iter member)
  waitSet iter member := (one.waitSet iter member).elim (two.waitSet iter) fun moved => .inr (two.cleared iter moved)
  queuedOld iter member := (two.queuedOld iter member).elim (one.queuedOld iter) fun moved =>
    .inr (one.waitingOld iter moved)
  waitingOld iter member := one.waitingOld iter (two.waitingOld iter member)
  clearedOld iter member := (two.clearedOld iter member).elim (one.clearedOld iter) fun moved =>
    .inr (one.waitSetOld iter moved)
  waitSetOld iter member := one.waitSetOld iter (two.waitSetOld iter member)

theorem release_requeued (fPriorityBlock : Bool) (queues : Queues π) (child : CTxMemPoolEntry) :
    Requeued queues (queues.release fPriorityBlock child) ∧
      (fPriorityBlock = true → child ∉ (queues.release fPriorityBlock child).waiting) ∧
      (fPriorityBlock = false → child ∉ (queues.release fPriorityBlock child).waitSet) := by
  cases fPriorityBlock with
  | true =>
    rw [release, if_pos rfl]
    cases found : queues.waitPriMap.find? fun waiting => waiting.1 == child with
    | none =>
      refine ⟨.refl _, fun _ member => ?_, nofun⟩
      obtain ⟨waiting, inside, same⟩ := mem_map.mp member
      have differs := find?_eq_none.mp found waiting inside
      exact differs (beq_iff_eq.mpr same)
    | some wpiter =>
      have isChild : wpiter.1 = child := by
        have holds := find?_some found
        exact beq_iff_eq.mp holds
      have inMap : child ∈ queues.waiting := mem_map.mpr ⟨wpiter, mem_of_find?_eq_some found, isChild⟩
      have kept (iter : CTxMemPoolEntry) :
          iter ∈ (queues.waitPriMap.filter fun waiting => waiting.1 != child).map Prod.fst ↔
            iter ∈ queues.waiting ∧ iter ≠ child := by
        constructor
        · intro member
          obtain ⟨waiting, inside, rfl⟩ := mem_map.mp member
          obtain ⟨inside, differs⟩ := mem_filter.mp inside
          exact ⟨mem_map_of_mem inside, bne_iff_ne.mp differs⟩
        · rintro ⟨member, differs⟩
          obtain ⟨waiting, inside, rfl⟩ := mem_map.mp member
          exact mem_map_of_mem (mem_filter.mpr ⟨inside, bne_iff_ne.mpr differs⟩)
      refine ⟨⟨?_, ?_, fun _ => id, fun _ => .inl, ?_, ?_, fun _ => .inl, fun _ => id⟩, fun _ member => ?_, ?_⟩
      · exact fun iter member => mem_cons_of_mem _ member
      · intro iter member
        by_cases same : iter = child
        · exact .inr (same ▸ mem_cons_self)
        · exact .inl ((kept iter).mpr ⟨member, same⟩)
      · intro iter member
        rcases mem_cons.mp member with same | old
        · exact .inr (same ▸ inMap)
        · exact .inl old
      · exact fun iter member => ((kept iter).mp member).1
      · exact ((kept child).mp member).2 rfl
      · exact nofun
  | false =>
    rw [release, if_neg (by decide)]
    by_cases waits : queues.waitSet.contains child = true
    · rw [if_pos waits]
      have inSet : child ∈ queues.waitSet := contains_iff_mem.mp waits
      have kept (iter : CTxMemPoolEntry) : iter ∈ queues.waitSet.filter (· != child) ↔ iter ∈ queues.waitSet ∧ iter ≠ child := by
        rw [mem_filter, bne_iff_ne]
      refine ⟨⟨fun _ => id, fun _ => .inl, ?_, ?_, fun _ => .inl, fun _ => id, ?_, ?_⟩, ?_, fun _ member => ?_⟩
      · exact fun iter member => mem_cons_of_mem _ member
      · intro iter member
        by_cases same : iter = child
        · exact .inr (same ▸ mem_cons_self)
        · exact .inl ((kept iter).mpr ⟨member, same⟩)
      · intro iter member
        rcases mem_cons.mp member with same | old
        · exact .inr (same ▸ inSet)
        · exact .inl old
      · exact fun iter member => ((kept iter).mp member).1
      · exact nofun
      · exact ((kept child).mp member).2 rfl
    · rw [if_neg waits]
      exact ⟨.refl _, nofun, fun _ member => waits (contains_iff_mem.mpr member)⟩

theorem release_all (fPriorityBlock : Bool) (children : List CTxMemPoolEntry) (queues : Queues π) :
    Requeued queues (children.foldl (release fPriorityBlock) queues) ∧ (fPriorityBlock = true → ∀ child ∈ children,
        child ∉ (children.foldl (release fPriorityBlock) queues).waiting) ∧ (fPriorityBlock = false → ∀ child ∈ children,
        child ∉ (children.foldl (release fPriorityBlock) queues).waitSet) := by
  induction children generalizing queues with
  | nil => exact ⟨.refl _, nofun, nofun⟩
  | cons child rest ih =>
    obtain ⟨here, outMap, outSet⟩ := release_requeued fPriorityBlock queues child
    obtain ⟨later, laterMap, laterSet⟩ := ih (queues.release fPriorityBlock child)
    refine ⟨here.trans later, ?_, ?_⟩
    · rintro phase other (_ | ⟨_, member⟩) inside
      · exact outMap phase (later.waitingOld _ inside)
      · exact laterMap phase other member inside
    · rintro phase other (_ | ⟨_, member⟩) inside
      · exact outSet phase (later.waitSetOld _ inside)
      · exact laterSet phase other member inside

end Longcoin.Miner

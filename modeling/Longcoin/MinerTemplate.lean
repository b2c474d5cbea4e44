import Longcoin.MinerTurn

/-! The loop of `CreateNewBlock` ends, and what it has chosen keeps the rules at every turn: no transaction
twice or before a parent, none that is not final, and the limits on size and signature operations. -/

namespace Longcoin.Miner
open Primitives Validation Library.Selection Turn List

/-- The invariant of the memory pool: distinct hashes, an index in order, and links that are exact. Entries come
after their parents. -/
structure Pool (pool : CTxMemPool) : Prop where
  unique : (pool.byScore.map fun entry => entry.tx.hash).Nodup
  sorted : pool.byScore.Pairwise fun first second => compareByScore second first = false
  sizes : ∀ entry ∈ pool.byScore, 0 < entry.nTxSize
  parents : ∀ entry ∈ pool.byScore, ∀ parent, parent ∈ pool.getMemPoolParents entry ↔
    parent ∈ pool.byScore ∧ ∃ txin ∈ entry.tx.vin, txin.prevout.hash = parent.tx.hash
  children : ∀ entry ∈ pool.byScore, ∀ child, child ∈ pool.getMemPoolChildren entry ↔
    child ∈ pool.byScore ∧ entry ∈ pool.getMemPoolParents child
  arrival : ∃ place : CTxMemPoolEntry → Nat, ∀ entry ∈ pool.byScore, ∀ parent ∈ pool.getMemPoolParents entry,
    place parent < place entry

/-- In a list with the latest first, every entry comes after its parents. -/
def AfterParents (parents : CTxMemPoolEntry → List CTxMemPoolEntry) : List CTxMemPoolEntry → Prop
  | [] => True
  | entry :: earlier => (∀ parent ∈ parents entry, parent ∈ earlier) ∧ AfterParents parents earlier

variable {π : Type} {call : Call π}

structure Sound (call : Call π) (block : Chosen) : Prop where
  vtx : block.vtx = CTransaction.dummy :: block.inBlock.reverse.map CTxMemPoolEntry.tx
  fees : block.vTxFees = -1 :: block.inBlock.reverse.map CTxMemPoolEntry.nFee
  sigOps : block.vTxSigOps = -1 :: block.inBlock.reverse.map fun entry => (entry.sigOpCount : Int)
  sizeSum : block.nBlockSize = 1000 + (block.inBlock.map CTxMemPoolEntry.nTxSize).sum
  sigOpSum : block.nBlockSigOps = 100 + (block.inBlock.map CTxMemPoolEntry.sigOpCount).sum
  feeSum : block.nFees = (block.inBlock.map CTxMemPoolEntry.nFee).sum
  once : block.inBlock.Nodup
  inside : ∀ entry ∈ block.inBlock, entry ∈ call.mempool.byScore
  ordered : AfterParents call.mempool.getMemPoolParents block.inBlock
  final : ∀ entry ∈ block.inBlock, call.isFinalTx entry.tx = true
  small : block.inBlock = [] ∨ block.nBlockSize < call.nBlockMaxSize
  few : block.nBlockSigOps < MAX_BLOCK_SIGOPS

structure Inside (call : Call π) (st : Selecting π) : Prop where
  queued : ∀ iter ∈ st.queues.queued, iter ∈ call.mempool.byScore
  waiting : ∀ iter ∈ st.queues.waiting, iter ∈ call.mempool.byScore
  waitSet : ∀ iter ∈ st.queues.waitSet, iter ∈ call.mempool.byScore
  clearedTxs : ∀ iter ∈ st.queues.clearedTxs, iter ∈ call.mempool.byScore
  mi : ∀ iter ∈ st.mi, iter ∈ call.mempool.byScore

theorem sound_initial (call : Call π) : Sound call call.initial.block where
  vtx := rfl
  fees := rfl
  sigOps := rfl
  sizeSum := rfl
  sigOpSum := rfl
  feeSum := rfl
  once := nodup_nil
  inside _ member := absurd member not_mem_nil
  ordered := trivial
  final _ member := absurd member not_mem_nil
  small := .inl rfl
  few := by
    change 100 < MAX_BLOCK_SIGOPS
    decide

variable {iter : CTxMemPoolEntry}

theorem Sound.add {block : Chosen} (sound : Sound call block) (new : iter ∉ block.inBlock)
    (inside : iter ∈ call.mempool.byScore) (parents : ∀ parent ∈ call.mempool.getMemPoolParents iter, parent ∈ block.inBlock)
    (fits : block.nBlockSize + iter.nTxSize < call.nBlockMaxSize) (final : call.isFinalTx iter.tx = true)
    (few : block.nBlockSigOps + iter.sigOpCount < MAX_BLOCK_SIGOPS) : Sound call (block.add iter) where
  vtx := by simp [Chosen.add, sound.vtx]
  fees := by simp [Chosen.add, sound.fees]
  sigOps := by simp [Chosen.add, sound.sigOps]
  sizeSum := by
    have before := sound.sizeSum
    simp only [Chosen.add, map_cons, sum_cons]
    omega
  sigOpSum := by
    have before := sound.sigOpSum
    simp only [Chosen.add, map_cons, sum_cons]
    omega
  feeSum := by
    have before := sound.feeSum
    simp only [Chosen.add, map_cons, sum_cons, before]
    exact add_comm _ _
  once := nodup_cons.mpr ⟨new, sound.once⟩
  inside := by
    rintro entry (_ | ⟨_, member⟩)
    · exact inside
    · exact sound.inside entry member
  ordered := ⟨parents, sound.ordered⟩
  final := by
    rintro entry (_ | ⟨_, member⟩)
    · exact final
    · exact sound.final entry member
  small := .inr fits
  few := few

theorem Sound.length_le {block : Chosen} (sound : Sound call block) : block.inBlock.length ≤ call.mempool.byScore.length :=
  (sound.once.subperm fun entry member => sound.inside entry member).length_le

theorem inside_initial (call : Call π) : Inside call call.initial where
  queued iter member := by
    simp only [Queues.queued, Call.initial] at member
    split_ifs at member
    · simpa using member
    · cases member
  waiting _ member := absurd member not_mem_nil
  waitSet _ member := absurd member not_mem_nil
  clearedTxs _ member := absurd member not_mem_nil
  mi _ member := member

variable {st : Selecting π} {priorityTx : Bool}

theorem Inside.picked {st' : Selecting π} (inside : Inside call st) (picked : Picked call st priorityTx iter st') :
    iter ∈ call.mempool.byScore ∧ Inside call st' ∧ st'.block = st.block := by
  cases picked with
  | @priority front vecPriority phase taken =>
    have queued (front' : π × CTxMemPoolEntry) (member : front' ∈ front :: vecPriority) :
        front'.2 ∈ call.mempool.byScore :=
      inside.queued _ (mem_map_of_mem (taken.mem_iff.mpr member))
    refine ⟨queued front mem_cons_self, ⟨?_, inside.waiting, inside.waitSet, inside.clearedTxs, inside.mi⟩, rfl⟩
    intro iter member
    obtain ⟨front', later, rfl⟩ := mem_map.mp member
    exact queued front' (mem_cons_of_mem _ later)
  | @cleared iter clearedTxs past taken =>
    have split := takeMax_perm taken
    refine ⟨inside.clearedTxs _ (split.mem_iff.mpr mem_cons_self),
      ⟨inside.queued, inside.waiting, inside.waitSet, ?_, inside.mi⟩, rfl⟩
    exact fun other member => inside.clearedTxs other (split.mem_iff.mpr (mem_cons_of_mem _ member))
  | @index iter mi past empty next =>
    refine ⟨inside.mi _ (next ▸ mem_cons_self), ⟨inside.queued, inside.waiting, inside.waitSet, inside.clearedTxs, ?_⟩, rfl⟩
    exact fun other member => inside.mi other (next ▸ mem_cons_of_mem _ member)

theorem Inside.wait (inside : Inside call st) (priorityTx : Bool) (actualPriority : π) (known : iter ∈ call.mempool.byScore) :
    Inside call { st with queues := st.queues.wait priorityTx actualPriority iter } := by
  have rest := inside
  rw [Queues.wait]
  split_ifs
  · exact { rest with }
  · refine ⟨rest.queued, ?_, rest.waitSet, rest.clearedTxs, rest.mi⟩
    rintro other (_ | ⟨_, member⟩)
    · exact known
    · exact rest.waiting other member
  · exact { rest with }
  · refine ⟨rest.queued, rest.waiting, ?_, rest.clearedTxs, rest.mi⟩
    rintro other (_ | ⟨_, member⟩)
    · exact known
    · exact rest.waitSet other member

theorem Inside.endPriority (inside : Inside call st) (iter : CTxMemPoolEntry) : Inside call (call.endPriority iter st) := by
  rw [Call.endPriority]
  split_ifs
  · exact ⟨inside.queued, fun _ h => absurd h not_mem_nil, inside.waitSet, inside.clearedTxs, inside.mi⟩
  · exact inside

theorem Inside.requeued (inside : Inside call st) (block : Chosen) {queues : Queues π} (moved : Requeued st.queues queues) :
    Inside call { st with block, queues } where
  queued iter member := (moved.queuedOld iter member).elim (inside.queued iter) (inside.waiting iter)
  waiting iter member := inside.waiting iter (moved.waitingOld iter member)
  waitSet iter member := inside.waitSet iter (moved.waitSetOld iter member)
  clearedTxs iter member := (moved.clearedOld iter member).elim (inside.clearedTxs iter) (inside.waitSet iter)
  mi := inside.mi

def weight (st : Selecting π) : Nat :=
  st.queues.vecPriority.length + st.queues.clearedTxs.length + st.mi.length

theorem weight_picked {st' : Selecting π} (picked : Picked call st priorityTx iter st') : weight st' + 1 = weight st := by
  cases picked with
  | priority phase taken =>
    have length := taken.length_eq
    rw [length_cons] at length
    simp only [weight]
    omega
  | cleared past taken =>
    have length := (takeMax_perm taken).length_eq
    rw [length_cons] at length
    simp only [weight]
    omega
  | index past empty next =>
    simp only [weight, next, length_cons]
    omega

theorem weight_wait (st : Selecting π) (priorityTx : Bool) (actualPriority : π) (iter : CTxMemPoolEntry) :
    weight { st with queues := st.queues.wait priorityTx actualPriority iter } = weight st := by
  rw [Queues.wait]
  split_ifs <;> rfl

theorem weight_endPriority (iter : CTxMemPoolEntry) (st : Selecting π) : weight (call.endPriority iter st) = weight st := by
  rw [Call.endPriority]
  split_ifs <;> rfl

/-- What a turn that goes on keeps: it adds a transaction or it uses up an entry. -/
structure GoesOn (call : Call π) (st st' : Selecting π) : Prop where
  sound : Sound call st'.block
  inside : Inside call st'
  progress : st'.block = st.block ∧ weight st' < weight st ∨
    st'.block.inBlock.length = st.block.inBlock.length + 1

theorem tried_goesOn {st₁ : Selecting π} {turn : Turn π} (known : iter ∈ call.mempool.byScore) (inside : Inside call st₁)
    (sound : Sound call st₁.block) (same : st₁.block = st.block) (lighter : weight st₁ < weight st)
    (new : iter ∉ st₁.block.inBlock) (parents : ∀ parent ∈ call.mempool.getMemPoolParents iter, parent ∈ st₁.block.inBlock)
    (tried : Tried call iter st₁ turn) :
    (∀ st', turn = .stop st' → Sound call st'.block) ∧ ∀ st', turn = .next st' → GoesOn call st st' := by
  have stay : GoesOn call st st₁ := ⟨sound, inside, .inl ⟨same, lighter⟩⟩
  cases tried with
  | tooLarge large result =>
    rcases result with rfl | ⟨lastFewTxs, rfl⟩
    · exact ⟨fun st' stopped => stop.inj stopped ▸ sound, nofun⟩
    · refine ⟨nofun, fun st' went => ?_⟩
      rw [← next.inj went]
      exact ⟨sound, { inside with }, .inl ⟨same, lighter⟩⟩
  | notFinal early => exact ⟨nofun, fun st' went => next.inj went ▸ stay⟩
  | sigOps many result =>
    rcases result with rfl | rfl
    · exact ⟨fun st' stopped => stop.inj stopped ▸ sound, nofun⟩
    · exact ⟨nofun, fun st' went => next.inj went ▸ stay⟩
  | added fits final few =>
    refine ⟨nofun, fun st' went => ?_⟩
    rw [← next.inj went]
    refine ⟨sound.add new known parents fits final few, inside.requeued _ (release_all _ _ _).1, .inr ?_⟩
    rw [← same]
    rfl

theorem turn_goesOn {st₁ : Selecting π} (inside : Inside call st) (sound : Sound call st.block)
    (picked : call.pick st = some (priorityTx, iter, st₁)) :
    (∀ st', call.consider priorityTx iter st₁ = .stop st' → Sound call st'.block) ∧
      ∀ st', call.consider priorityTx iter st₁ = .next st' → GoesOn call st st' := by
  have found := pick_some picked
  obtain ⟨known, inside₁, same⟩ := inside.picked found
  have lighter : weight st₁ < weight st := by
    have used := weight_picked found
    omega
  have sound₁ : Sound call st₁.block := same ▸ sound
  have cases : Considered call priorityTx iter st₁ (call.consider priorityTx iter st₁) := consider_cases priorityTx iter st₁
  generalize call.consider priorityTx iter st₁ = turn at cases
  cases cases with
  | known chosen =>
    refine ⟨nofun, fun st' went => ?_⟩
    rw [← next.inj went]
    exact ⟨sound₁, inside₁, .inl ⟨same, lighter⟩⟩
  | orphan isParent missing =>
    refine ⟨nofun, fun st' went => ?_⟩
    rw [← next.inj went]
    refine ⟨sound₁, inside₁.wait priorityTx _ known, .inl ⟨same, ?_⟩⟩
    rw [weight_wait]
    exact lighter
  | lowFee normal low =>
    refine ⟨fun st' stopped => ?_, nofun⟩
    rw [← stop.inj stopped, endPriority_block]
    exact sound₁
  | tried new parents result =>
    have block : (call.endPriority iter st₁).block = st₁.block := endPriority_block iter st₁
    refine tried_goesOn known (inside₁.endPriority iter) (block ▸ sound₁) (block.trans same) ?_ (block ▸ new)
      (block ▸ parents) result
    rw [weight_endPriority]
    exact lighter

theorem loop_ends (inside : Inside call st) (sound : Sound call st.block) : ∃ fuel last, call.loop fuel st = some last := by
  induction left : call.mempool.byScore.length - st.block.inBlock.length using Nat.strong_induction_on
    generalizing st with
  | h left more =>
    induction heavy : weight st using Nat.strong_induction_on generalizing st with
    | h heavy lighter =>
      cases picked : call.pick st with
      | none => exact ⟨1, st, by rw [Call.loop, picked]⟩
      | some found =>
        obtain ⟨priorityTx, iter, st₁⟩ := found
        obtain ⟨-, goes⟩ := turn_goesOn inside sound picked
        cases considered : call.consider priorityTx iter st₁ with
        | stop last =>
          refine ⟨1, last, ?_⟩
          rw [Call.loop, picked]
          simp only [considered]
        | next st' =>
          have on := goes st' considered
          obtain ⟨fuel, last, run⟩ : ∃ fuel last, call.loop fuel st' = some last := by
            rcases on.progress with ⟨same, less⟩ | longer
            · exact lighter (weight st') (heavy ▸ less) on.inside on.sound (by rw [same, left]) rfl
            · have room := on.sound.length_le
              exact more _ (by omega) on.inside on.sound rfl
          refine ⟨fuel + 1, last, ?_⟩
          rw [Call.loop, picked]
          simp only [considered]
          exact run

theorem loop_mono {fuel more : Nat} {last : Selecting π} (run : call.loop fuel st = some last) (enough : fuel ≤ more) :
    call.loop more st = some last := by
  induction fuel generalizing more st with
  | zero => exact absurd run (by simp [Call.loop])
  | succ fuel ih =>
    obtain ⟨more, rfl⟩ : ∃ less, more = less + 1 := ⟨more - 1, by omega⟩
    rw [Call.loop] at run ⊢
    cases picked : call.pick st with
    | none =>
      rw [picked] at run
      exact run
    | some found =>
      rw [picked] at run
      simp only at run ⊢
      cases considered : call.consider found.1 found.2.1 found.2.2 with
      | stop last' =>
        rw [considered] at run
        exact run
      | next st' =>
        rw [considered] at run
        exact ih run (by omega)

theorem loop_post (inv : Selecting π → Prop) (post : Chosen → Prop)
    (ends : ∀ st, inv st → call.pick st = none → post st.block)
    (stops : ∀ st priorityTx iter st₁ st', inv st → call.pick st = some (priorityTx, iter, st₁) → call.consider priorityTx iter st₁ = .stop st' → post st'.block)
    (keeps : ∀ st priorityTx iter st₁ st', inv st → call.pick st = some (priorityTx, iter, st₁) → call.consider priorityTx iter st₁ = .next st' → inv st')
    {fuel : Nat} {last : Selecting π} (starts : inv st) (run : call.loop fuel st = some last) : post last.block := by
  induction fuel generalizing st with
  | zero => exact absurd run (by simp [Call.loop])
  | succ fuel ih =>
    rw [Call.loop] at run
    cases picked : call.pick st with
    | none =>
      rw [picked] at run
      rw [← Option.some.inj run]
      exact ends st starts picked
    | some found =>
      obtain ⟨priorityTx, iter, st₁⟩ := found
      rw [picked] at run
      simp only at run
      cases considered : call.consider priorityTx iter st₁ with
      | stop st' =>
        rw [considered] at run
        rw [← Option.some.inj run]
        exact stops st priorityTx iter st₁ st' starts picked considered
      | next st' =>
        rw [considered] at run
        exact ih (keeps st priorityTx iter st₁ st' starts picked considered) run

theorem loop_sound {fuel : Nat} {last : Selecting π} (run : call.loop fuel call.initial = some last) :
    Sound call last.block := by
  refine loop_post (fun st => Inside call st ∧ Sound call st.block) (Sound call) ?_ ?_ ?_
    ⟨inside_initial call, sound_initial call⟩ run
  · exact fun st holds _ => holds.2
  · exact fun st priorityTx iter st₁ st' holds picked stopped => (turn_goesOn holds.1 holds.2 picked).1 st' stopped
  · intro st priorityTx iter st₁ st' holds picked went
    have on := (turn_goesOn holds.1 holds.2 picked).2 st' went
    exact ⟨on.inside, on.sound⟩

end Longcoin.Miner

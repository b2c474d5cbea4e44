import Longcoin.MempoolAncestors
import Longcoin.MempoolUpdate
import Longcoin.Library.Steps

/-! The address and spent indexes of the pool say what its transactions spend and pay. -/

namespace Longcoin.Mempool
open Primitives Library CMempoolAddressDeltaKey FiniteMap List Option Bool

def CTxMemPool.core (pool : CTxMemPool) (hash : Uint256) : Option (CTransaction × Int) :=
  (pool.mapTx.find hash).map fun entry => (entry.tx, entry.nTime)

variable {pool : CTxMemPool} {entry : CTxMemPoolEntry}

theorem core_some {hash : Uint256} (found : pool.mapTx.find hash = some entry) :
    pool.core hash = some (entry.tx, entry.nTime) := by
  rw [CTxMemPool.core, found, map_some]

structure Frame (pool pool' : CTxMemPool) : Prop where
  core : pool'.core = pool.core
  nextTx : pool'.mapNextTx = pool.mapNextTx
  address : pool'.mapAddress = pool.mapAddress
  addressInserted : pool'.mapAddressInserted = pool.mapAddressInserted
  spent : pool'.mapSpent = pool.mapSpent
  spentInserted : pool'.mapSpentInserted = pool.mapSpentInserted

namespace Frame

theorem refl (pool : CTxMemPool) : Frame pool pool := ⟨rfl, rfl, rfl, rfl, rfl, rfl⟩

theorem trans {first second third : CTxMemPool} (one : Frame first second) (two : Frame second third) : Frame first third :=
  ⟨two.core.trans one.core, two.nextTx.trans one.nextTx, two.address.trans one.address,
    two.addressInserted.trans one.addressInserted, two.spent.trans one.spent, two.spentInserted.trans one.spentInserted⟩

theorem foldl {A : Type} {step : CTxMemPool → A → CTxMemPool} (keeps : ∀ pool item, Frame pool (step pool item)) (items : List A)
    (pool : CTxMemPool) : Frame pool (items.foldl step pool) := by
  induction items generalizing pool with
  | nil => exact refl pool
  | cons item items ih => exact (keeps pool item).trans (ih _)

theorem foldlM {A : Type} {step : CTxMemPool → A → Option CTxMemPool}
    (keeps : ∀ pool item pool', step pool item = some pool' → Frame pool pool') {items : List A} {pool pool' : CTxMemPool}
    (goes : items.foldlM step pool = some pool') : Frame pool pool' := by
  induction items generalizing pool with
  | nil =>
    cases goes
    exact refl _
  | cons item items ih =>
    obtain ⟨middle, first, rest⟩ := bind_eq_some_iff.mp (foldlM_cons.symm.trans goes)
    exact (keeps _ _ _ first).trans (ih rest)

end Frame

theorem updateState_core {entry' : CTxMemPoolEntry} {size count : Int} {fee : Int}
    (updated : entry.updateState size fee count = some entry') : entry'.tx = entry.tx ∧ entry'.nTime = entry.nTime := by
  rw [CTxMemPoolEntry.updateState] at updated
  split at updated
  · cases updated
    exact ⟨rfl, rfl⟩
  · split at updated
    · cases updated
      exact ⟨rfl, rfl⟩
    · cases updated

variable {pool' : CTxMemPool}

theorem updateDescendantState_frame {size count : Int} {fee : Int} {it : Uint256}
    (updated : updateDescendantState size fee count pool it = some pool') : Frame pool pool' := by
  obtain ⟨entry, found, rest⟩ := bind_eq_some_iff.mp updated
  obtain ⟨entry', changed, made⟩ := bind_eq_some_iff.mp rest
  cases made
  obtain ⟨sameTx, sameTime⟩ := updateState_core changed
  refine ⟨funext fun hash => ?_, rfl, rfl, rfl, rfl, rfl⟩
  rw [CTxMemPool.core, CTxMemPool.core, find_put]
  split
  · next same => rw [same, found, map_some, map_some, sameTx, sameTime]
  · rfl

variable {order : Iteration} {setAncestors : Finset Uint256}

theorem updateAncestorsOf_frame {add : Bool} {it : Uint256}
    (updated : updateAncestorsOf order add pool it setAncestors = some pool') : Frame pool pool' := by
  obtain ⟨entry, -, rest⟩ := bind_eq_some_iff.mp updated
  obtain ⟨links, -, folded⟩ := bind_eq_some_iff.mp rest
  refine (Frame.foldl (fun pool piter => ?_) (order.list links.parents) pool).trans
    (Frame.foldlM (fun _ _ _ => updateDescendantState_frame) folded)
  exact ⟨rfl, rfl, rfl, rfl, rfl, rfl⟩

theorem updateForRemoveFromMempool_frame {entriesToRemove : Finset Uint256}
    (updated : updateForRemoveFromMempool order pool entriesToRemove = some pool') : Frame pool pool' := by
  obtain ⟨middle, ancestors, children⟩ := bind_eq_some_iff.mp updated
  refine (Frame.foldlM (fun _ _ _ step => ?_) ancestors).trans (Frame.foldlM (fun _ _ _ step => ?_) children)
  · obtain ⟨setAncestors, -, later⟩ := bind_eq_some_iff.mp step
    exact updateAncestorsOf_frame later
  · obtain ⟨links, -, made⟩ := bind_eq_some_iff.mp step
    cases made
    refine Frame.foldl (fun pool updateIt => ?_) _ _
    exact ⟨rfl, rfl, rfl, rfl, rfl, rfl⟩

variable {tx : CTransaction} {time : Int} {view : CCoinsView} {row : CMempoolAddressDeltaKey × CMempoolAddressDelta}

theorem mem_addressDebits :
    row ∈ addressDebits tx time view ↔ ∃ (i : Nat) (txin : CTxIn) (address : Nat × Uint160), tx.vin[i]? = some txin ∧
      (view txin.prevout).scriptPubKey.address = some address ∧ row = (⟨address.1, address.2, tx.hash, i, true⟩,
        ⟨time, -(view txin.prevout).nValue, txin.prevout.hash, txin.prevout.n⟩) := by
  rw [addressDebits, mem_zipIdx_filterMap]
  refine exists_congr fun i => exists_congr fun txin => ?_
  rw [exists_and_left]
  refine and_congr_right fun _ => ?_
  rw [map_eq_some_iff]
  exact exists_congr fun address => and_congr_right fun _ => eq_comm

theorem mem_addressCredits :
    row ∈ addressCredits tx time ↔ ∃ (i : Nat) (out : CTxOut) (address : Nat × Uint160), tx.vout[i]? = some out ∧
      out.scriptPubKey.address = some address ∧
      row = (⟨address.1, address.2, tx.hash, i, false⟩, { time, amount := out.nValue }) := by
  rw [addressCredits, mem_zipIdx_filterMap]
  refine exists_congr fun i => exists_congr fun out => ?_
  rw [exists_and_left]
  refine and_congr_right fun _ => ?_
  rw [map_eq_some_iff]
  exact exists_congr fun address => and_congr_right fun _ => eq_comm

theorem addressRows_txhash (member : row ∈ addressRows tx time view) : row.1.txhash = tx.hash := by
  rcases mem_append.mp member with debit | credit
  · obtain ⟨_, _, _, -, -, rfl⟩ := mem_addressDebits.mp debit
    rfl
  · obtain ⟨_, _, _, -, -, rfl⟩ := mem_addressCredits.mp credit
    rfl

theorem addressRows_nodup (tx : CTransaction) (time : Int) (view : CCoinsView) : ((addressRows tx time view).map Prod.fst).Nodup := by
  have debits : ((addressDebits tx time view).map fun row => row.1.index).Nodup := by
    refine (filterMap_map_sublist (fun input row made => ?_) tx.vin.zipIdx).nodup (nodup_zipIdx_map_snd tx.vin)
    obtain ⟨_, -, rfl⟩ := map_eq_some_iff.mp made
    rfl
  have credits : ((addressCredits tx time).map fun row => row.1.index).Nodup := by
    refine (filterMap_map_sublist (fun output row made => ?_) tx.vout.zipIdx).nodup (nodup_zipIdx_map_snd tx.vout)
    obtain ⟨_, -, rfl⟩ := map_eq_some_iff.mp made
    rfl
  rw [addressRows, map_append, nodup_append]
  refine ⟨.of_map index ?_, .of_map index ?_, ?_⟩
  · rwa [List.map_map]
  · rwa [List.map_map]
  · intro key inDebits other inCredits same
    obtain ⟨debit, member, rfl⟩ := mem_map.mp inDebits
    obtain ⟨credit, member', rfl⟩ := mem_map.mp inCredits
    obtain ⟨_, _, _, -, -, rfl⟩ := mem_addressDebits.mp member
    obtain ⟨_, _, _, -, -, rfl⟩ := mem_addressCredits.mp member'
    exact Bool.noConfusion (congrArg spending same)

/-- The pool claims the outputs that its transactions spend, and the indexes hold the values and the rows of its
transactions, each by the view it was accepted with. -/
structure Mirror (views : Uint256 → CCoinsView) (pool : CTxMemPool) : Prop where
  keyed : ∀ hash tx time, pool.core hash = some (tx, time) → tx.hash = hash
  distinct : ∀ hash tx time, pool.core hash = some (tx, time) → (tx.vin.map fun txin => txin.prevout).Nodup
  nextTx : ∀ outpoint inpoint, pool.mapNextTx.find outpoint = some inpoint ↔
    ∃ time, pool.core inpoint.ptx.hash = some (inpoint.ptx, time) ∧
      (inpoint.ptx.vin[inpoint.n]?).map (fun txin => txin.prevout) = some outpoint
  spent : ∀ outpoint value, pool.mapSpent.find outpoint = some value ↔
    ∃ inpoint, pool.mapNextTx.find outpoint = some inpoint ∧
      spentValue inpoint.ptx (views inpoint.ptx.hash) outpoint inpoint.n = value
  spentInserted : ∀ hash, pool.mapSpentInserted.find hash = (pool.core hash).map fun core => core.1.vin.map fun txin => txin.prevout
  address : ∀ key delta, pool.mapAddress.find key = some delta ↔
    ∃ tx time, pool.core key.txhash = some (tx, time) ∧ (key, delta) ∈ addressRows tx time (views key.txhash)
  addressInserted : ∀ hash, pool.mapAddressInserted.find hash =
    (pool.core hash).map fun core => (addressRows core.1 core.2 (views hash)).map Prod.fst

section

variable {views : Uint256 → CCoinsView}

variable {pool pool' : CTxMemPool}

theorem Mirror.frame (mirror : Mirror views pool) (frame : Frame pool pool') : Mirror views pool' := by
  obtain ⟨keyed, distinct, nextTx, spent, spentInserted, address, addressInserted⟩ := mirror
  constructor
  · rwa [frame.core]
  · rwa [frame.core]
  · rwa [frame.core, frame.nextTx]
  · rwa [frame.spent, frame.nextTx]
  · rwa [frame.core, frame.spentInserted]
  · rwa [frame.core, frame.address]
  · rwa [frame.core, frame.addressInserted]

theorem Mirror.claimed (mirror : Mirror views pool) {hash : Uint256} {tx : CTransaction} {time : Int}
    (inPool : pool.core hash = some (tx, time)) {outpoint : COutPoint}
    (member : outpoint ∈ tx.vin.map fun txin => txin.prevout) : ∃ n, pool.mapNextTx.find outpoint = some ⟨tx, n⟩ := by
  obtain ⟨n, at'⟩ := mem_iff_getElem?.mp member
  rw [getElem?_map] at at'
  refine ⟨n, (mirror.nextTx _ _).mpr ⟨time, ?_, at'⟩⟩
  rw [mirror.keyed _ _ _ inPool]
  exact inPool

theorem Mirror.drop (mirror : Mirror views pool) {hash : Uint256} {tx : CTransaction} {time : Int}
    (inPool : pool.core hash = some (tx, time))
    (core : ∀ other, pool'.core other = if other = hash then none else pool.core other)
    (nextTx : ∀ outpoint, pool'.mapNextTx.find outpoint = if outpoint ∈ tx.vin.map (fun txin => txin.prevout) then none else pool.mapNextTx.find outpoint)
    (spent : ∀ outpoint, pool'.mapSpent.find outpoint = if outpoint ∈ tx.vin.map (fun txin => txin.prevout) then none else pool.mapSpent.find outpoint)
    (spentInserted : pool'.mapSpentInserted = pool.mapSpentInserted.erase hash)
    (address : ∀ key, pool'.mapAddress.find key = if key ∈ (addressRows tx time (views hash)).map Prod.fst then none else pool.mapAddress.find key)
    (addressInserted : pool'.mapAddressInserted = pool.mapAddressInserted.erase hash) : Mirror views pool' := by
  have own : tx.hash = hash := mirror.keyed _ _ _ inPool
  have left : ∀ {other core}, pool'.core other = some core → pool.core other = some core := by
    intro other entry found
    rw [core] at found
    split at found
    · cases found
    · exact found
  refine ⟨fun other otherTx otherTime found => mirror.keyed _ _ _ (left found),
    fun other otherTx otherTime found => mirror.distinct _ _ _ (left found), ?_, ?_, ?_, ?_, ?_⟩
  · intro outpoint inpoint
    rw [nextTx, core]
    constructor
    · intro found
      split at found
      · cases found
      next unclaimed =>
      obtain ⟨otherTime, otherIn, spends⟩ := (mirror.nextTx _ _).mp found
      refine ⟨otherTime, ?_, spends⟩
      rw [if_neg, otherIn]
      intro same
      rw [same, inPool] at otherIn
      obtain ⟨rfl, -⟩ := Prod.mk.inj (some.inj otherIn)
      rw [← getElem?_map] at spends
      exact unclaimed (mem_of_getElem? spends)
    · rintro ⟨otherTime, otherIn, spends⟩
      split at otherIn
      · cases otherIn
      next different =>
      have found := (mirror.nextTx _ _).mpr ⟨otherTime, otherIn, spends⟩
      rw [if_neg, found]
      -- one outpoint has one spender
      intro member
      obtain ⟨n, claimed⟩ := mirror.claimed inPool member
      rw [found] at claimed
      rw [some.inj claimed] at different
      exact different own
  · intro outpoint value
    rw [spent, nextTx]
    split
    · simp
    · exact mirror.spent outpoint value
  · intro other
    rw [spentInserted, find_erase, core]
    split
    · rfl
    · exact mirror.spentInserted other
  · intro key delta
    rw [address, core]
    constructor
    · intro found
      split at found
      · cases found
      next absent =>
      obtain ⟨otherTx, otherTime, otherIn, member⟩ := (mirror.address _ _).mp found
      refine ⟨otherTx, otherTime, ?_, member⟩
      rw [if_neg, otherIn]
      intro same
      rw [same, inPool] at otherIn
      obtain ⟨rfl, rfl⟩ := Prod.mk.inj (some.inj otherIn)
      rw [same] at member
      exact absent (mem_map_of_mem member)
    · rintro ⟨otherTx, otherTime, otherIn, member⟩
      split at otherIn
      · cases otherIn
      next different =>
      rw [if_neg, (mirror.address _ _).mpr ⟨otherTx, otherTime, otherIn, member⟩]
      intro listed
      obtain ⟨row, inside, same⟩ := mem_map.mp listed
      have hashed := addressRows_txhash inside
      rw [same, own] at hashed
      exact different hashed
  · intro other
    rw [addressInserted, find_erase, core]
    split
    · rfl
    · exact mirror.addressInserted other

theorem removeUnchecked_mirror (mirror : Mirror views pool) {it : Uint256} (removed : removeUnchecked pool it = some pool') :
    Mirror views pool' := by
  obtain ⟨entry, found, made⟩ := bind_eq_some_iff.mp removed
  have inPool := core_some found
  have own : entry.tx.hash = it := mirror.keyed _ _ _ inPool
  have rows := mirror.addressInserted it
  have inputs := mirror.spentInserted it
  rw [inPool, map_some] at rows inputs
  simp only [own, removeAddressIndex, rows, removeSpentIndex, inputs] at made
  cases made
  refine mirror.drop inPool ?_ ?_ ?_ rfl ?_ rfl
  · intro other
    rw [CTxMemPool.core, find_erase]
    split
    · rfl
    · rfl
  · intro outpoint
    rw [find_foldl_erase (fun txin : CTxIn => txin.prevout)]
  · intro outpoint
    rw [find_foldl_erase (fun outpoint : COutPoint => outpoint), List.map_id']
  · intro key
    rw [find_foldl_erase (fun key : CMempoolAddressDeltaKey => key), List.map_id']

theorem removeStaged_mirror {order : Iteration} (mirror : Mirror views pool) {stage : Finset Uint256}
    (removed : removeStaged order pool stage = some pool') : Mirror views pool' := by
  obtain ⟨middle, updated, folded⟩ := bind_eq_some_iff.mp removed
  have start := mirror.frame (updateForRemoveFromMempool_frame updated)
  refine (Steps.of_foldlM folded).invariant (Mirror views) (fun before it after kept step => ?_) start
  exact removeUnchecked_mirror kept step

end

/-- What `AcceptToMemoryPool` has made sure of: the transaction is new, spends no output twice, and none that the pool
still claims. -/
structure Accepts (pool : CTxMemPool) (tx : CTransaction) : Prop where
  new : pool.mapTx.find tx.hash = none
  distinct : (tx.vin.map fun txin => txin.prevout).Nodup
  unclaimed : ∀ outpoint ∈ tx.vin.map (fun txin => txin.prevout), pool.mapNextTx.find outpoint = none

/-- `addUnchecked`, `addAddressIndex` and `addSpentIndex` of an accepted entry. -/
def accept (order : Iteration) (pool : CTxMemPool) (entry : CTxMemPoolEntry) (setAncestors : Finset Uint256) (view : CCoinsView) :
    Option CTxMemPool := do
  let pool ← addUnchecked order pool entry.tx.hash entry setAncestors
  return addSpentIndex (addAddressIndex pool entry view) entry view

theorem addUnchecked_frame (new : pool.mapTx.find entry.tx.hash = none)
    (added : addUnchecked order pool entry.tx.hash entry setAncestors = some pool') :
    (∀ other, pool'.core other = if other = entry.tx.hash then some (entry.tx, entry.nTime) else pool.core other) ∧
    pool'.mapNextTx = entry.tx.vin.zipIdx.foldl (fun map input => map.put input.1.prevout ⟨entry.tx, input.2⟩) pool.mapNextTx ∧
    pool'.mapAddress = pool.mapAddress ∧ pool'.mapAddressInserted = pool.mapAddressInserted ∧
    pool'.mapSpent = pool.mapSpent ∧ pool'.mapSpentInserted = pool.mapSpentInserted := by
  obtain ⟨updated, ancestors, made⟩ := bind_eq_some_iff.mp added
  cases made
  have parent (pool : CTxMemPool) (phash : Uint256) :
      Frame pool (if (pool.mapTx.find phash).isSome then updateParent pool entry.tx.hash phash true else pool) := by
    split
    · exact ⟨rfl, rfl, rfl, rfl, rfl, rfl⟩
    · exact .refl pool
  have frame := (Frame.foldl parent _ _).trans (updateAncestorsOf_frame ancestors)
  refine ⟨fun other => ?_, frame.nextTx, frame.address, frame.addressInserted, frame.spent, frame.spentInserted⟩
  change updated.core other = _
  rw [frame.core, CTxMemPool.core, CTxMemPool.core, insertNew_absent new]
  split
  · split
    · rw [find_modify, find_put]
      split <;> rfl
    · rw [find_put]
      split <;> rfl
  · rw [find_put]
    split <;> rfl

theorem Mirror.spender_ne {views : Uint256 → CCoinsView} (mirror : Mirror views pool) (fresh : pool.core tx.hash = none)
    {outpoint : COutPoint} {inpoint : CInPoint} (found : pool.mapNextTx.find outpoint = some inpoint) :
    inpoint.ptx.hash ≠ tx.hash := by
  obtain ⟨time, inPool, -⟩ := (mirror.nextTx _ _).mp found
  intro same
  rw [same, fresh] at inPool
  cases inPool

theorem Mirror.add {views : Uint256 → CCoinsView} (mirror : Mirror views pool) (fresh : pool.core tx.hash = none)
    (distinct : (tx.vin.map fun txin => txin.prevout).Nodup)
    (unclaimed : ∀ outpoint ∈ tx.vin.map (fun txin => txin.prevout), pool.mapNextTx.find outpoint = none)
    (core : ∀ other, pool'.core other = if other = tx.hash then some (tx, time) else pool.core other)
    (nextTx : ∀ outpoint inpoint, pool'.mapNextTx.find outpoint = some inpoint ↔
      (∃ i txin, tx.vin[i]? = some txin ∧ txin.prevout = outpoint ∧ (⟨tx, i⟩ : CInPoint) = inpoint) ∨
      outpoint ∉ tx.vin.map (fun txin => txin.prevout) ∧ pool.mapNextTx.find outpoint = some inpoint)
    (spent : ∀ outpoint value, pool'.mapSpent.find outpoint = some value ↔
      (∃ i txin, tx.vin[i]? = some txin ∧ txin.prevout = outpoint ∧ spentValue tx view txin.prevout i = value) ∨
      outpoint ∉ tx.vin.map (fun txin => txin.prevout) ∧ pool.mapSpent.find outpoint = some value)
    (spentInserted : pool'.mapSpentInserted = pool.mapSpentInserted.put tx.hash (tx.vin.map fun txin => txin.prevout))
    (address : ∀ key delta, pool'.mapAddress.find key = some delta ↔ (key, delta) ∈ addressRows tx time view ∨
      key ∉ (addressRows tx time view).map Prod.fst ∧ pool.mapAddress.find key = some delta)
    (addressInserted : pool'.mapAddressInserted = pool.mapAddressInserted.put tx.hash ((addressRows tx time view).map Prod.fst)) :
    Mirror (Function.update views tx.hash view) pool' := by
  have newer : Function.update views tx.hash view tx.hash = view := Function.update_self _ _ _
  have older : ∀ {hash}, hash ≠ tx.hash → Function.update views tx.hash view hash = views hash :=
    fun different => Function.update_of_ne different _ _
  refine ⟨?_, ?_, ?_, ?_, ?_, ?_, ?_⟩
  · intro other otherTx otherTime found
    rw [core] at found
    split at found
    · next same =>
      obtain ⟨rfl, -⟩ := Prod.mk.inj (some.inj found)
      exact same.symm
    · exact mirror.keyed _ _ _ found
  · intro other otherTx otherTime found
    rw [core] at found
    split at found
    · obtain ⟨rfl, -⟩ := Prod.mk.inj (some.inj found)
      exact distinct
    · exact mirror.distinct _ _ _ found
  · intro outpoint inpoint
    rw [nextTx, core]
    constructor
    · rintro (⟨i, txin, at', rfl, rfl⟩ | ⟨-, found⟩)
      · refine ⟨time, if_pos rfl, ?_⟩
        rw [at', map_some]
      · obtain ⟨otherTime, otherIn, spends⟩ := (mirror.nextTx _ _).mp found
        exact ⟨otherTime, (if_neg (mirror.spender_ne fresh found)).trans otherIn, spends⟩
    · rintro ⟨otherTime, otherIn, spends⟩
      split at otherIn
      · obtain ⟨same, -⟩ := Prod.mk.inj (some.inj otherIn)
        obtain ⟨ptx, n⟩ := inpoint
        subst same
        obtain ⟨txin, at', spent'⟩ := map_eq_some_iff.mp spends
        exact .inl ⟨n, txin, at', spent', rfl⟩
      · have found := (mirror.nextTx _ _).mpr ⟨otherTime, otherIn, spends⟩
        refine .inr ⟨fun member => ?_, found⟩
        rw [unclaimed outpoint member] at found
        cases found
  · intro outpoint value
    rw [spent]
    constructor
    · rintro (⟨i, txin, at', rfl, rfl⟩ | ⟨absent, found⟩)
      · refine ⟨⟨tx, i⟩, (nextTx _ _).mpr (.inl ⟨i, txin, at', rfl, rfl⟩), ?_⟩
        rw [newer]
      · obtain ⟨inpoint, claimed, rfl⟩ := (mirror.spent _ _).mp found
        refine ⟨inpoint, (nextTx _ _).mpr (.inr ⟨absent, claimed⟩), ?_⟩
        rw [older (mirror.spender_ne fresh claimed)]
    · rintro ⟨inpoint, claimed, rfl⟩
      rcases (nextTx _ _).mp claimed with ⟨i, txin, at', rfl, rfl⟩ | ⟨absent, found⟩
      · refine .inl ⟨i, txin, at', rfl, ?_⟩
        rw [newer]
      · refine .inr ⟨absent, (mirror.spent _ _).mpr ⟨inpoint, found, ?_⟩⟩
        rw [older (mirror.spender_ne fresh found)]
  · intro other
    rw [spentInserted, find_put, core]
    split
    · rfl
    · exact mirror.spentInserted other
  · intro key delta
    rw [address, core]
    constructor
    · rintro (own | ⟨-, found⟩)
      · have hashed := addressRows_txhash own
        refine ⟨tx, time, if_pos hashed, ?_⟩
        rw [hashed, newer]
        exact own
      · obtain ⟨otherTx, otherTime, otherIn, member⟩ := (mirror.address _ _).mp found
        have different : key.txhash ≠ tx.hash := by
          intro same
          rw [same, fresh] at otherIn
          cases otherIn
        refine ⟨otherTx, otherTime, (if_neg different).trans otherIn, ?_⟩
        rw [older different]
        exact member
    · rintro ⟨otherTx, otherTime, otherIn, member⟩
      split at otherIn
      · next same =>
        obtain ⟨rfl, rfl⟩ := Prod.mk.inj (some.inj otherIn)
        rw [same, newer] at member
        exact .inl member
      · next different =>
        rw [older different] at member
        refine .inr ⟨fun listed => ?_, (mirror.address _ _).mpr ⟨otherTx, otherTime, otherIn, member⟩⟩
        obtain ⟨row, inside, same⟩ := mem_map.mp listed
        have hashed := addressRows_txhash inside
        rw [same] at hashed
        exact different hashed
  · intro other
    rw [addressInserted, find_put, core]
    split
    · next same =>
      rw [same, map_some, newer]
    · next different =>
      rw [older different]
      exact mirror.addressInserted other

theorem accept_mirror {views : Uint256 → CCoinsView} (mirror : Mirror views pool) (accepts : Accepts pool entry.tx)
    (accepted : accept order pool entry setAncestors view = some pool') :
    Mirror (Function.update views entry.tx.hash view) pool' := by
  obtain ⟨middle, added, made⟩ := bind_eq_some_iff.mp accepted
  cases made
  obtain ⟨core, nextTx, address, addressInserted, spent, spentInserted⟩ := addUnchecked_frame accepts.new added
  have fresh : pool.core entry.tx.hash = none := by rw [CTxMemPool.core, accepts.new, map_none]
  have inputs : (entry.tx.vin.zipIdx.map fun input => input.1.prevout) = entry.tx.vin.map fun txin => txin.prevout := by
    conv_rhs => rw [← List.zipIdx_map_fst 0 entry.tx.vin, List.map_map]
    rfl
  have distinct : (entry.tx.vin.zipIdx.map fun input => input.1.prevout).Nodup := by rw [inputs]; exact accepts.distinct
  have noRow : ∀ row ∈ addressRows entry.tx entry.nTime view, pool.mapAddress.find row.1 = none := by
    intro row member
    rw [eq_none_iff_forall_ne_some]
    intro delta found
    obtain ⟨otherTx, otherTime, otherIn, -⟩ := (mirror.address _ _).mp found
    rw [addressRows_txhash member, fresh] at otherIn
    cases otherIn
  have notSpent : ∀ input ∈ entry.tx.vin.zipIdx, pool.mapSpent.find input.1.prevout = none := by
    intro input member
    rw [eq_none_iff_forall_ne_some]
    intro value found
    obtain ⟨inpoint, claimed, -⟩ := (mirror.spent _ _).mp found
    rw [accepts.unclaimed _ (mem_map_of_mem (fst_mem_of_mem_zipIdx member))] at claimed
    cases claimed
  have noKeys : pool.mapAddressInserted.find entry.tx.hash = none := by rw [mirror.addressInserted, fresh, map_none]
  have noInputs : pool.mapSpentInserted.find entry.tx.hash = none := by rw [mirror.spentInserted, fresh, map_none]
  have place (holds : CTxIn → Nat → Prop) (outpoint : COutPoint) :
      (∃ input ∈ entry.tx.vin.zipIdx, input.1.prevout = outpoint ∧ holds input.1 input.2) ↔
        ∃ i txin, entry.tx.vin[i]? = some txin ∧ txin.prevout = outpoint ∧ holds txin i := by
    constructor
    · rintro ⟨⟨txin, i⟩, member, same, right⟩
      exact ⟨i, txin, mem_zipIdx_iff_getElem?.mp member, same, right⟩
    · rintro ⟨i, txin, at', same, right⟩
      exact ⟨(txin, i), mem_zipIdx_iff_getElem?.mpr at', same, right⟩
  refine mirror.add fresh accepts.distinct accepts.unclaimed core ?_ ?_ ?_ ?_ ?_
  · intro outpoint inpoint
    change middle.mapNextTx.find outpoint = some inpoint ↔ _
    rw [nextTx, find_foldl_put (fun input : CTxIn × Nat => input.1.prevout) (fun input => (⟨entry.tx, input.2⟩ : CInPoint))
      distinct, inputs, place fun _ i => (⟨entry.tx, i⟩ : CInPoint) = inpoint]
  · intro outpoint value
    simp only [addSpentIndex, addAddressIndex]
    rw [spent, foldl_insertNew (fun input : CTxIn × Nat => input.1.prevout)
      (fun input => spentValue entry.tx view input.1.prevout input.2) distinct notSpent,
      find_foldl_put (fun input : CTxIn × Nat => input.1.prevout)
        (fun input => spentValue entry.tx view input.1.prevout input.2) distinct,
      inputs, place fun txin i => spentValue entry.tx view txin.prevout i = value]
  · simp only [addSpentIndex, addAddressIndex]
    rw [spentInserted, insertNew_absent noInputs]
  · intro key delta
    simp only [addSpentIndex, addAddressIndex]
    rw [address, foldl_insertNew Prod.fst Prod.snd (addressRows_nodup _ _ _) noRow,
      find_foldl_put Prod.fst Prod.snd (addressRows_nodup _ _ _)]
    refine or_congr_left ?_
    constructor
    · rintro ⟨row, member, rfl, rfl⟩
      exact member
    · exact fun member => ⟨_, member, rfl, rfl⟩
  · simp only [addSpentIndex, addAddressIndex]
    rw [addressInserted, insertNew_absent noKeys]

inductive PoolCall where
  | accept (entry : CTxMemPoolEntry) (setAncestors : Finset Uint256) (view : CCoinsView)
  | removeStaged (stage : Finset Uint256)
  | clear

def CTxMemPool.call (order : Iteration) (pool : CTxMemPool) : PoolCall → Option CTxMemPool
  | .accept entry setAncestors view => accept order pool entry setAncestors view
  | .removeStaged stage => removeStaged order pool stage
  | .clear => some (clear pool)

def PoolCall.Allowed (pool : CTxMemPool) : PoolCall → Prop
  | .accept entry _ _ => Accepts pool entry.tx
  | _ => True

def PoolCall.Keeps (pool : CTxMemPool) : PoolCall → Prop
  | .clear => pool.mapTx.keys = ∅
  | _ => True

/-- The views that the transactions were accepted with last. -/
def viewsAfter : List PoolCall → (Uint256 → CCoinsView) → Uint256 → CCoinsView
  | [], views => views
  | .accept entry _ view :: calls, views => viewsAfter calls (Function.update views entry.tx.hash view)
  | _ :: calls, views => viewsAfter calls views

theorem empty_mirror (views : Uint256 → CCoinsView) : Mirror views {} where
  keyed _ _ _ found := by cases found
  distinct _ _ _ found := by cases found
  nextTx _ _ := by
    constructor
    · intro found
      cases found
    · rintro ⟨_, found, -⟩
      cases found
  spent _ _ := by
    constructor
    · intro found
      cases found
    · rintro ⟨_, found, -⟩
      cases found
  spentInserted _ := rfl
  address _ _ := by
    constructor
    · intro found
      cases found
    · rintro ⟨_, _, found, -⟩
      cases found
  addressInserted _ := rfl

theorem clear_mirror {views : Uint256 → CCoinsView} (mirror : Mirror views pool) (empty : pool.mapTx.keys = ∅) :
    Mirror views (clear pool) := by
  have nothing : pool.core = fun _ => none := by
    funext hash
    have absent : pool.mapTx.find hash = none := by
      rw [find_eq_none, empty]
      exact Finset.notMem_empty hash
    rw [CTxMemPool.core, absent, map_none]
  have unclaimed : pool.mapNextTx = .empty := by
    ext outpoint inpoint
    constructor
    · intro found
      obtain ⟨time, inPool, -⟩ := (mirror.nextTx outpoint inpoint).mp found
      rw [nothing] at inPool
      cases inPool
    · intro found
      cases found
  exact mirror.frame ⟨nothing.symm, unclaimed.symm, rfl, rfl, rfl, rfl⟩

theorem run_mirror {calls : List PoolCall} {last : CTxMemPool} {views : Uint256 → CCoinsView}
    (run : Steps (fun pool call pool' => PoolCall.Allowed pool call ∧ PoolCall.Keeps pool call ∧ CTxMemPool.call order pool call = some pool') pool calls last)
    (mirror : Mirror views pool) : Mirror (viewsAfter calls views) last := by
  induction run generalizing views with
  | done pool => exact mirror
  | @more pool pool' last call calls first rest ih =>
    obtain ⟨allowed, keeps, goes⟩ := first
    cases call with
    | accept entry setAncestors view => exact ih (accept_mirror mirror allowed goes)
    | removeStaged stage => exact ih (removeStaged_mirror mirror goes)
    | clear =>
      cases goes
      exact ih (clear_mirror mirror keeps)

theorem memory_zero_le (size blob : Nat) : memory size 0 ≤ memory size blob := by
  rw [← not_lt]
  induction size generalizing blob with
  | zero => exact lt_irrefl _
  | succ size ih =>
    rw [memory, memory, Bytes.littleBytes, Bytes.littleBytes, map_cons, map_cons, cons_lt_cons_iff]
    rintro (less | ⟨-, later⟩)
    · cases less
    · exact ih (blob / 256) later

theorem lower_le {key : CMempoolAddressDeltaKey} :
    (⟨key.type, key.addressBytes, 0, 0, false⟩ : CMempoolAddressDeltaKey) ≤ key := by
  change rank _ ≤ rank key
  rw [rank, rank, Prod.Lex.toLex_le_toLex']
  refine ⟨le_refl _, fun _ => ?_⟩
  rw [Prod.Lex.toLex_le_toLex']
  refine ⟨le_refl _, fun _ => ?_⟩
  rw [Prod.Lex.toLex_le_toLex']
  refine ⟨memory_zero_le 32 _, fun _ => ?_⟩
  rw [Prod.Lex.toLex_le_toLex']
  exact ⟨Nat.zero_le _, fun _ => Bool.false_le _⟩

theorem address_between {first key last : CMempoolAddressDeltaKey} (above : first ≤ key) (below : key ≤ last)
    (type : first.type = last.type) (address : first.addressBytes = last.addressBytes) :
    key.type = last.type ∧ key.addressBytes = last.addressBytes := by
  change rank _ ≤ rank _ at above below
  rw [rank, rank, Prod.Lex.toLex_le_toLex'] at above below
  obtain ⟨typeAbove, restAbove⟩ := above
  obtain ⟨typeBelow, restBelow⟩ := below
  dsimp only at typeAbove typeBelow restAbove restBelow
  have same : key.type = last.type := by omega
  have addressAbove := restAbove (type.trans same.symm)
  have addressBelow := restBelow same
  rw [Prod.Lex.toLex_le_toLex'] at addressAbove addressBelow
  rw [address] at addressAbove
  have bytes := le_antisymm addressBelow.1 addressAbove.1
  exact ⟨same, BitVec.toNat_inj.mp (memory_injective key.addressBytes.isLt last.addressBytes.isLt bytes)⟩

theorem getAddressIndex_single (pool : CTxMemPool) (address : Uint160 × Nat) : getAddressIndex pool [address] =
      (pool.mapAddress.keys.sort.filter fun key => key.addressBytes == address.1 && key.type == address.2).filterMap
        fun key => (pool.mapAddress.find key).map fun delta => (key, delta) := by
  rw [getAddressIndex, flatMap_singleton]
  dsimp only
  rw [scan_sorted (Finset.sortedLT_sort _).pairwise]
  · intro key wanted
    rw [and_eq_true, beq_iff_eq, beq_iff_eq] at wanted
    rw [← wanted.1, ← wanted.2]
    exact lower_le
  · intro key later above below wanted
    rw [and_eq_true, beq_iff_eq, beq_iff_eq] at wanted ⊢
    obtain ⟨type, bytes⟩ := address_between above below.le wanted.2.symm wanted.1.symm
    exact ⟨bytes.trans wanted.1, type.trans wanted.2⟩

theorem mem_getAddressIndex {address : Uint160 × Nat} : row ∈ getAddressIndex pool [address] ↔
      pool.mapAddress.find row.1 = some row.2 ∧ row.1.addressBytes = address.1 ∧ row.1.type = address.2 := by
  rw [getAddressIndex_single, mem_filterMap]
  constructor
  · rintro ⟨key, inside, made⟩
    obtain ⟨delta, found, rfl⟩ := map_eq_some_iff.mp made
    have wanted := (mem_filter.mp inside).2
    rw [and_eq_true, beq_iff_eq, beq_iff_eq] at wanted
    exact ⟨found, wanted⟩
  · rintro ⟨found, wanted⟩
    refine ⟨row.1, mem_filter.mpr ⟨(Finset.mem_sort _).mpr (mem_of_find found), ?_⟩, ?_⟩
    · rwa [and_eq_true, beq_iff_eq, beq_iff_eq]
    · rw [found, map_some]

theorem getAddressIndex_nodup (pool : CTxMemPool) (address : Uint160 × Nat) :
    ((getAddressIndex pool [address]).map Prod.fst).Nodup := by
  rw [getAddressIndex_single]
  refine Sublist.nodup (filterMap_map_sublist (fun key row made => ?_) _ : Sublist _ (map id _)) ?_
  · obtain ⟨delta, -, rfl⟩ := map_eq_some_iff.mp made
    rfl
  · rw [List.map_id]
    exact (Finset.sort_nodup _ _).filter _

/-- A debit of an address, for an input of a transaction of the pool that spends an output of the address. -/
def Debit (views : Uint256 → CCoinsView) (pool : CTxMemPool) (address : Uint160 × Nat)
    (row : CMempoolAddressDeltaKey × CMempoolAddressDelta) : Prop :=
  ∃ hash entry i txin, pool.mapTx.find hash = some entry ∧ entry.tx.vin[i]? = some txin ∧
    (views hash txin.prevout).scriptPubKey.address = some (address.2, address.1) ∧
    row = (⟨address.2, address.1, hash, i, true⟩,
      ⟨entry.nTime, -(views hash txin.prevout).nValue, txin.prevout.hash, txin.prevout.n⟩)

/-- A credit of an address, for an output of a transaction of the pool. -/
def Credit (pool : CTxMemPool) (address : Uint160 × Nat) (row : CMempoolAddressDeltaKey × CMempoolAddressDelta) : Prop :=
  ∃ hash entry i out, pool.mapTx.find hash = some entry ∧ entry.tx.vout[i]? = some out ∧
    out.scriptPubKey.address = some (address.2, address.1) ∧
    row = (⟨address.2, address.1, hash, i, false⟩, { time := entry.nTime, amount := out.nValue })

/-- The spent index answers for the outputs that the pool claims, and names their spenders; the address index lists the
debits and credits of the pool, each once. -/
structure IndexesMirror (views : Uint256 → CCoinsView) (pool : CTxMemPool) : Prop where
  claimed : ∀ outpoint, (getSpentIndex pool outpoint).isSome = (pool.mapNextTx.find outpoint).isSome
  spender : ∀ outpoint value, getSpentIndex pool outpoint = some value → ∃ entry txin,
    pool.mapTx.find value.txid = some entry ∧ entry.tx.vin[value.inputIndex]? = some txin ∧ txin.prevout = outpoint ∧
    pool.mapNextTx.find outpoint = some ⟨entry.tx, value.inputIndex⟩
  rows : ∀ address row, row ∈ getAddressIndex pool [address] ↔ Debit views pool address row ∨ Credit pool address row
  once : ∀ address, ((getAddressIndex pool [address]).map Prod.fst).Nodup

theorem core_found {hash : Uint256} (inPool : pool.core hash = some (tx, time)) :
    ∃ entry, pool.mapTx.find hash = some entry ∧ entry.tx = tx ∧ entry.nTime = time := by
  obtain ⟨entry, found, same⟩ := map_eq_some_iff.mp inPool
  obtain ⟨sameTx, sameTime⟩ := Prod.mk.inj same
  exact ⟨entry, found, sameTx, sameTime⟩

theorem Mirror.indexes {views : Uint256 → CCoinsView} (mirror : Mirror views pool) : IndexesMirror views pool := by
  refine ⟨fun outpoint => ?_, fun outpoint value found => ?_, fun address row => ?_, getAddressIndex_nodup pool⟩
  · rw [Bool.eq_iff_iff, Option.isSome_iff_exists, Option.isSome_iff_exists]
    constructor
    · rintro ⟨value, found⟩
      obtain ⟨inpoint, claimed, -⟩ := (mirror.spent _ _).mp found
      exact ⟨inpoint, claimed⟩
    · rintro ⟨inpoint, claimed⟩
      exact ⟨_, (mirror.spent _ _).mpr ⟨inpoint, claimed, rfl⟩⟩
  · obtain ⟨⟨ptx, n⟩, claimed, rfl⟩ := (mirror.spent _ _).mp found
    obtain ⟨time, inPool, spends⟩ := (mirror.nextTx _ _).mp claimed
    obtain ⟨txin, at', same⟩ := map_eq_some_iff.mp spends
    obtain ⟨entry, here, rfl, -⟩ := core_found inPool
    exact ⟨entry, txin, here, at', same, claimed⟩
  · rw [mem_getAddressIndex]
    constructor
    · rintro ⟨found, rightBytes, rightType⟩
      obtain ⟨tx, time, inPool, member⟩ := (mirror.address _ _).mp found
      obtain ⟨entry, here, rfl, rfl⟩ := core_found inPool
      obtain ⟨⟨type, bytes, txhash, index, spending⟩, delta⟩ := row
      dsimp only at rightBytes rightType member here
      rcases mem_append.mp member with debit | credit
      · obtain ⟨i, txin, ⟨otherType, otherBytes⟩, at', pays, made⟩ := mem_addressDebits.mp debit
        obtain ⟨same, rfl⟩ := Prod.mk.inj made
        obtain ⟨rfl, rfl, rfl, rfl, rfl⟩ := mk.inj same
        subst rightBytes rightType
        exact .inl ⟨_, entry, index, txin, here, at', pays, rfl⟩
      · obtain ⟨i, out, ⟨otherType, otherBytes⟩, at', pays, made⟩ := mem_addressCredits.mp credit
        obtain ⟨same, rfl⟩ := Prod.mk.inj made
        obtain ⟨rfl, rfl, rfl, rfl, rfl⟩ := mk.inj same
        subst rightBytes rightType
        exact .inr ⟨_, entry, index, out, here, at', pays, rfl⟩
    · rintro (⟨hash, entry, i, txin, here, at', pays, rfl⟩ | ⟨hash, entry, i, out, here, at', pays, rfl⟩)
      · have inPool := core_some here
        have own := mirror.keyed _ _ _ inPool
        refine ⟨(mirror.address _ _).mpr ⟨entry.tx, entry.nTime, inPool, mem_append_left _ ?_⟩, rfl, rfl⟩
        refine mem_addressDebits.mpr ⟨i, txin, _, at', pays, ?_⟩
        rw [own]
      · have inPool := core_some here
        have own := mirror.keyed _ _ _ inPool
        refine ⟨(mirror.address _ _).mpr ⟨entry.tx, entry.nTime, inPool, mem_append_right _ ?_⟩, rfl, rfl⟩
        refine mem_addressCredits.mpr ⟨i, out, _, at', pays, ?_⟩
        rw [own]

/-- Where no pool with transactions is cleared, the indexes mirror the pool after every run from an empty pool. -/
theorem indexes_mirror {order : Iteration} {calls : List PoolCall} {pool : CTxMemPool} {views : Uint256 → CCoinsView}
    (run : Steps (fun pool call pool' => PoolCall.Allowed pool call ∧ PoolCall.Keeps pool call ∧
      CTxMemPool.call order pool call = some pool') {} calls pool) : IndexesMirror (viewsAfter calls views) pool :=
  (run_mirror run (empty_mirror views)).indexes

def sampleView : CCoinsView := fun _ => ⟨5, [0xa9, 0x14] ++ List.replicate 20 7 ++ [0x87]⟩

theorem accept_parent : ∃ pool left, accept listOrder {} parentEntry ∅ sampleView = some pool ∧
    removeStaged listOrder pool {1} = some left := by
  suffices runs : ((accept listOrder {} parentEntry ∅ sampleView).bind (removeStaged listOrder · {1})).isSome = true by
    obtain ⟨left, result⟩ := isSome_iff_exists.mp runs
    obtain ⟨pool, accepted, removed⟩ := bind_eq_some_iff.mp result
    exact ⟨pool, left, accepted, removed⟩
  simp [accept, addUnchecked, updateAncestorsOf, listOrder, insertNew, parentEntry, parentTx, find_put, updateParent,
    removeStaged, updateForRemoveFromMempool, linkedAncestors, updateChildrenForRemoval, calculateMemPoolAncestors,
    ancestorsLoop, Iteration.begin, Except.toOption, removeUnchecked, addAddressIndex, addSpentIndex]

theorem accepts_parent : Accepts {} parentEntry.tx where
  new := rfl
  distinct := by decide
  unclaimed _ _ := rfl

theorem parent_claims (accepted : accept listOrder {} parentEntry ∅ sampleView = some pool) :
    (getSpentIndex pool ⟨9, 0⟩).isSome = true := by
  have mirror := accept_mirror (empty_mirror fun _ => sampleView) accepts_parent accepted
  obtain ⟨middle, added, made⟩ := bind_eq_some_iff.mp accepted
  have core := (addUnchecked_frame accepts_parent.new added).1 parentEntry.tx.hash
  rw [if_pos rfl] at core
  have inPool : pool.core parentEntry.tx.hash = some (parentEntry.tx, parentEntry.nTime) := by
    cases made
    exact core
  obtain ⟨n, claimed⟩ := mirror.claimed inPool (show (⟨9, 0⟩ : COutPoint) ∈ _ by decide)
  rw [mirror.indexes.claimed, claimed]
  rfl

/-- A transaction that spends from an address, accepted and removed. -/
theorem indexes_mirror_parent : ∃ pool left, accept listOrder {} parentEntry ∅ sampleView = some pool ∧
    removeStaged listOrder pool {1} = some left ∧
    IndexesMirror (viewsAfter [.accept parentEntry ∅ sampleView, .removeStaged {1}] fun _ => sampleView) left := by
  obtain ⟨pool, left, accepted, removed⟩ := accept_parent
  exact ⟨pool, left, accepted, removed,
    indexes_mirror (.more ⟨accepts_parent, trivial, accepted⟩ (.more ⟨trivial, trivial, removed⟩ (.done left)))⟩

/-- `clear` leaves the rows of the transactions that were in the pool. -/
theorem clear_stale : ¬ ∀ (order : Iteration) (calls : List PoolCall) (pool : CTxMemPool) (views : Uint256 → CCoinsView),
    Steps (fun pool call pool' => PoolCall.Allowed pool call ∧ CTxMemPool.call order pool call = some pool') {} calls pool →
    IndexesMirror (viewsAfter calls views) pool := by
  intro every
  obtain ⟨pool, -, accepted, -⟩ := accept_parent
  have stale := every listOrder [.accept parentEntry ∅ sampleView, .clear] (clear pool) (fun _ => sampleView)
    (.more ⟨accepts_parent, accepted⟩ (.more ⟨trivial, rfl⟩ (.done _)))
  have before := parent_claims accepted
  have answers : (getSpentIndex (clear pool) ⟨9, 0⟩).isSome = true := before
  rw [stale.claimed] at answers
  cases answers

end Longcoin.Mempool

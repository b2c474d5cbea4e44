import Longcoin.AddressIndex
import Longcoin.SpentIndex
import Longcoin.Library.Recovery

/-! The indexes over crashes. Their batches are durable at once, while the coins and the block index become
durable in `FlushStateToDisk` only, so that a node starts again below what the indexes describe. -/

namespace Longcoin.IndexRecovery
open Primitives UtxoSet Validation BlockTreeDB ConnectBlock ActiveChain Library Library.Recovery AddressUnspentIndex AddressIndex SpentIndex List

/-- Memory, with the block-tree database beside it, and what was made durable: the coins with the chain of their best
block, and the undo positions of the block index. -/
structure Node where
  memory : ChainState
  coinsView : PlainView
  coinsChain : List Uint256
  undo : Uint256 → Option CBlockUndo

def Node.started (env : Env) : Node where
  memory := genesisState env
  coinsView := (genesisState env).view
  coinsChain := (genesisState env).chain
  undo := (genesisState env).undo

/-- `FlushStateToDisk` without the coins. -/
def Node.flushBlockIndex (node : Node) : Node := { node with undo := node.memory.undo }

/-- `FlushStateToDisk` with the coins, which are written last. -/
def Node.flush (node : Node) : Node where
  memory := node.memory
  coinsView := node.memory.view
  coinsChain := node.memory.chain
  undo := node.memory.undo

/-- `LoadBlockIndexDB`: the tip is the best block of the coins database. -/
def Node.loaded (node : Node) : ChainState where
  view := node.coinsView
  chain := node.coinsChain
  undo := node.undo
  pblocktree := node.memory.pblocktree

inductive NodeOp where
  | chain (op : ChainOp)
  | flushBlockIndex
  | flush
  | crash
  /-- `ActivateBestChain` returns true. -/
  | activated

inductive NodeStep (env : Env) (store : BlockStore) : Node → NodeOp → Node → Prop where
  | chain {node : Node} {op : ChainOp} {s : ChainState} (step : ChainStep env store node.memory op s) :
      NodeStep env store node (.chain op) { node with memory := s }
  | flushBlockIndex (node : Node) : NodeStep env store node .flushBlockIndex node.flushBlockIndex
  | flush (node : Node) : NodeStep env store node .flush node.flush
  | crash (node : Node) : NodeStep env store node .crash { node with memory := node.loaded }
  | activated (node : Node) : NodeStep env store node .activated node

/-- The indexes describe the active chain and its coins. -/
structure IndexesExact (store : BlockStore) (s : ChainState) : Prop where
  address : AddressIndex.Indexed store s
  addressUnspent : ∀ key, s.pblocktree.addressUnspentIndex key = AddressUnspentIndex.mirrored s.view.utxo key
  spent : SpentIndex.Exact store s

structure Tip where
  chain : List Uint256
  utxo : UtxoSet

def tipOf (s : ChainState) : Tip where
  chain := s.chain
  utxo := s.view.utxo

/-- What a watcher of the run notes: the tips since the last start, and the tips at crashes that are not known to be made
good. -/
structure Watch where
  since : List Tip
  owed : List Tip

def Watch.after (watch : Watch) (before after : ChainState) : NodeOp → Watch
  | .chain _ => { watch with since := tipOf after :: watch.since }
  | .flushBlockIndex => watch
  | .flush => watch
  | .crash => { since := [tipOf after], owed := tipOf before :: watch.owed }
  | .activated => { since := [tipOf after], owed := [] }

/-- No step loses entries on its own, and where `ActivateBestChain` returns the tip has passed again through every tip that a
crash has cut off. -/
def Recovers (store : BlockStore) (node : Node) (watch : Watch) : NodeOp → Prop
  | .chain op => SpentIndex.SpendlessGuard store node.memory op ∧ AddressUnspentIndex.HeightsGuard store node.memory op
  | .activated => ∀ tip ∈ watch.owed, tip ∈ watch.since
  | _ => True

def WatchedStep (env : Env) (store : BlockStore) (watched : Node × Watch) (op : NodeOp) (watched' : Node × Watch) : Prop :=
  NodeStep env store watched.1 op watched'.1 ∧ Recovers store watched.1 watched.2 op ∧
    watched'.2 = watched.2.after watched.1.memory watched'.1.memory op

theorem watched_step {env : Env} {store : BlockStore} {node node' : Node} {watch : Watch} {op : NodeOp}
    (step : NodeStep env store node op node') (recovers : Recovers store node watch op) :
    WatchedStep env store (node, watch) op (node', watch.after node.memory node'.memory op) := ⟨step, recovers, rfl⟩

def Watch.started (env : Env) : Watch where
  since := [tipOf (genesisState env)]
  owed := []

def addressRight (store : BlockStore) (tip : Tip) (key : CAddressIndexKey) (value : Option CAmount) : Prop :=
  ∀ delta, value = some delta ↔ ∃ hash ∈ tip.chain, AddressIndex.BlockEntry store hash key delta

def addressUnspentRight (tip : Tip) (key : CAddressUnspentKey) (value : Option CAddressUnspentValue) : Prop :=
  value = AddressUnspentIndex.mirrored tip.utxo key

def spentRight (store : BlockStore) (tip : Tip) (key : CSpentIndexKey) (value : Option CSpentIndexValue) : Prop :=
  (∀ found, value = some found → SpentIndex.SpendRecord store tip.chain key found) ∧
    ∀ wanted, SpentIndex.SpendRecord store tip.chain key wanted → value.isSome = true

variable {env : Env} {store : BlockStore}

theorem addressRight_of_indexed {s : ChainState} (indexed : Indexed store s) (key : CAddressIndexKey) :
    addressRight store (tipOf s) key (s.pblocktree.addressIndex key) := by
  obtain ⟨entries, recorded, stored⟩ := indexed
  intro delta
  rw [stored, recorded.complete]
  rfl

theorem indexed_of_right {s : ChainState} (possible : ∃ entries, Recorded store s.chain entries)
    (right : ∀ key, addressRight store (tipOf s) key (s.pblocktree.addressIndex key)) : Indexed store s := by
  obtain ⟨entries, recorded⟩ := possible
  refine ⟨entries, recorded, fun key delta => ?_⟩
  rw [right key delta, recorded.complete]
  rfl

theorem spentExact_iff {s : ChainState} :
    Exact store s ↔ ∀ key, spentRight store (tipOf s) key (s.pblocktree.spentIndex key) := by
  constructor
  · intro holds key
    exact ⟨holds.recorded key, holds.complete key⟩
  · intro right
    exact ⟨fun key => (right key).1, fun key => (right key).2⟩

theorem pointwise_writeBatch {K V : Type} [DecidableEq K] (erases : K × V → Bool) (batch : List (K × V)) :
    Pointwise (writeBatch erases batch) := by
  induction batch with
  | nil => exact pointwise_id
  | cons entry batch ih => exact (pointwise_update entry.1 _).comp ih

/-- What is written does not depend on what is in the indexes. -/
structure Writes (env : Env) (store : BlockStore) (s : ChainState) (op : ChainOp) (s' : ChainState) where
  address : (CAddressIndexKey → Option CAmount) → CAddressIndexKey → Option CAmount
  unspent : (CAddressUnspentKey → Option CAddressUnspentValue) → CAddressUnspentKey → Option CAddressUnspentValue
  spent : (CSpentIndexKey → Option CSpentIndexValue) → CSpentIndexKey → Option CSpentIndexValue
  addressPointwise : Pointwise address
  unspentPointwise : Pointwise unspent
  spentPointwise : Pointwise spent
  written : s'.pblocktree = ⟨address s.pblocktree.addressIndex, unspent s.pblocktree.addressUnspentIndex, spent s.pblocktree.spentIndex⟩
  always : ∀ db : CBlockTreeDB, ChainStep env store { s with pblocktree := db } op
    { s' with pblocktree := ⟨address db.addressIndex, unspent db.addressUnspentIndex, spent db.spentIndex⟩ }

theorem chainStep_writes (addressOn : env.fAddressIndex = true) (spentOn : env.fSpentIndex = true) {s s' : ChainState}
    {op : ChainOp} (step : ChainStep env store s op s') : Nonempty (Writes env store s op s') := by
  cases step with
  | @connect hash st extends' found ordinary connected =>
    have whole (db : CBlockTreeDB) : writeConnected env { s with pblocktree := db } hash st =
        { writeConnected env s hash st with
          pblocktree := ⟨writeBatch (fun _ => false) st.addressIndex db.addressIndex,
            writeBatch (fun entry => entry.2.isNull) st.addressUnspentIndex db.addressUnspentIndex,
            writeBatch (fun entry => entry.2.isNull) st.spentIndex db.spentIndex⟩ } := by
      simp only [writeConnected, addressOn, spentOn, if_true]
      rfl
    refine ⟨⟨writeBatch (fun _ => false) st.addressIndex, writeBatch (fun entry => entry.2.isNull) st.addressUnspentIndex,
      writeBatch (fun entry => entry.2.isNull) st.spentIndex, pointwise_writeBatch _ _, pointwise_writeBatch _ _,
      pointwise_writeBatch _ _, ?_, fun db => ?_⟩⟩
    · exact congrArg ChainState.pblocktree (whole s.pblocktree)
    · rw [← whole db]
      exact .connect extends' found ordinary connected
  | @disconnect hash rest blockUndo st tip stored disconnected clean =>
    have whole (db : CBlockTreeDB) : writeDisconnected env { s with pblocktree := db } rest st =
        { writeDisconnected env s rest st with
          pblocktree := ⟨writeBatch (fun _ => true) st.addressIndex db.addressIndex,
            writeBatch (fun entry => entry.2.isNull) st.addressUnspentIndex db.addressUnspentIndex, id db.spentIndex⟩ } := by
      simp only [writeDisconnected, addressOn, if_true]
      rfl
    refine ⟨⟨writeBatch (fun _ => true) st.addressIndex, writeBatch (fun entry => entry.2.isNull) st.addressUnspentIndex, id,
      pointwise_writeBatch _ _, pointwise_writeBatch _ _, pointwise_id, ?_, fun db => ?_⟩⟩
    · exact congrArg ChainState.pblocktree (whole s.pblocktree)
    · rw [← whole db]
      exact .disconnect tip stored disconnected clean

theorem sound_indexes {s : ChainState} (sound : Sound env store s) (db : CBlockTreeDB) :
    Sound env store { s with pblocktree := db } := { sound with }

/-- The conditions under which a step loses no entries. -/
structure Lossless (store : BlockStore) (s : ChainState) (op : ChainOp) : Prop where
  spendless : SpentIndex.SpendlessGuard store s op
  heights : AddressUnspentIndex.HeightsGuard store s op

theorem lossless_indexes {s : ChainState} {op : ChainOp} (lossless : Lossless store s op) (db : CBlockTreeDB) :
    Lossless store { s with pblocktree := db } op := by
  obtain ⟨spendless, heights⟩ := lossless
  cases op with
  | connect hash => exact ⟨spendless, trivial⟩
  | disconnect => exact ⟨spendless, heights⟩

theorem indexesExact_step (addressOn : env.fAddressIndex = true) (spentOn : env.fSpentIndex = true)
    (distinct : TxidsDistinct store) {s s' : ChainState} {op : ChainOp} (sound : Sound env store s)
    (step : ChainStep env store s op s') (lossless : Lossless store s op) (before : IndexesExact store s) : IndexesExact store s' where
  address := indexed_step addressOn distinct sound step before.address
  addressUnspent := by
    have mirrors := mirrors_iff.mpr before.addressUnspent
    exact mirrors_iff.mp
      (mirrors_step addressOn distinct sound ⟨step, lossless.heights⟩ mirrors)
  spent := exact_step spentOn distinct sound ⟨step, lossless.spendless⟩ before.spent

def Possible (store : BlockStore) (s : ChainState) : Prop := ∃ db : CBlockTreeDB, IndexesExact store { s with pblocktree := db }

structure Consistent (env : Env) (store : BlockStore) (node : Node) (watch : Watch) : Prop where
  sound : Sound env store node.memory
  soundLoaded : Sound env store node.loaded
  possible : Possible store node.memory
  possibleLoaded : Possible store node.loaded
  address : Held (addressRight store) watch.since watch.owed (tipOf node.memory) node.memory.pblocktree.addressIndex
  unspent : Held addressUnspentRight watch.since watch.owed (tipOf node.memory) node.memory.pblocktree.addressUnspentIndex
  spent : Held (spentRight store) watch.since watch.owed (tipOf node.memory) node.memory.pblocktree.spentIndex

theorem consistent_started (env : Env) (store : BlockStore) : Consistent env store (Node.started env) (Watch.started env) := by
  have genesis : IndexesExact store (genesisState env) :=
    { address := ⟨[], ⟨by simp, by simp [genesisState]⟩, by simp [Stored, genesisState]⟩
      addressUnspent := fun key => rfl
      spent := by
        constructor
        · intro key value present
          exact absurd present (by simp [genesisState, CBlockTreeDB.readSpentIndex])
        · rintro key value ⟨hash, member, -⟩
          exact absurd member not_mem_nil }
  exact {
    sound := sound_genesis env store
    soundLoaded := sound_genesis env store
    possible := ⟨{}, genesis⟩
    possibleLoaded := ⟨{}, genesis⟩
    address := held_of_right (addressRight_of_indexed genesis.address)
    unspent := held_of_right genesis.addressUnspent
    spent := held_of_right (spentExact_iff.mp genesis.spent) }

section Step
variable (addressOn : env.fAddressIndex = true) (spentOn : env.fSpentIndex = true) (distinct : TxidsDistinct store)
  {s s' : ChainState} {op : ChainOp} (sound : Sound env store s) (lossless : Lossless store s op)
  (writes : Writes env store s op s')
include addressOn spentOn distinct sound lossless

theorem writes_exact {db : CBlockTreeDB} (before : IndexesExact store { s with pblocktree := db }) :
    IndexesExact store { s' with pblocktree :=
      ⟨writes.address db.addressIndex, writes.unspent db.addressUnspentIndex, writes.spent db.spentIndex⟩ } :=
  indexesExact_step addressOn spentOn distinct (sound_indexes sound db) (writes.always db) (lossless_indexes lossless db) before

theorem address_settles (possible : Possible store s) (table : CAddressIndexKey → Option CAmount) (key : CAddressIndexKey) :
    addressRight store (tipOf s') key (writes.address table key) ∨ writes.address table key = table key ∧
      ∀ value, addressRight store (tipOf s) key value → addressRight store (tipOf s') key value := by
  obtain ⟨db, exact'⟩ := possible
  refine writes.addressPointwise.settles (fun other all => ?_) ⟨_, addressRight_of_indexed exact'.address⟩ table key
  have recorded := exact'.address.imp fun entries both => both.1
  have changed : IndexesExact store { s with pblocktree := { db with addressIndex := other } } :=
    ⟨indexed_of_right recorded all, exact'.addressUnspent, ⟨exact'.spent.recorded, exact'.spent.complete⟩⟩
  exact addressRight_of_indexed (writes_exact addressOn spentOn distinct sound lossless writes changed).address

theorem unspent_settles (possible : Possible store s) (table : CAddressUnspentKey → Option CAddressUnspentValue)
    (key : CAddressUnspentKey) :
    addressUnspentRight (tipOf s') key (writes.unspent table key) ∨ writes.unspent table key = table key ∧
      ∀ value, addressUnspentRight (tipOf s) key value → addressUnspentRight (tipOf s') key value := by
  obtain ⟨db, exact'⟩ := possible
  have whole : ∃ other : CAddressUnspentKey → Option CAddressUnspentValue, ∀ key, addressUnspentRight (tipOf s) key (other key) :=
    ⟨db.addressUnspentIndex, exact'.addressUnspent⟩
  refine writes.unspentPointwise.settles (fun other all => ?_) whole table key
  have changed : IndexesExact store { s with pblocktree := { db with addressUnspentIndex := other } } :=
    ⟨exact'.address, all, ⟨exact'.spent.recorded, exact'.spent.complete⟩⟩
  exact (writes_exact addressOn spentOn distinct sound lossless writes changed).addressUnspent

theorem spent_settles (possible : Possible store s) (table : CSpentIndexKey → Option CSpentIndexValue) (key : CSpentIndexKey) :
    spentRight store (tipOf s') key (writes.spent table key) ∨ writes.spent table key = table key ∧
      ∀ value, spentRight store (tipOf s) key value → spentRight store (tipOf s') key value := by
  obtain ⟨db, exact'⟩ := possible
  refine writes.spentPointwise.settles (fun other all => ?_) ⟨_, spentExact_iff.mp exact'.spent⟩ table key
  have changed : IndexesExact store { s with pblocktree := { db with spentIndex := other } } :=
    ⟨exact'.address, exact'.addressUnspent, spentExact_iff.mpr all⟩
  exact spentExact_iff.mp (writes_exact addressOn spentOn distinct sound lossless writes changed).spent

end Step

theorem consistent_chain (addressOn : env.fAddressIndex = true) (spentOn : env.fSpentIndex = true)
    (distinct : TxidsDistinct store) {node : Node} {watch : Watch} {op : ChainOp} {s : ChainState}
    (holds : Consistent env store node watch) (step : ChainStep env store node.memory op s)
    (lossless : Lossless store node.memory op) :
    Consistent env store { node with memory := s } { watch with since := tipOf s :: watch.since } := by
  obtain ⟨writes⟩ := chainStep_writes addressOn spentOn step
  have written := writes.written
  obtain ⟨db, exact'⟩ := holds.possible
  exact {
    sound := sound_step holds.sound step
    soundLoaded := sound_indexes holds.soundLoaded s.pblocktree
    possible := ⟨_, writes_exact addressOn spentOn distinct holds.sound lossless writes exact'⟩
    possibleLoaded := holds.possibleLoaded
    address := by
      rw [written]
      exact holds.address.step (address_settles addressOn spentOn distinct holds.sound lossless writes holds.possible _)
    unspent := by
      rw [written]
      exact holds.unspent.step (unspent_settles addressOn spentOn distinct holds.sound lossless writes holds.possible _)
    spent := by
      rw [written]
      exact holds.spent.step (spent_settles addressOn spentOn distinct holds.sound lossless writes holds.possible _) }

theorem Consistent.exact {node : Node} {watch : Watch} (holds : Consistent env store node watch)
    (passed : ∀ tip ∈ watch.owed, tip ∈ watch.since) : IndexesExact store node.memory where
  address := by
    obtain ⟨db, possible⟩ := holds.possible
    exact indexed_of_right (possible.address.imp fun entries both => both.1) (holds.address.settled passed)
  addressUnspent := holds.unspent.settled passed
  spent := spentExact_iff.mpr (holds.spent.settled passed)

theorem consistent_step (addressOn : env.fAddressIndex = true) (spentOn : env.fSpentIndex = true)
    (distinct : TxidsDistinct store) {watched watched' : Node × Watch} {op : NodeOp}
    (holds : Consistent env store watched.1 watched.2) (step : WatchedStep env store watched op watched') :
    Consistent env store watched'.1 watched'.2 := by
  obtain ⟨node, watch⟩ := watched
  obtain ⟨node', watch'⟩ := watched'
  obtain ⟨step, recovers, noted⟩ := step
  have noted : watch' = watch.after node.memory node'.memory op := noted
  subst noted
  change NodeStep env store node op node' at step
  change Recovers store node watch op at recovers
  change Consistent env store node watch at holds
  change Consistent env store node' (watch.after node.memory node'.memory op)
  cases step with
  | chain step => exact consistent_chain addressOn spentOn distinct holds step ⟨recovers.1, recovers.2⟩
  | flushBlockIndex =>
    obtain ⟨db, loaded⟩ := holds.possibleLoaded
    exact {
      sound := holds.sound
      soundLoaded := ⟨holds.soundLoaded.known, holds.sound.undo, holds.soundLoaded.linked, holds.soundLoaded.shaped⟩
      possible := holds.possible
      possibleLoaded := ⟨db, loaded.address, loaded.addressUnspent, ⟨loaded.spent.recorded, loaded.spent.complete⟩⟩
      address := holds.address
      unspent := holds.unspent
      spent := holds.spent }
  | flush =>
    exact {
      sound := holds.sound
      soundLoaded := holds.sound
      possible := holds.possible
      possibleLoaded := holds.possible
      address := holds.address
      unspent := holds.unspent
      spent := holds.spent }
  | crash =>
    exact {
      sound := holds.soundLoaded
      soundLoaded := holds.soundLoaded
      possible := holds.possibleLoaded
      possibleLoaded := holds.possibleLoaded
      address := holds.address.crash
      unspent := holds.unspent.crash
      spent := holds.spent.crash }
  | activated =>
    have indexes := holds.exact recovers
    exact {
      sound := holds.sound
      soundLoaded := holds.soundLoaded
      possible := holds.possible
      possibleLoaded := holds.possibleLoaded
      address := held_of_right (addressRight_of_indexed indexes.address)
      unspent := held_of_right indexes.addressUnspent
      spent := held_of_right (spentExact_iff.mp indexes.spent) }

theorem replayed_run (addressOn : env.fAddressIndex = true) (spentOn : env.fSpentIndex = true) {hash : Uint256} {s : ChainState}
    (connected : ChainStep env store (genesisState env) (.connect hash) s) (lossless : Lossless store (genesisState env) (.connect hash)) :
    ∃ node watch, tipOf node.memory = tipOf s ∧ Steps (WatchedStep env store) (Node.started env, Watch.started env)
      ([.chain (.connect hash), .crash, .chain (.connect hash)] ++ [.activated]) (node, watch) := by
  obtain ⟨writes⟩ := chainStep_writes addressOn spentOn connected
  have again := writes.always s.pblocktree
  have guards := lossless_indexes lossless s.pblocktree
  refine ⟨_, _, ?_, .more (watched_step (.chain connected) ⟨lossless.spendless, lossless.heights⟩)
    (.more (watched_step (.crash _) trivial) (.more (watched_step (.chain again) ⟨guards.spendless, guards.heights⟩)
      (.more (watched_step (.activated _) ?_) (.done _))))⟩
  · rfl
  · intro tip member
    rw [mem_singleton.mp member]
    exact mem_cons_self

theorem sample_connected : ∃ s, ChainStep permissiveEnv sampleStore (genesisState permissiveEnv) (.connect 1) s ∧
    s.pblocktree.addressUnspentIndex sampleKey = some (sampleValue 1) := by
  have ran : (chainStep permissiveEnv sampleStore (genesisState permissiveEnv) (.connect 1)).map
      (fun s => s.pblocktree.addressUnspentIndex sampleKey) =
        some (some (sampleValue 1)) := by decide +kernel
  obtain ⟨s, run, shown⟩ := Option.map_eq_some_iff.mp ran
  exact ⟨s, chainStep_some run, shown⟩

end Longcoin.IndexRecovery

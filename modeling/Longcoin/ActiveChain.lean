import Longcoin.DisconnectEffect
import Longcoin.Library.Steps

/-! The active chain under `ConnectBlock` and `DisconnectBlock`, with their writes: the undo data,
stored once for each block, and the indexes of `CBlockTreeDB`. -/

namespace Longcoin.ActiveChain
open Primitives Coins UtxoSet Validation BlockTreeDB ConnectBlock DisconnectBlock BlockEffect DisconnectEffect Library List Option Function

/-- What stays fixed while blocks come and go: the block index and the block files. -/
structure BlockStore where
  mapBlockIndex : Uint256 → CBlockIndex
  readBlockFromDisk : Uint256 → CBlock

structure ChainState where
  view : PlainView
  /-- The hashes of the connected blocks, the tip first and without the genesis block. -/
  chain : List Uint256 := []
  undo : Uint256 → Option CBlockUndo := fun _ => none
  pblocktree : CBlockTreeDB := {}

/-- After the genesis block, whose coinbase is skipped. -/
def genesisState (env : Env) : ChainState where
  view := { utxo := .empty, hashBlock := env.hashGenesisBlock }

def writeConnected (env : Env) (s : ChainState) (hash : Uint256) (st : ConnectState PlainView) : ChainState where
  view := st.view
  chain := hash :: s.chain
  undo := if (s.undo hash).isNone then Function.update s.undo hash (some st.vtxundo) else s.undo
  pblocktree :=
    let pblocktree := if env.fAddressIndex then
        (s.pblocktree.writeAddressIndex st.addressIndex).updateAddressUnspentIndex st.addressUnspentIndex
      else s.pblocktree
    if env.fSpentIndex then pblocktree.updateSpentIndex st.spentIndex else pblocktree

/-- The writes at the end of `DisconnectBlock`; `spentIndex` was collected but is not written. -/
def writeDisconnected (env : Env) (s : ChainState) (rest : List Uint256) (st : DisconnectState PlainView) :
    ChainState where
  view := st.view
  chain := rest
  undo := s.undo
  pblocktree := if env.fAddressIndex then
      (s.pblocktree.eraseAddressIndex st.addressIndex).updateAddressUnspentIndex st.addressUnspentIndex
    else s.pblocktree

inductive ChainOp where
  | connect (hash : Uint256)
  | disconnect

/-- The active chain grows by a block on its tip or loses its tip. -/
inductive ChainStep (env : Env) (store : BlockStore) : ChainState → ChainOp → ChainState → Prop where
  | connect {s : ChainState} {hash : Uint256} {st : ConnectState PlainView}
      (extends' : (store.mapBlockIndex hash).ancestors = s.chain ++ [env.hashGenesisBlock])
      (found : (store.readBlockFromDisk hash).hash = hash) (ordinary : hash ≠ env.hashGenesisBlock)
      (connected : connectBlock env (store.readBlockFromDisk hash) (store.mapBlockIndex hash) s.view false = .ok st) :
      ChainStep env store s (.connect hash) (writeConnected env s hash st)
  | disconnect {s : ChainState} {hash : Uint256} {rest : List Uint256} {blockUndo : CBlockUndo}
      {st : DisconnectState PlainView} (tip : s.chain = hash :: rest) (stored : s.undo hash = some blockUndo)
      (disconnected : disconnectBlock env (store.readBlockFromDisk hash) (store.mapBlockIndex hash) s.view blockUndo =
        .ok st)
      (clean : st.fClean = true) : ChainStep env store s .disconnect (writeDisconnected env s rest st)

def chainStep (env : Env) (store : BlockStore) (s : ChainState) : ChainOp → Option ChainState
  | .connect hash =>
      if (store.mapBlockIndex hash).ancestors = s.chain ++ [env.hashGenesisBlock] ∧
          (store.readBlockFromDisk hash).hash = hash ∧ hash ≠ env.hashGenesisBlock then
        match connectBlock env (store.readBlockFromDisk hash) (store.mapBlockIndex hash) s.view false with
        | .ok st => some (writeConnected env s hash st)
        | .error _ => none
      else none
  | .disconnect =>
      match s.chain with
      | [] => none
      | hash :: rest =>
          match s.undo hash with
          | none => none
          | some blockUndo =>
              match disconnectBlock env (store.readBlockFromDisk hash) (store.mapBlockIndex hash) s.view blockUndo with
              | .ok st => if st.fClean then some (writeDisconnected env s rest st) else none
              | .error _ => none

variable {s s' : ChainState}

theorem chainStep_some {env : Env} {store : BlockStore} {op : ChainOp} (stepped : chainStep env store s op = some s') :
    ChainStep env store s op s' := by
  cases op with
  | connect hash =>
    simp only [chainStep] at stepped
    split_ifs at stepped with conditions
    cases connected : connectBlock env (store.readBlockFromDisk hash) (store.mapBlockIndex hash) s.view false with
    | error failure => simp [connected] at stepped
    | ok st =>
      simp only [connected, some.injEq] at stepped
      subst stepped
      exact .connect conditions.1 conditions.2.1 conditions.2.2 connected
  | disconnect =>
    cases tip : s.chain with
    | nil => simp [chainStep, tip] at stepped
    | cons hash rest =>
      cases stored : s.undo hash with
      | none => simp [chainStep, tip, stored] at stepped
      | some blockUndo =>
        simp only [chainStep, tip, stored] at stepped
        cases disconnected : disconnectBlock env (store.readBlockFromDisk hash) (store.mapBlockIndex hash) s.view
            blockUndo with
        | error failure => simp [disconnected] at stepped
        | ok st =>
          simp only [disconnected] at stepped
          split_ifs at stepped with clean
          rw [some.injEq] at stepped
          subst stepped
          exact .disconnect tip stored disconnected clean

/-- Steps that also meet a condition on the state before them. -/
def Guarded (env : Env) (store : BlockStore) (guard : ChainState → ChainOp → Prop) (s : ChainState) (op : ChainOp)
    (s' : ChainState) : Prop :=
  ChainStep env store s op s' ∧ guard s op

def guardedStep (env : Env) (store : BlockStore) (guard : ChainState → ChainOp → Prop)
    [∀ s op, Decidable (guard s op)] (s : ChainState) (op : ChainOp) : Option ChainState :=
  if guard s op then chainStep env store s op else none

theorem guardedStep_run {env : Env} {store : BlockStore} {guard : ChainState → ChainOp → Prop}
    [∀ s op, Decidable (guard s op)] {ops : List ChainOp} (run : ops.foldlM (guardedStep env store guard) s = some s') :
    Steps (Guarded env store guard) s ops s' := by
  induction ops generalizing s with
  | nil =>
    simp only [foldlM_nil, Option.pure_def, Option.some.injEq] at run
    subst run
    exact .done _
  | cons op ops ih =>
    simp only [foldlM_cons, Option.bind_eq_bind, Option.bind_eq_some_iff] at run
    obtain ⟨middle, first, rest⟩ := run
    unfold guardedStep at first
    split_ifs at first with holds
    exact .more ⟨chainStep_some first, holds⟩ (ih rest)

/-- The run of a list of operations from the genesis state. -/
def runGuarded (env : Env) (store : BlockStore) (guard : ChainState → ChainOp → Prop)
    [∀ s op, Decidable (guard s op)] (ops : List ChainOp) : Option ChainState :=
  ops.foldlM (guardedStep env store guard) (genesisState env)

theorem steps_of_guarded {env : Env} {store : BlockStore} {guard : ChainState → ChainOp → Prop} {ops : List ChainOp}
    (run : Steps (Guarded env store guard) s ops s') : Steps (ChainStep env store) s ops s' :=
  run.mono fun _ _ _ step => step.1

/-- A txid stands for one transaction over all stored blocks. -/
def TxidsDistinct (store : BlockStore) : Prop :=
  ∀ hash hash', ∀ tx ∈ (store.readBlockFromDisk hash).vtx, ∀ tx' ∈ (store.readBlockFromDisk hash').vtx,
    tx.hash = tx'.hash → tx = tx'

/-- Output `n` of the stored transaction `txid`. -/
def TxOutput (store : BlockStore) (txid : Uint256) (n : Nat) (out : CTxOut) : Prop :=
  ∃ hash, ∃ tx ∈ (store.readBlockFromDisk hash).vtx, tx.hash = txid ∧ tx.vout[n]? = some out

theorem txOutput_unique {store : BlockStore} (distinct : TxidsDistinct store) {txid : Uint256} {n : Nat}
    {out out' : CTxOut} (first : TxOutput store txid n out) (second : TxOutput store txid n out') : out = out' := by
  obtain ⟨hash, tx, member, id, found⟩ := first
  obtain ⟨hash', tx', member', id', found'⟩ := second
  have same := distinct hash hash' tx member tx' member' (id.trans id'.symm)
  subst same
  rw [found, some.injEq] at found'
  exact found'

/-- The unspent outputs are outputs of stored transactions. -/
def Known (store : BlockStore) (utxo : UtxoSet) : Prop :=
  ∀ txid n out, (utxo.coins txid).unspentOut n = some out → TxOutput store txid n out

/-- So are the outputs in the undo data, and none of them is null. -/
def KnownUndo (store : BlockStore) (vtx : List CTransaction) (vtxundo : List CTxUndo) : Prop :=
  ∀ entry ∈ vtx.zip vtxundo, ∀ input ∈ entry.1.vin.zip entry.2,
    TxOutput store input.1.prevout.hash input.1.prevout.n input.2.txout ∧ input.2.txout.isNull = false

variable {utxo utxo' : UtxoSet}

theorem known_spends {store : BlockStore} {vin : List CTxIn} {txundo : CTxUndo} (spends : Spends utxo vin txundo utxo')
    (known : Known store utxo) : Known store utxo' := by
  intro txid n out found
  rw [spends_unspentOut spends] at found
  split_ifs at found
  exact known txid n out found

theorem created_unspentOut (utxo : UtxoSet) (tx : CTransaction) (nHeight : Nat) (txid : Uint256) (n : Nat) :
    ((created utxo tx nHeight).coins txid).unspentOut n =
      if txid = tx.hash then tx.vout[n]?.filter fun out => !out.scriptPubKey.isUnspendable && !out.isNull
      else (utxo.coins txid).unspentOut n := by
  split_ifs with same
  · subst same
    rw [created, UtxoSet.modify_self, unspentOut_canonical, CCoins.unspentOut_fromTx]
  · rw [created_coins_of_ne same]

variable {hash : Uint256}

theorem known_created {store : BlockStore} (known : Known store utxo) {tx : CTransaction}
    (member : tx ∈ (store.readBlockFromDisk hash).vtx) (nHeight : Nat) : Known store (created utxo tx nHeight) := by
  intro txid n out found
  rw [created_unspentOut] at found
  split_ifs at found with same
  · exact ⟨hash, tx, member, same.symm, (filter_eq_some_iff.mp found).1⟩
  · exact known txid n out found

theorem spends_knownUndo {store : BlockStore} {vin : List CTxIn} {txundo : CTxUndo} (spends : Spends utxo vin txundo utxo')
    (known : Known store utxo) : ∀ input ∈ vin.zip txundo,
      TxOutput store input.1.prevout.hash input.1.prevout.n input.2.txout ∧ input.2.txout.isNull = false := by
  intro input member
  have found := (forall₂_iff_zip.mp (spends_found spends)).2 member
  exact ⟨known _ _ _ found, (CCoins.unspentOut_eq_some.mp found).2⟩

theorem zip_spentInputs {tx : CTransaction} {txundo : CTxUndo} (spends : Spends utxo (spentInputs tx) txundo utxo') :
    tx.vin.zip txundo = (spentInputs tx).zip txundo := by
  unfold spentInputs at spends ⊢
  split_ifs at spends ⊢
  · cases spends
    simp
  · rfl

theorem connects_known {store : BlockStore} {allowed : UtxoSet → CTransaction → Prop} {nHeight : Nat}
    {vtx : List CTransaction} {vtxundo : List CTxUndo} (connects : Connects allowed nHeight utxo vtx vtxundo utxo')
    (known : Known store utxo) (stored : ∀ tx ∈ vtx, tx ∈ (store.readBlockFromDisk hash).vtx) :
    Known store utxo' ∧ KnownUndo store vtx vtxundo := by
  induction connects with
  | done => exact ⟨known, by simp [KnownUndo]⟩
  | @more utxo middle utxo' tx vtx txundo vtxundo spends allows rest ih =>
    obtain ⟨after, undos⟩ := ih (known_created (known_spends spends known) (stored tx mem_cons_self) nHeight)
      (forall_mem_cons.mp stored).2
    refine ⟨after, ?_⟩
    rintro entry member input inside
    rcases mem_cons.mp (zip_cons_cons ▸ member) with rfl | later
    · rw [zip_spentInputs spends] at inside
      exact spends_knownUndo spends known input inside
    · exact undos entry later input inside

theorem restores_known {store : BlockStore} {entries : List ((CTxIn × CTxInUndo) × Nat)}
    (restores : Restores utxo entries utxo') (known : Known store utxo)
    (outputs : ∀ entry ∈ entries, TxOutput store entry.1.1.prevout.hash entry.1.1.prevout.n entry.1.2.txout) :
    Known store utxo' := by
  induction restores with
  | done => exact known
  | more clean live rest ih =>
    refine ih (fun txid n out found => ?_) (forall_mem_cons.mp outputs).2
    rw [restored_unspentOut clean live] at found
    split_ifs at found with here
    · rw [some.injEq] at found
      subst found
      rw [here.1, here.2]
      exact outputs _ mem_cons_self
    · exact known txid n out found

theorem removed_unspentOut (utxo : UtxoSet) (tx : CTransaction) (txid : Uint256) (n : Nat) :
    ((removed utxo tx).coins txid).unspentOut n =
      if txid = tx.hash then none else (utxo.coins txid).unspentOut n := by
  rw [removed_coins]
  split_ifs <;> rfl

theorem disconnects_known {store : BlockStore} {nHeight : Nat} {entries : List ((CTransaction × CTxUndo) × Nat)}
    (disconnects : Disconnects nHeight utxo entries utxo') (known : Known store utxo)
    (outputs : ∀ entry ∈ entries, ∀ input ∈ entry.1.1.vin.zip entry.1.2, TxOutput store input.1.prevout.hash input.1.prevout.n input.2.txout) :
    Known store utxo' := by
  induction disconnects with
  | done => exact known
  | @more utxo middle utxo' tx txundo i entries same restores rest ih =>
    refine ih (restores_known restores (fun txid n out found => ?_) ?_)
      (forall_mem_cons.mp outputs).2
    · rw [removed_unspentOut] at found
      split_ifs at found
      exact known txid n out found
    · intro entry member
      rw [mem_reverse] at member
      exact outputs ((tx, txundo), i) mem_cons_self entry.1 (fst_mem_of_mem_zipIdx member)

/-- The part of the state that every step keeps sound: the coins and the undo data speak of stored
outputs, and the chain is one of the block index. -/
structure Sound (env : Env) (store : BlockStore) (s : ChainState) : Prop where
  known : Known store s.view.utxo
  undo : ∀ hash blockUndo, s.undo hash = some blockUndo →
    KnownUndo store (store.readBlockFromDisk hash).vtx ([] :: blockUndo)
  linked : ∀ hash rest, hash :: rest <:+ s.chain →
    (store.mapBlockIndex hash).ancestors = rest ++ [env.hashGenesisBlock]
  shaped : ∀ hash ∈ s.chain, CheckedBlock (store.readBlockFromDisk hash)

theorem sound_genesis (env : Env) (store : BlockStore) : Sound env store (genesisState env) where
  known txid n out found := by
    change (({} : CCoins).unspentOut n) = some out at found
    simp [CCoins.unspentOut] at found
  undo hash blockUndo stored := by simp [genesisState] at stored
  linked hash rest suffix := by simp [genesisState] at suffix
  shaped hash member := by simp [genesisState] at member

variable {env : Env} {store : BlockStore}

theorem step_accepted {st : ConnectState PlainView} (found : (store.readBlockFromDisk hash).hash = hash)
    (ordinary : hash ≠ env.hashGenesisBlock)
    (connected : connectBlock env (store.readBlockFromDisk hash) (store.mapBlockIndex hash) s.view false = .ok st) :
    Accepted env (store.readBlockFromDisk hash) (store.mapBlockIndex hash) s.view st :=
  connectBlock_ok (by rwa [found]) connected

theorem knownUndo_entries {blockUndo : CBlockUndo}
    (undos : KnownUndo store (store.readBlockFromDisk hash).vtx ([] :: blockUndo)) :
    ∀ entry ∈ ((store.readBlockFromDisk hash).vtx.zip ([] :: blockUndo)).zipIdx.reverse,
      ∀ input ∈ entry.1.1.vin.zip entry.1.2, TxOutput store input.1.prevout.hash input.1.prevout.n input.2.txout := by
  intro entry member input inside
  rw [mem_reverse] at member
  exact (undos entry.1 (fst_mem_of_mem_zipIdx member) input inside).1

theorem knownUndo_live {blockUndo : CBlockUndo}
    (undos : KnownUndo store (store.readBlockFromDisk hash).vtx ([] :: blockUndo)) :
    ∀ entry ∈ (store.readBlockFromDisk hash).vtx.zip ([] :: blockUndo), ∀ input ∈ entry.1.vin.zip entry.2,
      input.2.txout.isNull = false :=
  fun entry member input inside => (undos entry member input inside).2

theorem sound_step {op : ChainOp} (sound : Sound env store s) (step : ChainStep env store s op s') : Sound env store s' := by
  cases step with
  | @connect hash st extends' found ordinary connected =>
    have accepted := step_accepted found ordinary connected
    obtain ⟨known, undos⟩ := connects_known accepted.connects sound.known fun tx member => member
    refine ⟨known, ?_, ?_, ?_⟩
    · intro other blockUndo stored
      simp only [writeConnected] at stored
      split_ifs at stored
      · by_cases same : other = hash
        · subst same
          rw [update_self, some.injEq] at stored
          exact stored ▸ undos
        · rw [update_of_ne same] at stored
          exact sound.undo other blockUndo stored
      · exact sound.undo other blockUndo stored
    · intro other rest suffix
      rcases suffix_cons_iff.mp suffix with same | below
      · rw [cons.injEq] at same
        rw [same.1, same.2]
        exact extends'
      · exact sound.linked other rest below
    · intro other member
      rcases mem_cons.mp member with rfl | member
      · exact accepted.shape
      · exact sound.shaped other member
  | @disconnect hash rest blockUndo st tip stored disconnected clean =>
    have undos := sound.undo hash blockUndo stored
    obtain ⟨-, disconnects, -⟩ := disconnectBlock_ok (knownUndo_live undos) disconnected clean
    refine ⟨disconnects_known disconnects sound.known (knownUndo_entries undos),
      sound.undo, ?_, ?_⟩
    · intro other below suffix
      exact sound.linked other below (tip ▸ suffix.trans (suffix_cons hash rest))
    · intro other member
      exact sound.shaped other (tip ▸ mem_cons_of_mem _ member)

theorem nHeight_of_linked {rest : List Uint256}
    (linked : (store.mapBlockIndex hash).ancestors = rest ++ [env.hashGenesisBlock]) :
    (store.mapBlockIndex hash).nHeight = rest.length + 1 := by
  simp [CBlockIndex.nHeight, linked]

/-! ## A sample chain

Blocks 1 to 32 have their height as hash and pay nothing, except that the coinbase of block 1 has
two pay-to-pubkey-hash outputs, block 31 spends both of them, and block 32 what block 31 made. -/

def payToPublicKeyHash (byte : UInt8) : CScript := [0x76, 0xa9, 0x14] ++ List.replicate 20 byte ++ [0x88, 0xac]

def sampleCoinbase (height : Nat) : CTransaction where
  hash := BitVec.ofNat 256 (1000 + height)
  vin := [{ prevout := { hash := 0, n := 4294967295 }, scriptSig := [1, 2] }]
  vout :=
    if height = 1 then
      [{ nValue := 5, scriptPubKey := payToPublicKeyHash 7 }, { nValue := 5, scriptPubKey := payToPublicKeyHash 7 }]
    else [{ nValue := 0, scriptPubKey := [] }]

def sampleSpend : CTransaction where
  hash := 5000
  vin := [{ prevout := { hash := 1001, n := 0 } }, { prevout := { hash := 1001, n := 1 } }]
  vout := [{ nValue := 10, scriptPubKey := payToPublicKeyHash 8 }]

def nextSpend : CTransaction where
  hash := 5001
  vin := [{ prevout := { hash := 5000, n := 0 } }]
  vout := [{ nValue := 10, scriptPubKey := [] }]

def sampleBlock (height : Nat) : CBlock where
  hash := BitVec.ofNat 256 height
  hashPrevBlock := BitVec.ofNat 256 (height - 1)
  vtx := sampleCoinbase height :: if height = 31 then [sampleSpend] else if height = 32 then [nextSpend] else []

def sampleStore : BlockStore where
  mapBlockIndex hash := { phashBlock := some hash, ancestors := (List.range hash.toNat).reverse.map (BitVec.ofNat 256) }
  readBlockFromDisk hash := if hash.toNat ≤ 32 then sampleBlock hash.toNat else { hash, hashPrevBlock := 0, vtx := [] }

def sampleConnects (count : Nat) : List ChainOp := (List.range count).map fun k => .connect (BitVec.ofNat 256 (k + 1))

theorem sample_transactions {tx : CTransaction} (member : tx ∈ (sampleStore.readBlockFromDisk hash).vtx) :
    ∃ height ≤ 32, tx ∈ (sampleBlock height).vtx := by
  simp only [sampleStore] at member
  split_ifs at member with known
  · exact ⟨hash.toNat, known, member⟩
  · simp at member

theorem sample_distinct : TxidsDistinct sampleStore := by
  have known : ∀ height ≤ 32, ∀ tx ∈ (sampleBlock height).vtx, tx =
      if tx.hash = 5000 then sampleSpend else if tx.hash = 5001 then nextSpend else sampleCoinbase (tx.hash.toNat - 1000) := by
    decide +kernel
  intro hash hash' tx member tx' member' same
  obtain ⟨height, small, inside⟩ := sample_transactions member
  obtain ⟨height', small', inside'⟩ := sample_transactions member'
  rw [known height small tx inside, same, ← known height' small' tx' inside']

end Longcoin.ActiveChain

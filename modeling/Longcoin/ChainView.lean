import Longcoin.AddressIndex
import Longcoin.MoneySupply
import Longcoin.UndoBlock

/-! The coins are those of the active chain, whatever was connected and disconnected on the way to it. -/

namespace Longcoin.ActiveChain
open Primitives UtxoSet Validation ConnectBlock DisconnectBlock BlockEffect UndoBlock AddressIndex MoneySupply CoinsValue Issuance Library Library.Outcome List

variable {env : Env} {store : BlockStore} {hash : Uint256} {chain rest : List Uint256} {view view' : PlainView}
  {st : ConnectState PlainView} {s s' : ChainState}

/-- A step at which no unspent coins are replaced. -/
abbrev OrdinaryStep (env : Env) (store : BlockStore) : ChainState → ChainOp → ChainState → Prop :=
  Guarded env store fun s op => overwritesNothing env store s op = true

/-- A block connected to the view of the chain below it that replaces no unspent coins. -/
structure Link (env : Env) (store : BlockStore) (hash : Uint256) (rest : List Uint256) (view : PlainView)
    (st : ConnectState PlainView) : Prop where
  extends' : (store.mapBlockIndex hash).ancestors = rest ++ [env.hashGenesisBlock]
  found : (store.readBlockFromDisk hash).hash = hash
  ordinary : hash ≠ env.hashGenesisBlock
  connected : connectBlock env (store.readBlockFromDisk hash) (store.mapBlockIndex hash) view false = .ok st
  free : ∀ tx ∈ (store.readBlockFromDisk hash).vtx, (view.utxo.coins tx.hash).isPruned = true

/-- The blocks of a chain connected one after the other from the genesis block on. -/
inductive Built (env : Env) (store : BlockStore) : List Uint256 → PlainView → Prop where
  | genesis : Built env store [] (genesisState env).view
  | connect {hash : Uint256} {rest : List Uint256} {view : PlainView} {st : ConnectState PlainView}
      (below : Built env store rest view) (link : Link env store hash rest view st) : Built env store (hash :: rest) st.view

theorem Link.accepted (link : Link env store hash rest view st) :
    Accepted env (store.readBlockFromDisk hash) (store.mapBlockIndex hash) view st :=
  connectBlock_ok (by rw [link.found]; exact link.ordinary) link.connected

theorem Link.unique {st' : ConnectState PlainView} (link : Link env store hash rest view st) (link' : Link env store hash rest view st') :
    st = st' := Except.ok.inj (link.connected.symm.trans link'.connected)

theorem Built.unique (built : Built env store chain view) (built' : Built env store chain view') : view = view' := by
  induction built generalizing view' with
  | genesis =>
    cases built'
    rfl
  | connect below link ih =>
    cases built' with
    | connect below' link' =>
      obtain rfl := ih below'
      rw [link.unique link']

theorem Built.tip (built : Built env store (hash :: rest) view) :
    ∃ below st, Built env store rest below ∧ Link env store hash rest below st ∧ view = st.view := by
  cases built with
  | connect below link => exact ⟨_, _, below, link, rfl⟩

theorem regular_connects {allowed : UtxoSet → CTransaction → Prop} {nHeight : Nat} (height : nHeight ≠ 0) {utxo utxo' : UtxoSet}
    {vtx : List CTransaction} {vtxundo : List CTxUndo} (connects : Connects allowed nHeight utxo vtx vtxundo utxo')
    (checked : ∀ tx ∈ vtx, Checked tx) (regular : Regular utxo) : Regular utxo' := by
  induction connects with
  | done => exact regular
  | more spends _ _ ih =>
    obtain ⟨here, later⟩ := forall_mem_cons.mp checked
    exact ih later (regular_created (regular_spends spends regular) here height)

theorem Link.height (link : Link env store hash rest view st) : 0 < (store.mapBlockIndex hash).nHeight := by
  rw [nHeight_of_linked link.extends']
  exact Nat.succ_pos _

theorem Built.regular (built : Built env store chain view) : Regular view.utxo := by
  induction built with
  | genesis => exact ⟨fun txid out member => absurd member not_mem_nil, fun txid unspent => Bool.noConfusion unspent⟩
  | connect below link ih =>
    exact regular_connects (Nat.ne_of_gt link.height) link.accepted.connects link.accepted.shape.transactions ih

/-- Disconnected with the undo data it left, a block leaves the view it was connected to. -/
theorem Link.undone (distinct : TxidsDistinct store) (link : Link env store hash rest view st) (regular : Regular view.utxo) :
    ∃ st', disconnectBlock env (store.readBlockFromDisk hash) (store.mapBlockIndex hash) st.view st.vtxundo = .ok st' ∧
      st'.fClean = true ∧ st'.view = view :=
  ⟨_, disconnectBlock_accepted link.accepted (fun tx member tx' member' => distinct hash hash tx member tx' member') link.free
    regular link.height, rfl, rfl⟩

/-- The undo data on disk was left by the block connected on the chain below it, at whatever time that was. -/
structure Traced (env : Env) (store : BlockStore) (s : ChainState) : Prop where
  built : Built env store s.chain s.view
  undo : ∀ hash blockUndo, s.undo hash = some blockUndo →
    ∃ rest view st, Built env store rest view ∧ Link env store hash rest view st ∧ st.vtxundo = blockUndo
  stored : ∀ hash ∈ s.chain, (s.undo hash).isSome = true

/-- The undo data of the tip is the one that connecting it to the chain below leaves. -/
theorem Traced.tip (traced : Traced env store s) (tip : s.chain = hash :: rest) {blockUndo : CBlockUndo}
    (stored : s.undo hash = some blockUndo) :
    ∃ view st, Built env store rest view ∧ Link env store hash rest view st ∧ s.view = st.view ∧ st.vtxundo = blockUndo := by
  obtain ⟨below, view, st, built, link, left⟩ := traced.undo hash blockUndo stored
  obtain ⟨view', st', built', link', here⟩ := Built.tip (tip ▸ traced.built)
  obtain rfl : below = rest := append_cancel_right (link.extends'.symm.trans link'.extends')
  obtain rfl := built.unique built'
  obtain rfl := link.unique link'
  exact ⟨view, st, built, link, here, left⟩

theorem undo_connected (other : Uint256) : (writeConnected env s hash st).undo other =
    if other = hash ∧ s.undo hash = none then some st.vtxundo else s.undo other := by
  cases first : s.undo hash with
  | none => simp [writeConnected, first, Function.update_apply]
  | some blockUndo => simp [writeConnected, first]

theorem traced_step (distinct : TxidsDistinct store) (traced : Traced env store s) {op : ChainOp}
    (step : OrdinaryStep env store s op s') : Traced env store s' := by
  obtain ⟨step, guard⟩ := step
  cases step with
  | @connect hash st extends' found ordinary connected =>
    have accepted := step_accepted found ordinary connected
    have link : Link env store hash s.chain s.view st := by
      refine ⟨extends', found, ordinary, connected, ?_⟩
      rcases Bool.or_eq_true_iff.mp guard with enforced | none
      · exact accepted.free enforced
      · intro tx member
        simp only [overwrites, Bool.not_eq_true', any_eq_false] at none
        simpa using none tx member
    refine ⟨.connect traced.built link, fun other blockUndo stored => ?_, fun other member => ?_⟩
    · by_cases again : other = hash ∧ s.undo hash = none
      · obtain ⟨rfl, none⟩ := again
        rw [undo_connected, if_pos ⟨rfl, none⟩] at stored
        exact ⟨_, _, _, traced.built, link, Option.some.inj stored⟩
      · rw [undo_connected, if_neg again] at stored
        exact traced.undo other blockUndo stored
    · rw [undo_connected]
      split_ifs with again
      · rfl
      · rcases mem_cons.mp member with rfl | below
        · exact Option.isSome_iff_ne_none.mpr fun none => again ⟨rfl, none⟩
        · exact traced.stored other below
  | @disconnect hash rest blockUndo st tip stored disconnected clean =>
    obtain ⟨view, st', built, link, here, rfl⟩ := traced.tip tip stored
    obtain ⟨undone, runs, -, same⟩ := link.undone distinct built.regular
    rw [here, runs] at disconnected
    cases disconnected
    refine ⟨?_, traced.undo, fun other member => traced.stored other (tip ▸ mem_cons_of_mem _ member)⟩
    rw [writeDisconnected, same]
    exact built

theorem traced_run (distinct : TxidsDistinct store) {ops : List ChainOp} (run : Steps (OrdinaryStep env store) (genesisState env) ops s) :
    Traced env store s :=
  run.invariant (Traced env store) (fun _ _ _ traced step => traced_step distinct traced step) ⟨.genesis, nofun, nofun⟩

def sampleRun (ops : List ChainOp) : Option ChainState :=
  runGuarded permissiveEnv sampleStore (fun s op => overwritesNothing permissiveEnv sampleStore s op = true) ops

def sampleChain : List Uint256 := ((range 31).map fun k => BitVec.ofNat 256 (k + 1)).reverse

/-- The tip, which spends the first reward, is taken back and connected again. -/
theorem sampleRun_again : (sampleRun (sampleConnects 31 ++ [.disconnect, .connect 31])).map ChainState.chain = some sampleChain := by
  decide +kernel

theorem Built.supply (built : Built env store chain view) : Amounts view.utxo ∧ totalSupply view.utxo ≤ issued env chain.length := by
  induction built with
  | genesis => exact ⟨nofun, (totalValue_empty _).le⟩
  | connect below link ih =>
    obtain ⟨amounts, supply⟩ := ih
    have added := totalSupply_accepted link.accepted amounts
    rw [nHeight_of_linked link.extends'] at added
    exact ⟨connects_amounts link.accepted.connects link.accepted.shape.transactions amounts, added.trans (add_le_add_left supply _)⟩

/-- No reorganisation makes money. -/
theorem supply_of_chain (distinct : TxidsDistinct store) (mainNetwork : env.nSubsidyHalvingInterval = 210000000)
    {ops : List ChainOp} (run : Steps (OrdinaryStep env store) (genesisState env) ops s) :
    totalSupply s.view.utxo ≤ issued env s.chain.length ∧ issued env s.chain.length ≤ MAX_MONEY ∧
      ∀ block pindex fJustCheck, Avoids Arithmetic (connectBlock env block pindex s.view fJustCheck) := by
  obtain ⟨amounts, supply⟩ := (traced_run distinct run).built.supply
  have small := issued_le_maxMoney mainNetwork s.chain.length
  exact ⟨supply, small, connectBlock_avoids amounts (supply.trans small)⟩

theorem supply_of_chain_sample : ∃ s, sampleRun (sampleConnects 31 ++ [.disconnect, .connect 31]) = some s ∧
    totalSupply s.view.utxo ≤ issued permissiveEnv 31 := by
  obtain ⟨s, run, chain⟩ := Option.map_eq_some_iff.mp sampleRun_again
  have within := (supply_of_chain sample_distinct rfl (guardedStep_run run)).1
  rw [chain] at within
  exact ⟨s, run, within⟩

end Longcoin.ActiveChain

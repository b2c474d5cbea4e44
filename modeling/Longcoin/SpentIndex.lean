import Longcoin.ActiveChain

/-! The spent index. Connecting a block writes one entry for each spend; disconnecting it collects
the entries to erase but never writes them, so only blocks without spends can be taken back. -/

namespace Longcoin.SpentIndex
open Primitives Validation BlockTreeDB ConnectBlock BlockEffect ActiveChain Library List Option

variable {env : Env} {store : BlockStore}

/-- A transaction of the chain spends the outpoint, and `value` is the record of that spend. -/
def SpendRecord (store : BlockStore) (chain : List Uint256) (key : CSpentIndexKey) (value : CSpentIndexValue) : Prop :=
  ∃ hash ∈ chain, ∃ tx ∈ (store.readBlockFromDisk hash).vtx, ∃ j input out,
    (spentInputs tx)[j]? = some input ∧ input.prevout.hash = key.txid ∧ input.prevout.n = key.outputIndex ∧
      TxOutput store key.txid key.outputIndex out ∧
      value = spentValue (store.mapBlockIndex hash).nHeight tx j out

/-- The index has an entry for an outpoint exactly when the chain spends it, with the data of such a spend. -/
structure Exact (store : BlockStore) (s : ChainState) : Prop where
  recorded : ∀ key value, s.pblocktree.readSpentIndex key = some value → SpendRecord store s.chain key value
  complete : ∀ key value, SpendRecord store s.chain key value → (s.pblocktree.readSpentIndex key).isSome = true

theorem mem_spentEntries {nHeight : Nat} {tx : CTransaction} {prevouts : List CTxOut}
    {entry : CSpentIndexKey × CSpentIndexValue} :
    entry ∈ spentEntries nHeight tx prevouts ↔ ∃ (j : Nat) (input : CTxIn) (prevout : CTxOut), tx.vin[j]? = some input ∧
      prevouts[j]? = some prevout ∧ input.prevout.hash = entry.1.txid ∧ input.prevout.n = entry.1.outputIndex ∧
      entry.2 = spentValue nHeight tx j prevout := by
  obtain ⟨⟨txid, outputIndex⟩, value⟩ := entry
  simp only [spentEntries, List.mem_map, Prod.exists, List.mem_zipIdx_iff_getElem?, List.getElem?_zip_eq_some,
    Prod.mk.injEq, CSpentIndexKey.mk.injEq]
  constructor
  · rintro ⟨input, prevout, j, ⟨found, output⟩, ⟨rfl, rfl⟩, rfl⟩
    exact ⟨j, input, prevout, found, output, rfl, rfl, rfl⟩
  · rintro ⟨j, input, prevout, found, output, rfl, rfl, rfl⟩
    exact ⟨input, prevout, j, ⟨found, output⟩, ⟨rfl, rfl⟩, rfl⟩

theorem mem_connectedSpent {allowed : Longcoin.UtxoSet → CTransaction → Prop} {utxo utxo' : Longcoin.UtxoSet} {hash : Uint256}
    {vtxundo : List CTxUndo} {nHeight : Nat}
    (connects : Connects allowed nHeight utxo (store.readBlockFromDisk hash).vtx vtxundo utxo')
    (undos : KnownUndo store (store.readBlockFromDisk hash).vtx vtxundo) (distinct : TxidsDistinct store)
    (height : nHeight = (store.mapBlockIndex hash).nHeight) {entry : CSpentIndexKey × CSpentIndexValue} :
    entry ∈ connectedSpent nHeight ((store.readBlockFromDisk hash).vtx.zip vtxundo).zipIdx ↔
      SpendRecord store [hash] entry.1 entry.2 := by
  subst height
  simp only [connectedSpent, mem_flatMap]
  constructor
  · rintro ⟨pair, member, inside⟩
    have paired := fst_mem_of_mem_zipIdx member
    obtain ⟨j, input, prevout, found, output, id, n, value⟩ := mem_spentEntries.mp inside
    rw [List.getElem?_map, map_eq_some_iff] at output
    obtain ⟨undo, record, rfl⟩ := output
    obtain ⟨before, after, spends⟩ := connects_spends connects pair.1 paired
    have together : (pair.1.1.vin.zip pair.1.2)[j]? = some (input, undo) := List.getElem?_zip_eq_some.mpr ⟨found, record⟩
    have known := (undos pair.1 paired _ (mem_of_getElem? together)).1
    rw [zip_spentInputs spends] at together
    refine ⟨hash, mem_singleton_self _, pair.1.1, (of_mem_zip paired).1, j, input, undo.txout,
      (List.getElem?_zip_eq_some.mp together).1, id, n, ?_, value⟩
    rwa [← id, ← n]
  · rintro ⟨hash', single, tx, stored, j, input, out, found, id, n, known, value⟩
    rw [mem_singleton] at single
    subst single
    obtain ⟨i, inRange, rfl⟩ := mem_iff_getElem.mp stored
    have undoRange : i < vtxundo.length := by rwa [connects_length connects]
    have zipped : ((store.readBlockFromDisk hash').vtx.zip vtxundo)[i]? =
        some ((store.readBlockFromDisk hash').vtx[i], vtxundo[i]) :=
      List.getElem?_zip_eq_some.mpr ⟨List.getElem?_eq_getElem inRange, List.getElem?_eq_getElem undoRange⟩
    have paired := mem_of_getElem? zipped
    obtain ⟨before, after, spends⟩ := connects_spends connects _ paired
    have size := spends_length spends
    obtain ⟨jRange, -⟩ := List.getElem?_eq_some_iff.mp found
    have recorded : j < vtxundo[i].length := by
      rw [size]
      exact jRange
    obtain ⟨undo, record⟩ : ∃ undo, vtxundo[i][j]? = some undo := ⟨_, List.getElem?_eq_getElem recorded⟩
    have together : ((spentInputs (store.readBlockFromDisk hash').vtx[i]).zip vtxundo[i])[j]? = some (input, undo) :=
      List.getElem?_zip_eq_some.mpr ⟨found, record⟩
    rw [← zip_spentInputs spends] at together
    have stored' := (undos _ paired _ (mem_of_getElem? together)).1
    simp only [id, n] at stored'
    have same := txOutput_unique distinct stored' known
    refine ⟨(((store.readBlockFromDisk hash').vtx[i], vtxundo[i]), i), mem_zipIdx_iff_getElem?.mpr zipped, ?_⟩
    refine mem_spentEntries.mpr ⟨j, input, out, (List.getElem?_zip_eq_some.mp together).1, ?_, id, n, value⟩
    rw [List.getElem?_map, record, map_some, same]

theorem spendRecord_cons {hash : Uint256} {chain : List Uint256} {key : CSpentIndexKey} {value : CSpentIndexValue} :
    SpendRecord store (hash :: chain) key value ↔ SpendRecord store [hash] key value ∨ SpendRecord store chain key value := by
  simp only [SpendRecord, mem_cons, not_mem_nil, or_false, or_and_right, exists_or, exists_eq_left]

/-- A step the index survives: a spending transaction that is connected has an id other than the
null hash, and a block that is disconnected spends nothing. -/
def SpendlessGuard (store : BlockStore) (s : ChainState) : ChainOp → Prop
  | .connect hash => ∀ tx ∈ (store.readBlockFromDisk hash).vtx, tx.isCoinBase = false → tx.hash ≠ 0
  | .disconnect => ∀ hash ∈ s.chain.head?, ∀ tx ∈ (store.readBlockFromDisk hash).vtx, spentInputs tx = []

instance (store : BlockStore) (s : ChainState) : ∀ op, Decidable (SpendlessGuard store s op)
  | .connect hash => inferInstanceAs (Decidable (∀ tx ∈ (store.readBlockFromDisk hash).vtx, _ → _ ≠ _))
  | .disconnect => Option.decidableForallMem _

theorem spentValue_isNull (nHeight : Nat) (tx : CTransaction) (j : Nat) (prevout : CTxOut) :
    (spentValue nHeight tx j prevout).isNull = (tx.hash == 0) := rfl

theorem exact_step (indexed : env.fSpentIndex = true) (distinct : TxidsDistinct store) {s s' : ChainState} {op : ChainOp}
    (sound : Sound env store s) (step : Guarded env store (SpendlessGuard store) s op s') (exact' : Exact store s) :
    Exact store s' := by
  obtain ⟨step, guard⟩ := step
  cases step with
  | @connect hash st extends' found ordinary connected =>
    have accepted := step_accepted found ordinary connected
    obtain ⟨-, undos⟩ := connects_known accepted.connects sound.known fun tx member => member
    have batch := accepted.spentIndex
    rw [indexed, if_pos rfl] at batch
    have entries (entry : CSpentIndexKey × CSpentIndexValue) :
        entry ∈ st.spentIndex ↔ SpendRecord store [hash] entry.1 entry.2 := by
      rw [batch]
      exact mem_connectedSpent accepted.connects undos distinct rfl
    have kept (entry : CSpentIndexKey × CSpentIndexValue) (member : entry ∈ st.spentIndex) : entry.2.isNull = false := by
      obtain ⟨hash', single, tx, stored, j, input, out, spends, -, -, -, value⟩ := (entries entry).mp member
      rw [mem_singleton] at single
      subst single
      have ordinaryTx : tx.isCoinBase = false := by
        by_contra coinbase
        rw [Bool.not_eq_false] at coinbase
        simp [spentInputs, coinbase] at spends
      rw [value, spentValue_isNull]
      simpa using guard tx stored ordinaryTx
    have read (key : CSpentIndexKey) : (writeConnected env s hash st).pblocktree.readSpentIndex key =
        writeBatch (fun entry => entry.2.isNull) st.spentIndex s.pblocktree.spentIndex key := by
      simp only [writeConnected, indexed, if_true]
      split_ifs <;> rfl
    constructor
    · intro key value present
      rw [read] at present
      change SpendRecord store (hash :: s.chain) key value
      rw [spendRecord_cons]
      rcases writeBatch_cases (fun entry => entry.2.isNull) st.spentIndex s.pblocktree.spentIndex key with
        ⟨entry, member, rfl, decided⟩ | ⟨-, unchanged⟩
      · rw [decided, kept entry member, if_neg Bool.false_ne_true, some.injEq] at present
        subst present
        exact .inl ((entries entry).mp member)
      · rw [unchanged] at present
        exact .inr (exact'.recorded key value present)
    · intro key value spent
      change SpendRecord store (hash :: s.chain) key value at spent
      rw [spendRecord_cons] at spent
      rw [read]
      rcases writeBatch_cases (fun entry => entry.2.isNull) st.spentIndex s.pblocktree.spentIndex key with
        ⟨entry, member, -, decided⟩ | ⟨absent, unchanged⟩
      · rw [decided, kept entry member]
        rfl
      · rw [unchanged]
        rcases spent with here | before
        · exact absurd rfl (absent (key, value) ((entries _).mpr here))
        · exact exact'.complete key value before
  | @disconnect hash rest blockUndo st tip stored disconnected clean =>
    have same (key : CSpentIndexKey) : (writeDisconnected env s rest st).pblocktree.readSpentIndex key =
        s.pblocktree.readSpentIndex key := by
      simp only [writeDisconnected]
      split_ifs <;> rfl
    have spendless (key : CSpentIndexKey) (value : CSpentIndexValue) : ¬SpendRecord store [hash] key value := by
      rintro ⟨hash', single, tx, inside, j, input, out, spends, -⟩
      rw [mem_singleton] at single
      subst single
      rw [guard hash' (by simp [tip]) tx inside] at spends
      simp at spends
    constructor
    · intro key value present
      rw [same] at present
      have before := exact'.recorded key value present
      rw [tip, spendRecord_cons] at before
      exact before.resolve_left (spendless key value)
    · intro key value spent
      rw [same]
      refine exact'.complete key value ?_
      rw [tip, spendRecord_cons]
      exact .inr spent

/-- As long as no block with spends is taken back, the spent index is exactly the spends of the
active chain. -/
theorem spentIndex_exact (indexed : env.fSpentIndex = true) (distinct : TxidsDistinct store) {ops : List ChainOp}
    {s : ChainState} (run : Steps (Guarded env store (SpendlessGuard store)) (genesisState env) ops s) : Exact store s := by
  have holds : Sound env store s ∧ Exact store s := by
    refine run.invariant (fun s => Sound env store s ∧ Exact store s) (fun before op after both step => ?_)
      ⟨sound_genesis env store, ?_⟩
    · exact ⟨sound_step both.1 step.1, exact_step indexed distinct both.1 step both.2⟩
    · constructor
      · intro key value present
        simp [genesisState, CBlockTreeDB.readSpentIndex] at present
      · rintro key value ⟨hash, member, -⟩
        simp [genesisState] at member
  exact holds.2

def sampleSpentKey : CSpentIndexKey where
  txid := 1001
  outputIndex := 0

/-- The spends of block 31, and a block without spends that is taken back. -/
theorem spentIndex_exact_sample : ∃ s : ChainState, Exact sampleStore s ∧
    s.pblocktree.readSpentIndex sampleSpentKey = some (spentValue 31 sampleSpend 0
      { nValue := 5, scriptPubKey := payToPublicKeyHash 7 }) := by
  have ran : (runGuarded permissiveEnv sampleStore (SpendlessGuard sampleStore)
      (sampleConnects 30 ++ [.disconnect, .connect 30, .connect 31])).map (fun s => s.pblocktree.readSpentIndex sampleSpentKey) =
        some (some (spentValue 31 sampleSpend 0 { nValue := 5, scriptPubKey := payToPublicKeyHash 7 })) := by
    decide +kernel
  obtain ⟨s, run, shown⟩ := map_eq_some_iff.mp ran
  exact ⟨s, spentIndex_exact rfl sample_distinct (guardedStep_run run), shown⟩

/-- After block 31 is taken back its spends are still in the index. -/
theorem stale_spend_stays :
    ¬ ∀ (env : Env) (store : BlockStore) (ops : List ChainOp) (s : ChainState), env.fSpentIndex = true →
      TxidsDistinct store → Steps (ChainStep env store) (genesisState env) ops s → Exact store s := by
  intro exact'
  have ran : (runGuarded permissiveEnv sampleStore (fun _ _ => True) (sampleConnects 31 ++ [.disconnect])).map
      (fun s => (s.chain.all fun hash => (sampleStore.readBlockFromDisk hash).vtx.all fun tx => (spentInputs tx).isEmpty,
        (s.pblocktree.readSpentIndex sampleSpentKey).isSome)) = some (true, true) := by decide +kernel
  obtain ⟨s, run, shown⟩ := Option.map_eq_some_iff.mp ran
  rw [Prod.mk.injEq] at shown
  obtain ⟨value, present⟩ := Option.isSome_iff_exists.mp shown.2
  have holds := exact' permissiveEnv sampleStore _ s rfl sample_distinct (steps_of_guarded (guardedStep_run run))
  obtain ⟨hash, member, tx, inside, j, input, out, spends, -⟩ := holds.recorded _ _ present
  have none := List.all_eq_true.mp (List.all_eq_true.mp shown.1 hash member) tx inside
  rw [List.isEmpty_iff] at none
  simp [none] at spends

end Longcoin.SpentIndex

import Longcoin.ActivateChain

/-! The node ends up on the chain with the most work, whatever the order in which headers and blocks
arrive and whichever of them fail to connect. -/

namespace Longcoin.BlockTree
open Primitives Library Ancestry List Function

/-- The states that headers, blocks and `ActivateBestChain` lead to. -/
inductive Reached (P : Params) (blockProof : Nat) : Node → Prop where
  | start : Reached P blockProof (Node.initBlockIndex P blockProof)
  | header {s : Node} (block : BlockHeader) : Reached P blockProof s → Reached P blockProof (s.acceptBlockHeader P block).2
  | block {s : Node} (block : Block) : Reached P blockProof s → Reached P blockProof (s.acceptBlock P block)
  | activate {s s' : Node} (fuel : Nat) : Reached P blockProof s → Node.activateBestChain P fuel s = .ok s' →
      Reached P blockProof s'

variable {P : Params} {s s' : Node}

theorem settled_init (P : Params) (blockProof : Nat) : Settled P [] (Node.initBlockIndex P blockProof) := by
  have genesisOnly {pindex : Uint256} (known : pindex ∈ (Node.initBlockIndex P blockProof).mapBlockIndex) :
      pindex = P.hashGenesisBlock := mem_singleton.mp known
  have noParent (pindex : Uint256) : (Node.initBlockIndex P blockProof).pprev pindex = none := rfl
  have linked : (Node.initBlockIndex P blockProof).nChainTx P.hashGenesisBlock ≠ 0 := by
    simp [Node.initBlockIndex]
  refine ⟨⟨⟨⟨mem_singleton.mpr rfl, rfl, ?_⟩, ?_⟩, ⟨?_, ?_, by simp [Node.initBlockIndex], nodup_nil, by simp,
    nodup_nil, by simp⟩, ⟨⟨P.hashGenesisBlock, mem_singleton.mpr rfl, rfl⟩, ?_, ?_, ?_⟩, ?_, ?_, ?_⟩, ?_⟩
  · exact fun node known other => absurd (genesisOnly known) other
  · intro pindex parent known list
    simp [Node.initBlockIndex, Node.path, Ancestry.path] at list
  · intro pindex known _
    refine ⟨by simp [Node.initBlockIndex, genesisOnly known], fun parent isParent => ?_⟩
    rw [noParent] at isParent
    simp at isParent
  · intro pindex known _
    simp [Node.initBlockIndex, genesisOnly known]
  · intro pindex member
    rw [genesisOnly member]
    exact linked
  · intro pindex member
    rw [genesisOnly member]
    exact P.genesisConnects
  · intro pindex member _
    exact genesisOnly member
  · intro pindex member
    rw [genesisOnly member]
    exact ⟨mem_singleton.mpr rfl, linked⟩
  · intro pindex _ marked
    simp [Node.failed, Node.initBlockIndex] at marked
  · intro pindex known _ zero
    rw [genesisOnly known] at zero
    exact absurd zero linked
  · intro tip _ pindex known _ _ _
    rw [genesisOnly known]
    exact mem_singleton.mpr rfl

/-- A block is marked only if it does not connect or its data were refused. -/
def Honest (P : Params) (s : Node) : Prop := ∀ pindex ∈ s.mapBlockIndex, s.failedValid pindex = true →
  P.connects (s.path pindex) = false ∨ s.haveData pindex = false

theorem linkQueue_frame (bound : Nat) : ∀ (s : Node) (queue : List Uint256),
    (Node.linkQueue bound s queue).mapBlockIndex = s.mapBlockIndex ∧ (Node.linkQueue bound s queue).ancestors = s.ancestors ∧
      (Node.linkQueue bound s queue).failedValid = s.failedValid ∧ (Node.linkQueue bound s queue).haveData = s.haveData := by
  induction bound with
  | zero => exact fun s queue => ⟨rfl, rfl, rfl, rfl⟩
  | succ bound ih =>
    intro s queue
    cases queue with
    | nil => exact ⟨rfl, rfl, rfl, rfl⟩
    | cons pindex queue => exact ih (turn s pindex) (queue ++ range s pindex)

theorem receivedBlockTransactions_frame (s : Node) (pindexNew : Uint256) (nTx : Nat) :
    (s.receivedBlockTransactions pindexNew nTx).mapBlockIndex = s.mapBlockIndex ∧
      (s.receivedBlockTransactions pindexNew nTx).ancestors = s.ancestors ∧
      (s.receivedBlockTransactions pindexNew nTx).failedValid = s.failedValid ∧
      (s.receivedBlockTransactions pindexNew nTx).haveData = update s.haveData pindexNew true := by
  have linked := linkQueue_frame (s.mapBlocksUnlinked.length + 1) (store s pindexNew nTx) [pindexNew]
  unfold Node.receivedBlockTransactions
  dsimp only
  split
  · exact linked
  · split_ifs
    · exact linked
    · exact ⟨rfl, rfl, rfl, rfl⟩
    · exact ⟨rfl, rfl, rfl, rfl⟩

theorem honest_acceptBlockHeader (settled : Settled P [] s) (honest : Honest P s) (block : BlockHeader) :
    Honest P (s.acceptBlockHeader P block).2 := by
  unfold Node.acceptBlockHeader
  split_ifs with genesis known checked prev marked
  · rw [Node.addToBlockIndex, if_pos (genesis ▸ settled.inv.shape.tree.root_known)]
    exact honest
  all_goals try exact honest
  rw [addToBlockIndex_eq known prev]
  intro pindex inIndex invalid
  by_cases same : pindex = block.hash
  · subst same
    exact .inr (update_self _ _ _)
  · have entry := sameEntry_newEntry (s := s) same
    rw [entry.failedValid] at invalid
    rw [entry.path, entry.haveData]
    exact honest pindex ((mem_cons.mp inIndex).resolve_left same) invalid

theorem honest_acceptBlock (settled : Settled P [] s) (honest : Honest P s) (block : Block) :
    Honest P (s.acceptBlock P block) := by
  have header := honest_acceptBlockHeader settled honest block.header
  refine acceptBlock_cases block header fun accepted missing => ⟨fun _ pindex inIndex invalid => ?_, fun pindex inIndex invalid => ?_⟩
  · obtain ⟨known, unmarked⟩ := acceptBlockHeader_accepted settled accepted missing
    obtain ⟨index, ancestors, failedValid, haveData⟩ := receivedBlockTransactions_frame
      (s.acceptBlockHeader P block.header).2 block.header.hash block.nTx
    rw [index] at inIndex
    rw [failedValid] at invalid
    rw [Node.path, ancestors, haveData]
    by_cases same : pindex = block.header.hash
    · rw [Node.failed, ← same, invalid, Bool.true_or] at unmarked
      cases unmarked
    · rw [update_of_ne same]
      exact header pindex inIndex invalid
  · by_cases same : pindex = block.header.hash
    · exact .inr (same ▸ missing)
    · exact header pindex inIndex ((failedValid_mark_other same).symm.trans invalid)

theorem honest_later (honest : Honest P s) (later : Later P s s') : Honest P s' := by
  intro pindex known invalid
  rw [later.mapBlockIndex] at known
  rw [later.path, later.haveData]
  rcases later.marked pindex invalid with before | fails
  · exact honest pindex known before
  · exact .inl fails

theorem best_of_ok (settled : Settled P [] s) {fuel : Nat} (result : Node.activateBestChain P fuel s = .ok s') :
    Best P s s' := by
  rcases activateBestChain_spec fuel s settled.inv (kept_of_settled settled) with ⟨after, ok, best⟩ | ⟨stops, -⟩
  · rw [ok, Except.ok.injEq] at result
    exact result ▸ best
  · rw [stops] at result
    cases result

theorem invariant_of_reached {blockProof : Nat} (reached : Reached P blockProof s) : Settled P [] s ∧ Honest P s := by
  induction reached with
  | start => exact ⟨settled_init P blockProof, fun _ _ invalid => by simp [Node.initBlockIndex] at invalid⟩
  | header block _ ih => exact ⟨settled_acceptBlockHeader ih.1 block, honest_acceptBlockHeader ih.1 ih.2 block⟩
  | block block _ ih => exact ⟨settled_acceptBlock ih.1 block, honest_acceptBlock ih.1 ih.2 block⟩
  | activate fuel _ result ih =>
    have best := best_of_ok ih.1 result
    exact ⟨best.settled, honest_later ih.2 best.later⟩

theorem linked_of_stored (inv : Inv P [] s) {pindex : Uint256} (known : pindex ∈ s.mapBlockIndex)
    (clean : s.Clean pindex) (stored : ∀ other ∈ s.path pindex, s.haveData other = true) : s.nChainTx pindex ≠ 0 := by
  induction pindex, known using inv.shape.tree.induct with
  | base => exact inv.active.linked _ (genesis_active inv)
  | step pindex parent known parentKnown list ih =>
    have above {other : Uint256} (member : other ∈ s.path parent) : other ∈ s.path pindex :=
      mem_cons_of_mem _ (list ▸ member)
    have parentLinked := ih (fun other member => clean other (above member)) (fun other member => stored other (above member))
    intro zero
    rcases inv.queued pindex known (stored pindex (Node.mem_path_self s pindex)) zero with nothing | waits | invalid
    · simp at nothing
    · obtain ⟨other, member⟩ := waits
      obtain ⟨-, isParent, -, -, otherZero⟩ := inv.links.waiting other pindex member
      have same : some parent = some other := by rw [← isParent, Node.pprev, list]; rfl
      rw [← Option.some.inj same] at otherZero
      exact parentLinked otherZero
    · obtain ⟨bad, member, invalid⟩ := invalid
      rw [clean bad (mem_cons_of_mem _ member)] at invalid
      cases invalid

theorem most_work_tip {blockProof : Nat} (reached : Reached P blockProof s) :
    (∃ bound, ∀ fuel, bound ≤ fuel → ∃ s', Node.activateBestChain P fuel s = .ok s') ∧
    ∀ fuel s', Node.activateBestChain P fuel s = .ok s' → (∃ tip, s'.tip = some tip ∧ ∀ pindex ∈ s'.mapBlockIndex,
        (∀ other ∈ s'.path pindex, s'.haveData other = true ∧ P.connects (s'.path other) = true) →
        s'.nChainWork pindex ≤ s'.nChainWork tip) ∧ ∀ pindex ∈ s'.chainActive, P.connects (s'.path pindex) = true := by
  obtain ⟨settled, honest⟩ := invariant_of_reached reached
  refine ⟨⟨s.setBlockIndexCandidates.length + effort s + 1, fun fuel enough => ?_⟩, fun fuel s' result => ?_⟩
  · rcases activateBestChain_spec fuel s settled.inv (kept_of_settled settled) with ⟨after, ok, -⟩ | ⟨-, many⟩
    · exact ⟨after, ok⟩
    · omega
  · have best := best_of_ok settled result
    have honestAfter := honest_later honest best.later
    have inv := best.settled.inv
    obtain ⟨tip, -, isTip, -⟩ := tip_of_active inv.active
    refine ⟨⟨tip, isTip, fun pindex known good => ?_⟩, inv.active.connects⟩
    have clean : s'.Clean pindex := by
      intro other member
      have otherKnown := inv.shape.tree.known_of_mem known member
      cases invalid : s'.failedValid other with
      | false => rfl
      | true =>
        obtain ⟨stored, connects⟩ := good other member
        rcases honestAfter other otherKnown invalid with fails | missing
        · cases connects.symm.trans fails
        · cases stored.symm.trans missing
    have linked := linked_of_stored inv known clean (fun other member => (good other member).1)
    exact Node.nChainWork_le_of_key (best.ahead tip isTip pindex known clean linked)

/-! The child of block 1 arrives before it, and block 3 on top of both does not connect. -/

def sampleParams : Params where
  hashGenesisBlock := 0
  connects path := path.head? ≠ some 3
  genesisConnects := by decide
  address := addressByHash

def sampleHeader (hash hashPrevBlock : Uint256) : BlockHeader where
  hash := hash
  hashPrevBlock := hashPrevBlock
  blockProof := 2
  checked := true
  positive _ := by decide

def sampleBlock (hash hashPrevBlock : Uint256) : Block where
  header := sampleHeader hash hashPrevBlock
  nTx := 1
  check := .valid
  fRequested := true
  nonempty _ := by decide

def sampleNode : Node :=
  ((((Node.initBlockIndex sampleParams 2).acceptBlockHeader sampleParams (sampleHeader 1 0)).2.acceptBlock sampleParams
    (sampleBlock 2 1)).acceptBlock sampleParams (sampleBlock 3 2)).acceptBlock sampleParams (sampleBlock 1 0)

theorem most_work_tip_sample : (Node.activateBestChain sampleParams 20 sampleNode).toOption.bind Node.tip = some 2 ∧
      ∀ s', Node.activateBestChain sampleParams 20 sampleNode = .ok s' →
        (∃ tip, s'.tip = some tip ∧ ∀ pindex ∈ s'.mapBlockIndex,
          (∀ other ∈ s'.path pindex, s'.haveData other = true ∧ sampleParams.connects (s'.path other) = true) →
          s'.nChainWork pindex ≤ s'.nChainWork tip) ∧
        ∀ pindex ∈ s'.chainActive, sampleParams.connects (s'.path pindex) = true :=
  ⟨by decide +kernel, (most_work_tip (.block (sampleBlock 1 0) (.block (sampleBlock 3 2) (.block (sampleBlock 2 1)
    (.header (sampleHeader 1 0) (@Reached.start sampleParams 2)))))).2 20⟩

end Longcoin.BlockTree

import Longcoin.BlockTree

/-! What holds of the block index at every moment, and that accepting headers and blocks keeps it. -/

namespace Longcoin.BlockTree
open Primitives Library Ancestry List Function

namespace Node

/-- Nothing on the path of the block is marked `BLOCK_FAILED_VALID`. -/
def Clean (s : Node) (pindex : Uint256) : Prop := ∀ other ∈ s.path pindex, s.failedValid other = false

/-- Every clean linked block from `floor` on is a candidate. -/
def Covers (s : Node) (floor : Uint256) : Prop :=
  ∀ pindex ∈ s.mapBlockIndex, s.Clean pindex → s.nChainTx pindex ≠ 0 → s.key floor ≤ s.key pindex →
    pindex ∈ s.setBlockIndexCandidates

end Node

structure Shape (P : Params) (s : Node) : Prop where
  tree : Tree (· ∈ s.mapBlockIndex) s.ancestors P.hashGenesisBlock
  work : ∀ pindex parent, pindex ∈ s.mapBlockIndex → s.ancestors pindex = s.path parent →
    s.nChainWork parent < s.nChainWork pindex

/-- A block is linked (`nChainTx` is set) once it and its ancestors are stored; `queue` are the blocks
that are about to be linked. -/
structure Links (queue : List Uint256) (s : Node) : Prop where
  linked : ∀ pindex ∈ s.mapBlockIndex, s.nChainTx pindex ≠ 0 →
    s.haveData pindex = true ∧ ∀ parent, s.pprev pindex = some parent → s.nChainTx parent ≠ 0
  stored : ∀ pindex ∈ s.mapBlockIndex, s.haveData pindex = true → 0 < s.nTx pindex ∧ s.validTransactions pindex = true
  waiting : ∀ parent pindex, (parent, pindex) ∈ s.mapBlocksUnlinked →
    pindex ∈ s.mapBlockIndex ∧ s.pprev pindex = some parent ∧ s.haveData pindex = true ∧ s.nChainTx pindex = 0 ∧
      s.nChainTx parent = 0
  once : s.mapBlocksUnlinked.Nodup
  ready : ∀ pindex ∈ queue, pindex ∈ s.mapBlockIndex ∧ s.haveData pindex = true ∧ s.nChainTx pindex = 0 ∧
    ∀ parent, s.pprev pindex = some parent → s.nChainTx parent ≠ 0
  queueOnce : queue.Nodup
  apart : ∀ parent pindex, (parent, pindex) ∈ s.mapBlocksUnlinked → pindex ∉ queue

/-- The active chain is a path of linked blocks that connect. -/
structure Active (P : Params) (s : Node) : Prop where
  chain : ∃ tip ∈ s.mapBlockIndex, s.chainActive = s.path tip
  linked : ∀ pindex ∈ s.chainActive, s.nChainTx pindex ≠ 0
  connects : ∀ pindex ∈ s.chainActive, P.connects (s.path pindex) = true
  clean : ∀ pindex ∈ s.chainActive, s.failedValid pindex = true → pindex = P.hashGenesisBlock

structure Inv (P : Params) (queue : List Uint256) (s : Node) : Prop where
  shape : Shape P s
  links : Links queue s
  active : Active P s
  candidates : ∀ pindex ∈ s.setBlockIndexCandidates, pindex ∈ s.mapBlockIndex ∧ s.nChainTx pindex ≠ 0
  /-- A failed block has a `BLOCK_FAILED_VALID` block on its path. -/
  flagged : ∀ pindex ∈ s.mapBlockIndex, s.failed pindex = true → ∃ other ∈ s.path pindex, s.failedValid other = true
  /-- A stored block that is not linked waits for its parent, unless an ancestor is invalid. -/
  queued : ∀ pindex ∈ s.mapBlockIndex, s.haveData pindex = true → s.nChainTx pindex = 0 →
    pindex ∈ queue ∨ (∃ parent, (parent, pindex) ∈ s.mapBlocksUnlinked) ∨
      ∃ other ∈ s.ancestors pindex, s.failedValid other = true

/-- Between two calls the tip is the floor of the candidates. -/
structure Settled (P : Params) (queue : List Uint256) (s : Node) : Prop where
  inv : Inv P queue s
  covers : ∀ tip, s.tip = some tip → s.Covers tip

variable {P : Params} {s : Node} {queue : List Uint256}

namespace Node

theorem mem_path_self (s : Node) (pindex : Uint256) : pindex ∈ s.path pindex := mem_cons_self

theorem path_of_pprev (shape : Shape P s) {pindex parent : Uint256} (known : pindex ∈ s.mapBlockIndex)
    (above : s.pprev pindex = some parent) : parent ∈ s.mapBlockIndex ∧ s.ancestors pindex = s.path parent := by
  by_cases genesis : pindex = P.hashGenesisBlock
  · rw [pprev, genesis, shape.tree.root_ancestors] at above
    simp at above
  · obtain ⟨other, otherKnown, list⟩ := shape.tree.child pindex known genesis
    rw [pprev, list, Ancestry.path, head?_cons, Option.some.injEq] at above
    subst above
    exact ⟨otherKnown, list⟩

end Node

theorem tip_of_active (active : Active P s) : ∃ tip ∈ s.mapBlockIndex, s.tip = some tip ∧ s.chainActive = s.path tip := by
  obtain ⟨tip, known, chain⟩ := active.chain
  exact ⟨tip, known, by rw [Node.tip, chain]; rfl, chain⟩

theorem genesis_active (inv : Inv P queue s) : P.hashGenesisBlock ∈ s.chainActive := by
  obtain ⟨tip, known, -, chain⟩ := tip_of_active inv.active
  exact chain ▸ inv.shape.tree.root_mem known

theorem genesis_stored (inv : Inv P queue s) : s.haveData P.hashGenesisBlock = true :=
  (inv.links.linked _ inv.shape.tree.root_known (inv.active.linked _ (genesis_active inv))).1

section

variable {pindex other : Uint256}

theorem key_linkBlock (different : other ≠ pindex) : (s.linkBlock pindex).key other = s.key other := by
  have same : (s.linkBlock pindex).nSequenceId other = s.nSequenceId other := update_of_ne different _ _
  rw [Node.key, same]
  rfl

theorem linked_of_linkBlock (linked : s.nChainTx other ≠ 0) (stored : 0 < s.nTx pindex) :
    (s.linkBlock pindex).nChainTx other ≠ 0 := by
  by_cases same : other = pindex
  · subst same
    simp only [Node.linkBlock, update_self]
    omega
  · simp only [Node.linkBlock, update_of_ne same]
    exact linked

theorem nChainTx_linkBlock (different : other ≠ pindex) :
    (s.linkBlock pindex).nChainTx other = s.nChainTx other := update_of_ne different _ _

theorem mem_candidates_linkBlock (member : other ∈ (s.linkBlock pindex).setBlockIndexCandidates) :
    other = pindex ∨ other ∈ s.setBlockIndexCandidates := by
  simp only [Node.linkBlock] at member
  split_ifs at member
  · exact mem_insert_iff.mp member
  · exact .inr member

theorem candidates_linkBlock (member : other ∈ s.setBlockIndexCandidates) :
    other ∈ (s.linkBlock pindex).setBlockIndexCandidates := by
  simp only [Node.linkBlock]
  split_ifs
  · exact mem_insert_iff.mpr (.inr member)
  · exact member

end

theorem linkBlock_inserts {pindex tip : Uint256} (isTip : s.tip = some tip)
    (better : (s.linkBlock pindex).key tip ≤ (s.linkBlock pindex).key pindex) :
    pindex ∈ (s.linkBlock pindex).setBlockIndexCandidates := by
  rw [← Node.not_workLess_iff] at better
  have passes : s.tip.all (fun tip => !(s.linkBlock pindex).workLess pindex tip) = true := by
    rw [isTip, Option.all_some, better]
    rfl
  rw [Node.linkBlock]
  refine Eq.subst (motive := fun candidates => pindex ∈ candidates) (if_pos passes).symm ?_
  exact mem_insert_iff.mpr (.inl rfl)

def range (s : Node) (pindex : Uint256) : List Uint256 :=
  (s.mapBlocksUnlinked.filter fun pair => pair.1 = pindex).map Prod.snd

theorem mem_range {pindex other : Uint256} : other ∈ range s pindex ↔ (pindex, other) ∈ s.mapBlocksUnlinked := by
  simp only [range, mem_map, mem_filter, decide_eq_true_eq, Prod.exists]
  constructor
  · rintro ⟨parent, child, ⟨member, rfl⟩, rfl⟩
    exact member
  · intro member
    exact ⟨pindex, other, ⟨member, rfl⟩, rfl⟩

def turn (s : Node) (pindex : Uint256) : Node :=
  { s.linkBlock pindex with mapBlocksUnlinked := s.mapBlocksUnlinked.filter fun pair => pair.1 ≠ pindex }

theorem mem_unlinked_turn {pindex parent other : Uint256} :
    (parent, other) ∈ (turn s pindex).mapBlocksUnlinked ↔ (parent, other) ∈ s.mapBlocksUnlinked ∧ parent ≠ pindex := by
  simp only [turn, mem_filter, decide_eq_true_eq]

theorem links_turn {pindex : Uint256} (links : Links (pindex :: queue) s) :
    Links (queue ++ range s pindex) (turn s pindex) := by
  obtain ⟨known, data, unlinked, parents⟩ := links.ready pindex mem_cons_self
  have full := (links.stored pindex known data).1
  have keeps {other : Uint256} (isLinked : s.nChainTx other ≠ 0) : (turn s pindex).nChainTx other ≠ 0 :=
    linked_of_linkBlock isLinked full
  have others {other : Uint256} (different : other ≠ pindex) : (turn s pindex).nChainTx other = s.nChainTx other :=
    nChainTx_linkBlock different
  have here : (turn s pindex).nChainTx pindex ≠ 0 := by
    simp only [turn, Node.linkBlock, update_self]
    omega
  obtain ⟨notQueued, queueOnce⟩ := nodup_cons.mp links.queueOnce
  have apart {parent other : Uint256} (member : (parent, other) ∈ s.mapBlocksUnlinked) : other ≠ pindex ∧ other ∉ queue := by
    have outside := links.apart parent other member
    rw [mem_cons, not_or] at outside
    exact outside
  refine ⟨?_, links.stored, ?_, links.once.filter _, ?_, ?_, ?_⟩
  · intro other otherKnown isLinked
    by_cases same : other = pindex
    · subst same
      exact ⟨data, fun parent above => keeps (parents parent above)⟩
    · rw [others same] at isLinked
      obtain ⟨stored, above⟩ := links.linked other otherKnown isLinked
      exact ⟨stored, fun parent isParent => keeps (above parent isParent)⟩
  · intro parent other member
    obtain ⟨before, notHere⟩ := mem_unlinked_turn.mp member
    obtain ⟨otherKnown, above, stored, zero, parentZero⟩ := links.waiting parent other before
    exact ⟨otherKnown, above, stored, (others (apart before).1).trans zero, (others notHere).trans parentZero⟩
  · intro other member
    rcases mem_append.mp member with inQueue | inRange
    · obtain ⟨otherKnown, stored, zero, above⟩ := links.ready other (mem_cons_of_mem _ inQueue)
      have different : other ≠ pindex := fun same => notQueued (same ▸ inQueue)
      exact ⟨otherKnown, stored, (others different).trans zero, fun parent isParent => keeps (above parent isParent)⟩
    · rw [mem_range] at inRange
      obtain ⟨otherKnown, above, stored, zero, -⟩ := links.waiting pindex other inRange
      refine ⟨otherKnown, stored, (others (apart inRange).1).trans zero, fun parent isParent => ?_⟩
      have same : some parent = some pindex := isParent.symm.trans above
      rw [Option.some.injEq] at same
      exact same ▸ here
  · refine nodup_append.mpr ⟨queueOnce, ?_, ?_⟩
    · refine (links.once.filter _).map_on ?_
      rintro ⟨parent, child⟩ one ⟨parent', child'⟩ two same
      simp only [mem_filter, decide_eq_true_eq] at one two same
      rw [one.2, two.2, same]
    · rintro other inQueue _ inRange rfl
      exact (apart (mem_range.mp inRange)).2 inQueue
  · intro parent other member
    obtain ⟨before, notHere⟩ := mem_unlinked_turn.mp member
    rw [mem_append, not_or]
    refine ⟨(apart before).2, fun inRange => notHere ?_⟩
    have one := (links.waiting parent other before).2.1
    have two := (links.waiting pindex other (mem_range.mp inRange)).2.1
    rw [one, Option.some.injEq] at two
    exact two

theorem inv_turn {pindex : Uint256} (inv : Inv P (pindex :: queue) s) : Inv P (queue ++ range s pindex) (turn s pindex) := by
  obtain ⟨known, data, unlinked, parents⟩ := inv.links.ready pindex mem_cons_self
  have full := (inv.links.stored pindex known data).1
  refine ⟨{ inv.shape with }, links_turn inv.links, ?_, ?_, inv.flagged, ?_⟩
  · exact ⟨inv.active.chain, fun other member => linked_of_linkBlock (inv.active.linked other member) full,
      inv.active.connects, inv.active.clean⟩
  · intro other member
    rcases mem_candidates_linkBlock member with rfl | before
    · refine ⟨known, ?_⟩
      simp only [turn, Node.linkBlock, update_self]
      omega
    · obtain ⟨otherKnown, isLinked⟩ := inv.candidates other before
      exact ⟨otherKnown, linked_of_linkBlock isLinked full⟩
  · intro other otherKnown stored zero
    have different : other ≠ pindex := by
      rintro rfl
      simp only [turn, Node.linkBlock, update_self] at zero
      omega
    rw [turn, nChainTx_linkBlock different] at zero
    rcases inv.queued other otherKnown stored zero with inQueue | ⟨parent, waits⟩ | invalid
    · exact .inl (mem_append_left _ ((mem_cons.mp inQueue).resolve_left different))
    · by_cases here : parent = pindex
      · exact .inl (mem_append_right _ (mem_range.mpr (here ▸ waits)))
      · exact .inr (.inl ⟨parent, mem_unlinked_turn.mpr ⟨waits, here⟩⟩)
    · exact .inr (.inr invalid)

theorem settled_turn {pindex : Uint256} (settled : Settled P (pindex :: queue) s) :
    Settled P (queue ++ range s pindex) (turn s pindex) := by
  obtain ⟨inv, covers⟩ := settled
  obtain ⟨known, data, unlinked, parents⟩ := inv.links.ready pindex mem_cons_self
  refine ⟨inv_turn inv, fun tip isTip other otherKnown clean linked better => ?_⟩
  have isTip : s.tip = some tip := isTip
  have tipLinked : s.nChainTx tip ≠ 0 := inv.active.linked tip (mem_of_head? isTip)
  have tipDiffers : tip ≠ pindex := by
    rintro rfl
    exact tipLinked unlinked
  by_cases same : other = pindex
  · subst same
    exact linkBlock_inserts isTip better
  · have before : s.key tip ≤ s.key other := by
      have := (key_linkBlock (s := s) tipDiffers) ▸ (key_linkBlock (s := s) same) ▸ better
      exact this
    rw [turn, nChainTx_linkBlock same] at linked
    exact candidates_linkBlock (covers tip isTip other otherKnown clean linked before)

theorem length_turn (s : Node) (queue : List Uint256) (pindex : Uint256) :
    (queue ++ range s pindex).length + (turn s pindex).mapBlocksUnlinked.length =
      queue.length + s.mapBlocksUnlinked.length := by
  have split := s.mapBlocksUnlinked.length_eq_length_filter_add (fun pair => decide (pair.1 = pindex))
  simp only [turn, range, length_append, length_map, ne_eq, decide_not]
  omega

theorem settled_linkQueue (bound : Nat) : ∀ (s : Node) (queue : List Uint256), Settled P queue s →
    queue.length + s.mapBlocksUnlinked.length ≤ bound → Settled P [] (Node.linkQueue bound s queue) := by
  induction bound with
  | zero =>
    intro s queue settled enough
    have empty : queue = [] := eq_nil_of_length_eq_zero (by omega)
    subst empty
    exact settled
  | succ bound ih =>
    intro s queue settled enough
    cases queue with
    | nil => exact settled
    | cons pindex queue =>
      refine ih (turn s pindex) (queue ++ range s pindex) (settled_turn settled) ?_
      rw [length_turn]
      rw [length_cons] at enough
      omega

def store (s : Node) (pindexNew : Uint256) (nTx : Nat) : Node :=
  { s with
    nTx := Function.update s.nTx pindexNew nTx
    nChainTx := Function.update s.nChainTx pindexNew 0
    haveData := Function.update s.haveData pindexNew true
    validTransactions := Function.update s.validTransactions pindexNew
      (s.validTransactions pindexNew || !s.failed pindexNew) }

theorem unlinked_of_missing (links : Links queue s) {pindex : Uint256} (known : pindex ∈ s.mapBlockIndex)
    (missing : s.haveData pindex = false) : s.nChainTx pindex = 0 := by
  by_contra linked
  rw [(links.linked pindex known linked).1] at missing
  cases missing

variable {pindexNew : Uint256}

theorem nChainTx_store (links : Links queue s) (known : pindexNew ∈ s.mapBlockIndex) (missing : s.haveData pindexNew = false)
    (nTx : Nat) : (store s pindexNew nTx).nChainTx = s.nChainTx := by
  rw [store, ← unlinked_of_missing links known missing]
  exact update_eq_self _ _

theorem haveData_store {other : Uint256} (nTx : Nat) (stored : s.haveData other = true) :
    (store s pindexNew nTx).haveData other = true := by
  by_cases same : other = pindexNew
  · rw [store, same]
    exact update_self _ _ _
  · rw [store]
    exact (update_of_ne same _ _).trans stored

theorem stored_store (links : Links queue s) {nTx : Nat} (filled : 0 < nTx) (unmarked : s.failed pindexNew = false)
    {other : Uint256} (known : other ∈ s.mapBlockIndex) (stored : (store s pindexNew nTx).haveData other = true) :
    0 < (store s pindexNew nTx).nTx other ∧ (store s pindexNew nTx).validTransactions other = true := by
  by_cases same : other = pindexNew
  · subst same
    simp only [store, update_self, unmarked, Bool.not_false, Bool.or_true, and_true]
    exact filled
  · simp only [store, update_of_ne same] at stored ⊢
    exact links.stored other known stored

theorem settled_store (settled : Settled P [] s) {nTx : Nat} (filled : 0 < nTx) (known : pindexNew ∈ s.mapBlockIndex)
    (missing : s.haveData pindexNew = false) (unmarked : s.failed pindexNew = false) {waiting : List (Uint256 × Uint256)}
    (inQueue : ∀ other ∈ queue, other = pindexNew ∧ ∀ parent, s.pprev pindexNew = some parent → s.nChainTx parent ≠ 0)
    (queueOnce : queue.Nodup) (keeps : s.mapBlocksUnlinked ⊆ waiting) (once : waiting.Nodup)
    (waits : ∀ parent other, (parent, other) ∈ waiting → (parent, other) ∉ s.mapBlocksUnlinked →
      other = pindexNew ∧ s.pprev pindexNew = some parent ∧ s.nChainTx parent = 0 ∧ pindexNew ∉ queue)
    (found : pindexNew ∈ queue ∨ (∃ parent, (parent, pindexNew) ∈ waiting) ∨ ∃ other ∈ s.ancestors pindexNew, s.failedValid other = true) :
    Settled P queue { store s pindexNew nTx with mapBlocksUnlinked := waiting } := by
  obtain ⟨inv, covers⟩ := settled
  have same := nChainTx_store inv.links known missing nTx
  have zero := unlinked_of_missing inv.links known missing
  have here : (store s pindexNew nTx).haveData pindexNew = true := update_self _ _ _
  have notWaiting (parent : Uint256) : (parent, pindexNew) ∉ s.mapBlocksUnlinked := by
    intro member
    rw [(inv.links.waiting parent pindexNew member).2.2.1] at missing
    cases missing
  have linksAfter : Links queue { store s pindexNew nTx with mapBlocksUnlinked := waiting } := by
    refine ⟨?_, fun other => stored_store inv.links filled unmarked, ?_, once, ?_, queueOnce, ?_⟩
    · intro other otherKnown linked
      change (store s pindexNew nTx).nChainTx other ≠ 0 at linked
      change _ ∧ ∀ parent, s.pprev other = some parent → (store s pindexNew nTx).nChainTx parent ≠ 0
      rw [same] at linked ⊢
      obtain ⟨stored, above⟩ := inv.links.linked other otherKnown linked
      exact ⟨haveData_store nTx stored, above⟩
    · intro parent other member
      change _ ∧ _ ∧ _ ∧ (store s pindexNew nTx).nChainTx other = 0 ∧ (store s pindexNew nTx).nChainTx parent = 0
      rw [same]
      by_cases before : (parent, other) ∈ s.mapBlocksUnlinked
      · obtain ⟨otherKnown, above, stored, rest⟩ := inv.links.waiting parent other before
        exact ⟨otherKnown, above, haveData_store nTx stored, rest⟩
      · obtain ⟨rfl, above, parentZero, -⟩ := waits parent other member before
        exact ⟨known, above, here, zero, parentZero⟩
    · intro other member
      obtain ⟨rfl, parents⟩ := inQueue other member
      change _ ∧ _ ∧ (store s other nTx).nChainTx other = 0 ∧
        ∀ parent, s.pprev other = some parent → (store s other nTx).nChainTx parent ≠ 0
      rw [same]
      exact ⟨known, here, zero, parents⟩
    · intro parent other member otherQueued
      obtain ⟨rfl, -⟩ := inQueue other otherQueued
      exact (waits parent other member (notWaiting parent)).2.2.2 otherQueued
  refine ⟨⟨{ inv.shape with }, linksAfter, ⟨inv.active.chain, ?_, inv.active.connects, inv.active.clean⟩,
    ?_, inv.flagged, ?_⟩, ?_⟩
  · change ∀ other ∈ s.chainActive, (store s pindexNew nTx).nChainTx other ≠ 0
    rw [same]
    exact inv.active.linked
  · change ∀ other ∈ s.setBlockIndexCandidates, other ∈ s.mapBlockIndex ∧ (store s pindexNew nTx).nChainTx other ≠ 0
    rw [same]
    exact inv.candidates
  · intro other otherKnown stored unlinked
    change (store s pindexNew nTx).nChainTx other = 0 at unlinked
    rw [same] at unlinked
    by_cases new : other = pindexNew
    · exact new ▸ found
    · have before : s.haveData other = true := (update_of_ne new _ _).symm.trans stored
      rcases inv.queued other otherKnown before unlinked with nothing | ⟨parent, member⟩ | invalid
      · simp at nothing
      · exact .inr (.inl ⟨parent, keeps member⟩)
      · exact .inr (.inr invalid)
  · intro tip isTip other otherKnown clean linked better
    change (store s pindexNew nTx).nChainTx other ≠ 0 at linked
    rw [same] at linked
    exact covers tip isTip other otherKnown clean linked better

theorem settled_receivedBlockTransactions (settled : Settled P [] s) {nTx : Nat} (filled : 0 < nTx)
    (known : pindexNew ∈ s.mapBlockIndex) (missing : s.haveData pindexNew = false) (unmarked : s.failed pindexNew = false) :
    Settled P [] (s.receivedBlockTransactions pindexNew nTx) := by
  have inv := settled.inv
  have same := nChainTx_store inv.links known missing nTx
  have linkNow (parents : ∀ parent, s.pprev pindexNew = some parent → s.nChainTx parent ≠ 0) :
      Settled P [] (Node.linkQueue (s.mapBlocksUnlinked.length + 1) (store s pindexNew nTx) [pindexNew]) := by
    refine settled_linkQueue _ _ _ ?_ (le_of_eq (Nat.add_comm _ _))
    refine settled_store settled filled known missing unmarked ?_ (nodup_singleton _) (Subset.refl _)
      inv.links.once ?_ (.inl (mem_singleton.mpr rfl))
    · intro other member
      exact ⟨mem_singleton.mp member, parents⟩
    · intro parent other member absent
      exact absurd member absent
  unfold Node.receivedBlockTransactions
  dsimp only
  split
  next root =>
    have above : s.pprev pindexNew = none := root
    exact linkNow (fun parent isParent => absurd (above.symm.trans isParent) (by simp))
  next parent child =>
    have above : s.pprev pindexNew = some parent := child
    change Settled P [] (if (store s pindexNew nTx).nChainTx parent ≠ 0 then _ else _)
    rw [same]
    by_cases linked : s.nChainTx parent ≠ 0
    · rw [if_pos linked]
      refine linkNow (fun other isParent => ?_)
      rw [above, Option.some.injEq] at isParent
      exact isParent ▸ linked
    · rw [if_neg linked]
      rw [not_not] at linked
      obtain ⟨parentKnown, list⟩ := Node.path_of_pprev inv.shape known above
      cases valid : s.isValidTree parent with
      | true =>
        change Settled P [] (if s.isValidTree parent = true then _ else _)
        rw [if_pos valid]
        refine settled_store settled filled known missing unmarked (by simp) nodup_nil (subset_append_left _ _) ?_ ?_
          (.inr (.inl ⟨parent, mem_append_right _ (mem_singleton.mpr rfl)⟩))
        · refine nodup_append.mpr ⟨inv.links.once, nodup_singleton _, fun pair member other isNew same => ?_⟩
          rw [same, mem_singleton.mp isNew] at member
          rw [(inv.links.waiting parent pindexNew member).2.2.1] at missing
          cases missing
        · intro one other member absent
          have new : (one, other) = (parent, pindexNew) :=
            mem_singleton.mp ((mem_append.mp member).resolve_left absent)
          obtain ⟨rfl, rfl⟩ := Prod.mk.inj new
          exact ⟨rfl, above, linked, not_mem_nil⟩
      | false =>
        change Settled P [] (if s.isValidTree parent = true then _ else _)
        rw [if_neg (by rw [valid]; decide)]
        have marked : s.failed parent = true := by
          rw [Node.isValidTree, Bool.not_eq_eq_eq_not, Bool.not_false] at valid
          exact valid
        obtain ⟨bad, member, invalid⟩ := inv.flagged parent parentKnown marked
        refine settled_store settled filled known missing unmarked (by simp) nodup_nil (Subset.refl _)
          inv.links.once ?_ (.inr (.inr ⟨bad, list ▸ member, invalid⟩))
        intro one other member absent
        exact absurd member absent

structure SameEntry (s s' : Node) (pindex : Uint256) : Prop where
  address : s'.address pindex = s.address pindex
  ancestors : s'.ancestors pindex = s.ancestors pindex
  nChainWork : s'.nChainWork pindex = s.nChainWork pindex
  nTx : s'.nTx pindex = s.nTx pindex
  nChainTx : s'.nChainTx pindex = s.nChainTx pindex
  nSequenceId : s'.nSequenceId pindex = s.nSequenceId pindex
  validTransactions : s'.validTransactions pindex = s.validTransactions pindex
  haveData : s'.haveData pindex = s.haveData pindex
  failedValid : s'.failedValid pindex = s.failedValid pindex
  failedChild : s'.failedChild pindex = s.failedChild pindex

namespace SameEntry

variable {s' : Node} {pindex : Uint256}

theorem path (same : SameEntry s s' pindex) : s'.path pindex = s.path pindex :=
  congrArg (pindex :: ·) same.ancestors

theorem pprev (same : SameEntry s s' pindex) : s'.pprev pindex = s.pprev pindex :=
  congrArg head? same.ancestors

theorem key (same : SameEntry s s' pindex) : s'.key pindex = s.key pindex := by
  rw [Node.key, Node.key, same.nChainWork, same.nSequenceId, same.address]

theorem failed (same : SameEntry s s' pindex) : s'.failed pindex = s.failed pindex := by
  rw [Node.failed, Node.failed, same.failedValid, same.failedChild]

end SameEntry

def newEntry (s : Node) (block : BlockHeader) : Node :=
  { s with
    mapBlockIndex := block.hash :: s.mapBlockIndex
    ancestors := Function.update s.ancestors block.hash (s.path block.hashPrevBlock)
    nChainWork := Function.update s.nChainWork block.hash (s.nChainWork block.hashPrevBlock + block.blockProof)
    nTx := Function.update s.nTx block.hash 0
    nChainTx := Function.update s.nChainTx block.hash 0
    nSequenceId := Function.update s.nSequenceId block.hash 0
    validTransactions := Function.update s.validTransactions block.hash false
    haveData := Function.update s.haveData block.hash false
    failedValid := Function.update s.failedValid block.hash false
    failedChild := Function.update s.failedChild block.hash false }

theorem addToBlockIndex_eq {block : BlockHeader} (new : block.hash ∉ s.mapBlockIndex)
    (prevKnown : block.hashPrevBlock ∈ s.mapBlockIndex) : s.addToBlockIndex block = newEntry s block := by
  rw [Node.addToBlockIndex, if_neg new, decide_eq_true prevKnown]
  rfl

theorem sameEntry_newEntry {block : BlockHeader} {pindex : Uint256} (different : pindex ≠ block.hash) :
    SameEntry s (newEntry s block) pindex := by
  constructor
  · rfl
  all_goals exact update_of_ne different _ _

theorem failed_newEntry (s : Node) (block : BlockHeader) : (newEntry s block).failed block.hash = false := by
  simp only [Node.failed, newEntry, update_self, Bool.or_self]

section NewEntry

variable {block : BlockHeader}

theorem old_newEntry (new : block.hash ∉ s.mapBlockIndex) {other : Uint256} (known : other ∈ s.mapBlockIndex) :
    SameEntry s (newEntry s block) other := sameEntry_newEntry fun same => new (same ▸ known)

theorem known_newEntry {other : Uint256} (known : other ∈ (newEntry s block).mapBlockIndex) :
    other = block.hash ∨ other ∈ s.mapBlockIndex := mem_cons.mp known

theorem nChainTx_newEntry (s : Node) (block : BlockHeader) : (newEntry s block).nChainTx block.hash = 0 := update_self _ _ _

theorem haveData_newEntry (s : Node) (block : BlockHeader) : (newEntry s block).haveData block.hash = false := update_self _ _ _

theorem shape_newEntry (shape : Shape P s) (new : block.hash ∉ s.mapBlockIndex) (prevKnown : block.hashPrevBlock ∈ s.mapBlockIndex)
    (work : 0 < block.blockProof) : Shape P (newEntry s block) := by
  have list : (newEntry s block).ancestors block.hash = s.path block.hashPrevBlock := update_self _ _ _
  refine ⟨?_, ?_⟩
  · have tree := shape.tree.insert prevKnown new
    have sameKnown : (fun node => node = block.hash ∨ node ∈ s.mapBlockIndex) = (· ∈ (newEntry s block).mapBlockIndex) :=
      funext (fun node => propext mem_cons.symm)
    exact sameKnown ▸ tree
  · intro pindex parent known above
    rcases known_newEntry known with rfl | known
    · rw [list] at above
      have isPrev : block.hashPrevBlock = parent := (cons.inj above).1
      rw [← isPrev, (old_newEntry new prevKnown).nChainWork]
      change _ < update s.nChainWork block.hash _ block.hash
      rw [update_self]
      omega
    · rw [(old_newEntry new known).ancestors] at above
      have isPrev : s.pprev pindex = some parent := by rw [Node.pprev, above]; rfl
      obtain ⟨parentKnown, before⟩ := Node.path_of_pprev shape known isPrev
      rw [(old_newEntry new known).nChainWork, (old_newEntry new parentKnown).nChainWork]
      exact shape.work pindex parent known before

theorem links_newEntry (inv : Inv P [] s) (new : block.hash ∉ s.mapBlockIndex) : Links [] (newEntry s block) := by
  refine ⟨?_, ?_, ?_, inv.links.once, by simp, nodup_nil, by simp⟩
  · intro other known linked
    rcases known_newEntry known with rfl | known
    · exact absurd (nChainTx_newEntry s block) linked
    · rw [(old_newEntry new known).nChainTx] at linked
      rw [(old_newEntry new known).haveData, (old_newEntry new known).pprev]
      obtain ⟨stored, above⟩ := inv.links.linked other known linked
      refine ⟨stored, fun parent isParent => ?_⟩
      rw [(old_newEntry new (Node.path_of_pprev inv.shape known isParent).1).nChainTx]
      exact above parent isParent
  · intro other known stored
    rcases known_newEntry known with rfl | known
    · cases (haveData_newEntry s block).symm.trans stored
    · rw [(old_newEntry new known).haveData] at stored
      rw [(old_newEntry new known).nTx, (old_newEntry new known).validTransactions]
      exact inv.links.stored other known stored
  · intro parent other member
    obtain ⟨known, isParent, stored, zero, parentZero⟩ := inv.links.waiting parent other member
    have parentKnown := (Node.path_of_pprev inv.shape known isParent).1
    rw [(old_newEntry new known).pprev, (old_newEntry new known).haveData, (old_newEntry new known).nChainTx,
      (old_newEntry new parentKnown).nChainTx]
    exact ⟨mem_cons_of_mem _ known, isParent, stored, zero, parentZero⟩

theorem active_newEntry (inv : Inv P [] s) (new : block.hash ∉ s.mapBlockIndex) : Active P (newEntry s block) := by
  obtain ⟨tip, tipKnown, isTip, chain⟩ := tip_of_active inv.active
  have onChain {other : Uint256} (member : other ∈ s.chainActive) : SameEntry s (newEntry s block) other := by
    have onPath : other ∈ s.path tip := chain ▸ member
    exact old_newEntry new (inv.shape.tree.known_of_mem tipKnown onPath)
  refine ⟨⟨tip, mem_cons_of_mem _ tipKnown, chain.trans (old_newEntry new tipKnown).path.symm⟩, ?_, ?_, ?_⟩
  · intro other member
    rw [(onChain member).nChainTx]
    exact inv.active.linked other member
  · intro other member
    rw [(onChain member).path]
    exact inv.active.connects other member
  · intro other member invalid
    rw [(onChain member).failedValid] at invalid
    exact inv.active.clean other member invalid

theorem settled_newEntry (settled : Settled P [] s) {block : BlockHeader} (new : block.hash ∉ s.mapBlockIndex)
    (prevKnown : block.hashPrevBlock ∈ s.mapBlockIndex) (work : 0 < block.blockProof) : Settled P [] (newEntry s block) := by
  obtain ⟨inv, covers⟩ := settled
  have old {other : Uint256} (known : other ∈ s.mapBlockIndex) : SameEntry s (newEntry s block) other := old_newEntry new known
  have onPath {other above : Uint256} (known : other ∈ s.mapBlockIndex) (member : above ∈ s.path other) :
      SameEntry s (newEntry s block) above := old (inv.shape.tree.known_of_mem known member)
  obtain ⟨tip, tipKnown, isTip, -⟩ := tip_of_active inv.active
  have clean {other : Uint256} (known : other ∈ s.mapBlockIndex) (after : (newEntry s block).Clean other) : s.Clean other := by
    intro above member
    rw [← (onPath known member).failedValid]
    exact after above ((old known).path.symm ▸ member)
  refine ⟨⟨shape_newEntry inv.shape new prevKnown work, links_newEntry inv new, active_newEntry inv new, ?_, ?_, ?_⟩, ?_⟩
  · intro other member
    obtain ⟨known, linked⟩ := inv.candidates other member
    rw [(old known).nChainTx]
    exact ⟨mem_cons_of_mem _ known, linked⟩
  · intro other known marked
    rcases known_newEntry known with rfl | known
    · rw [failed_newEntry] at marked
      cases marked
    · rw [(old known).failed] at marked
      rw [(old known).path]
      obtain ⟨bad, member, invalid⟩ := inv.flagged other known marked
      exact ⟨bad, member, (onPath known member).failedValid.trans invalid⟩
  · intro other known stored zero
    rcases known_newEntry known with rfl | known
    · cases (haveData_newEntry s block).symm.trans stored
    · rw [(old known).haveData] at stored
      rw [(old known).nChainTx] at zero
      rw [(old known).ancestors]
      rcases inv.queued other known stored zero with nothing | waits | ⟨bad, member, invalid⟩
      · exact .inl nothing
      · exact .inr (.inl waits)
      · exact .inr (.inr ⟨bad, member,
          (onPath known (mem_cons_of_mem _ member)).failedValid.trans invalid⟩)
  · intro newTip isNewTip other known after linked better
    have same : newTip = tip := Option.some.inj (isNewTip.symm.trans isTip)
    rcases known_newEntry known with rfl | known
    · exact absurd (nChainTx_newEntry s block) linked
    · rw [(old known).nChainTx] at linked
      rw [same, (old tipKnown).key, (old known).key] at better
      exact covers tip isTip other known (clean known after) linked better

end NewEntry

theorem settled_acceptBlockHeader (settled : Settled P [] s) (block : BlockHeader) :
    Settled P [] (s.acceptBlockHeader P block).2 := by
  have genesisKnown := settled.inv.shape.tree.root_known
  unfold Node.acceptBlockHeader
  split_ifs with genesis known checked prev marked
  · rw [Node.addToBlockIndex, if_pos (genesis ▸ genesisKnown)]
    exact settled
  all_goals try exact settled
  rw [addToBlockIndex_eq known prev]
  exact settled_newEntry settled known prev (block.positive (by simpa using checked))

theorem acceptBlockHeader_accepted (settled : Settled P [] s) {block : BlockHeader}
    (accepted : (s.acceptBlockHeader P block).1 = true)
    (missing : (s.acceptBlockHeader P block).2.haveData block.hash = false) :
    block.hash ∈ (s.acceptBlockHeader P block).2.mapBlockIndex ∧
      (s.acceptBlockHeader P block).2.failed block.hash = false := by
  have inv := settled.inv
  unfold Node.acceptBlockHeader at accepted missing ⊢
  split_ifs at accepted missing ⊢ with genesis known checked prev marked
  · rw [Node.addToBlockIndex, if_pos (genesis ▸ inv.shape.tree.root_known), genesis, genesis_stored inv] at missing
    cases missing
  · exact ⟨known, by simpa using accepted⟩
  · rw [addToBlockIndex_eq known prev]
    exact ⟨mem_cons_self, failed_newEntry s block⟩

/-- The block is marked `BLOCK_FAILED_VALID`. -/
def mark (s : Node) (pindex : Uint256) : Node := { s with failedValid := Function.update s.failedValid pindex true }

theorem failedValid_mark_other {pindex other : Uint256} (different : other ≠ pindex) :
    (mark s pindex).failedValid other = s.failedValid other := update_of_ne different _ _

theorem failedValid_mark {pindex other : Uint256} (invalid : s.failedValid other = true) :
    (mark s pindex).failedValid other = true := by
  by_cases same : other = pindex
  · rw [mark, same]
    exact update_self _ _ _
  · exact (failedValid_mark_other same).trans invalid

theorem clean_of_mark {pindex other : Uint256} (clean : (mark s pindex).Clean other) : s.Clean other := by
  intro above member
  cases invalid : s.failedValid above with
  | false => rfl
  | true => cases (failedValid_mark invalid).symm.trans (clean above member)

theorem inv_mark (inv : Inv P queue s) {pindex : Uint256} (off : pindex ∈ s.chainActive → pindex = P.hashGenesisBlock) :
    Inv P queue (mark s pindex) := by
  refine ⟨{ inv.shape with }, { inv.links with },
    ⟨inv.active.chain, inv.active.linked, inv.active.connects, ?_⟩, inv.candidates, ?_, ?_⟩
  · intro other member invalid
    by_cases same : other = pindex
    · exact same.trans (off (same ▸ member))
    · exact inv.active.clean other member ((failedValid_mark_other same).symm.trans invalid)
  · intro other known marked
    by_cases same : other = pindex
    · subst same
      exact ⟨other, Node.mem_path_self s other, update_self _ _ _⟩
    · have before : s.failed other = true := by
        rw [Node.failed, failedValid_mark_other same] at marked
        exact marked
      obtain ⟨bad, member, invalid⟩ := inv.flagged other known before
      exact ⟨bad, member, failedValid_mark invalid⟩
  · intro other known stored zero
    rcases inv.queued other known stored zero with inQueue | waits | ⟨bad, member, invalid⟩
    · exact .inl inQueue
    · exact .inr (.inl waits)
    · exact .inr (.inr ⟨bad, member, failedValid_mark invalid⟩)

theorem settled_mark (settled : Settled P queue s) {pindex : Uint256}
    (off : pindex ∈ s.chainActive → pindex = P.hashGenesisBlock) : Settled P queue (mark s pindex) :=
  ⟨inv_mark settled.inv off, fun tip isTip other known clean linked better =>
    settled.covers tip isTip other known (clean_of_mark clean) linked better⟩

/-- `AcceptBlock` leaves it at the header, stores the block or marks it. -/
theorem acceptBlock_cases (block : Block) {Q : Node → Prop} (header : Q (s.acceptBlockHeader P block.header).2)
    (data : (s.acceptBlockHeader P block.header).1 = true →
      (s.acceptBlockHeader P block.header).2.haveData block.header.hash = false →
      (block.check = .valid → Q ((s.acceptBlockHeader P block.header).2.receivedBlockTransactions block.header.hash block.nTx)) ∧
        Q (mark (s.acceptBlockHeader P block.header).2 block.header.hash)) : Q (s.acceptBlock P block) := by
  unfold Node.acceptBlock
  generalize s.acceptBlockHeader P block.header = result at header data ⊢
  obtain ⟨accepted, after⟩ := result
  simp only at header data ⊢
  split_ifs with rejected stored unwanted
  · exact header
  · exact header
  · exact header
  · obtain ⟨received, marked⟩ := data (by simpa using rejected) (by simpa using stored)
    cases check : block.check with
    | valid => exact received check
    | invalid corruptionPossible =>
      simp only
      split_ifs
      · exact header
      · exact marked

theorem settled_acceptBlock (settled : Settled P [] s) (block : Block) : Settled P [] (s.acceptBlock P block) := by
  have header := settled_acceptBlockHeader settled block.header
  refine acceptBlock_cases block header fun accepted missing => ?_
  obtain ⟨known, unmarked⟩ := acceptBlockHeader_accepted settled accepted missing
  refine ⟨fun check => settled_receivedBlockTransactions header (block.nonempty check) known missing unmarked,
    settled_mark header fun member => ?_⟩
  exact absurd (unlinked_of_missing header.inv.links known missing) (header.inv.active.linked _ member)

end Longcoin.BlockTree

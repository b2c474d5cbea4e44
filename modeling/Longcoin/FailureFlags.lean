import Longcoin.MostWorkTip

/-! The failure flags under `InvalidateBlock` and `ReconsiderBlock`: a failed block has an invalid
ancestor as long as `ReconsiderBlock` is only asked to clear what it can clear. -/

namespace Longcoin.BlockTree
open Primitives Library List

variable {P : Params} {s s' : Node}

/-- What the loop of `InvalidateBlock` leaves: a shorter chain, and marks on the blocks that were on it. -/
structure Retracted (s : Node) (failedChild : Uint256 → Bool) (candidates chain : List Uint256) (pindex : Uint256)
    (disconnected : Bool) : Prop where
  suffix : chain <:+ s.chainActive
  nonempty : chain ≠ []
  candidates : candidates.Sublist s.setBlockIndexCandidates
  marks : ∀ other, failedChild other = true → s.failedChild other = true ∨
    ∃ below, other :: below <:+ s.chainActive ∧ pindex ∈ other :: below
  off : disconnected = true → pindex ∉ chain
  stuck : disconnected = false → chain = [pindex]

def retract (s : Node) (failedChild : Uint256 → Bool) (candidates chain : List Uint256) : Node :=
  { s with failedChild := failedChild, setBlockIndexCandidates := candidates, chainActive := chain }

theorem invalidateLoop_spec (blocks : Nat) (pindex : Uint256) : ∀ s : Node, s.chainActive ≠ [] →
    s.chainActive.length ≤ blocks → ∃ disconnected failedChild candidates chain,
      Node.invalidateLoop blocks s pindex = (disconnected, retract s failedChild candidates chain) ∧
        Retracted s failedChild candidates chain pindex disconnected := by
  induction blocks with
  | zero => exact fun s nonempty short => absurd (eq_nil_of_length_eq_zero (by omega)) nonempty
  | succ blocks ih =>
    intro s nonempty short
    rw [Node.invalidateLoop]
    by_cases active : pindex ∈ s.chainActive
    · rw [if_pos active]
      cases chain : s.chainActive with
      | nil => exact absurd chain nonempty
      | cons pindexWalk rest =>
        have marks {other : Uint256} (marked : Function.update s.failedChild pindexWalk true other = true) :
            s.failedChild other = true ∨ ∃ below, other :: below <:+ s.chainActive ∧ pindex ∈ other :: below := by
          by_cases same : other = pindexWalk
          · exact .inr ⟨rest, ⟨[], by rw [same, chain]; rfl⟩, by rw [same, ← chain]; exact active⟩
          · exact .inl ((Function.update_of_ne same _ _).symm.trans marked)
        have only (empty : rest = []) : s.chainActive = [pindex] := by
          rw [chain, empty, mem_singleton] at active
          rw [chain, empty, active]
        cases rest with
        | nil =>
          refine ⟨false, Function.update s.failedChild pindexWalk true, s.setBlockIndexCandidates.filter (· ≠ pindexWalk),
            s.chainActive, ?_, suffix_refl _, nonempty, filter_sublist, fun _ => marks, by simp,
            fun _ => only rfl⟩
          rw [retract, chain]
          rfl
        | cons second below =>
          rw [chain, length_cons] at short
          obtain ⟨disconnected, failedChild, candidates, after, result, retracted⟩ := ih
            { Node.eraseCandidate { s with failedChild := Function.update s.failedChild pindexWalk true } pindexWalk with
              chainActive := second :: below } (by simp) (Nat.le_of_succ_le_succ short)
          have inside : second :: below <:+ s.chainActive := chain ▸ suffix_cons _ _
          refine ⟨disconnected, failedChild, candidates, after, ?_, retracted.suffix.trans inside, retracted.nonempty,
            retracted.candidates.trans filter_sublist, ?_, retracted.off, retracted.stuck⟩
          · refine Eq.trans ?_ result
            rw [chain]
            rfl
          · intro other marked
            rcases retracted.marks other marked with before | ⟨tail, under, member⟩
            · exact marks before
            · exact .inr ⟨tail, under.trans inside, member⟩
    · rw [if_neg active]
      exact ⟨true, s.failedChild, s.setBlockIndexCandidates, s.chainActive, rfl, suffix_refl _, nonempty,
        Sublist.refl _, fun _ marked => .inl marked, fun _ => active, by simp⟩

variable {pindex : Uint256}

theorem inv_retract (inv : Inv P [] s) {failedChild : Uint256 → Bool} {candidates chain : List Uint256} {disconnected : Bool}
    (retracted : Retracted ((mark s pindex).eraseCandidate pindex) failedChild candidates chain pindex disconnected) :
    Inv P [] (retract (mark s pindex) failedChild candidates chain) := by
  obtain ⟨tip, tipKnown, -, active⟩ := tip_of_active inv.active
  have suffix : chain <:+ s.path tip := active ▸ retracted.suffix
  have invalid : (mark s pindex).failedValid pindex = true := Function.update_self _ _ _
  have inside {other : Uint256} (member : other ∈ chain) : other ∈ s.chainActive := retracted.suffix.subset member
  have isPath : ∃ newTip ∈ s.mapBlockIndex, chain = s.path newTip := by
    cases chain with
    | nil => exact absurd rfl retracted.nonempty
    | cons newTip below =>
      exact ⟨newTip, inv.shape.tree.known_of_mem tipKnown (suffix.subset mem_cons_self),
        inv.shape.tree.eq_path_of_suffix tipKnown suffix⟩
  refine ⟨{ inv.shape with }, { inv.links with }, ⟨isPath, ?_, ?_, ?_⟩, ?_, ?_, ?_⟩
  · exact fun other member => inv.active.linked other (inside member)
  · exact fun other member => inv.active.connects other (inside member)
  · intro other member bad
    by_cases same : other = pindex
    · cases disconnected with
      | true => exact absurd (same ▸ member) (retracted.off rfl)
      | false =>
        obtain ⟨newTip, newKnown, list⟩ := isPath
        have genesis := inv.shape.tree.root_mem newKnown
        change P.hashGenesisBlock ∈ s.path newTip at genesis
        rw [← list, retracted.stuck rfl, mem_singleton] at genesis
        exact same.trans genesis.symm
    · exact inv.active.clean other (inside member) ((failedValid_mark_other same).symm.trans bad)
  · intro other member
    exact inv.candidates other (mem_filter.mp (retracted.candidates.subset member)).1
  · intro other otherKnown marked
    by_cases same : other = pindex
    · exact ⟨pindex, same ▸ Node.mem_path_self s other, invalid⟩
    · have cases : s.failed other = true ∨ failedChild other = true := by
        change ((mark s pindex).failedValid other || failedChild other) = true at marked
        rw [failedValid_mark_other same, Bool.or_eq_true] at marked
        rcases marked with bad | child
        · exact .inl (by rw [Node.failed, bad, Bool.true_or])
        · exact .inr child
      have before (marked : s.failed other = true) :
          ∃ bad ∈ s.path other, (mark s pindex).failedValid bad = true := by
        obtain ⟨bad, member, badInvalid⟩ := inv.flagged other otherKnown marked
        exact ⟨bad, member, failedValid_mark badInvalid⟩
      rcases cases with marked | child
      · exact before marked
      · rcases retracted.marks other child with child | ⟨below, under, member⟩
        · refine before ?_
          have child : s.failedChild other = true := child
          rw [Node.failed, child, Bool.or_true]
        · have under : other :: below <:+ s.path tip := active ▸ under
          refine ⟨pindex, ?_, invalid⟩
          have list := inv.shape.tree.eq_path_of_suffix tipKnown under
          rw [list] at member
          exact member
  · intro other otherKnown stored zero
    rcases inv.queued other otherKnown stored zero with nothing | waits | ⟨bad, member, badInvalid⟩
    · exact .inl nothing
    · exact .inr (.inl waits)
    · exact .inr (.inr ⟨bad, member, failedValid_mark badInvalid⟩)

theorem isValidTransactions_of_clean (inv : Inv P [] s) (known : pindex ∈ s.mapBlockIndex) (clean : s.Clean pindex)
    (linked : s.nChainTx pindex ≠ 0) : s.isValidTransactions pindex = true := by
  have stored := (inv.links.linked pindex known linked).1
  have unmarked : s.failed pindex = false := by
    cases marked : s.failed pindex with
    | false => rfl
    | true =>
      obtain ⟨bad, member, invalid⟩ := inv.flagged pindex known marked
      cases (clean bad member).symm.trans invalid
  rw [Node.isValidTransactions, unmarked, (inv.links.stored pindex known stored).2]
  rfl

theorem inv_addCandidates (inv : Inv P [] s) {more : List Uint256}
    (linked : ∀ pindex ∈ more, pindex ∈ s.mapBlockIndex ∧ s.nChainTx pindex ≠ 0) :
    Inv P [] { s with setBlockIndexCandidates := s.setBlockIndexCandidates ++ more } := by
  refine ⟨{ inv.shape with }, { inv.links with },
    { inv.active with }, ?_, inv.flagged, inv.queued⟩
  intro pindex member
  rcases mem_append.mp member with before | new
  · exact inv.candidates pindex before
  · exact linked pindex new

/-- The blocks that pass a test become candidates as well. -/
def addCandidates (s : Node) (test : Uint256 → Bool) : Node :=
  { s with setBlockIndexCandidates := s.setBlockIndexCandidates ++ s.mapBlockIndex.filter test }

theorem settled_addCandidates (inv : Inv P [] s) {test : Uint256 → Bool}
    (same : test = fun other => s.isValidTransactions other && s.nChainTx other != 0 &&
      s.tip.all (fun tip => !s.workLess other tip) && other ∉ s.setBlockIndexCandidates) :
    Settled P [] (addCandidates s test) := by
  refine ⟨inv_addCandidates inv ?_, ?_⟩
  · intro other member
    obtain ⟨otherKnown, passes⟩ := mem_filter.mp member
    simp only [same, Bool.and_eq_true, bne_iff_ne] at passes
    exact ⟨otherKnown, passes.1.1.2⟩
  · intro tip isTip other otherKnown clean linked better
    have valid := isValidTransactions_of_clean inv otherKnown clean linked
    have isTip : s.tip = some tip := isTip
    have notWorse : s.workLess other tip = false := (Node.not_workLess_iff _ _ _).mpr better
    by_cases already : other ∈ s.setBlockIndexCandidates
    · exact mem_append_left _ already
    · refine mem_append_right _ (mem_filter.mpr ⟨otherKnown, ?_⟩)
      simp only [same, valid, isTip, Option.all_some, notWorse, Bool.not_false, Bool.true_and, Bool.and_true,
        Bool.and_eq_true, bne_iff_ne, decide_eq_true_eq]
      exact ⟨linked, already⟩

theorem settled_invalidateBlock (settled : Settled P [] s) (pindex : Uint256) : Settled P [] (s.invalidateBlock pindex) := by
  obtain ⟨inv, covers⟩ := settled
  obtain ⟨tip, -, isTip, -⟩ := tip_of_active inv.active
  have nonempty : s.chainActive ≠ [] := by
    intro empty
    rw [Node.tip, empty] at isTip
    simp at isTip
  obtain ⟨disconnected, failedChild, candidates, chain, result, retracted⟩ := invalidateLoop_spec s.chainActive.length
    pindex ((mark s pindex).eraseCandidate pindex) nonempty le_rfl
  have invAfter := inv_retract inv retracted
  have unfolded : s.invalidateBlock pindex = (fun result : Bool × Node => if !result.1 then result.2 else
      addCandidates result.2 fun other => result.2.isValidTransactions other && result.2.nChainTx other != 0 &&
        result.2.tip.all (fun tip => !result.2.workLess other tip) && other ∉ result.2.setBlockIndexCandidates)
      (Node.invalidateLoop s.chainActive.length ((mark s pindex).eraseCandidate pindex) pindex) := rfl
  rw [unfolded, result]
  have moved : retract ((mark s pindex).eraseCandidate pindex) failedChild candidates chain =
      retract (mark s pindex) failedChild candidates chain := rfl
  rw [moved]
  cases disconnected with
  | false =>
    refine ⟨invAfter, fun newTip isNew other otherKnown clean _ _ => ?_⟩
    -- The loop stopped at the genesis block, which is marked.
    have genesis := genesis_active invAfter
    change P.hashGenesisBlock ∈ chain at genesis
    rw [retracted.stuck rfl, mem_singleton] at genesis
    have unmarked := genesis_unmarked invAfter.shape otherKnown clean
    rw [genesis] at unmarked
    have invalid : (mark s pindex).failedValid pindex = true := Function.update_self _ _ _
    cases invalid.symm.trans unmarked
  | true => exact settled_addCandidates invAfter rfl

/-- The descendants and the ancestors of a block, and the block itself: where `ReconsiderBlock` clears flags. -/
def Branch (s : Node) (pindex other : Uint256) : Prop := s.isDescendant pindex other = true ∨ other ∈ s.path pindex

/-- What has to hold of the node so that clearing one branch leaves nothing behind. -/
structure Reconsiderable (s : Node) (pindex : Uint256) : Prop where
  /-- A failed block off the branch has an invalid ancestor off the branch. -/
  flags : ∀ other ∈ s.mapBlockIndex, s.failed other = true → ¬Branch s pindex other →
    ∃ bad ∈ s.path other, s.failedValid bad = true ∧ ¬Branch s pindex bad
  /-- A stored block that is not linked waits for its parent, or has an invalid ancestor off the branch. -/
  waiting : ∀ other ∈ s.mapBlockIndex, s.haveData other = true → s.nChainTx other = 0 →
    (∃ parent, (parent, other) ∈ s.mapBlocksUnlinked) ∨
      ∃ bad ∈ s.ancestors other, s.failedValid bad = true ∧ ¬Branch s pindex bad
  /-- A linked block as good as the tip that has invalid ancestors, all on the branch, is a candidate
  already or a failed descendant of the block that is better than the tip. -/
  candidates : ∀ other ∈ s.mapBlockIndex, s.nChainTx other ≠ 0 → (∃ bad ∈ s.path other, s.failedValid bad = true) →
    (∀ bad ∈ s.path other, s.failedValid bad = true → Branch s pindex bad) →
    (∀ tip, s.tip = some tip → s.workLess other tip = false) →
    other ∈ s.setBlockIndexCandidates ∨
      s.isDescendant pindex other = true ∧ s.failed other = true ∧ ∀ tip, s.tip = some tip → s.workLess tip other = true

variable {other : Uint256}

theorem not_isValidTransactions (marked : s.failed other = true) : s.isValidTransactions other = false := by
  rw [Node.isValidTransactions, marked]
  rfl

theorem failedValid_reconsiderBlock (known : other ∈ s.mapBlockIndex) :
    (s.reconsiderBlock pindex).failedValid other = true ↔ s.failedValid other = true ∧ ¬Branch s pindex other := by
  simp only [Node.reconsiderBlock, Branch, Bool.and_eq_true, Bool.not_eq_true', decide_eq_true_eq, not_or]
  constructor
  · rintro ⟨⟨invalid, kept⟩, above⟩
    refine ⟨invalid, ?_, above⟩
    have marked : s.failed other = true := by rw [Node.failed, invalid, Bool.true_or]
    simpa [known, not_isValidTransactions marked] using kept
  · rintro ⟨invalid, below, above⟩
    exact ⟨⟨invalid, by simp [below]⟩, above⟩

theorem failed_reconsiderBlock (known : other ∈ s.mapBlockIndex) :
    (s.reconsiderBlock pindex).failed other = true ↔ s.failed other = true ∧ ¬Branch s pindex other := by
  constructor
  · intro marked
    have before : s.failed other = true := by
      simp only [Node.failed, Node.reconsiderBlock, Bool.or_eq_true, Bool.and_eq_true] at marked ⊢
      exact marked.imp (fun left => left.1.1) (fun right => right.1.1)
    refine ⟨before, ?_⟩
    simp only [Node.failed, Node.reconsiderBlock, Branch, Bool.or_eq_true, Bool.and_eq_true, Bool.not_eq_true',
      decide_eq_true_eq, not_or] at marked ⊢
    rcases marked with ⟨⟨-, kept⟩, above⟩ | ⟨⟨-, kept⟩, above⟩
    · exact ⟨by simpa [known, not_isValidTransactions before] using kept, above⟩
    · exact ⟨by simpa [known, not_isValidTransactions before] using kept, above⟩
  · rintro ⟨marked, off⟩
    simp only [Branch, not_or] at off
    simp only [Node.failed, Node.reconsiderBlock, Bool.or_eq_true] at marked ⊢
    simp only [off.1, off.2, Bool.and_false, Bool.not_false, Bool.and_true, not_false_eq_true, decide_true]
    exact marked

theorem mem_candidates_reconsiderBlock :
    other ∈ (s.reconsiderBlock pindex).setBlockIndexCandidates ↔ other ∈ s.setBlockIndexCandidates ∨
      other ∈ s.mapBlockIndex ∧ s.isValidTransactions other = false ∧ s.isDescendant pindex other = true ∧
        s.validTransactions other = true ∧ s.nChainTx other ≠ 0 ∧ ∃ tip, s.tip = some tip ∧ s.workLess tip other = true := by
  have someTip : (s.tip.any fun tip => s.workLess tip other) = true ↔ ∃ tip, s.tip = some tip ∧ s.workLess tip other = true := by
    cases s.tip <;> simp
  simp only [Node.reconsiderBlock, mem_append, mem_filter, Bool.and_eq_true, decide_eq_true_eq, bne_iff_ne,
    Bool.not_eq_true', someTip]
  constructor
  · rintro (before | ⟨known, ⟨⟨⟨⟨⟨-, invalid⟩, below⟩, stored⟩, linked⟩, better⟩, -⟩)
    · exact .inl before
    · exact .inr ⟨known, invalid, below, stored, linked, better⟩
  · rintro (before | ⟨known, invalid, below, stored, linked, better⟩)
    · exact .inl before
    · by_cases already : other ∈ s.setBlockIndexCandidates
      · exact .inl already
      · exact .inr ⟨known, ⟨⟨⟨⟨⟨known, invalid⟩, below⟩, stored⟩, linked⟩, better⟩, already⟩

theorem settled_reconsiderBlock (settled : Settled P [] s) (condition : Reconsiderable s pindex) :
    Settled P [] (s.reconsiderBlock pindex) := by
  obtain ⟨inv, covers⟩ := settled
  have cleared {other : Uint256} (known : other ∈ s.mapBlockIndex) (invalid : (s.reconsiderBlock pindex).failedValid other = true) :=
    (failedValid_reconsiderBlock known).mp invalid
  have above {other bad : Uint256} (known : other ∈ s.mapBlockIndex) (member : bad ∈ s.path other) :
      bad ∈ s.mapBlockIndex := inv.shape.tree.known_of_mem known member
  refine ⟨⟨{ inv.shape with }, { inv.links with },
    ⟨inv.active.chain, inv.active.linked, inv.active.connects, ?_⟩, ?_, ?_, ?_⟩, ?_⟩
  · intro other member invalid
    obtain ⟨tip, tipKnown, -, chain⟩ := tip_of_active inv.active
    exact inv.active.clean other member (cleared (above tipKnown (chain ▸ member)) invalid).1
  · intro other member
    rcases mem_candidates_reconsiderBlock.mp member with before | ⟨known, -, -, -, linked, -⟩
    · exact inv.candidates other before
    · exact ⟨known, linked⟩
  · intro other inIndex marked
    have known : other ∈ s.mapBlockIndex := inIndex
    obtain ⟨before, off⟩ := (failed_reconsiderBlock known).mp marked
    obtain ⟨bad, member, invalid, badOff⟩ := condition.flags other known before off
    exact ⟨bad, member, (failedValid_reconsiderBlock (above known member)).mpr ⟨invalid, badOff⟩⟩
  · intro other known stored zero
    rcases condition.waiting other known stored zero with waits | ⟨bad, member, invalid, off⟩
    · exact .inr (.inl waits)
    · exact .inr (.inr ⟨bad, member,
        (failedValid_reconsiderBlock (above known (mem_cons_of_mem _ member))).mpr ⟨invalid, off⟩⟩)
  · intro tip isTip other known clean linked better
    have isTip : s.tip = some tip := isTip
    have better : s.key tip ≤ s.key other := better
    rw [mem_candidates_reconsiderBlock]
    by_cases before : s.Clean other
    · exact .inl (covers tip isTip other known before linked better)
    · have bad : ∃ bad ∈ s.path other, s.failedValid bad = true := by
        by_contra nothing
        refine before (fun bad member => ?_)
        cases invalid : s.failedValid bad with
        | false => rfl
        | true => exact absurd ⟨bad, member, invalid⟩ nothing
      have onBranch : ∀ bad ∈ s.path other, s.failedValid bad = true → Branch s pindex bad := by
        intro bad member invalid
        by_contra off
        have after := (failedValid_reconsiderBlock (above known member)).mpr ⟨invalid, off⟩
        cases after.symm.trans (clean bad member)
      have notWorse : ∀ other', s.tip = some other' → s.workLess other other' = false := by
        intro other' isOther
        rw [← Option.some.inj (isTip.symm.trans isOther)]
        exact (Node.not_workLess_iff _ _ _).mpr better
      rcases condition.candidates other known linked bad onBranch notWorse with already | ⟨below, marked, more⟩
      · exact .inl already
      · have stored := (inv.links.linked other known linked).1
        exact .inr ⟨known, not_isValidTransactions marked, below, (inv.links.stored other known stored).2, linked, tip, isTip,
          more tip isTip⟩

/-- The states that blocks, `ActivateBestChain`, `InvalidateBlock` and `ReconsiderBlock` lead to, where
`allowed` says of a state which blocks may be reconsidered in it. -/
inductive Managed (allowed : Node → Uint256 → Prop) (P : Params) (blockProof : Nat) : Node → Prop where
  | start : Managed allowed P blockProof (Node.initBlockIndex P blockProof)
  | block {s : Node} (block : Block) : Managed allowed P blockProof s → Managed allowed P blockProof (s.acceptBlock P block)
  | activate {s s' : Node} (fuel : Nat) : Managed allowed P blockProof s → Node.activateBestChain P fuel s = .ok s' →
      Managed allowed P blockProof s'
  | invalidate {s : Node} (pindex : Uint256) : Managed allowed P blockProof s → pindex ∈ s.mapBlockIndex →
      Managed allowed P blockProof (s.invalidateBlock pindex)
  | reconsider {s : Node} (pindex : Uint256) : Managed allowed P blockProof s → pindex ∈ s.mapBlockIndex →
      allowed s pindex → Managed allowed P blockProof (s.reconsiderBlock pindex)

theorem settled_of_managed {blockProof : Nat} (managed : Managed Reconsiderable P blockProof s) : Settled P [] s := by
  induction managed with
  | start => exact settled_init P blockProof
  | block block _ ih => exact settled_acceptBlock ih block
  | activate fuel _ result ih => exact (best_of_ok ih result).settled
  | invalidate pindex _ _ ih => exact settled_invalidateBlock ih pindex
  | reconsider pindex _ _ condition ih => exact settled_reconsiderBlock ih condition

/-- A failed block has an invalid block on its path, as `CheckBlockIndex` asserts. -/
def FlagsConsistent (s : Node) : Prop :=
  ∀ pindex ∈ s.mapBlockIndex, s.failed pindex = true → ∃ other ∈ s.path pindex, s.failedValid other = true

/-- A block without an invalid ancestor that is stored with all its ancestors and sorts as good as the tip is a candidate. -/
def CandidatesComplete (s : Node) : Prop :=
  ∀ pindex ∈ s.mapBlockIndex, (∀ other ∈ s.path pindex, s.failedValid other = false) →
    (∀ other ∈ s.path pindex, s.haveData other = true) →
    (∀ tip, s.tip = some tip → s.workLess pindex tip = false) → pindex ∈ s.setBlockIndexCandidates

theorem candidatesComplete (settled : Settled P [] s) : CandidatesComplete s := by
  intro pindex known clean stored better
  obtain ⟨tip, -, isTip, -⟩ := tip_of_active settled.inv.active
  exact settled.covers tip isTip pindex known clean (linked_of_stored settled.inv known clean stored)
    ((Node.not_workLess_iff _ _ _).mp (better tip isTip))

theorem failure_flags {blockProof : Nat} (managed : Managed Reconsiderable P blockProof s) :
    FlagsConsistent s ∧ ∀ pindex ∈ s.mapBlockIndex, Reconsiderable s pindex →
      CandidatesComplete (s.reconsiderBlock pindex) := by
  have settled := settled_of_managed managed
  exact ⟨settled.inv.flagged, fun pindex _ condition => candidatesComplete (settled_reconsiderBlock settled condition)⟩

/-! Blocks 2 and 4 on block 1; block 1 is invalidated, and then either it or block 2 reconsidered. -/

def chosen (s : Node) : Node := (Node.activateBestChain sampleParams 20 s).toOption.getD s

theorem activate_chosen (returns : (Node.activateBestChain sampleParams 20 s).toOption.isSome = true) :
    Node.activateBestChain sampleParams 20 s = .ok (chosen s) := by
  rw [chosen]
  cases result : Node.activateBestChain sampleParams 20 s with
  | ok after => rfl
  | error stop =>
    rw [result] at returns
    exact absurd returns (by simp [Except.toOption])

def forked : Node :=
  (((Node.initBlockIndex sampleParams 2).acceptBlock sampleParams (sampleBlock 1 0)).acceptBlock sampleParams
    (sampleBlock 2 1)).acceptBlock sampleParams (sampleBlock 4 1)

def invalidated : Node := (chosen forked).invalidateBlock 1

theorem managed_invalidated (allowed : Node → Uint256 → Prop) : Managed allowed sampleParams 2 invalidated :=
  .invalidate 1 (.activate 20 (.block (sampleBlock 4 1) (.block (sampleBlock 2 1) (.block (sampleBlock 1 0) .start)))
    (activate_chosen (by decide +kernel))) (by decide +kernel)

theorem mem_invalidated (known : other ∈ invalidated.mapBlockIndex) : other = 4 ∨ other = 2 ∨ other = 1 ∨ other = 0 := by
  have list : invalidated.mapBlockIndex = [4, 2, 1, 0] := by decide +kernel
  simpa only [list, mem_cons, not_mem_nil, or_false] using known

theorem reconsiderable_invalidated : Reconsiderable invalidated 1 := by
  have tip : invalidated.tip = some 0 := by decide +kernel
  have better {other : Uint256} (more : invalidated.workLess 0 other = true) :
      ∀ other', invalidated.tip = some other' → invalidated.workLess other' other = true := by
    intro other' isTip
    rw [← Option.some.inj (tip.symm.trans isTip)]
    exact more
  refine ⟨fun other known marked outside => ?_, fun other known _ zero => ?_, fun other known _ bad _ _ => ?_⟩
  · refine absurd ?_ outside
    rcases mem_invalidated known with rfl | rfl | rfl | rfl
    · exact .inl (by decide +kernel)
    · exact .inl (by decide +kernel)
    · exact .inl (by decide +kernel)
    · exact .inr (by decide +kernel)
  · refine absurd zero ?_
    rcases mem_invalidated known with rfl | rfl | rfl | rfl
    all_goals decide +kernel
  · rcases mem_invalidated known with rfl | rfl | rfl | rfl
    · exact .inl (by decide +kernel)
    · exact .inr ⟨by decide +kernel, by decide +kernel, better (by decide +kernel)⟩
    · exact .inr ⟨by decide +kernel, by decide +kernel, better (by decide +kernel)⟩
    · exact .inl (by decide +kernel)

theorem failure_flags_sample : FlagsConsistent invalidated ∧ CandidatesComplete (invalidated.reconsiderBlock 1) ∧
    (2 : Uint256) ∈ (invalidated.reconsiderBlock 1).setBlockIndexCandidates := by
  have both := failure_flags (managed_invalidated Reconsiderable)
  exact ⟨both.1, both.2 1 (by decide +kernel) reconsiderable_invalidated, by decide +kernel⟩

/-- `FindMostWorkChain` marks block 4 as the child of an invalid block, and clearing block 2 and its
ancestors leaves that mark behind. -/
theorem sibling_stays_failed : ¬∀ (P : Params) (blockProof : Nat) (s : Node),
    Managed (fun _ _ => True) P blockProof s → FlagsConsistent s := by
  intro claim
  have managed : Managed (fun _ _ => True) sampleParams 2 ((chosen invalidated).reconsiderBlock 2) :=
    .reconsider 2 (.activate 20 (managed_invalidated _) (activate_chosen (by decide +kernel))) (by decide +kernel) trivial
  obtain ⟨bad, member, invalid⟩ := claim sampleParams 2 _ managed 4 (by decide +kernel) (by decide +kernel)
  have list : ((chosen invalidated).reconsiderBlock 2).path 4 = [4, 1, 0] := by decide +kernel
  rw [list] at member
  simp only [mem_cons, not_mem_nil, or_false] at member
  refine absurd invalid (Bool.eq_false_iff.mp ?_)
  rcases member with rfl | rfl | rfl
  all_goals decide +kernel

end Longcoin.BlockTree

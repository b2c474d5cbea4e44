import Longcoin.BlockTreeInvariant

/-! `ActivateBestChain` comes to an end, keeps the invariant of the block index, and leaves no known
block with its data ahead of the tip unless something on its path is invalid. -/

namespace Longcoin.BlockTree
open Primitives Library Ancestry List

variable {P : Params} {s s' : Node}

/-- What choosing a chain leaves as it is, and what it only adds or takes away. -/
structure Later (P : Params) (s s' : Node) : Prop where
  mapBlockIndex : s'.mapBlockIndex = s.mapBlockIndex
  address : s'.address = s.address
  ancestors : s'.ancestors = s.ancestors
  nChainWork : s'.nChainWork = s.nChainWork
  nSequenceId : s'.nSequenceId = s.nSequenceId
  nChainTx : s'.nChainTx = s.nChainTx
  haveData : s'.haveData = s.haveData
  marks : ∀ pindex, s.failedValid pindex = true → s'.failedValid pindex = true
  marked : ∀ pindex, s'.failedValid pindex = true → s.failedValid pindex = true ∨ P.connects (s.path pindex) = false
  candidates : s'.setBlockIndexCandidates.Sublist s.setBlockIndexCandidates

namespace Later

theorem refl (P : Params) (s : Node) : Later P s s :=
  ⟨rfl, rfl, rfl, rfl, rfl, rfl, rfl, fun _ invalid => invalid, fun _ invalid => .inl invalid, Sublist.refl _⟩

theorem path (later : Later P s s') (pindex : Uint256) : s'.path pindex = s.path pindex := by
  rw [Node.path, Node.path, later.ancestors]

theorem trans {s'' : Node} (first : Later P s s') (second : Later P s' s'') : Later P s s'' := by
  refine ⟨second.mapBlockIndex.trans first.mapBlockIndex, second.address.trans first.address, second.ancestors.trans first.ancestors,
    second.nChainWork.trans first.nChainWork, second.nSequenceId.trans first.nSequenceId,
    second.nChainTx.trans first.nChainTx, second.haveData.trans first.haveData,
    fun pindex invalid => second.marks pindex (first.marks pindex invalid), ?_,
    second.candidates.trans first.candidates⟩
  intro pindex invalid
  rcases second.marked pindex invalid with before | fails
  · exact first.marked pindex before
  · exact .inr (first.path pindex ▸ fails)

theorem key (later : Later P s s') (pindex : Uint256) : s'.key pindex = s.key pindex := by
  rw [Node.key, Node.key, later.nChainWork, later.nSequenceId, later.address]

theorem clean (later : Later P s s') {pindex : Uint256} (clean : s'.Clean pindex) : s.Clean pindex := by
  intro other member
  cases invalid : s.failedValid other with
  | false => rfl
  | true =>
    have after := clean other (later.path pindex ▸ member)
    rw [later.marks other invalid] at after
    exact after

end Later

/-- The candidates from `floor` on are all there, and the tip is not above it. -/
structure Floor (P : Params) (s : Node) (floor : Uint256) : Prop where
  known : floor ∈ s.mapBlockIndex
  clean : s.Clean floor
  linked : s.nChainTx floor ≠ 0
  connects : ∀ pindex ∈ s.path floor, P.connects (s.path pindex) = true
  tip : ∀ tip, s.tip = some tip → s.key tip ≤ s.key floor
  covers : s.Covers floor

theorem Floor.candidate {floor : Uint256} (at' : Floor P s floor) : floor ∈ s.setBlockIndexCandidates :=
  at'.covers floor at'.known at'.clean at'.linked le_rfl

/-- There is a floor, unless the genesis block was marked and nothing is clean. -/
def Kept (P : Params) (s : Node) : Prop := s.failedValid P.hashGenesisBlock = true ∨ ∃ floor, Floor P s floor

theorem genesis_unmarked (shape : Shape P s) {pindex : Uint256} (known : pindex ∈ s.mapBlockIndex)
    (clean : s.Clean pindex) : s.failedValid P.hashGenesisBlock = false := clean _ (shape.tree.root_mem known)

theorem clean_of_active (inv : Inv P [] s) (unmarked : s.failedValid P.hashGenesisBlock = false) {pindex : Uint256}
    (member : pindex ∈ s.chainActive) : s.Clean pindex := by
  obtain ⟨tip, tipKnown, -, chain⟩ := tip_of_active inv.active
  rw [chain] at member
  intro other above
  have onChain : other ∈ s.chainActive := chain ▸ inv.shape.tree.mem_trans tipKnown member above
  cases invalid : s.failedValid other with
  | false => rfl
  | true =>
    rw [← inv.active.clean other onChain invalid, invalid] at unmarked
    exact unmarked

theorem kept_of_settled (settled : Settled P [] s) : Kept P s := by
  obtain ⟨inv, covers⟩ := settled
  cases unmarked : s.failedValid P.hashGenesisBlock with
  | true => exact .inl unmarked
  | false =>
    obtain ⟨tip, tipKnown, isTip, chain⟩ := tip_of_active inv.active
    have onChain : tip ∈ s.chainActive := chain ▸ Node.mem_path_self s tip
    refine .inr ⟨tip, tipKnown, clean_of_active inv unmarked onChain, inv.active.linked tip onChain, ?_, ?_, covers tip isTip⟩
    · rw [← chain]
      exact inv.active.connects
    · intro other isOther
      rw [Option.some.inj (isOther.symm.trans isTip)]

section

variable (inv : Inv P [] s) {pindex : Uint256} (known : pindex ∈ s.mapBlockIndex) (linked : s.nChainTx pindex ≠ 0)
include inv known linked

theorem linked_path : ∀ other ∈ s.path pindex, s.nChainTx other ≠ 0 := by
  induction pindex, known using inv.shape.tree.induct with
  | base =>
    intro other member
    rw [Node.path, Ancestry.path, inv.shape.tree.root_ancestors, mem_singleton] at member
    exact member ▸ linked
  | step pindex parent known parentKnown list ih =>
    intro other member
    have isParent : s.pprev pindex = some parent := by rw [Node.pprev, list]; rfl
    rcases mem_cons.mp member with rfl | above
    · exact linked
    · rw [list] at above
      exact ih ((inv.links.linked pindex known linked).2 parent isParent) other above

theorem haveData_path {other : Uint256} (member : other ∈ s.path pindex) : s.haveData other = true :=
  (inv.links.linked other (inv.shape.tree.known_of_mem known member) (linked_path inv known linked other member)).1

theorem walkable_path {blocks : List Uint256} (inside : ∀ other ∈ blocks, other ∈ s.path pindex) :
    blocks.all s.walkable = true := by
  rw [all_eq_true]
  intro other member
  rw [Node.walkable, Bool.or_eq_true, bne_iff_ne]
  exact .inl (linked_path inv known linked other (inside other member))

end

/-- Failed candidates are taken out; the clean ones stay. -/
structure Cleared (P : Params) (s s' : Node) : Prop where
  later : Later P s s'
  inv : Inv P [] s'
  chainActive : s'.chainActive = s.chainActive
  failedValid : s'.failedValid = s.failedValid
  keeps : ∀ pindex ∈ s.setBlockIndexCandidates, s.Clean pindex → pindex ∈ s'.setBlockIndexCandidates

namespace Cleared

theorem refl (inv : Inv P [] s) : Cleared P s s := ⟨Later.refl P s, inv, rfl, rfl, fun _ member _ => member⟩

theorem clean (cleared : Cleared P s s') {pindex : Uint256} (clean : s.Clean pindex) : s'.Clean pindex := by
  intro other member
  rw [cleared.later.path] at member
  rw [cleared.failedValid]
  exact clean other member

theorem trans {s'' : Node} (first : Cleared P s s') (second : Cleared P s' s'') : Cleared P s s'' :=
  ⟨first.later.trans second.later, second.inv, second.chainActive.trans first.chainActive,
    second.failedValid.trans first.failedValid,
    fun pindex member clean => second.keeps pindex (first.keeps pindex member clean) (first.clean clean)⟩

theorem kept (cleared : Cleared P s s') (kept : Kept P s) : Kept P s' := by
  rcases kept with genesis | ⟨floor, known, clean, linked, connects, tip, covers⟩
  · exact .inl (cleared.failedValid ▸ genesis)
  · have later := cleared.later
    refine .inr ⟨floor, later.mapBlockIndex ▸ known, cleared.clean clean, later.nChainTx ▸ linked, ?_, ?_, ?_⟩
    · intro pindex member
      rw [later.path] at member ⊢
      exact connects pindex member
    · intro other isTip
      rw [Node.tip, cleared.chainActive] at isTip
      rw [later.key, later.key]
      exact tip other isTip
    · intro pindex pindexKnown pindexClean pindexLinked above
      rw [later.mapBlockIndex] at pindexKnown
      rw [later.nChainTx] at pindexLinked
      rw [later.key, later.key] at above
      have before := later.clean pindexClean
      exact cleared.keeps pindex (covers pindex pindexKnown before pindexLinked above) before

end Cleared

theorem cleared_removeChain (inv : Inv P [] s) {above : List Uint256} {pindexTest : Uint256}
    (known : pindexTest ∈ s.mapBlockIndex) (marked : s.failed pindexTest = true)
    (after : ∀ pindex ∈ above, pindexTest ∈ s.path pindex ∧ pindex ∈ s.mapBlockIndex) :
    Cleared P s (s.removeChain above pindexTest) := by
  obtain ⟨bad, badMember, invalid⟩ := inv.flagged pindexTest known marked
  have onPath {pindex : Uint256} (member : pindex ∈ pindexTest :: above) : bad ∈ s.path pindex := by
    rcases mem_cons.mp member with rfl | inside
    · exact badMember
    · obtain ⟨above, pindexKnown⟩ := after pindex inside
      exact inv.shape.tree.mem_trans pindexKnown above badMember
  have unlinked : (s.removeChain above pindexTest).mapBlocksUnlinked = s.mapBlocksUnlinked := if_pos marked
  have links := inv.links
  refine ⟨⟨rfl, rfl, rfl, rfl, rfl, rfl, rfl, fun _ invalid => invalid, fun _ invalid => .inl invalid, filter_sublist⟩,
    ⟨{ inv.shape with }, ⟨links.linked, links.stored, ?_, ?_, links.ready, links.queueOnce, ?_⟩,
      { inv.active with }, ?_, ?_, ?_⟩, rfl, rfl, ?_⟩
  · rw [unlinked]
    exact links.waiting
  · rw [unlinked]
    exact links.once
  · rw [unlinked]
    exact links.apart
  · intro pindex member
    exact inv.candidates pindex (mem_filter.mp member).1
  · intro pindex pindexKnown nowMarked
    by_cases inside : pindex ∈ above
    · exact ⟨bad, onPath (mem_cons_of_mem _ inside), invalid⟩
    · have before : s.failed pindex = true := by
        simpa [Node.failed, Node.removeChain, inside] using nowMarked
      exact inv.flagged pindex pindexKnown before
  · rw [unlinked]
    exact inv.queued
  · intro pindex member clean
    refine mem_filter.mpr ⟨member, decide_eq_true (fun inside => ?_)⟩
    rw [clean bad (onPath inside)] at invalid
    cases invalid

theorem head_untested {pindexNew : Uint256} (nonempty : s.untested pindexNew ≠ []) :
    (s.untested pindexNew).head? = some pindexNew := by
  rw [Node.untested, Node.path, Ancestry.path, takeWhile_cons] at nonempty ⊢
  split_ifs at nonempty ⊢
  · rfl
  · exact absurd rfl nonempty

/-- What `FindMostWorkChain` returns: the best candidate, with nothing unusable down to the active chain. -/
structure Chosen (P : Params) (s s' : Node) (found : Option Uint256) : Prop where
  cleared : Cleared P s s'
  nothing : found = none → s'.setBlockIndexCandidates = []
  best : ∀ pindexMostWork, found = some pindexMostWork → pindexMostWork ∈ s'.setBlockIndexCandidates ∧
    (∀ other ∈ s'.setBlockIndexCandidates, s'.key other ≤ s'.key pindexMostWork) ∧
    ∀ pindex ∈ s'.untested pindexMostWork, s'.usable pindex = true

/-- A turn that finds an unusable block takes out the candidate, with the blocks above that block. -/
structure Removed (P : Params) (s : Node) (above : List Uint256) (pindexTest : Uint256) : Prop where
  cleared : Cleared P s (s.removeChain above pindexTest)
  shorter : (s.removeChain above pindexTest).setBlockIndexCandidates.length < s.setBlockIndexCandidates.length
  walks : (above ++ [pindexTest]).all s.walkable = true

theorem removed_of_unusable (inv : Inv P [] s) {pindexNew pindexTest : Uint256} {below : List Uint256}
    (member : pindexNew ∈ s.setBlockIndexCandidates) (rest : (s.untested pindexNew).dropWhile s.usable = pindexTest :: below) :
    Removed P s ((s.untested pindexNew).takeWhile s.usable) pindexTest := by
  obtain ⟨known, linked⟩ := inv.candidates pindexNew member
  have inPath {pindex : Uint256} (untested : pindex ∈ s.untested pindexNew) : pindex ∈ s.path pindexNew :=
    ( takeWhile_prefix _).subset untested
  have split : (s.untested pindexNew).takeWhile s.usable ++ pindexTest :: below = s.untested pindexNew := by
    rw [← rest]
    exact takeWhile_append_dropWhile
  have testInside : pindexTest ∈ s.untested pindexNew := split ▸ mem_append_right _ mem_cons_self
  have unusable : s.usable pindexTest = false := by
    have head := head?_dropWhile_not s.usable (s.untested pindexNew)
    simpa only [rest, head?_cons, Bool.not_eq_true'] using head
  have marked : s.failed pindexTest = true := by
    rw [Node.usable, haveData_path inv known linked (inPath testInside), Bool.and_true, Bool.not_eq_eq_eq_not,
      Bool.not_false] at unusable
    exact unusable
  have aboveTest {pindex : Uint256} (inside : pindex ∈ (s.untested pindexNew).takeWhile s.usable) :
      pindexTest ∈ s.path pindex ∧ pindex ∈ s.mapBlockIndex := by
    have onPath := inPath (( takeWhile_prefix _).subset inside)
    refine ⟨?_, inv.shape.tree.known_of_mem known onPath⟩
    have whole : s.path pindexNew = (s.untested pindexNew).takeWhile s.usable ++ pindexTest ::
        (below ++ (s.path pindexNew).dropWhile (fun pindex => decide (pindex ∉ s.chainActive))) := by
      rw [← cons_append, ← append_assoc, split]
      exact takeWhile_append_dropWhile.symm
    exact inv.shape.tree.mem_path_of_before known whole inside
  refine ⟨cleared_removeChain inv (inv.shape.tree.known_of_mem known (inPath testInside)) marked fun pindex inside => aboveTest inside, ?_, ?_⟩
  · refine length_filter_lt_length_iff_exists.mpr ⟨pindexNew, member, ?_⟩
    rw [decide_eq_true_eq, not_not]
    have head := head_untested (ne_nil_of_mem testInside)
    rw [← split] at head
    cases above : (s.untested pindexNew).takeWhile s.usable with
    | nil =>
      rw [above, nil_append, head?_cons, Option.some.injEq] at head
      exact head ▸ mem_cons_self
    | cons first others =>
      rw [above, cons_append, head?_cons, Option.some.injEq] at head
      exact head ▸ mem_cons_of_mem _ mem_cons_self
  · refine walkable_path inv known linked (fun pindex inside => inPath ?_)
    rcases mem_append.mp inside with above | here
    · exact ( takeWhile_prefix _).subset above
    · exact mem_singleton.mp here ▸ testInside

theorem findMostWorkChain_spec (fuel : Nat) : ∀ s : Node, Inv P [] s →
    (∃ s' found, s.findMostWorkChain fuel = .ok (s', found) ∧ Chosen P s s' found) ∨
      s.findMostWorkChain fuel = .error .outOfFuel ∧ fuel ≤ s.setBlockIndexCandidates.length := by
  induction fuel with
  | zero => exact fun s _ => .inr ⟨rfl, Nat.zero_le _⟩
  | succ fuel ih =>
    intro s inv
    rw [Node.findMostWorkChain]
    cases best : s.bestCandidate with
    | none =>
      exact .inl ⟨s, none, rfl, Cleared.refl inv, fun _ => Node.bestCandidate_none best, fun _ absurd' => by simp at absurd'⟩
    | some pindexNew =>
      dsimp only
      obtain ⟨member, maximal⟩ := Node.bestCandidate_some best
      obtain ⟨known, linked⟩ := inv.candidates pindexNew member
      cases rest : (s.untested pindexNew).dropWhile s.usable with
      | nil =>
        have split : (s.untested pindexNew).takeWhile s.usable ++ (s.untested pindexNew).dropWhile s.usable =
            s.untested pindexNew := takeWhile_append_dropWhile
        rw [rest, append_nil] at split
        have inPath {pindex : Uint256} (untested : pindex ∈ s.untested pindexNew) : pindex ∈ s.path pindexNew :=
          ( takeWhile_prefix _).subset untested
        refine .inl ⟨s, some pindexNew, ?_, Cleared.refl inv, fun absurd' => by simp at absurd', ?_⟩
        · refine if_pos (walkable_path inv known linked (fun pindex inside => inPath ?_))
          rw [split] at inside
          exact inside
        · intro pindexMostWork same
          rw [Option.some.injEq] at same
          subst same
          refine ⟨member, maximal, fun pindex inside => ?_⟩
          rw [← split] at inside
          exact mem_takeWhile_imp inside
      | cons pindexTest below =>
        obtain ⟨cleared, shorter, walks⟩ := removed_of_unusable inv member rest
        have next : (if ((s.untested pindexNew).takeWhile s.usable ++ [pindexTest]).all s.walkable = true then
            Node.findMostWorkChain fuel (s.removeChain ((s.untested pindexNew).takeWhile s.usable) pindexTest)
            else .error .assertion) =
            Node.findMostWorkChain fuel (s.removeChain ((s.untested pindexNew).takeWhile s.usable) pindexTest) := if_pos walks
        rcases ih _ cleared.inv with ⟨after, found, result, chosen⟩ | ⟨result, many⟩
        · refine .inl ⟨after, found, next.trans result, cleared.trans chosen.cleared, chosen.nothing, chosen.best⟩
        · refine .inr ⟨next.trans result, ?_⟩
          omega

theorem inv_chainActive (inv : Inv P [] s) {pindex : Uint256} (known : pindex ∈ s.mapBlockIndex)
    (linked : s.nChainTx pindex ≠ 0) (connects : ∀ other ∈ s.path pindex, P.connects (s.path other) = true)
    (clean : ∀ other ∈ s.path pindex, s.failedValid other = true → other = P.hashGenesisBlock) :
    Inv P [] { s with chainActive := s.path pindex } :=
  ⟨{ inv.shape with }, { inv.links with },
    ⟨⟨pindex, known, rfl⟩, linked_path inv known linked, connects, clean⟩, inv.candidates, inv.flagged, inv.queued⟩

theorem key_le_of_mem_path (shape : Shape P s) {pindex other : Uint256} (known : pindex ∈ s.mapBlockIndex)
    (member : other ∈ s.path pindex) : s.key other ≤ s.key pindex := by
  rcases mem_cons.mp member with rfl | above
  · exact le_rfl
  · have grows := fun node parent nodeKnown list => shape.work node parent nodeKnown list
    exact le_of_lt (Node.key_lt_of_nChainWork (shape.tree.lt_of_mem_ancestors s.nChainWork grows known above))

/-- On the way to a candidate: `todo` are the blocks that are left, the next one first. -/
structure Toward (P : Params) (s : Node) (pindexMostWork : Uint256) (todo : List Uint256) : Prop where
  inv : Inv P [] s
  candidate : pindexMostWork ∈ s.setBlockIndexCandidates
  route : todo.reverse ++ s.chainActive = s.path pindexMostWork
  unmarked : ∀ pindex ∈ todo, s.failedValid pindex = false
  kept : Kept P s

namespace Toward

variable {pindexMostWork pindexConnect : Uint256} {rest : List Uint256}

theorem known (toward : Toward P s pindexMostWork rest) : pindexMostWork ∈ s.mapBlockIndex :=
  (toward.inv.candidates _ toward.candidate).1

section

variable (toward : Toward P s pindexMostWork (pindexConnect :: rest))
include toward

theorem next : pindexConnect :: s.chainActive = s.path pindexConnect := by
  refine toward.inv.shape.tree.eq_path_of_suffix toward.known ⟨rest.reverse, ?_⟩
  have route := toward.route
  rw [reverse_cons, append_assoc, singleton_append] at route
  exact route

theorem mem_path : pindexConnect ∈ s.path pindexMostWork := by
  rw [← toward.route]
  exact mem_append_left _ (mem_reverse.mpr mem_cons_self)

theorem pprev : s.pprev pindexConnect = s.tip := by
  rw [Node.pprev, Node.tip, (cons.inj toward.next).2]

theorem nextKnown : pindexConnect ∈ s.mapBlockIndex :=
  toward.inv.shape.tree.known_of_mem toward.known toward.mem_path

theorem nextLinked : s.nChainTx pindexConnect ≠ 0 :=
  linked_path toward.inv toward.known (toward.inv.candidates _ toward.candidate).2 _ toward.mem_path

end

end Toward

/-- The state once a block has connected and the candidates behind the new tip are pruned. -/
def advance (s : Node) (pindexConnect : Uint256) : Node :=
  { s with
    chainActive := s.path pindexConnect
    setBlockIndexCandidates := s.setBlockIndexCandidates.filter fun pindex => !s.workLess pindex pindexConnect }

theorem later_advance (P : Params) (s : Node) (pindexConnect : Uint256) : Later P s (advance s pindexConnect) :=
  ⟨rfl, rfl, rfl, rfl, rfl, rfl, rfl, fun _ invalid => invalid, fun _ invalid => .inl invalid, filter_sublist⟩

theorem mem_candidates_advance {pindexConnect pindex : Uint256} : pindex ∈ (advance s pindexConnect).setBlockIndexCandidates ↔
      pindex ∈ s.setBlockIndexCandidates ∧ s.key pindexConnect ≤ s.key pindex := by
  rw [advance, mem_filter, Bool.not_eq_true', Node.not_workLess_iff]

theorem toward_advance {pindexMostWork pindexConnect : Uint256} {rest : List Uint256}
    (toward : Toward P s pindexMostWork (pindexConnect :: rest)) (connects : P.connects (s.path pindexConnect) = true) :
    Toward P (advance s pindexConnect) pindexMostWork rest := by
  have inv := toward.inv
  have known := toward.nextKnown
  have linked := toward.nextLinked
  have onPath {other : Uint256} (member : other ∈ s.path pindexConnect) : other = pindexConnect ∨ other ∈ s.chainActive := by
    rw [← toward.next] at member
    exact mem_cons.mp member
  have moved : Inv P [] { s with chainActive := s.path pindexConnect } := by
    refine inv_chainActive inv known linked (fun other member => ?_) (fun other member invalid => ?_)
    · rcases onPath member with rfl | active
      · exact connects
      · exact inv.active.connects other active
    · rcases onPath member with rfl | active
      · rw [toward.unmarked other mem_cons_self] at invalid
        cases invalid
      · exact inv.active.clean other active invalid
  have ahead : s.key pindexConnect ≤ s.key pindexMostWork := key_le_of_mem_path inv.shape toward.known toward.mem_path
  have invAfter : Inv P [] (advance s pindexConnect) := by
    refine ⟨{ moved.shape with }, { moved.links with },
      { moved.active with }, ?_, moved.flagged, moved.queued⟩
    intro pindex member
    exact inv.candidates pindex (mem_candidates_advance.mp member).1
  refine ⟨invAfter, mem_candidates_advance.mpr ⟨toward.candidate, ahead⟩, ?_, ?_, ?_⟩
  · have route := toward.route
    rw [reverse_cons, append_assoc, singleton_append, toward.next] at route
    exact route
  · exact (forall_mem_cons.mp toward.unmarked).2
  · rcases toward.kept with genesis | ⟨floor, at'⟩
    · exact .inl genesis
    · have tipAfter : (advance s pindexConnect).tip = some pindexConnect := rfl
      right
      rcases le_total (s.key pindexConnect) (s.key floor) with below | above
      · refine ⟨floor, at'.known, at'.clean, at'.linked, at'.connects, ?_, ?_⟩
        · intro tip isTip
          rw [tipAfter, Option.some.injEq] at isTip
          exact isTip ▸ below
        · intro pindex pindexKnown clean pindexLinked better
          exact mem_candidates_advance.mpr ⟨at'.covers pindex pindexKnown clean pindexLinked better, below.trans better⟩
      · have unmarked := genesis_unmarked inv.shape at'.known at'.clean
        have clean : (advance s pindexConnect).Clean pindexConnect :=
          clean_of_active invAfter unmarked (Node.mem_path_self s pindexConnect)
        refine ⟨pindexConnect, known, clean, linked, invAfter.active.connects, ?_, ?_⟩
        · intro tip isTip
          rw [tipAfter, Option.some.injEq] at isTip
          rw [isTip]
        · intro pindex pindexKnown pindexClean pindexLinked better
          exact mem_candidates_advance.mpr
            ⟨at'.covers pindex pindexKnown pindexClean pindexLinked (above.trans better), better⟩

def refuse (s : Node) (pindexConnect : Uint256) : Node := (mark s pindexConnect).eraseCandidate pindexConnect

theorem later_refuse {pindexConnect : Uint256} (fails : P.connects (s.path pindexConnect) = false) :
    Later P s (refuse s pindexConnect) := by
  refine ⟨rfl, rfl, rfl, rfl, rfl, rfl, rfl, fun pindex invalid => failedValid_mark invalid, ?_, filter_sublist⟩
  intro pindex invalid
  by_cases same : pindex = pindexConnect
  · exact .inr (same ▸ fails)
  · exact .inl ((failedValid_mark_other same).symm.trans invalid)

theorem inv_refuse {pindexMostWork pindexConnect : Uint256} {rest : List Uint256}
    (toward : Toward P s pindexMostWork (pindexConnect :: rest)) : Inv P [] (refuse s pindexConnect) := by
  have inv := toward.inv
  have off : pindexConnect ∈ s.chainActive → pindexConnect = P.hashGenesisBlock := by
    intro member
    have outside := inv.shape.tree.not_mem_ancestors toward.nextKnown
    rw [← (cons.inj toward.next).2] at outside
    exact absurd member outside
  have marked := inv_mark inv off
  refine ⟨{ marked.shape with }, { marked.links with },
    { marked.active with }, ?_, marked.flagged, marked.queued⟩
  intro pindex member
  exact inv.candidates pindex (mem_filter.mp member).1

theorem kept_refuse {pindexConnect : Uint256} (kept : Kept P s) (fails : P.connects (s.path pindexConnect) = false) :
    Kept P (refuse s pindexConnect) := by
  rcases kept with genesis | ⟨floor, known, clean, linked, connects, tip, covers⟩
  · exact .inl (failedValid_mark genesis)
  · have different {pindex : Uint256} (member : pindex ∈ s.path floor) : pindex ≠ pindexConnect := by
      rintro rfl
      rw [connects pindex member] at fails
      cases fails
    refine .inr ⟨floor, known, fun pindex member => ?_, linked, connects, tip, ?_⟩
    · exact (failedValid_mark_other (different member)).trans (clean pindex member)
    · intro pindex pindexKnown pindexClean pindexLinked better
      refine mem_filter.mpr ⟨covers pindex pindexKnown (clean_of_mark pindexClean) pindexLinked better, ?_⟩
      rw [decide_eq_true_eq]
      rintro rfl
      have marked : (mark s pindex).failedValid pindex = true := Function.update_self _ _ _
      exact absurd (marked.symm.trans (pindexClean pindex (Node.mem_path_self s pindex))) (by decide)

section

variable {pindexMostWork pindexConnect : Uint256} {rest : List Uint256}
  (toward : Toward P s pindexMostWork (pindexConnect :: rest))
include toward

theorem connectTip_ok (connects : P.connects (s.path pindexConnect) = true) :
    Node.connectTip P s pindexConnect = .ok (true, { s with chainActive := s.path pindexConnect }) := by
  rw [Node.connectTip, if_neg (not_not.mpr toward.pprev), if_pos connects]

theorem connectTip_fails (fails : P.connects (s.path pindexConnect) = false) :
    Node.connectTip P s pindexConnect = .ok (false, refuse s pindexConnect) := by
  rw [Node.connectTip, if_neg (not_not.mpr toward.pprev), if_neg (by rw [fails]; decide)]
  rfl

theorem prune_ok (connects : P.connects (s.path pindexConnect) = true) :
    Node.pruneBlockIndexCandidates { s with chainActive := s.path pindexConnect } = .ok (advance s pindexConnect) := by
  have remains := (toward_advance toward connects).candidate
  have nonempty : (advance s pindexConnect).setBlockIndexCandidates.isEmpty = false := by
    rw [isEmpty_eq_false_iff]
    exact ne_nil_of_mem remains
  change (if (advance s pindexConnect).setBlockIndexCandidates.isEmpty then Except.error Stop.assertion
    else Except.ok (advance s pindexConnect)) = _
  rw [nonempty]
  rfl

end

/-- What a stretch of `ConnectTip` calls towards a candidate comes to. -/
structure Connected (P : Params) (oldWork : Nat) (pindexMostWork : Uint256) (s s' : Node) (fContinue : Bool) : Prop where
  later : Later P s s'
  inv : Inv P [] s'
  kept : Kept P s'
  done : fContinue = true → s'.tip = some pindexMostWork
  progress : fContinue = false → (∃ tip, s'.tip = some tip ∧ oldWork < s'.nChainWork tip) ∨
    ∃ pindex ∈ s.mapBlockIndex, s.failedValid pindex = false ∧ s'.failedValid pindex = true

theorem connectBlocks_spec (oldWork : Nat) (pindexMostWork : Uint256) : ∀ (todo : List Uint256) (s : Node),
    Toward P s pindexMostWork todo → ∃ fContinue s', Node.connectBlocks P (some oldWork) s todo = .ok (fContinue, s') ∧
      Connected P oldWork pindexMostWork s s' fContinue := by
  intro todo
  induction todo with
  | nil =>
    intro s toward
    refine ⟨true, s, rfl, Later.refl P s, toward.inv, toward.kept, fun _ => ?_, fun absurd' => by simp at absurd'⟩
    have route := toward.route
    rw [reverse_nil, nil_append] at route
    rw [Node.tip, route]
    rfl
  | cons pindexConnect rest ih =>
    intro s toward
    rw [Node.connectBlocks]
    cases connects : P.connects (s.path pindexConnect) with
    | false =>
      refine ⟨false, refuse s pindexConnect, ?_, later_refuse connects, inv_refuse toward,
        kept_refuse toward.kept connects, fun absurd' => by simp at absurd', fun _ => .inr ⟨pindexConnect, ?_⟩⟩
      · rw [connectTip_fails toward connects]
        rfl
      · exact ⟨toward.nextKnown, toward.unmarked pindexConnect mem_cons_self, Function.update_self _ _ _⟩
    | true =>
      have onward := toward_advance toward connects
      have pruned := prune_ok toward connects
      have later := later_advance P s pindexConnect
      rw [connectTip_ok toward connects]
      have goesOn : (do
          let s ← Node.pruneBlockIndexCandidates { s with chainActive := s.path pindexConnect }
          if (some oldWork).all (fun work => decide (s.nChainWork pindexConnect > work)) = true then return (false, s)
          else Node.connectBlocks P (some oldWork) s rest) =
          if (some oldWork).all (fun work => decide (s.nChainWork pindexConnect > work)) = true then
            .ok (false, advance s pindexConnect)
          else Node.connectBlocks P (some oldWork) (advance s pindexConnect) rest := by
        rw [pruned]
        rfl
      by_cases more : oldWork < s.nChainWork pindexConnect
      · refine ⟨false, advance s pindexConnect, ?_, later, onward.inv, onward.kept, fun absurd' => by simp at absurd',
          fun _ => .inl ⟨pindexConnect, rfl, more⟩⟩
        refine goesOn.trans ?_
        rw [Option.all_some, if_pos (decide_eq_true more)]
      · obtain ⟨fContinue, s', result, connected⟩ := ih (advance s pindexConnect) onward
        refine ⟨fContinue, s', ?_, later.trans connected.later, connected.inv, connected.kept, connected.done,
          connected.progress⟩
        refine goesOn.trans ?_
        rw [Option.all_some, if_neg (by simpa using more)]
        exact result

theorem connectBlocks_append (oldWork : Option Nat) (first second : List Uint256) : ∀ s : Node,
    Node.connectBlocks P oldWork s (first ++ second) = (do
      let result ← Node.connectBlocks P oldWork s first
      if result.1 then Node.connectBlocks P oldWork result.2 second else return (false, result.2)) := by
  induction first with
  | nil => exact fun s => rfl
  | cons pindexConnect rest ih =>
    intro s
    rw [cons_append, Node.connectBlocks, Node.connectBlocks]
    cases connected : Node.connectTip P s pindexConnect with
    | error stop => rfl
    | ok result =>
      obtain ⟨accepted, after⟩ := result
      cases accepted with
      | false => rfl
      | true =>
        cases pruned : after.pruneBlockIndexCandidates with
        | error stop => simp [bind, Except.bind, pruned]
        | ok next =>
          simp only [bind, Except.bind, pruned, Bool.not_true, Bool.false_eq_true, if_false]
          split_ifs
          · rfl
          · rw [ih next]
            rfl

theorem connectBatches_eq (oldWork : Option Nat) (batches : Nat) : ∀ (s : Node) (todo : List Uint256),
    todo.length ≤ 32 * batches → Node.connectBatches P oldWork batches s todo =
      (Node.connectBlocks P oldWork s todo).map Prod.snd := by
  induction batches with
  | zero =>
    intro s todo short
    have empty : todo = [] := eq_nil_of_length_eq_zero (by omega)
    subst empty
    rfl
  | succ batches ih =>
    intro s todo short
    have whole := connectBlocks_append (P := P) oldWork (todo.take 32) (todo.drop 32) s
    rw [take_append_drop] at whole
    rw [Node.connectBatches, whole]
    cases connected : Node.connectBlocks P oldWork s (todo.take 32) with
    | error stop => rfl
    | ok result =>
      obtain ⟨fContinue, after⟩ := result
      cases fContinue with
      | false => rfl
      | true =>
        refine (ih after (todo.drop 32) ?_).trans rfl
        rw [length_drop]
        omega

theorem later_chainActive (P : Params) (s : Node) (chain : List Uint256) : Later P s { s with chainActive := chain } :=
  ⟨rfl, rfl, rfl, rfl, rfl, rfl, rfl, fun _ invalid => invalid, fun _ invalid => .inl invalid, Sublist.refl _⟩

/-- The fork point is the tip of what a block and the active chain have in common. -/
structure Forks (s : Node) (pindexMostWork fork : Uint256) : Prop where
  isFork : s.findFork pindexMostWork = some fork
  active : fork ∈ s.chainActive
  drops : s.chainActive.dropWhile (fun pindex => some pindex ≠ some fork) = s.path fork
  route : s.untested pindexMostWork ++ s.path fork = s.path pindexMostWork

theorem forks_of_known (shape : Shape P s) {tip pindexMostWork : Uint256} (tipKnown : tip ∈ s.mapBlockIndex)
    (chain : s.chainActive = s.path tip) (known : pindexMostWork ∈ s.mapBlockIndex) : ∃ fork, Forks s pindexMostWork fork := by
  have genesis : P.hashGenesisBlock ∈ s.chainActive := chain ▸ shape.tree.root_mem tipKnown
  obtain ⟨fork, forkMember, onChain, drops⟩ := shape.tree.dropWhile_path
    (fun pindex => decide (pindex ∈ s.chainActive)) known (shape.tree.root_mem known) (decide_eq_true genesis)
  rw [decide_eq_true_eq] at onChain
  have forkOnPath : fork ∈ s.path tip := chain ▸ onChain
  have dropsPath : (s.path pindexMostWork).dropWhile (fun pindex => decide (pindex ∉ s.chainActive)) = s.path fork := by
    simpa only [decide_not, Node.path] using drops
  refine ⟨fork, ?_, onChain, ?_, ?_⟩
  · rw [Node.findFork, find?_eq_head?_dropWhile_not]
    refine Eq.trans (congrArg head? ?_) (rfl : (s.path fork).head? = some fork)
    simpa only [decide_not] using dropsPath
  · obtain ⟨first, -, isFork, drops⟩ := shape.tree.dropWhile_path
      (fun pindex => decide (pindex = fork)) tipKnown forkOnPath (decide_eq_true rfl)
    rw [decide_eq_true_eq] at isFork
    rw [chain]
    simpa only [ne_eq, Option.some.injEq, decide_not, Node.path, isFork] using drops
  · rw [← dropsPath]
    exact takeWhile_append_dropWhile

theorem toward_fork (inv : Inv P [] s) (kept : Kept P s) {pindexMostWork : Uint256}
    (candidate : pindexMostWork ∈ s.setBlockIndexCandidates)
    (usable : ∀ pindex ∈ s.untested pindexMostWork, s.usable pindex = true) :
    ∃ fork, s.findFork pindexMostWork = some fork ∧
      s.chainActive.dropWhile (fun pindex => some pindex ≠ some fork) = s.path fork ∧
      Toward P { s with chainActive := s.path fork } pindexMostWork (s.untested pindexMostWork).reverse := by
  obtain ⟨tip, tipKnown, isTip, chain⟩ := tip_of_active inv.active
  obtain ⟨known, linked⟩ := inv.candidates pindexMostWork candidate
  obtain ⟨fork, isFork, onChain, drops, route⟩ := forks_of_known inv.shape tipKnown chain known
  have forkOnPath : fork ∈ s.path tip := chain ▸ onChain
  have forkKnown := inv.shape.tree.known_of_mem tipKnown forkOnPath
  have inside {pindex : Uint256} (member : pindex ∈ s.path fork) : pindex ∈ s.chainActive :=
    chain ▸ inv.shape.tree.mem_trans tipKnown forkOnPath member
  refine ⟨fork, isFork, drops, ?_, candidate, ?_, ?_, ?_⟩
  · exact inv_chainActive inv forkKnown (inv.active.linked fork onChain)
      (fun other member => inv.active.connects other (inside member))
      (fun other member => inv.active.clean other (inside member))
  · rw [reverse_reverse]
    exact route
  · intro pindex member
    have fine := usable pindex (mem_reverse.mp member)
    rw [Node.usable, Node.failed, Bool.and_eq_true, Bool.not_eq_true', Bool.or_eq_false_iff] at fine
    exact fine.1.1
  · rcases kept with genesis | ⟨floor, floorKnown, clean, floorLinked, connects, tipBelow, covers⟩
    · exact .inl genesis
    · refine .inr ⟨floor, floorKnown, clean, floorLinked, connects, ?_, covers⟩
      intro newTip isNew
      have same : fork = newTip := Option.some.inj isNew
      exact same ▸ (key_le_of_mem_path inv.shape tipKnown forkOnPath).trans (tipBelow tip isTip)

theorem activateBestChainStep_spec (inv : Inv P [] s) (kept : Kept P s) {tip pindexMostWork : Uint256}
    (isTip : s.tip = some tip) (candidate : pindexMostWork ∈ s.setBlockIndexCandidates)
    (usable : ∀ pindex ∈ s.untested pindexMostWork, s.usable pindex = true) :
    ∃ fContinue s', Node.activateBestChainStep P s pindexMostWork = .ok s' ∧
      Connected P (s.nChainWork tip) pindexMostWork s s' fContinue := by
  obtain ⟨fork, isFork, drops, toward⟩ := toward_fork inv kept candidate usable
  obtain ⟨fContinue, s', result, connected⟩ := connectBlocks_spec (s.nChainWork tip) pindexMostWork _ _ toward
  refine ⟨fContinue, s', ?_, (later_chainActive P s _).trans connected.later, connected.inv, connected.kept,
    connected.done, connected.progress⟩
  have batches := @connectBatches_eq P (some (s.nChainWork tip)) (((s.untested pindexMostWork).reverse.length + 31) / 32)
    { s with chainActive := s.path fork } (s.untested pindexMostWork).reverse (by omega)
  rw [result] at batches
  rw [Node.activateBestChainStep, isTip, isFork]
  refine (if_neg (by simp)).trans ?_
  rw [drops]
  exact batches

def unmarked (s : Node) : Finset Uint256 := s.mapBlockIndex.toFinset.filter fun pindex => s.failedValid pindex = false

def mostWork (s : Node) : Nat := s.mapBlockIndex.foldr (fun pindex work => s.nChainWork pindex + work) 0

/-- A bound on the steps that are left: each marks a block or brings the tip more work. -/
def effort (s : Node) : Nat :=
  (unmarked s).card * (mostWork s + 1) + (mostWork s - (s.tip.map s.nChainWork).getD 0)

theorem mem_unmarked {pindex : Uint256} : pindex ∈ unmarked s ↔ pindex ∈ s.mapBlockIndex ∧ s.failedValid pindex = false := by
  rw [unmarked, Finset.mem_filter, mem_toFinset]

theorem work_le_mostWork {pindex : Uint256} (known : pindex ∈ s.mapBlockIndex) : s.nChainWork pindex ≤ mostWork s := by
  rw [mostWork]
  generalize s.mapBlockIndex = blocks at known ⊢
  induction blocks with
  | nil => simp at known
  | cons first rest ih =>
    rw [foldr_cons]
    rcases mem_cons.mp known with rfl | inside
    · omega
    · have := ih inside
      omega

theorem Later.unmarked (later : Later P s s') : unmarked s' ⊆ unmarked s := by
  intro pindex member
  rw [mem_unmarked, later.mapBlockIndex] at member
  refine mem_unmarked.mpr ⟨member.1, ?_⟩
  cases invalid : s.failedValid pindex with
  | false => rfl
  | true => cases (later.marks pindex invalid).symm.trans member.2

theorem effort_lt {tip pindexMostWork : Uint256} (isTip : s.tip = some tip)
    (connected : Connected P (s.nChainWork tip) pindexMostWork s s' false) : effort s' < effort s := by
  have later := connected.later
  have most : mostWork s' = mostWork s := by rw [mostWork, mostWork, later.mapBlockIndex, later.nChainWork]
  have fewer := Finset.card_le_card later.unmarked
  obtain ⟨newTip, newKnown, isNew, -⟩ := tip_of_active connected.inv.active
  have bounded : s.nChainWork newTip ≤ mostWork s := work_le_mostWork (later.mapBlockIndex ▸ newKnown)
  rw [effort, effort, most, isTip, isNew, Option.map_some, Option.map_some, Option.getD_some, Option.getD_some,
    later.nChainWork]
  rcases connected.progress rfl with ⟨other, isOther, more⟩ | ⟨pindex, known, before, after⟩
  · rw [Option.some.inj (isOther.symm.trans isNew), later.nChainWork] at more
    have product := Nat.mul_le_mul_right (mostWork s + 1) fewer
    omega
  · have strict : unmarked s' ⊂ unmarked s := by
      refine Finset.ssubset_iff_subset_ne.mpr ⟨later.unmarked, fun same => ?_⟩
      have still : pindex ∈ unmarked s' := same ▸ mem_unmarked.mpr ⟨known, before⟩
      rw [mem_unmarked, after] at still
      cases still.2
    have product := Nat.mul_le_mul_right (mostWork s + 1) (Finset.card_lt_card strict)
    rw [Nat.succ_mul] at product
    omega

theorem Cleared.effort (cleared : Cleared P s s') : effort s' = effort s := by
  have later := cleared.later
  rw [BlockTree.effort, BlockTree.effort, BlockTree.unmarked, BlockTree.unmarked, mostWork, mostWork, Node.tip, Node.tip,
    later.mapBlockIndex, later.nChainWork, cleared.failedValid, cleared.chainActive]

/-- The state in which `ActivateBestChain` returns: nothing clean and linked is ahead of the tip. -/
structure Best (P : Params) (s s' : Node) : Prop where
  later : Later P s s'
  settled : Settled P [] s'
  ahead : ∀ tip, s'.tip = some tip → ∀ pindex ∈ s'.mapBlockIndex, s'.Clean pindex → s'.nChainTx pindex ≠ 0 →
    s'.key pindex ≤ s'.key tip

theorem best_of_tip {chosen : Node} {pindexMostWork : Uint256} (before : Kept P chosen) (maximal : ∀ other ∈
    chosen.setBlockIndexCandidates, chosen.key other ≤ chosen.key pindexMostWork) (first : Later P s chosen)
    (later : Later P chosen s') (inv : Inv P [] s') (kept : Kept P s') (isTip : s'.tip = some pindexMostWork) :
    Best P s s' := by
  have ahead : ∀ pindex ∈ s'.mapBlockIndex, s'.Clean pindex → s'.nChainTx pindex ≠ 0 →
      s'.key pindex ≤ s'.key pindexMostWork := by
    intro pindex known clean linked
    have cleanBefore := later.clean clean
    rcases before with genesis | ⟨floor, at'⟩
    · have invalid := later.marks _ genesis
      rw [genesis_unmarked inv.shape known clean] at invalid
      cases invalid
    · rw [later.mapBlockIndex] at known
      rw [later.nChainTx] at linked
      rw [later.key, later.key]
      rcases le_total (chosen.key floor) (chosen.key pindex) with above | below
      · exact maximal pindex (at'.covers pindex known cleanBefore linked above)
      · exact below.trans (maximal floor at'.candidate)
  refine ⟨first.trans later, ⟨inv, fun tip isTip' pindex known clean linked better => ?_⟩, ?_⟩
  · rw [Option.some.inj (isTip'.symm.trans isTip)] at better
    rcases kept with genesis | ⟨floor, at'⟩
    · rw [genesis_unmarked inv.shape known clean] at genesis
      cases genesis
    · refine at'.covers pindex known clean linked ?_
      exact (ahead floor at'.known at'.clean at'.linked).trans better
  · intro tip isTip'
    rw [Option.some.inj (isTip'.symm.trans isTip)]
    exact ahead

/-- With no candidate left nothing is clean, since a floor is a candidate. -/
theorem best_of_nothing (inv : Inv P [] s') (kept : Kept P s') (nothing : s'.setBlockIndexCandidates = [])
    (later : Later P s s') : Best P s s' := by
  have genesis : s'.failedValid P.hashGenesisBlock = true := by
    rcases kept with genesis | ⟨floor, at'⟩
    · exact genesis
    · have member := at'.candidate
      rw [nothing] at member
      simp at member
  have none {pindex : Uint256} (known : pindex ∈ s'.mapBlockIndex) (clean : s'.Clean pindex) : False := by
    rw [genesis_unmarked inv.shape known clean] at genesis
    cases genesis
  exact ⟨later, ⟨inv, fun _ _ _ known clean => (none known clean).elim⟩, fun _ _ _ known clean => (none known clean).elim⟩

theorem activateBestChain_spec (fuel : Nat) : ∀ s : Node, Inv P [] s → Kept P s →
    (∃ s', Node.activateBestChain P fuel s = .ok s' ∧ Best P s s') ∨
      Node.activateBestChain P fuel s = .error .outOfFuel ∧ fuel ≤ s.setBlockIndexCandidates.length + effort s := by
  induction fuel with
  | zero => exact fun s _ _ => .inr ⟨rfl, Nat.zero_le _⟩
  | succ fuel ih =>
    intro s inv kept
    rw [Node.activateBestChain]
    rcases findMostWorkChain_spec (fuel + 1) s inv with ⟨chosen, found, result, choice⟩ | ⟨result, many⟩
    · rw [result]
      have cleared := choice.cleared
      have keptChosen := cleared.kept kept
      cases found with
      | none => exact .inl ⟨chosen, rfl, best_of_nothing cleared.inv keptChosen (choice.nothing rfl) cleared.later⟩
      | some pindexMostWork =>
        obtain ⟨candidate, maximal, usable⟩ := choice.best pindexMostWork rfl
        obtain ⟨tip, tipKnown, isTip, -⟩ := tip_of_active cleared.inv.active
        by_cases arrived : chosen.tip = some pindexMostWork
        · refine .inl ⟨chosen, if_pos arrived, ?_⟩
          exact best_of_tip keptChosen maximal cleared.later (Later.refl P chosen) cleared.inv keptChosen arrived
        · obtain ⟨fContinue, after, stepResult, connected⟩ :=
            activateBestChainStep_spec cleared.inv keptChosen isTip candidate usable
          have next : (do
              let s ← Node.activateBestChainStep P chosen pindexMostWork
              if s.tip = some pindexMostWork then return s else Node.activateBestChain P fuel s) =
              if after.tip = some pindexMostWork then Except.ok after else Node.activateBestChain P fuel after := by
            rw [stepResult]
            rfl
          have later := cleared.later.trans connected.later
          by_cases done : after.tip = some pindexMostWork
          · refine .inl ⟨after, (if_neg arrived).trans (next.trans (if_pos done)), ?_⟩
            exact best_of_tip keptChosen maximal cleared.later connected.later connected.inv connected.kept done
          · cases fContinue with
            | true => exact absurd (connected.done rfl) done
            | false =>
              have less := effort_lt isTip connected
              rw [cleared.effort] at less
              have fewer := later.candidates.length_le
              rcases ih after connected.inv connected.kept with ⟨final, finalResult, best⟩ | ⟨stops, many⟩
              · refine .inl ⟨final, (if_neg arrived).trans (next.trans ((if_neg done).trans finalResult)), ?_⟩
                exact ⟨later.trans best.later, best.settled, best.ahead⟩
              · refine .inr ⟨(if_neg arrived).trans (next.trans ((if_neg done).trans stops)), ?_⟩
                omega
    · refine .inr ⟨by rw [result]; rfl, many.trans (Nat.le_add_right _ _)⟩

end Longcoin.BlockTree

import Longcoin.WalletAbandon

/-! Which transactions are abandoned, and which are marked as in conflict. -/

namespace Longcoin.WalletAbandon
open Primitives Library Wallet WalletCache WalletSpends List Finset
open Library.Sweep (Halt)

variable {Dest : Type}

/-- What is reached from a transaction, from one to those that spend its outputs, through transactions with a property. -/
inductive Descends (wallet : List CWalletTx) (passes : CWalletTx → Prop) (hashTx : Uint256) : Uint256 → Prop where
  | self {wtx : CWalletTx} (found : findTx wallet hashTx = some wtx) (open' : passes wtx) : Descends wallet passes hashTx hashTx
  | spender {spent spender : Uint256} {wtx : CWalletTx} (before : Descends wallet passes hashTx spent)
      (spends : Spends wallet spent spender) (found : findTx wallet spender = some wtx) (open' : passes wtx) :
      Descends wallet passes hashTx spender

namespace Descends

variable {wallet : List CWalletTx} {passes : CWalletTx → Prop} {hashTx hash : Uint256}

theorem passing (descends : Descends wallet passes hashTx hash) : ∃ wtx, findTx wallet hash = some wtx ∧ passes wtx := by
  cases descends with
  | self found open' => exact ⟨_, found, open'⟩
  | spender _ _ found open' => exact ⟨_, found, open'⟩

theorem found (descends : Descends wallet passes hashTx hash) : (findTx wallet hash).isSome = true := by
  obtain ⟨wtx, stored, -⟩ := descends.passing
  rw [stored, Option.isSome_some]

theorem start (descends : Descends wallet passes hashTx hash) : ∃ wtx, findTx wallet hashTx = some wtx ∧ passes wtx := by
  induction descends with
  | self found open' => exact ⟨_, found, open'⟩
  | spender _ _ _ _ ih => exact ih

end Descends

/-- All that is reached ends up with a block hash. Of these the fresh ones are written, their amounts and those of the transactions
that they spend from are computed anew, and nothing else changes. -/
structure MarksAll (s after : State Dest) (hashBlock : Uint256) (reached fresh : Uint256 → Prop) : Prop where
  every : ∀ hash wtx, reached hash → findTx after.mapWallet hash = some wtx → wtx.hashBlock = hashBlock
  written : ∀ hash, fresh hash →
    findTx after.mapWallet hash = (findTx s.mapWallet hash).map fun wtx => { wtx with nIndex := -1, hashBlock := hashBlock }
  own : ∀ hash key, fresh hash → breaks hash key = true → after.cached key = none
  parents : ∀ hash wtx txin key, fresh hash → findTx s.mapWallet hash = some wtx → txin ∈ wtx.tx.vin →
    breaks txin.prevout.hash key = true → after.cached key = none
  others : ∀ hash, ¬fresh hash → findTx after.mapWallet hash = findTx s.mapWallet hash
  caches : ∀ key, (∀ hash, fresh hash → breaks hash key = false ∧
    ∀ wtx, findTx s.mapWallet hash = some wtx → ∀ txin ∈ wtx.tx.vin, breaks txin.prevout.hash key = false) →
      after.cached key = s.cached key
  frame : after = { s with mapWallet := after.mapWallet, cached := after.cached }

variable {s : State Dest} {hashBlock hashTx : Uint256} {chosen : Finset Uint256} {reached fresh : Uint256 → Prop}

theorem marksAll_marked (exact : ∀ hash, hash ∈ chosen ↔ fresh hash) (found : ∀ hash, fresh hash → (findTx s.mapWallet hash).isSome = true)
    (every : ∀ hash wtx, reached hash → findTx s.mapWallet hash = some wtx → fresh hash ∨ wtx.hashBlock = hashBlock) :
    MarksAll s (marked s hashBlock chosen) hashBlock reached fresh := by
  have dirty : ∀ key hash wtx, fresh hash → findTx s.mapWallet hash = some wtx →
      (breaks hash key || wtx.tx.vin.any fun txin => breaks txin.prevout.hash key) = true →
        (marked s hashBlock chosen).cached key = none := by
    intro key hash wtx isFresh stored broken
    have dirty : dirtied s.mapWallet chosen key := ⟨hash, (exact hash).mpr isFresh, by rwa [stored, Option.any_some]⟩
    rw [marked_cached, if_pos dirty]
  constructor
  case every =>
    intro hash wtx isReached stored
    rw [findTx_marked] at stored
    obtain ⟨before, earlier, rfl⟩ := Option.map_eq_some_iff.mp stored
    obtain ⟨-, rfl⟩ := findTx_some earlier
    unfold markRecord
    by_cases member : before.tx.hash ∈ chosen
    · rw [if_pos member]
    · rw [if_neg member]
      exact (every _ before isReached earlier).resolve_left fun isFresh => member ((exact _).mpr isFresh)
  case written =>
    intro hash isFresh
    rw [findTx_marked]
    refine Option.map_congr fun wtx stored => ?_
    obtain ⟨-, rfl⟩ := findTx_some stored
    exact if_pos ((exact _).mpr isFresh)
  case own =>
    intro hash key isFresh broken
    obtain ⟨wtx, stored⟩ := Option.isSome_iff_exists.mp (found hash isFresh)
    exact dirty key hash wtx isFresh stored (by rw [broken, Bool.true_or])
  case parents =>
    intro hash wtx txin key isFresh stored listed broken
    refine dirty key hash wtx isFresh stored ?_
    rw [any_eq_true.mpr ⟨txin, listed, broken⟩, Bool.or_true]
  case others =>
    intro hash old
    rw [findTx_marked]
    cases stored : findTx s.mapWallet hash with
    | none => rfl
    | some wtx =>
      obtain ⟨-, rfl⟩ := findTx_some stored
      exact congrArg some (if_neg fun member => old ((exact _).mp member))
  case caches =>
    intro key clean
    rw [marked_cached]
    refine if_neg ?_
    rintro ⟨hash, member, broken⟩
    obtain ⟨wtx, stored, either⟩ := (Option.any_eq_true _ _).mp broken
    obtain ⟨unbroken, apart⟩ := clean hash ((exact hash).mp member)
    rw [unbroken, Bool.false_or, any_eq_true] at either
    obtain ⟨txin, listed, breaking⟩ := either
    rw [apart wtx stored txin listed] at breaking
    exact Bool.false_ne_true breaking
  case frame => rw [marked]

theorem reach_found {marks : State Dest → CWalletTx → Bool} {start : Uint256 → Uint256}
    (known : (findTx s.mapWallet hashTx).isSome = true) {hash : Uint256} (reach : Reach (nextOf marks start s) {hashTx} hash) :
    (findTx s.mapWallet hash).isSome = true := by
  cases reach with
  | seed member => rwa [Finset.mem_singleton.mp member]
  | step _ edge =>
    obtain ⟨wtx, member, same⟩ := mem_map.mp (mem_toFinset.mp (nextOf_subset _ edge))
    exact findTx_isSome.mpr ⟨wtx, member, same⟩

def ConflictReaches (s : State Dest) (hashBlock hashTx : Uint256) : Uint256 → Prop :=
  Descends s.mapWallet (fun wtx => confirmsOf s hashBlock < getDepthInMainChain s.node wtx) hashTx

def ConflictsAll (s : State Dest) (hashBlock hashTx : Uint256) (after : State Dest) : Prop :=
  MarksAll s after hashBlock (ConflictReaches s hashBlock hashTx) (ConflictReaches s hashBlock hashTx)

theorem confirmsOf_neg (active : (s.node.heightOf hashBlock).isSome = true) : confirmsOf s hashBlock < 0 := by
  obtain ⟨nHeight, height⟩ := Option.isSome_iff_exists.mp active
  rw [confirmsOf, height, Option.elim_some]
  obtain ⟨above, position, rfl⟩ := Option.map_eq_some_iff.mp height
  obtain ⟨index, -, place⟩ := Option.bind_eq_some_iff.mp position
  obtain rfl := Option.some.inj place
  have top : s.node.nHeight = s.chainActive.length - 1 := rfl
  omega

theorem conflict_reach (hash : Uint256) : Reach (nextOf (conflictMarks (confirmsOf s hashBlock)) id s) {hashTx} hash ∧
        judged (conflictMarks (confirmsOf s hashBlock)) s hash = true ↔ ConflictReaches s hashBlock hashTx hash := by
  have opens : ∀ hash, judged (conflictMarks (confirmsOf s hashBlock)) s hash = true ↔
      ∃ wtx, findTx s.mapWallet hash = some wtx ∧ confirmsOf s hashBlock < getDepthInMainChain s.node wtx := fun hash => by
    simp only [judged, Option.any_eq_true, conflictMarks, decide_eq_true_eq]
  constructor
  · rintro ⟨reach, judgement⟩
    induction reach with
    | seed member =>
      obtain ⟨wtx, found, passes⟩ := (opens _).mp judgement
      obtain rfl := Finset.mem_singleton.mp member
      exact .self found passes
    | @step spent spender _ edge ih =>
      obtain ⟨wtx, found, passes⟩ := (opens _).mp judgement
      rw [nextOf] at edge
      split at edge
      · next before => exact .spender (ih before) (mem_spendsFrom_self.mp (mem_toFinset.mp edge)) found passes
      · exact absurd edge (Finset.notMem_empty _)
  · intro descends
    induction descends with
    | self found passes => exact ⟨.seed (Finset.mem_singleton_self _), (opens _).mpr ⟨_, found, passes⟩⟩
    | spender _ spends found passes ih =>
      refine ⟨.step ih.1 ?_, (opens _).mpr ⟨_, found, passes⟩⟩
      rw [nextOf, if_pos ih.2]
      exact mem_toFinset.mpr (mem_spendsFrom_self.mpr spends)

theorem markConflicted_all (active : (s.node.heightOf hashBlock).isSome = true) (known : (findTx s.mapWallet hashTx).isSome = true) :
    ∃ after, markConflicted s hashBlock hashTx = .ok after ∧ ConflictsAll s hashBlock hashTx after := by
  rw [markConflicted, if_neg (confirmsOf_neg active).not_ge]
  rcases sweep_markTurn id never_stable
    (conflictMarks_stable (confirmsOf s hashBlock)) s hashBlock hashTx with ⟨-, hash, reach, stuck⟩ | ⟨chosen, exact, result⟩
  · exfalso
    have listed := reach_found known reach
    rcases stuck with absent | refused
    · rw [absent] at listed
      exact Bool.false_ne_true listed
    · obtain ⟨wtx, -, no⟩ := (Option.any_eq_true _ _).mp refused
      exact Bool.false_ne_true no
  · refine ⟨_, result, marksAll_marked (fun hash => (exact hash).trans (conflict_reach hash)) (fun _ => Descends.found) ?_⟩
    exact fun _ _ isReached _ => .inl isReached

theorem markConflicted_ends (s : State Dest) (hashBlock hashTx : Uint256) : markConflicted s hashBlock hashTx ≠ .error .fuel := by
  rw [markConflicted]
  split
  · intro same
    cases same
  · rw [conflictTurn]
    rcases sweep_markTurn id never_stable
      (conflictMarks_stable (confirmsOf s hashBlock)) s hashBlock hashTx with ⟨fails, -⟩ | ⟨chosen, -, result⟩
    · simp only [fails, ne_eq, Except.error.injEq, reduceCtorEq, not_false_eq_true]
    · simp only [result, ne_eq, reduceCtorEq, not_false_eq_true]

def AbandonReaches (s : State Dest) (hashTx : Uint256) : Uint256 → Prop :=
  Descends s.mapWallet (fun wtx => getDepthInMainChain s.node wtx = 0) hashTx

def AlreadyAbandoned (s : State Dest) (hash : Uint256) : Prop := ∃ wtx, findTx s.mapWallet hash = some wtx ∧ wtx.isAbandoned = true

def AbandonsAll (s : State Dest) (hashTx : Uint256) (after : State Dest) : Prop :=
  MarksAll s after ABANDON_HASH (AbandonReaches s hashTx) fun hash => AbandonReaches s hashTx hash ∧ ¬AlreadyAbandoned s hash

/-- Nothing needs to be abandoned beyond what spends an output of the transaction itself. -/
def Shallow (s : State Dest) (hashTx : Uint256) : Prop :=
  ∀ hash, AbandonReaches s hashTx hash →
    AlreadyAbandoned s hash ∨ hash = hashTx ∨ ¬AlreadyAbandoned s hashTx ∧ Spends s.mapWallet hashTx hash

theorem judged_abandonMarks (hash : Uint256) : judged abandonMarks s hash = true ↔
    (∃ wtx, findTx s.mapWallet hash = some wtx ∧ getDepthInMainChain s.node wtx = 0) ∧ ¬AlreadyAbandoned s hash := by
  rw [judged, Option.any_eq_true]
  constructor
  · rintro ⟨wtx, stored, both⟩
    rw [abandonMarks, Bool.and_eq_true, beq_iff_eq, Bool.not_eq_true'] at both
    refine ⟨⟨wtx, stored, both.1⟩, ?_⟩
    rintro ⟨other, again, abandoned⟩
    rw [stored] at again
    obtain rfl := Option.some.inj again
    exact absurd abandoned (by rw [both.2]; exact Bool.false_ne_true)
  · rintro ⟨⟨wtx, stored, unconfirmed⟩, before⟩
    refine ⟨wtx, stored, ?_⟩
    rw [abandonMarks, Bool.and_eq_true, beq_iff_eq, Bool.not_eq_true']
    exact ⟨unconfirmed, Bool.eq_false_iff.mpr fun abandoned => before ⟨wtx, stored, abandoned⟩⟩

theorem abandon_reach (hash : Uint256) :
    Reach (nextOf abandonMarks (fun _ => hashTx) s) {hashTx} hash ∧ judged abandonMarks s hash = true ↔
      judged abandonMarks s hash = true ∧ (hash = hashTx ∨ judged abandonMarks s hashTx = true ∧ Spends s.mapWallet hashTx hash) := by
  rw [and_comm]
  refine and_congr_right fun judgement => ?_
  clear judgement
  constructor
  · intro reach
    induction reach with
    | seed member => exact Or.inl (Finset.mem_singleton.mp member)
    | @step spent spender _ edge ih =>
      rw [nextOf] at edge
      split at edge
      case isFalse => exact absurd edge (notMem_empty _)
      case isTrue before =>
        by_cases first : spent = hashTx
        · subst first
          exact .inr ⟨before, mem_spendsFrom_self.mp (mem_toFinset.mp edge)⟩
        · obtain ⟨-, spends⟩ := ih.resolve_left first
          -- The walk starts at an output of the first transaction, which is none of `spent`.
          rw [spendsFrom_other spends first] at edge
          exact absurd edge (notMem_empty _)
  · rintro (rfl | ⟨before, spends⟩)
    · exact .seed (Finset.mem_singleton_self _)
    · refine .step (.seed (Finset.mem_singleton_self _)) ?_
      rw [nextOf, if_pos before]
      exact mem_toFinset.mpr (mem_spendsFrom_self.mpr spends)

theorem abandonTransaction_marked {after : State Dest} (returns : abandonTransaction s hashTx = .ok (after, true)) :
    ∃ chosen : Finset Uint256, after = marked s ABANDON_HASH chosen ∧ ∀ hash, hash ∈ chosen ↔ judged abandonMarks s hash = true ∧
      (hash = hashTx ∨ judged abandonMarks s hashTx = true ∧ Spends s.mapWallet hashTx hash) := by
  rw [abandonTransaction] at returns
  cases stored : findTx s.mapWallet hashTx with
  | none => simp only [stored, reduceCtorEq] at returns
  | some origtx =>
    simp only [stored] at returns
    split at returns
    · simp only [Except.ok.injEq, Prod.mk.injEq, Bool.false_eq_true, and_false] at returns
    · rw [abandonTurn] at returns
      rcases sweep_markTurn (fun _ => hashTx) abandonRefuses_stable abandonMarks_stable s ABANDON_HASH hashTx with
        ⟨fails, -⟩ | ⟨chosen, exact, result⟩
      · rw [fails] at returns
        cases returns
      · rw [result] at returns
        simp only [Except.map, Except.ok.injEq, Prod.mk.injEq, and_true] at returns
        exact ⟨chosen, returns.symm, fun hash => (exact hash).trans (abandon_reach hash)⟩

theorem abandonTransaction_ends (s : State Dest) (hashTx : Uint256) : abandonTransaction s hashTx ≠ .error .fuel := by
  rw [abandonTransaction]
  cases stored : findTx s.mapWallet hashTx with
  | none => simp only [ne_eq, Except.error.injEq, reduceCtorEq, not_false_eq_true]
  | some origtx =>
    dsimp only
    split
    · intro same
      cases same
    · rw [abandonTurn]
      rcases sweep_markTurn (fun _ => hashTx) abandonRefuses_stable abandonMarks_stable s ABANDON_HASH hashTx with
        ⟨fails, -⟩ | ⟨chosen, -, result⟩
      · simp only [fails, Except.map, ne_eq, Except.error.injEq, reduceCtorEq, not_false_eq_true]
      · simp only [result, Except.map, ne_eq, reduceCtorEq, not_false_eq_true]

theorem shallow_of_all (exact : ∀ hash, hash ∈ chosen ↔ judged abandonMarks s hash = true ∧
    (hash = hashTx ∨ judged abandonMarks s hashTx = true ∧ Spends s.mapWallet hashTx hash))
    (all : AbandonsAll s hashTx (marked s ABANDON_HASH chosen)) : Shallow s hashTx := by
  intro hash reached
  obtain ⟨wtx, stored, -⟩ := reached.passing
  by_cases member : hash ∈ chosen
  · rcases ((exact hash).mp member).2 with same | ⟨first, spends⟩
    · exact .inr (.inl same)
    · exact .inr (.inr ⟨((judged_abandonMarks hashTx).mp first).2, spends⟩)
  · refine .inl ⟨wtx, stored, ?_⟩
    have kept : findTx (marked s ABANDON_HASH chosen).mapWallet hash = some wtx := by
      obtain ⟨-, rfl⟩ := findTx_some stored
      rw [findTx_marked, stored, Option.map_some, markRecord, if_neg member]
    exact beq_iff_eq.mpr (all.every hash wtx reached kept)

theorem all_of_shallow (exact : ∀ hash, hash ∈ chosen ↔ judged abandonMarks s hash = true ∧
    (hash = hashTx ∨ judged abandonMarks s hashTx = true ∧ Spends s.mapWallet hashTx hash))
    (shallow : Shallow s hashTx) : AbandonsAll s hashTx (marked s ABANDON_HASH chosen) := by
  refine marksAll_marked (fun hash => ?_) (fun hash reached => reached.1.found) fun hash wtx reached stored => ?_
  · rw [exact, judged_abandonMarks, judged_abandonMarks]
    constructor
    · rintro ⟨⟨⟨wtx, stored, unconfirmed⟩, before⟩, rfl | ⟨⟨⟨origtx, first, open'⟩, -⟩, spends⟩⟩
      · exact ⟨.self stored unconfirmed, before⟩
      · exact ⟨.spender (.self first open') spends stored unconfirmed, before⟩
    · rintro ⟨reached, before⟩
      refine ⟨⟨reached.passing, before⟩, ?_⟩
      rcases shallow hash reached with abandoned | same | ⟨fresh, spends⟩
      · exact absurd abandoned before
      · exact .inl same
      · exact .inr ⟨⟨reached.start, fresh⟩, spends⟩
  · by_cases abandoned : wtx.isAbandoned = true
    · exact .inr (beq_iff_eq.mp abandoned)
    · refine .inl ⟨reached, ?_⟩
      rintro ⟨other, again, before⟩
      rw [stored] at again
      exact abandoned (Option.some.inj again ▸ before)

def Counts (node : NodeView) (wtx : CWalletTx) : Prop := wtx.isAbandoned = false ∧ 0 ≤ getDepthInMainChain node wtx

theorem isSpent_iff (node : NodeView) (wallet : List CWalletTx) (outpoint : COutPoint) : isSpent node wallet outpoint = true ↔
    ∃ wtx ∈ wallet, wtx.tx.isCoinBase = false ∧ (∃ txin ∈ wtx.tx.vin, txin.prevout = outpoint) ∧ Counts node wtx := by
  rw [isSpent, any_eq_true]
  refine exists_congr fun wtx => and_congr_right fun _ => ?_
  rw [Bool.and_eq_true, Bool.and_eq_true, Bool.not_eq_true', any_eq_true, and_assoc]
  refine and_congr_right fun _ => and_congr (by simp only [beq_iff_eq]) ?_
  have unset : wtx.isAbandoned = true → getDepthInMainChain node wtx = 0 := fun abandoned => by
    rw [getDepthInMainChain, CWalletTx.hashUnset, show (wtx.hashBlock == ABANDON_HASH) = true from abandoned, Bool.or_true, if_pos rfl]
  rw [Counts, Bool.or_eq_true, decide_eq_true_eq, Bool.and_eq_true, beq_iff_eq, Bool.not_eq_true']
  cases abandoned : wtx.isAbandoned with
  | true =>
    have depth := unset abandoned
    simp [depth]
  | false =>
    simp only [true_and, and_true]
    omega

theorem ConflictsAll.not_counts {after : State Dest} (all : ConflictsAll s hashBlock hashTx after) (exists' : hashBlock ≠ 0)
    (active : (s.node.heightOf hashBlock).isSome = true) {hash : Uint256} (reached : ConflictReaches s hashBlock hashTx hash) {wtx : CWalletTx}
    (stored : findTx after.mapWallet hash = some wtx) : ¬Counts after.node wtx := by
  rintro ⟨notAbandoned, depth⟩
  have written := all.written hash reached
  rw [stored] at written
  obtain ⟨before, -, rfl⟩ := Option.map_eq_some_iff.mp written.symm
  have node : after.node = s.node := by rw [all.frame]; rfl
  have set : (hashBlock == (0 : Uint256) || hashBlock == ABANDON_HASH) = false := by
    rw [Bool.or_eq_false_iff]
    exact ⟨beq_eq_false_iff_ne.mpr exists', notAbandoned⟩
  have confirms := confirmsOf_neg active
  rw [getDepthInMainChain, CWalletTx.hashUnset, node, set, if_neg Bool.false_ne_true] at depth
  rw [confirmsOf] at confirms
  obtain ⟨nHeight, height⟩ := Option.isSome_iff_exists.mp active
  rw [height, Option.elim_some] at confirms depth
  rw [if_pos rfl] at depth
  omega

/-- When a call abandons a transaction, all that it is to reach is abandoned exactly if nothing is more than one step away. A block of
the active chain is recorded with all that it is to reach. -/
theorem marks_reach (s : State Dest) (hashBlock hashTx : Uint256) :
    abandonTransaction s hashTx ≠ .error .fuel ∧ markConflicted s hashBlock hashTx ≠ .error .fuel ∧
      (∀ after, abandonTransaction s hashTx = .ok (after, true) → (AbandonsAll s hashTx after ↔ Shallow s hashTx)) ∧
      ((s.node.heightOf hashBlock).isSome = true → (findTx s.mapWallet hashTx).isSome = true →
        ∃ after, markConflicted s hashBlock hashTx = .ok after ∧ ConflictsAll s hashBlock hashTx after ∧
          (hashBlock ≠ 0 → ∀ hash wtx, ConflictReaches s hashBlock hashTx hash → findTx after.mapWallet hash = some wtx →
            ¬Counts after.node wtx)) ∧ ∀ outpoint, isSpent s.node s.mapWallet outpoint = true ↔
        ∃ wtx ∈ s.mapWallet, wtx.tx.isCoinBase = false ∧ (∃ txin ∈ wtx.tx.vin, txin.prevout = outpoint) ∧ Counts s.node wtx := by
  refine ⟨abandonTransaction_ends s hashTx, markConflicted_ends s hashBlock hashTx, fun after returns => ?_, fun active known => ?_,
    isSpent_iff s.node s.mapWallet⟩
  · obtain ⟨chosen, rfl, exact⟩ := abandonTransaction_marked returns
    exact ⟨shallow_of_all exact, all_of_shallow exact⟩
  · obtain ⟨after, result, all⟩ := markConflicted_all active known
    exact ⟨after, result, all, fun exists' _ _ reached stored => all.not_counts exists' active reached stored⟩

def parentTx : CTransaction := { hash := 11, vin := [{ prevout := ⟨5, 0⟩ }], vout := [⟨30, [0x51]⟩] }

def childTx : CTransaction := { hash := 12, vin := [{ prevout := ⟨11, 0⟩ }], vout := [⟨20, [0x51]⟩] }

def grandchildTx : CTransaction := { hash := 13, vin := [{ prevout := ⟨12, 0⟩ }], vout := [⟨10, [0x51]⟩] }

/-- Three transactions that have left the pool, each spending from the one before. -/
def threeInARow : State Nat where
  chainActive := [50]
  adjustedTime := 0
  inMempool _ := false
  bSpendZeroConfChange := true
  keys := { isMine := fun _ => .spendable, destination := fun _ => none, mapAddressBook := [] }
  mapWallet := [parentTx, childTx, grandchildTx].map fun tx => { tx := tx, hashBlock := 0, nIndex := -1, strFromAccount := "" }
  cached _ := none

theorem threeInARow_deep : ¬Shallow threeInARow 11 := by
  intro shallow
  have first : Spends threeInARow.mapWallet 11 12 := ⟨_, mem_cons_of_mem _ mem_cons_self, rfl, rfl, _, mem_cons_self, rfl⟩
  have second : Spends threeInARow.mapWallet 12 13 :=
    ⟨_, mem_cons_of_mem _ (mem_cons_of_mem _ mem_cons_self), rfl, rfl, _, mem_cons_self, rfl⟩
  rcases shallow 13 (.spender (.spender (.self rfl rfl) first rfl rfl) second rfl rfl) with ⟨wtx, stored, abandoned⟩ | same | ⟨-, spends⟩
  · obtain rfl := Option.some.inj stored
    cases abandoned
  · cases same
  · revert spends
    unfold Spends
    decide

/-- The grandchild is not abandoned. -/
theorem grandchild_stays : ∃ after, abandonTransaction threeInARow 11 = .ok (after, true) ∧ ¬AbandonsAll threeInARow 11 after := by
  have found : findTx threeInARow.mapWallet 11 = some { tx := parentTx, hashBlock := 0, nIndex := -1, strFromAccount := "" } := rfl
  rw [abandonTransaction, found]
  dsimp only
  rw [if_neg (by decide), abandonTurn]
  rcases sweep_markTurn (fun _ => 11) abandonRefuses_stable abandonMarks_stable threeInARow ABANDON_HASH 11 with
    ⟨-, hash, reach, stuck⟩ | ⟨chosen, exact, result⟩
  · exfalso
    have listed := reach_found (by rw [found, Option.isSome_some]) reach
    rcases stuck with absent | refused
    · rw [absent] at listed
      exact Bool.false_ne_true listed
    · obtain ⟨wtx, stored, refuses⟩ := (Option.any_eq_true _ _).mp refused
      have none' : ∀ wtx ∈ threeInARow.mapWallet, abandonRefuses threeInARow wtx = false := by decide
      rw [none' wtx (findTx_some stored).1] at refuses
      exact Bool.false_ne_true refuses
  · rw [result]
    exact ⟨_, rfl, fun all => threeInARow_deep (shallow_of_all (fun hash => (exact hash).trans (abandon_reach hash)) all)⟩

end Longcoin.WalletAbandon

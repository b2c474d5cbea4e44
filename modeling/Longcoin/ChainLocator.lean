import Longcoin.ChainVector

/-! Locators over blocks in memory (`GetLocator`, `FindForkInGlobalIndex`), and how far behind the fork they lead. -/

namespace Longcoin.Chain
open Primitives Library ParentForest List Option

/-- Where the loop goes: by the vector if the block is in the chain, else by the skip list. -/
def stepBack (index : Index) (vChain : VChain) (pindex : Nat) (nHeight : Int) : Except Fault (Option Nat) := do
  if ← contains index vChain pindex then return vChain.get nHeight
  else getAncestor index (some pindex) nHeight

def locatorLoop (index : Index) (vChain : VChain) : Nat → Nat → List Uint256 → Option Nat → Except Fault (List Uint256)
  | _, _, vHave, none => .ok vHave
  | 0, _, _, some _ => .error .endless
  | bound + 1, nStep, vHave, some pindex => do
      let block ← deref index (some pindex)
      let vHave := vHave ++ [block.hash]
      if block.nHeight = 0 then return vHave
      else
        let nHeight := max ((block.nHeight : Int) - nStep) 0
        let next ← stepBack index vChain pindex nHeight
        if vHave.length > 10 then
          if nStep * 2 ≥ 2 ^ 31 then .error .signedOverflow else locatorLoop index vChain bound (nStep * 2) vHave next
        else locatorLoop index vChain bound nStep vHave next

/-- `chain.GetLocator(pindex)`; without a block it starts from the tip. -/
def getLocator (index : Index) (vChain : VChain) (pindex : Option Nat) : Except Fault (List Uint256) :=
  let start := pindex <|> vChain.tip
  locatorLoop index vChain ((start.bind (index[·]?)).elim 0 (·.nHeight) + 1) 1 [] start

def findForkInGlobalIndex (index : Index) (vChain : VChain) : List Uint256 → Except Fault (Option Nat)
  | [] => .ok vChain.genesis
  | hash :: locator =>
      match find index hash with
      | some pindex => do
          if ← contains index vChain pindex then return some pindex
          else findForkInGlobalIndex index vChain locator
      | none => findForkInGlobalIndex index vChain locator

def blockHash (index : Index) (pindex : Nat) : Uint256 := (index[pindex]?.map (·.hash)).getD 0

/-- Every entry is the ancestor of the one before at a step below it, and the last one has height zero. -/
def Stepped (index : Index) : Nat → List Nat → Prop
  | _, [] => False
  | _, [last] => nHeight index last = 0
  | count, block :: next :: rest => 0 < nHeight index block ∧
      followPprev index (nHeight index block - (nHeight index block - 2 ^ (count - 10))) block = some next ∧
      Stepped index (count + 1) (next :: rest)

def distance (count : Nat) : Nat := if count ≤ 11 then count else 9 + 2 ^ (count - 10)

theorem distance_succ (count : Nat) : distance (count + 1) = distance count + 2 ^ (count - 10) := by
  rw [distance, distance]
  rcases Nat.lt_trichotomy count 11 with low | rfl | high
  · rw [if_pos (by omega), if_pos (by omega), Nat.sub_eq_zero_of_le (by omega), pow_zero]
  · rfl
  · obtain ⟨more, rfl⟩ := Nat.exists_eq_add_of_lt high
    have shift : 11 + more + 1 + 1 - 10 = 11 + more + 1 - 10 + 1 := by omega
    rw [if_neg (by omega), if_neg (by omega), shift, pow_succ]
    omega

theorem pow_le_distance (count : Nat) : 2 ^ (count - 10) ≤ distance count + 1 := by
  rw [distance]
  split_ifs with low
  · rcases Nat.lt_or_ge count 11 with less | more
    · rw [Nat.sub_eq_zero_of_le (by omega), pow_zero]
      omega
    · obtain rfl : count = 11 := by omega
      decide
  · omega

section Locator

variable {index : Index} {vChain : VChain} {tip : Option Nat} {pindex : Nat}

theorem WellFormed.find_eq (shape : WellFormed index) {block : CBlockIndex} (here : index[pindex]? = some block) :
    find index block.hash = some pindex := by
  have inside := WellFormed.lt_of_here here
  have value : index[pindex] = block := some.inj ((getElem?_eq_getElem inside).symm.trans here)
  rw [find, findIdx?_eq_some_iff_getElem]
  refine ⟨inside, beq_iff_eq.mpr (by rw [value]), fun other before same => ?_⟩
  have different := pairwise_iff_getElem.mp shape.hashes other pindex (by rw [length_map]; omega)
    (by rw [length_map]; omega) before
  rw [getElem_map, getElem_map, value] at different
  exact different (beq_iff_eq.mp same)

theorem stepBack_eq (shape : WellFormed index) (path : Path index tip vChain) (inside : pindex < index.length) {height : Nat}
    (low : height ≤ nHeight index pindex) :
    stepBack index vChain pindex height = .ok (followPprev index (nHeight index pindex - height) pindex) := by
  obtain ⟨answer, checked, meaning⟩ := path.contains_eq shape inside
  rw [stepBack, checked]
  dsimp only [bind, Except.bind]
  cases answer with
  | true =>
    obtain ⟨top, here, below⟩ := meaning.mp rfl
    obtain ⟨order, found⟩ := shape.graded.ancestor_iff.mp below
    have split : nHeight index top - height = nHeight index top - nHeight index pindex + (nHeight index pindex - height) := by omega
    rw [if_pos rfl, path.get_eq, here, bind_some, if_pos (low.trans order), followPprev, followPprev, split, climb_add,
      found, bind_some]
    rfl
  | false => rw [if_neg Bool.false_ne_true, shape.getAncestor_eq inside, if_pos (by omega), Int.toNat_natCast]

theorem locatorLoop_eq (shape : WellFormed index) (path : Path index tip vChain) (bound : Nat) {start : Nat} (small : start < 2 ^ 30)
    (inside : pindex < index.length) (enough : nHeight index pindex < bound) {vHave : List Uint256}
    (level : nHeight index pindex = 0 ∨ nHeight index pindex + distance vHave.length = start) :
    ∃ blocks, locatorLoop index vChain bound (2 ^ (vHave.length - 10)) vHave (some pindex) =
        .ok (vHave ++ (pindex :: blocks).map (blockHash index)) ∧ Stepped index vHave.length (pindex :: blocks) := by
  induction bound generalizing pindex vHave with
  | zero => omega
  | succ bound ih =>
    obtain ⟨block, here⟩ := WellFormed.exists_of_lt inside
    have value := WellFormed.nHeight_eq here
    have hash : blockHash index pindex = block.hash := by
      rw [blockHash, here]
      rfl
    have step : 0 < 2 ^ (vHave.length - 10) := Nat.pow_pos (by decide)
    rw [locatorLoop, WellFormed.deref_eq here]
    dsimp only [bind, Except.bind]
    by_cases bottom : block.nHeight = 0
    · rw [if_pos bottom]
      refine ⟨[], ?_, value.trans bottom⟩
      rw [map_singleton, hash]
      rfl
    · obtain ⟨next, found, lower⟩ := shape.followPprev_exists
        (Nat.sub_le (nHeight index pindex) (2 ^ (vHave.length - 10)))
      have back := stepBack_eq shape path inside (Nat.sub_le (nHeight index pindex) (2 ^ (vHave.length - 10)))
      have goal : max ((block.nHeight : Int) - (2 ^ (vHave.length - 10) : Nat)) 0 =
          (nHeight index pindex - 2 ^ (vHave.length - 10) : Nat) := by omega
      have grown : (vHave ++ [block.hash]).length = vHave.length + 1 := by rw [length_append, length_singleton]
      have reach := distance_succ vHave.length
      obtain ⟨blocks, done, stepped⟩ := @ih next
        (shape.ancestor_lt inside found) (by omega) (vHave ++ [block.hash]) (by rw [grown]; omega)
      have listed : vHave ++ [block.hash] ++ (next :: blocks).map (blockHash index) =
          vHave ++ (pindex :: next :: blocks).map (blockHash index) := by
        rw [map_cons (a := pindex), hash, append_assoc, singleton_append]
      rw [grown] at done stepped
      refine ⟨next :: blocks, ?_, by omega, found, stepped⟩
      rw [if_neg bottom, goal, back, found]
      dsimp only
      rw [← listed, ← done, grown]
      by_cases long : vHave.length + 1 > 10
      · have doubled : 2 ^ (vHave.length - 10) * 2 = 2 ^ (vHave.length + 1 - 10) := by
          rw [← pow_succ]
          congr 1
          omega
        have room : 2 ^ (vHave.length - 10) < 2 ^ 30 := by
          have behind := pow_le_distance vHave.length
          omega
        rw [if_pos long, if_neg (by omega), doubled]
      · have same : vHave.length + 1 - 10 = vHave.length - 10 := by omega
        rw [if_neg long, same]

theorem Stepped.ancestors (shape : WellFormed index) {count : Nat} {blocks : List Nat} (stepped : Stepped index count (pindex :: blocks)) :
    (∀ block ∈ pindex :: blocks, Ancestor (pprev index) block pindex) ∧
      (pindex :: blocks).Pairwise (fun first second => nHeight index second < nHeight index first) ∧
      ∃ last, (pindex :: blocks).getLast? = some last ∧ nHeight index last = 0 := by
  induction blocks generalizing pindex count with
  | nil =>
    refine ⟨fun block member => ?_, pairwise_singleton _ _, pindex, rfl, stepped⟩
    rw [mem_singleton.mp member]
    exact .refl _
  | cons next blocks ih =>
    obtain ⟨positive, found, rest⟩ := stepped
    obtain ⟨below, order, last, final, bottom⟩ := ih rest
    have step : 0 < 2 ^ (count - 10) := Nat.pow_pos (by decide)
    have rise := shape.graded.height_climb found
    refine ⟨fun block member => ?_, pairwise_cons.mpr ⟨fun block member => ?_, order⟩, last, ?_, bottom⟩
    · rcases mem_cons.mp member with rfl | inside
      · exact .refl _
      · exact .trans ⟨_, found⟩ (below block inside)
    · have low := shape.graded.height_le (below block member)
      omega
    · rw [getLast?_cons, final]
      rfl

/-- What `FindForkInGlobalIndex` finds is not much further back than the fork. -/
structure NearFork (index : Index) (start top fork found : Nat) : Prop where
  below : Ancestor (pprev index) found start
  inChain : Ancestor (pprev index) found top
  near : nHeight index start - nHeight index found ≤ 2 * (nHeight index start - nHeight index fork)
  exact : nHeight index start - nHeight index fork ≤ 11 → found = fork

theorem distance_le {count : Nat} (high : 11 ≤ count) : 11 ≤ distance count := by
  rw [distance]
  split_ifs with low
  · exact high
  · have power : 2 ^ 1 ≤ 2 ^ (count - 10) := Nat.pow_le_pow_right (by decide) (by omega)
    omega

theorem nearFork_of_inChain (shape : WellFormed index) {start top fork count : Nat} (meets : Meet (pprev index) start top fork)
    (below : Ancestor (pprev index) pindex start) (inChain : Ancestor (pprev index) pindex top)
    (far : nHeight index start ≤ nHeight index pindex + distance count)
    (before : count = 0 ∨ distance (count - 1) < nHeight index start - nHeight index fork) : NearFork index start top fork pindex := by
  have low := shape.graded.height_le (meets.last pindex below inChain)
  have low' := shape.graded.height_le meets.left
  rcases count with _ | count
  · have zero : distance 0 = 0 := rfl
    exact ⟨below, inChain, by omega, fun _ => shape.graded.eq_of_ancestor below meets.left (by omega)⟩
  · have above : distance count < nHeight index start - nHeight index fork := before.resolve_left (Nat.succ_ne_zero _)
    have next := distance_succ count
    have step := pow_le_distance count
    refine ⟨below, inChain, by omega, fun short => shape.graded.eq_of_ancestor below meets.left ?_⟩
    have few : count < 11 := by
      by_contra many
      have long := distance_le (not_lt.mp many)
      omega
    have single : distance (count + 1) = count + 1 := by rw [distance, if_pos (by omega)]
    have same : distance count = count := by rw [distance, if_pos (by omega)]
    omega

theorem findForkInGlobalIndex_cons (shape : WellFormed index) {top : Nat} (path : Path index (some top) vChain)
    (inside : pindex < index.length) (locator : List Uint256) :
    findForkInGlobalIndex index vChain (blockHash index pindex :: locator) = .ok (some pindex) ∧
        Ancestor (pprev index) pindex top ∨
      findForkInGlobalIndex index vChain (blockHash index pindex :: locator) = findForkInGlobalIndex index vChain locator ∧
        ¬ Ancestor (pprev index) pindex top := by
  obtain ⟨block, here⟩ := WellFormed.exists_of_lt inside
  have hash : blockHash index pindex = block.hash := by
    rw [blockHash, here]
    rfl
  obtain ⟨answer, checked, meaning⟩ := path.contains_eq shape inside
  have ancestor : InChain index (some top) pindex ↔ Ancestor (pprev index) pindex top :=
    ⟨fun ⟨other, same, below⟩ => some.inj same ▸ below, fun below => ⟨top, rfl, below⟩⟩
  rw [ancestor] at meaning
  rw [findForkInGlobalIndex, hash, shape.find_eq here]
  dsimp only
  rw [checked]
  cases answer with
  | true => exact .inl ⟨rfl, meaning.mp rfl⟩
  | false => exact .inr ⟨rfl, fun below => Bool.false_ne_true (meaning.mpr below)⟩

theorem findFork_stepped (shape : WellFormed index) {start top fork : Nat} (path : Path index (some top) vChain)
    (meets : Meet (pprev index) start top fork) {count : Nat} {blocks : List Nat} (inside : pindex < index.length)
    (stepped : Stepped index count (pindex :: blocks)) (below : Ancestor (pprev index) pindex start)
    (far : nHeight index start ≤ nHeight index pindex + distance count)
    (level : nHeight index pindex = 0 ∨ nHeight index pindex + distance count = nHeight index start)
    (before : count = 0 ∨ distance (count - 1) < nHeight index start - nHeight index fork) :
    ∃ found, findForkInGlobalIndex index vChain ((pindex :: blocks).map (blockHash index)) = .ok (some found) ∧
      NearFork index start top fork found := by
  induction blocks generalizing pindex count with
  | nil =>
    rcases findForkInGlobalIndex_cons shape path inside [] with ⟨found, member⟩ | ⟨-, out⟩
    · exact ⟨pindex, found, nearFork_of_inChain shape meets below member far before⟩
    · -- The last entry is the root, which every chain of the tree contains.
      have bottom : nHeight index pindex = 0 := stepped
      have root := shape.graded.ancestor_of_le below meets.left (by omega)
      exact absurd (meets.right.trans root) out
  | cons next blocks ih =>
    obtain ⟨positive, found, rest⟩ := stepped
    rcases findForkInGlobalIndex_cons shape path inside ((next :: blocks).map (blockHash index)) with ⟨here, member⟩ | ⟨further, out⟩
    · exact ⟨pindex, here, nearFork_of_inChain shape meets below member far before⟩
    · have above : nHeight index fork < nHeight index pindex := by
        by_contra low
        exact out (meets.right.trans (shape.graded.ancestor_of_le below meets.left (not_lt.mp low)))
      have next' := distance_succ count
      have rise := shape.graded.height_climb found
      obtain ⟨step, power⟩ : ∃ step, 2 ^ (count - 10) = step := ⟨_, rfl⟩
      rw [power] at next' rise
      rw [map_cons, further]
      refine ih (shape.ancestor_lt inside found) rest (below.trans ⟨_, found⟩) (by omega) (by omega) (.inr ?_)
      rw [Nat.add_sub_cancel]
      omega

end Locator

/-- A locator: the block, ancestors of it at falling heights, and genesis. -/
structure LocatorOf (index : Index) (pindex : Nat) (vHave : List Uint256) (blocks : List Nat) : Prop where
  hashes : vHave = blocks.map (blockHash index)
  first : blocks.head? = some pindex
  ancestors : ∀ block ∈ blocks, Ancestor (pprev index) block pindex
  falling : blocks.Pairwise (fun first second => nHeight index second < nHeight index first)
  genesis : ∃ last, blocks.getLast? = some last ∧ pprev index last = none

theorem WellFormed.pprev_none {index : Index} (shape : WellFormed index) {pindex : Nat} (bottom : nHeight index pindex = 0) :
    pprev index pindex = none := by
  cases up : pprev index pindex with
  | none => rfl
  | some above =>
    have one := shape.graded.child pindex above up
    omega

/-- From the locator of a block on one chain the fork with another chain is found, or a block not much below it. -/
theorem locator_finds_fork {calls : List Build} {index : Index} {tips tips' : List (Option Nat)} {pindex : Nat}
    (built : calls.foldlM build [] = .ok index) (single : SingleRooted index)
    (valid : ∀ tip ∈ tips ++ tips', ∀ place ∈ tip, place < index.length) (inside : pindex < index.length)
    (low : nHeight index pindex < 2 ^ 30) :
    ∃ vChain vChain' vHave blocks, tips.foldlM (setTip index) [] = .ok vChain ∧ tips'.foldlM (setTip index) [] = .ok vChain' ∧
      getLocator index vChain (some pindex) = .ok vHave ∧ LocatorOf index pindex vHave blocks ∧
      ∀ top, vChain'.tip = some top → ∃ fork found, Meet (pprev index) pindex top fork ∧
        findForkInGlobalIndex index vChain' vHave = .ok (some found) ∧ NearFork index pindex top fork found := by
  have shape := WellFormed.empty.of_built built
  obtain ⟨vChain, done, path⟩ := setTips_eq shape path_empty (forall_mem_append.mp valid).1
  obtain ⟨vChain', done', path'⟩ := setTips_eq shape path_empty (forall_mem_append.mp valid).2
  obtain ⟨blocks, listed, stepped⟩ := @locatorLoop_eq _ _ _ _ shape path (nHeight index pindex + 1) _ low inside
    (Nat.lt_succ_self _) [] (.inr rfl)
  obtain ⟨ancestors, falling, last, final, bottom⟩ := stepped.ancestors shape
  refine ⟨vChain, vChain', _, pindex :: blocks, done, done', ?_, ⟨rfl, rfl, ancestors, falling, last, final, shape.pprev_none bottom⟩, ?_⟩
  · obtain ⟨block, here⟩ := WellFormed.exists_of_lt inside
    have height : ((some pindex).bind (index[·]?)).elim 0 (·.nHeight) = nHeight index pindex := by
      rw [WellFormed.nHeight_eq here, bind_some, here]
      rfl
    rw [← height] at listed
    exact listed
  · intro top tip
    rw [path'.tip_eq] at tip
    rw [tip] at path'
    obtain ⟨fork, -, meets⟩ := lastCommonAncestor_eq shape single inside path'.1
    obtain ⟨found, searched, near⟩ := findFork_stepped shape path' meets inside stepped (.refl _) (Nat.le_add_right _ _) (.inr rfl) (.inl rfl)
    exact ⟨fork, found, meets, searched, near⟩

theorem branches_singleRooted : SingleRooted branches := by
  rw [SingleRooted]
  decide

theorem locator_finds_fork_branches : ∃ vChain vChain' vHave blocks, [some 3].foldlM (setTip branches) [] = .ok vChain ∧
      [some 2].foldlM (setTip branches) [] = .ok vChain' ∧ getLocator branches vChain (some 3) = .ok vHave ∧
      LocatorOf branches 3 vHave blocks ∧ ∀ top, vChain'.tip = some top → ∃ fork found, Meet (pprev branches) 3 top fork ∧
        findForkInGlobalIndex branches vChain' vHave = .ok (some found) ∧ NearFork branches 3 top fork found :=
  @locator_finds_fork _ _ [some 3] [some 2] _ branches_built branches_singleRooted (by decide) (by decide) (by decide)

end Longcoin.Chain

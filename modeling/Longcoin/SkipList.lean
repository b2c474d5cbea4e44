import Longcoin.Primitives
import Longcoin.Library.ParentForest

/-! The block index as blocks in memory (`chain.h`, `chain.cpp`): skip pointers and the lookup of ancestors. -/

namespace Longcoin.Chain
open Primitives Library ParentForest List Option Bool Except

/-- Why a call fails: a pointer that leads nowhere, a loop that does not end, a failed `assert`, an `int` that is too large. -/
inductive Fault where
  | badPointer
  | endless
  | assertion
  | signedOverflow
  deriving DecidableEq

/-- The fields of `CBlockIndex` that are read here. A pointer is the place of a block in memory. -/
structure CBlockIndex where
  hash : Uint256
  pprev : Option Nat
  pskip : Option Nat
  nHeight : Nat

/-- The blocks of `mapBlockIndex` in memory. -/
abbrev Index := List CBlockIndex

def deref (index : Index) (pointer : Option Nat) : Except Fault CBlockIndex :=
  match pointer.bind (index[·]?) with
  | none => .error .badPointer
  | some block => .ok block

/-- `n & (n - 1)`. -/
def invertLowestOne (n : Nat) : Nat := n &&& (n - 1)

def getSkipHeight (height : Nat) : Nat :=
  if height < 2 then 0
  else if height &&& 1 ≠ 0 then invertLowestOne (invertLowestOne (height - 1)) + 1
  else invertLowestOne height

/-- `pskip` is the better way down: `pprev->pskip` is not better than `pskip->pprev`. -/
def followSkip (height heightSkip heightSkipPrev : Nat) : Bool :=
  heightSkip == height ||
    (decide (heightSkip > height) && !(decide (heightSkipPrev < heightSkip - 2) && decide (heightSkipPrev ≥ height)))

def getAncestorLoop (index : Index) (height : Nat) : Nat → Option Nat → Nat → Except Fault (Option Nat)
  | 0, pindexWalk, heightWalk => if heightWalk > height then .error .endless else .ok pindexWalk
  | bound + 1, pindexWalk, heightWalk =>
      if heightWalk > height then do
        let block ← deref index pindexWalk
        if block.pskip.isSome && followSkip height (getSkipHeight heightWalk) (getSkipHeight (heightWalk - 1)) then
          getAncestorLoop index height bound block.pskip (getSkipHeight heightWalk)
        else getAncestorLoop index height bound block.pprev (heightWalk - 1)
      else .ok pindexWalk

/-- `pindex->GetAncestor(height)`. -/
def getAncestor (index : Index) (pindex : Option Nat) (height : Int) : Except Fault (Option Nat) := do
  let block ← deref index pindex
  if height > block.nHeight || height < 0 then return none
  else getAncestorLoop index height.toNat block.nHeight pindex block.nHeight

/-- `pindex->BuildSkip()`. -/
def buildSkip (index : Index) (pindex : Nat) : Except Fault Index := do
  let block ← deref index (some pindex)
  if block.pprev.isSome then
    let pskip ← getAncestor index block.pprev (getSkipHeight block.nHeight)
    return index.set pindex { block with pskip := pskip }
  else return index

def find (index : Index) (hash : Uint256) : Option Nat := index.findIdx? fun block => block.hash == hash

/-- What is done to a new block: `pprev`, `nHeight`. A hash that is there already adds nothing. -/
def addBlock (index : Index) (hash : Uint256) (pprev : Option Nat) : Except Fault Index :=
  match find index hash with
  | some _ => .ok index
  | none =>
      match pprev with
      | none => .ok (index ++ [⟨hash, none, none, 0⟩])
      | some prev => do
          let block ← deref index (some prev)
          return index ++ [⟨hash, some prev, none, block.nHeight + 1⟩]

inductive Build where
  | addBlock (hash : Uint256) (pprev : Option Nat)
  | buildSkip (pindex : Nat)

def build (index : Index) : Build → Except Fault Index
  | .addBlock hash pprev => addBlock index hash pprev
  | .buildSkip pindex => buildSkip index pindex

def Build.Valid (index : Index) : Build → Prop
  | .addBlock _ pprev => ∀ prev ∈ pprev, prev < index.length
  | .buildSkip pindex => pindex < index.length

def pprev (index : Index) (pindex : Nat) : Option Nat := index[pindex]?.bind (·.pprev)

def nHeight (index : Index) (pindex : Nat) : Nat := (index[pindex]?.map (·.nHeight)).getD 0

def followPprev (index : Index) (count pindex : Nat) : Option Nat := climb (pprev index) count pindex

theorem getSkipHeight_lt {height : Nat} (positive : 0 < height) : getSkipHeight height < height := by
  have below (n : Nat) : invertLowestOne n ≤ n - 1 := Nat.and_le_right
  rw [getSkipHeight]
  split_ifs with small odd
  · exact positive
  · have first := below (height - 1)
    have second := below (invertLowestOne (height - 1))
    omega
  · have first := below height
    omega

/-- What holds of the blocks in memory: parents are there, heights fit, hashes differ, and skip pointers are ancestors. -/
structure WellFormed (index : Index) : Prop where
  root : ∀ (pindex : Nat) (block : CBlockIndex), index[pindex]? = some block → block.pprev = none → block.nHeight = 0
  child : ∀ (pindex : Nat) (block : CBlockIndex) (above : Nat), index[pindex]? = some block → block.pprev = some above →
    ∃ prev, index[above]? = some prev ∧ block.nHeight = prev.nHeight + 1
  skip : ∀ (pindex : Nat) (block : CBlockIndex), index[pindex]? = some block → ∀ target, block.pskip = some target →
    followPprev index (block.nHeight - getSkipHeight block.nHeight) pindex = some target ∧ 0 < block.nHeight
  hashes : (index.map (·.hash)).Nodup

namespace WellFormed

variable {index : Index} {pindex : Nat} {block : CBlockIndex}

theorem nHeight_eq (here : index[pindex]? = some block) : nHeight index pindex = block.nHeight := by
  rw [nHeight, here, map_some, getD_some]

theorem pprev_eq (here : index[pindex]? = some block) : pprev index pindex = block.pprev := by
  rw [pprev, here, bind_some]

theorem deref_eq (here : index[pindex]? = some block) : deref index (some pindex) = .ok block := by
  rw [deref, bind_some, here]

theorem exists_of_lt (inside : pindex < index.length) : ∃ block, index[pindex]? = some block :=
  ⟨index[pindex], getElem?_eq_getElem inside⟩

theorem lt_of_here (here : index[pindex]? = some block) : pindex < index.length := (List.getElem?_eq_some_iff.mp here).1

section

variable (shape : WellFormed index)
include shape

theorem graded : Graded (pprev index) (nHeight index) := by
  constructor
  · intro node bottom
    rw [nHeight]
    cases here : index[node]? with
    | none => rfl
    | some block =>
      rw [pprev, here, bind_some] at bottom
      exact shape.root node block here bottom
  · intro node above up
    rw [pprev] at up
    obtain ⟨block, here, parent⟩ := bind_eq_some_iff.mp up
    obtain ⟨prev, there, one⟩ := shape.child node block above here parent
    rw [nHeight_eq here, nHeight_eq there, one]

theorem closed : ∀ node above, node < index.length → pprev index node = some above → above < index.length := by
  intro node above _ up
  rw [pprev] at up
  obtain ⟨block, here, parent⟩ := bind_eq_some_iff.mp up
  obtain ⟨prev, there, -⟩ := shape.child node block above here parent
  exact lt_of_here there

theorem ancestor_lt {count target : Nat} (inside : pindex < index.length)
    (found : followPprev index count pindex = some target) : target < index.length :=
  @climb_closed _ _ _ _ (· < index.length) shape.closed _ inside found

theorem getAncestorLoop_eq {height : Nat} (bound : Nat) {heightWalk : Nat} (inside : pindex < index.length)
    (here : nHeight index pindex = heightWalk) (low : height ≤ heightWalk) (enough : heightWalk ≤ height + bound) :
    getAncestorLoop index height bound (some pindex) heightWalk = .ok (followPprev index (heightWalk - height) pindex) := by
  induction bound generalizing pindex heightWalk with
  | zero =>
    have same : heightWalk = height := by omega
    rw [getAncestorLoop, if_neg (by omega), same, Nat.sub_self]
    rfl
  | succ bound ih =>
    obtain ⟨block, there⟩ := exists_of_lt inside
    have value := nHeight_eq there
    rw [getAncestorLoop]
    by_cases more : heightWalk > height
    · rw [if_pos more, deref_eq there]
      dsimp only [bind, Except.bind]
      split_ifs with skips
      · -- The skip pointer is the ancestor at the height that the loop notes down.
        rw [and_eq_true, followSkip, or_eq_true, beq_iff_eq, and_eq_true, decide_eq_true_iff] at skips
        obtain ⟨some, order⟩ := skips
        obtain ⟨target, pskip⟩ := isSome_iff_exists.mp some
        obtain ⟨found, -⟩ := shape.skip pindex block there target pskip
        rw [← value, here] at found
        have jump := getSkipHeight_lt (by omega : 0 < heightWalk)
        have rise := shape.graded.height_climb found
        have above : height ≤ getSkipHeight heightWalk := by
          rcases order with same | ⟨greater, -⟩
          · exact same.ge
          · exact greater.le
        rw [pskip, ih (shape.ancestor_lt inside found) (by omega) above (by omega)]
        have split : heightWalk - height = heightWalk - getSkipHeight heightWalk + (getSkipHeight heightWalk - height) := by omega
        rw [followPprev, followPprev, split, climb_add]
        rw [followPprev] at found
        rw [found, bind_some]
      · cases parent : block.pprev with
        | none =>
          have bottom := shape.root pindex block there parent
          omega
        | some above =>
          obtain ⟨prev, up, one⟩ := shape.child pindex block above there parent
          have lower := nHeight_eq up
          rw [ih (lt_of_here up) (by omega) (by omega) (by omega)]
          have split : heightWalk - height = heightWalk - 1 - height + 1 := by omega
          rw [followPprev, followPprev, split, climb, pprev_eq there, parent, bind_some]
    · have same : heightWalk = height := by omega
      rw [if_neg more, same, Nat.sub_self]
      rfl

theorem getAncestor_eq (inside : pindex < index.length) (height : Int) :
    getAncestor index (some pindex) height =
      .ok (if 0 ≤ height ∧ height ≤ nHeight index pindex then followPprev index (nHeight index pindex - height.toNat) pindex
        else none) := by
  obtain ⟨block, there⟩ := exists_of_lt inside
  have value := nHeight_eq there
  rw [getAncestor, deref_eq there]
  dsimp only [bind, Except.bind]
  by_cases range : 0 ≤ height ∧ height ≤ nHeight index pindex
  · have keep : (decide (height > (block.nHeight : Int)) || decide (height < 0)) = false := by
      rw [or_eq_false_iff, decide_eq_false_iff_not, decide_eq_false_iff_not]
      omega
    rw [if_pos range, keep, if_neg Bool.false_ne_true, shape.getAncestorLoop_eq _ inside value (by omega) (by omega), value]
  · have out : (decide (height > (block.nHeight : Int)) || decide (height < 0)) = true := by
      rw [or_eq_true, decide_eq_true_iff, decide_eq_true_iff]
      omega
    rw [if_neg range, out, if_pos rfl]
    rfl

theorem followPprev_exists {height : Nat} (low : height ≤ nHeight index pindex) :
    ∃ target, followPprev index (nHeight index pindex - height) pindex = some target ∧ nHeight index target = height := by
  obtain ⟨target, found⟩ := shape.graded.climb_exists (Nat.sub_le (nHeight index pindex) height)
  have rise := shape.graded.height_climb found
  exact ⟨target, found, by omega⟩

end

theorem empty : WellFormed [] := by
  constructor <;> simp

theorem getElem?_append_new {new : CBlockIndex} {index' : Index} (grown : index' = index ++ [new])
    (here : index'[pindex]? = some block) : index[pindex]? = some block ∨ (pindex = index.length ∧ block = new) := by
  rw [grown] at here
  rcases Nat.lt_or_ge pindex index.length with old | later
  · rw [List.getElem?_append_left old] at here
    exact .inl here
  · rw [List.getElem?_append_right later] at here
    obtain ⟨place, same⟩ := List.getElem?_eq_some_iff.mp here
    rw [length_singleton] at place
    have last : pindex - index.length = 0 := by omega
    simp only [last, getElem_cons_zero] at same
    exact .inr ⟨by omega, same.symm⟩

theorem followPprev_append (shape : WellFormed index) (new : CBlockIndex) (count : Nat) (inside : pindex < index.length) :
    followPprev (index ++ [new]) count pindex = followPprev index count pindex := by
  refine @climb_congr _ _ _ _ (· < index.length) ?_ shape.closed count inside
  intro node old
  rw [pprev, pprev, getElem?_append_left old]

theorem append (shape : WellFormed index) {new : CBlockIndex} (fresh : new.hash ∉ index.map (·.hash)) (noSkip : new.pskip = none)
    (fits : (new.pprev = none ∧ new.nHeight = 0) ∨
      ∃ above prev, new.pprev = some above ∧ index[above]? = some prev ∧ new.nHeight = prev.nHeight + 1) :
    WellFormed (index ++ [new]) := by
  refine ⟨?_, ?_, ?_, ?_⟩
  · intro pindex block here bottom
    rcases getElem?_append_new rfl here with old | ⟨-, rfl⟩
    · exact shape.root pindex block old bottom
    · rcases fits with ⟨-, zero⟩ | ⟨above, prev, parent, -⟩
      · exact zero
      · rw [bottom] at parent
        cases parent
  · intro pindex block above here parent
    rcases getElem?_append_new rfl here with old | ⟨-, rfl⟩
    · obtain ⟨prev, there, one⟩ := shape.child pindex block above old parent
      exact ⟨prev, by rw [getElem?_append_left (lt_of_here there), there], one⟩
    · rcases fits with ⟨bottom, -⟩ | ⟨other, prev, parent', there, one⟩
      · rw [parent] at bottom
        cases bottom
      · rw [parent, some.injEq] at parent'
        exact ⟨prev, by rw [parent', getElem?_append_left (lt_of_here there), there], one⟩
  · intro pindex block here target pskip
    rcases getElem?_append_new rfl here with old | ⟨-, rfl⟩
    · rw [shape.followPprev_append _ _ (lt_of_here old)]
      exact shape.skip pindex block old target pskip
    · rw [noSkip] at pskip
      cases pskip
  · rw [map_append, map_singleton, nodup_append]
    exact ⟨shape.hashes, nodup_singleton _, fun hash old other new same => fresh (by
      rw [mem_singleton] at new
      rw [← new, ← same]
      exact old)⟩

theorem pprev_set (pskip : Option Nat) (here : index[pindex]? = some block) :
    pprev (index.set pindex { block with pskip := pskip }) = pprev index := by
  funext node
  rw [pprev, pprev, getElem?_set]
  split_ifs with same inside
  · rw [← same, here]
    rfl
  · rw [← same, getElem?_eq_none (not_lt.mp inside)]
  · rfl

theorem set (shape : WellFormed index) {pskip : Option Nat} (here : index[pindex]? = some block)
    (right : ∀ target, pskip = some target →
      followPprev index (block.nHeight - getSkipHeight block.nHeight) pindex = some target ∧ 0 < block.nHeight) :
    WellFormed (index.set pindex { block with pskip := pskip }) := by
  have inside := lt_of_here here
  have links := pprev_set pskip here
  have old {place : Nat} {other : CBlockIndex} (found : (index.set pindex { block with pskip := pskip })[place]? = some other) :
      ∃ before, index[place]? = some before ∧ before.pprev = other.pprev ∧ before.nHeight = other.nHeight ∧
        (before = other ∨ (place = pindex ∧ other.pskip = pskip)) := by
    rw [getElem?_set] at found
    split_ifs at found with same
    · obtain rfl := some.inj found
      exact ⟨block, same ▸ here, rfl, rfl, .inr ⟨same.symm, rfl⟩⟩
    · exact ⟨other, found, rfl, rfl, .inl rfl⟩
  refine ⟨?_, ?_, ?_, ?_⟩
  · intro place other found bottom
    obtain ⟨before, there, parent, height, -⟩ := old found
    rw [← height]
    exact shape.root place before there (parent.trans bottom)
  · intro place other above found up
    obtain ⟨before, there, parent, height, -⟩ := old found
    obtain ⟨prev, further, one⟩ := shape.child place before above there (parent.trans up)
    rw [← height, getElem?_set]
    split_ifs with same
    · rw [← same, here, some.injEq] at further
      exact ⟨_, rfl, by rw [one, ← further]⟩
    · exact ⟨prev, further, one⟩
  · intro place other found target skips
    obtain ⟨before, there, parent, height, same | ⟨same, new⟩⟩ := old found
    · rw [followPprev, links]
      exact shape.skip place other (same ▸ there) target skips
    · subst same
      rw [here, some.injEq] at there
      rw [followPprev, links, ← height, ← there]
      exact right target (new.symm.trans skips)
  · have same : (index.set pindex { block with pskip := pskip }).map (·.hash) = index.map (·.hash) := by
      refine ext_getElem? fun place => ?_
      rw [getElem?_map, getElem?_map, getElem?_set]
      split_ifs with same
      · rw [← same, here]
        rfl
      · rfl
    rw [same]
    exact shape.hashes

theorem find_none {hash : Uint256} (none : find index hash = none) : hash ∉ index.map (·.hash) := by
  intro member
  obtain ⟨block, inside, same⟩ := mem_map.mp member
  have other := findIdx?_eq_none_iff.mp none block inside
  rw [same, beq_self_eq_true] at other
  cases other

theorem addBlock_eq (shape : WellFormed index) {hash : Uint256} {pprev : Option Nat} (valid : ∀ prev ∈ pprev, prev < index.length) :
    ∃ index', addBlock index hash pprev = .ok index' ∧ WellFormed index' := by
  cases old : find index hash with
  | some place => exact ⟨index, by rw [addBlock.eq_def, old], shape⟩
  | none =>
    have fresh := find_none old
    rw [addBlock.eq_def, old]
    cases pprev with
    | none => exact ⟨_, rfl, @append _ shape ⟨hash, none, none, 0⟩ fresh rfl (.inl ⟨rfl, rfl⟩)⟩
    | some prev =>
      obtain ⟨block, here⟩ := exists_of_lt (valid prev rfl)
      dsimp only
      rw [deref_eq here]
      exact ⟨_, rfl, @append _ shape ⟨hash, some prev, none, block.nHeight + 1⟩ fresh rfl
        (.inr ⟨prev, block, rfl, here, rfl⟩)⟩

theorem buildSkip_eq (shape : WellFormed index) (inside : pindex < index.length) :
    ∃ index', buildSkip index pindex = .ok index' ∧ WellFormed index' ∧ index'.length = index.length ∧
      ∀ block', index'[pindex]? = some block' → block'.pprev.isSome = true → block'.pskip.isSome = true := by
  obtain ⟨block, here⟩ := exists_of_lt inside
  have value := nHeight_eq here
  rw [buildSkip, deref_eq here]
  dsimp only [bind, Except.bind]
  obtain parent | ⟨above, parent⟩ := eq_none_or_eq_some block.pprev
  · rw [if_neg (by rw [parent]; exact false_ne_true)]
    refine ⟨index, rfl, shape, rfl, fun block' same up => ?_⟩
    rw [here, Option.some.injEq] at same
    rw [← same, parent] at up
    cases up
  · obtain ⟨prev, there, one⟩ := shape.child pindex block above here parent
    have lower := nHeight_eq there
    have jump := getSkipHeight_lt (by omega : 0 < block.nHeight)
    obtain ⟨target, found, -⟩ := shape.followPprev_exists (by omega : getSkipHeight block.nHeight ≤ nHeight index above)
    have lookup : getAncestor index block.pprev (getSkipHeight block.nHeight) = .ok (some target) := by
      rw [parent, shape.getAncestor_eq (lt_of_here there), if_pos (by omega), Int.toNat_natCast, found]
    rw [if_pos (by rw [parent]; rfl), lookup]
    refine ⟨_, rfl, shape.set here ?_, length_set, fun block' same _ => ?_⟩
    · intro other same
      rw [← some.inj same]
      refine ⟨?_, by omega⟩
      have split : block.nHeight - getSkipHeight block.nHeight = nHeight index above - getSkipHeight block.nHeight + 1 := by omega
      rw [followPprev, split, climb, pprev_eq here, parent, bind_some]
      exact found
    · rw [getElem?_set_self inside, Option.some.injEq] at same
      rw [← same]
      rfl

theorem build_eq (shape : WellFormed index) {call : Build} (valid : call.Valid index) :
    ∃ index', build index call = .ok index' ∧ WellFormed index' := by
  cases call with
  | addBlock hash pprev => exact shape.addBlock_eq valid
  | buildSkip pindex =>
    obtain ⟨index', done, shape', -⟩ := shape.buildSkip_eq valid
    exact ⟨index', done, shape'⟩

theorem build_keeps (shape : WellFormed index) {index' : Index} {call : Build} (done : build index call = .ok index') :
    WellFormed index' := by
  by_cases valid : call.Valid index
  · obtain ⟨other, same, shape'⟩ := shape.build_eq valid
    rw [done, ok.injEq] at same
    exact same ▸ shape'
  · have lost {pointer : Nat} (outside : ¬ pointer < index.length) : deref index (some pointer) = .error .badPointer := by
      rw [deref, bind_some, getElem?_eq_none (not_lt.mp outside)]
    cases call with
    | addBlock hash pprev =>
      rw [Build.Valid] at valid
      push Not at valid
      obtain ⟨prev, rfl, outside⟩ := valid
      rw [build, addBlock.eq_def] at done
      cases old : find index hash with
      | some place =>
        rw [old] at done
        exact ok.inj done ▸ shape
      | none =>
        rw [old] at done
        dsimp only at done
        rw [lost (not_lt.mpr outside)] at done
        cases done
    | buildSkip pindex =>
      rw [build, buildSkip, lost valid] at done
      cases done

theorem of_built {calls : List Build} {index' : Index} (built : calls.foldlM build index = .ok index') (shape : WellFormed index) :
    WellFormed index' := by
  induction calls generalizing index with
  | nil =>
    cases built
    exact shape
  | cons call calls ih =>
    rw [foldlM_cons] at built
    cases first : build index call with
    | error fault =>
      rw [first] at built
      cases built
    | ok next =>
      rw [first] at built
      exact ih built (shape.build_keeps first)

end WellFormed

/-- What `GetAncestor` and `BuildSkip` do on a tree. -/
structure Lookup (index : Index) : Prop where
  inside : ∀ pindex < index.length, ∀ height : Nat, height ≤ nHeight index pindex →
    ∃ target, followPprev index (nHeight index pindex - height) pindex = some target ∧ nHeight index target = height ∧
      getAncestor index (some pindex) height = .ok (some target)
  outside : ∀ pindex < index.length, ∀ height : Int, height < 0 ∨ (nHeight index pindex : Int) < height →
    getAncestor index (some pindex) height = .ok none
  pskip : ∀ (pindex target : Nat) (block : CBlockIndex), index[pindex]? = some block → block.pskip = some target →
    followPprev index (block.nHeight - getSkipHeight block.nHeight) pindex = some target ∧
      nHeight index target = getSkipHeight block.nHeight ∧ nHeight index target < block.nHeight
  builds : ∀ call : Build, call.Valid index → ∃ index', build index call = .ok index'
  skips : ∀ pindex < index.length, ∃ index', buildSkip index pindex = .ok index' ∧
    ∀ block', index'[pindex]? = some block' → block'.pprev.isSome = true → block'.pskip.isSome = true

/-- On every tree, whichever of its blocks have skip pointers, the lookup of an ancestor is the walk by `pprev`. -/
theorem getAncestor_linear {calls : List Build} {index : Index} (built : calls.foldlM build [] = .ok index) : Lookup index := by
  have shape := WellFormed.empty.of_built built
  refine ⟨?_, ?_, ?_, ?_, ?_⟩
  · intro pindex inside height low
    obtain ⟨target, found, level⟩ := shape.followPprev_exists low
    refine ⟨target, found, level, ?_⟩
    rw [shape.getAncestor_eq inside, if_pos ⟨Int.natCast_nonneg _, Int.ofNat_le.mpr low⟩, Int.toNat_natCast, found]
  · intro pindex inside height out
    rw [shape.getAncestor_eq inside, if_neg (by omega)]
  · intro pindex target block here skip
    obtain ⟨found, positive⟩ := shape.skip pindex block here target skip
    have value := WellFormed.nHeight_eq here
    have rise := shape.graded.height_climb found
    have jump := getSkipHeight_lt positive
    exact ⟨found, by omega, by omega⟩
  · intro call valid
    obtain ⟨index', done, -⟩ := shape.build_eq valid
    exact ⟨index', done⟩
  · intro pindex inside
    obtain ⟨index', done, -, -, skips⟩ := shape.buildSkip_eq inside
    exact ⟨index', done, skips⟩

/-- A root with two blocks on it, of which the upper one has no skip pointer. -/
theorem getAncestor_linear_sample : Lookup [⟨0, none, none, 0⟩, ⟨1, some 0, some 0, 1⟩, ⟨2, some 1, none, 2⟩] :=
  @getAncestor_linear [.addBlock 0 none, .addBlock 1 (some 0), .buildSkip 1, .addBlock 2 (some 1)] _ rfl

end Longcoin.Chain
